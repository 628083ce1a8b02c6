import H2.Futex.Common
import H2.Hexagon.Packet
import H2.Init.Setup

/-!
# Futex/CommonOpt — the futex buckets, optimised

`futex_common.v4opt.S` walks a bucket with the successor of the current thread in a register, takes
a thread out with the neighbours it has read on the way, and marks `ready_valids` a word at a time
where the reference marks double words.

None of this shows: joining a bucket and removing one waiter do what the reference does
(`FutexOpt.futexHashAddRing_eq`, `FutexOpt.futexHashRemoveOne_eq`), in any bucket that is a ring
(`FutexOpt.futexHash_refines`).  Only the position is stored when no waiter is found, too.
-/

namespace H2

open Function Hexagon

open Sched (init validBit)

open Option (bind_eq_bind bind_some)

variable {ι β : Type} [dι : DecidableEq ι] [dβ : DecidableEq β]

namespace FutexOpt

/-! ## Words of the bitmap -/

/-- `memw(READYVALIDS+WIDX<<#2)`. -/
def loadValids (widx : ℕ) (valids : ℕ → Dword) : Word :=
  if widx % 2 = 0 then lower (valids (widx / 2)) else upper (valids (widx / 2))

/-- `memw(READYVALIDS+WIDX<<#2) = TMP`. -/
def storeValids (widx : ℕ) (tmp : Word) (valids : ℕ → Dword) : ℕ → Dword :=
  let pair := valids (widx / 2)
  update valids (widx / 2)
    (if widx % 2 = 0 then join (upper pair) tmp else join tmp (lower pair))

theorem validBit_ext {v v' : ℕ → Dword} (h : ∀ p, validBit v p = validBit v' p) : v = v' := by
  funext i
  refine BitVec.eq_of_getLsbD_eq fun j hj => ?_
  have hbit := h (64 * i + j)
  have hidx : (64 * i + j) / 64 = i := by omega
  have hpos : (64 * i + j) % 64 = j := by omega
  rwa [validBit, validBit, hidx, hpos] at hbit

theorem getLsbD_loadValids (widx : ℕ) (valids : ℕ → Dword) {i : ℕ} (hi : i < 32) :
    (loadValids widx valids).getLsbD i = validBit valids (32 * widx + i) := by
  have hidx : (32 * widx + i) / 64 = widx / 2 := by omega
  unfold loadValids validBit
  rw [hidx]
  split
  · have hpos : (32 * widx + i) % 64 = i := by omega
    rw [hpos, getLsbD_lower _ hi]
  · have hpos : (32 * widx + i) % 64 = 32 + i := by omega
    rw [hpos, getLsbD_upper _ hi]

theorem validBit_storeValids (widx : ℕ) (tmp : Word) (valids : ℕ → Dword) (p : ℕ) :
    validBit (storeValids widx tmp valids) p =
      if p / 32 = widx then tmp.getLsbD (p % 32) else validBit valids p := by
  unfold storeValids validBit
  by_cases hpair : p / 64 = widx / 2
  · rw [hpair, update_self]
    rcases Nat.lt_or_ge (p % 64) 32 with hlo | hhi
    · have hpos : p % 32 = p % 64 := by omega
      have hword : p / 32 = widx ↔ widx % 2 = 0 := by omega
      simp only [hword, hpos]
      split
      · rw [getLsbD_join, if_pos hlo]
      · rw [getLsbD_join, if_pos hlo, getLsbD_lower _ hlo]
    · have hpos : p % 32 = p % 64 - 32 := by omega
      have hword : p / 32 = widx ↔ ¬widx % 2 = 0 := by omega
      have hlt : p % 64 - 32 < 32 := by omega
      simp only [hword, hpos, ite_not]
      split
      · rw [getLsbD_join, if_neg (by omega), getLsbD_upper _ hlt, Nat.add_sub_cancel' hhi]
      · rw [getLsbD_join, if_neg (by omega)]
  · have hword : p / 32 ≠ widx := fun e => hpair (by omega)
    rw [update_of_ne hpair, if_neg hword]

/-- A word changed in the bit of a priority, as the bitmap shows it. -/
theorem validBit_change {prio : ℕ} {w : Word} {valids : ℕ → Dword} {g : Bool → Bool → Bool}
    (hw : ∀ i < 32, w.getLsbD i =
      g (decide (i = prio % 32)) ((loadValids (prio / 32) valids).getLsbD i))
    (hg : ∀ b, g false b = b) (p : ℕ) : validBit (storeValids (prio / 32) w valids) p =
      g (decide (p = prio)) (validBit valids p) := by
  have hmod : p % 32 < 32 := Nat.mod_lt _ (by decide)
  rw [validBit_storeValids]
  split
  · next hword =>
    have hsame : 32 * (prio / 32) + p % 32 = p := by omega
    have hpos : p % 32 = prio % 32 ↔ p = prio := by omega
    rw [hw _ hmod, getLsbD_loadValids _ _ hmod, hsame]
    simp only [hpos]
  · next hword =>
    have hne : p ≠ prio := fun e => hword (by rw [e])
    rw [decide_eq_false hne, hg]

/-- **Setting a bit** of a word marks the priority, … -/
theorem storeValids_setbit (prio : ℕ) (valids : ℕ → Dword) :
    storeValids (prio / 32) (setbit (loadValids (prio / 32) valids) (prio % 32)) valids =
      Sched.readySetPrio prio valids := by
  refine validBit_ext fun p => ?_
  rw [Sched.validBit_readySetPrio]
  refine validBit_change (fun i hi => ?_) Bool.false_or p
  rw [setbit, BitVec.getLsbD_or, getLsbD_bit hi, Bool.or_comm]

/-- … and clearing it clears it. -/
theorem storeValids_clrbit (prio : ℕ) (valids : ℕ → Dword) :
    storeValids (prio / 32) (clrbit (loadValids (prio / 32) valids) (prio % 32)) valids =
      Sched.readyClearPrio prio valids := by
  refine validBit_ext fun p => ?_
  rw [Sched.validBit_readyClearPrio]
  refine validBit_change (g := fun a b => !a && b) (fun i hi => ?_) (fun _ => rfl) p
  rw [clrbit, BitVec.getLsbD_and, BitVec.getLsbD_not, getLsbD_bit hi, decide_eq_true hi,
    Bool.true_and, Bool.and_comm]

/-! ## The bucket -/

/-- The index of the bucket that `tableidxw` takes from `HASH`. -/
def bucket (pa : Dword) : ℕ :=
  let hash := lower pa * 2654435761#32 ^^^ upper pa <<< 26
  (hash.extractLsb' 26 6).toNat

/-- **The bucket is the same**, for an address whose upper word has no more bits than the index. -/
theorem bucket_eq {pa : Dword} (hpa : pa.toNat < 0x4000000000) :
    bucket pa = futexHashval pa.toNat := by
  have hupper : (upper pa).toNat = pa.toNat / 0x100000000 := Hexagon.toNat_upper pa
  have hidx : pa.toNat / 0x100000000 < 64 := Nat.div_lt_of_lt_mul hpa
  have hlo : ((lower pa * 2654435761#32).extractLsb' 26 6).toNat =
      pa.toNat % 0x100000000 * 2654435761 % 0x100000000 / 0x4000000 := by
    rw [BitVec.extractLsb'_toNat, BitVec.toNat_mul, Nat.shiftRight_eq_div_pow]
    exact Nat.mod_eq_of_lt (Nat.div_lt_of_lt_mul (Nat.mod_lt _ (by decide)))
  have hhi : ((upper pa <<< 26).extractLsb' 26 6).toNat = pa.toNat / 0x100000000 % 0x100000000 := by
    rw [BitVec.extractLsb'_toNat, BitVec.toNat_shiftLeft, hupper]
    generalize pa.toNat / 0x100000000 = hi at hidx
    omega
  rw [bucket, BitVec.extractLsb'_xor, BitVec.toNat_xor, hlo, hhi, futexHashval]

/-! ## The assembly -/

section Assembly

/-- From `.Lrm_again` to the packet that tests for the lock, with `CUR`, `CURLOCK` and `NEXT`.  The
two compares are to one predicate, which is their conjunction. -/
def rmAgain (s : Sched ι β) (start : Option ι) (lock : ℕ) :
    ℕ → ι → ℕ → Option ι → Option (ι × ℕ × Option ι)
  | 0, _, _, _ => none
  | fuel + 1, cur, curlock, next =>
    if next ≠ start ∧ curlock ≠ lock then
      next.bind fun cur =>
        rmAgain s start lock fuel cur (s.futexPtr cur % 0x100000000) (s.rings.links.next cur)
    else some (cur, curlock, next)

/-- The packets that unlink `CUR`; the head is compared with it before it is written. -/
def rmUnlink (hashval : ℕ) (start : Option ι) (cur : ι) (next : Option ι) (s : Sched ι β) :
    Sched ι β :=
  let prev := s.rings.links.prev cur
  let links := (s.rings.links.setNextOf prev next).setPrevOf next prev
  let next := if next = some cur then none else next
  { s with rings := ⟨links,
      if some cur = start then update s.rings.head (.futex hashval) next
      else s.rings.head⟩ }

/-- The packets that make `CUR` ready, up to the one that stores the word of `ready_valids`. -/
def rmReady (cur : ι) (s : Sched ι β) : Sched ι β :=
  let newprio := s.prio cur
  let links := s.rings.links
  { s with
    status := update s.status cur .ready
    rings :=
      match s.rings.head (.ready newprio) with
      | none => ⟨(links.setNext cur (some cur)).setPrev cur (some cur),
          update s.rings.head (.ready newprio) (some cur)⟩
      | some readyhead =>
        let prev := links.prev readyhead
        let links := (links.setNext cur (some readyhead)).setPrev cur prev
        ⟨(links.setPrev readyhead (some cur)).setNextOf prev (some cur), s.rings.head⟩
    readyValids :=
      storeValids (newprio / 32) (setbit (loadValids (newprio / 32) s.readyValids) (newprio % 32))
        s.readyValids }

/-- `H2K_futex_hash_remove_one`: the thread made ready, and what is stored as the next position. -/
def futexHashRemoveOne [Fintype ι] (lock hashval : ℕ) (pos : Option ι) (s : Sched ι β) :
    Option (Option ι × Option ι × Sched ι β) :=
  let start := s.rings.head (.futex hashval)
  if start = none then some (none, pos, s)
  else do
    let cur ← pos
    let (cur, curlock, next) ← rmAgain s start lock (Fintype.card ι) cur
      (s.futexPtr cur % 0x100000000) (s.rings.links.next cur)
    -- the store of the position is in the packet that jumps to `.Lrm_bad`
    if curlock ≠ lock then some (none, next, s)
    else some (some cur, next, rmReady cur (rmUnlink hashval start cur next s))

/-- From `.Lnext` to `.Ladd_found`, with `PREV` and `NEXT`. -/
def addNext (s : Sched ι β) (myprio : ℕ) : ℕ → Option ι → Option ι → Option (ι × Option ι)
  | 0, _, _ => none
  | fuel + 1, prev, next =>
    prev.bind fun prev =>
      if myprio < s.prio prev then addNext s myprio fuel (s.rings.links.prev prev) (some prev)
      else some (prev, next)

/-- From `.Ladd_found` on: the neighbours first, then both fields of the thread. -/
def addFound (me : ι) (prev next : Option ι) (links : Links ι) : Links ι :=
  let links := (links.setPrevOf next (some me)).setNextOf prev (some me)
  (links.setNext me next).setPrev me prev

/-- `H2K_futex_hash_add_ring`. -/
def futexHashAddRing [Fintype ι] (hashval : ℕ) (me : ι) (s : Sched ι β) : Option (Sched ι β) :=
  let links := s.rings.links
  match s.rings.head (.futex hashval) with
  | none =>
    some { s with
      rings := ⟨(links.setNext me (some me)).setPrev me (some me),
        update s.rings.head (.futex hashval) (some me)⟩ }
  | some curhead =>
    let myprio := s.prio me
    let prev := links.prev curhead
    if myprio < s.prio curhead then
      some { s with
        rings := ⟨addFound me prev (some curhead) links,
          update s.rings.head (.futex hashval) (some me)⟩ }
    else do
      let (prev, next) ← addNext s myprio (Fintype.card ι) prev (some curhead)
      some { s with rings := ⟨addFound me (some prev) next links, s.rings.head⟩ }

end Assembly

/-! ## Removing one waiter -/

section RemoveOne

variable {s : Sched ι β}

omit dβ in
/-- **The walk** stops where the reference's does: at the lock, or in front of the head. -/
theorem rmAgain_eq_seek {start : Option ι} (hstart : start ≠ none) (lock : ℕ) :
    ∀ (fuel : ℕ) (cur : ι),
      (rmAgain s start lock fuel cur (s.futexPtr cur % 0x100000000)
          (s.rings.links.next cur)).map (fun p => if p.2.1 = lock then some p.1 else none) =
        s.rings.links.seek start (fun x => s.futexPtr x % 0x100000000 == lock) fuel cur
  | 0, _ => rfl
  | fuel + 1, cur => by
      rw [rmAgain, Links.seek]
      by_cases hlock : s.futexPtr cur % 0x100000000 = lock
      · simp [hlock]
      rcases hnext : s.rings.links.next cur with - | next
      · simp [hlock, hstart.symm]
      · by_cases hwrap : start = some next
        · simp [hlock, hwrap]
        · have hwrap' : some next ≠ start := fun e => hwrap e.symm
          simp only [ne_eq, hwrap', hlock, beq_iff_eq, if_neg hwrap]
          exact rmAgain_eq_seek hstart lock fuel next

omit dβ in
/-- What the walk stops with is read off the thread it stops at. -/
theorem rmAgain_reads {start : Option ι} {lock : ℕ} :
    ∀ {fuel : ℕ} {cur cur' : ι} {curlock : ℕ} {next : Option ι},
      rmAgain s start lock fuel cur (s.futexPtr cur % 0x100000000) (s.rings.links.next cur) =
          some (cur', curlock, next) →
        curlock = s.futexPtr cur' % 0x100000000 ∧ next = s.rings.links.next cur'
  | fuel + 1, cur, cur', curlock, next, h => by
      rw [rmAgain] at h
      split at h
      · obtain ⟨c, -, hc⟩ := Option.bind_eq_some_iff.mp h
        exact rmAgain_reads hc
      · simp only [Option.some.injEq] at h
        obtain ⟨rfl, rfl, rfl⟩ := h
        exact ⟨rfl, rfl⟩

/-- Unlinking with the neighbours in registers. -/
theorem rmUnlink_eq (hashval : ℕ) (cur : ι) (s : Sched ι β) :
    rmUnlink hashval (s.rings.head (.futex hashval)) cur (s.rings.links.next cur) s =
      { s with rings := s.rings.remove (.futex hashval) cur } := by
  simp only [rmUnlink, Rings.remove_eq, eq_comm]

/-- Making a thread ready by words. -/
theorem rmReady_eq (cur : ι) (s : Sched ι β) : rmReady cur s = s.readyAppend cur := by
  unfold rmReady Sched.readyAppend Rings.append
  simp only [storeValids_setbit]
  cases s.rings.head (.ready (s.prio cur)) with
  | none => rfl
  | some head => simp only [Links.linkBefore_eq]

/-- **Removing one waiter** is the same, but for the position when there is none. -/
theorem futexHashRemoveOne_eq [Fintype ι] (lock hashval : ℕ) (pos : Option ι) (s : Sched ι β) :
    (futexHashRemoveOne lock hashval pos s).map
        (fun p => (p.1, if p.1 = none then pos else p.2.1, p.2.2)) =
      s.futexHashRemoveOne lock hashval pos := by
  unfold futexHashRemoveOne Sched.futexHashRemoveOne
  by_cases hstart : s.rings.head (.futex hashval) = none
  · simp [hstart]
  rcases pos with - | start
  · simp [hstart]
  simp only [if_neg hstart, bind_eq_bind, bind_some]
  rw [← rmAgain_eq_seek hstart]
  rcases hwalk : rmAgain s (s.rings.head (.futex hashval)) lock (Fintype.card ι) start
      (s.futexPtr start % 0x100000000) (s.rings.links.next start) with - | ⟨cur, curlock, next⟩
  · rfl
  obtain ⟨rfl, rfl⟩ := rmAgain_reads hwalk
  by_cases hlock : s.futexPtr cur % 0x100000000 = lock
  · simp [hlock, rmReady_eq, rmUnlink_eq]
  · simp [hlock]

end RemoveOne

/-! ## Joining a bucket -/

section AddRing

variable {s : Sched ι β} {l : Links ι} {me : ι}

omit dι dβ in
/-- **The walk back** carries the successor along. -/
theorem addNext_eq_seekBack {h : Option ι} {xs : List ι} (hr : IsRing s.rings.links h xs)
    (myprio : ℕ) : ∀ (fuel : ℕ) {prev next : ι}, prev ∈ xs → s.rings.links.Linked prev next →
      addNext s myprio fuel (some prev) (some next) =
        (s.rings.links.seekBack (fun x => !decide (myprio < s.prio x)) fuel prev).map
          fun t => (t, s.rings.links.next t)
  | 0, _, _, _, _ => rfl
  | fuel + 1, prev, next, hmem, hlink => by
      obtain ⟨a, ha, hlink'⟩ := hr.prev_mem hmem
      rw [addNext, Links.seekBack, bind_some]
      by_cases hworse : myprio < s.prio prev
      · rw [hlink'.2, addNext_eq_seekBack hr myprio fuel ha hlink']
        simp [hworse]
      · simp [hworse, hlink.1]

/-- Linking with the neighbours first is no different for a thread that is not one of them. -/
theorem addFound_eq {prev next : ι} (hprev : me ≠ prev) (hnext : me ≠ next) :
    addFound me (some prev) (some next) l = l.linkBetween me (some prev) (some next) := by
  refine Links.ext_fields (fun x => ?_) fun x => ?_
  · by_cases hx : x = me
    · simp [addFound, Links.linkBetween, hx, hprev, hnext]
    · simp [addFound, Links.linkBetween, hx, hnext]
  · by_cases hx : x = me
    · simp [addFound, Links.linkBetween, hx, hnext]
    · simp [addFound, Links.linkBetween, hx]

/-- **Joining a bucket** is the same, for a thread that is in no ring. -/
theorem futexHashAddRing_eq [Fintype ι] {L : RingRef β → List ι} (hashval : ℕ)
    (hL : s.rings.Rep L) (hout : ∀ r, me ∉ L r) :
    futexHashAddRing hashval me s = s.futexHashAddRing hashval me := by
  have hring := hL.ring (.futex hashval)
  have hne {x : ι} (hx : x ∈ L (.futex hashval)) : me ≠ x := fun e => hout _ (e ▸ hx)
  unfold futexHashAddRing Sched.futexHashAddRing
  rcases hhead : s.rings.head (.futex hashval) with - | head
  · rfl
  have hmem : head ∈ L (.futex hashval) :=
    List.mem_of_mem_head? (hring.head.symm.trans hhead)
  obtain ⟨last, hlast, hlink⟩ := hring.prev_mem hmem
  simp only [hlink.2]
  split
  · rw [addFound_eq (hne hlast) (hne hmem)]
  · simp only [bind_eq_bind, bind_some,
      addNext_eq_seekBack hring (s.prio me) (Fintype.card ι) hlast hlink]
    rcases hseek : s.rings.links.seekBack (fun x => !decide (s.prio me < s.prio x))
        (Fintype.card ι) last with - | tmp
    · rfl
    · have htmp := hring.seekBack_mem hlast hseek
      obtain ⟨b, hb, hnext⟩ := hring.next_mem htmp
      simp [hnext.1, addFound_eq (hne htmp) (hne hb)]

end AddRing

/-! ## Both -/

section Both

variable [Fintype ι] {s : Sched ι β} {L : RingRef β → List ι}

theorem futexHashRemoveOne_isSome (hL : s.rings.Rep L) (lock : ℕ) {hashval : ℕ} {pos : ι}
    (hpos : pos ∈ L (.futex hashval)) : (s.futexHashRemoveOne lock hashval (some pos)).isSome := by
  obtain ⟨A, B, hAB⟩ := List.append_of_mem hpos
  have hring : IsRing s.rings.links (s.rings.head (.futex hashval)) (A ++ pos :: B) :=
    hAB ▸ hL.ring _
  have hlen : (pos :: B).length ≤ Fintype.card ι := by
    have := hring.nodup.length_le_card
    rw [List.length_append] at this
    omega
  have hhead : s.rings.head (.futex hashval) ≠ none := by
    rw [Ne, hL.head_eq_none, hAB]
    simp
  rw [Sched.futexHashRemoveOne, if_neg hhead, bind_eq_bind, bind_some,
    hring.seek hlen, bind_eq_bind, bind_some]
  split <;> rfl

/-- **The optimised buckets are the buckets**: a thread that is in no ring joins one in the same
way, and from any position inside it the same waiter is removed, with the same next position. -/
theorem futexHash_refines (hL : s.rings.Rep L) (hashval : ℕ) :
    (∀ me, (∀ r, me ∉ L r) → ∃ s', s.futexHashAddRing hashval me = some s' ∧
      futexHashAddRing hashval me s = some s') ∧
    ∀ lock pos, (L (.futex hashval) ≠ [] → ∃ c ∈ L (.futex hashval), pos = some c) →
      ∃ r next next' s', s.futexHashRemoveOne lock hashval pos = some (r, next, s') ∧
        futexHashRemoveOne lock hashval pos s = some (r, next', s') ∧
        (r ≠ none → next' = next) := by
  refine ⟨fun me hout => ?_, fun lock pos hpos => ?_⟩
  · obtain ⟨R, hadd, -⟩ := futexHashAddRing_adds hashval hL hout
    exact ⟨_, hadd, (futexHashAddRing_eq hashval hL hout).trans hadd⟩
  have heq := futexHashRemoveOne_eq lock hashval pos s
  have hsome : (s.futexHashRemoveOne lock hashval pos).isSome := by
    by_cases hq : L (.futex hashval) = []
    · simp [Sched.futexHashRemoveOne, hL.head_eq_none.mpr hq]
    · obtain ⟨c, hc, rfl⟩ := hpos hq
      exact futexHashRemoveOne_isSome hL lock hc
  obtain ⟨⟨r, next, s'⟩, hone⟩ := Option.isSome_iff_exists.mp hsome
  rw [hone, Option.map_eq_some_iff] at heq
  obtain ⟨⟨r', next', s''⟩, hopt, hsame⟩ := heq
  simp only [Prod.mk.injEq] at hsame
  obtain ⟨rfl, hnext, rfl⟩ := hsame
  exact ⟨r', next, next', s'', hone, hopt, fun hr => by rwa [if_neg hr] at hnext⟩

end Both

/-- Two waiters in a bucket. -/
def pairWaits : Sched (Fin 3) Unit :=
  { init with rings := (init.rings.append (.futex 0) 0).append (.futex 0) 1 }

/-- The rings of `pairWaits`. -/
def pairQueue : RingRef Unit → List (Fin 3) := update (fun _ => []) (.futex 0) [0, 1]

theorem rep_pairWaits : pairWaits.rings.Rep pairQueue := by
  have hnil : (init : Sched (Fin 3) Unit).rings.Rep fun _ => [] :=
    ⟨fun _ => .nil _, by simp⟩
  have hone := hnil.append (.futex 0) (n := 0) (by simp)
  have htwo := hone.append (.futex 0) (n := 1) (by
    intro r
    by_cases hr : r = .futex 0 <;> simp [hr])
  simpa [pairWaits, pairQueue] using htwo

theorem futexHash_refines_pair : (∃ s', pairWaits.futexHashAddRing 0 2 = some s' ∧
      futexHashAddRing 0 2 pairWaits = some s') ∧
    ∃ r next next' s', pairWaits.futexHashRemoveOne 0 0 (some 1) = some (r, next, s') ∧
      futexHashRemoveOne 0 0 (some 1) pairWaits = some (r, next', s') ∧ (r ≠ none → next' = next) :=
  ⟨(futexHash_refines rep_pairWaits 0).1 2 (by
      intro r
      by_cases hr : r = .futex 0 <;> simp [pairQueue, hr]),
    (futexHash_refines rep_pairWaits 0).2 0 (some 1) fun _ => ⟨1, by simp [pairQueue], rfl⟩⟩

end FutexOpt

end H2
