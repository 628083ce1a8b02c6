import H2.Data.Queues
import H2.Machinery.Stable

/-!
# Futex/Common — the futex buckets

Threads that wait on a futex are in the ring of its hash value, in order of priority.  A thread
joins at its priority, found by walking back from the end; wake-ups walk forward from a position
that is carried from one to the next.
-/

namespace H2

open Function List

open Option (bind_eq_bind bind_some some)

open Fintype (card)

variable {ι β : Type} [dι : DecidableEq ι] [dβ : DecidableEq β] [fι : Fintype ι]

namespace Sched

/-- `H2K_futex_hash_add_ring`. -/
def futexHashAddRing (hashval : ℕ) (me : ι) (s : Sched ι β) : Option (Sched ι β) :=
  let links := s.rings.links
  match s.rings.head (.futex hashval) with
  | none =>
    some { s with
      rings := ⟨links.linkSelf me, update s.rings.head (.futex hashval) (some me)⟩ }
  | some head =>
    if s.prio me < s.prio head then
      some { s with
        rings := ⟨links.linkBetween me (links.prev head) (some head),
          update s.rings.head (.futex hashval) (some me)⟩ }
    else do
      let last ← links.prev head
      let tmp ← links.seekBack (fun x => !decide (s.prio me < s.prio x)) (card ι) last
      some { s with rings := ⟨links.linkBetween me (some tmp) (links.next tmp), s.rings.head⟩ }

/-- `H2K_futex_hash_remove_one`: the thread made ready, and the next position. -/
def futexHashRemoveOne (locklo hashval : ℕ) (pos : Option ι) (s : Sched ι β) :
    Option (Option ι × Option ι × Sched ι β) :=
  if s.rings.head (.futex hashval) = none then some (none, pos, s)
  else do
    let start ← pos
    match ← s.rings.links.seek (s.rings.head (.futex hashval))
        (fun x => s.futexPtr x % 0x100000000 == locklo) (card ι) start with
    | none => some (none, pos, s)
    | some cur =>
      some (some cur, s.rings.links.next cur,
        { s with rings := s.rings.remove (.futex hashval) cur }.readyAppend cur)

/-- The loop of `H2K_futex_resume`, `n_woken` threads woken so far. -/
def futexResumeLoop (locklo hashval nToWake : ℕ) :
    ℕ → ℕ → Option ι → Sched ι β → Option (ℕ × Sched ι β)
  | 0, _, _, _ => none
  | fuel + 1, nWoken, pos, s => do
    match ← s.futexHashRemoveOne locklo hashval pos with
    | (none, _, s) => some (nWoken, s)
    | (some _, pos, s) =>
      if nWoken + 1 < nToWake then futexResumeLoop locklo hashval nToWake fuel (nWoken + 1) pos s
      else some (nWoken + 1, s)

/-- `H2K_futex_cancel`. -/
def futexCancel (dest : ι) (s : Sched ι β) : Sched ι β :=
  { s with rings := s.rings.remove (.futex (futexHashval (s.futexPtr dest))) dest }.setR00 dest
    u32Max

end Sched

/-! ## Joining a bucket -/

section Joining

variable {s : Sched ι β} {L : RingRef β → List ι} {me : ι} {hashval : ℕ}

omit dι in
theorem IsRing.length_le_card {l : Links ι} {h : Option ι} {xs : List ι} (hr : IsRing l h xs) :
    xs.length ≤ card ι := hr.nodup.length_le_card

omit dι fι in
/-- The last element with a property that some element has. -/
theorem exists_last_of_mem {p : ι → Bool} {xs : List ι} {x : ι} (hx : x ∈ xs) (hp : p x = true) :
    ∃ A a B, xs = A ++ a :: B ∧ p a = true ∧ ∀ b ∈ B, p b = false := by
  have hsome : (xs.reverse.find? p).isSome := by
    rw [find?_isSome]
    exact ⟨x, mem_reverse.mpr hx, hp⟩
  obtain ⟨a, ha⟩ := Option.isSome_iff_exists.mp hsome
  obtain ⟨hpa, B, A, hxs, hB⟩ := find?_eq_some_iff_append.mp ha
  refine ⟨A.reverse, a, B.reverse, ?_, hpa, fun b hb => ?_⟩
  · rw [← reverse_reverse xs, hxs]
    simp
  · simpa using hB b (mem_reverse.mp hb)

omit fι in
theorem Rings.Rep.linkBetween {ρ : Type} [DecidableEq ρ] {R : Rings ρ ι} {L : ρ → List ι}
    (hR : R.Rep L) {r : ρ} {n a : ι} {A B : List ι} (hL : L r = A ++ a :: B) (hn : ∀ r', n ∉ L r') :
    (⟨R.links.linkBetween n (some a) (R.links.next a), R.head⟩ : Rings ρ ι).Rep
        (update L r (A ++ [a] ++ n :: B)) ∧
      ∀ x, x ∉ L r → x ≠ n →
        (R.links.linkBetween n (some a) (R.links.next a)).next x = R.links.next x := by
  have hring : IsRing R.links (R.head r) (A ++ a :: B) := hL ▸ hR.ring r
  obtain ⟨-, b, hb, hab⟩ := hring.neighbours
  have hb' : (B ++ (A ++ [a])).head? = some b := by simpa using hb
  have hbmem : b ∈ L r := by
    have := mem_of_mem_head? hb'
    rw [hL]
    simp only [mem_append, mem_cons] at this ⊢
    tauto
  have hna : n ≠ a := fun e => hn r (by rw [hL, e]; simp)
  have hnb : n ≠ b := fun e => hn r (e ▸ hbmem)
  rw [hab.1, hab.linkBetween_eq hna hnb]
  have hL' : L r = (A ++ [a]) ++ B := by simpa using hL
  refine ⟨?_, fun x hx hxn => (linkBefore_frame (hR.ring r) hbmem (hn r) hx hxn).1⟩
  have hhead : R.head r = (A ++ [a] ++ n :: B).head? := by
    rw [hring.head]
    rcases A with - | ⟨c, A⟩ <;> simp
  have hlink := hR.linkBefore hL' hb' hn hhead
  rwa [update_eq_self] at hlink

/-- **Joining a bucket** puts the thread behind one that is as good, if any is, and before one that
is worse. -/
theorem futexHashAddRing_between (hashval : ℕ) (hL : s.rings.Rep L) (hout : ∀ r, me ∉ L r) :
    ∃ R A B, s.futexHashAddRing hashval me = some { s with rings := R } ∧
      L (.futex hashval) = A ++ B ∧
      R.Rep (update L (.futex hashval) (A ++ me :: B)) ∧
      (∀ x, x ∉ L (.futex hashval) → x ≠ me → R.links.next x = s.rings.links.next x) ∧
      (∀ a ∈ A.getLast?, s.prio a ≤ s.prio me) ∧ ∀ b ∈ B.head?, s.prio me < s.prio b := by
  have hring := hL.ring (.futex hashval)
  unfold Sched.futexHashAddRing
  rcases hhead : s.rings.head (.futex hashval) with - | head
  · refine ⟨_, [], [], rfl, hL.head_eq_none.mp hhead, hL.linkSelf _ hout, fun x _ hx => ?_, by simp,
      by simp⟩
    simp [Links.linkSelf, hx]
  · obtain ⟨m, hm⟩ : ∃ m, L (.futex hashval) = head :: m :=
      head?_eq_some_iff.mp (hring.head.symm.trans hhead)
    obtain ⟨last, hlast⟩ : ∃ a, (head :: m).getLast? = some a :=
      Option.isSome_iff_exists.mp (by simp)
    have hlink : s.rings.links.Linked last head := by
      have hchain := hring.chain
      rw [hm] at hchain
      exact ((chain_cons_iff hlast).mp hchain).2
    have hmem : head ∈ L (.futex hashval) := by simp [hm]
    have hlastmem : last ∈ L (.futex hashval) := hm ▸ mem_of_getLast? hlast
    have hne {x : ι} (hx : x ∈ L (.futex hashval)) : me ≠ x := fun e => hout _ (e ▸ hx)
    simp only
    split
    · next hbetter =>
      -- better than the first: in front of it, and the head moves
      rw [hlink.2, hlink.linkBetween_eq (hne hlastmem) (hne hmem)]
      refine ⟨_, [], L (.futex hashval), rfl, rfl, ?_, fun x hx hxn => ?_, by simp, ?_⟩
      · exact hL.linkBefore rfl (by simp [hm]) hout rfl
      · exact (linkBefore_frame hring hmem (hout _) hx hxn).1
      · simpa [hm] using hbetter
    · next hworse =>
      -- the first stops the walk back at the latest
      obtain ⟨A, a, B, hAB, ha, hB⟩ := exists_last_of_mem (p := fun x =>
        !decide (s.prio me < s.prio x)) hmem (by simpa using hworse)
      have hr : IsRing s.rings.links (s.rings.head (.futex hashval)) (A ++ a :: (B ++ [])) := by
        rw [append_nil, ← hAB]
        exact hring
      have hgetLast : (a :: B).getLast? = some last := by
        rw [← hm, hAB, getLast?_append_of_ne_nil _ (by simp)] at hlast
        exact hlast
      have hlen : B.length < card ι := by
        have := hring.length_le_card
        rw [hAB] at this
        simp at this
        omega
      have hseek : s.rings.links.seekBack (fun x => !decide (s.prio me < s.prio x))
          (card ι) last = some a :=
        IsRing.seekBack (p := fun x => !decide (s.prio me < s.prio x)) ha B hr hB hgetLast hlen
      rw [hlink.2, bind_eq_bind, bind_some, hseek]
      obtain ⟨hrep, hframe⟩ := hL.linkBetween hAB hout
      refine ⟨_, A ++ [a], B, rfl, by simpa using hAB, hrep, hframe, by simpa using ha,
        fun b hb => ?_⟩
      simpa using hB b (mem_of_mem_head? hb)

/-- That is somewhere in its ring, and nothing else has changed. -/
theorem futexHashAddRing_adds (hashval : ℕ) (hL : s.rings.Rep L) (hout : ∀ r, me ∉ L r) :
    ∃ R, s.futexHashAddRing hashval me = some { s with rings := R } ∧
      s.rings.Adds R L (.futex hashval) me := by
  obtain ⟨R, A, B, hadd, hAB, hrep, hframe, -⟩ := futexHashAddRing_between hashval hL hout
  exact ⟨R, hadd, ⟨A, B, hAB, hrep⟩, hframe⟩

/-- **Joining a bucket in order** puts the thread behind all that are as good and before all that
are worse. -/
theorem futexHashAddRing_inserts (hashval : ℕ) (hL : s.rings.Rep s.queue)
    (hout : ∀ r, me ∉ s.queue r)
    (hsorted : (s.queue (.futex hashval)).Pairwise (s.prio · ≤ s.prio ·)) {s' : Sched ι β}
    (hadd : s.futexHashAddRing hashval me = some s') :
    Inserts s.prio me (s.queue (.futex hashval)) (s'.queue (.futex hashval)) ∧
      ∀ r, r ≠ .futex hashval → s'.queue r = s.queue r := by
  obtain ⟨R, A, B, hadd', hAB, hrep, -, hA, hB⟩ := futexHashAddRing_between hashval hL hout
  obtain rfl := some.inj (hadd.symm.trans hadd')
  have hqueue := Rings.Rep.queue_eq (s := { s with rings := R }) hrep
  rw [hqueue]
  refine ⟨?_, fun r hr => update_of_ne hr ..⟩
  rw [update_self, hAB]
  exact .of_between (hAB ▸ hsorted) hA hB

theorem futexHashAddRing_fields {s' : Sched ι β} (hadd : s.futexHashAddRing hashval me = some s') :
    ∃ R, s' = { s with rings := R } := by
  unfold Sched.futexHashAddRing at hadd
  split at hadd
  · exact ⟨_, (some.inj hadd).symm⟩
  split at hadd
  · exact ⟨_, (some.inj hadd).symm⟩
  · obtain ⟨last, -, hadd⟩ := Option.bind_eq_some_iff.mp hadd
    obtain ⟨tmp, -, hadd⟩ := Option.bind_eq_some_iff.mp hadd
    exact ⟨_, (some.inj hadd).symm⟩

theorem InHand.futexHashAddRing {M : Machine ι β} (hs : InHand M s me)
    (hst : s.status me = .blocked) (hh : futexHashval (s.futexPtr me) = hashval) :
    ∃ R, s.futexHashAddRing hashval me = some { s with rings := R } ∧
      Placed M { s with rings := R } := by
  obtain ⟨L, hL, hmem⟩ := hs.holds.rings
  have hout : ∀ r, me ∉ L r := fun r => by
    rw [hmem]
    simp
  obtain ⟨R, hR, hadds⟩ := futexHashAddRing_adds hashval hL hout
  exact ⟨R, hR, hs.adds (place_eq_futex.mpr ⟨hst, hh⟩) (by simp) hL hmem hadds⟩

end Joining

/-! ## Waking a bucket -/

section WakingUp

variable {M : Machine ι β} {s : Sched ι β} {hashval : ℕ} {pos : Option ι}

omit fι in
theorem Placed.futexCancel (hs : Placed M s) {t : ι} (ht : s.status t = .blocked) :
    InHand M (s.futexCancel t) t :=
  (hs.remove (place_eq_futex.mpr ⟨ht, rfl⟩) (by simp)).setR00 u32Max

omit fι in
theorem agreeOff_futexCancel (t : ι) (s : Sched ι β) : AgreeOff t s (s.futexCancel t) :=
  { AgreeOff.refl t s with r00 := fun u hu => by simp [Sched.futexCancel, hu] }

/-- The lock a thread waits on, as far as it is compared. -/
def Sched.waitsOn (s : Sched ι β) (locklo : ℕ) (t : ι) : Bool :=
  s.futexPtr t % 0x100000000 == locklo

omit dβ in
/-- The successor of a member of a bucket is the one a walk goes on from, unless there is none. -/
theorem Placed.next_bucket (hs : Placed M s) {A B : List ι} {t : ι}
    (hq : s.queue (.futex hashval) = A ++ t :: B) (hne : A ++ B ≠ []) :
    s.rings.links.next t = (B ++ A).head? := by
  have hring : IsRing s.rings.links (s.rings.head (.futex hashval)) (A ++ t :: B) :=
    hq ▸ hs.holds.rep.ring _
  obtain ⟨-, b, hb, hlink⟩ := hring.neighbours
  have hne' : B ++ A ≠ [] := by simpa [and_comm] using hne
  rw [hlink.1, ← hb, head?_append_of_ne_nil _ hne']

/-- **Removing one waiter**: of a bucket that is read from the position on, the first thread that
waits on the lock. -/
theorem Placed.futexHashRemoveOne_eq (hs : Placed M s) (locklo : ℕ) {D R : List ι}
    (hq : s.queue (.futex hashval) = D ++ R) (hpos : D ++ R ≠ [] → pos = (R ++ D).head?)
    (hD : R = [] → ∀ d ∈ D, s.waitsOn locklo d = false) : s.futexHashRemoveOne locklo hashval pos =
      some (match R.find? (s.waitsOn locklo) with
        | none => (none, pos, s)
        | some cur => (some cur, s.rings.links.next cur,
            { s with rings := s.rings.remove (.futex hashval) cur }.readyAppend cur)) := by
  have hring := hs.holds.rep.ring (.futex hashval)
  rw [hq] at hring
  unfold Sched.futexHashRemoveOne
  by_cases hhead : s.rings.head (.futex hashval) = none
  · have hnil : D ++ R = [] := by rw [← head?_eq_none_iff, ← hring.head, hhead]
    rw [if_pos hhead, (append_eq_nil_iff.mp hnil).2]
    rfl
  have hne : D ++ R ≠ [] := fun hnil => hhead (by rw [hring.head, hnil]; rfl)
  have hlen := hring.length_le_card
  rw [if_neg hhead, hpos hne]
  rcases R with - | ⟨c, R⟩
  · -- past the end is back at the head
    obtain ⟨c, D, rfl⟩ : ∃ c D', D = c :: D' := exists_cons_of_ne_nil (by simpa using hne)
    have hring' : IsRing s.rings.links (s.rings.head (.futex hashval)) ([] ++ c :: D) := by
      simpa using hring
    have hnone : (c :: D).find? (s.waitsOn locklo) = none :=
      find?_eq_none.mpr fun d hd => by simp [hD rfl d hd]
    have hseek := hring'.seek (p := s.waitsOn locklo) (by simpa using hlen)
    unfold Sched.waitsOn at hseek hnone
    rw [nil_append, head?_cons, bind_eq_bind, bind_some, hseek, hnone]
    rfl
  · have hseek := hring.seek (p := s.waitsOn locklo) (n := card ι) (by
      rw [length_append] at hlen
      omega)
    unfold Sched.waitsOn at hseek ⊢
    rw [cons_append, head?_cons, bind_eq_bind, bind_some, hseek, bind_eq_bind, bind_some]
    cases (c :: R).find? fun t => s.futexPtr t % 0x100000000 == locklo <;> rfl

/-- What waking the threads `W` of a bucket amounts to, one after the other. -/
structure Woken (M : Machine ι β) (v : ℕ) (W : List ι) (s s' : Sched ι β) : Prop where
  placed : Placed M s'
  fields : ∃ R st valids, s' = { s with rings := R, status := st, readyValids := valids }
  mem : ∀ t ∈ W, t ∈ s.queue (.futex v)
  status : ∀ t, s'.status t = if t ∈ W then .ready else s.status t
  /-- Each goes to the end of the ring of its priority, … -/
  ready : ∀ p, s'.queue (.ready p) = s.queue (.ready p) ++ W.filter (s.prio · = p)
  /-- … and the others stay in the bucket, in order. -/
  bucket : s'.queue (.futex v) = (s.queue (.futex v)).filter (· ∉ W)
  others : ∀ r, r ≠ .futex v → (∀ p, r ≠ .ready p) → s'.queue r = s.queue r

omit dβ in
theorem Woken.nil (hs : Placed M s) (v : ℕ) : Woken M v [] s s where
  placed := hs
  fields := ⟨_, _, _, rfl⟩
  mem := by simp
  status := by simp
  ready := by simp
  bucket := by simp
  others _ _ _ := rfl

omit dβ in
theorem Woken.cons {s₁ s' : Sched ι β} {v : ℕ} {t : ι} {W : List ι} (h : Woken M v [t] s s₁)
    (h' : Woken M v W s₁ s') : Woken M v (t :: W) s s' where
  placed := h'.placed
  fields := by
    obtain ⟨R, st, valids, rfl⟩ := h.fields
    obtain ⟨R', st', valids', rfl⟩ := h'.fields
    exact ⟨R', st', valids', rfl⟩
  mem u hu := by
    rcases mem_cons.mp hu with rfl | hu
    · exact h.mem u (by simp)
    · have hu' := h'.mem u hu
      rw [h.bucket] at hu'
      exact mem_of_mem_filter hu'
  status u := by
    rw [h'.status, h.status]
    by_cases hu : u ∈ W <;> by_cases hut : u = t <;> simp [hu]
  ready p := by
    obtain ⟨R, st, valids, rfl⟩ := h.fields
    rw [h'.ready, h.ready, append_assoc, ← filter_append, singleton_append]
  bucket := by
    rw [h'.bucket, h.bucket, filter_filter]
    refine filter_congr fun u _ => ?_
    simp [Bool.and_comm]
  others r hr hr' := (h'.others r hr hr').trans (h.others r hr hr')

theorem Placed.woken_one (hs : Placed M s) {v : ℕ} {t : ι} (ht : t ∈ s.queue (.futex v)) :
    Woken M v [t] s ({ s with rings := s.rings.remove (.futex v) t }.readyAppend t) := by
  have hplace := hs.mem_queue.mp ht
  have hhand := hs.remove hplace (by simp)
  have hqueue := hhand.queue_readyAppend
  rw [hs.queue_remove hplace] at hqueue
  refine ⟨hhand.readyAppend, ⟨_, _, _, rfl⟩, by simpa using ht, fun u => ?_, fun p => ?_, ?_,
    fun r hr hr' => ?_⟩
  · by_cases hut : u = t <;> simp [hut]
  · rw [hqueue]
    by_cases hp : s.prio t = p
    · subst hp
      simp
    · have hne : RingRef.ready p ≠ (.ready (s.prio t) : RingRef β) := by simpa [eq_comm] using hp
      rw [update_of_ne hne]
      simp [hp]
  · rw [hqueue, update_of_ne (by simp), update_self, (hs.nodup_queue _).erase_eq_filter]
    refine filter_congr fun u _ => ?_
    by_cases hut : u = t <;> simp [hut]
  · rw [hqueue, update_of_ne (hr' _), update_of_ne hr]

omit dβ in
theorem Woken.wakes {s' : Sched ι β} {v : ℕ} {W : List ι} (h : Woken M v W s s') (hs : Placed M s) :
    Wakes s s' := by
  have hstatus := h.status
  obtain ⟨R, st, valids, rfl⟩ := h.fields
  refine ⟨rfl, rfl, fun t => ?_⟩
  rw [hstatus t]
  by_cases ht : t ∈ W
  · have hblocked := (hs.mem_bucket.mp (h.mem t ht)).1
    exact .inr ⟨by simp [hblocked], by simp [hblocked], by simp [ht]⟩
  · exact .inl ⟨by simp [ht], fun _ => rfl⟩

/-- From the head on: the first thread of the bucket that waits on the lock. -/
theorem Placed.futexHashRemoveOne_head (hs : Placed M s) (locklo hashval : ℕ) :
    ∃ pos' s', s.futexHashRemoveOne locklo hashval (s.rings.head (.futex hashval)) =
        some (((s.queue (.futex hashval)).filter (s.waitsOn locklo)).head?, pos', s') ∧
      Woken M hashval (((s.queue (.futex hashval)).filter (s.waitsOn locklo)).take 1) s s' := by
  have hring := hs.holds.rep.ring (.futex hashval)
  have hpos : [] ++ s.queue (.futex hashval) ≠ [] →
      s.rings.head (.futex hashval) = (s.queue (.futex hashval) ++ []).head? := fun _ => by
    rw [hring.head, append_nil]
  have hone := hs.futexHashRemoveOne_eq locklo (nil_append _).symm hpos (by simp)
  rw [hone]
  rcases hfind : (s.queue (.futex hashval)).find? (s.waitsOn locklo) with - | cur
  · have hnil : (s.queue (.futex hashval)).filter (s.waitsOn locklo) = [] := by
      rw [← head?_eq_none_iff, head?_filter, hfind]
    rw [hnil]
    exact ⟨_, s, rfl, by simpa using Woken.nil hs hashval⟩
  · obtain ⟨W, hW⟩ : ∃ W, (s.queue (.futex hashval)).filter (s.waitsOn locklo) = cur :: W := by
      rw [← head?_eq_some_iff, head?_filter, hfind]
    rw [hW]
    exact ⟨_, _, rfl, by simpa using hs.woken_one (mem_of_find?_eq_some hfind)⟩

/-- **The wake-up loop** wakes the threads that wait on the lock, from the position on, until enough
are awake. -/
theorem Placed.futexResumeLoop_eq (locklo nToWake : ℕ) : ∀ {fuel nWoken : ℕ} {pos : Option ι}
    {s : Sched ι β} {D R : List ι}, Placed M s → s.queue (.futex hashval) = D ++ R →
    (D ++ R ≠ [] → pos = (R ++ D).head?) → (∀ d ∈ D, s.waitsOn locklo d = false) →
    R.length < fuel → nWoken < nToWake →
    ∃ s', s.futexResumeLoop locklo hashval nToWake fuel nWoken pos =
        some (nWoken + ((R.filter (s.waitsOn locklo)).take (nToWake - nWoken)).length, s') ∧
      Woken M hashval ((R.filter (s.waitsOn locklo)).take (nToWake - nWoken)) s s'
  | fuel + 1, nWoken, pos, s, D, R, hs, hq, hpos, hD, hfuel, hn => by
      rw [Sched.futexResumeLoop, hs.futexHashRemoveOne_eq locklo hq hpos fun _ => hD]
      rcases hfind : R.find? (s.waitsOn locklo) with - | cur
      · have hnil : R.filter (s.waitsOn locklo) = [] := by
          rw [filter_eq_nil_iff]
          exact find?_eq_none.mp hfind
        rw [hnil]
        exact ⟨s, by simp, by simpa using Woken.nil hs hashval⟩
      obtain ⟨hcur, A, B, rfl, hA⟩ := find?_eq_some_iff_append.mp hfind
      have hA' : ∀ a ∈ A, s.waitsOn locklo a = false := fun a ha => by simpa using hA a ha
      have hmem : cur ∈ s.queue (.futex hashval) := by simp [hq]
      have hone := hs.woken_one hmem
      set s₁ := { s with rings := s.rings.remove (.futex hashval) cur }.readyAppend cur with hs₁
      have hfilter : (A ++ cur :: B).filter (s.waitsOn locklo) =
          cur :: B.filter (s.waitsOn locklo) := by
        rw [filter_append, filter_cons_of_pos hcur,
          filter_eq_nil_iff.mpr fun a ha => by simp [hA' a ha], nil_append]
      obtain ⟨m, hm⟩ : ∃ m, nToWake - nWoken = m + 1 := ⟨nToWake - nWoken - 1, by omega⟩
      rw [hfilter, hm, take_succ_cons]
      simp only [bind_eq_bind, bind_some]
      split
      · -- the threads passed are behind, and none of them waits on the lock
        have hq' : s.queue (.futex hashval) = (D ++ A) ++ cur :: B := by simpa using hq
        have hq₁ : s₁.queue (.futex hashval) = (D ++ A) ++ B := by
          have hnd := hs.nodup_queue (.futex hashval)
          rw [hone.bucket, hq']
          rw [hq'] at hnd
          have hout := (nodup_cons.mp (nodup_middle.mp hnd)).1
          have hrest : ∀ u ∈ D ++ A ++ B, decide (u ∉ [cur]) = true := fun u hu => by
            have : u ≠ cur := fun e => hout (e ▸ hu)
            simpa using this
          rw [filter_append, filter_cons_of_neg (by simp), ← filter_append,
            filter_eq_self.mpr hrest]
        have hD₁ : ∀ d ∈ D ++ A, s₁.waitsOn locklo d = false := fun d hd =>
          (mem_append.mp hd).elim (hD d) (hA' d)
        obtain ⟨s', hloop, hwoken⟩ := Placed.futexResumeLoop_eq locklo nToWake hone.placed hq₁
          (fun hne => hs.next_bucket hq' hne) hD₁ (by simp at hfuel; omega : B.length < fuel)
          (by omega : nWoken + 1 < nToWake)
        have hm' : nToWake - (nWoken + 1) = m := by omega
        have hsame : s₁.waitsOn locklo = s.waitsOn locklo := rfl
        rw [hm', hsame] at hloop hwoken
        refine ⟨s', ?_, hone.cons hwoken⟩
        rw [hloop, length_cons, Nat.add_right_comm, Nat.add_assoc]
      · obtain rfl : m = 0 := by omega
        exact ⟨s₁, by simp [hs₁], by simpa using hone⟩

end WakingUp

end H2
