import H2.Futex.CommonOpt
import H2.Kernel.Boost

/-!
# Futex/LockPiOpt — the optimised priority inheriting lock

`futex_pi.v4opt.S` takes the caller off the runlist first and raises the owner afterwards.  The new
priority goes into the owner's context as soon as the old one is found to be worse; what depends on
the owner's status follows, with the *old* priority still in a register.

For an owner in a ready ring that is the ring to leave, and an owner in a bucket needs no priority
but that of its context.  For an owner that runs it is what `runlist_prios` is set to: the scheduler
goes on with the priority the owner had (`lockPi_boost_unseen`), where the reference enters the new
one.  A virtual cpu that waits for an interrupt is raised, other than by the reference.

In all other cases the two hand the same state to the scheduler (`FutexOpt.lockPiBlock_eq`).
-/

namespace H2

open FutexOpt Function

open Hexagon (Word Dword setbit clrbit)

open Option (bind_some map_map map_some some)

variable {ι β : Type} [dι : DecidableEq ι] [dβ : DecidableEq β] [fι : Fintype ι]

namespace FutexOpt

/-! ## The assembly -/

/-- The packets of `.Lraise_blocked`. -/
def raiseBlocked (dest : ι) (s : Sched ι β) : Option (Sched ι β) :=
  let next := s.rings.links.next dest
  let prev := s.rings.links.prev dest
  if next = some dest then some s
  else
    -- of the upper word, two bits belong to the address
    let hashval := bucket (BitVec.ofNat 64 (s.futexPtr dest % 0x400000000))
    futexHashAddRing hashval dest { s with
      rings := ⟨(s.rings.links.setNextOf prev next).setPrevOf next prev,
        if s.rings.head (.futex hashval) = some dest then
          update s.rings.head (.futex hashval) next
        else s.rings.head⟩ }

/-- The packets of `.Lraise_ready` that take `DEST` out of its ring. -/
def raiseUnready (dest : ι) (destprio : ℕ) (s : Sched ι β) : Sched ι β :=
  let next := s.rings.links.next dest
  let prev := s.rings.links.prev dest
  let word := clrbit (loadValids (destprio / 32) s.readyValids) (destprio % 32)
  { s with
    rings := ⟨(s.rings.links.setNextOf prev next).setPrevOf next prev,
      if s.rings.head (.ready destprio) = some dest then
        update s.rings.head (.ready destprio) (if next = some dest then none else next)
      else s.rings.head⟩
    readyValids :=
      if next = some dest then storeValids (destprio / 32) word s.readyValids else s.readyValids }

/-- The packets of `.Lraise_ready` that put it in front of another. -/
def raiseReady (dest : ι) (prio : ℕ) (s : Sched ι β) : Sched ι β :=
  let word := setbit (loadValids (prio / 32) s.readyValids) (prio % 32)
  { s with
    rings := ⟨
      match s.rings.head (.ready prio) with
      | none => addFound dest (some dest) (some dest) s.rings.links
      | some next => addFound dest (s.rings.links.prev next) (some next) s.rings.links,
      update s.rings.head (.ready prio) (some dest)⟩
    readyValids := storeValids (prio / 32) word s.readyValids }

/-- The packets for an owner that runs. -/
def raiseRunning (dest : ι) (destprio : ℕ) (k : Kernel ι β) : Kernel ι β :=
  let h := k.sched.hthread dest
  { k with
    hw := { k.hw with priomask := clrbit k.hw.priomask h }.changeImask h (-1)
    sched := { k.sched with runlistPrios := update k.sched.runlistPrios h destprio } }

/-- From `BEGIN FUTEX PI RAISE` to `.Lraise_done`. -/
def futexPiRaise (M : Machine ι β) (prio word : ℕ) (k : Kernel ι β) : Option (Kernel ι β) :=
  match M.idToContext (idFields word) with
  | none => some k
  | some dest =>
    let destprio := k.sched.prio dest
    if ¬prio < destprio then some k
    else
      let s := k.sched.setPrio dest prio
      match k.sched.status dest with
      | .blocked => (raiseBlocked dest s).map fun s => { k with sched := s }
      | .ready => some { k with sched := raiseReady dest prio (raiseUnready dest destprio s) }
      | .running => some (raiseRunning dest destprio { k with sched := s })
      | .intblocked | .vmwait | .dead => some { k with sched := s }

/-- The stores to the caller's context and to its slot in the runlist. -/
def asleep (pa : ℕ) (me : ι) (s : Sched ι β) : Sched ι β :=
  (((s.setFutexPtr me pa).runlistRemove me).setR00 me 0).setStatus me .blocked

/-- `H2K_futex_lock_pi` from where the lock is found to be held, up to `H2K_dosched`. -/
def lockPiBlock (M : Machine ι β) (pa word : ℕ) (me : ι) (k : Kernel ι β) : Option (Kernel ι β) :=
  (futexPiRaise M (k.sched.prio me) word
    { k with sched := asleep (pa / 4) me k.sched }).bind fun k =>
      (futexHashAddRing (bucket (BitVec.ofNat 64 (k.sched.futexPtr me % 0x400000000))) me
        k.sched).map fun s => { k with sched := s }

/-- `H2K_futex_lock_pi`; the word is compared with 0 as it was loaded. -/
def futexLockPi (M : Machine ι β) (pa : Option ℕ) (word : ℕ) (me : ι) (h : ℕ) (k : Kernel ι β) :
    Option (Exit × Kernel ι β) :=
  if k.threads.vmwork me then
    (k.vmDoWorkWithlock M me h).map fun p => (p.1.andReturn (-1), p.2)
  else
    match pa with
    | none => some (.returned (-1), k)
    | some pa =>
      if word = 0 then
        some (.returned 0, { k with sched := k.sched.setFutexPtr me (pa / 4) })
      else (lockPiBlock M pa word me k).bind fun k => k.dosched M (k.sched.hthread me)

/-! ## Raising an owner that is in a ring -/

section Rings

variable {M : Machine ι β} {s : Sched ι β} {dest me : ι}

theorem bucket_futexPtr {p : ℕ} (hp : p < 0x400000000) :
    bucket (BitVec.ofNat 64 (p % 0x400000000)) = futexHashval p := by
  have hword : (BitVec.ofNat 64 (p % 0x400000000)).toNat = p := by
    rw [BitVec.toNat_ofNat]
    omega
  rw [bucket_eq (by omega), hword]

/-- Joining a bucket has nothing to do with a thread that goes to sleep. -/
theorem futexHashAddRing_asleep (pa hashval : ℕ) (dest me : ι) (s : Sched ι β) :
    (asleep pa me s).futexHashAddRing hashval dest =
      (s.futexHashAddRing hashval dest).map (asleep pa me) := by
  have hrings : (asleep pa me s).rings = s.rings := rfl
  have hprio : (asleep pa me s).prio = s.prio := rfl
  unfold Sched.futexHashAddRing
  simp only [hrings, hprio]
  rcases s.rings.head (.futex hashval) with - | head
  · rfl
  dsimp only
  split
  · rfl
  rcases s.rings.links.prev head with - | last
  · rfl
  simp only [Option.bind_eq_bind, bind_some]
  rcases s.rings.links.seekBack (fun x => !decide (s.prio dest < s.prio x)) (Fintype.card ι) last
    with - | - <;> rfl

/-- A ready ring is empty without a thread that is linked to itself, and only then. -/
theorem head_remove_eq_none (hs : Placed M s) (hready : s.status dest = .ready) :
    (s.rings.remove (.ready (s.prio dest)) dest).head (.ready (s.prio dest)) = none ↔
      s.rings.links.next dest = some dest := by
  have hmem : dest ∈ s.queue (.ready (s.prio dest)) :=
    hs.mem_queue.mpr (place_eq_ready.mpr ⟨hready, rfl⟩)
  have hring := hs.holds.rep.ring (.ready (s.prio dest))
  rw [(hs.holds.rep.remove hmem).head_eq_none, update_self]
  constructor
  · intro hnil
    obtain ⟨b, hb, hlink⟩ := hring.next_mem hmem
    by_contra hne
    have hbd : b ≠ dest := fun e => hne (e ▸ hlink.1)
    have hrest := (List.mem_erase_of_ne hbd).mpr hb
    rw [hnil] at hrest
    exact List.not_mem_nil hrest
  · intro hself
    rw [hring.eq_singleton hmem hself]
    simp

/-- **Leaving a ready ring** with the neighbours in registers. -/
theorem raiseUnready_eq (hs : Placed M s) (hready : s.status dest = .ready) :
    raiseUnready dest (s.prio dest) s = s.readyRemove dest := by
  simp only [raiseUnready, Sched.readyRemove, storeValids_clrbit, head_remove_eq_none hs hready]
  simp only [Rings.remove_eq]

omit fι in
theorem addFound_self (n : ι) (l : Links ι) : addFound n (some n) (some n) l = l.linkSelf n := by
  refine Links.ext_fields (fun x => ?_) fun x => ?_
  all_goals by_cases hx : x = n <;> simp [addFound, Links.linkSelf, hx]

/-- **Joining a ready ring** in front. -/
theorem raiseReady_eq (hs : InHand M s dest) (hready : s.status dest = .ready) :
    raiseReady dest (s.prio dest) s = s.readyInsert dest := by
  have hstatus : update s.status dest .ready = s.status := by
    rw [← hready, update_eq_self]
  have hring := hs.holds.rep.ring (.ready (s.prio dest))
  have hne {x : ι} (hx : x ∈ s.queue (.ready (s.prio dest))) : dest ≠ x := by
    rintro rfl
    exact hs.not_mem_queue _ hx
  simp only [raiseReady, Sched.readyInsert, storeValids_setbit, hstatus, Rings.insert]
  rcases hhead : s.rings.head (.ready (s.prio dest)) with - | head
  · simp only [addFound_self]
  · have hmem : head ∈ s.queue (.ready (s.prio dest)) :=
      List.mem_of_mem_head? (hring.head.symm.trans hhead)
    obtain ⟨last, hlast, hlink⟩ := hring.prev_mem hmem
    simp only [hlink.2, addFound_eq (hne hlast) (hne hmem),
      hlink.linkBetween_eq (hne hlast) (hne hmem)]

/-- **Moving up in a bucket**, with another thread gone to sleep in the meantime. -/
theorem raiseBlocked_eq (pa : ℕ) (hs : Placed M s) (hblocked : s.status dest = .blocked)
    (hptr : s.futexPtr dest < 0x400000000) (hne : dest ≠ me) : raiseBlocked dest (asleep pa me s) =
      (if s.rings.links.next dest = some dest then some s
        else { s with rings := s.rings.remove (.futex (futexHashval (s.futexPtr dest))) dest
          }.futexHashAddRing (futexHashval (s.futexPtr dest)) dest).map (asleep pa me) := by
  have hrings : (asleep pa me s).rings = s.rings := rfl
  have hkeeps : (asleep pa me s).futexPtr dest = s.futexPtr dest := by simp [asleep, hne]
  have hplace : s.place M dest = .ring (.futex (futexHashval (s.futexPtr dest))) :=
    place_eq_futex.mpr ⟨hblocked, rfl⟩
  have hhand := hs.remove hplace (by simp)
  unfold raiseBlocked
  simp only [hrings, hkeeps, bucket_futexPtr hptr]
  split
  · rfl
  · next halone =>
    have hremoved := Rings.remove_eq (.futex (futexHashval (s.futexPtr dest))) dest s.rings
    rw [if_neg halone] at hremoved
    rw [← hremoved]
    exact (futexHashAddRing_eq (s := asleep pa me { s with
      rings := s.rings.remove (.futex (futexHashval (s.futexPtr dest))) dest }) _ hhand.holds.rep
        hhand.not_mem_queue).trans (futexHashAddRing_asleep ..)

end Rings

/-! ## The same state for the scheduler -/

section Agree

variable {M : Machine ι β} {k : Kernel ι β} {h a word : ℕ} {me : ι}

/-- **The raise**, before and after the caller has gone to sleep. -/
theorem futexPiRaise_asleep (hc : Coherent M k) (pa : ℕ)
    (hptr : ∀ t, k.sched.futexPtr t < 0x400000000)
    (howner : ∀ o, M.idToContext (idFields word) = some o → k.sched.prio me < k.sched.prio o →
      k.sched.status o = .blocked ∨ k.sched.status o = .ready ∨ k.sched.status o = .intblocked) :
    futexPiRaise M (k.sched.prio me) word { k with sched := asleep pa me k.sched } =
      (k.futexPiRaise M (k.sched.prio me) word).map
        fun k => { k with sched := asleep pa me k.sched } := by
  unfold futexPiRaise Kernel.futexPiRaise
  rcases hid : M.idToContext (idFields word) with - | dest
  · rfl
  have hprio : (asleep pa me k.sched).prio = k.sched.prio := rfl
  simp only [hprio, not_lt]
  split
  · rfl
  next hgt =>
  have hworse := not_le.mp hgt
  have hne : dest ≠ me := fun e => lt_irrefl _ (e ▸ hworse)
  have hstatus : (asleep pa me k.sched).status dest = k.sched.status dest := by simp [asleep, hne]
  rw [hstatus]
  rcases howner dest hid hworse with hst | hst | hst
  · have hraised := raiseBlocked_eq pa (hc.placed.setPrio (.inl hst) (k.sched.prio me)) hst
      (hptr dest) hne
    simp only [hst]
    change (raiseBlocked dest (asleep pa me (k.sched.setPrio dest (k.sched.prio me)))).map _ = _
    rw [hraised]
    split
    · rfl
    · rw [map_map, map_map]
      rfl
  · have hleft := raiseUnready_eq hc.placed hst
    have hhand := (hc.placed.readyRemove hst).setPrio (k.sched.prio me)
    have hq : ((k.sched.readyRemove dest).setPrio dest (k.sched.prio me)).prio dest =
        k.sched.prio me := by
      have hle := hc.placed.prios.prio_le me
      simp only [Sched.setPrio_prio, update_self]
      exact Nat.mod_eq_of_lt (Nat.lt_succ_of_le hle)
    have hjoined := raiseReady_eq hhand hst
    rw [hq, ← hleft] at hjoined
    simp only [hst, ← hleft, ← hjoined]
    rfl
  · rw [hst]
    rfl

section

omit fι dβ

theorem asleep_inHand (hc : Coherent M k) (hme : k.hw.sgp h = some me) (pa : ℕ) :
    InHand M (asleep pa me k.sched) me :=
  (((hc.placed.runlistRemove (hc.running hme).1).setFutexPtr pa).setR00 0).setStatus .blocked

theorem bucket_asleep (ha : a < 0x1000000000) (me : ι) (s : Sched ι β) :
    bucket (BitVec.ofNat 64 ((asleep (a / 4) me s).futexPtr me % 0x400000000)) =
      futexHashval (a / 4) := by
  have hword : a / 4 % 0x400000000 = a / 4 := Nat.mod_eq_of_lt (by omega)
  have hptr : (asleep (a / 4) me s).futexPtr me = a / 4 := by simp [asleep, hword]
  rw [hptr, bucket_futexPtr (by omega)]

end

/-- **The same state is handed to the scheduler**, unless the owner has a worse priority and runs,
waits for an interrupt of its virtual cpu, or is dead. -/
theorem lockPiBlock_eq (hc : Coherent M k) (hme : k.hw.sgp h = some me) (ha : a < 0x1000000000)
    (hptr : ∀ t, k.sched.futexPtr t < 0x400000000)
    (howner : ∀ o, M.idToContext (idFields word) = some o → k.sched.prio me < k.sched.prio o →
      k.sched.status o = .blocked ∨ k.sched.status o = .ready ∨ k.sched.status o = .intblocked) :
    lockPiBlock M a word me k =
      (k.futexPiRaise M (k.sched.prio me) word).bind fun k => k.futexEnqueue (a / 4) me := by
  obtain ⟨k₁, hraise, hc₁, -, hsgp, -⟩ := futexPiRaise_coherent hc (hc.placed.prios.prio_le me) word
  have hme₁ : k₁.hw.sgp h = some me := hsgp ▸ hme
  have hhand := asleep_inHand hc₁ hme₁ (a / 4)
  rw [lockPiBlock, futexPiRaise_asleep hc _ hptr howner, hraise, map_some, bind_some,
    bucket_asleep ha, futexHashAddRing_eq _ hhand.holds.rep hhand.not_mem_queue]
  rfl

/-- The boot thread blocks on a lock whose owner is ready. -/
theorem lockPiBlock_eq_ownerReady : ∃ k : Kernel (Fin 2) Unit, k.sched.status 0 = .ready ∧
    lockPiBlock (oneVm 1) 0x1000 firstCpuWord 1 k =
      (k.futexPiRaise (oneVm 1) (k.sched.prio 1) firstCpuWord).bind
        fun k => k.futexEnqueue (0x1000 / 4) 1 := by
  have hrun : ∃ p ∈ Kernel.boot (oneVm 1) 3 1#32 .off (),
      ∃ k ∈ p.2.runIf (oneVm 1) createTest ownerReady, k.hw.sgp 0 = some 1 ∧
        (∀ t, k.sched.futexPtr t < 0x400000000) ∧ k.sched.status 0 = .ready := by decide +kernel
  obtain ⟨⟨e, k₀⟩, hboot, k, hk, hme, hptr, hready⟩ := hrun
  replace hk := Reached.of_runIf (safe_of_createTest (oneVm 1)) .init hk
  have hc := hk.coherent (fun _ _ _ => id) (coherent_boot (by decide) hboot)
  have howner : (oneVm 1).idToContext (idFields firstCpuWord) = some 0 := rfl
  refine ⟨k, hready, lockPiBlock_eq hc hme (by decide) hptr fun o ho _ => ?_⟩
  cases howner.symm.trans ho
  exact .inr (.inl hready)

end Agree

/-! ## An owner that runs -/

section Running

variable {M : Machine ι β} {k : Kernel ι β} {h a word : ℕ} {me o : ι}

/-- The kernel when an owner that runs has been raised by a caller gone to sleep. -/
def raisedRunning (pa : ℕ) (me o : ι) (k : Kernel ι β) : Kernel ι β :=
  raiseRunning o (k.sched.prio o)
    { k with sched := (asleep pa me k.sched).setPrio o (k.sched.prio me) }

/-- **An owner that runs** is raised, and the caller joins its bucket. -/
theorem lockPiBlock_running (hc : Coherent M k) (hme : k.hw.sgp h = some me)
    (ha : a < 0x1000000000) (howner : M.idToContext (idFields word) = some o)
    (hrun : k.sched.status o = .running) (hworse : k.sched.prio me < k.sched.prio o) :
    ∃ R, lockPiBlock M a word me k = some { raisedRunning (a / 4) me o k with
      sched := { (raisedRunning (a / 4) me o k).sched with rings := R } } := by
  have hne : o ≠ me := fun e => lt_irrefl _ (e ▸ hworse)
  have hstatus : (asleep (a / 4) me k.sched).status o = .running := by simp [asleep, hne, hrun]
  have hprio : (asleep (a / 4) me k.sched).prio = k.sched.prio := rfl
  have hraise : futexPiRaise M (k.sched.prio me) word
      { k with sched := asleep (a / 4) me k.sched } = some (raisedRunning (a / 4) me o k) := by
    simp only [futexPiRaise, howner, hprio, if_neg (not_not.mpr hworse), hstatus]
    rfl
  -- what the raise writes is no part of the rings
  have hhand := asleep_inHand hc hme (a / 4)
  have hrep : (raisedRunning (a / 4) me o k).sched.rings.Rep (asleep (a / 4) me k.sched).queue :=
    hhand.holds.rep
  obtain ⟨R, -, -, hadd, -⟩ :=
    futexHashAddRing_between (futexHashval (a / 4)) hrep hhand.not_mem_queue
  have hbucket : bucket (BitVec.ofNat 64
      ((raisedRunning (a / 4) me o k).sched.futexPtr me % 0x400000000)) = futexHashval (a / 4) :=
    bucket_asleep ha me k.sched
  refine ⟨R, ?_⟩
  rw [lockPiBlock, hraise, bind_some, hbucket, futexHashAddRing_eq _ hrep hhand.not_mem_queue,
    hadd, map_some]

end Running

end FutexOpt

/-! ## The slots of other hardware threads

The scheduler enters a priority only in the slot of the hardware thread it works for, and clears
that slot only. -/

section Slots

variable {M : Machine ι β} {k k' : Kernel ι β} {h : ℕ}

section

omit fι

theorem vmIntDeliverLocked_runlistPrios (t : ι) (intno : ℕ) (k : Kernel ι β) :
    (k.vmIntDeliverLocked M t intno).2.sched.runlistPrios = k.sched.runlistPrios := by
  rcases vmIntDeliverLocked_cases M t intno k with ⟨-, heq | heq⟩ | ⟨s, v, hr, -, heq⟩ <;> rw [heq]
  · rw [(vmIpiSendWithlock_stirs t k).2.1]
  · obtain ⟨⟨R, -, -, r, rfl⟩, -⟩ := hr.fields
    rfl

theorem signalParent_runlistPrios (b : β) (status : ℤ) (k : Kernel ι β) :
    (k.signalParent M b status).sched.runlistPrios = k.sched.runlistPrios := by
  rcases signalParent_cases M b status k with heq | ⟨p, -, heq⟩ | ⟨-, -, heq⟩ <;> rw [heq]
  unfold Kernel.vmCpuintPostLocked
  simp only
  split
  · exact vmIntDeliverLocked_runlistPrios ..
  · rfl

theorem stop_runlistPrios {t : ι} (hh : k.sched.hthread t = h) (status : ℤ) {i : ℕ} (hi : i ≠ h) :
    (k.stop M status t).sched.runlistPrios i = k.sched.runlistPrios i := by
  rw [Kernel.stop, signalParent_runlistPrios]
  change update k.sched.runlistPrios (k.sched.hthread t) (-1) i = _
  rw [hh, update_of_ne hi]

end

theorem readyGetbest_runlistPrios {r : Option ι} (hget : k.readyGetbest h = some (r, k')) :
    k'.sched.runlistPrios = k.sched.runlistPrios := by
  unfold Kernel.readyGetbest at hget
  dsimp only at hget
  split at hget
  · cases hget
    split <;> rfl
  · obtain ⟨⟨ret, c⟩, -, hrest⟩ := Option.bind_eq_some_iff.mp hget
    rcases ret with - | ret
    all_goals
      cases hrest
      rfl

/-- **`H2K_dosched`** leaves the slots of other hardware threads as they are. -/
theorem doschedLoop_runlistPrios (fuel : ℕ) {e : Exit} {i : ℕ} (hi : i ≠ h)
    (hloop : k.doschedLoop M h fuel = some (e, k')) :
    k'.sched.runlistPrios i = k.sched.runlistPrios i := by
  induction fuel generalizing k with
  | zero => simp [Kernel.doschedLoop] at hloop
  | succ fuel ih =>
    obtain ⟨⟨r, k₁⟩, hget, hrest⟩ := Option.bind_eq_some_iff.mp hloop
    rw [← readyGetbest_runlistPrios hget]
    rcases r with - | new
    · cases hrest
      rfl
    dsimp only at hrest
    set k₂ := (k₁.dispatch new h).switchTo new h with hk₂
    have hh : k₂.sched.hthread new = h := by simp [hk₂, Kernel.dispatch, Kernel.switchTo]
    have hto : k₂.sched.runlistPrios i = k₁.sched.runlistPrios i := by
      simp [hk₂, Kernel.dispatch, Kernel.switchTo, hi]
    rw [← hto]
    split at hrest
    · rw [ih hrest, stop_runlistPrios hh _ hi]
    · revert hrest
      refine work_elim (Q := fun o => o = some (e, k') → _) M new k₂ ?_ ?_
      · rintro k₃ hw - ⟨⟩
        rw [hw.sched]
      · rintro k₃ hw ⟨⟩
        rw [Kernel.checkSanity_sched, hw.sched]

end Slots

/-! ## The boost of an owner that runs -/

section Boost

variable {M : Machine ι β} {k : Kernel ι β} {h a word : ℕ} {me o : ι}

/-- **The scheduler sees the boost** of an owner that runs, to priority `q`. -/
structure BoostSeen (o : ι) (q : ℕ) (k k' : Kernel ι β) : Prop where
  prio : k'.sched.prio o = q
  slot : k'.sched.runlistPrios (k.sched.hthread o) = q
  /-- The mark for the lowest priority is taken from a hardware thread that has it only. -/
  lowprio : k'.hw.priomask ≠ k.hw.priomask → k.hw.priomask.getLsbD (k.sched.hthread o) = true

omit dι dβ fι in
theorem Coherent.hthread_ne (hc : Coherent M k) (ho : k.sched.status o = .running)
    (hme : k.sched.status me = .running) (hne : o ≠ me) :
    k.sched.hthread o ≠ k.sched.hthread me := by
  intro he
  have hslot := hc.placed.holds.run.mpr (place_eq_run.mpr ⟨ho, rfl⟩)
  have hslot' := hc.placed.holds.run.mpr (place_eq_run.mpr ⟨hme, rfl⟩)
  rw [he, hslot'] at hslot
  exact hne (some.inj hslot).symm

/-- **The reference** enters the new priority in the runlist, … -/
theorem boostSeen_reference (hc : Coherent M k) (hme : k.hw.sgp h = some me)
    (ha : a < 0x1000000000) (howner : M.idToContext (idFields word) = some o)
    (hrun : k.sched.status o = .running) (hworse : k.sched.prio me < k.sched.prio o) :
    ∃ k', ((k.futexPiRaise M (k.sched.prio me) word).bind fun k => k.futexEnqueue (a / 4) me) =
        some k' ∧ BoostSeen o (k.sched.prio me) k k' := by
  have hle := hc.placed.prios.prio_le me
  have hne : o ≠ me := fun e => lt_irrefl _ (e ▸ hworse)
  have hslots := hc.hthread_ne hrun (hc.running hme).1 hne
  obtain ⟨k₁, hraise, hc₁, -, hsgp, -⟩ := futexPiRaise_coherent hc hle word
  obtain ⟨k', hadd, -⟩ := futexEnqueue_leaves hc₁ (hsgp ▸ hme) (show a / 4 < 0x400000000 by omega)
  refine ⟨k', by rw [hraise, bind_some, hadd], ?_⟩
  have hk₁ : k₁.sched = k.sched.runlistSetThreadPrio o (k.sched.prio me) ∧
      (k₁.hw ≠ k.hw → k.hw.priomask.getLsbD (k.sched.hthread o) = true) := by
    simp only [Kernel.futexPiRaise, howner, if_neg (not_le.mpr hworse), hrun, some.injEq] at hraise
    split at hraise
    · next hmarked => exact ⟨hraise ▸ rfl, fun _ => hmarked⟩
    · exact ⟨hraise ▸ rfl, fun hhw => absurd (hraise ▸ rfl) hhw⟩
  obtain ⟨hsched, hmarked⟩ := hk₁
  obtain ⟨s, hs, rfl⟩ := Option.map_eq_some_iff.mp hadd
  obtain ⟨R, rfl⟩ := futexHashAddRing_fields hs
  refine ⟨?_, ?_, fun hmask => hmarked fun hhw => hmask (by rw [hhw])⟩
  · simp only [Sched.setStatus_prio, Sched.setR00_prio, Sched.runlistRemove_prio,
      Sched.setFutexPtr_prio, hsched, Sched.runlistSetThreadPrio_prio, update_self]
    exact Nat.mod_eq_of_lt (Nat.lt_succ_of_le hle)
  · simp [hsched, hslots]

/-- … and **the assembly** the priority the owner had: the boost is never seen, neither when the
scheduler is called nor when it is done. -/
theorem lockPi_boost_unseen (hc : Coherent M k) (hme : k.hw.sgp h = some me)
    (hwork : k.threads.vmwork me = false) (ha : a < 0x1000000000) (hheld : word ≠ 0)
    (howner : M.idToContext (idFields word) = some o) (hrun : k.sched.status o = .running)
    (hworse : k.sched.prio me < k.sched.prio o) : ∃ k', lockPiBlock M a word me k = some k' ∧
      futexLockPi M (some a) word me h k = k'.dosched M h ∧
      k'.sched.prio o = k.sched.prio me ∧
      k'.sched.runlistPrios (k.sched.hthread o) = k.sched.prio o ∧
      (∀ e k'', k'.dosched M h = some (e, k'') →
        k''.sched.runlistPrios (k.sched.hthread o) = k.sched.prio o) ∧
      ¬BoostSeen o (k.sched.prio me) k k' := by
  obtain ⟨hmerun, hh⟩ := hc.running hme
  have hne : o ≠ me := fun e => lt_irrefl _ (e ▸ hworse)
  have hslots := hc.hthread_ne hrun hmerun hne
  obtain ⟨R, hblock⟩ := lockPiBlock_running hc hme ha howner hrun hworse
  set k' : Kernel ι β := { raisedRunning (a / 4) me o k with
    sched := { (raisedRunning (a / 4) me o k).sched with rings := R } }
  have hprio : k'.sched.prio o = k.sched.prio me :=
    (update_self ..).trans
      (Nat.mod_eq_of_lt (Nat.lt_succ_of_le (hc.placed.prios.prio_le me)))
  have hslot : k'.sched.runlistPrios (k.sched.hthread o) = k.sched.prio o :=
    update_self ..
  refine ⟨k', hblock, ?_, hprio, hslot, fun e k'' hdone => ?_, fun hseen => ?_⟩
  · have hh' : k'.sched.hthread me = h := hh
    rw [futexLockPi, if_neg (by simp [hwork]), if_neg hheld, hblock, bind_some, hh']
  · rw [← hslot]
    exact doschedLoop_runlistPrios _ (hh ▸ hslots) hdone
  · have hsame := hslot.symm.trans hseen.slot
    exact absurd (Int.natCast_inj.mp hsame) hworse.ne'

end Boost

/-- The boot thread creates one of worse priority, which runs on the other hardware thread. -/
def ownerRuns : List (ℕ × Op (Fin 2) Unit) :=
  [(1, .start), (0, .trap (.create 0 0 0 5 true)), (1, .takeInt 1), (1, .handleInt [])]

theorem ownerRuns_reached : ∃ e k₀ k, Kernel.boot (oneVm 1) 3 3#32 .off () = some (e, k₀) ∧
    Reached (oneVm 1) (Safe (oneVm 1)) k₀ k ∧ k.hw.sgp 0 = some 1 ∧ k.threads.vmwork 1 = false ∧
    k.sched.status 0 = .running ∧ k.sched.hthread 0 = 1 ∧ k.sched.prio 1 = 0 ∧
    k.sched.prio 0 = 5 := by
  have hrun : ∃ p ∈ Kernel.boot (oneVm 1) 3 3#32 .off (),
      ∃ k ∈ p.2.runIf (oneVm 1) createTest ownerRuns, k.hw.sgp 0 = some 1 ∧
        k.threads.vmwork 1 = false ∧ k.sched.status 0 = .running ∧ k.sched.hthread 0 = 1 ∧
        k.sched.prio 1 = 0 ∧ k.sched.prio 0 = 5 := by decide +kernel
  obtain ⟨⟨e, k₀⟩, hboot, k, hk, hP⟩ := hrun
  exact ⟨e, k₀, k, hboot, .of_runIf (safe_of_createTest (oneVm 1)) .init hk, hP⟩

/-- Raised to priority 0, the owner is scheduled with priority 5. -/
theorem ownerRuns_boost_unseen : ∃ e k₀ k k', Kernel.boot (oneVm 1) 3 3#32 .off () = some (e, k₀) ∧
    Reached (oneVm 1) (Safe (oneVm 1)) k₀ k ∧ k.sched.status 0 = .running ∧
    k.sched.hthread 0 = 1 ∧ k.sched.prio 1 = 0 ∧
    lockPiBlock (oneVm 1) 0x1000 firstCpuWord 1 k = some k' ∧
    k'.sched.prio 0 = 0 ∧ k'.sched.runlistPrios 1 = 5 := by
  obtain ⟨e, k₀, k, hboot, hk, hme, -, hrun, hh, hprio, hprio'⟩ := ownerRuns_reached
  have hc := hk.coherent (fun _ _ _ => id) (coherent_boot (by decide) hboot)
  have howner : (oneVm 1).idToContext (idFields firstCpuWord) = some 0 := rfl
  obtain ⟨R, hblock⟩ := lockPiBlock_running hc hme (show 0x1000 < 0x1000000000 by decide)
    howner hrun (by rw [hprio, hprio']; decide)
  refine ⟨e, k₀, k, _, hboot, hk, hrun, hh, hprio, hblock, ?_, ?_⟩
  · simp [raisedRunning, raiseRunning, hprio]
  · simp [raisedRunning, raiseRunning, asleep, hh, hprio']

/-- There the caller blocks on a lock whose owner runs with a worse priority. -/
theorem lockPi_boost_unseen_ownerRuns : ∃ e k₀ k k',
    Kernel.boot (oneVm 1) 3 3#32 .off () = some (e, k₀) ∧
    Reached (oneVm 1) (Safe (oneVm 1)) k₀ k ∧
    futexLockPi (oneVm 1) (some 0x1000) firstCpuWord 1 0 k = k'.dosched (oneVm 1) 0 ∧
    ¬BoostSeen 0 (k.sched.prio 1) k k' := by
  obtain ⟨e, k₀, k, hboot, hk, hme, hwork, hrun, -, hprio, hprio'⟩ := ownerRuns_reached
  have hc := hk.coherent (fun _ _ _ => id) (coherent_boot (by decide) hboot)
  have howner : (oneVm 1).idToContext (idFields firstCpuWord) = some 0 := rfl
  obtain ⟨k', -, hlock, -, -, -, hunseen⟩ := lockPi_boost_unseen hc hme hwork
    (show 0x1000 < 0x1000000000 by decide) (show firstCpuWord ≠ 0 by decide) howner hrun
    (by rw [hprio, hprio']; decide)
  exact ⟨e, k₀, k, k', hboot, hk, hlock, hunseen⟩

end H2
