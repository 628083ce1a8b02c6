import H2.Sched.Dosched

/-!
# Futex/Futex — waiting on a word, and priority inheritance

A thread that waits on a futex joins the bucket of the word's physical address; a wake-up takes
threads with a matching address out of it.  The priority inheriting lock keeps the id of its owner
in the word, and a thread that has to wait raises the owner to its own priority first — wherever the
owner happens to be.

The address and the word come from the guest's memory: `pa` is what `H2K_safemem_check_and_lock`
finds, if it finds the access allowed.
-/

namespace H2

open Kernel

variable {ι β : Type} [DecidableEq ι] [dβ : DecidableEq β] [fι : Fintype ι]

/-- The VM and the cpu index of an `H2K_id_t`. -/
def idFields (raw : ℕ) : ℕ × ℕ := (raw / 0x4000000 % 64, raw / 0x400 % 0x10000)

namespace Kernel

/-- The end of `H2K_futex_wait` and `H2K_futex_lock_pi`, up to `H2K_dosched`: the thread is off the
runlist and in its bucket. -/
def futexEnqueue (pa : ℕ) (me : ι) (k : Kernel ι β) : Option (Kernel ι β) :=
  let s := (((k.sched.setFutexPtr me pa).runlistRemove me).setR00 me 0).setStatus me .blocked
  (s.futexHashAddRing (futexHashval pa) me).map fun s => { k with sched := s }

/-- The end of `H2K_futex_wait` and `H2K_futex_lock_pi`: the thread blocks. -/
def futexBlock (M : Machine ι β) (pa : ℕ) (me : ι) (k : Kernel ι β) : Option (Exit × Kernel ι β) :=
  (k.futexEnqueue pa me).bind fun k' => k'.dosched M (k.sched.hthread me)

/-- `H2K_futex_wait`. -/
def futexWait (M : Machine ι β) (pa : Option ℕ) (readval val : ℕ) (me : ι) (h : ℕ)
    (k : Kernel ι β) : Option (Exit × Kernel ι β) :=
  if k.threads.vmwork me then
    (k.vmDoWorkWithlock M me h).map fun p => (p.1.andReturn (-1), p.2)
  else
    match pa with
    | none => some (.returned (-1), k)
    | some pa =>
      if readval ≠ val then some (.returned (-1), k) else k.futexBlock M (pa / 4) me

/-- `H2K_futex_resume`. -/
def futexResume (pa : Option ℕ) (nToWake : ℕ) (k : Kernel ι β) : Option (Exit × Kernel ι β) :=
  if nToWake = 0 then some (.returned 0, k)
  else
    match pa with
    | none => some (.returned (-1), k)
    | some pa =>
      let hashval := futexHashval (pa / 4)
      let pos := k.sched.rings.head (.futex hashval)
      if pos = none then some (.returned 0, k)
      else
        (k.sched.futexResumeLoop (pa / 4 % 0x100000000) hashval nToWake (Fintype.card ι + 1) 0
          pos).map fun p => (.returned p.1, { k with sched := p.2 }.checkSanity)

/-- `H2K_futex_pi_raise`. -/
def futexPiRaise (M : Machine ι β) (prio destid : ℕ) (k : Kernel ι β) : Option (Kernel ι β) :=
  match M.idToContext (idFields destid) with
  | none => some k
  | some dest =>
    if k.sched.prio dest ≤ prio then some k
    else
      match k.sched.status dest with
      | .blocked =>
        let s := k.sched.setPrio dest prio
        -- alone in its bucket
        if s.rings.links.next dest = some dest then some { k with sched := s }
        else
          let hashval := futexHashval (s.futexPtr dest)
          ({ s with rings := s.rings.remove (.futex hashval) dest }.futexHashAddRing hashval
            dest).map fun s => { k with sched := s }
      | .ready =>
        some { k with sched := ((k.sched.readyRemove dest).setPrio dest prio).readyInsert dest }
      | .running =>
        let k := { k with sched := k.sched.runlistSetThreadPrio dest prio }
        some (if k.hw.priomask.getLsbD (k.sched.hthread dest) then
          { k with hw := k.hw.raiseLowprio } else k)
      | .intblocked => some { k with sched := k.sched.setPrio dest prio }
      | .vmwait | .dead => some k

/-- `H2K_futex_lock_pi`; `word` is what the lock holds before its bit 0 is set. -/
def futexLockPi (M : Machine ι β) (pa : Option ℕ) (word : ℕ) (me : ι) (h : ℕ) (k : Kernel ι β) :
    Option (Exit × Kernel ι β) :=
  if k.threads.vmwork me then
    (k.vmDoWorkWithlock M me h).map fun p => (p.1.andReturn (-1), p.2)
  else
    match pa with
    | none => some (.returned (-1), k)
    | some pa =>
      if word ||| 1 = 1 then some (.returned 0, k)
      else (k.futexPiRaise M (k.sched.prio me) word).bind fun k => k.futexBlock M (pa / 4) me

/-- `H2K_futex_unlock_pi`. -/
def futexUnlockPi (pa : Option ℕ) (me : ι) (k : Kernel ι β) : Option (Exit × Kernel ι β) :=
  match pa with
  | none => some (.returned (-1), k)
  | some pa =>
    let hashval := futexHashval (pa / 4)
    (k.sched.futexHashRemoveOne (pa / 4 % 0x100000000) hashval
      (k.sched.rings.head (.futex hashval))).map fun p =>
        (.returned 0, { k with
          sched := p.2.2.runlistSetThreadPrio me (k.threads.basePrio me % 256) }.checkSanity)

end Kernel

/-! ## Blocking and waking -/

section Classic

variable {M : Machine ι β} {k : Kernel ι β} {h : ℕ} {me : ι}

/-- **Joining a bucket** for a word address that fits the 34 bits kept of it. -/
theorem futexEnqueue_leaves (hc : Coherent M k) (hme : k.hw.sgp h = some me) {pa : ℕ}
    (hpa : pa < 0x400000000) : ∃ k', k.futexEnqueue pa me = some k' ∧ Leaves M h k k' := by
  have hrunning := (hc.running hme).1
  set s := (((k.sched.setFutexPtr me pa).runlistRemove me).setR00 me 0).setStatus me .blocked
    with hs
  have hhand : InHand M s me :=
    (((hc.placed.runlistRemove hrunning).setFutexPtr pa).setR00 0).setStatus .blocked
  have hhash : futexHashval (s.futexPtr me) = futexHashval pa := by simp [hs, Nat.mod_eq_of_lt hpa]
  obtain ⟨R, hadd, hplaced⟩ := hhand.futexHashAddRing (by simp [hs]) hhash
  unfold futexEnqueue
  simp only [← hs]
  rw [hadd]
  refine ⟨_, rfl, hc.block hme hplaced ?_ rfl rfl rfl rfl fun _ _ hpool => ?_⟩
  · exact ⟨fun u hu => by simp [hs, hu], fun _ _ => rfl, fun _ _ => rfl,
      fun u hu => by simp [hs, hu], fun u hu => by simp [hs, hu]⟩
  · simp [hs, PoolBlocked] at hpool

theorem futexBlock_ends (hc : Coherent M k) (hme : k.hw.sgp h = some me) {pa : ℕ}
    (hpa : pa < 0x400000000) : Ends (Settled M h k) (k.futexBlock M pa me) := by
  obtain ⟨k', hadd, hl⟩ := futexEnqueue_leaves hc hme hpa
  rw [futexBlock, hadd, (hc.running hme).2]
  exact hl.dosched

theorem futexWait_ends (hc : Coherent M k) (hme : k.hw.sgp h = some me) {pa : Option ℕ}
    (hpa : ∀ a ∈ pa, a < 0x1000000000) (readval val : ℕ) :
    Ends (After M h k) (k.futexWait M pa readval val me h) := by
  unfold futexWait
  split
  · exact (vmDoWorkWithlock_ends hc hme).map _
  rcases pa with - | a
  · exact .some (.refl hc)
  simp only
  split
  · exact .some (.refl hc)
  · have := hpa a rfl
    exact (futexBlock_ends hc hme (by omega)).after

/-- The threads that a wake-up of at most `n` is for: the first that wait on the address. -/
def Sched.firstWaiters (s : Sched ι β) (a n : ℕ) : List ι :=
  ((s.queue (.futex (futexHashval a))).filter (s.waitsOn (a % 0x100000000))).take n

/-- **Waking up** wakes the first waiters, and tests for preemption if anybody is in the bucket. -/
theorem futexResume_eq (hs : Placed M k.sched) (a nToWake : ℕ) :
    ∃ s, Woken M (futexHashval (a / 4)) (k.sched.firstWaiters (a / 4) nToWake) k.sched s ∧
      (k.futexResume (some a) nToWake =
          some (.returned (k.sched.firstWaiters (a / 4) nToWake).length,
          { k with sched := s }.checkSanity) ∨
        s = k.sched ∧ k.futexResume (some a) nToWake =
          some (.returned (k.sched.firstWaiters (a / 4) nToWake).length, k)) := by
  unfold futexResume
  split
  · next hn =>
    subst hn
    exact ⟨k.sched, by simpa [Sched.firstWaiters] using Woken.nil hs _, .inr ⟨rfl, by
      simp [Sched.firstWaiters]⟩⟩
  next hn =>
  have hring := hs.holds.rep.ring (.futex (futexHashval (a / 4)))
  simp only
  split
  · next hhead =>
    have hnil : k.sched.queue (.futex (futexHashval (a / 4))) = [] := by
      rw [← List.head?_eq_none_iff, ← hring.head, hhead]
    exact ⟨k.sched, by simpa [Sched.firstWaiters, hnil] using Woken.nil hs _, .inr ⟨rfl, by
      simp [Sched.firstWaiters, hnil]⟩⟩
  · have hpos : [] ++ k.sched.queue (.futex (futexHashval (a / 4))) ≠ [] →
        k.sched.rings.head (.futex (futexHashval (a / 4))) =
          (k.sched.queue (.futex (futexHashval (a / 4))) ++ []).head? := fun _ => by
      rw [hring.head, List.append_nil]
    obtain ⟨s, hloop, hwoken⟩ := hs.futexResumeLoop_eq (a / 4 % 0x100000000) nToWake
      (List.nil_append _).symm hpos (by simp) (Nat.lt_succ_of_le hring.length_le_card)
      (Nat.pos_of_ne_zero hn)
    rw [hloop]
    exact ⟨s, hwoken, .inl (by simp [Sched.firstWaiters])⟩

theorem futexResume_ends (hc : Coherent M k) (pa : Option ℕ) (nToWake : ℕ) :
    Ends (After M h k) (k.futexResume pa nToWake) := by
  rcases pa with - | a
  · unfold futexResume
    split <;> exact .some (.refl hc)
  obtain ⟨s, hwoken, heq | ⟨-, heq⟩⟩ := futexResume_eq hc.placed a nToWake
  · rw [heq]
    exact .some (.of_checkSanity hc hwoken.placed
      ⟨hwoken.wakes hc.placed, rfl, rfl, ⟨rfl, rfl, rfl, rfl, id⟩, fun _ => id⟩)
  · rw [heq]
    exact .some (.refl hc)

end Classic

/-! ## Priority inheritance -/

section Pi

variable {M : Machine ι β} {k k' : Kernel ι β} {h : ℕ} {me : ι}

/-- **Raising** a thread changes its priority and where it is filed. -/
theorem futexPiRaise_fields {prio destid : ℕ} (hraise : k.futexPiRaise M prio destid = some k') :
    ∃ R p rp rv pm im, k' = { k with
      sched := { k.sched with rings := R, prio := p, runlistPrios := rp, readyValids := rv }
      hw := { k.hw with priomask := pm, imask := im } } := by
  unfold futexPiRaise at hraise
  split at hraise
  · exact ⟨_, _, _, _, _, _, (Option.some.inj hraise).symm⟩
  split at hraise
  · exact ⟨_, _, _, _, _, _, (Option.some.inj hraise).symm⟩
  split at hraise
  · simp only at hraise
    split at hraise
    · exact ⟨_, _, _, _, _, _, (Option.some.inj hraise).symm⟩
    · obtain ⟨s, hs, rfl⟩ := Option.map_eq_some_iff.mp hraise
      obtain ⟨R, rfl⟩ := futexHashAddRing_fields hs
      exact ⟨_, _, _, _, _, _, rfl⟩
  · next dest _ _ _ hst =>
    cases hraise
    have hstatus : Function.update k.sched.status dest .ready = k.sched.status := by
      rw [← hst, Function.update_eq_self]
    simp only [Sched.readyInsert, Sched.setPrio, Sched.readyRemove, hstatus]
    exact ⟨_, _, _, _, _, _, rfl⟩
  · cases hraise
    split
    · rw [Hw.raiseLowprio_eq]
      exact ⟨_, _, _, _, _, _, rfl⟩
    · exact ⟨_, _, _, _, _, _, rfl⟩
  all_goals exact ⟨_, _, _, _, _, _, (Option.some.inj hraise).symm⟩

omit dβ fι in
/-- A new priority makes no difference to where a thread waits. -/
theorem Placed.setPrio {s : Sched ι β} (hs : Placed M s) {t : ι}
    (ht : s.status t = .blocked ∨ s.status t = .intblocked) (v : ℕ) : Placed M (s.setPrio t v) := by
  have hrun (h : ℕ) : s.runlist h ≠ some t := fun e => by
    have := (hs.runlist_iff.mp e).1
    rcases ht with ht | ht <;> simp [ht] at this
  refine hs.congr (agreeOff_setPrio t v s) ?_ rfl rfl rfl rfl rfl rfl (hs.prios.setPrio hrun v)
  rcases ht with ht | ht <;> simp [Sched.place, ht]

/-- … and the structures with it. -/
theorem futexPiRaise_placed (hs : Placed M k.sched) {prio : ℕ} (hprio : prio ≤ maxPrio)
    (destid : ℕ) : ∃ k', k.futexPiRaise M prio destid = some k' ∧ Placed M k'.sched := by
  unfold futexPiRaise
  split
  · exact ⟨k, rfl, hs⟩
  split
  · exact ⟨k, rfl, hs⟩
  split
  · next hst =>
    have hset := hs.setPrio (.inl hst) prio
    simp only
    split
    · exact ⟨_, rfl, hset⟩
    · have hhand := hset.remove (place_eq_futex.mpr ⟨hst, rfl⟩) (by simp)
      obtain ⟨R, hadd, hplaced⟩ := hhand.futexHashAddRing hst rfl
      rw [hadd]
      exact ⟨_, rfl, hplaced⟩
  · next hst => exact ⟨_, rfl, ((hs.readyRemove hst).setPrio prio).readyInsert⟩
  · next hst =>
    refine ⟨_, rfl, ?_⟩
    split <;> exact hs.runlistSetThreadPrio hst hprio
  · next hst => exact ⟨_, rfl, hs.setPrio (.inr hst) prio⟩
  all_goals exact ⟨k, rfl, hs⟩

/-- **Raising** the owner of a lock keeps it where it is, in its new rank. -/
theorem futexPiRaise_coherent (hc : Coherent M k) {prio : ℕ} (hprio : prio ≤ maxPrio) (destid : ℕ) :
    ∃ k', k.futexPiRaise M prio destid = some k' ∧ Coherent M k' ∧ SameConfig k k' ∧
      k'.hw.sgp = k.hw.sgp ∧ k'.hw.waitMask = k.hw.waitMask := by
  obtain ⟨k', hraise, hplaced⟩ := futexPiRaise_placed hc.placed hprio destid
  obtain ⟨R, p, rp, rv, pm, im, rfl⟩ := futexPiRaise_fields hraise
  -- whatever the rank, nobody has been switched, and the same threads are in the intpools
  exact ⟨_, hraise, hc.congr hplaced rfl rfl ⟨rfl, rfl, rfl, rfl, id⟩ hc.parents,
    ⟨rfl, rfl, rfl, rfl, id⟩, rfl, rfl⟩

theorem futexLockPi_ends (hc : Coherent M k) (hme : k.hw.sgp h = some me) {pa : Option ℕ}
    (hpa : ∀ a ∈ pa, a < 0x1000000000) (word : ℕ) :
    Ends (After M h k) (k.futexLockPi M pa word me h) := by
  unfold futexLockPi
  split
  · exact (vmDoWorkWithlock_ends hc hme).map _
  rcases pa with - | a
  · exact .some (.refl hc)
  simp only
  split
  · exact .some (.refl hc)
  obtain ⟨k', hraise, hc', hcfg, hsgp, hwait⟩ :=
    futexPiRaise_coherent hc (hc.placed.prios.prio_le me) word
  rw [hraise]
  have := hpa a rfl
  exact (futexBlock_ends hc' (hsgp ▸ hme) (by omega)).mono fun k'' hk'' =>
    (hk''.of_config hcfg (.of_eq hsgp hwait)).after

theorem futexUnlockPi_ends (hc : Coherent M k) (hme : k.hw.sgp h = some me) (pa : Option ℕ) :
    Ends (After M h k) (k.futexUnlockPi pa me) := by
  unfold futexUnlockPi
  rcases pa with - | a
  · exact .some (.refl hc)
  simp only
  have hbase : k.threads.basePrio me % 256 ≤ maxPrio := by
    simp only [maxPrio]
    omega
  -- one thread of the bucket is woken, or none
  obtain ⟨pos, s, hremove, hwoken⟩ :=
    hc.placed.futexHashRemoveOne_head (a / 4 % 0x100000000) (futexHashval (a / 4))
  have hs := hwoken.placed
  have hstirs : Stirs k { k with sched := s } :=
    ⟨hwoken.wakes hc.placed, rfl, rfl, ⟨rfl, rfl, rfl, rfl, id⟩, fun _ => id⟩
  have hc₁ := hstirs.coherent hc hs
  have hrunning : s.status me = .running := (hc₁.running hme).1
  rw [hremove]
  refine .some (.checkSanity (hc₁.congr (hs.runlistSetThreadPrio hrunning hbase) rfl rfl
    ⟨rfl, rfl, rfl, rfl, id⟩ hc₁.parents) ⟨rfl, rfl, rfl, rfl, id⟩ (.of_eq rfl rfl))

end Pi

end H2
