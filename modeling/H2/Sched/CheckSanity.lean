import H2.Data.Readylist

/-!
# Sched/CheckSanity — the lowest priority hardware thread and the preemption test

Two things are kept true at the end of an operation: some hardware thread has its interrupts open
(`priomask`), and `RESCHED_INT` is raised when a ready thread should be running.
-/

namespace H2

variable {ι β : Type}

namespace Hw

/-- `change_imask`. -/
def changeImask (h : ℕ) (v : BitVec 32) (hw : Hw ι β) : Hw ι β :=
  { hw with imask := Function.update hw.imask h v }

/-- `H2K_lowprio_notify`. -/
def lowprioNotify (s : Sched ι β) (hw : Hw ι β) : Hw ι β :=
  let hthread := runlistWorstPrioHthread hw.hthreads s
  { hw with priomask := hw.priomask ||| (1#32 <<< hthread) }.changeImask hthread 0

/-- `H2K_raise_lowprio`. -/
def raiseLowprio (hw : Hw ι β) : Hw ι β :=
  if hw.waitMask ≠ 0 then hw
  else { hw with priomask := 0 }.changeImask (ct0 hw.priomask) (-1)

/-- The preemption test of `H2K_check_sanity`. -/
def needsResched (s : Sched ι β) (hw : Hw ι β) : Bool :=
  s.readyBestPrio < runlistWorstPrio hw.hthreads s || hw.waitMask ≠ 0 && s.readyAnyValid

/-- `H2K_check_sanity`; `resched_int` raises the interrupt. -/
def checkSanity (s : Sched ι β) (hw : Hw ι β) : Hw ι β :=
  let hw := if hw.priomask = 0 then hw.lowprioNotify s else hw
  if hw.needsResched s then { hw with reschedInt := true } else hw

end Hw

/-- `H2K_check_sanity` on the whole state. -/
def Kernel.checkSanity (k : Kernel ι β) : Kernel ι β := { k with hw := k.hw.checkSanity k.sched }

/-! ## The worst running thread -/

/-- The running threads sit in the slots of the hardware threads in `mask`, priorities beside
them. -/
structure Assigned (mask : BitVec 32) (s : Sched ι β) : Prop where
  running : ∀ {t}, s.status t = .running ↔ s.runlist (s.hthread t) = some t
  slot : ∀ {h t}, s.runlist h = some t → s.hthread t = h ∧ mask.getLsbD h = true
  prios : ∀ {h t}, s.runlist h = some t → s.runlistPrios h = s.prio t
  empty : ∀ {h}, s.runlist h = none → s.runlistPrios h = -1
  prio_le : ∀ t, s.prio t ≤ maxPrio

/-- The worst priority and the low priority hardware thread are those of all running threads. -/
structure WorstRunning (s : Sched ι β) (hw : Hw ι β) : Prop where
  /-- `H2K_runlist_worst_prio` is the worst priority of a running thread, … -/
  attained : ∃ t, s.status t = .running ∧ s.prio t = runlistWorstPrio hw.hthreads s
  le_worst : ∀ t, s.status t = .running → s.prio t ≤ runlistWorstPrio hw.hthreads s
  /-- … `H2K_runlist_worst_prio_hthread` runs at it, … -/
  hthread : ∃ t, s.runlist (runlistWorstPrioHthread hw.hthreads s) = some t ∧
    s.status t = .running ∧ s.prio t = runlistWorstPrio hw.hthreads s
  /-- … it is the one whose interrupts `H2K_lowprio_notify` opens, … -/
  lowprio : ∃ t, s.status t = .running ∧ (∀ u, s.status u = .running → s.prio u ≤ s.prio t) ∧
    (hw.lowprioNotify s).priomask = hw.priomask ||| (1#32 <<< s.hthread t) ∧
    (hw.lowprioNotify s).imask (s.hthread t) = 0
  /-- … and a thread is preempted if the best ready thread is better than any that runs. -/
  preempts : (hw.checkSanity s).reschedInt = true ↔ hw.reschedInt = true ∨
    (∃ t, s.status t = .running ∧ s.readyBestPrio < s.prio t) ∨
    (hw.waitMask ≠ 0 ∧ s.readyAnyValid = true)

namespace Hw

/-- What `H2K_check_sanity` can change: two masks and the raised interrupt. -/
theorem checkSanity_eq (s : Sched ι β) (hw : Hw ι β) : hw.checkSanity s = { hw with
      priomask := (hw.checkSanity s).priomask
      imask := (hw.checkSanity s).imask
      reschedInt := hw.reschedInt || hw.needsResched s } := by
  have hnotify : (hw.lowprioNotify s).needsResched s = hw.needsResched s := rfl
  by_cases hp : hw.priomask = 0 <;> by_cases hn : hw.needsResched s <;>
    simp only [checkSanity, hp, hn, hnotify, ↓reduceIte] <;> simp [lowprioNotify, changeImask]

theorem checkSanity_reschedInt (s : Sched ι β) (hw : Hw ι β) :
    (hw.checkSanity s).reschedInt = (hw.reschedInt || hw.needsResched s) := by rw [checkSanity_eq]

end Hw

section Worst

variable {mask : BitVec 32} {s : Sched ι β} {n : ℕ}

/-- Looking at enough slots, the scan finds the worst running thread. -/
theorem Assigned.worst (ha : Assigned mask s) (hn : ∀ h, mask.getLsbD h = true → h < n)
    (hn32 : n ≤ 2 ^ 32) {t₀ : ι} (ht₀ : s.status t₀ = .running) :
    ∃ t, s.runlist (runlistWorstPrioHthread n s) = some t ∧ s.status t = .running ∧
      s.hthread t = runlistWorstPrioHthread n s ∧ s.prio t = runlistWorstPrio n s ∧
      ∀ u, s.status u = .running → s.prio u ≤ s.prio t := by
  have hle : ∀ {u}, s.status u = .running → s.hthread u < n ∧
      s.runlistPrios (s.hthread u) = s.prio u := fun {u} hu =>
    have hslot := ha.running.mp hu
    ⟨hn _ (ha.slot hslot).2, ha.prios hslot⟩
  rcases worstScan_spec s.runlistPrios n with ⟨-, hnone⟩ | ⟨i, hi, hscan, hpos, hmax⟩
  · -- the slot of `t₀` was looked at
    have := hnone _ (hle ht₀).1
    rw [(hle ht₀).2] at this
    omega
  · obtain ⟨t, ht⟩ : ∃ t, s.runlist i = some t := by
      rcases hrun : s.runlist i with - | t
      · rw [ha.empty hrun] at hpos
        omega
      · exact ⟨t, rfl⟩
    have hhthread : runlistWorstPrioHthread n s = i := by
      rw [runlistWorstPrioHthread, hscan]
      omega
    have hprio : runlistWorstPrio n s = s.prio t := by
      have hne : ¬(i : ℤ) = -1 := by omega
      rw [runlistWorstPrio, hscan, if_neg hne, ha.prios ht]
      rfl
    have hti := (ha.slot ht).1
    refine ⟨t, hhthread ▸ ht, ha.running.mpr (by rw [hti, ht]), by rw [hti, hhthread], hprio.symm,
      fun u hu => ?_⟩
    have := hmax _ (hle hu).1
    rw [(hle hu).2, ha.prios ht] at this
    exact_mod_cast this

/-- **Every running thread is considered** when the loops look at every slot of the mask. -/
theorem Assigned.worstRunning {hw : Hw ι β} (ha : Assigned mask s)
    (hn : ∀ h, mask.getLsbD h = true → h < hw.hthreads) (hn32 : hw.hthreads ≤ 2 ^ 32) {t₀ : ι}
    (ht₀ : s.status t₀ = .running) : WorstRunning s hw := by
  obtain ⟨t, hslot, hrun, hhthread, hprio, hmax⟩ := ha.worst hn hn32 ht₀
  refine ⟨⟨t, hrun, hprio⟩, fun u hu => hprio ▸ hmax u hu, ⟨t, hslot, hrun, hprio⟩,
    ⟨t, hrun, hmax, ?_, ?_⟩, ?_⟩
  · rw [hhthread]
    rfl
  · rw [hhthread]
    exact Function.update_self ..
  · have htest : s.readyBestPrio < runlistWorstPrio hw.hthreads s ↔
        ∃ u, s.status u = .running ∧ s.readyBestPrio < s.prio u :=
      ⟨fun h => ⟨t, hrun, hprio ▸ h⟩, fun ⟨u, hu, h⟩ => h.trans_le (hprio ▸ hmax u hu)⟩
    rw [Hw.checkSanity_reschedInt, Hw.needsResched, ← htest]
    simp

end Worst

end H2
