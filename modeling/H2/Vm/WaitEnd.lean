import H2.Vm.Controllers

/-!
# Vm/WaitEnd — what a vmwait returns

A `vmwait` that finds an interrupt returns its number, as the guest knows it.  One that blocks is
told by the delivery, which is at the end of the chain of controllers: there, shared interrupts are
counted from zero, and the guest is told a number that is too small by 16 (`waitEnd_r00_iff`).
-/

namespace H2

open Intctl Kernel

variable {ι β : Type} [DecidableEq ι] [dβ : DecidableEq β]

section Woken

variable {M : Machine ι β} {k : Kernel ι β} {op : IntopType} {me t u : ι} {i n intno : ℕ}

/-- Only the cpu that an interrupt is delivered to leaves VMWAIT, and is told the number. -/
theorem vmIntDeliverLocked_woken (hwait : k.sched.status t = .vmwait)
    (hleft : (k.vmIntDeliverLocked M u intno).2.sched.status t ≠ .vmwait) :
    u = t ∧ (k.vmIntDeliverLocked M u intno).2.sched.r00 t = intno := by
  obtain rfl : u = t := by
    obtain ⟨-, -, ⟨hst, -⟩ | hst⟩ := vmIntDeliverLocked_status M u intno k
    · exact absurd (hst ▸ hwait) hleft
    · by_contra hne
      rw [hst, Function.update_of_ne (Ne.symm hne)] at hleft
      exact hleft hwait
  refine ⟨rfl, ?_⟩
  unfold vmIntDeliverLocked
  rw [hwait]
  simp [checkSanity]

theorem vmShintDeliverCpu_woken (hwait : k.sched.status t = .vmwait)
    (hleft : (k.vmShintDeliverCpu M u intno).2.sched.status t ≠ .vmwait) :
    u = t ∧ (k.vmShintDeliverCpu M u intno).2.sched.r00 t = intno := by
  rw [vmShintDeliverCpu_eq] at hleft ⊢
  split
  · next htakes =>
    rw [if_pos htakes] at hleft
    exact vmIntDeliverLocked_woken hwait hleft
  · next htakes =>
    rw [if_neg htakes] at hleft
    exact absurd hwait hleft

theorem vmShintDeliver_woken (hwait : k.sched.status t = .vmwait)
    (hleft : (k.vmShintDeliver M me intno).sched.status t ≠ .vmwait) :
    (k.vmShintDeliver M me intno).sched.r00 t = intno ∧ M.vmblock t = M.vmblock me ∧
      k.ints.percpuMask t intno = true := by
  obtain ⟨tried, -, -, htry⟩ := shintTry_spec M intno (k.shintCandidates M me) k
  rw [vmShintDeliver_eq, htry] at hleft ⊢
  rcases hfind : (k.shintCandidates M me).find? (k.takes intno) with - | u <;> rw [hfind] at hleft
  · exact absurd hwait hleft
  · obtain ⟨rfl, hr00⟩ := vmIntDeliverLocked_woken (k := k.markWork intno tried) hwait hleft
    have htakes := List.find?_some hfind
    rw [takes, Bool.and_eq_true] at htakes
    exact ⟨hr00, mem_shintCandidates.mp (List.mem_of_find?_eq_some hfind), htakes.1⟩

theorem vmShintLocalen_woken (hwait : k.sched.status t = .vmwait)
    (hleft : (k.vmShintLocalen M me intno).sched.status t ≠ .vmwait) :
    (k.vmShintLocalen M me intno).sched.r00 t = intno ∧ me = t ∧
      k.ints.enable (M.vmblock me) intno = true ∧ k.ints.pending (M.vmblock me) intno = true := by
  unfold vmShintLocalen at hleft ⊢
  simp only at hleft ⊢
  split at hleft
  · exact absurd hwait hleft
  split at hleft
  · next hmask hready =>
    rw [if_neg hmask, if_pos hready]
    obtain ⟨hme, hr00⟩ := vmShintDeliverCpu_woken (k := k.setPercpuMask me intno true) hwait hleft
    exact ⟨hr00, hme, by simpa using hready⟩
  · exact absurd hwait hleft

/-- **A shared interrupt** tells its number without those of the cpu. -/
theorem shintOps_woken (hwait : k.sched.status t = .vmwait)
    (hleft : (k.shintOps M op me i).2.sched.status t ≠ .vmwait) :
    (k.shintOps M op me i).2.sched.r00 t = i ∧ M.vmblock t = M.vmblock me ∧
      (k.shintOps M op me i).2.ints.sharedReady M t i = true := by
  rw [shintOps_ints]
  cases op with
  | globen =>
    simp only [shintOps, vmShintEnable] at hleft ⊢
    split at hleft
    · exact absurd hwait hleft
    split at hleft
    · next hen hpend =>
      obtain ⟨hr00, hvm, hmask⟩ := vmShintDeliver_woken (k := k.setEnable _ i true) hwait hleft
      rw [if_neg hen, if_pos hpend]
      exact ⟨hr00, hvm, by simpa [sharedReady, opShared, hvm, hpend, setEnable] using hmask⟩
    · exact absurd hwait hleft
  | post =>
    simp only [shintOps, vmShintPost] at hleft ⊢
    split at hleft
    · exact absurd hwait hleft
    split at hleft
    · next hpend hen =>
      obtain ⟨hr00, hvm, hmask⟩ := vmShintDeliver_woken (k := k.setPending _ i true) hwait hleft
      rw [if_neg hpend, if_pos hen]
      exact ⟨hr00, hvm, by simpa [sharedReady, opShared, hvm, hen, setPending] using hmask⟩
    · exact absurd hwait hleft
  | locen =>
    obtain ⟨hr00, rfl, hen, hpend⟩ := vmShintLocalen_woken hwait hleft
    exact ⟨hr00, rfl, by simp [sharedReady, opShared, hen, hpend]⟩
  | affinity =>
    have hsched (ts : List ι) (k : Kernel ι β) :
        (ts.foldl (fun k t => k.vmShintLocaldis t i) k).sched = k.sched := by
      induction ts generalizing k with
      | nil => rfl
      | cons t ts ih => exact ih _
    obtain ⟨hr00, rfl, hen, hpend⟩ := vmShintLocalen_woken (by rw [hsched]; exact hwait) hleft
    rw [foldl_vmShintLocaldis] at hen hpend
    exact ⟨hr00, rfl, by simp [sharedReady, opShared, hen, hpend]⟩
  | nop | globdis | locdis | get | peek | status | clear => exact absurd hwait hleft

/-- **An interrupt of the cpu** tells its number, and then something is ready. -/
theorem cpuintOps_woken (hwait : k.sched.status t = .vmwait)
    (hleft : (k.cpuintOps M op me i).2.sched.status t ≠ .vmwait) :
    me = t ∧ op = .post ∧ (k.cpuintOps M op me i).2.sched.r00 t = i ∧
      ∃ j < percpuInterrupts, (k.cpuintOps M op me i).2.ints.cpuReady t j = true := by
  cases op with
  | post =>
    simp only [cpuintOps, vmCpuintPostLocked] at hleft ⊢
    split at hleft
    · next hany =>
      obtain ⟨rfl, hr00⟩ := vmIntDeliverLocked_woken (k := k.cpuintSetPending me i) hwait hleft
      rw [if_pos hany, (vmIntDeliverLocked_status ..).1]
      exact ⟨rfl, trivial, hr00, by simpa using hany⟩
    · exact absurd hwait hleft
  | globen =>
    simp only [cpuintOps, vmCpuintEnable] at hleft
    split at hleft <;> exact absurd hwait hleft
  | nop | globdis | locen | locdis | affinity | get | peek | status | clear =>
    exact absurd hwait hleft

end Woken

section Ends

variable [fι : Fintype ι] {M : Machine ι β} {k k' : Kernel ι β} {op : IntopType}
  {t dst : ι} {n m : ℕ} {blocked : Bool}

/-- **A `vmwait` of `t` ends** with interrupt `n`, at once or after it has blocked, by an operation
on the interrupt.  The timer's interrupt, too, is posted so. -/
inductive WaitEnd (M : Machine ι β) (t : ι) : Bool → ℕ → Kernel ι β → Kernel ι β → Prop
  | atOnce {k k' : Kernel ι β} {h n : ℕ} (hkill : k.threads.kill t = false)
      (hwork : (k.vmWork M t).1 = .returned n)
      (hret : k.vmtrapWait M t h = some (.returned n, k')) :
      WaitEnd M t false n k k'
  | woken {k : Kernel ι β} {op : IntopType} {dst : ι} {n : ℕ} (hwait : k.sched.status t = .vmwait)
      (hleft : (k.optab M op dst n).2.sched.status t ≠ .vmwait) :
      WaitEnd M t true n k (k.optab M op dst n).2

omit fι in
/-- What work returns is what `peek` and `get` report. -/
theorem interruptPeek_of_vmWork (hwork : (k.vmWork M t).1 = .returned n) :
    k.ints.interruptPeek M t = n ∧ (k.ints.interruptGet M t).1 = n := by
  obtain ⟨r, c, hpeek, hget, -⟩ := interruptGet_spec M t k.ints
  suffices r = n by rw [hpeek, hget]; exact ⟨this, this⟩
  unfold vmWork vmCheckInterrupts at hwork
  grind

omit dβ fι in
theorem readyBelow_opCpu (hne : m ≠ n) (c : Intctl ι β) (bits : ℕ) :
    (c.opCpu op dst n).ReadyBelow M t bits m ↔ c.ReadyBelow M t bits m := by
  unfold ReadyBelow cpuReady sharedReady opCpu
  grind

omit fι in
theorem readyBelow_opShared (hne : m ≠ n) (hn : percpuInterrupts ≤ n) (c : Intctl ι β) (bits : ℕ) :
    (c.opShared M op dst (n - percpuInterrupts)).ReadyBelow M t bits m →
      c.ReadyBelow M t bits m := by
  unfold ReadyBelow cpuReady sharedReady opShared
  grind

omit fι in
/-- If nothing has been ready but for interrupt `n`, that one is reported. -/
theorem interruptPeek_eq {c c' : Intctl ι β} (hnone : c.interruptPeek M t = -1)
    (hsome : c'.ReadyBelow M t (sharedBits M t) m)
    (hother : ∀ m, m ≠ n → c'.ReadyBelow M t (sharedBits M t) m →
      c.ReadyBelow M t (sharedBits M t) m) : c'.interruptPeek M t = n := by
  obtain ⟨r, -, hr, -, ⟨-, -, hquiet⟩ | ⟨l, rfl, -⟩⟩ := interruptGet_spec M t c
  · obtain ⟨r', -, hpeek, -, ⟨-, -, hno⟩ | ⟨l, rfl, -, hl⟩⟩ := interruptGet_spec M t c'
    · exact absurd hsome (hno m)
    · rw [hpeek, not_not.mp fun hne => hquiet l (hother l hne hl.1)]
  · omega

/-- **The number that a `vmwait` leaves in r0** is the one that the guest knows the interrupt by,
and that is reported for it, just if the `vmwait` has not blocked or the interrupt is one of the
cpu. -/
theorem waitEnd_r00_iff (hend : WaitEnd M t blocked n k k') :
    (k'.sched.r00 t = n ↔ blocked = false ∨ n < percpuInterrupts) ∧
      if blocked then k.ints.interruptPeek M t = -1 → k'.ints.interruptPeek M t = n
      else k.ints.interruptPeek M t = n ∧ (k.ints.interruptGet M t).1 = n := by
  cases hend with
  | atOnce hkill hwork hret =>
    refine ⟨?_, interruptPeek_of_vmWork hwork⟩
    rw [vmtrapWait, vmDoWorkWithlock, hkill] at hret
    rcases hw : k.vmWork M t with ⟨e, k₁⟩
    rw [hw] at hwork hret
    cases hwork
    have hne : ¬(n : ℤ) = -1 := by omega
    have hk' : { k₁ with sched := k₁.sched.setR00 t n } = k' := by simpa [hne] using hret
    simp [← hk']
  | @woken _ op dst _ hwait hleft =>
    by_cases hop : op.numbered
    · rw [optab_of_numbered hop] at hleft ⊢
      rcases hctl : M.controller (M.vmblock dst) n with i | i | - <;> rw [hctl] at hleft <;>
        unfold Machine.controller at hctl
      · obtain ⟨rfl, rfl, hr00, j, hj, hready⟩ := cpuintOps_woken hwait hleft
        obtain ⟨hlt, rfl⟩ : n < percpuInterrupts ∧ n = i := by grind
        rw [cpuintOps_ints] at hready ⊢
        refine ⟨by simp [hr00, hlt], fun hnone => interruptPeek_eq hnone (m := j) ?_ fun m hne =>
          (readyBelow_opCpu hne _ _).mp⟩
        rwa [ReadyBelow, if_pos hj]
      · obtain ⟨hr00, hvm, hready⟩ := shintOps_woken hwait hleft
        obtain ⟨hge, hlt, rfl⟩ : percpuInterrupts ≤ n ∧
            n - percpuInterrupts < M.numInts (M.vmblock dst)
          ∧ n - percpuInterrupts = i := by grind
        rw [shintOps_ints] at hready ⊢
        have hbits : n - percpuInterrupts < sharedBits M t := by
          rw [sharedBits, hvm]
          omega
        refine ⟨?_, fun hnone => interruptPeek_eq hnone (m := n) ?_ fun m hne =>
          readyBelow_opShared hne hge _ _⟩
        · have hpos : 0 < percpuInterrupts := by decide
          simp only [Bool.true_eq_false, false_or]
          omega
        · rw [ReadyBelow, if_neg hge.not_gt]
          exact ⟨hbits, hready⟩
      · exact absurd hwait hleft
    · cases op <;> first | exact absurd hwait hleft | exact absurd rfl hop

end Ends

/-- Both cpus have interrupt 2 of the cpu enabled. -/
def secondTimed : Kernel (Fin 2) Unit :=
  { secondWaits with ints := { secondWaits.ints with cpuintEnabled := fun _ i => i = 2 } }

/-- An interrupt of the cpu is told by its number, … -/
theorem waitEnd_secondTimed : ∃ k', WaitEnd fortyInts 1 true 2 secondTimed k' ∧
    k'.sched.r00 1 = 2 ∧ k'.ints.interruptPeek fortyInts 1 = 2 := by
  have hend : WaitEnd fortyInts 1 true 2 secondTimed (secondTimed.optab fortyInts .post 1 2).2 :=
    .woken rfl (by decide +kernel)
  obtain ⟨hr00, hpeek⟩ := waitEnd_r00_iff hend
  exact ⟨_, hend, hr00.mpr (.inr (by decide)), hpeek (by decide +kernel)⟩

/-- … and a shared one is not: interrupt 19 of the guest is told as interrupt 3. -/
theorem waitEnd_secondWaits : ∃ k', WaitEnd fortyInts 1 true 19 secondWaits k' ∧
    k'.sched.r00 1 = 3 ∧ k'.ints.interruptPeek fortyInts 1 = 19 := by
  have hend : WaitEnd fortyInts 1 true 19 secondWaits (secondWaits.optab fortyInts .post 0 19).2 :=
    .woken rfl (by decide +kernel)
  exact ⟨_, hend, by decide +kernel, by decide +kernel⟩

end H2
