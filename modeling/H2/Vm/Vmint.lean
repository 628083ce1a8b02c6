import H2.Data.Coherent
import H2.Event.Handlers
import H2.Futex.Common

/-!
# Vm/Vmint — posting interrupts to virtual cpus and taking them

A virtual interrupt is a pending bit, per cpu or shared by the VM.  Delivering it wakes a cpu that
waits, sends an IPI to one that runs, and cancels the wait of a blocked one whose interrupts are
enabled; the cpu takes it when it next does its work.
-/

namespace H2

open Kernel Function

variable {ι β : Type} [dι : DecidableEq ι] [dβ : DecidableEq β]

namespace Intctl

/-- A per-cpu interrupt that is enabled and pending. -/
def cpuReady (me : ι) (c : Intctl ι β) (i : ℕ) : Bool :=
  c.cpuintEnabled me i && c.cpuintPending me i

/-- A shared interrupt that is pending, enabled, and enabled for the cpu. -/
def sharedReady (M : Machine ι β) (me : ι) (c : Intctl ι β) (i : ℕ) : Bool :=
  c.pending (M.vmblock me) i && c.enable (M.vmblock me) i && c.percpuMask me i

/-- The shared interrupts are searched in words of 32. -/
def sharedBits (M : Machine ι β) (me : ι) : ℕ := (M.numInts (M.vmblock me) + 31) / 32 * 32

/-- `H2K_vm_interrupt_peek`: the per-cpu controller first, then the shared one. -/
def interruptPeek (M : Machine ι β) (me : ι) (c : Intctl ι β) : ℤ :=
  match (List.range percpuInterrupts).find? (c.cpuReady me) with
  | some i => i
  | none =>
    match (List.range (sharedBits M me)).find? (c.sharedReady M me) with
    | some i => percpuInterrupts + i
    | none => -1

/-- `H2K_vm_interrupt_get`: what is found is disabled and no longer pending. -/
def interruptGet (M : Machine ι β) (me : ι) (c : Intctl ι β) : ℤ × Intctl ι β :=
  match (List.range percpuInterrupts).find? (c.cpuReady me) with
  | some i =>
    (i, { c with
      cpuintPending := update c.cpuintPending me
        (update (c.cpuintPending me) i false)
      cpuintEnabled := update c.cpuintEnabled me
        (update (c.cpuintEnabled me) i false) })
  | none =>
    match (List.range (sharedBits M me)).find? (c.sharedReady M me) with
    | some i =>
      let b := M.vmblock me
      (percpuInterrupts + i, { c with
        enable := update c.enable b (update (c.enable b) i false)
        pending := update c.pending b (update (c.pending b) i false) })
    | none => (-1, c)

end Intctl

namespace Kernel

/-- `H2K_vm_check_interrupts`, with no number when `H2K_vm_event` finds no event vector and turns
to `H2K_fatal_thread`. -/
def vmCheckInterrupts (M : Machine ι β) (me : ι) (k : Kernel ι β) : Option ℤ × Kernel ι β :=
  if k.threads.ie me then
    let (intno, ints) := k.ints.interruptGet M me
    if intno = -1 then (some intno, { k with ints := ints })
    else if k.threads.gevb me = 0 then (none, { k with ints := ints })
    else (some intno, { k with
      ints := ints
      threads := { k.threads with ie := update k.threads.ie me false } })
  else (some (k.ints.interruptPeek M me), k)

/-- The part of `H2K_vm_do_work_withlock` after the test for `H2K_VMSTATUS_KILL`.  A fatal event
stops the thread, which takes the lock that is held already. -/
def vmWork (M : Machine ι β) (me : ι) (k : Kernel ι β) : Exit × Kernel ι β :=
  if k.threads.vmwork me then
    let k := { k with threads :=
      { k.threads with vmwork := update k.threads.vmwork me false } }
    match k.vmCheckInterrupts M me with
    | (some intno, k) => (.returned intno, k)
    | (none, k) => (.hung, { k with hw := { k.hw with hung := true } })
  else (.returned (-1), k)

/-- `H2K_vm_ipi_send_withlock`. -/
def vmIpiSendWithlock (dest : ι) (k : Kernel ι β) : Kernel ι β :=
  if k.sched.status dest = .running then
    { k with hw := { k.hw with maskForIpi := k.hw.maskForIpi ||| (1#32 <<< k.sched.hthread dest) } }
  else k

/-- Clear the bit of a cpu in `waiting_cpus`, which has room for 64. -/
def clearWaiting (M : Machine ι β) (t : ι) (v : Vms β) : Vms β :=
  if M.cpuidx t < 64 then
    { v with
      waitingCpus := update v.waitingCpus (M.vmblock t)
        (v.waitingCpus (M.vmblock t) &&& ~~~(1#64 <<< M.cpuidx t)) }
  else v

/-- `H2K_vm_int_deliver_locked`. -/
def vmIntDeliverLocked (M : Machine ι β) (thread : ι) (intno : ℕ) (k : Kernel ι β) :
    ℤ × Kernel ι β :=
  match k.sched.status thread with
  | .vmwait =>
    (0, { k with
      vms := clearWaiting M thread k.vms
      sched := (k.sched.setR00 thread intno).readyAppend thread }.checkSanity)
  | .running => (0, if k.threads.ie thread then k.vmIpiSendWithlock thread else k)
  | .intblocked =>
    (0, if k.threads.ie thread then
        { k with sched := (k.sched.popupCancel thread).readyAppend thread }.checkSanity
      else k)
  | .blocked =>
    (0, if k.threads.ie thread then
        { k with sched := (k.sched.futexCancel thread).readyAppend thread }.checkSanity
      else k)
  | .ready => (0, k)
  | .dead => (-1, k)

/-- The two bits a post sets before it looks whether the interrupt is enabled. -/
def cpuintSetPending (dst : ι) (intno : ℕ) (k : Kernel ι β) : Kernel ι β :=
  { k with
    ints := { k.ints with
      cpuintPending := update k.ints.cpuintPending dst
        (update (k.ints.cpuintPending dst) intno true) }
    threads := { k.threads with vmwork := update k.threads.vmwork dst true } }

/-- `H2K_vm_cpuint_post_locked`; `H2K_vm_cpuint_post` takes the lock for the delivery. -/
def vmCpuintPostLocked (M : Machine ι β) (dst : ι) (intno : ℕ) (k : Kernel ι β) : Kernel ι β :=
  let k := k.cpuintSetPending dst intno
  if (List.range percpuInterrupts).any (k.ints.cpuReady dst) then
    (k.vmIntDeliverLocked M dst intno).2
  else k

/-- `H2K_vm_cpuint_enable` for a per-cpu interrupt. -/
def vmCpuintEnable (me : ι) (intno : ℕ) (k : Kernel ι β) : Kernel ι β :=
  if k.ints.cpuintEnabled me intno then k
  else
    { k with
      ints := { k.ints with
        cpuintEnabled := update k.ints.cpuintEnabled me
          (update (k.ints.cpuintEnabled me) intno true) }
      threads := { k.threads with
        vmwork := update k.threads.vmwork me
          (k.threads.vmwork me || k.ints.cpuintPending me intno) } }

/-- `H2K_vm_cpuint_disable` for a per-cpu interrupt. -/
def vmCpuintDisable (me : ι) (intno : ℕ) (k : Kernel ι β) : Kernel ι β :=
  { k with ints := { k.ints with
      cpuintEnabled := update k.ints.cpuintEnabled me
        (update (k.ints.cpuintEnabled me) intno false) } }

/-- `H2K_vm_cpuint_clear` for a per-cpu interrupt. -/
def vmCpuintClear (me : ι) (intno : ℕ) (k : Kernel ι β) : Kernel ι β :=
  { k with ints := { k.ints with
      cpuintPending := update k.ints.cpuintPending me
        (update (k.ints.cpuintPending me) intno false) } }

/-- `H2K_vm_shint_deliver_cpu`: whether the cpu took the interrupt. -/
def vmShintDeliverCpu (M : Machine ι β) (dest : ι) (intno : ℕ) (k : Kernel ι β) :
    Bool × Kernel ι β :=
  if k.ints.percpuMask dest intno then
    let k := { k with threads :=
      { k.threads with vmwork := update k.threads.vmwork dest true } }
    let (ret, k) := k.vmIntDeliverLocked M dest intno
    (ret ≠ -1, k)
  else (false, k)

end Kernel

/-! ## Doing the work -/

section Work

variable {M : Machine ι β} {k : Kernel ι β} {me : ι}

/-- What a thread changes when it looks for interrupts or does its work. -/
structure Works (me : ι) (k k' : Kernel ι β) : Prop where
  sched : k'.sched = k.sched
  vms : k'.vms = k.vms
  cluster : k'.cluster = k.cluster
  hw : k'.hw = { k.hw with hung := k'.hw.hung }
  hung : k.hw.hung = true → k'.hw.hung = true
  kill : k'.threads.kill = k.threads.kill
  vmwork : ∀ t, t ≠ me → k'.threads.vmwork t = k.threads.vmwork t
  /-- Interrupts are at most disabled, and none comes up. -/
  ie : ∀ t, k'.threads.ie t = true → k.threads.ie t = true
  ready : ∀ t i, k'.ints.cpuReady t i = true → k.ints.cpuReady t i = true

omit dι dβ in
theorem Works.stirs {k' : Kernel ι β} (hk : Works me k k') : Stirs k k' := by
  have hhw := hk.hw
  refine ⟨hk.sched ▸ .refl _, ?_, ?_, ⟨?_, ?_, by rw [hk.cluster], ?_, hk.hung⟩, hk.ie⟩ <;> rw [hhw]

/-- Taking an interrupt brings up none. -/
theorem interruptGet_cpuReady (M : Machine ι β) (me : ι) (c : Intctl ι β) {t : ι} {i : ℕ}
    (h : (c.interruptGet M me).2.cpuReady t i = true) : c.cpuReady t i = true := by
  unfold Intctl.interruptGet at h
  simp only [Intctl.cpuReady] at *
  repeat' split at h
  all_goals grind

theorem vmCheckInterrupts_works (M : Machine ι β) (me : ι) (k : Kernel ι β) :
    Works me k (k.vmCheckInterrupts M me).2 ∧ (k.vmCheckInterrupts M me).2.hw = k.hw ∧
      (k.vmCheckInterrupts M me).2.threads.vmwork = k.threads.vmwork := by
  have hget {t : ι} {i : ℕ} := interruptGet_cpuReady M me k.ints (t := t) (i := i)
  unfold vmCheckInterrupts
  split
  · simp only
    split
    · exact ⟨⟨rfl, rfl, rfl, rfl, id, rfl, fun _ _ => rfl, fun _ => id, fun _ _ => hget⟩, rfl, rfl⟩
    · split
      · exact ⟨⟨rfl, rfl, rfl, rfl, id, rfl, fun _ _ => rfl, fun _ => id, fun _ _ => hget⟩, rfl,
          rfl⟩
      · refine ⟨⟨rfl, rfl, rfl, rfl, id, rfl, fun _ _ => rfl, fun t => ?_, fun _ _ => hget⟩, rfl,
          rfl⟩
        by_cases ht : t = me <;> simp [ht]
  · exact ⟨⟨rfl, rfl, rfl, rfl, id, rfl, fun _ _ => rfl, fun _ => id, fun _ _ => id⟩, rfl, rfl⟩

/-- **Work**; if it does not come back, that is on record. -/
theorem vmWork_works (M : Machine ι β) (me : ι) (k : Kernel ι β) : Works me k (k.vmWork M me).2 ∧
      ((k.vmWork M me).1 = .hung → (k.vmWork M me).2.hw.hung = true) := by
  unfold vmWork
  split
  · set k₁ : Kernel ι β := { k with threads :=
      { k.threads with vmwork := update k.threads.vmwork me false } }
    obtain ⟨hw, hhw, -⟩ := vmCheckInterrupts_works M me k₁
    have hk : Works me k (k₁.vmCheckInterrupts M me).2 :=
      { hw with vmwork := fun t ht => (hw.vmwork t ht).trans (update_of_ne ht ..) }
    rcases hcheck : k₁.vmCheckInterrupts M me with ⟨r, k'⟩
    rw [hcheck] at hk hhw
    cases r with
    | some intno => exact ⟨by simpa only [hcheck] using hk, by simp [hcheck]⟩
    | none =>
      simp only [hcheck]
      exact ⟨{ hk with hw := by rw [hhw], hung := fun _ => rfl }, id⟩
  · exact ⟨⟨rfl, rfl, rfl, rfl, id, rfl, fun _ _ => rfl, fun _ => id, fun _ _ => id⟩, by simp⟩

/-- The end of a switch: the work, and the test for preemption if it comes back. -/
theorem work_elim {Q : Option (Exit × Kernel ι β) → Prop} (M : Machine ι β) (me : ι)
    (k : Kernel ι β) (hhung : ∀ k', Works me k k' → k'.hw.hung = true → Q (some (.hung, k')))
    (hback : ∀ k', Works me k k' → Q (some (.switched, k'.checkSanity))) :
    Q (match k.vmWork M me with
      | (.hung, k) => some (.hung, k)
      | (_, k) => some (.switched, k.checkSanity)) := by
  obtain ⟨hw, hstuck⟩ := vmWork_works M me k
  rcases hwork : k.vmWork M me with ⟨e, k'⟩
  rw [hwork] at hw hstuck
  cases e with
  | hung => exact hhung k' hw (hstuck rfl)
  | returned r => exact hback k' hw
  | switched => exact hback k' hw

theorem vmWork_after (hc : Coherent M k) {h : ℕ} : After M h k (k.vmWork M me).2 := by
  obtain ⟨hw, -⟩ := vmWork_works M me k
  have hhw := hw.hw
  exact .of_sched_eq hc hw.sched hw.stirs (by rw [hhw]; exact id)

end Work

omit dβ in
theorem vmCpuintEnable_stirs (me : ι) (intno : ℕ) (k : Kernel ι β) :
    Stirs k (k.vmCpuintEnable me intno) ∧ (k.vmCpuintEnable me intno).sched = k.sched ∧
      (k.vmCpuintEnable me intno).hw = k.hw := by
  unfold vmCpuintEnable
  split
  · exact ⟨.refl k, rfl, rfl⟩
  · exact ⟨.of_flags rfl rfl rfl fun _ => id, rfl, rfl⟩

/-! ## Delivery -/

section Deliver

variable {M : Machine ι β} {k : Kernel ι β} {t : ι}

/-- An interrupt can be delivered to the thread: it is not in an intpool with its interrupts
enabled, from where the delivery would cancel a popup. -/
def Deliverable (k : Kernel ι β) (t : ι) : Prop := PoolBlocked k.sched t → k.threads.ie t = false

/-- What a delivery can do: nothing but an IPI, or ready a waiting thread and test for
preemption. -/
inductive Delivery (M : Machine ι β) (t : ι) (k : Kernel ι β) : Kernel ι β → Prop
  | still {k' : Kernel ι β} (hsched : k'.sched = k.sched) (hstirs : Stirs k k')
      (hint : k'.hw.reschedInt = k.hw.reschedInt) : Delivery M t k k'
  | woken {k' : Kernel ι β} (hplaced : Placed M k'.sched) (hstirs : Stirs k k') :
      Delivery M t k k'.checkSanity

section

omit dι dβ

theorem vmIpiSendWithlock_eq (t : ι) (k : Kernel ι β) : ∃ m, k.vmIpiSendWithlock t =
    { k with hw := { k.hw with maskForIpi := k.hw.maskForIpi ||| m } } := by
  unfold vmIpiSendWithlock
  split
  · exact ⟨_, rfl⟩
  · exact ⟨0, by simp⟩

theorem vmIpiSendWithlock_stirs (t : ι) (k : Kernel ι β) : Stirs k (k.vmIpiSendWithlock t) ∧
    (k.vmIpiSendWithlock t).sched = k.sched ∧
    (k.vmIpiSendWithlock t).hw.reschedInt = k.hw.reschedInt := by
  obtain ⟨m, hm⟩ := vmIpiSendWithlock_eq t k
  rw [hm]
  exact ⟨⟨.refl _, rfl, rfl, ⟨rfl, rfl, rfl, rfl, id⟩, fun _ => id⟩, rfl, rfl⟩

end

/-- A wait cut short: what the thread is taken out of before it is made ready. -/
inductive Rouses (M : Machine ι β) (t : ι) (k : Kernel ι β) : Sched ι β → Vms β → Prop
  | vmwait (hst : k.sched.status t = .vmwait) (r : ℕ) :
      Rouses M t k (k.sched.setR00 t r) (clearWaiting M t k.vms)
  | popup (hst : k.sched.status t = .intblocked) : Rouses M t k (k.sched.popupCancel t) k.vms
  | futex (hst : k.sched.status t = .blocked) : Rouses M t k (k.sched.futexCancel t) k.vms

namespace Rouses

variable {s : Sched ι β} {v : Vms β}

theorem waits (hr : Rouses M t k s v) : k.sched.status t ≠ .running ∧ k.sched.status t ≠ .ready ∧
    k.sched.status t ≠ .dead := by
  cases hr with
  | vmwait hst | popup hst | futex hst => simp [hst]

/-- Links, handlers, the register and the waiting cpus: the rest is as it was. -/
theorem fields (hr : Rouses M t k s v) : (∃ R handlers oob r, s = { k.sched with
      rings := R, inthandlers := handlers, outOfBounds := oob, r00 := r }) ∧
    ∃ w, v = { k.vms with waitingCpus := w } := by
  cases hr with
  | vmwait =>
    refine ⟨⟨_, _, _, _, rfl⟩, ?_⟩
    unfold clearWaiting
    split <;> exact ⟨_, rfl⟩
  | popup =>
    obtain ⟨handlers, oob, hw⟩ := writeHandler_sched k.sched (k.sched.r00 t) .null
    rw [Sched.popupCancel, hw]
    exact ⟨⟨_, _, _, _, rfl⟩, _, rfl⟩
  | futex => exact ⟨⟨_, _, _, _, rfl⟩, _, rfl⟩

theorem inHand (hr : Rouses M t k s v) (hs : Placed M k.sched) (hpool : ¬PoolBlocked k.sched t) :
    InHand M s t ∧ AgreeOff t k.sched s := by
  cases hr with
  | vmwait hst r => exact ⟨(hs.vmwait hst).setR00 r, agreeOff_setR00 t r _⟩
  | popup hst =>
    have hr : k.sched.r00 t < maxInterrupts := by
      by_contra hge
      exact hpool ⟨hst, Nat.le_of_not_lt hge⟩
    exact ⟨hs.popupCancel hst hr, agreeOff_popupCancel hr⟩
  | futex hst => exact ⟨hs.futexCancel hst, agreeOff_futexCancel t _⟩

theorem wakes (hr : Rouses M t k s v) (ha : AgreeOff t k.sched s) :
    Wakes k.sched (s.readyAppend t) := by
  obtain ⟨⟨R, handlers, oob, r, rfl⟩, -⟩ := hr.fields
  exact .of_agreeOff ha hr.waits.1 hr.waits.2.2 rfl rfl

end Rouses

/-- **What a delivery can do**: nothing, an IPI, or a wait cut short. -/
theorem vmIntDeliverLocked_cases (M : Machine ι β) (t : ι) (intno : ℕ) (k : Kernel ι β) :
    (k.sched.status t ≠ .vmwait ∧ ((k.vmIntDeliverLocked M t intno).2 = k ∨
      (k.vmIntDeliverLocked M t intno).2 = k.vmIpiSendWithlock t)) ∨
    ∃ s v, Rouses M t k s v ∧ (k.sched.status t = .intblocked → k.threads.ie t = true) ∧
      (k.vmIntDeliverLocked M t intno).2 =
        ({ k with sched := s.readyAppend t, vms := v } : Kernel ι β).checkSanity := by
  unfold vmIntDeliverLocked
  split
  · next hst => exact .inr ⟨_, _, .vmwait hst intno, by simp [hst], rfl⟩
  · next hst =>
    refine .inl ⟨by simp [hst], ?_⟩
    split
    · exact .inr rfl
    · exact .inl rfl
  · next hst =>
    simp only
    split
    · next hie => exact .inr ⟨_, _, .popup hst, fun _ => hie, rfl⟩
    · exact .inl ⟨by simp [hst], .inl rfl⟩
  · next hst =>
    split
    · exact .inr ⟨_, _, .futex hst, by simp [hst], rfl⟩
    · exact .inl ⟨by simp [hst], .inl rfl⟩
  all_goals next hst => exact .inl ⟨by simp [hst], .inl rfl⟩

omit dι dβ in
/-- Interrupts are enabled where a popup is cancelled. -/
theorem Deliverable.not_poolBlocked (hd : Deliverable k t)
    (hie : k.sched.status t = .intblocked → k.threads.ie t = true) : ¬PoolBlocked k.sched t := by
  intro hp
  have hdis := hd hp
  simp [hie hp.1] at hdis

/-- **Delivery** keeps every thread in its place, unless it takes a thread in an intpool for one
with a popup. -/
theorem vmIntDeliverLocked_delivery (hs : Placed M k.sched) (hd : Deliverable k t) (intno : ℕ) :
    Delivery M t k (k.vmIntDeliverLocked M t intno).2 := by
  rcases vmIntDeliverLocked_cases M t intno k with ⟨-, heq | heq⟩ | ⟨s, v, hr, hie, heq⟩ <;>
    rw [heq]
  · exact .still rfl (.refl k) rfl
  · obtain ⟨hstirs, hsched, hint⟩ := vmIpiSendWithlock_stirs t k
    exact .still hsched hstirs hint
  · obtain ⟨hhand, ha⟩ := hr.inHand hs (hd.not_poolBlocked hie)
    exact .woken hhand.readyAppend ⟨hr.wakes ha, rfl, rfl, ⟨rfl, rfl, rfl, rfl, id⟩, fun _ => id⟩

section

omit dι dβ

theorem Delivery.placed {k' : Kernel ι β} (hd : Delivery M t k k') (hs : Placed M k.sched) :
    Placed M k'.sched := by
  cases hd with
  | still hsched => exact hsched ▸ hs
  | woken hplaced => exact hplaced

theorem Delivery.stirs {k' : Kernel ι β} (hd : Delivery M t k k') : Stirs k k' := by
  cases hd with
  | still _ hstirs => exact hstirs
  | woken _ hstirs => exact hstirs.trans (stirs_checkSanity _)

theorem Delivery.after {k' : Kernel ι β} {h : ℕ} (hd : Delivery M t k k') (hc : Coherent M k) :
    After M h k k' := by
  cases hd with
  | still hsched hstirs hint => exact .of_sched_eq hc hsched hstirs (by rw [hint]; exact id)
  | woken hplaced hstirs => exact .of_checkSanity hc hplaced hstirs

/-- Setting flags first makes no difference. -/
theorem Delivery.of_flags {k₁ k' : Kernel ι β} (hd : Delivery M t k₁ k')
    (hsched : k₁.sched = k.sched)
    (hhw : k₁.hw = k.hw) (hcl : k₁.cluster = k.cluster) (hie : k₁.threads.ie = k.threads.ie) :
    Delivery M t k k' := by
  have hk : Stirs k k₁ := .of_flags hsched hhw hcl fun _ => by rw [hie]; exact id
  cases hd with
  | still hs hstirs hint =>
    exact .still (hs.trans hsched) (hk.trans hstirs) (by rw [hint, hhw])
  | woken hplaced hstirs => exact .woken hplaced (hk.trans hstirs)

end

theorem vmCpuintPostLocked_delivery (hs : Placed M k.sched) (hd : Deliverable k t) (intno : ℕ) :
    Delivery M t k (k.vmCpuintPostLocked M t intno) := by
  unfold vmCpuintPostLocked
  simp only
  split
  · exact (vmIntDeliverLocked_delivery (k := k.cpuintSetPending t intno) hs hd intno).of_flags
      rfl rfl rfl rfl
  · exact .still rfl (.of_flags rfl rfl rfl fun _ => id) rfl

end Deliver

end H2
