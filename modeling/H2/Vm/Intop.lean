import H2.Vm.Vmop

/-!
# Vm/Intop — a guest operates on interrupts

`H2K_vmtrap_intop` finds the context that an operation is for, and calls the interrupt controllers
of its VM: one for the interrupts of each cpu, one for those the cpus share, one that refuses the
rest. Whatever they do, they do to that VM (`optab_confined`): all that may change of other
VMs is the links of threads that wait in the same queue.
-/

namespace H2

open Kernel Function

variable {ι β : Type} [dι : DecidableEq ι] [dβ : DecidableEq β]

/-- `intop_type`. -/
inductive IntopType where
  | nop
  | globen
  | globdis
  | locen
  | locdis
  | affinity
  | get
  | peek
  | status
  | post
  | clear
  deriving DecidableEq, Repr

/-- The operation of an index, if there is one. -/
def IntopType.ofIndex (op : ℕ) : Option IntopType :=
  [.nop, .globen, .globdis, .locen, .locdis, .affinity, .get, .peek, .status, .post, .clear][op]?

/-- The controller that takes an interrupt, with the number it has there. -/
inductive Controller where
  | cpuint (intno : ℕ)
  | shint (intno : ℕ)
  | badint

namespace Machine

/-- `CHECK_FOR_CHAIN`: the controllers of a VM, one after the other. -/
def controller (M : Machine ι β) (b : β) (intno : ℕ) : Controller :=
  if intno < percpuInterrupts then .cpuint intno
  else if intno - percpuInterrupts < M.numInts b then .shint (intno - percpuInterrupts)
  else .badint

/-- `H2K_vmint_fixup_post`. -/
def vmintFixupPost (M : Machine ι β) (me : ι) (r02 : BitVec 32) : Option ι :=
  let meVm := M.vmidx (M.vmblock me)
  if r02 ≠ 0 then
    let vm := (idFields r02.toNat).1
    match M.vmblocks vm with
    | none => none
    | some b =>
      if meVm ≠ 0 ∧ meVm ≠ (M.parent b).1 ∧ (M.parent (M.vmblock me)).1 ≠ vm ∧ meVm ≠ vm then none
      else M.idToContext (idFields r02.toNat)
  else M.idToContext (meVm, M.cpuidx me)

/-- `H2K_intops_fixups`: the context an operation is for, and its argument. -/
def intopsFixups (M : Machine ι β) (op : IntopType) (me : ι) (r01 r02 : BitVec 32) :
    Option (ι × ℕ) :=
  match op with
  | .affinity => (M.context (M.vmblock me) r02.toNat).map fun dst => (dst, r01.toNat)
  | .get | .peek => some (me, 0)
  | .post => (M.vmintFixupPost me r02).map fun dst => (dst, r01.toNat)
  | _ => some (me, r01.toNat)

end Machine

/-- `Q6_R_ct0_P`: the number of zeros below the lowest one. -/
def ct0P (w : BitVec 64) : ℕ := ((List.range 64).find? w.getLsbD).getD 64

namespace Kernel

/-! ## The shared interrupts of a VM -/

/-- The first loop of `H2K_vm_shint_deliver`, over cpus that wait. -/
def shintWaiting (M : Machine ι β) (b : β) (intno : ℕ) : List ℕ → Kernel ι β → Bool × Kernel ι β
  | [], k => (false, k)
  | i :: is, k =>
    match (if (k.vms.waitingCpus b).getLsbD i then M.context b i else none) with
    | none => shintWaiting M b intno is k
    | some dest =>
      let (took, k) := k.vmShintDeliverCpu M dest intno
      if took then (true, k) else shintWaiting M b intno is k

/-- The second loop, over all. -/
def shintAny (M : Machine ι β) (intno : ℕ) : List ι → Kernel ι β → Kernel ι β
  | [], k => k
  | dest :: rest, k =>
    let (took, k) := k.vmShintDeliverCpu M dest intno
    if took then k else shintAny M intno rest k

/-- `H2K_vm_shint_deliver`: to a cpu that waits, or to the next from `me` on. -/
def vmShintDeliver (M : Machine ι β) (me : ι) (intno : ℕ) (k : Kernel ι β) : Kernel ι β :=
  let b := M.vmblock me
  let waiting := (List.range (min 64 (M.maxCpus b))).drop (ct0P (k.vms.waitingCpus b))
  match k.shintWaiting M b intno waiting with
  | (true, k) => k
  | (false, k) => k.shintAny M intno ((M.contexts b).rotate (M.cpuidx me))

/-- Set or clear a bit of `vmblock->pending`. -/
def setPending (b : β) (intno : ℕ) (v : Bool) (k : Kernel ι β) : Kernel ι β :=
  { k with ints := { k.ints with
      pending := update k.ints.pending b (update (k.ints.pending b) intno v) } }

/-- Set or clear a bit of `vmblock->enable`. -/
def setEnable (b : β) (intno : ℕ) (v : Bool) (k : Kernel ι β) : Kernel ι β :=
  { k with ints := { k.ints with
      enable := update k.ints.enable b (update (k.ints.enable b) intno v) } }

/-- Set or clear a bit of `vmblock->percpu_mask[cpu]`. -/
def setPercpuMask (t : ι) (intno : ℕ) (v : Bool) (k : Kernel ι β) : Kernel ι β :=
  { k with ints := { k.ints with
      percpuMask := update k.ints.percpuMask t
        (update (k.ints.percpuMask t) intno v) } }

/-- `H2K_vm_shint_post`. -/
def vmShintPost (M : Machine ι β) (me : ι) (intno : ℕ) (k : Kernel ι β) : Kernel ι β :=
  let b := M.vmblock me
  if k.ints.pending b intno then k
  else if k.ints.enable b intno then (k.setPending b intno true).vmShintDeliver M me intno
  else k.setPending b intno true

/-- `H2K_vm_shint_enable`. -/
def vmShintEnable (M : Machine ι β) (me : ι) (intno : ℕ) (k : Kernel ι β) : Kernel ι β :=
  let b := M.vmblock me
  if k.ints.enable b intno then k
  else if k.ints.pending b intno then (k.setEnable b intno true).vmShintDeliver M me intno
  else k.setEnable b intno true

/-- `H2K_vm_shint_localen`. -/
def vmShintLocalen (M : Machine ι β) (me : ι) (intno : ℕ) (k : Kernel ι β) : Kernel ι β :=
  let b := M.vmblock me
  if k.ints.percpuMask me intno then k
  else if k.ints.enable b intno && k.ints.pending b intno then
    ((k.setPercpuMask me intno true).vmShintDeliverCpu M me intno).2
  else k.setPercpuMask me intno true

/-- `H2K_vm_shint_localdis`. -/
def vmShintLocaldis (me : ι) (intno : ℕ) (k : Kernel ι β) : Kernel ι β :=
  k.setPercpuMask me intno false

/-- `H2K_vm_shint_setaffinity`. -/
def vmShintSetaffinity (M : Machine ι β) (me : ι) (intno : ℕ) (k : Kernel ι β) : Kernel ι β :=
  ((M.contexts (M.vmblock me)).foldl (fun k t => k.vmShintLocaldis t intno) k).vmShintLocalen M me
    intno

/-- `H2K_vm_shint_status`. -/
def vmShintStatus (M : Machine ι β) (me : ι) (intno : ℕ) (k : Kernel ι β) : ℤ :=
  (k.ints.pending (M.vmblock me) intno).toNat + 2 * (k.ints.percpuMask me intno).toNat +
    4 * (k.ints.enable (M.vmblock me) intno).toNat

/-- `H2K_vm_shint_ops`. -/
def shintOps (M : Machine ι β) (op : IntopType) (me : ι) (intno : ℕ) (k : Kernel ι β) :
    ℤ × Kernel ι β :=
  match op with
  | .globen => (0, k.vmShintEnable M me intno)
  | .globdis => (0, k.setEnable (M.vmblock me) intno false)
  | .locen => (0, k.vmShintLocalen M me intno)
  | .locdis => (0, k.vmShintLocaldis me intno)
  | .affinity => (0, k.vmShintSetaffinity M me intno)
  | .status => (k.vmShintStatus M me intno, k)
  | .post => (0, k.vmShintPost M me intno)
  | .clear => (0, k.setPending (M.vmblock me) intno false)
  | .nop | .get | .peek => (0, k)

/-! ## All interrupts -/

/-- `H2K_vm_cpuint_status`. -/
def vmCpuintStatus (me : ι) (intno : ℕ) (k : Kernel ι β) : ℤ :=
  (k.ints.cpuintPending me intno).toNat + 4 * (k.ints.cpuintEnabled me intno).toNat

/-- `H2K_vm_cpuint_ops`, for an interrupt of the cpu. -/
def cpuintOps (M : Machine ι β) (op : IntopType) (me : ι) (intno : ℕ) (k : Kernel ι β) :
    ℤ × Kernel ι β :=
  match op with
  | .globen => (0, k.vmCpuintEnable me intno)
  | .globdis => (0, k.vmCpuintDisable me intno)
  | .status => (k.vmCpuintStatus me intno, k)
  | .post => (0, k.vmCpuintPostLocked M me intno)
  | .clear => (0, k.vmCpuintClear me intno)
  | .locen | .locdis | .affinity => (-1, k)
  | .nop | .get | .peek => (0, k)

/-- `optab[op]`: three operations do not look at the number of the interrupt. -/
def optab (M : Machine ι β) (op : IntopType) (dst : ι) (arg : ℕ) (k : Kernel ι β) :
    ℤ × Kernel ι β :=
  match op with
  | .nop => (0, k)
  | .get => ((k.ints.interruptGet M dst).1, { k with ints := (k.ints.interruptGet M dst).2 })
  | .peek => (k.ints.interruptPeek M dst, k)
  | op =>
    match M.controller (M.vmblock dst) arg with
    | .cpuint intno => k.cpuintOps M op dst intno
    | .shint intno => k.shintOps M op dst intno
    | .badint => (-1, k)

/-- `H2K_vmtrap_intop`. -/
def vmtrapIntop (M : Machine ι β) (r00 r01 r02 : BitVec 32) (me : ι) (k : Kernel ι β) :
    ℤ × Kernel ι β :=
  match IntopType.ofIndex r00.toNat with
  | none => (-1, k)
  | some op =>
    match M.intopsFixups op me r01 r02 with
    | none => (-1, k)
    | some (dst, arg) => k.optab M op dst arg

end Kernel

/-! ## Confinement -/

/-- The fields of a context, but for the links of the queue it is in. -/
@[ext] structure ContextView where
  status : Status
  prio : ℕ
  hthread : ℕ
  futexPtr : ℕ
  r00 : ℕ
  basePrio : ℕ
  vmwork : Bool
  kill : Bool
  ie : Bool
  gevb : ℕ
  cpuintPending : ℕ → Bool
  cpuintEnabled : ℕ → Bool
  percpuMask : ℕ → Bool
  coproc : Bool × Bool × Bool

/-- The fields of a VM block that change while it runs. -/
@[ext] structure VmblockView (ι : Type) where
  numCpus : ℕ
  status : ℤ
  waitingCpus : BitVec 64
  freeThreads : Option ι
  intpool : Option ι
  pending : ℕ → Bool
  enable : ℕ → Bool
  intpoolPending : ℕ → Bool
  intpoolAnypending : Bool

namespace Kernel

def contextView (k : Kernel ι β) (t : ι) : ContextView where
  status := k.sched.status t
  prio := k.sched.prio t
  hthread := k.sched.hthread t
  futexPtr := k.sched.futexPtr t
  r00 := k.sched.r00 t
  basePrio := k.threads.basePrio t
  vmwork := k.threads.vmwork t
  kill := k.threads.kill t
  ie := k.threads.ie t
  gevb := k.threads.gevb t
  cpuintPending := k.ints.cpuintPending t
  cpuintEnabled := k.ints.cpuintEnabled t
  percpuMask := k.ints.percpuMask t
  coproc := k.cluster.ctx t

def vmblockView (k : Kernel ι β) (b : β) : VmblockView ι where
  numCpus := k.vms.numCpus b
  status := k.vms.status b
  waitingCpus := k.vms.waitingCpus b
  freeThreads := k.sched.freeThreads b
  intpool := k.sched.rings.head (.intpool b)
  pending := k.ints.pending b
  enable := k.ints.enable b
  intpoolPending := k.ints.intpoolPending b
  intpoolAnypending := k.ints.intpoolAnypending b

end Kernel

/-- Nothing has changed but in one VM, and the links of queues. -/
structure Confined (M : Machine ι β) (b : β) (k k' : Kernel ι β) : Prop where
  context : ∀ t, M.vmblock t ≠ b → k'.contextView t = k.contextView t
  vmblock : ∀ c, c ≠ b → k'.vmblockView c = k.vmblockView c

namespace Confined

variable {M : Machine ι β} {b : β} {k k₁ k₂ k' : Kernel ι β}

section

omit dι dβ

theorem refl (M : Machine ι β) (b : β) (k : Kernel ι β) : Confined M b k k :=
  ⟨fun _ _ => rfl, fun _ _ => rfl⟩

theorem trans (h₁ : Confined M b k k₁) (h₂ : Confined M b k₁ k₂) : Confined M b k k₂ :=
  ⟨fun t ht => (h₂.context t ht).trans (h₁.context t ht),
    fun c hc => (h₂.vmblock c hc).trans (h₁.vmblock c hc)⟩

/-- All that has changed is a context, the blocks, links and the queues they are in. -/
theorem of_context (t : ι) (hctx : ∀ u, u ≠ t → k'.contextView u = k.contextView u)
    (hvm : ∀ c, c ≠ M.vmblock t → k'.vmblockView c = k.vmblockView c) :
    Confined M (M.vmblock t) k k' := by
  refine ⟨fun u hu => hctx u ?_, hvm⟩
  rintro rfl
  exact hu rfl

/-- A loop that goes through contexts of the VM. -/
theorem foldl {f : Kernel ι β → ι → Kernel ι β} {ts : List ι}
    (hf : ∀ k, ∀ t ∈ ts, Confined M b k (f k t)) (k : Kernel ι β) :
      Confined M b k (ts.foldl f k) := by
  induction ts generalizing k with
  | nil => exact refl M b k
  | cons t ts ih =>
    exact (hf k t List.mem_cons_self).trans
      (ih (fun k u hu => hf k u (List.mem_cons_of_mem t hu)) _)

end

end Confined

section Steps

variable (M : Machine ι β) (t : ι) (intno : ℕ) (k : Kernel ι β)

omit dι dβ in
theorem vmIpiSendWithlock_confined : Confined M (M.vmblock t) k (k.vmIpiSendWithlock t) := by
  obtain ⟨m, hm⟩ := vmIpiSendWithlock_eq t k
  rw [hm]
  exact ⟨fun _ _ => rfl, fun _ _ => rfl⟩

omit dι in
theorem clearWaiting_of_ne {c : β} (hc : c ≠ M.vmblock t) (v : Vms β) :
    (clearWaiting M t v).numCpus c = v.numCpus c ∧
      (clearWaiting M t v).status c = v.status c ∧
      (clearWaiting M t v).waitingCpus c = v.waitingCpus c := by
  unfold clearWaiting
  split <;> simp [hc]

theorem Rouses.confined {M : Machine ι β} {t : ι} {k : Kernel ι β} {s : Sched ι β} {v : Vms β}
    (hr : Rouses M t k s v) :
    Confined M (M.vmblock t) k { k with sched := s.readyAppend t, vms := v } := by
  refine .of_context t (fun u hu => ?_) fun c hc => ?_ <;> cases hr with
  | vmwait =>
    ext <;> simp [contextView, vmblockView, Rings.head_append_of_ne, *, clearWaiting_of_ne]
  | popup =>
    obtain ⟨handlers, oob, hw⟩ := writeHandler_sched k.sched (k.sched.r00 t) .null
    ext <;> simp [contextView, vmblockView, Sched.popupCancel, Rings.head_append_of_ne, *]
  | futex =>
    ext <;> simp [contextView, vmblockView, Sched.futexCancel,
      Rings.head_append_of_ne, Rings.head_remove_of_ne, *]

theorem vmIntDeliverLocked_confined :
    Confined M (M.vmblock t) k (k.vmIntDeliverLocked M t intno).2 := by
  rcases vmIntDeliverLocked_cases M t intno k with ⟨-, heq | heq⟩ | ⟨s, v, hr, -, heq⟩ <;> rw [heq]
  · exact .refl M _ k
  · exact vmIpiSendWithlock_confined M t k
  · exact hr.confined.trans ⟨fun _ _ => rfl, fun _ _ => rfl⟩

omit dι in
theorem setPending_confined (b : β) (v : Bool) : Confined M b k (k.setPending b intno v) :=
  ⟨fun _ _ => rfl, fun c hc => by ext <;> simp [vmblockView, setPending, hc]⟩

omit dι in
theorem setEnable_confined (b : β) (v : Bool) : Confined M b k (k.setEnable b intno v) :=
  ⟨fun _ _ => rfl, fun c hc => by ext <;> simp [vmblockView, setEnable, hc]⟩

omit dβ in
theorem setPercpuMask_confined (v : Bool) :
    Confined M (M.vmblock t) k (k.setPercpuMask t intno v) :=
  .of_context t (fun u hu => by ext <;> simp [contextView, setPercpuMask, hu])
    fun _ _ => rfl

theorem vmShintDeliverCpu_confined :
    Confined M (M.vmblock t) k (k.vmShintDeliverCpu M t intno).2 := by
  unfold vmShintDeliverCpu
  split
  · let k₁ : Kernel ι β := { k with threads :=
      { k.threads with vmwork := update k.threads.vmwork t true } }
    have hk₁ : Confined M (M.vmblock t) k k₁ :=
      .of_context t (fun u hu => by ext <;> simp [k₁, contextView, hu]) fun _ _ => rfl
    exact hk₁.trans (vmIntDeliverLocked_confined M t intno k₁)
  · exact .refl M _ k

theorem shintWaiting_confined (b : β) (is : List ℕ) :
    Confined M b k (k.shintWaiting M b intno is).2 := by
  induction is generalizing k with
  | nil => exact .refl M b k
  | cons i is ih =>
    unfold shintWaiting
    split
    · exact ih k
    · next dest hdest =>
      have hb : M.vmblock dest = b := by
        split at hdest
        · exact (M.context_eq_some.mp hdest).1
        · simp at hdest
      have hcpu := vmShintDeliverCpu_confined M dest intno k
      rw [hb] at hcpu
      simp only
      split
      · exact hcpu
      · exact hcpu.trans (ih _)

theorem shintAny_confined {b : β} {ts : List ι} (hts : ∀ t ∈ ts, M.vmblock t = b) :
    Confined M b k (k.shintAny M intno ts) := by
  induction ts generalizing k with
  | nil => exact .refl M b k
  | cons t ts ih =>
    have hcpu := vmShintDeliverCpu_confined M t intno k
    rw [hts t List.mem_cons_self] at hcpu
    unfold shintAny
    simp only
    split
    · exact hcpu
    · exact hcpu.trans (ih _ fun u hu => hts u (List.mem_cons_of_mem t hu))

theorem vmShintDeliver_confined : Confined M (M.vmblock t) k (k.vmShintDeliver M t intno) := by
  unfold vmShintDeliver
  simp only
  have hwaiting := shintWaiting_confined M intno k (M.vmblock t)
    ((List.range (min 64 (M.maxCpus (M.vmblock t)))).drop (ct0P (k.vms.waitingCpus (M.vmblock t))))
  split
  · next heq =>
    rw [heq] at hwaiting
    exact hwaiting
  · next heq =>
    rw [heq] at hwaiting
    refine hwaiting.trans (shintAny_confined M intno _ fun u hu => ?_)
    exact M.mem_contexts.mp (List.mem_rotate.mp hu)

theorem vmShintLocalen_confined : Confined M (M.vmblock t) k (k.vmShintLocalen M t intno) := by
  unfold vmShintLocalen
  simp only
  split
  · exact .refl M _ k
  split
  · exact (setPercpuMask_confined M t intno k true).trans (vmShintDeliverCpu_confined M t intno _)
  · exact setPercpuMask_confined M t intno k true

theorem shintOps_confined (op : IntopType) :
    Confined M (M.vmblock t) k (k.shintOps M op t intno).2 := by
  cases op with
  | globen =>
    simp only [shintOps, vmShintEnable]
    split
    · exact .refl M _ k
    split
    · exact (setEnable_confined M intno k _ true).trans (vmShintDeliver_confined M t intno _)
    · exact setEnable_confined M intno k _ true
  | globdis => exact setEnable_confined M intno k _ false
  | locen => exact vmShintLocalen_confined M t intno k
  | locdis => exact setPercpuMask_confined M t intno k false
  | affinity =>
    refine Confined.trans (.foldl (fun k u hu => ?_) k) (vmShintLocalen_confined M t intno _)
    have hconf := setPercpuMask_confined M u intno k false
    rw [M.mem_contexts.mp hu] at hconf
    exact hconf
  | post =>
    simp only [shintOps, vmShintPost]
    split
    · exact .refl M _ k
    split
    · exact (setPending_confined M intno k _ true).trans (vmShintDeliver_confined M t intno _)
    · exact setPending_confined M intno k _ true
  | clear => exact setPending_confined M intno k _ false
  | nop | get | peek | status => exact .refl M _ k

theorem cpuintOps_confined (op : IntopType) :
    Confined M (M.vmblock t) k (k.cpuintOps M op t intno).2 := by
  cases op with
  | globen =>
    simp only [cpuintOps, vmCpuintEnable]
    split
    · exact .refl M _ k
    · exact .of_context t (fun u hu => by ext <;> simp [contextView, hu]) fun _ _ => rfl
  | globdis =>
    exact .of_context t (fun u hu => by
      ext <;> simp [cpuintOps, contextView, vmCpuintDisable, hu]) fun _ _ =>
        rfl
  | post =>
    have hpend : Confined M (M.vmblock t) k (k.cpuintSetPending t intno) :=
      .of_context t (fun u hu => by
        ext <;> simp [contextView, cpuintSetPending, hu]) fun _ _ => rfl
    simp only [cpuintOps, vmCpuintPostLocked]
    split
    · exact hpend.trans (vmIntDeliverLocked_confined M t intno _)
    · exact hpend
  | clear =>
    exact .of_context t (fun u hu => by
      ext <;> simp [cpuintOps, contextView, vmCpuintClear, hu]) fun _ _ => rfl
  | status | locen | locdis | affinity | nop | get | peek => exact .refl M _ k

theorem interruptGet_confined :
    Confined M (M.vmblock t) k { k with ints := (k.ints.interruptGet M t).2 } := by
  unfold Intctl.interruptGet
  split
  · exact .of_context t (fun u hu => by ext <;> simp [contextView, hu]) fun _ _ => rfl
  · split
    · exact ⟨fun _ _ => rfl, fun c hc => by ext <;> simp [vmblockView, hc]⟩
    · exact .refl M _ k

/-- **An operation on interrupts** changes the VM of the context that it is for. -/
theorem optab_confined (op : IntopType) (arg : ℕ) :
    Confined M (M.vmblock t) k (k.optab M op t arg).2 := by
  unfold optab
  split
  · exact .refl M _ k
  · exact interruptGet_confined M t k
  · exact .refl M _ k
  · split
    · exact cpuintOps_confined M t _ k _
    · exact shintOps_confined M t _ k _
    · exact .refl M _ k

end Steps

end H2
