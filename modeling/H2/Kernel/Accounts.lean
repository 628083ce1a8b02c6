import H2.Kernel.Drain
import H2.Mem.Asid
import H2.Traps.Config
import Mathlib.Algebra.GroupWithZero.Nat

/-!
# Kernel/Accounts — the contexts of a VM, dead and alive

A context of a VM is dead and on its free list, or it is counted.  That is so in every VM block that
is allocated, as long as no thread is made in one that is not.  But the table of VMs keeps a block
that its last thread has returned, and whoever may boot that VM can make one: the allocator then
hands out the block with a live thread in it.
-/

namespace H2

open H2.System (boot step)

variable {ι β : Type} [dι : DecidableEq ι] [dβ : DecidableEq β] [fι : Fintype ι]

/-- The accounts of a VM: each dead context is on the free list, once, and nothing else is; the
others are counted; together there are `max_cpus`. -/
def Accounts (M : Machine ι β) (k : Kernel ι β) (b : β) : Prop :=
  ∃ F, IsStack k.sched.rings.links (k.sched.freeThreads b) F ∧ F.Nodup ∧
    (∀ t, t ∈ F ↔ M.vmblock t = b ∧ k.sched.status t = .dead) ∧
    k.vms.numCpus b = (k.live M b).card ∧ F.length + k.vms.numCpus b = M.maxCpus b

section Sound

variable {M : Machine ι β} {k : Kernel ι β} {b : β}

/-- The dead and the living make up a VM. -/
theorem length_add_card_live {F : List ι} (hnd : F.Nodup)
    (hmem : ∀ t, t ∈ F ↔ M.vmblock t = b ∧ k.sched.status t = .dead) :
    F.length + (k.live M b).card = M.maxCpus b := by
  have hF : F.toFinset = Finset.univ.filter fun t => M.vmblock t = b ∧
      k.sched.status t = .dead := by
    ext t
    simp [hmem]
  rw [← List.toFinset_card_of_nodup hnd, hF, ← M.card_vmblock b, Kernel.live,
    ← Finset.filter_filter, ← Finset.filter_filter]
  exact Finset.card_filter_add_card_filter_not _

theorem Census.accounts (hcensus : Census M k) (hc : Coherent M k)
    (hb : M.maxCpus b < 0x100000000) : Accounts M k b := by
  obtain ⟨F, hF, hnd, hmem⟩ := hc.placed.holds.free b
  have hmem' (t : ι) : t ∈ F ↔ M.vmblock t = b ∧ k.sched.status t = .dead := by
    rw [hmem, place_eq_free, and_comm]
  have hnum := hcensus.numCpus_eq hb
  exact ⟨F, hF, hnd, hmem', hnum, hnum ▸ length_add_card_live hnd hmem'⟩

end Sound

/-- **Thread accounting.**  In every state that minded steps lead to, the accounts of each VM are in
order; and a creation that fails changes neither the structures nor the table of address spaces. -/
theorem accounts_of_leads (M : Machine ι β) (timerIntnum : ℕ) (mask : BitVec 32)
    (cluster : Cluster ι) (bootvm : β) (hmask : mask.getLsbD 0 = true)
    (hmax : M.maxCpus bootvm ≤ h2kIdMaxCpus) {e : Exit} {w₀ w : System ι β}
    (hboot : boot M timerIntnum mask cluster bootvm = some (e, w₀))
    (hw : Leads step (fun a w => w.Minds a) w₀ w) :
    (∀ b, w.allocated b = true → Accounts w.machine w.kernel b) ∧
      ∀ (M : Machine ι β) (k k' : Kernel ι β) (a a' : Asids ι) (pc sp arg1 prio : ℕ)
        (b : β) (me : ι), k.threadCreate M pc sp arg1 prio b me a = some (.returned (-1), k', a') →
        Unchanged k k' ∧ a'.table = a.table := by
  refine ⟨fun b hb => ?_,
    fun M k k' a a' pc sp arg1 prio b me hcreate => threadCreate_fails hcreate⟩
  have hsound : w.Sound := hw.invariant (System.sound_boot hmask hmax hboot)
    fun hw hminds hstep => hw.step hminds hstep
  have hlt := hsound.maxCpus_le b hb
  rw [h2kIdMaxCpus] at hlt
  exact hsound.census.accounts hsound.coherent (by omega)

/-! ## Two VMs -/

open scoped Numerals

/-- Two cpus in one block and one in another. -/
def twoBlocks : Machine (Fin 3) Bool where
  vmblock t := t == 2
  cpuidx t := if t = 2 then 0 else t
  maxCpus b := if b then 1 else 2
  context b i := if b then if i = 0 then some 2 else none
    else if i = 0 then some 0 else if i = 1 then some 1 else none
  vmblocks _ := none
  vmidx _ := 0
  parent _ := (0, 0)
  bestprio _ := 0
  numInts _ := 0
  context_eq_some {b i t} := by
    have ht : t = 0 ∨ t = 1 ∨ t = 2 := by omega
    cases b <;> rcases ht with rfl | rfl | rfl <;> simp <;> grind
  context_isSome {b i} := by
    cases b
    · simp
      grind
    · simp

/-- A test for the kernel's own steps and those that make and end threads and VMs. -/
def lifecycleTest (a : ℕ × SysOp ι β) (w : System ι β) : Bool :=
  match a.2 with
  | .kernel (.trap (.vmopBoot ..)) | .kernel (.trap (.stop _)) => true
  | .kernel op => createTest a.1 op w.kernel
  | .setCpusInts .. | .vmopFree _ => true

/-- The test that such a step is minded. -/
def mindsTest (a : ℕ × SysOp ι β) (w : System ι β) : Bool :=
  lifecycleTest a w &&
    match a.2 with
    | .kernel op => (op.creates w.machine a.1 w.kernel).all w.allocated
    | .setCpusInts .. => true
    | .vmopFree vm => (w.machine.vmblocks vm).all w.allocated

section

omit dι dβ fι

theorem safe_of_lifecycleTest (a : ℕ × SysOp ι β) (w : System ι β)
    (htest : lifecycleTest a w = true)
    {op : Op ι β} (hop : a.2 = .kernel op) : Safe w.machine a.1 op w.kernel := by
  obtain ⟨h, a⟩ := a
  subst hop
  unfold lifecycleTest at htest
  split at htest
  · next heq => exact SysOp.kernel.inj heq ▸ fun _ _ => trivial
  · next heq => exact SysOp.kernel.inj heq ▸ fun _ _ => trivial
  · next heq => exact safe_of_createTest w.machine h op w.kernel (SysOp.kernel.inj heq ▸ htest)
  all_goals simp_all

theorem minds_of_mindsTest (a : ℕ × SysOp ι β) (w : System ι β) (htest : mindsTest a w = true) :
    w.Minds a := by
  obtain ⟨h, op⟩ := a
  simp only [mindsTest, Bool.and_eq_true] at htest
  cases op with
  | kernel op =>
    exact ⟨safe_of_lifecycleTest _ w htest.1 rfl, fun b hb => by simpa [hb] using htest.2⟩
  | setCpusInts b numInts => trivial
  | vmopFree vm => exact fun b hb => by simpa [hb] using htest.2

end

/-- A second VM is set up and booted, and its thread runs. -/
def secondVm : List (ℕ × SysOp (Fin 3) Bool) :=
  [(1, .kernel .start), (0, .setCpusInts true 0), (0, .kernel (.trap (.vmopBoot 0 0 0 0 2 true))),
    (1, .kernel (.takeInt 1)), (1, .kernel (.handleInt []))]

theorem accounts_secondVm : ∃ e w₀ w, boot twoBlocks 3 3#32 .off false = some (e, w₀) ∧
    Leads step (fun a w => w.Minds a) w₀ w ∧ w.kernel.hw.sgp 1 = some 2 ∧
    Accounts w.machine w.kernel true := by
  have hrun : ∃ p ∈ boot twoBlocks 3 3#32 .off false,
      ∃ w ∈ runIf step mindsTest secondVm p.2, w.kernel.hw.sgp 1 = some 2 ∧
        w.allocated true = true := by decide +kernel
  obtain ⟨⟨e, w₀⟩, hboot, w, hw, hsgp, halloc⟩ := hrun
  have hleads := Leads.of_runIf minds_of_mindsTest .init hw
  exact ⟨e, w₀, w, hboot, hleads, hsgp, (accounts_of_leads twoBlocks 3 3#32 .off false (by decide)
    (by decide) hboot hleads).1 true halloc⟩

/-- The second VM is orphaned and ends; a thread of the VM that made it boots it again, and then has
a VM set up in the same block; the thread that was in it stops. -/
def bootAgain : List (ℕ × SysOp (Fin 3) Bool) :=
  [(1, .kernel .start), (0, .setCpusInts true 0), (0, .kernel (.trap (.create 0 0 0 0 true))),
    (1, .kernel (.takeInt 1)), (1, .kernel (.handleInt [])),
    (0, .kernel (.trap (.vmopBoot 0 0 0 0 2 true))), (0, .kernel (.trap (.stop 0))),
    (0, .kernel (.trap (.stop 0))), (1, .kernel (.trap (.vmopBoot 0 0 0 0 2 true))),
    (0, .kernel (.takeInt 1)), (0, .kernel (.handleInt [])), (1, .setCpusInts true 0),
    (0, .kernel (.trap (.stop 0)))]

/-- What is left is a VM with no live thread that counts 2³² - 1 of them. -/
theorem accounts_fail_boot_freed : ∃ e w₀ w, boot twoBlocks 3 3#32 .off false = some (e, w₀) ∧
    Leads step (fun a w => ∀ op, a.2 = .kernel op → Safe w.machine a.1 op w.kernel) w₀ w ∧
    w.allocated true = true ∧ w.kernel.live w.machine true = ∅ ∧
    w.kernel.vms.numCpus true = 0xffffffff ∧ ¬Accounts w.machine w.kernel true := by
  have hrun : ∃ p ∈ boot twoBlocks 3 3#32 .off false,
      ∃ w ∈ runIf step lifecycleTest bootAgain p.2, w.allocated true = true ∧
        w.kernel.live w.machine true = ∅ ∧ w.kernel.vms.numCpus true = 0xffffffff := by
    decide +kernel
  obtain ⟨⟨e, w₀⟩, hboot, w, hw, halloc, hlive, hnum⟩ := hrun
  refine ⟨e, w₀, w, hboot, .of_runIf (fun a w ht op => safe_of_lifecycleTest a w ht) .init hw,
    halloc, hlive, hnum, ?_⟩
  rintro ⟨-, -, -, -, hcount, -⟩
  rw [hnum, hlive] at hcount
  simp at hcount

end H2
