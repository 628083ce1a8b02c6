import H2.Kernel.Accounts

/-!
# Kernel/VmTable — the table of VMs

A block is given back in two places.  `vmop_free` empties the slot of the block.  The last thread of
a VM whose parent is dead gives the block back as well, and the slot goes on pointing at it
(`vmTable_dangles`): it can be booted, and freed once more, by a thread of the VM that made it.

As long as no VM ends that way, every slot that is not empty holds a block that is allocated, and
none is given back twice.
-/

namespace H2

open Option

variable {ι β : Type} [dι : DecidableEq ι] [DecidableEq β] [fι : Fintype ι]

section Create

variable {M : Machine ι β} {k k' : Kernel ι β} {h : ℕ} {e : Exit}

omit fι in
theorem threadCreateNoSquash_freed {pc sp arg1 prio : ℕ} {asid : Bool} {b : β} {me : ι}
    (hcreate : k.threadCreateNoSquash M pc sp arg1 prio asid b me = some (e, k')) :
    k'.vms.freed = k.vms.freed := by
  unfold Kernel.threadCreateNoSquash at hcreate
  split at hcreate
  · rw [← (Prod.mk.inj (some.inj hcreate)).2]
  split at hcreate
  · rw [← (Prod.mk.inj (some.inj hcreate)).2]
  simp only at hcreate
  split at hcreate <;> rw [← (Prod.mk.inj (some.inj hcreate)).2] <;> rfl

theorem freed_of_creates {op : Op ι β} {b : β} (hop : op.creates M h k = some b)
    (hexec : k.exec M h op = some (e, k')) : k'.vms.freed = k.vms.freed := by
  rw [Kernel.exec, if_pos (enabled_of_exec hexec)] at hexec
  unfold Op.creates at hop
  split at hop
  · obtain ⟨me, -, htrap⟩ := bind_eq_some_iff.mp hexec
    exact threadCreateNoSquash_freed htrap
  · obtain ⟨me, -, htrap⟩ := bind_eq_some_iff.mp hexec
    rw [Kernel.trap, Kernel.vmopBoot] at htrap
    split at htrap
    · rw [← (Prod.mk.inj (some.inj htrap)).2]
    split at htrap
    · rw [← (Prod.mk.inj (some.inj htrap)).2]
    split at htrap
    · rw [← (Prod.mk.inj (some.inj htrap)).2]
    · exact threadCreateNoSquash_freed htrap
  · simp at hop

end Create

namespace System

/-- Every slot that is not empty holds a block that is allocated, and that knows its slot. -/
def TableLive (w : System ι β) : Prop :=
  ∀ i b, w.machine.vmblocks i = some b → w.allocated b = true ∧ w.machine.vmidx b = i

/-- The step gives a block back to the allocator. -/
def Releases (a : ℕ × SysOp ι β) (b : β) (w w' : System ι β) : Prop :=
  match a.2 with
  | .kernel _ => w'.kernel.vms.freed b = true ∧ Deserts w.machine b w.kernel w'.kernel
  | .setCpusInts .. => False
  | .vmopFree vm => w.machine.vmblocks vm = some b ∧ w'.machine.vmblocks vm = none

/-- A safe step in which no VM without a parent loses its last thread. -/
def Tends (a : ℕ × SysOp ι β) (w : System ι β) : Prop :=
  ∀ op, a.2 = .kernel op → Safe w.machine a.1 op w.kernel ∧
    ∀ e k', w.kernel.exec w.machine a.1 op = some (e, k') → ∀ b, ¬Deserts w.machine b w.kernel k'

section Steps

variable {w w' : System ι β} {h : ℕ} {me : ι}

omit dι in
theorem Sound.allocated (hw : w.Sound) (hme : w.kernel.hw.sgp h = some me) :
    w.allocated (w.machine.vmblock me) = true := by
  by_contra hne
  have hdead := hw.dead me (by simpa using hne)
  simp [(hw.coherent.running hme).1] at hdead

/-- With a table that is live, a step that tends minds. -/
theorem Tends.minds (hw : w.Sound) (hlive : w.TableLive) {a : ℕ × SysOp ι β} (ha : w.Tends a) :
    w.Minds a := by
  obtain ⟨h, op⟩ := a
  cases op with
  | kernel op =>
    refine ⟨(ha op rfl).1, fun b hb => ?_⟩
    unfold Op.creates at hb
    split at hb
    · obtain ⟨me, hme, rfl⟩ := map_eq_some_iff.mp hb
      exact hw.allocated hme
    · exact (hlive _ b (filter_eq_some_iff.mp hb).1).1
    · simp at hb
  | setCpusInts b numInts => trivial
  | vmopFree vm => exact fun b hb => (hlive vm b hb).1

/-- **No block is freed by the kernel.** -/
theorem Sound.fresh_exec (hw : w.Sound) {op : Op ι β} (ha : w.Tends (h, .kernel op)) {e : Exit}
    {k' : Kernel ι β} (hexec : w.kernel.exec w.machine h op = some (e, k')) {b : β}
    (hb : w.allocated b = true) : k'.vms.freed b = false := by
  obtain ⟨hsafe, hstay⟩ := ha op rfl
  have hlt := hw.maxCpus_le b hb
  rw [h2kIdMaxCpus] at hlt
  by_contra hfreed
  rw [Bool.not_eq_false] at hfreed
  rcases (exec_moves hw.coherent hsafe hexec).freed hw.census (by omega) hfreed with
    hold | ⟨hcreates, -⟩ | hd
  · simp [hw.fresh b hb] at hold
  · simp [freed_of_creates hcreates hexec, hw.fresh b hb] at hfreed
  · exact hstay e k' hexec b hd

omit dι fι in
theorem TableLive.vmopFree (hlive : w.TableLive) {vm : ℕ} {e : Exit}
    (hfree : w.vmopFree vm me = some (e, w')) : w'.TableLive := by
  obtain rfl | ⟨b, hb, -, -, rfl⟩ := vmopFree_cases hfree
  · exact hlive
  intro i b' hi
  have hne : i ≠ vm := by
    rintro rfl
    simp [Machine.vacate] at hi
  have hold : w.machine.vmblocks i = some b' := by simpa [Machine.vacate, hne] using hi
  obtain ⟨halloc, hidx⟩ := hlive i b' hold
  refine ⟨?_, hidx⟩
  -- the block that was freed knows another slot
  have hbb : b' ≠ b := by
    rintro rfl
    exact hne (hidx.symm.trans (hlive vm b' hb).2)
  simpa [hbb] using halloc

omit fι in
theorem TableLive.setCpusInts (hlive : w.TableLive) {b : β} {numInts : ℕ} {e : Exit}
    (hset : w.setCpusInts b numInts me = some (e, w')) : w'.TableLive := by
  obtain rfl | ⟨i, -, hfree, -, rfl⟩ := setCpusInts_cases hset
  · exact hlive
  intro j b' hj
  by_cases hji : j = i
  · subst hji
    have hbb : b = b' := by simpa [System.install, Machine.install] using hj
    simp [System.install, Machine.install, hbb]
  · have hold : w.machine.vmblocks j = some b' := by
      simpa [System.install, Machine.install, hji] using hj
    obtain ⟨halloc, hidx⟩ := hlive j b' hold
    have hbb : b' ≠ b := by
      rintro rfl
      simp [hfree] at halloc
    simp [System.install, Machine.install, hbb, halloc, hidx]

theorem TableLive.step (hw : w.Sound) (hlive : w.TableLive) {a : ℕ × SysOp ι β} (ha : w.Tends a)
    (hstep : w.step a = some w') : w'.TableLive := by
  obtain ⟨h, op⟩ := a
  obtain ⟨⟨e, w'⟩, hexec, rfl⟩ := map_eq_some_iff.mp hstep
  cases op with
  | kernel op =>
    obtain ⟨⟨e', k'⟩, hk', ⟨⟩⟩ := map_eq_some_iff.mp hexec
    intro i b hi
    obtain ⟨halloc, hidx⟩ := hlive i b hi
    exact ⟨by simp [halloc, hw.fresh_exec ha hk' halloc], hidx⟩
  | setCpusInts b numInts =>
    rw [System.exec] at hexec
    split at hexec
    · obtain ⟨me, -, hset⟩ := bind_eq_some_iff.mp hexec
      exact hlive.setCpusInts hset
    · simp at hexec
  | vmopFree vm =>
    rw [System.exec] at hexec
    split at hexec
    · obtain ⟨me, -, hfree⟩ := bind_eq_some_iff.mp hexec
      exact hlive.vmopFree hfree
    · simp at hexec

/-- A block that a step gives back was allocated. -/
theorem TableLive.releases (hlive : w.TableLive) {a : ℕ × SysOp ι β} (ha : w.Tends a)
    (hstep : w.step a = some w') {b : β} (hb : Releases a b w w') : w.allocated b = true := by
  obtain ⟨h, op⟩ := a
  cases op with
  | kernel op =>
    obtain ⟨⟨e, w'⟩, hexec, rfl⟩ := map_eq_some_iff.mp hstep
    obtain ⟨⟨e', k'⟩, hk', ⟨⟩⟩ := map_eq_some_iff.mp hexec
    exact absurd hb.2 ((ha op rfl).2 e' k' hk' b)
  | setCpusInts b' numInts => exact absurd hb id
  | vmopFree vm => exact (hlive vm b hb.1).1

theorem tableLive_boot {M : Machine ι β} {timerIntnum : ℕ} {mask : BitVec 32} {cluster : Cluster ι}
    {bootvm : β} {e : Exit} (hboot : System.boot M timerIntnum mask cluster bootvm = some (e, w)) :
    w.TableLive := by
  obtain ⟨⟨e', k⟩, hk, ⟨⟩⟩ := map_eq_some_iff.mp hboot
  obtain ⟨-, -, -, hfreed⟩ := boot_runs hk
  intro i b hi
  have hi1 : i = 1 := by
    by_contra hne
    simp [Machine.alone, hne] at hi
  subst hi1
  obtain rfl : bootvm = b := by simpa [Machine.alone] using hi
  simp [Machine.alone, hfreed]

end Steps

end System

/-- **The table points only at live blocks**, as long as no VM ends without a parent: in every
state, each slot that is not empty holds an allocated block whose `vmidx` is the slot, and a step
gives back only what is allocated. -/
theorem vmTable_live (M : Machine ι β) (timerIntnum : ℕ) (mask : BitVec 32)
    (cluster : Cluster ι) (bootvm : β) (hmask : mask.getLsbD 0 = true)
    (hmax : M.maxCpus bootvm ≤ h2kIdMaxCpus) {e : Exit} {w₀ w : System ι β}
    (hboot : System.boot M timerIntnum mask cluster bootvm = some (e, w₀))
    (hw : Leads System.step (fun a w => w.Tends a) w₀ w) :
    w.TableLive ∧ ∀ a w', w.Tends a → w.step a = some w' →
      ∀ b, System.Releases a b w w' → w.allocated b = true := by
  obtain ⟨-, hlive⟩ : w.Sound ∧ w.TableLive := by
    refine hw.invariant (I := fun w => w.Sound ∧ w.TableLive)
      ⟨System.sound_boot hmask hmax hboot, System.tableLive_boot hboot⟩ ?_
    rintro a w w' ⟨hsound, hlive⟩ ha hstep
    exact ⟨hsound.step (ha.minds hsound hlive) hstep, hlive.step hsound ha hstep⟩
  exact ⟨hlive, fun a w' ha hstep b hb => hlive.releases ha hstep hb⟩

/-- The test that a step tends, with the VMs it is to look at. -/
def tendsTest (vms : List β) (a : ℕ × SysOp ι β) (w : System ι β) : Bool :=
  lifecycleTest a w &&
    match a.2 with
    | .kernel op => (w.kernel.exec w.machine a.1 op).all fun p =>
        vms.all fun b => decide (w.kernel.live w.machine b = ∅) ||
          !decide (p.2.live w.machine b = ∅) ||
          (w.machine.idToContext (w.machine.parent b)).any fun t => p.2.sched.status t != .dead
    | _ => true

theorem tends_of_tendsTest (vms : List β) (hvms : ∀ b, b ∈ vms) (a : ℕ × SysOp ι β) (w : System ι β)
    (htest : tendsTest vms a w = true) : w.Tends a := by
  intro op hop
  simp only [tendsTest, Bool.and_eq_true] at htest
  refine ⟨safe_of_lifecycleTest a w htest.1 hop, fun e k' hexec b hd => ?_⟩
  have hout := htest.2
  simp only [hop, hexec, all_some, List.all_eq_true] at hout
  have hb := hout b (hvms b)
  simp only [Bool.or_eq_true, decide_eq_true_eq, Bool.not_eq_true', decide_eq_false_iff_not] at hb
  rcases hb with (hempty | hsome) | hparent
  · obtain ⟨t, ht, hlive⟩ := hd.live
    have hmem : t ∈ w.kernel.live w.machine b := by simp [Kernel.live, ht, hlive]
    simp [hempty] at hmem
  · refine hsome (Finset.filter_eq_empty_iff.mpr fun t _ => ?_)
    rintro ⟨ht, hlive⟩
    exact hlive (hd.dead t ht)
  · rcases hp : w.machine.idToContext (w.machine.parent b) with - | p
    · simp [hp] at hparent
    · simp [hp, hd.orphan p hp] at hparent

/-- The thread of the second VM stops, and its parent lives to hear of it. -/
def secondVmEnds : List (ℕ × SysOp (Fin 3) Bool) := secondVm ++ [(1, .kernel (.trap (.stop 0)))]

/-- So the block is freed once. -/
theorem vmTable_live_secondVmEnds : ∃ e w₀ w w',
    System.boot twoBlocks 3 3#32 .off false = some (e, w₀) ∧
    Leads System.step (fun a w => w.Tends a) w₀ w ∧ w.step (0, .vmopFree 2) = some w' ∧
    System.Releases (0, .vmopFree 2) true w w' ∧ w.allocated true = true := by
  have hrun : ∃ p ∈ System.boot twoBlocks 3 3#32 .off false,
      ∃ w ∈ runIf System.step (tendsTest [false, true]) secondVmEnds p.2,
      ∃ w' ∈ w.step (0, .vmopFree 2), w.machine.vmblocks 2 = some true ∧
        w'.machine.vmblocks 2 = none := by decide +kernel
  obtain ⟨⟨e, w₀⟩, hboot, w, hw, w', hw', hP⟩ := hrun
  have hleads := Leads.of_runIf (tends_of_tendsTest [false, true] (by decide)) .init hw
  refine ⟨e, w₀, w, w', hboot, hleads, hw', hP, ?_⟩
  exact (vmTable_live twoBlocks 3 3#32 .off false (by decide) (by decide) hboot hleads).2 _ w'
    (fun _ h => by simp at h) hw' true hP

/-- The second VM is orphaned and ends. -/
def orphanEnds : List (ℕ × SysOp (Fin 3) Bool) := bootAgain.take 8

/-- **The slot points at a block that the allocator has back**, and a thread of the VM that made it
gives it back again. -/
theorem vmTable_dangles : ∃ e w₀ w w',
    System.boot twoBlocks 3 3#32 .off false = some (e, w₀) ∧
    Leads System.step (fun a w => ∀ op, a.2 = .kernel op → Safe w.machine a.1 op w.kernel) w₀ w ∧
    w.machine.vmblocks 2 = some true ∧ w.allocated true = false ∧ ¬w.TableLive ∧
    w.exec 1 (.vmopFree 2) = some (.returned 0, w') ∧
    System.Releases (1, .vmopFree 2) true w w' := by
  have hrun : ∃ p ∈ System.boot twoBlocks 3 3#32 .off false,
      ∃ w ∈ runIf System.step lifecycleTest orphanEnds p.2, ∃ q ∈ w.exec 1 (.vmopFree 2),
        w.machine.vmblocks 2 = some true ∧ w.allocated true = false ∧ q.1 = .returned 0 ∧
          q.2.machine.vmblocks 2 = none := by decide +kernel
  obtain ⟨⟨e, w₀⟩, hboot, w, hw, ⟨_, w'⟩, hw', hslot, hfree, rfl, hslot'⟩ := hrun
  refine ⟨e, w₀, w, w', hboot, .of_runIf (fun a w ht op => safe_of_lifecycleTest a w ht) .init hw,
    hslot, hfree, fun hlive => ?_, hw', hslot, hslot'⟩
  simp [(hlive 2 true hslot).1] at hfree

end H2
