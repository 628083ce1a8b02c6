import H2.Thread.Id

/-!
# Vm/IntopOpt — the optimised post

`vmint.v4opt.S` posts an interrupt with the tests of `H2K_vmint_fixup_post` in another order.  It
has no test for an empty slot: the block's fields are loaded through `NULL`, at addresses that the
translation of the calling guest decides on.  It has none for a caller without a VM either, which is
what a fast interrupt handler looks like; and a post to oneself does not go through the table.

The two agree on the posts of a thread that is where the table says, to a VM with a cpu
(`intopPost_agrees_iff`).
-/

namespace H2

/-- What becomes of a post. -/
inductive Posted where
  /-- `r00 = -1`. -/
  | fails
  /-- The first interrupt controller is called for this context. -/
  | delivers (dst : Addr)
  /-- A load finds nothing mapped. -/
  | faults
  deriving DecidableEq

/-- With no context to post to, `goto fail`. -/
def Posted.to : Option Addr → Posted
  | none => .fails
  | some dst => .delivers dst

/-- `H2K_vmtrap_intop` with `H2K_INTOP_POST`. -/
def vmtrapIntopPost (size : BitVec 32) (vmblocks : VmblocksMem) (me : Caller) : Posted :=
  .to (vmintFixupPost size vmblocks me)

namespace IntopOpt

/-- From `.Lfixup_cpuidx_to_context` on; `cmp.gt` compares signed words. -/
def fixupCpuidxToContext (size : BitVec 32) (dstVmblock : VmblockMem) (dstCpu : BitVec 32) :
    Posted :=
  if dstCpu.slt dstVmblock.maxCpus then .delivers (dstVmblock.contexts + dstCpu * size) else .fails

/-- From `.Lfixup_post_ok` on. -/
def fixupPostOk (size : BitVec 32) (dstVmblock : VmblockMem) (dstId : BitVec 32) : Posted :=
  fixupCpuidxToContext size dstVmblock ((idCpuidx dstId).setWidth 32)

/-- `H2K_vmtrap_intop` with `INTOP_INDEX_post`, where `zero` is what a VM block at address 0 reads
as, if anything is mapped there. -/
def vmtrapIntopPost (size : BitVec 32) (zero : Option VmblockMem) (vmblocks : VmblocksMem)
    (me : Caller) : Posted :=
  let dstId := me.r02
  if dstId = 0 then .delivers me.self
  else
    let dstVm := idVmidx dstId
    let meVm := idVmidx me.id
    -- every way on loads from the block first
    match (vmblocks dstVm).or zero with
    | none => .faults
    | some dstVmblock =>
      if me.self = 0 then fixupPostOk size dstVmblock dstId
      else if meVm = dstVm then fixupPostOk size dstVmblock dstId
      else if idVmidx me.vmblock.parent = dstVm then fixupPostOk size dstVmblock dstId
      else if idVmidx dstVmblock.parent = meVm then fixupPostOk size dstVmblock dstId
      else .fails

end IntopOpt

/-- The caller and the VM it posts to are the same, or one made the other. -/
def Caller.Related (me : Caller) (b : VmblockMem) : Prop :=
  me.self = 0 ∨ idVmidx me.id = idVmidx me.r02 ∨ idVmidx me.vmblock.parent = idVmidx me.r02 ∨
    idVmidx b.parent = idVmidx me.id

instance (me : Caller) (b : VmblockMem) : Decidable (me.Related b) := by
  unfold Caller.Related
  infer_instance

section Agree

variable {size : BitVec 32} {zero : Option VmblockMem} {vmblocks : VmblocksMem} {me : Caller}
  {b : VmblockMem}

theorem vmtrapIntopPost_eq (hr02 : me.r02 ≠ 0) (hb : vmblocks (idVmidx me.r02) = some b) :
    vmtrapIntopPost size vmblocks me = if me.Related b ∨ idVmidx me.id = 0 then
        .to (idCpuidxToContext size b ((idCpuidx me.r02).setWidth 32))
      else .fails := by
  have hid : idToContext size vmblocks me.r02 =
      idCpuidxToContext size b ((idCpuidx me.r02).setWidth 32) := by
    rw [idToContext, hb]
  have hrelated : (me.self ≠ 0 ∧ idVmidx me.id ≠ 0 ∧ idVmidx me.id ≠ idVmidx b.parent ∧
      idVmidx me.vmblock.parent ≠ idVmidx me.r02 ∧ idVmidx me.id ≠ idVmidx me.r02) ↔
      ¬(me.Related b ∨ idVmidx me.id = 0) := by
    rw [Caller.Related]
    tauto
  rw [vmtrapIntopPost, vmintFixupPost, if_pos hr02, hb]
  simp only [hrelated, hid, ite_not]
  exact apply_ite Posted.to ..

theorem IntopOpt.vmtrapIntopPost_eq (hr02 : me.r02 ≠ 0)
    (hb : (vmblocks (idVmidx me.r02)).or zero = some b) :
    IntopOpt.vmtrapIntopPost size zero vmblocks me =
      if me.Related b then IntopOpt.fixupPostOk size b me.r02 else .fails := by
  simp only [IntopOpt.vmtrapIntopPost, if_neg hr02, hb]
  by_cases hrelated : me.Related b
  · rw [if_pos hrelated]
    rcases hrelated with h | h | h | h <;> simp [h]
  · rw [if_neg hrelated]
    simp only [Caller.Related, not_or] at hrelated
    obtain ⟨h₁, h₂, h₃, h₄⟩ := hrelated
    rw [if_neg h₁, if_neg h₂, if_neg h₃, if_neg h₄]

/-- A cpu index is not negative: a signed bound is as good as an unsigned one, above 0. -/
theorem slt_iff_lt {m : BitVec 32} (c : BitVec 16) (hm : (0#32).slt m = true) :
    (c.setWidth 32 : BitVec 32).slt m = true ↔ (c.setWidth 32 : BitVec 32) < m := by
  simp only [BitVec.slt_iff_toInt_lt, BitVec.toInt_eq_toNat_cond, BitVec.lt_def,
    BitVec.toNat_setWidth, BitVec.toNat_ofNat] at hm ⊢
  omega

/-- … and with a bound that is not above 0 every index is refused. -/
theorem not_slt {m : BitVec 32} (c : BitVec 16) (hm : ¬(0#32).slt m = true) :
    ¬(c.setWidth 32 : BitVec 32).slt m = true := by
  simp only [BitVec.slt_iff_toInt_lt, BitVec.toInt_eq_toNat_cond,
    BitVec.toNat_setWidth, BitVec.toNat_ofNat] at hm ⊢
  omega

/-- **The bounds agree** if there is a cpu, and not too many. -/
theorem fixupPostOk_eq_iff (size : BitVec 32) (b : VmblockMem) (id : BitVec 32) :
    IntopOpt.fixupPostOk size b id = .to (idCpuidxToContext size b ((idCpuidx id).setWidth 32)) ↔
      (0#32).slt b.maxCpus = true := by
  rw [IntopOpt.fixupPostOk, IntopOpt.fixupCpuidxToContext]
  by_cases hm : (0#32).slt b.maxCpus = true
  · have hne : b.maxCpus ≠ 0 := by
      rintro h
      simp [h] at hm
    rw [idCpuidxToContext_of_ne hne]
    simp only [slt_iff_lt _ hm, hm, iff_true]
    split <;> rfl
  · have hle : ¬((idCpuidx id).setWidth 32 : BitVec 32) > b.maxCpus - 1 := by
      simp only [BitVec.slt_iff_toInt_lt, BitVec.toInt_eq_toNat_cond, BitVec.toNat_ofNat] at hm
      have hone : (1 : BitVec 32).toNat = 1 := rfl
      simp only [BitVec.lt_def, BitVec.toNat_setWidth, BitVec.toNat_sub, hone]
      omega
    rw [if_neg (not_slt _ hm), idCpuidxToContext, if_neg hle]
    simp [Posted.to, hm]

end Agree

/-- When the two may be exchanged. -/
def PostAgrees (size : BitVec 32) (zero : Option VmblockMem) (vmblocks : VmblocksMem)
    (me : Caller) : Prop :=
  if me.r02 = 0 then idToContext size vmblocks me.id = some me.self
  else
    match vmblocks (idVmidx me.r02) with
    | none => ∃ b, zero = some b ∧
        ¬(me.Related b ∧ ((idCpuidx me.r02).setWidth 32 : BitVec 32).slt b.maxCpus = true)
    | some b =>
      if me.Related b then (0#32).slt b.maxCpus = true
      else idVmidx me.id = 0 →
        b.maxCpus ≠ 0 ∧ b.maxCpus ≤ ((idCpuidx me.r02).setWidth 32 : BitVec 32)

/-- **The optimised post** ends like the reference exactly if: a post to oneself comes from the
thread that the id names; a post to an empty slot finds at address 0 a block that refuses it; a post
to a VM that is related to the caller finds that it has a cpu, and less than 2³¹; and one to another
VM does not come from a caller without a VM, unless there is no such cpu. -/
theorem intopPost_agrees_iff (size : BitVec 32) (zero : Option VmblockMem) (vmblocks : VmblocksMem)
    (me : Caller) :
    IntopOpt.vmtrapIntopPost size zero vmblocks me = vmtrapIntopPost size vmblocks me ↔
      PostAgrees size zero vmblocks me := by
  unfold PostAgrees
  by_cases hr02 : me.r02 = 0
  · rw [if_pos hr02, IntopOpt.vmtrapIntopPost, vmtrapIntopPost, vmintFixupPost]
    simp only [hr02, if_true]
    cases idToContext size vmblocks me.id <;> simp [Posted.to, eq_comm]
  rw [if_neg hr02]
  cases hslot : vmblocks (idVmidx me.r02) with
  | none =>
    have href : vmtrapIntopPost size vmblocks me = .fails := by
      rw [vmtrapIntopPost, vmintFixupPost, if_pos hr02, hslot]
      rfl
    rw [href]
    cases zero with
    | none =>
      simp only [IntopOpt.vmtrapIntopPost, if_neg hr02, hslot]
      simp
    | some b =>
      rw [IntopOpt.vmtrapIntopPost_eq hr02 (by rw [hslot]; rfl), IntopOpt.fixupPostOk,
        IntopOpt.fixupCpuidxToContext]
      by_cases hrelated : me.Related b <;> simp [hrelated]
  | some b =>
    rw [vmtrapIntopPost_eq hr02 hslot,
      IntopOpt.vmtrapIntopPost_eq (b := b) hr02 (by rw [hslot]; rfl)]
    simp only
    by_cases hrelated : me.Related b
    · rw [if_pos hrelated, if_pos (.inl hrelated), if_pos hrelated, fixupPostOk_eq_iff]
    · rw [if_neg hrelated, if_neg hrelated]
      by_cases hzero : idVmidx me.id = 0
      · rw [if_pos (.inr hzero)]
        by_cases hm : b.maxCpus = 0
        · simp [idCpuidxToContext_of_eq hm, Posted.to, hzero, hm]
        · rw [idCpuidxToContext_of_ne hm]
          by_cases hlt : ((idCpuidx me.r02).setWidth 32 : BitVec 32) < b.maxCpus
          · simp [hlt, Posted.to, hzero]
          · rw [if_neg hlt]
            exact iff_of_true rfl fun _ => ⟨hm, BitVec.not_lt.mp hlt⟩
      · rw [if_neg (not_or.mpr ⟨hrelated, hzero⟩)]
        exact iff_of_true rfl fun h => absurd h hzero

/-- A caller in VM 2, with this id, that posts to that one. -/
def postCaller (id : BitVec 32) (dst : BitVec 32) : Caller :=
  ⟨0x1000, id, ⟨2, 0x4000000, 1, 0x1000⟩, 3, dst⟩

/-- VM 2 has a cpu, and so has VM 3; both were made by VM 1. -/
def twoVms : VmblocksMem := fun i =>
  if i = 2 then some ⟨2, 0x4000000, 1, 0x1000⟩
  else if i = 3 then some ⟨3, 0x4000000, 1, 0x2000⟩ else none

/-- **Where they differ**: for the empty slot 4 the reference fails; the assembly faults, or if the
guest has mapped address 0 posts to the context that it finds there.  A caller without a VM may post
to VM 3 in the reference only, and to itself in the assembly only. -/
theorem intopPost_differs :
    vmtrapIntopPost 0x200 twoVms (postCaller 0x8000000 0x10000000) = .fails ∧
    IntopOpt.vmtrapIntopPost 0x200 none twoVms (postCaller 0x8000000 0x10000000) = .faults ∧
    IntopOpt.vmtrapIntopPost 0x200 (some ⟨0, 0x8000000, 1, 0xdead0000⟩) twoVms
      (postCaller 0x8000000 0x10000000) = .delivers 0xdead0000 ∧
    vmtrapIntopPost 0x200 twoVms (postCaller 0 0xc000000) = .delivers 0x2000 ∧
    IntopOpt.vmtrapIntopPost 0x200 none twoVms (postCaller 0 0xc000000) = .fails ∧
    vmtrapIntopPost 0x200 twoVms (postCaller 0 0) = .fails ∧
    IntopOpt.vmtrapIntopPost 0x200 none twoVms (postCaller 0 0) = .delivers 0x1000 := by
  decide

end H2
