import H2.Kernel.Accounts

/-!
# Thread/Id — ids, and the contexts they name

An id has the slot of a VM in its upper six bits and a cpu index in the sixteen below them.  The
contexts of a VM lie in memory one after the other, and an index is good unless
`cpuidx > max_cpus - 1`, on unsigned words.

For a VM without a cpu the bound is the largest word there is.  `SET_CPUS_INTS` makes such VMs, and
an id that names one resolves to whatever lies where its contexts would be (`id_resolution_iff`).
For all others the code finds the context that `Machine.idToContext` says (`idToContext_inMemory`).
-/

namespace H2

open BitVec (ofNat toNat_ofNat toNat_setWidth)

/-- An address of kernel memory. -/
abbrev Addr := BitVec 32

/-- `id.vmidx`. -/
def idVmidx (id : BitVec 32) : BitVec 6 := (id >>> 26).setWidth 6

/-- `id.cpuidx`. -/
def idCpuidx (id : BitVec 32) : BitVec 16 := (id >>> 10).setWidth 16

/-- The fields of `H2K_vmblock_t` that resolving an id reads. -/
structure VmblockMem where
  vmidx : BitVec 32
  /-- The raw id of the thread that made it. -/
  parent : BitVec 32
  maxCpus : BitVec 32
  contexts : Addr
  deriving DecidableEq

/-- `vmblocks`, with none for `NULL`. -/
abbrev VmblocksMem := BitVec 6 → Option VmblockMem

/-- The address of one of the contexts of a VM, each of so many bytes. -/
def VmblockMem.Own (size : BitVec 32) (b : VmblockMem) (a : Addr) : Prop :=
  ∃ i < b.maxCpus, a = b.contexts + i * size

/-- `H2K_id_cpuidx_to_context`. -/
def idCpuidxToContext (size : BitVec 32) (b : VmblockMem) (cpuidx : BitVec 32) : Option Addr :=
  if cpuidx > b.maxCpus - 1 then none else some (b.contexts + cpuidx * size)

/-- `H2K_id_to_context`. -/
def idToContext (size : BitVec 32) (vmblocks : VmblocksMem) (id : BitVec 32) : Option Addr :=
  match vmblocks (idVmidx id) with
  | none => none
  | some b => idCpuidxToContext size b ((idCpuidx id).setWidth 32)

/-! ## Those who resolve an id -/

/-- A thread in a trap: its context, its id, its VM and the registers it passes. -/
structure Caller where
  self : Addr
  id : BitVec 32
  vmblock : VmblockMem
  r01 : BitVec 32
  r02 : BitVec 32
  deriving DecidableEq

/-- `H2K_vmint_fixup_post`. -/
def vmintFixupPost (size : BitVec 32) (vmblocks : VmblocksMem) (me : Caller) : Option Addr :=
  if me.r02 ≠ 0 then
    match vmblocks (idVmidx me.r02) with
    | none => none
    | some b =>
      if me.self ≠ 0 ∧ idVmidx me.id ≠ 0 ∧ idVmidx me.id ≠ idVmidx b.parent ∧
          idVmidx me.vmblock.parent ≠ idVmidx me.r02 ∧ idVmidx me.id ≠ idVmidx me.r02 then none
      else idToContext size vmblocks me.r02
  else idToContext size vmblocks me.id

/-- `H2K_vmint_fixup_aff`. -/
def vmintFixupAff (size : BitVec 32) (me : Caller) : Option Addr :=
  idCpuidxToContext size me.vmblock me.r02

/-- The target of `H2K_vmop_kill_thread`. -/
def killThreadTarget (size : BitVec 32) (vmblocks : VmblocksMem) (me : Caller) (id : BitVec 32) :
    Option Addr :=
  match vmblocks (idVmidx id) with
  | none => none
  | some b =>
    if (idVmidx me.id).setWidth 32 ≠ b.vmidx ∧ idVmidx me.id ≠ idVmidx b.parent then none
    else idCpuidxToContext size b ((idCpuidx id).setWidth 32)

/-- Who resolves an id, and with what. -/
inductive IdUse where
  /-- An interrupt is posted. -/
  | post (me : Caller)
  /-- An interrupt gets another affinity. -/
  | affinity (me : Caller)
  /-- A thread is killed. -/
  | killThread (me : Caller) (id : BitVec 32)
  /-- `H2K_thread_stop_withlock` tells the parent of a VM. -/
  | childExit (vmblock : VmblockMem)
  /-- `H2K_futex_pi_raise` boosts the owner that a futex word names. -/
  | piRaise (destid : BitVec 32)
  /-- `H2K_passthru` posts what `inthandlers` says. -/
  | passthru (param : BitVec 32)

/-- The context that is read and written then, if any. -/
def IdUse.context (size : BitVec 32) (vmblocks : VmblocksMem) : IdUse → Option Addr
  | .post me => vmintFixupPost size vmblocks me
  | .affinity me => vmintFixupAff size me
  | .killThread me id => killThreadTarget size vmblocks me id
  | .childExit b => idToContext size vmblocks b.parent
  | .piRaise destid => idToContext size vmblocks destid
  | .passthru param => idToContext size vmblocks param

/-- The caller is a thread of a VM in the table. -/
def IdUse.Placed (vmblocks : VmblocksMem) : IdUse → Prop
  | .post me | .affinity me | .killThread me _ => ∃ i, vmblocks i = some me.vmblock
  | .childExit b => ∃ i, vmblocks i = some b
  | .piRaise _ | .passthru _ => True

/-! ## The bound -/

section Resolve

variable {size : BitVec 32} {vmblocks : VmblocksMem} {b : VmblockMem}
  {cpuidx id : BitVec 32} {a : Addr}

/-- With a cpu the bound is what it looks like. -/
theorem idCpuidxToContext_of_ne (hb : b.maxCpus ≠ 0) : idCpuidxToContext size b cpuidx =
    if cpuidx < b.maxCpus then some (b.contexts + cpuidx * size) else none := by
  have hlt : cpuidx > b.maxCpus - 1 ↔ ¬cpuidx < b.maxCpus := by bv_omega
  rw [idCpuidxToContext]
  by_cases hc : cpuidx < b.maxCpus
  · rw [if_neg (fun h => hlt.mp h hc), if_pos hc]
  · rw [if_pos (hlt.mpr hc), if_neg hc]

/-- Without one there is no bound. -/
theorem idCpuidxToContext_of_eq (hb : b.maxCpus = 0) :
    idCpuidxToContext size b cpuidx = some (b.contexts + cpuidx * size) := by
  rw [idCpuidxToContext, if_neg]
  bv_omega

theorem own_of_idCpuidxToContext (hb : b.maxCpus ≠ 0)
    (ha : idCpuidxToContext size b cpuidx = some a) : b.Own size a := by
  rw [idCpuidxToContext_of_ne hb] at ha
  split at ha
  · next hlt => exact ⟨cpuidx, hlt, (Option.some.inj ha).symm⟩
  · simp at ha

theorem own_of_idToContext (htable : ∀ i b, vmblocks i = some b → b.maxCpus ≠ 0)
    (ha : idToContext size vmblocks id = some a) :
    ∃ b, vmblocks (idVmidx id) = some b ∧ b.Own size a := by
  unfold idToContext at ha
  split at ha
  · simp at ha
  · next b hb => exact ⟨b, hb, own_of_idCpuidxToContext (htable _ b hb) ha⟩

/-- **Every user** stays inside, too. -/
theorem own_of_use (htable : ∀ i b, vmblocks i = some b → b.maxCpus ≠ 0) {use : IdUse}
    (huse : use.Placed vmblocks) (ha : use.context size vmblocks = some a) :
    ∃ i b, vmblocks i = some b ∧ b.Own size a := by
  have hid {id : BitVec 32} (ha : idToContext size vmblocks id = some a) :
      ∃ i b, vmblocks i = some b ∧ b.Own size a := ⟨_, own_of_idToContext htable ha⟩
  cases use with
  | post me =>
    simp only [IdUse.context, vmintFixupPost] at ha
    split at ha
    · split at ha
      · simp at ha
      · split at ha
        · simp at ha
        · exact hid ha
    · exact hid ha
  | affinity me =>
    obtain ⟨i, hi⟩ := huse
    exact ⟨i, me.vmblock, hi, own_of_idCpuidxToContext (htable i _ hi) ha⟩
  | killThread me id =>
    simp only [IdUse.context, killThreadTarget] at ha
    split at ha
    · simp at ha
    next b hb =>
    split at ha
    · simp at ha
    · exact ⟨_, b, hb, own_of_idCpuidxToContext (htable _ b hb) ha⟩
  | childExit b => exact hid ha
  | piRaise destid => exact hid ha
  | passthru param => exact hid ha

end Resolve

/-- **Ids resolve inside the VM** — for every id and everyone who resolves one — exactly if each VM
in the table has a cpu. -/
theorem id_resolution_iff (size : BitVec 32) (vmblocks : VmblocksMem) :
    ((∀ i b, vmblocks i = some b → ∀ cpuidx a, idCpuidxToContext size b cpuidx = some a →
        b.Own size a) ∧
      (∀ id a, idToContext size vmblocks id = some a →
        ∃ b, vmblocks (idVmidx id) = some b ∧ b.Own size a) ∧
      ∀ use : IdUse, use.Placed vmblocks → ∀ a, use.context size vmblocks = some a →
        ∃ i b, vmblocks i = some b ∧ b.Own size a) ↔
    ∀ i b, vmblocks i = some b → b.maxCpus ≠ 0 := by
  constructor
  · rintro ⟨hown, -, -⟩ i b hb hzero
    obtain ⟨i, hi, -⟩ := hown i b hb 0 _ (idCpuidxToContext_of_eq hzero)
    exact absurd hi (by bv_omega)
  · intro htable
    exact ⟨fun i b hb cpuidx a ha => own_of_idCpuidxToContext (htable i b hb) ha,
      fun id a ha => own_of_idToContext htable ha, fun use huse a ha => own_of_use htable huse ha⟩

/-! ## What the kernel model says -/

section Memory

variable {ι β : Type}

/-- The raw id of a VM and a cpu index. -/
def rawId (id : ℕ × ℕ) : BitVec 32 := ofNat 32 (id.1 * 0x4000000 + id.2 * 0x400)

/-- The table in memory, with the contexts of each VM where the allocator put them. -/
def Machine.inMemory (contexts : β → Addr) (M : Machine ι β) : VmblocksMem := fun i =>
  (M.vmblocks i.toNat).map fun b =>
    { vmidx := ofNat 32 (M.vmidx b)
      parent := rawId (M.parent b)
      maxCpus := ofNat 32 (M.maxCpus b)
      contexts := contexts b }

/-- The address of a context. -/
def Machine.address (size : BitVec 32) (contexts : β → Addr) (M : Machine ι β) (t : ι) : Addr :=
  contexts (M.vmblock t) + ofNat 32 (M.cpuidx t) * size

/-- **The code finds the context the model says**, if the VM has a cpu. -/
theorem idToContext_inMemory {M : Machine ι β} (contexts : β → Addr) (size id : BitVec 32)
    (hb : ∀ b, M.vmblocks (idFields id.toNat).1 = some b →
      0 < M.maxCpus b ∧ M.maxCpus b ≤ h2kIdMaxCpus) :
    idToContext size (M.inMemory contexts) id =
      (M.idToContext (idFields id.toNat)).map (M.address size contexts) := by
  have hvm : (idVmidx id).toNat = (idFields id.toNat).1 := by
    simp only [idVmidx, idFields, toNat_setWidth, BitVec.toNat_ushiftRight,
      Nat.shiftRight_eq_div_pow]
  have hcpu : (idCpuidx id).toNat = (idFields id.toNat).2 := by
    simp only [idCpuidx, idFields, toNat_setWidth, BitVec.toNat_ushiftRight,
      Nat.shiftRight_eq_div_pow]
  have hcpu32 : ((idCpuidx id).setWidth 32 : BitVec 32) = ofNat 32 (idFields id.toNat).2 := by
    apply BitVec.eq_of_toNat_eq
    rw [toNat_setWidth, toNat_ofNat, hcpu]
  unfold idToContext Machine.inMemory Machine.idToContext
  rw [hvm]
  cases hslot : M.vmblocks (idFields id.toNat).1 with
  | none => rfl
  | some b =>
    obtain ⟨hpos, hle⟩ := hb b hslot
    rw [h2kIdMaxCpus] at hle
    have hmax : (ofNat 32 (M.maxCpus b)).toNat = M.maxCpus b := by
      rw [toNat_ofNat]
      omega
    have hcpuNat : (ofNat 32 (idFields id.toNat).2).toNat = (idFields id.toNat).2 := by
      rw [toNat_ofNat]
      omega
    have hne : ofNat 32 (M.maxCpus b) ≠ 0 := fun h => by
      rw [h] at hmax
      exact hpos.ne hmax
    simp only [Option.map_some, Option.bind_some]
    rw [idCpuidxToContext_of_ne hne, hcpu32]
    simp only [BitVec.lt_def, hmax, hcpuNat]
    split
    · next hlt =>
      obtain ⟨t, ht⟩ := Option.isSome_iff_exists.mp (M.context_isSome.mpr hlt)
      obtain ⟨hvmblock, hidx⟩ := M.context_eq_some.mp ht
      rw [ht, Option.map_some, Machine.address, hvmblock, hidx]
    · next hge =>
      rw [Option.not_isSome_iff_eq_none.mp (mt M.context_isSome.mp hge), Option.map_none]

theorem idToContext_inMemory_second :
    idToContext 0x200 ((oneVm 1).inMemory fun _ => 0x1000) 0x4000400 = some 0x1200 :=
  idToContext_inMemory (fun _ => 0x1000) 0x200 0x4000400 (by decide)

open scoped Numerals

/-- A cpu in one block and none in another. -/
def emptyVm : Machine (Fin 1) Bool where
  vmblock _ := false
  cpuidx _ := 0
  maxCpus b := if b then 0 else 1
  context b i := if b then none else if i = 0 then some 0 else none
  vmblocks _ := none
  vmidx _ := 0
  parent _ := (0, 0)
  bestprio _ := 0
  numInts _ := 0
  context_eq_some {b i t} := by
    have ht : t = 0 := by omega
    cases b <;> simp [ht, eq_comm]
  context_isSome {b i} := by cases b <;> simp

/-- **An id resolves outside its VM**: the boot thread sets up a VM without a cpu, which gets slot
2, and posts an interrupt to its cpu 5. -/
theorem id_resolves_outside : ∃ e w₀ w, System.boot emptyVm 3 1#32 .off false = some (e, w₀) ∧
    w₀.exec 0 (.setCpusInts true 0) = some (.returned 2, w) ∧
    ∃ boot : VmblockMem, w.machine.inMemory (fun _ => 0x1000) 1 = some boot ∧
    ∃ b : VmblockMem, w.machine.inMemory (fun _ => 0x1000) 2 = some b ∧
    IdUse.context 0x200 (w.machine.inMemory fun _ => 0x1000)
      (.post ⟨0x1000, 0x4000000, boot, 3, 0x8001400⟩) = some 0x1a00 ∧ ¬b.Own 0x200 0x1a00 := by
  have hrun : ∃ p ∈ System.boot emptyVm 3 1#32 .off false, ∃ q ∈ p.2.exec 0 (.setCpusInts true 0),
      ∃ boot ∈ q.2.machine.inMemory (fun _ => 0x1000) 1,
      ∃ b ∈ q.2.machine.inMemory (fun _ => 0x1000) 2, q.1 = .returned 2 ∧ b.maxCpus = 0 ∧
        IdUse.context 0x200 (q.2.machine.inMemory fun _ => 0x1000)
          (.post ⟨0x1000, 0x4000000, boot, 3, 0x8001400⟩) = some 0x1a00 := by decide +kernel
  obtain ⟨⟨e, w₀⟩, hboot, ⟨_, w⟩, hset, boot, hslot₁, b, hslot₂, rfl, hzero, huse⟩ := hrun
  refine ⟨e, w₀, w, hboot, hset, boot, hslot₁, b, hslot₂, huse, ?_⟩
  rintro ⟨i, hi, -⟩
  exact absurd hi (by bv_omega)

end Memory

end H2
