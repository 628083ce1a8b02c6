import H2.Kernel.Spaces
import H2.Vm.Intop

/-!
# Traps/VmblockInit — the parent of a VM sets it up

`H2K_trap_config_vmblock_init` writes what does not change while a VM runs: its map of physical
memory and the fences around it, its best priority and its traps, and the physical interrupts that
are passed through to it.  All but the first call, which makes the VM, are for the VM that made it,
and only while it has no thread.
-/

namespace H2

open Function

variable {ι β : Type} [DecidableEq ι] [DecidableEq β] [Fintype ι]

/-- What is set up of a VM block besides what `Machine` has. -/
@[ext] structure VmConfig where
  guestmap : AsidEntry
  tlbidxmask : BitVec 8
  physOffset : BitVec 32
  fenceLo : BitVec 32
  fenceHi : BitVec 32
  trapmask : BitVec 32
  intV2p : ℕ → BitVec 16

/-- … of a new one. -/
def VmConfig.cleared : VmConfig where
  guestmap := ⟨0, 0, 0, 0, 0, 0⟩
  tlbidxmask := -1
  physOffset := 0
  fenceLo := 0
  fenceHi := 0
  trapmask := -1
  intV2p _ := 0

/-- A system with its address spaces, the configuration of its VMs, and the entries of `inthandlers`
that pass an interrupt through, with their raw ids. -/
structure Guests (ι β : Type) where
  spaces : Spaces ι β
  config : β → VmConfig
  passthru : ℕ → Option (BitVec 32)
  timerIntnum : ℕ

/-- `PAGE_SIZE_MAX`. -/
def pageSizeMax : ℕ := 9

/-- `offset.size`. -/
def offsetSize (raw : BitVec 32) : ℕ := raw.toNat % 16

/-- `offset.pages`. -/
def offsetPages (raw : BitVec 32) : ℕ := raw.toNat / 4096

namespace Guests

abbrev machine (x : Guests ι β) : Machine ι β := x.spaces.system.machine

abbrev kernel (x : Guests ι β) : Kernel ι β := x.spaces.system.kernel

def withKernel (k : Kernel ι β) (x : Guests ι β) : Guests ι β :=
  { x with spaces := { x.spaces with system := { x.spaces.system with kernel := k } } }

def withMachine (M : Machine ι β) (x : Guests ι β) : Guests ι β :=
  { x with spaces := { x.spaces with system := { x.spaces.system with machine := M } } }

def setConfig (b : β) (c : VmConfig) (x : Guests ι β) : Guests ι β :=
  { x with config := update x.config b c }

/-- `return vmblock->vmidx`. -/
def vmidx (b : β) (x : Guests ι β) : Exit := .returned (x.machine.vmidx b)

/-- `arg1 & ~CONFIG_USE_EXT`: the flag asks for the extensions, which are not part of `Guests`. -/
def configCpus (arg1 : BitVec 32) : ℕ := (arg1 &&& ~~~0x80000000#32).toNat

/-- `H2K_config_vmblock_init_cpus_ints`, with what the allocator answers. -/
def vmblockInitCpusInts (arg1 arg2 : BitVec 32) (answer : Option β) (me : ι) (x : Guests ι β) :
    Option (Exit × Guests ι β) :=
  if h2kIdMaxCpus < configCpus arg1 ∨ maxVmInts < arg2.toNat then some (.returned 0, x)
  else
    match answer with
    | none => some (.returned 0, x)
    | some b =>
      if x.machine.maxCpus b ≠ configCpus arg1 then none
      else
        (x.spaces.system.setCpusInts b arg2.toNat me).map fun p =>
          (p.1, { x with
            spaces := x.spaces.follow (.setCpusInts b arg2.toNat) p.2
            config :=
              if x.spaces.system.allocated b = false ∧ p.2.allocated b = true then
                update x.config b .cleared
              else x.config })

/-- `H2K_config_vmblock_init_pmap_type`. -/
def vmblockInitPmapType (b : β) (arg1 arg2 : BitVec 32) (me : ι) (x : Guests ι β) :
    Exit × Guests ι β :=
  let c := x.config b
  let vmid := BitVec.ofNat 6 (x.machine.parent b).1
  if arg2.toNat = transTypeOffset then
    if pageSizeMax < offsetSize arg1 ∨ offsetPages arg1 % 2 ^ (2 * offsetSize arg1) ≠ 0 then
      (.returned 0, x)
    else (x.vmidx b, x.setConfig b { c with
      guestmap := { c.guestmap with ptb := arg1, type := BitVec.ofNat 3 arg2.toNat, vmid := vmid }
      fenceLo := 0
      fenceHi := -1 })
  else if 4 ≤ arg2.toNat then (.returned 0, x)
  else if arg1 = 0 then
    (x.vmidx b, x.setConfig b { c with
      guestmap := x.spaces.asids.table (x.spaces.asids.ssrAsid me) })
  else (x.vmidx b, x.setConfig b { c with
    guestmap := { c.guestmap with ptb := arg1, type := BitVec.ofNat 3 arg2.toNat, vmid := vmid } })

/-- `H2K_config_vmblock_init_set_fences`. -/
def vmblockInitSetFences (b : β) (arg1 arg2 : BitVec 32) (x : Guests ι β) : Exit × Guests ι β :=
  let c := x.config b
  let lo := arg1 >>> 12
  let hi := arg2 >>> 12
  if (lo ||| hi) &&& ((1#32 <<< (2 * offsetSize c.physOffset)) - 1) ≠ 0 then (.returned 0, x)
  else (x.vmidx b, x.setConfig b { c with fenceLo := lo, fenceHi := hi })

/-- `H2K_config_vmblock_init_prio_trapmask`. -/
def vmblockInitPrioTrapmask (b : β) (arg1 arg2 : BitVec 32) (x : Guests ι β) : Exit × Guests ι β :=
  let c := x.config b
  if maxPrio < arg1.toNat then (.returned 0, x)
  else (x.vmidx b,
    (x.withMachine { x.machine with
        bestprio := update x.machine.bestprio b arg1.toNat }).setConfig b
      { c with trapmask := arg2, tlbidxmask := if 200 < arg1.toNat then 0x0f else c.tlbidxmask })

/-- `H2K_register_passthru`. -/
def registerPassthru (physint vmidx cpuidx virtInt : ℕ) (x : Guests ι β) : Guests ι β :=
  let k := x.kernel
  let handlers := { k with sched := { k.sched with
    inthandlers := update k.sched.inthandlers physint .null } }
  { x.withKernel handlers with
    passthru := update x.passthru physint
      (if vmidx = 0 then none
      else some (BitVec.ofNat 32 (vmidx * 0x4000000 + cpuidx * 0x400 +
        if virtInt < 0x400 then virtInt else 0))) }

/-- `H2K_config_vmblock_init_map_phys_intr`; the interrupts of the kernel itself are skipped. -/
def vmblockInitMapPhysIntr (b : β) (arg1 arg2 : BitVec 32) (x : Guests ι β) : Exit × Guests ι β :=
  let c := x.config b
  let physint := arg2.toNat / 0x10000
  let cpuidx := arg2.toNat % 0x10000
  let virtInt := arg1.toNat
  if x.machine.numInts b + percpuInterrupts ≤ virtInt ∨ maxInterrupts ≤ physint ∨
      x.machine.maxCpus b ≤ cpuidx then (.returned 0, x)
  else if physint = 1 ∨ physint = 0 ∨ virtInt = timeGuestint ∨ physint = x.timerIntnum ∨
      physint = l2CoreInterrupt ∨ virtInt = 0 then (x.vmidx b, x)
  else (x.vmidx b,
    (x.setConfig b { c with
      intV2p := update c.intV2p virtInt (BitVec.ofNat 16 physint) }).registerPassthru
      physint (x.machine.vmidx b) cpuidx virtInt)

/-- `H2K_trap_config_vmblock_init`. -/
def trapConfigVmblockInit (vm op arg1 arg2 : BitVec 32) (answer : Option β) (me : ι)
    (x : Guests ι β) : Option (Exit × Guests ι β) :=
  if op.toNat = 3 then x.vmblockInitCpusInts arg1 arg2 answer me
  else if 5 ≤ op.toNat ∨ h2kIdMaxVms ≤ vm.toNat then some (.returned 0, x)
  else
    match x.machine.vmblocks vm.toNat with
    | none => some (.returned 0, x)
    | some b =>
      if 0 < x.kernel.vms.numCpus b then some (.returned 0, x)
      else if x.machine.vmidx (x.machine.vmblock me) ≠ (x.machine.parent b).1 then
        some (.returned 0, x)
      else
        match op.toNat with
        | 0 => some (x.vmblockInitPmapType b arg1 arg2 me)
        | 1 => some (x.vmblockInitSetFences b arg1 arg2)
        | 2 => some (x.vmblockInitPrioTrapmask b arg1 arg2)
        | _ => some (x.vmblockInitMapPhysIntr b arg1 arg2)

/-- **What a call comes to**: nothing; a VM in the block that the allocator answers with; or, for a
VM that the caller has made, its configuration, its best priority, or an interrupt passed
through. -/
theorem trapConfigVmblockInit_cases {x x' : Guests ι β} {me : ι} {e : Exit}
    {vm op arg1 arg2 : BitVec 32} {answer : Option β}
    (hcall : x.trapConfigVmblockInit vm op arg1 arg2 answer me = some (e, x')) :
    x' = x ∨
    (∃ b w config, x.spaces.system.setCpusInts b arg2.toNat me = some (e, w) ∧
      (w = x.spaces.system → config = x.config) ∧ (∀ c, c ≠ b → config c = x.config c) ∧
      x' = { x with spaces := x.spaces.follow (.setCpusInts b arg2.toNat) w, config := config }) ∨
    ∃ b c, (x.machine.parent b).1 = x.machine.vmidx (x.machine.vmblock me) ∧
      (x' = x.setConfig b c ∨
        (∃ p, x' = (x.withMachine { x.machine with
          bestprio := update x.machine.bestprio b p }).setConfig b c) ∨
        op.toNat = 4 ∧ ∃ vmidx cpuidx virtInt, x' =
          (x.setConfig b c).registerPassthru (arg2.toNat / 0x10000) vmidx cpuidx virtInt) := by
  unfold trapConfigVmblockInit at hcall
  split at hcall
  · unfold vmblockInitCpusInts at hcall
    split at hcall
    · exact .inl (by cases hcall; rfl)
    split at hcall
    · exact .inl (by cases hcall; rfl)
    next b =>
    split at hcall
    · simp at hcall
    obtain ⟨⟨e', w⟩, hset, ⟨⟩⟩ := Option.map_eq_some_iff.mp hcall
    refine .inr (.inl ⟨b, w, _, hset, ?_, fun c hc => ?_, rfl⟩)
    · rintro rfl
      exact if_neg fun h => by simp [h.1] at h
    · split
      · exact update_of_ne hc ..
      · rfl
  next hthree =>
  split at hcall
  · exact .inl (by cases hcall; rfl)
  next hop =>
  split at hcall
  · exact .inl (by cases hcall; rfl)
  next b _ =>
  split at hcall
  · exact .inl (by cases hcall; rfl)
  split at hcall
  · exact .inl (by cases hcall; rfl)
  next hparent =>
  have hmade := (not_not.mp hparent).symm
  have hop' : op.toNat = 0 ∨ op.toNat = 1 ∨ op.toNat = 2 ∨ op.toNat = 4 := by omega
  rcases hop' with ho | ho | ho | ho
  all_goals
    rw [ho] at hcall
    obtain rfl := (congrArg Prod.snd (Option.some.inj hcall)).symm
  · unfold vmblockInitPmapType
    dsimp only
    split_ifs
    any_goals exact .inl rfl
    all_goals exact .inr (.inr ⟨b, _, hmade, .inl rfl⟩)
  · unfold vmblockInitSetFences
    dsimp only
    split_ifs
    · exact .inl rfl
    · exact .inr (.inr ⟨b, _, hmade, .inl rfl⟩)
  · unfold vmblockInitPrioTrapmask
    dsimp only
    split_ifs
    · exact .inl rfl
    all_goals exact .inr (.inr ⟨b, _, hmade, .inr (.inl ⟨_, rfl⟩)⟩)
  · unfold vmblockInitMapPhysIntr
    dsimp only
    split_ifs
    · exact .inl rfl
    · exact .inl rfl
    · exact .inr (.inr ⟨b, _, hmade, .inr (.inr ⟨ho, _, _, _, rfl⟩)⟩)

end Guests

end H2
