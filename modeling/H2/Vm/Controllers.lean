import H2.Traps.VmblockLayout
import H2.Vm.Delivery

/-!
# Vm/Controllers — the chain of interrupt controllers

The controllers of a VM stand in a table, and an operation goes along it: to the first that has the
interrupt, or that has one to report.  On the way the number is made smaller by the interrupts
passed, and the offset of what is reported larger.

The chain does what `optab` says (`chain_intinfoInit`), and so every operation reaches the bit that
it names and no other, inside the arrays of the VM (`intop_dispatch`), and what is reported is the
least that is ready (`intop_getPeek`).
-/

namespace H2

open Kernel Function List

variable {ι β : Type} [dι : DecidableEq ι] [dβ : DecidableEq β]

/-! ## The chain -/

/-- What an entry of the table has for `handlers`. -/
inductive Handlers where
  | cpuint
  | shint
  | badint
  deriving DecidableEq

/-- `H2K_vm_int_intinfo_init`. -/
def intinfoInit (numInts : ℕ) : List (ℕ × Handlers) :=
  (percpuInterrupts, .cpuint) ::
    ((if 0 < numInts then [(numInts, .shint)] else []) ++ [(0xffffffff, .badint)])

/-- The loop of `H2K_vm_shint_get` and `H2K_vm_shint_peek`, with `Q6_R_ct0_R` in the first word that
is not zero. -/
def shintScan (ready : ℕ → Bool) (numInts : ℕ) : Option ℕ :=
  (range ((numInts + 31) / 32)).findSome? fun j =>
    ((range 32).find? fun i => ready (32 * j + i)).map (32 * j + ·)

namespace Handlers

/-- What a controller has to report, … -/
def look (M : Machine ι β) (me : ι) (c : Intctl ι β) : Handlers → Option ℕ
  | .cpuint => (range percpuInterrupts).find? (c.cpuReady me)
  | .shint => shintScan (c.sharedReady M me) (M.numInts (M.vmblock me))
  | .badint => none

/-- … and how it is taken. -/
def take (M : Machine ι β) (me : ι) (i : ℕ) (c : Intctl ι β) : Handlers → Intctl ι β
  | .cpuint => { c with
      cpuintPending := update c.cpuintPending me
        (update (c.cpuintPending me) i false)
      cpuintEnabled := update c.cpuintEnabled me
        (update (c.cpuintEnabled me) i false) }
  | .shint => { c with
      enable := update c.enable (M.vmblock me)
        (update (c.enable (M.vmblock me)) i false)
      pending := update c.pending (M.vmblock me)
        (update (c.pending (M.vmblock me)) i false) }
  | .badint => c

/-- `H2K_vm_cpuint_ops`, `H2K_vm_shint_ops` and `H2K_vm_badint_ops`, for an interrupt that the
controller has. -/
def ops (M : Machine ι β) (op : IntopType) (me : ι) (intno : ℕ) (k : Kernel ι β) :
    Handlers → ℤ × Kernel ι β
  | .cpuint => k.cpuintOps M op me intno
  | .shint => k.shintOps M op me intno
  | .badint => (-1, k)

end Handlers

namespace Kernel

/-- `info->handlers->op(vmblock, me, intno, info)`, from an entry of the table on, with the offset
in place of the number for `get` and `peek`.  Nothing comes after the end of the table. -/
def chain (M : Machine ι β) (op : IntopType) (me : ι) :
    List (ℕ × Handlers) → ℕ → Kernel ι β → Option (ℤ × Kernel ι β)
  | [], _, _ => none
  | (_, .badint) :: _, _, k => some (-1, k)
  | (numInts, handlers) :: info, intno, k =>
    match op with
    | .nop => some (0, k)
    | .get =>
      match handlers.look M me k.ints with
      | some i => some (intno + i, { k with ints := handlers.take M me i k.ints })
      | none => chain M op me info (intno + numInts) k
    | .peek =>
      match handlers.look M me k.ints with
      | some i => some (intno + i, k)
      | none => chain M op me info (intno + numInts) k
    | op =>
      -- `CHECK_FOR_CHAIN`
      if numInts ≤ intno then chain M op me info (intno - numInts) k
      else some (handlers.ops M op me intno k)

end Kernel

/-- Word by word is bit by bit. -/
theorem shintScan_eq (ready : ℕ → Bool) (numInts : ℕ) :
    shintScan ready numInts = (range ((numInts + 31) / 32 * 32)).find? ready := by
  unfold shintScan
  generalize (numInts + 31) / 32 = words
  induction words with
  | zero => rfl
  | succ j ih =>
    rw [range_succ (n := j), findSome?_append, ih, Nat.succ_mul, range_add,
      find?_append, find?_map, findSome?_singleton, Nat.mul_comm j]
    rfl

/-- An operation that is for the interrupt with a number. -/
def IntopType.numbered : IntopType → Bool
  | .nop | .get | .peek => false
  | _ => true

theorem optab_of_numbered {M : Machine ι β} {op : IntopType} (hop : op.numbered) (dst : ι) (arg : ℕ)
    (k : Kernel ι β) : k.optab M op dst arg = match M.controller (M.vmblock dst) arg with
      | .cpuint intno => k.cpuintOps M op dst intno
      | .shint intno => k.shintOps M op dst intno
      | .badint => (-1, k) := by
  cases op <;> first | rfl | cases hop

/-- **The chain is the table of operations.** -/
theorem chain_intinfoInit (M : Machine ι β) (op : IntopType) (me : ι) (arg : ℕ) (k : Kernel ι β)
    (harg : op = .get ∨ op = .peek → arg = 0) :
    k.chain M op me (intinfoInit (M.numInts (M.vmblock me))) arg = some (k.optab M op me arg) := by
  have hscan : shintScan (k.ints.sharedReady M me) (M.numInts (M.vmblock me)) =
      (range (Intctl.sharedBits M me)).find? (k.ints.sharedReady M me) := shintScan_eq ..
  have hbits : Intctl.sharedBits M me = (M.numInts (M.vmblock me) + 31) / 32 * 32 := rfl
  cases op with
  | nop => rfl
  | get | peek =>
    rw [harg (by simp)]
    unfold optab Intctl.interruptGet Intctl.interruptPeek intinfoInit
    rcases hcpu : (range percpuInterrupts).find? (k.ints.cpuReady me) with - | i
    · rcases Nat.eq_zero_or_pos (M.numInts (M.vmblock me)) with hn | hn
      · simp [chain, Handlers.look, hcpu, hn, hbits]
      · cases hsh : (range (Intctl.sharedBits M me)).find? (k.ints.sharedReady M me) <;>
          simp [chain, Handlers.look, Handlers.take, hcpu, hn, hscan, hsh]
    · simp [chain, Handlers.look, Handlers.take, hcpu]
  | globen | globdis | locen | locdis | affinity | status | post | clear =>
    unfold intinfoInit optab Machine.controller
    rcases Nat.lt_or_ge arg percpuInterrupts with hcpu | hcpu
    · simp [chain, hcpu, hcpu.not_ge, Handlers.ops]
    · rcases Nat.lt_or_ge (arg - percpuInterrupts) (M.numInts (M.vmblock me)) with hsh | hsh
      · simp [chain, hcpu, hcpu.not_gt, hsh, hsh.not_ge, Nat.zero_lt_of_lt hsh, Handlers.ops]
      · rcases Nat.eq_zero_or_pos (M.numInts (M.vmblock me)) with hn | hn <;>
          simp [chain, hcpu, hcpu.not_gt, hsh, hsh.not_gt, hn]

/-! ## What an operation is for -/

namespace Intctl

/-- The bits of an interrupt of the cpu after an operation, … -/
def opCpu (op : IntopType) (me : ι) (i : ℕ) (c : Intctl ι β) : Intctl ι β :=
  { c with
    cpuintPending := update c.cpuintPending me (update (c.cpuintPending me) i
      (match op with
      | .post => true
      | .clear => false
      | _ => c.cpuintPending me i))
    cpuintEnabled := update c.cpuintEnabled me (update (c.cpuintEnabled me) i
      (match op with
      | .globen => true
      | .globdis => false
      | _ => c.cpuintEnabled me i)) }

/-- … and those of a shared one. -/
def opShared (M : Machine ι β) (op : IntopType) (me : ι) (i : ℕ) (c : Intctl ι β) : Intctl ι β :=
  { c with
    pending := update c.pending (M.vmblock me)
      (update (c.pending (M.vmblock me)) i
        (match op with
        | .post => true
        | .clear => false
        | _ => c.pending (M.vmblock me) i))
    enable := update c.enable (M.vmblock me)
      (update (c.enable (M.vmblock me)) i
        (match op with
        | .globen => true
        | .globdis => false
        | _ => c.enable (M.vmblock me) i))
    percpuMask := fun t =>
      if M.vmblock t = M.vmblock me then update (c.percpuMask t) i
        (match op with
        | .locen => decide (t = me) || c.percpuMask t i
        | .locdis => decide (t ≠ me) && c.percpuMask t i
        | .affinity => decide (t = me)
        | _ => c.percpuMask t i)
      else c.percpuMask t }

end Intctl

section Bits

variable {M : Machine ι β} {k : Kernel ι β} {op : IntopType} {me t : ι} {i intno : ℕ}

theorem vmShintDeliverCpu_ints : (k.vmShintDeliverCpu M t intno).2.ints = k.ints := by
  rw [vmShintDeliverCpu_eq]
  split
  · exact (vmIntDeliverLocked_status ..).1
  · rfl

theorem shintTry_ints (ts : List ι) : (k.shintTry M intno ts).2.ints = k.ints := by
  obtain ⟨tried, -, -, htry⟩ := shintTry_spec M intno ts k
  rw [htry]
  split
  · rfl
  · exact (vmIntDeliverLocked_status ..).1

theorem vmShintDeliver_ints : (k.vmShintDeliver M me intno).ints = k.ints := by
  rw [vmShintDeliver_eq, shintTry_ints]

theorem cpuintOps_ints : (k.cpuintOps M op me i).2.ints = k.ints.opCpu op me i := by
  cases op with
  | globen =>
    simp only [cpuintOps, vmCpuintEnable, Intctl.opCpu, update_eq_self]
    split
    · next hen => simp [← hen]
    · rfl
  | post =>
    simp only [cpuintOps, vmCpuintPostLocked, Intctl.opCpu, update_eq_self]
    split
    · exact (vmIntDeliverLocked_status ..).1
    · rfl
  | globdis | clear =>
    simp [cpuintOps, vmCpuintDisable, vmCpuintClear, Intctl.opCpu]
  | nop | locen | locdis | affinity | get | peek | status => simp [cpuintOps, Intctl.opCpu]

/-- An operation on the masks. -/
theorem eq_opShared {c : Intctl ι β} {m : ι → ℕ → Bool}
    (hop : op = .locen ∨ op = .locdis ∨ op = .affinity)
    (hm : ∀ t j, m t j = (c.opShared M op me i).percpuMask t j) :
    { c with percpuMask := m } = c.opShared M op me i := by
  obtain rfl := funext fun t => funext (hm t)
  rcases hop with rfl | rfl | rfl <;> simp [Intctl.opShared]

theorem vmShintLocalen_ints : (k.vmShintLocalen M me i).ints = { k.ints with
      percpuMask := update k.ints.percpuMask me
        (update (k.ints.percpuMask me) i true) } := by
  unfold vmShintLocalen
  simp only
  split
  · next hmask => simp [← hmask]
  split
  · exact vmShintDeliverCpu_ints
  · rfl

omit dβ in
/-- The loop of `H2K_vm_shint_setaffinity`. -/
theorem foldl_vmShintLocaldis (ts : List ι) :
    (ts.foldl (fun k t => k.vmShintLocaldis t i) k).ints = { k.ints with
      percpuMask := fun t => if t ∈ ts then update (k.ints.percpuMask t) i false
        else k.ints.percpuMask t } := by
  induction ts generalizing k with
  | nil => rfl
  | cons u ts ih =>
    rw [foldl_cons, ih]
    simp only [vmShintLocaldis, setPercpuMask, Intctl.mk.injEq, true_and, and_true]
    funext t
    by_cases hut : t = u <;> simp [hut]

theorem shintOps_ints : (k.shintOps M op me i).2.ints = k.ints.opShared M op me i := by
  cases op with
  | globen =>
    simp only [shintOps, vmShintEnable, Intctl.opShared]
    split
    · next hen => simp [← hen]
    · split
      · rw [vmShintDeliver_ints]
        simp [setEnable]
      · simp [setEnable]
  | post =>
    simp only [shintOps, vmShintPost, Intctl.opShared]
    split
    · next hen => simp [← hen]
    · split
      · rw [vmShintDeliver_ints]
        simp [setPending]
      · simp [setPending]
  | globdis | clear => simp [shintOps, setEnable, setPending, Intctl.opShared]
  | locen =>
    refine vmShintLocalen_ints.trans (eq_opShared (.inl rfl) fun t j => ?_)
    by_cases ht : t = me <;> simp [Intctl.opShared, ht]
  | locdis =>
    refine eq_opShared (.inr (.inl rfl)) fun t j => ?_
    by_cases ht : t = me <;> simp [Intctl.opShared, ht]
  | affinity =>
    refine vmShintLocalen_ints.trans ?_
    rw [foldl_vmShintLocaldis]
    refine eq_opShared (c := k.ints) (.inr (.inr rfl)) fun t j => ?_
    by_cases ht : t = me <;> simp [Intctl.opShared, Machine.mem_contexts, ht]
  | nop | get | peek | status => simp [shintOps, Intctl.opShared]

end Bits

/-! ## What is accessed -/

/-- An access to an array of the VM block. -/
inductive IntAccess where
  | pending (word : ℕ)
  | enable (word : ℕ)
  /-- `percpu_mask[cpu]`, which is a pointer, … -/
  | maskptr (cpu : ℕ)
  /-- … and `percpu_mask[cpu][word]`. -/
  | percpuMask (cpu word : ℕ)
  | intV2p (intno : ℕ)

namespace IntAccess

variable (cpus ints : BitVec 32)

/-- The array, as a part of the VM block, … -/
def piece : IntAccess → Piece
  | .pending _ | .enable _ => ⟨(ints.toNat + 31) / 32 * 4, pendingSpace ints, 4⟩
  | .maskptr _ => ⟨cpus.toNat * 4, maskptrSpace cpus ints, 4⟩
  | .percpuMask .. => ⟨cpus.toNat * ((ints.toNat + 31) / 32) * 4, maskSpace cpus ints, 4⟩
  | .intV2p _ => ⟨(ints.toNat + 16) * 2, physintSpace (ints + 16), 2⟩

/-- … and where in it the access ends.  The masks of a cpu come after those of the cpus before
it. -/
def stop : IntAccess → ℕ
  | .pending word | .enable word => (word + 1) * 4
  | .maskptr cpu => (cpu + 1) * 4
  | .percpuMask cpu word => (cpu * ((ints.toNat + 31) / 32) + word + 1) * 4
  | .intV2p intno => (intno + 1) * 2

/-- The access is to memory of the VM block that is for it. -/
def Inside (a : IntAccess) : Prop :=
  a.piece cpus ints ∈ intPieces cpus ints ∧ a.stop ints ≤ (a.piece cpus ints).bytes

/-- A word of block `b` that is other than before. -/
def Written (M : Machine ι β) (b : β) (c c' : Intctl ι β) : IntAccess → Prop
  | .pending word => ∃ j, j / 32 = word ∧ c'.pending b j ≠ c.pending b j
  | .enable word => ∃ j, j / 32 = word ∧ c'.enable b j ≠ c.enable b j
  | .percpuMask cpu word => ∃ t j, M.vmblock t = b ∧ M.cpuidx t = cpu ∧ j / 32 = word ∧
      c'.percpuMask t j ≠ c.percpuMask t j
  | .maskptr _ | .intV2p _ => False

end IntAccess

/-- What `H2K_vm_shint_deliver_cpu` and its like access of the masks of a cpu. -/
def maskAccesses (M : Machine ι β) (intno : ℕ) (t : ι) : List IntAccess :=
  [.maskptr (M.cpuidx t), .percpuMask (M.cpuidx t) (intno / 32)]

/-- All that a controller may access, whatever is pending or enabled. -/
def Handlers.accesses (M : Machine ι β) (op : IntopType) (me : ι) (intno : ℕ) : Handlers →
    List IntAccess
  | .cpuint => if op = .globen then [.intV2p intno] else []
  | .shint =>
    let all := (M.contexts (M.vmblock me)).flatMap (maskAccesses M intno)
    match op with
    | .globen => .enable (intno / 32) :: .intV2p (intno + 16) :: .pending (intno / 32) :: all
    | .globdis => [.enable (intno / 32)]
    | .locen => .enable (intno / 32) :: .pending (intno / 32) :: maskAccesses M intno me
    | .locdis => maskAccesses M intno me
    | .affinity => .enable (intno / 32) :: .pending (intno / 32) :: all ++ maskAccesses M intno me
    | .get | .peek => .maskptr (M.cpuidx me) ::
      (range ((M.numInts (M.vmblock me) + 31) / 32)).flatMap fun j =>
        [.pending j, .enable j, .percpuMask (M.cpuidx me) j]
    | .status => .pending (intno / 32) :: .enable (intno / 32) :: maskAccesses M intno me
    | .post => .pending (intno / 32) :: .enable (intno / 32) :: all
    | .clear => [.pending (intno / 32)]
    | .nop => []
  | .badint => []

/-- The same along the chain. -/
def chainAccesses (M : Machine ι β) (op : IntopType) (me : ι) : List (ℕ × Handlers) → ℕ →
    List IntAccess
  | [], _ => []
  | (numInts, handlers) :: info, intno =>
    match op with
    | .nop => []
    | .get | .peek => handlers.accesses M op me intno ++
      chainAccesses M op me info (intno + numInts)
    | op =>
      if numInts ≤ intno then chainAccesses M op me info (intno - numInts)
      else handlers.accesses M op me intno

section Accesses

variable {M : Machine ι β} {op : IntopType} {me t : ι} {cpus ints : BitVec 32} {b : β} {word : ℕ}

variable {k k' : Kernel ι β} {a : IntAccess} {intno : ℕ}

/-- **What the shared controller writes** is listed, and of the VM. -/
theorem mem_accesses_of_written (ha : a.Written M b k.ints (k.shintOps M op me intno).2.ints) :
    b = M.vmblock me ∧ a ∈ Handlers.shint.accesses M op me intno := by
  rw [shintOps_ints] at ha
  cases a with
  | pending | enable =>
    obtain ⟨j, rfl, hne⟩ := ha
    cases op <;> simp only [Intctl.opShared, Handlers.accesses] at hne ⊢ <;> grind
  | percpuMask =>
    obtain ⟨t, j, rfl, rfl, rfl, hne⟩ := ha
    have hmask : IntAccess.percpuMask (M.cpuidx t) (j / 32) ∈ maskAccesses M j t := by
      simp [maskAccesses]
    have hvm : M.vmblock t = M.vmblock me :=
      by_contra fun hvm => hne (by simp [Intctl.opShared, hvm])
    obtain rfl : j = intno := by_contra fun hj => hne (by simp [Intctl.opShared, hvm, hj])
    have hctx : t ∈ M.contexts (M.vmblock me) := Machine.mem_contexts.mpr hvm
    refine ⟨hvm, ?_⟩
    by_cases ht : t = me
    · subst ht
      cases op <;> simp [Intctl.opShared, Handlers.accesses, hmask] at hne ⊢
    · cases op <;> simp [Intctl.opShared, Handlers.accesses, hvm, ht] at hne ⊢
      exact .inl ⟨t, hctx, hmask⟩
  | maskptr | intV2p => exact ha.elim

/-- So it is for what the shared controller takes. -/
theorem mem_accesses_of_take {c : Intctl ι β} {i : ℕ} (hi : Handlers.shint.look M me c = some i)
    (ha : a.Written M b c (Handlers.shint.take M me i c)) :
    b = M.vmblock me ∧ a ∈ Handlers.shint.accesses M .get me intno := by
  rw [Handlers.look, shintScan_eq] at hi
  have hword : i / 32 < (M.numInts (M.vmblock me) + 31) / 32 :=
    Nat.div_lt_of_lt_mul (by simpa [Nat.mul_comm] using mem_of_find?_eq_some hi)
  cases a with
  | pending | enable =>
    obtain ⟨j, rfl, hne⟩ := ha
    simp only [Handlers.take, Handlers.accesses] at hne ⊢
    grind
  | percpuMask =>
    obtain ⟨t, j, -, -, -, hne⟩ := ha
    exact absurd rfl hne
  | maskptr | intV2p => exact ha.elim

/-- **What the chain writes** is listed. -/
theorem mem_chainAccesses_of_written {info : List (ℕ × Handlers)} {r : ℤ}
    (hk : k.chain M op me info intno = some (r, k')) (ha : a.Written M b k.ints k'.ints) :
    b = M.vmblock me ∧ a ∈ chainAccesses M op me info intno := by
  have hself : ¬a.Written M b k.ints k.ints := by
    unfold IntAccess.Written
    grind
  have hcpu (op : IntopType) (i : ℕ) : ¬a.Written M b k.ints (k.cpuintOps M op me i).2.ints := by
    rw [cpuintOps_ints]
    exact hself
  have htake (i : ℕ) : ¬a.Written M b k.ints (Handlers.cpuint.take M me i k.ints) := hself
  induction info generalizing intno with
  | nil => cases hk
  | cons entry info ih =>
    obtain ⟨numInts, handlers⟩ := entry
    cases handlers <;> cases op <;> simp only [chain, chainAccesses, Handlers.ops] at hk ⊢ <;>
      grind [mem_accesses_of_written, mem_accesses_of_take]

theorem inside_shared (cpus : BitVec 32) (hpos : 0 < ints.toNat)
    (hword : word < (ints.toNat + 31) / 32) :
    IntAccess.Inside cpus ints (.pending word) ∧ IntAccess.Inside cpus ints (.enable word) := by
  have hlt : 0#32 < ints := BitVec.lt_def.mpr hpos
  constructor <;> exact ⟨by simp [IntAccess.piece, intPieces, hlt], by
    simp only [IntAccess.stop, IntAccess.piece]; omega⟩

theorem inside_mask (hpos : 0 < ints.toNat) (hword : word < (ints.toNat + 31) / 32) {cpu : ℕ}
    (hcpu : cpu < cpus.toNat) : IntAccess.Inside cpus ints (.maskptr cpu) ∧
      IntAccess.Inside cpus ints (.percpuMask cpu word) := by
  have hlt : 0#32 < ints := BitVec.lt_def.mpr hpos
  have hrow : (cpu + 1) * ((ints.toNat + 31) / 32) ≤ cpus.toNat * ((ints.toNat + 31) / 32) :=
    Nat.mul_le_mul_right _ hcpu
  rw [Nat.succ_mul] at hrow
  constructor <;> exact ⟨by simp [IntAccess.piece, intPieces, hlt], by
    simp only [IntAccess.stop, IntAccess.piece]; omega⟩

theorem inside_intV2p (hlt : intno < ints.toNat + 16) :
    IntAccess.Inside cpus ints (.intV2p intno) :=
  ⟨by simp [IntAccess.piece, intPieces], by simp only [IntAccess.stop, IntAccess.piece]; omega⟩

section

omit dι dβ

/-- **The shared controller stays inside**, for an interrupt that it has. -/
theorem inside_of_mem_accesses (hcpus : M.maxCpus (M.vmblock me) = cpus.toNat)
    (hints : M.numInts (M.vmblock me) = ints.toNat) (hpos : 0 < ints.toNat)
    (hintno : op = .get ∨ op = .peek ∨ intno < ints.toNat) :
    ∀ a ∈ Handlers.shint.accesses M op me intno, a.Inside cpus ints := by
  have hcpu (t : ι) (ht : M.vmblock t = M.vmblock me) : M.cpuidx t < cpus.toNat :=
    hcpus ▸ M.context_isSome.mp (Option.isSome_of_mem (M.context_eq_some.mpr ⟨ht, rfl⟩))
  by_cases hscan : op = .get ∨ op = .peek
  · have hfirst : 0 < (ints.toNat + 31) / 32 := by omega
    have hall : ∀ a ∈ Handlers.shint.accesses M .get me intno, a.Inside cpus ints := by
      refine forall_mem_cons.mpr ⟨(inside_mask hpos hfirst (hcpu me rfl)).1, ?_⟩
      simp only [hints, mem_flatMap, mem_range]
      rintro a ⟨j, hj, ha⟩
      have hmask := inside_mask hpos hj (hcpu me rfl)
      have hshared := inside_shared cpus hpos hj
      rcases ha with _ | ⟨_, _ | ⟨_, _ | ⟨_, ⟨⟩⟩⟩⟩
      exacts [hshared.1, hshared.2, hmask.2]
    rcases hscan with rfl | rfl <;> exact hall
  · have hlt : intno < ints.toNat := by tauto
    have hword : intno / 32 < (ints.toNat + 31) / 32 := by omega
    obtain ⟨hpend, hen⟩ := inside_shared cpus hpos hword
    have hmask (t : ι) (ht : M.vmblock t = M.vmblock me) :
        ∀ a ∈ maskAccesses M intno t, a.Inside cpus ints := by
      obtain ⟨hptr, hrow⟩ := inside_mask hpos hword (hcpu t ht)
      simp [maskAccesses, hptr, hrow]
    have hall : ∀ a ∈ (M.contexts (M.vmblock me)).flatMap (maskAccesses M intno),
        a.Inside cpus ints := by
      intro a ha
      obtain ⟨t, ht, ha⟩ := mem_flatMap.mp ha
      exact hmask t (Machine.mem_contexts.mp ht) a ha
    have hv2p : IntAccess.Inside cpus ints (.intV2p (intno + 16)) := inside_intV2p (by omega)
    cases op <;> simp only [Handlers.accesses] <;>
      grind

/-- **The chain stays inside.** -/
theorem inside_of_mem_chainAccesses (hcpus : M.maxCpus (M.vmblock me) = cpus.toNat)
    (hints : M.numInts (M.vmblock me) = ints.toNat) (arg : ℕ) :
    ∀ a ∈ chainAccesses M op me (intinfoInit ints.toNat) arg, a.Inside cpus ints := by
  have hshint {intno : ℕ} (hpos : 0 < ints.toNat)
      (hintno : op = .get ∨ op = .peek ∨ intno < ints.toNat) :
      ∀ a ∈ Handlers.shint.accesses M op me intno, a.Inside cpus ints :=
    inside_of_mem_accesses hcpus hints hpos hintno
  have hcpu (hlt : arg < 16) : ∀ a ∈ Handlers.cpuint.accesses M op me arg, a.Inside cpus ints := by
    have hv2p : IntAccess.Inside cpus ints (.intV2p arg) := inside_intV2p (by omega)
    rw [Handlers.accesses]
    split <;> simp [hv2p]
  have hbad (intno : ℕ) : Handlers.badint.accesses M op me intno = [] := rfl
  have hnone (hop : op = .get ∨ op = .peek) : Handlers.cpuint.accesses M op me arg = [] := by
    rcases hop with rfl | rfl <;> rfl
  by_cases hpos : 0 < ints.toNat <;> cases op <;>
    simp only [intinfoInit, hpos, if_true, if_false, percpuInterrupts, cons_append, nil_append,
      chainAccesses] <;> grind

end

end Accesses

/-- An operation on the masks of the cpus. -/
def IntopType.masks : IntopType → Bool
  | .locen | .locdis | .affinity => true
  | _ => false

/-- **Operations reach the right controller and stay in bounds.** -/
theorem intop_dispatch (M : Machine ι β) (cpus ints : BitVec 32) (dst : ι) (k : Kernel ι β)
    (hcpus : M.maxCpus (M.vmblock dst) = cpus.toNat)
    (hints : M.numInts (M.vmblock dst) = ints.toNat) :
    (∀ op : IntopType, op.numbered → ∀ n : BitVec 32, ∃ r k',
      k.chain M op dst (intinfoInit ints.toNat) n.toNat = some (r, k') ∧
      (∀ me r00 r02, IntopType.ofIndex r00.toNat = some op →
        M.intopsFixups op me n r02 = some (dst, n.toNat) → k.vmtrapIntop M r00 n r02 me = (r, k')) ∧
      if n.toNat < 16 then
        if op.masks then r = -1 ∧ k' = k
        else r = (if op = .status then k.vmCpuintStatus dst n.toNat else 0) ∧
          k' = (k.cpuintOps M op dst n.toNat).2 ∧ k'.ints = k.ints.opCpu op dst n.toNat
      else if n.toNat < 16 + ints.toNat then
        r = (if op = .status then k.vmShintStatus M dst (n.toNat - 16) else 0) ∧
          k' = (k.shintOps M op dst (n.toNat - 16)).2 ∧
          k'.ints = k.ints.opShared M op dst (n.toNat - 16)
      else r = -1 ∧ k' = k) ∧
    ∀ op arg, ∀ a ∈ chainAccesses M op dst (intinfoInit ints.toNat) arg, a.Inside cpus ints := by
  refine ⟨fun op hop n => ⟨(k.optab M op dst n.toNat).1, (k.optab M op dst n.toNat).2, ?_, ?_, ?_⟩,
    fun op arg => inside_of_mem_chainAccesses hcpus hints arg⟩
  · rw [← hints]
    exact chain_intinfoInit M op dst n.toNat k (by rintro (rfl | rfl) <;> cases hop)
  · intro me r00 r02 hindex hfix
    rw [vmtrapIntop, hindex]
    simp only [hfix]
  · have hlocal : op.masks → k.cpuintOps M op dst n.toNat = (-1, k) := by
      cases op <;> first | exact fun _ => rfl | exact nofun
    have hvalue : ¬op.masks → (k.cpuintOps M op dst n.toNat).1 =
        if op = .status then k.vmCpuintStatus dst n.toNat else 0 := by
      cases op <;> first | exact fun _ => rfl | exact fun h => absurd rfl h
    have hshared : (k.shintOps M op dst (n.toNat - 16)).1 =
        if op = .status then k.vmShintStatus M dst (n.toNat - 16) else 0 := by cases op <;> rfl
    have hcpu : (k.cpuintOps M op dst n.toNat).2.ints = _ := cpuintOps_ints
    have hshint : (k.shintOps M op dst (n.toNat - 16)).2.ints = _ := shintOps_ints
    rw [optab_of_numbered hop, Machine.controller, percpuInterrupts]
    grind

/-- Two cpus and 40 shared interrupts. -/
def fortyInts : Machine (Fin 2) Unit := { oneVm 1 with numInts := fun _ => 40 }

theorem intop_dispatch_fortyInts : ∃ k', secondWaits.chain fortyInts .post 0 (intinfoInit 40) 19 =
    some (0, k') ∧ k'.ints = secondWaits.ints.opShared fortyInts .post 0 3 := by
  obtain ⟨r, k', hchain, -, hr, -, hk'⟩ :=
    (intop_dispatch fortyInts 2 40 0 secondWaits rfl rfl).1 .post rfl 19
  exact ⟨k', hchain.trans (by rw [hr]; rfl), hk'⟩

/-! ## What is reported -/

namespace Intctl

/-- Interrupt `n` of the guest is pending and enabled for a cpu, and one of the first shared
interrupts if it is shared. -/
def ReadyBelow (M : Machine ι β) (me : ι) (bits : ℕ) (c : Intctl ι β) (n : ℕ) : Prop :=
  if n < percpuInterrupts then c.cpuReady me n = true
  else n - percpuInterrupts < bits ∧ c.sharedReady M me (n - percpuInterrupts) = true

/-- Interrupt `n` of the guest is pending and enabled for a cpu. -/
def Ready (M : Machine ι β) (me : ι) (c : Intctl ι β) (n : ℕ) : Prop :=
  c.ReadyBelow M me (M.numInts (M.vmblock me)) n

/-- Its pending and enable bits are cleared. -/
def taken (M : Machine ι β) (me : ι) (n : ℕ) (c : Intctl ι β) : Intctl ι β :=
  if n < percpuInterrupts then Handlers.cpuint.take M me n c
  else Handlers.shint.take M me (n - percpuInterrupts) c

/-- No shared interrupt is pending that there is not. -/
def InRange (M : Machine ι β) (c : Intctl ι β) : Prop :=
  ∀ b i, M.numInts b ≤ i → c.pending b i = false

end Intctl

section Reports

variable {M : Machine ι β} {k : Kernel ι β} {c : Intctl ι β} {op : IntopType} {me : ι} {n : ℕ}

/-- **The least that is ready** is reported, by the bits that are searched. -/
theorem interruptGet_spec (M : Machine ι β) (me : ι) (c : Intctl ι β) : ∃ r c',
    c.interruptPeek M me = r ∧ c.interruptGet M me = (r, c') ∧
      (r = -1 ∧ c' = c ∧ (∀ n, ¬c.ReadyBelow M me (Intctl.sharedBits M me) n) ∨
        ∃ n : ℕ, r = n ∧ c' = c.taken M me n ∧
          IsLeast {n | c.ReadyBelow M me (Intctl.sharedBits M me) n} n) := by
  unfold Intctl.interruptPeek Intctl.interruptGet
  rcases hcpu : (range percpuInterrupts).find? (c.cpuReady me) with - | i
  · rw [find?_range_eq_none] at hcpu
    rcases hsh : (range (Intctl.sharedBits M me)).find? (c.sharedReady M me) with - | j
    · rw [find?_range_eq_none] at hsh
      exact ⟨_, _, rfl, rfl, .inl ⟨rfl, rfl, fun n => by grind [Intctl.ReadyBelow]⟩⟩
    · obtain ⟨-, hlt, hleast⟩ := find?_range_eq_some.mp hsh
      refine ⟨_, _, rfl, rfl, .inr ⟨percpuInterrupts + j, by simp, ?_, ?_, fun n hn => ?_⟩⟩
      · simp [Intctl.taken, Handlers.take]
      all_goals grind [Intctl.ReadyBelow]
  · obtain ⟨-, hlt, hleast⟩ := find?_range_eq_some.mp hcpu
    have hlt := mem_range.mp hlt
    refine ⟨_, _, rfl, rfl, .inr ⟨i, rfl, ?_, ?_, fun n hn => ?_⟩⟩
    · simp [Intctl.taken, Handlers.take, hlt]
    all_goals grind [Intctl.ReadyBelow]

omit dι dβ in
/-- Where nothing is pending out of range, the bits searched are those of the interrupts. -/
theorem readyBelow_sharedBits (hc : c.InRange M) :
    c.ReadyBelow M me (Intctl.sharedBits M me) n ↔ c.Ready M me n := by
  have hle : M.numInts (M.vmblock me) ≤ Intctl.sharedBits M me := by
    rw [Intctl.sharedBits]
    omega
  have hout := hc (M.vmblock me) (n - percpuInterrupts)
  unfold Intctl.Ready Intctl.ReadyBelow Intctl.sharedReady
  grind

theorem Intctl.InRange.interruptGet (hc : c.InRange M) : (c.interruptGet M me).2.InRange M := by
  intro b i hi
  have hout := hc b i hi
  obtain ⟨r, c', -, hget, ⟨-, rfl, -⟩ | ⟨n, -, rfl, -⟩⟩ := interruptGet_spec M me c <;> rw [hget]
  · exact hout
  · unfold Intctl.taken Handlers.take
    split
    · exact hout
    · by_cases hb : b = M.vmblock me <;> by_cases hn : i = n - percpuInterrupts <;>
        simp_all

/-- **An operation** makes nothing pending that there is not. -/
theorem Intctl.InRange.vmtrapIntop (hc : k.ints.InRange M) (r00 r01 r02 : BitVec 32) :
    (k.vmtrapIntop M r00 r01 r02 me).2.ints.InRange M := by
  unfold Kernel.vmtrapIntop
  split
  · exact hc
  split
  · exact hc
  next op _ dst arg _ =>
  unfold optab
  split
  · exact hc
  · exact hc.interruptGet
  · exact hc
  · split
    · rw [cpuintOps_ints]
      exact hc
    · next intno hctl =>
      rw [shintOps_ints]
      intro b i hi
      have hout := hc b i hi
      have hlt : intno < M.numInts (M.vmblock dst) := by
        unfold Machine.controller at hctl
        grind
      by_cases hb : b = M.vmblock dst
      · subst hb
        simp [Intctl.opShared, (hlt.trans_le hi).ne', hout]
      · simp [Intctl.opShared, hb, hout]
    · exact hc

end Reports

/-- Operations on interrupts, one after the other. -/
def Kernel.intops (M : Machine ι β) (calls : List (ι × BitVec 32 × BitVec 32 × BitVec 32))
    (k : Kernel ι β) : Kernel ι β :=
  calls.foldl (fun k c => (k.vmtrapIntop M c.2.1 c.2.2.1 c.2.2.2 c.1).2) k

theorem Intctl.InRange.intops {M : Machine ι β} (calls :
    List (ι × BitVec 32 × BitVec 32 × BitVec 32))
    {k : Kernel ι β} (hk : k.ints.InRange M) : (k.intops M calls).ints.InRange M := by
  induction calls generalizing k with
  | nil => exact hk
  | cons c calls ih => exact ih (hk.vmtrapIntop _ _ _)

/-- **Peek and get report the least interrupt that is ready**, after any operations; peek changes
nothing, and get clears the bits of that interrupt. -/
theorem intop_getPeek (M : Machine ι β) (k₀ : Kernel ι β) (hk₀ : k₀.ints.InRange M)
    (calls : List (ι × BitVec 32 × BitVec 32 × BitVec 32)) (me : ι) (r01 r02 : BitVec 32)
    (k : Kernel ι β) (hk : k₀.intops M calls = k) : ∃ r c,
      k.chain M .peek me (intinfoInit (M.numInts (M.vmblock me))) 0 = some (r, k) ∧
      k.vmtrapIntop M 7 r01 r02 me = (r, k) ∧
      k.chain M .get me (intinfoInit (M.numInts (M.vmblock me))) 0 = some
        (r, { k with ints := c }) ∧
      k.vmtrapIntop M 6 r01 r02 me = (r, { k with ints := c }) ∧
      (r = -1 ∧ c = k.ints ∧ (∀ n, ¬k.ints.Ready M me n) ∨
        ∃ n : ℕ, r = n ∧ c = k.ints.taken M me n ∧ IsLeast {n | k.ints.Ready M me n} n) := by
  have hrange : k.ints.InRange M := hk ▸ hk₀.intops calls
  have hpeek := chain_intinfoInit M .peek me 0 k fun _ => rfl
  have hget := chain_intinfoInit M .get me 0 k fun _ => rfl
  obtain ⟨r, c, hp, hg, hspec⟩ := interruptGet_spec M me k.ints
  simp only [readyBelow_sharedBits hrange] at hspec
  refine ⟨r, c, ?_, ?_, ?_, ?_, hspec⟩
  · rw [hpeek, optab, hp]
  · change k.optab M .peek me 0 = _
    rw [optab, hp]
  · rw [hget, optab, hg]
  · change k.optab M .get me 0 = _
    rw [optab, hg]

/-- Shared interrupt 3 is number 19 to the guest. -/
theorem intop_getPeek_fortyInts : ∃ k, secondWaits.intops fortyInts [(0, 9, 19, 0)] = k ∧
    k.vmtrapIntop fortyInts 7 0 0 1 = (19, k) ∧ IsLeast {n | k.ints.Ready fortyInts 1 n} 19 := by
  obtain ⟨r, c, -, hpeek, -, -, hcases⟩ := intop_getPeek fortyInts secondWaits (fun _ _ _ => rfl)
    [(0, 9, 19, 0)] 1 0 0 _ rfl
  have hr : r = 19 := by
    rw [← show ((secondWaits.intops fortyInts [(0, 9, 19, 0)]).vmtrapIntop fortyInts 7 0 0 1).1 =
      19 by
      decide +kernel, hpeek]
  subst hr
  rcases hcases with ⟨hneg, -⟩ | ⟨n, hn, -, hleast⟩
  · cases hneg
  · obtain rfl : n = 19 := by omega
    exact ⟨_, rfl, hpeek, hleast⟩

end H2
