import H2.Traps.VmblockInit

/-!
# Event/Inttab — the handler table under the calls that write it

Four calls of guests write `inthandlers`: waiting for an interrupt, sharing one among the threads of
a VM, registering a fast interrupt, and passing one through to a child.  Waiting refuses an entry
that is in use, and the last call skips most of the kernel's own interrupts; the other two take any
number.

* `write_protected_iff` — a call writes an entry of its own kind, never one of the kernel's, so the
  table stays protected exactly where the index is in range and not the kernel's.
* `inthandlers_protected_iff` — along a whole sequence of calls: each of them must spare the
  kernel's entries.

The calls read the rest of the kernel as it is when they are made, and that may be anything.
-/

namespace H2

open Function

variable {ι β : Type}

/-- `VM_IPI_INT`. -/
def vmIpiInt : ℕ := 0

/-- `RESCHED_INT`. -/
def reschedIntnum : ℕ := 1

/-- `CLUSTER_RESCHED_INT`. -/
def clusterReschedInt : ℕ := 6

/-- An entry of `inthandlers`, of the scheduler's kinds or of the two that it does not handle. -/
inductive IntEntry (ι β : Type) where
  | sched (e : Inthandler ι β)
  /-- `H2K_passthru` with a raw id. -/
  | passthru (id : BitVec 32)
  /-- `H2K_fastint` with the address of the guest's function. -/
  | fastint (handler : BitVec 32)
  deriving DecidableEq

/-- The table, with what fast interrupts run on. -/
structure Inttab (ι β : Type) where
  inthandlers : ℕ → IntEntry ι β
  /-- Set by a write past the end of `inthandlers`; what it clobbers is not modelled. -/
  outOfBounds : Bool
  timerIntnum : ℕ
  fastintGp : BitVec 32
  fastintSsr : BitVec 32
  /-- `context.vmblock` of all `H2K_fastint_contexts`. -/
  fastintVmblock : Option β

/-- The rest of the kernel, as far as the calls read it. -/
structure Around (ι β : Type) where
  machine : Machine ι β
  numCpus : β → ℕ
  /-- `t->vmstatus & H2K_VMSTATUS_VMWORK`. -/
  vmwork : ι → Bool
  gp : ι → BitVec 32
  ssr : ι → BitVec 32

/-- The calls that write the table. -/
inductive IntCall where
  | popupWait (intnum : BitVec 32)
  | intpoolConfigure (intno enable : BitVec 32)
  | registerFastint (whatint handler : BitVec 32)
  /-- `H2K_trap_config_vmblock_init` with `MAP_PHYS_INTR`. -/
  | mapPhysIntr (vm arg1 arg2 : BitVec 32)
  deriving DecidableEq

namespace Inttab

/-- `inthandlers[i] = e`. -/
def write (i : ℕ) (e : IntEntry ι β) (T : Inttab ι β) : Inttab ι β :=
  if i < maxInterrupts then { T with inthandlers := update T.inthandlers i e }
  else { T with outOfBounds := true }

/-- `H2K_intconfig_init`. -/
def intconfigInit (timerIntnum : ℕ) : Inttab ι β where
  inthandlers i := .sched (inthandlersInit timerIntnum i)
  outOfBounds := false
  timerIntnum := timerIntnum
  fastintGp := 0
  fastintSsr := 0
  fastintVmblock := none

/-- What `H2K_popup_wait` does to the table. -/
def popupWait [DecidableEq ι] [DecidableEq β] (a : Around ι β) (me : ι) (intnum : BitVec 32)
    (T : Inttab ι β) : Inttab ι β :=
  if maxInterrupts ≤ intnum.toNat then T
  else if intnum.toNat = l2CoreInterrupt then T
  else if a.vmwork me then T
  else if T.inthandlers intnum.toNat ≠ .sched .null then T
  else T.write intnum.toNat (.sched (.popup me))

/-- `H2K_intpool_configure`. -/
def intpoolConfigure (a : Around ι β) (me : ι) (intno enable : BitVec 32) (T : Inttab ι β) :
    Inttab ι β :=
  if enable ≠ 0 then T.write intno.toNat (.sched (.intpool (a.machine.vmblock me)))
  else T.write intno.toNat (.sched .null)

/-- `H2K_register_fastint`. -/
def registerFastint (a : Around ι β) (me : ι) (whatint handler : BitVec 32) (T : Inttab ι β) :
    Inttab ι β :=
  if handler = 0 then T.write whatint.toNat (.sched .null)
  else
    { T.write whatint.toNat (.fastint handler) with
      fastintGp := a.gp me
      fastintSsr := (a.ssr me &&& 0x00007F00) ||| 0x01880000
      fastintVmblock := some (a.machine.vmblock me) }

/-- `H2K_register_passthru`. -/
def registerPassthru (physint vmidx cpuidx virtInt : ℕ) (T : Inttab ι β) : Inttab ι β :=
  if vmidx = 0 then T.write physint (.sched .null)
  else T.write physint (.passthru (BitVec.ofNat 32 (vmidx * 0x4000000 + cpuidx * 0x400 +
    if virtInt < 0x400 then virtInt else 0)))

/-- What `H2K_config_vmblock_init_map_phys_intr` does to the table. -/
def initMapPhysIntr (a : Around ι β) (b : β) (arg1 arg2 : BitVec 32) (T : Inttab ι β) :
    Inttab ι β :=
  let physint := arg2.toNat / 0x10000
  let cpuidx := arg2.toNat % 0x10000
  let virtInt := arg1.toNat
  if a.machine.numInts b + percpuInterrupts ≤ virtInt ∨ maxInterrupts ≤ physint ∨
      a.machine.maxCpus b ≤ cpuidx then T
  else if physint = reschedIntnum ∨ physint = vmIpiInt ∨ virtInt = timeGuestint ∨
      physint = T.timerIntnum ∨ physint = l2CoreInterrupt ∨ virtInt = 0 then T
  else T.registerPassthru physint (a.machine.vmidx b) cpuidx virtInt

/-- What `H2K_trap_config_vmblock_init` does to the table, for `MAP_PHYS_INTR`. -/
def vmblockInit (a : Around ι β) (me : ι) (vm arg1 arg2 : BitVec 32) (T : Inttab ι β) :
    Inttab ι β :=
  if h2kIdMaxVms ≤ vm.toNat then T
  else
    match a.machine.vmblocks vm.toNat with
    | none => T
    | some b =>
      if 0 < a.numCpus b then T
      else if a.machine.vmidx (a.machine.vmblock me) ≠ (a.machine.parent b).1 then T
      else T.initMapPhysIntr a b arg1 arg2

variable [DecidableEq ι] [DecidableEq β]

/-- A call by a thread, with the rest of the kernel at that time. -/
def step (T : Inttab ι β) : Around ι β × ι × IntCall → Inttab ι β
  | (a, me, .popupWait intnum) => T.popupWait a me intnum
  | (a, me, .intpoolConfigure intno enable) => T.intpoolConfigure a me intno enable
  | (a, me, .registerFastint whatint handler) => T.registerFastint a me whatint handler
  | (a, me, .mapPhysIntr vm arg1 arg2) => T.vmblockInit a me vm arg1 arg2

/-- A sequence of calls. -/
def run (T : Inttab ι β) (calls : List (Around ι β × ι × IntCall)) : Inttab ι β :=
  calls.foldl step T

/-! ## The kernel's own entries -/

/-- The interrupts the kernel handles itself. -/
def Own (timerIntnum i : ℕ) : Prop :=
  i = reschedIntnum ∨ i = clusterReschedInt ∨ i = vmIpiInt ∨ i = timerIntnum

/-- **A protected table**: all writes were inside it, and the kernel's own entries are what the
kernel installed. -/
structure Protected (T : Inttab ι β) : Prop where
  inBounds : T.outOfBounds = false
  own : ∀ i, Own T.timerIntnum i →
    T.inthandlers i = .sched (inthandlersInit T.timerIntnum i)

end Inttab

/-- An entry of the kernel's own. -/
def IntEntry.ofKernel : IntEntry ι β → Bool
  | .sched .resched | .sched .reschedCluster | .sched .vmIpi | .sched .timer => true
  | _ => false

namespace Inttab

variable {T : Inttab ι β}

/-- What the kernel installs for its own interrupts is its own. -/
theorem ofKernel_inthandlersInit {timerIntnum i : ℕ} (hi : Own timerIntnum i) :
    (IntEntry.sched (inthandlersInit timerIntnum i) : IntEntry ι β).ofKernel = true := by
  unfold inthandlersInit
  split
  · rfl
  · next hne =>
    rcases hi with rfl | rfl | rfl | hi
    · rfl
    · rfl
    · rfl
    · exact absurd hi hne

theorem intconfigInit_protected (timerIntnum : ℕ) :
    (intconfigInit timerIntnum : Inttab ι β).Protected := ⟨rfl, fun _ _ => rfl⟩

@[simp] theorem write_timerIntnum (i : ℕ) (e : IntEntry ι β) (T : Inttab ι β) :
    (T.write i e).timerIntnum = T.timerIntnum := by
  unfold write
  split <;> rfl

theorem write_self {i : ℕ} (hi : i < maxInterrupts) (e : IntEntry ι β) (T : Inttab ι β) :
    (T.write i e).inthandlers i = e := by
  rw [write, if_pos hi]
  exact update_self ..

theorem write_of_ne {i j : ℕ} (hne : j ≠ i) (e : IntEntry ι β) (T : Inttab ι β) :
    (T.write i e).inthandlers j = T.inthandlers j := by
  unfold write
  split
  · exact update_of_ne hne _ _
  · rfl

theorem write_outOfBounds (i : ℕ) (e : IntEntry ι β) (T : Inttab ι β) :
    (T.write i e).outOfBounds = false ↔ T.outOfBounds = false ∧ i < maxInterrupts := by
  unfold write
  split <;> simp_all

theorem protected_congr {T' : Inttab ι β} (hhandlers : T'.inthandlers = T.inthandlers)
    (hbounds : T'.outOfBounds = T.outOfBounds) (htimer : T'.timerIntnum = T.timerIntnum) :
    T'.Protected ↔ T.Protected := by
  obtain ⟨_, _, _, _, _, _⟩ := T
  cases hhandlers
  cases hbounds
  cases htimer
  exact ⟨fun h => ⟨h.inBounds, h.own⟩, fun h => ⟨h.inBounds, h.own⟩⟩

theorem Protected.ofKernel {i : ℕ} (hT : T.Protected) (hi : Own T.timerIntnum i) :
    (T.inthandlers i).ofKernel = true := by
  rw [hT.own i hi]
  exact ofKernel_inthandlersInit hi

/-- **Writing an entry that is not the kernel's**: it has to be in range and of no interrupt of the
kernel's own.  No later write repairs the table. -/
theorem write_protected_iff {i : ℕ} {e : IntEntry ι β} (he : e.ofKernel = false) :
    (T.write i e).Protected ↔ T.Protected ∧ i < maxInterrupts ∧ ¬ Own T.timerIntnum i := by
  constructor
  · intro hw
    obtain ⟨hin, hlt⟩ := (write_outOfBounds i e T).mp hw.inBounds
    have hi : ¬ Own T.timerIntnum i := by
      intro hi
      have h := hw.ofKernel ((write_timerIntnum i e T).symm ▸ hi)
      rw [write_self hlt, he] at h
      exact Bool.false_ne_true h
    refine ⟨⟨hin, fun j hj => ?_⟩, hlt, hi⟩
    have hne : j ≠ i := fun h => hi (h ▸ hj)
    have h := hw.own j ((write_timerIntnum i e T).symm ▸ hj)
    rwa [write_of_ne hne, write_timerIntnum] at h
  · rintro ⟨hT, hlt, hi⟩
    refine ⟨(write_outOfBounds i e T).mpr ⟨hT.inBounds, hlt⟩, fun j hj => ?_⟩
    rw [write_timerIntnum] at hj ⊢
    have hne : j ≠ i := fun h => hi (h ▸ hj)
    rw [write_of_ne hne]
    exact hT.own j hj

/-! ## One call -/

/-- Waiting is safe: only an empty entry is taken, and the kernel's own are not empty. -/
theorem popupWait_protected_iff [DecidableEq ι] [DecidableEq β] (a : Around ι β) (me : ι)
    (intnum : BitVec 32) : (T.popupWait a me intnum).Protected ↔ T.Protected := by
  unfold popupWait
  split_ifs with hmax hl2 hwork hused
  · rfl
  · rfl
  · rfl
  · rfl
  · rw [write_protected_iff rfl]
    refine ⟨And.left, fun hT => ⟨hT, by omega, fun hown => ?_⟩⟩
    have h := hT.ofKernel hown
    rw [not_not.mp hused] at h
    exact Bool.false_ne_true h

theorem intpoolConfigure_protected_iff (a : Around ι β) (me : ι) (intno enable : BitVec 32) :
    (T.intpoolConfigure a me intno enable).Protected ↔
      T.Protected ∧ intno.toNat < maxInterrupts ∧ ¬ Own T.timerIntnum intno.toNat := by
  unfold intpoolConfigure
  split <;> exact write_protected_iff rfl

theorem registerFastint_protected_iff (a : Around ι β) (me : ι) (whatint handler : BitVec 32) :
    (T.registerFastint a me whatint handler).Protected ↔
      T.Protected ∧ whatint.toNat < maxInterrupts ∧ ¬ Own T.timerIntnum whatint.toNat := by
  unfold registerFastint
  split_ifs with hnull
  · exact write_protected_iff rfl
  · have hwrite : (T.write whatint.toNat (.fastint handler)).Protected ↔ _ :=
      write_protected_iff rfl
    rw [← hwrite]
    exact protected_congr rfl rfl rfl

theorem registerPassthru_protected_iff (physint vmidx cpuidx virtInt : ℕ) :
    (T.registerPassthru physint vmidx cpuidx virtInt).Protected ↔
      T.Protected ∧ physint < maxInterrupts ∧ ¬ Own T.timerIntnum physint := by
  unfold registerPassthru
  split <;> exact write_protected_iff rfl

/-- The caller may set up the VM of an index: its parent, as long as it does not run. -/
structure MaySetUp (a : Around ι β) (me : ι) (vm : BitVec 32) (b : β) : Prop where
  index : vm.toNat < h2kIdMaxVms
  block : a.machine.vmblocks vm.toNat = some b
  idle : a.numCpus b = 0
  parent : a.machine.vmidx (a.machine.vmblock me) = (a.machine.parent b).1

/-- **A call that spares the kernel's entries**: the number is in range and not the kernel's, or the
call looks at that itself.  Passing through looks at all but `CLUSTER_RESCHED_INT`. -/
def Spares (timerIntnum : ℕ) : Around ι β × ι × IntCall → Prop
  | (_, _, .popupWait _) => True
  | (_, _, .intpoolConfigure intno _) => intno.toNat < maxInterrupts ∧ ¬ Own timerIntnum intno.toNat
  | (_, _, .registerFastint whatint _) =>
    whatint.toNat < maxInterrupts ∧ ¬ Own timerIntnum whatint.toNat
  | (a, me, .mapPhysIntr vm arg1 arg2) =>
    ∀ b, MaySetUp a me vm b → arg1.toNat < a.machine.numInts b + percpuInterrupts →
      arg1.toNat ≠ 0 → arg1.toNat ≠ timeGuestint → arg2.toNat % 0x10000 < a.machine.maxCpus b →
      clusterReschedInt ≠ timerIntnum → arg2.toNat / 0x10000 ≠ clusterReschedInt

/-- Which of the kernel's own interrupts passing through does not skip. -/
theorem own_iff_of_not_skipped {timerIntnum physint : ℕ} (hresched : physint ≠ reschedIntnum)
    (hipi : physint ≠ vmIpiInt) (htimer : physint ≠ timerIntnum) :
    Own timerIntnum physint ↔ physint = clusterReschedInt := by
  simp only [Own, hresched, hipi, htimer, or_false, false_or]

theorem initMapPhysIntr_protected_iff (a : Around ι β) (b : β) (arg1 arg2 : BitVec 32) :
    (T.initMapPhysIntr a b arg1 arg2).Protected ↔ T.Protected ∧
      (arg1.toNat < a.machine.numInts b + percpuInterrupts → arg1.toNat ≠ 0 →
        arg1.toNat ≠ timeGuestint → arg2.toNat % 0x10000 < a.machine.maxCpus b →
        clusterReschedInt ≠ T.timerIntnum → arg2.toNat / 0x10000 ≠ clusterReschedInt) := by
  simp only [initMapPhysIntr]
  split_ifs with hbad hskip
  · refine (and_iff_left ?_).symm
    have : clusterReschedInt < maxInterrupts := by decide
    omega
  · refine (and_iff_left ?_).symm
    rintro - hzero hguest - htimer hphys
    rw [hphys] at hskip
    have hresched : clusterReschedInt ≠ reschedIntnum := by decide
    have hipi : clusterReschedInt ≠ vmIpiInt := by decide
    have hl2 : clusterReschedInt ≠ l2CoreInterrupt := by decide
    simp only [hresched, hipi, hguest, htimer, hl2, hzero, or_self] at hskip
  · simp only [not_or, not_le] at hbad hskip
    obtain ⟨hvirt, hphys, hcpu⟩ := hbad
    obtain ⟨hresched, hipi, hguest, htimer, -, hzero⟩ := hskip
    rw [registerPassthru_protected_iff, own_iff_of_not_skipped hresched hipi htimer]
    refine and_congr_right fun _ => ⟨fun h _ _ _ _ _ => h.2, fun h => ⟨hphys, fun heq => ?_⟩⟩
    exact h hvirt hzero hguest hcpu (heq ▸ htimer) heq

theorem vmblockInit_protected_iff (a : Around ι β) (me : ι) (vm arg1 arg2 : BitVec 32) :
    (T.vmblockInit a me vm arg1 arg2).Protected ↔
      T.Protected ∧ Spares T.timerIntnum (a, me, .mapPhysIntr vm arg1 arg2) := by
  have hvoid : (∀ b, ¬ MaySetUp a me vm b) →
      (T.Protected ↔ T.Protected ∧ Spares T.timerIntnum (a, me, .mapPhysIntr vm arg1 arg2)) :=
    fun h => (and_iff_left fun b hb => absurd hb (h b)).symm
  unfold vmblockInit
  split_ifs with hvm
  · exact hvoid fun b hb => hvm.not_gt hb.index
  · rcases hblock : a.machine.vmblocks vm.toNat with - | b
    · refine hvoid fun b hb => ?_
      exact Option.some_ne_none b (hb.block.symm.trans hblock)
    · dsimp only
      have hsame : ∀ {b'}, MaySetUp a me vm b' → b' = b := fun hb' =>
        Option.some.inj (hb'.block.symm.trans hblock)
      split_ifs with hruns hparent
      · exact hvoid fun b' hb' => hruns.ne' (hsame hb' ▸ hb'.idle)
      · exact hvoid fun b' hb' => hparent (hsame hb' ▸ hb'.parent)
      · rw [initMapPhysIntr_protected_iff]
        refine and_congr_right fun _ => ⟨fun h b' hb' => hsame hb' ▸ h, fun h => h b ?_⟩
        exact ⟨by omega, hblock, by omega, not_not.mp hparent⟩

/-! ## Sequences of calls -/

section Run

variable [DecidableEq ι] [DecidableEq β]

theorem step_protected_iff (c : Around ι β × ι × IntCall) :
    (T.step c).Protected ↔ T.Protected ∧ Spares T.timerIntnum c := by
  obtain ⟨a, me, c⟩ := c
  cases c with
  | popupWait intnum =>
    exact (popupWait_protected_iff a me intnum).trans (and_iff_left trivial).symm
  | intpoolConfigure intno enable => exact intpoolConfigure_protected_iff a me intno enable
  | registerFastint whatint handler => exact registerFastint_protected_iff a me whatint handler
  | mapPhysIntr vm arg1 arg2 => exact vmblockInit_protected_iff a me vm arg1 arg2

theorem step_timerIntnum (c : Around ι β × ι × IntCall) :
    (T.step c).timerIntnum = T.timerIntnum := by
  obtain ⟨a, me, c⟩ := c
  cases c with
  | popupWait intnum =>
    simp only [step, popupWait]
    split_ifs <;> simp
  | intpoolConfigure intno enable =>
    simp only [step, intpoolConfigure]
    split_ifs <;> simp
  | registerFastint whatint handler =>
    simp only [step, registerFastint]
    split_ifs <;> simp
  | mapPhysIntr vm arg1 arg2 =>
    simp only [step, vmblockInit, initMapPhysIntr, registerPassthru]
    repeat' split
    all_goals simp

/-- A sequence of calls leaves a protected table exactly where it found one and each call spares the
kernel's entries. -/
theorem run_protected_iff (calls : List (Around ι β × ι × IntCall)) :
    (T.run calls).Protected ↔ T.Protected ∧ ∀ c ∈ calls, Spares T.timerIntnum c := by
  induction calls generalizing T with
  | nil => simp [run]
  | cons c calls ih =>
    have hrest : (T.run (c :: calls)).Protected ↔ ((T.step c).run calls).Protected := Iff.rfl
    rw [hrest, ih, step_protected_iff, step_timerIntnum, List.forall_mem_cons, and_assoc]

/-- **The handler table along sequences of calls.**  From a protected table — the one the kernel
installs is — every write stays inside the table and the kernel's own entries stand, all along a
sequence of calls of any threads, exactly where each call spares the kernel's entries. -/
theorem inthandlers_protected_iff (hT : T.Protected) (calls : List (Around ι β × ι × IntCall)) :
    (∀ made, made <+: calls → (T.run made).Protected) ↔ ∀ c ∈ calls, Spares T.timerIntnum c := by
  constructor
  · intro h
    exact ((run_protected_iff calls).mp (h calls (List.prefix_refl _))).2
  · intro h made hmade
    exact (run_protected_iff made).mpr ⟨hT, fun c hc => h c (hmade.subset hc)⟩

end Run

/-- VM 1 with two cpus, running, and VM 2 with one, which VM 1 made and has not booted. -/
def unbooted : Around (Fin 3) Bool where
  machine :=
    { twoBlocks with
      vmblocks := fun i => if i = 1 then some false else if i = 2 then some true else none
      vmidx := fun b => if b then 2 else 1
      parent := fun b => if b then (1, 0) else (0, 0) }
  numCpus b := if b then 0 else 2
  vmwork _ := false
  gp _ := 0
  ssr _ := 0

/-- A thread shares interrupt 40 and passes interrupt 41 through; another one tries to wait for
`RESCHED_INT`, and waits for interrupt 42. -/
theorem inthandlers_protected_of_sparing :
    let calls : List (Around (Fin 3) Bool × Fin 3 × IntCall) :=
      [(unbooted, 0, .intpoolConfigure 40 1), (unbooted, 0, .mapPhysIntr 2 5 0x290000),
        (unbooted, 1, .popupWait 1), (unbooted, 1, .popupWait 42)]
    ∀ made, made <+: calls → ((intconfigInit 34).run made).Protected := by
  intro calls
  refine (inthandlers_protected_iff (intconfigInit_protected 34) calls).mpr fun c hc => ?_
  simp only [calls, List.mem_cons, List.not_mem_nil, or_false] at hc
  rcases hc with rfl | rfl | rfl | rfl
  · simp [Spares, Own, intconfigInit, maxInterrupts, reschedIntnum, clusterReschedInt, vmIpiInt]
  · intro b _ _ _ _ _ _
    simp [clusterReschedInt]
  all_goals trivial

/-- **What gets through**: sharing takes any number and writes past the table, or empties the entry
of `RESCHED_INT`; a fast interrupt replaces the timer's; and passing through replaces that of
`CLUSTER_RESCHED_INT`. -/
theorem inthandlers_overwritten : let T : Inttab (Fin 3) Bool := intconfigInit 34
    (T.step (unbooted, 0, .intpoolConfigure 0xffffffff 1)).outOfBounds = true ∧
      (T.step (unbooted, 0, .intpoolConfigure 1 0)).inthandlers reschedIntnum = .sched .null ∧
      (T.step (unbooted, 0, .registerFastint 34 0x1000)).inthandlers T.timerIntnum =
        .fastint 0x1000 ∧
      (T.step (unbooted, 0, .mapPhysIntr 2 5 0x60000)).inthandlers clusterReschedInt =
        .passthru 0x8000005 := by
  decide +kernel

end Inttab

end H2
