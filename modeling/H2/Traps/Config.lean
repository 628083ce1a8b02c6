import H2.Kernel.Moves
import H2.Machinery.Leads

/-!
# Traps/Config — VMs come and go

`SET_CPUS_INTS` takes a block from the allocator, clears it and puts it in the first empty slot of
the table; its contexts go on its free list.  `vmop_free` returns a block and empties its slot; so
does the last thread of a VM whose parent is dead, but for the slot.

Here the memory is a set of blocks, each with its contexts, and the allocator may hand out any that
is not allocated.
-/

namespace H2

open Function

open Option (bind_eq_some_iff map_eq_some_iff some)

variable {ι β : Type} [dι : DecidableEq ι] [dβ : DecidableEq β]

/-- `H2K_ID_MAX_CPUS`. -/
def h2kIdMaxCpus : ℕ := 65536

/-- `MAX_VM_INTS`. -/
def maxVmInts : ℕ := 65535

/-- What `SET_CPUS_INTS` writes to a block besides its contexts: its slot, the thread that made it
and the number of its interrupts; its best priority is that of cleared memory. -/
def Machine.install (b : β) (slot : ℕ) (parent : ℕ × ℕ) (numInts : ℕ) (M : Machine ι β) :
    Machine ι β :=
  { M with
    vmblocks := update M.vmblocks slot (some b)
    vmidx := update M.vmidx b slot
    parent := update M.parent b parent
    bestprio := update M.bestprio b 0
    numInts := update M.numInts b numInts }

/-- The boot VM alone, in slot 1, with no parent. -/
def Machine.alone (bootvm : β) (M : Machine ι β) : Machine ι β :=
  { M with
    vmblocks := update (fun _ => none) 1 (some bootvm)
    vmidx := update M.vmidx bootvm 1
    parent := update M.parent bootvm (0, 0) }

/-- `vmblocks[vm] = NULL`. -/
def Machine.vacate (vm : ℕ) (M : Machine ι β) : Machine ι β :=
  { M with vmblocks := update M.vmblocks vm none }

namespace Sched

/-- Clear the contexts and the list heads in a block. -/
def bzero (M : Machine ι β) (b : β) (s : Sched ι β) : Sched ι β :=
  { s with
    rings :=
      { links :=
          { next := fun t => if M.vmblock t = b then none else s.rings.links.next t
            prev := fun t => if M.vmblock t = b then none else s.rings.links.prev t }
        head := update s.rings.head (.intpool b) none }
    status := fun t => if M.vmblock t = b then .dead else s.status t
    prio := fun t => if M.vmblock t = b then 0 else s.prio t
    hthread := fun t => if M.vmblock t = b then 0 else s.hthread t
    futexPtr := fun t => if M.vmblock t = b then 0 else s.futexPtr t
    r00 := fun t => if M.vmblock t = b then 0 else s.r00 t
    freeThreads := update s.freeThreads b none }

/-- The loop over the contexts of a new block. -/
def initContexts (M : Machine ι β) (b : β) (s : Sched ι β) : Sched ι β :=
  (M.contexts b).foldl (fun s t => (s.contextClear t).freePush b t) s

end Sched

/-- `H2K_bzero` of a block. -/
def Kernel.bzero (M : Machine ι β) (b : β) (k : Kernel ι β) : Kernel ι β :=
  { k with
    sched := k.sched.bzero M b
    ints :=
      { cpuintPending := fun t i => !decide (M.vmblock t = b) && k.ints.cpuintPending t i
        cpuintEnabled := fun t i => !decide (M.vmblock t = b) && k.ints.cpuintEnabled t i
        pending := update k.ints.pending b fun _ => false
        enable := update k.ints.enable b fun _ => false
        percpuMask := fun t i => !decide (M.vmblock t = b) && k.ints.percpuMask t i
        intpoolPending := update k.ints.intpoolPending b fun _ => false
        intpoolAnypending := update k.ints.intpoolAnypending b false }
    cluster := { k.cluster with
      ctx := fun t => if M.vmblock t = b then (false, false, false) else k.cluster.ctx t }
    threads :=
      { basePrio := fun t => if M.vmblock t = b then 0 else k.threads.basePrio t
        vmwork := fun t => !decide (M.vmblock t = b) && k.threads.vmwork t
        kill := fun t => !decide (M.vmblock t = b) && k.threads.kill t
        ie := fun t => !decide (M.vmblock t = b) && k.threads.ie t
        gevb := fun t => if M.vmblock t = b then 0 else k.threads.gevb t }
    vms := { k.vms with
      numCpus := update k.vms.numCpus b 0
      status := update k.vms.status b 0
      waitingCpus := update k.vms.waitingCpus b 0 } }

/-- The kernel with its VM blocks, and those the allocator has handed out. -/
structure System (ι β : Type) where
  machine : Machine ι β
  kernel : Kernel ι β
  allocated : β → Bool

/-- A step of one hardware thread: one of the kernel, or a trap that sets up or frees a block. -/
inductive SysOp (ι β : Type) where
  | kernel (op : Op ι β)
  /-- The allocator answers with block `b`. -/
  | setCpusInts (b : β) (numInts : ℕ)
  | vmopFree (vm : ℕ)

namespace System

/-- The first empty slot. -/
def freeSlot (w : System ι β) : Option ℕ :=
  (List.range h2kIdMaxVms).find? fun i => i != 0 && (w.machine.vmblocks i).isNone

/-- The block is cleared, put in slot `i` and set up. -/
def install (b : β) (i numInts : ℕ) (me : ι) (w : System ι β) : System ι β :=
  let M := w.machine
  let k := w.kernel.bzero M b
  { machine := M.install b i (M.vmidx (M.vmblock me), M.cpuidx me) numInts
    kernel := { k with
      sched := k.sched.initContexts M b
      vms := { k.vms with freed := update k.vms.freed b false } }
    allocated := update w.allocated b true }

/-- `H2K_config_vmblock_init_cpus_ints`, given a block that is not allocated. -/
def setCpusInts (b : β) (numInts : ℕ) (me : ι) (w : System ι β) : Option (Exit × System ι β) :=
  if h2kIdMaxCpus < w.machine.maxCpus b ∨ maxVmInts < numInts then some (.returned 0, w)
  else if w.allocated b then none
  else
    match w.freeSlot with
    -- the block goes back, and what it holds is of no account
    | none => some (.returned 0, w)
    | some i => some (.returned i, w.install b i numInts me)

/-- `H2K_vmop_free`. -/
def vmopFree (vm : ℕ) (me : ι) (w : System ι β) : Option (Exit × System ι β) :=
  let M := w.machine
  if h2kIdMaxVms ≤ vm then some (.returned (-1), w)
  else
    match M.vmblocks vm with
    | none => some (.returned (-1), w)
    | some b =>
      if M.vmidx (M.vmblock me) ≠ (M.parent b).1 ∨ 0 < w.kernel.vms.numCpus b then
        some (.returned (-1), w)
      else some (.returned 0,
        { w with machine := M.vacate vm, allocated := update w.allocated b false })

variable [fι : Fintype ι]

/-- One step.  A block the kernel has freed is the allocator's again. -/
def exec (h : ℕ) (op : SysOp ι β) (w : System ι β) : Option (Exit × System ι β) :=
  match op with
  | .kernel op =>
    (w.kernel.exec w.machine h op).map fun p =>
      (p.1, { w with kernel := p.2, allocated := fun b => w.allocated b && !p.2.vms.freed b })
  | .setCpusInts b numInts =>
    if w.kernel.enabled h (.trap .yield) then
      (w.kernel.hw.sgp h).bind fun me => w.setCpusInts b numInts me
    else none
  | .vmopFree vm =>
    if w.kernel.enabled h (.trap .yield) then (w.kernel.hw.sgp h).bind fun me => w.vmopFree vm me
    else none

/-- The boot VM gets going, and there is no other. -/
def boot (M : Machine ι β) (timerIntnum : ℕ) (mask : BitVec 32) (cluster : Cluster ι) (bootvm : β) :
    Option (Exit × System ι β) :=
  (Kernel.boot (M.alone bootvm) timerIntnum mask cluster bootvm).map fun p =>
    (p.1,
      { machine := M.alone bootvm
        kernel := p.2
        allocated := fun b => b == bootvm && !p.2.vms.freed b })

/-- A step of a hardware thread, whatever it returns. -/
def step (a : ℕ × SysOp ι β) (w : System ι β) : Option (System ι β) :=
  (w.exec a.1 a.2).map Prod.snd

end System

/-! ## Setting up a block -/

section Setup

variable {M : Machine ι β} {s : Sched ι β} {b : β}

section

omit dι dβ

/-- Where threads are depends on which blocks they belong to, and on nothing else about VMs. -/
theorem Placed.of_vmblock {M' : Machine ι β} (hs : Placed M s) (hvm : M'.vmblock = M.vmblock) :
    Placed M' s := by
  have hplace : s.place M' = s.place M := by
    unfold Sched.place
    rw [hvm]
  refine ⟨?_, hs.prios⟩
  rw [hplace]
  exact hs.holds

theorem Machine.nodup_contexts (M : Machine ι β) (b : β) : (M.contexts b).Nodup := by
  refine List.Nodup.filterMap (fun i j t hi hj => ?_) List.nodup_range
  rw [Option.mem_def, M.context_eq_some] at hi hj
  exact hi.2.symm.trans hj.2

end

/-- Only contexts of `T` have been written, and the free list of one VM. -/
structure Rewrites (T : ι → Prop) (b : β) (s s' : Sched ι β) : Prop where
  next : ∀ t, ¬T t → s'.rings.links.next t = s.rings.links.next t
  prev : ∀ t, ¬T t → s'.rings.links.prev t = s.rings.links.prev t
  status : ∀ t, ¬T t → s'.status t = s.status t
  prio : ∀ t, ¬T t → s'.prio t = s.prio t
  hthread : ∀ t, ¬T t → s'.hthread t = s.hthread t
  futexPtr : ∀ t, ¬T t → s'.futexPtr t = s.futexPtr t
  r00 : ∀ t, ¬T t → s'.r00 t = s.r00 t
  head : s'.rings.head = s.rings.head
  freeThreads : ∀ b', b' ≠ b → s'.freeThreads b' = s.freeThreads b'
  runlist : s'.runlist = s.runlist
  runlistPrios : s'.runlistPrios = s.runlistPrios
  readyValids : s'.readyValids = s.readyValids
  inthandlers : s'.inthandlers = s.inthandlers
  outOfBounds : s'.outOfBounds = s.outOfBounds

section

omit dι dβ

theorem Rewrites.refl (T : ι → Prop) (b : β) (s : Sched ι β) : Rewrites T b s s := by
  constructor <;> intros <;> rfl

theorem Rewrites.trans {T : ι → Prop} {s' s'' : Sched ι β} (h : Rewrites T b s s')
    (h' : Rewrites T b s' s'') : Rewrites T b s s'' where
  next t ht := (h'.next t ht).trans (h.next t ht)
  prev t ht := (h'.prev t ht).trans (h.prev t ht)
  status t ht := (h'.status t ht).trans (h.status t ht)
  prio t ht := (h'.prio t ht).trans (h.prio t ht)
  hthread t ht := (h'.hthread t ht).trans (h.hthread t ht)
  futexPtr t ht := (h'.futexPtr t ht).trans (h.futexPtr t ht)
  r00 t ht := (h'.r00 t ht).trans (h.r00 t ht)
  head := h'.head.trans h.head
  freeThreads b' hb := (h'.freeThreads b' hb).trans (h.freeThreads b' hb)
  runlist := h'.runlist.trans h.runlist
  runlistPrios := h'.runlistPrios.trans h.runlistPrios
  readyValids := h'.readyValids.trans h.readyValids
  inthandlers := h'.inthandlers.trans h.inthandlers
  outOfBounds := h'.outOfBounds.trans h.outOfBounds

end

theorem rewrites_freePush {T : ι → Prop} {t : ι} (ht : T t) (s : Sched ι β) :
    Rewrites T b s ((s.contextClear t).freePush b t) := by
  have hne {u : ι} (hu : ¬T u) : u ≠ t := fun e => hu (e ▸ ht)
  constructor
  case freeThreads => exact fun b' hb => by simp [Sched.freePush, Sched.contextClear, hb]
  case head => rfl
  case runlist => rfl
  case runlistPrios => rfl
  case readyValids => rfl
  case inthandlers => rfl
  case outOfBounds => rfl
  all_goals exact fun u hu => by simp [Sched.freePush, Sched.contextClear, hne hu]

theorem rewrites_foldl {T : ι → Prop} (b : β) : ∀ (ts : List ι) (s : Sched ι β), (∀ t ∈ ts, T t) →
    Rewrites T b s (ts.foldl (fun s t => (s.contextClear t).freePush b t) s)
  | [], s, _ => .refl T b s
  | t :: ts, s, hT => (rewrites_freePush (hT t List.mem_cons_self) s).trans
      (rewrites_foldl b ts _ fun u hu => hT u (List.mem_cons_of_mem t hu))

/-- The contexts are on the free list, the last one first. -/
theorem isStack_foldl (b : β) : ∀ (ts : List ι) (s : Sched ι β) {F : List ι}, ts.Nodup →
    (∀ t ∈ ts, t ∉ F) → IsStack s.rings.links (s.freeThreads b) F →
    IsStack (ts.foldl (fun s t => (s.contextClear t).freePush b t) s).rings.links
      ((ts.foldl (fun s t => (s.contextClear t).freePush b t) s).freeThreads b) (ts.reverse ++ F)
  | [], s, F, _, _, hF => by simpa using hF
  | t :: ts, s, F, hnd, hout, hF => by
      rw [List.nodup_cons] at hnd
      have htF := hout t List.mem_cons_self
      rw [List.foldl_cons, List.reverse_cons, List.append_assoc, List.singleton_append]
      refine isStack_foldl b ts _ hnd.2 (fun u hu => ?_) ?_
      · have hut : u ≠ t := fun e => hnd.1 (e ▸ hu)
        simp [hut, hout u (List.mem_cons_of_mem t hu)]
      · have hclear : IsStack (s.contextClear t).rings.links
            ((s.contextClear t).freeThreads b) F := by
          refine hF.congr fun x hx => ?_
          have hxt : x ≠ t := fun e => htF (e ▸ hx)
          simp [Sched.contextClear, hxt]
        simpa [Sched.freePush] using hclear.push htF

theorem dead_foldl (b : β) : ∀ (ts : List ι) (s : Sched ι β), ∀ t ∈ ts,
    (ts.foldl (fun s t => (s.contextClear t).freePush b t) s).status t = .dead ∧
      (ts.foldl (fun s t => (s.contextClear t).freePush b t) s).prio t = 0
  | u :: ts, s, t, ht => by
      rw [List.foldl_cons]
      by_cases hmem : t ∈ ts
      · exact dead_foldl b ts _ t hmem
      · have htu : t = u := (List.mem_cons.mp ht).resolve_right hmem
        have hkeep := rewrites_foldl b ts ((s.contextClear u).freePush b u) fun _ => id
        rw [hkeep.status t hmem, hkeep.prio t hmem, htu]
        simp [Sched.freePush, Sched.contextClear]

/-- **A block set up anew**: where its contexts were all on its free list they are again. -/
theorem Placed.initContexts (hs : Placed M s) (hdead : ∀ t, M.vmblock t = b → s.status t = .dead) :
    Placed M ((s.bzero M b).initContexts M b) ∧
      Rewrites (fun t => M.vmblock t = b) b s ((s.bzero M b).initContexts M b) ∧
      ∀ t, M.vmblock t = b → ((s.bzero M b).initContexts M b).status t = .dead := by
  -- nobody is in the intpool of the block
  have hpool : update s.rings.head (.intpool b) none = s.rings.head := by
    refine update_eq_self_iff.mpr ?_
    by_contra hne
    obtain ⟨t, ht⟩ := Option.ne_none_iff_exists'.mp (Ne.symm hne)
    obtain ⟨hst, -, hb⟩ := place_eq_intpool.mp (hs.holds.of_head ht)
    simp [hdead t hb] at hst
  have hzero : Rewrites (fun t => M.vmblock t = b) b s (s.bzero M b) := by
    constructor
    case head => exact hpool
    case freeThreads => exact fun b' hb => by simp [Sched.bzero, hb]
    case runlist => rfl
    case runlistPrios => rfl
    case readyValids => rfl
    case inthandlers => rfl
    case outOfBounds => rfl
    all_goals exact fun t ht => by simp [Sched.bzero, ht]
  set s' := (s.bzero M b).initContexts M b with hs'
  have hre : Rewrites (fun t => M.vmblock t = b) b s s' :=
    hzero.trans (rewrites_foldl b (M.contexts b) _ fun t ht => M.mem_contexts.mp ht)
  have hdead' (t : ι) (ht : M.vmblock t = b) : s'.status t = .dead ∧ s'.prio t = 0 :=
    dead_foldl b (M.contexts b) _ t (M.mem_contexts.mpr ht)
  have hstack : IsStack s'.rings.links (s'.freeThreads b) (M.contexts b).reverse := by
    have hempty : IsStack (s.bzero M b).rings.links ((s.bzero M b).freeThreads b) [] := by
      simp [IsStack, Sched.bzero]
    have hfold := isStack_foldl b (M.contexts b) (s.bzero M b) (M.nodup_contexts b) (by simp) hempty
    rwa [List.append_nil] at hfold
  refine ⟨?_, hre, fun t ht => (hdead' t ht).1⟩
  have hplace (t : ι) : s'.place M t = s.place M t := by
    by_cases ht : M.vmblock t = b
    · simp [Sched.place, (hdead' t ht).1, hdead t ht]
    · simp [Sched.place, hre.status t ht, hre.hthread t ht, hre.prio t ht, hre.futexPtr t ht,
        hre.r00 t ht]
  have hrun {h : ℕ} {t : ι} (ht : s.runlist h = some t) : M.vmblock t ≠ b := fun hb => by
    simpa [hdead t hb] using (hs.runlist_iff.mp ht).1
  obtain ⟨L, hL, hmem⟩ := hs.holds.rings
  have hring {r : RingRef β} {t : ι} (ht : t ∈ L r) : M.vmblock t ≠ b := fun hb => by
    have := hmem.mp ht
    simp [Sched.place, hdead t hb] at this
  refine ⟨⟨fun {h t} => ?_, ⟨L, ?_, fun {r t} => by rw [hplace, hmem]⟩,
    fun {i t} => ?_, fun b' => ?_,
    fun p hp => ?_, by rw [hre.outOfBounds, hs.holds.inBounds]⟩, ⟨fun t => ?_, fun {h t} ht => ?_,
    fun {h} hh => ?_⟩⟩
  · rw [hre.runlist, hplace, hs.holds.run]
  · exact hL.of_links hre.head (fun r t ht => hre.next t (hring ht))
      fun r t ht => hre.prev t (hring ht)
  · rw [hre.inthandlers, hplace, hs.holds.popup]
  · by_cases hb : b' = b
    · subst hb
      refine ⟨_, hstack, List.nodup_reverse.mpr (M.nodup_contexts b'), fun {t} => ?_⟩
      rw [List.mem_reverse, M.mem_contexts, place_eq_free]
      exact ⟨fun ht => ⟨(hdead' t ht).1, ht⟩, fun ht => ht.2⟩
    · obtain ⟨F, hF, hnd, hmemF⟩ := hs.holds.free b'
      refine ⟨F, ?_, hnd, fun {t} => by rw [hplace, hmemF]⟩
      rw [hre.freeThreads b' hb]
      refine hF.congr fun t ht => hre.next t fun hb' => hb ?_
      rw [← hb', ← (place_eq_free.mp (hmemF.mp ht)).2]
  · rw [hre.readyValids, hre.head, hs.holds.valids p hp]
  · by_cases ht : M.vmblock t = b
    · simp [(hdead' t ht).2]
    · rw [hre.prio t ht]
      exact hs.prios.prio_le t
  · rw [hre.runlist] at ht
    rw [hre.runlistPrios, hre.prio t (hrun ht), hs.prios.slot ht]
  · rw [hre.runlist] at hh
    rw [hre.runlistPrios, hs.prios.empty hh]

end Setup

/-! ## Whole systems -/

section Whole

variable [fι : Fintype ι] {w w' : System ι β} {h : ℕ} {b : β} {me : ι}

/-- What holds of a system: the kernel is coherent and has counted its threads, those of a block
that is not allocated are dead, and each block that is allocated is in its slot. -/
structure System.Sound (w : System ι β) : Prop where
  coherent : Coherent w.machine w.kernel
  census : Census w.machine w.kernel
  dead : ∀ t, w.allocated (w.machine.vmblock t) = false → w.kernel.sched.status t = .dead
  slots : ∀ b, w.allocated b = true → w.machine.vmblocks (w.machine.vmidx b) = some b
  maxCpus_le : ∀ b, w.allocated b = true → w.machine.maxCpus b ≤ h2kIdMaxCpus
  fresh : ∀ b, w.allocated b = true → w.kernel.vms.freed b = false

/-- A safe step that creates no thread in a block the allocator may hand out, and frees none
twice. -/
def System.Minds (a : ℕ × SysOp ι β) (w : System ι β) : Prop :=
  match a.2 with
  | .kernel op => Safe w.machine a.1 op w.kernel ∧
      ∀ b, op.creates w.machine a.1 w.kernel = some b → w.allocated b = true
  | .setCpusInts .. => True
  | .vmopFree vm => ∀ b, w.machine.vmblocks vm = some b → w.allocated b = true

namespace System

variable {e : Exit}

omit dι fι in
/-- **A VM is freed** if it is the caller's own and has no thread. -/
theorem vmopFree_cases {vm : ℕ} (hfree : w.vmopFree vm me = some (e, w')) : w' = w ∨ ∃ b,
    w.machine.vmblocks vm = some b ∧
      (w.machine.parent b).1 = w.machine.vmidx (w.machine.vmblock me) ∧ w.kernel.vms.numCpus b = 0 ∧
      w' = { w with machine := w.machine.vacate vm, allocated := update w.allocated b false } := by
  unfold vmopFree at hfree
  simp only at hfree
  split at hfree
  · exact .inl (Prod.mk.inj (some.inj hfree)).2.symm
  split at hfree
  · exact .inl (Prod.mk.inj (some.inj hfree)).2.symm
  next b hb =>
  split at hfree
  · exact .inl (Prod.mk.inj (some.inj hfree)).2.symm
  next hnum =>
  simp only [not_or, not_not, not_lt, Nat.le_zero] at hnum
  exact .inr ⟨b, hb, hnum.1.symm, hnum.2, (Prod.mk.inj (some.inj hfree)).2.symm⟩

omit fι in
/-- **A block is set up** if it is not allocated, in an empty slot. -/
theorem setCpusInts_cases {numInts : ℕ} (hset : w.setCpusInts b numInts me = some (e, w')) :
    w' = w ∨ ∃ i, w.machine.maxCpus b ≤ h2kIdMaxCpus ∧ w.allocated b = false ∧
      w.machine.vmblocks i = none ∧ w' = w.install b i numInts me := by
  unfold setCpusInts at hset
  split at hset
  · exact .inl (Prod.mk.inj (some.inj hset)).2.symm
  next hargs =>
  split at hset
  · simp at hset
  next hfree =>
  split at hset
  · exact .inl (Prod.mk.inj (some.inj hset)).2.symm
  next i hi =>
  have hslot := List.find?_some hi
  simp only [Bool.and_eq_true, Option.isNone_iff_eq_none] at hslot
  simp only [not_or, not_lt] at hargs
  exact .inr ⟨i, hargs.1, by simpa using hfree, hslot.2, (Prod.mk.inj (some.inj hset)).2.symm⟩

theorem Sound.kernel (hw : w.Sound) {op : Op ι β} (hminds : w.Minds (h, .kernel op))
    (hexec : w.exec h (.kernel op) = some (e, w')) : w'.Sound := by
  obtain ⟨⟨e', k'⟩, hk', ⟨⟩⟩ := map_eq_some_iff.mp hexec
  have hmoves := exec_moves hw.coherent hminds.1 hk'
  have hstay {b : β} (hb : (w.allocated b && !k'.vms.freed b) = true) :
      w.allocated b = true ∧ k'.vms.freed b = false := by simpa using hb
  refine ⟨(stepTo_of_exec hw.coherent hminds.1 hk').coherent, hmoves.census hw.census,
    fun t ht => ?_, fun b hb => hw.slots b (hstay hb).1, fun b hb => hw.maxCpus_le b (hstay hb).1,
    fun b hb => (hstay hb).2⟩
  -- a block that was free already, or one whose last thread has stopped
  by_cases halloc : w.allocated (w.machine.vmblock t) = true
  · have hfreed : k'.vms.freed (w.machine.vmblock t) = true := by simpa [halloc] using ht
    have hlt := hw.maxCpus_le _ halloc
    rw [h2kIdMaxCpus] at hlt
    rcases hmoves.freed hw.census (by omega) hfreed with hold | ⟨-, hdead⟩ | hd
    · simp [hw.fresh _ halloc] at hold
    · exact hdead t rfl
    · exact hd.dead t rfl
  · rw [Bool.not_eq_true] at halloc
    have hdead := hw.dead t halloc
    have hnew : op.creates w.machine h w.kernel ≠ some (w.machine.vmblock t) := fun hop => by
      simp [hminds.2 _ hop] at halloc
    rcases hmoves.sinks hnew (.inl hdead) with h | ⟨h, -⟩
    · exact h
    · exact absurd hdead h

omit dι in
theorem Sound.vmopFree (hw : w.Sound) {vm : ℕ}
    (hminds : ∀ b, w.machine.vmblocks vm = some b → w.allocated b = true)
    (hfree : w.vmopFree vm me = some (e, w')) : w'.Sound := by
  obtain rfl | ⟨b, hb, -, hnum, rfl⟩ := vmopFree_cases hfree
  · exact hw
  have hother {b' : β} (hb' : update w.allocated b false b' = true) :
      b' ≠ b ∧ w.allocated b' = true := by
    by_cases hbb : b' = b
    · simp [hbb] at hb'
    · exact ⟨hbb, by simpa [hbb] using hb'⟩
  refine ⟨⟨hw.coherent.placed.of_vmblock rfl, hw.coherent.executes, hw.coherent.started,
    fun b' p hp => ?_⟩,
    hw.census, fun t ht => ?_, fun b' hb' => ?_, fun b' hb' => hw.maxCpus_le b' (hother hb').2,
    fun b' hb' => hw.fresh b' (hother hb').2⟩
  · refine hw.coherent.parents b' p ?_
    by_cases hslot : (w.machine.parent b').1 = vm
    · simp [Machine.idToContext, Machine.vacate, hslot] at hp
    · simpa [Machine.idToContext, Machine.vacate, hslot] using hp
  · by_cases hbb : w.machine.vmblock t = b
    · have hlt := hw.maxCpus_le b (hminds b hb)
      rw [h2kIdMaxCpus] at hlt
      exact hw.census.dead_of_zero (by omega) hnum hbb
    · exact hw.dead t (by simpa [Machine.vacate, hbb] using ht)
  · obtain ⟨hbb, halloc⟩ := hother hb'
    have hslot := hw.slots b' halloc
    have hne : w.machine.vmidx b' ≠ vm := by
      rintro rfl
      exact hbb (some.inj (hslot.symm.trans hb))
    simpa [Machine.vacate, hne] using hslot

omit dι in
/-- A running thread is in a block that is allocated and in its slot, so its id leads back to it. -/
theorem Sound.idToContext (hw : w.Sound) (hme : w.kernel.hw.sgp h = some me) :
    w.machine.vmblocks (w.machine.vmidx (w.machine.vmblock me)) = some (w.machine.vmblock me) := by
  refine hw.slots _ ?_
  by_contra hne
  have hdead := hw.dead me (by simpa using hne)
  simp [(hw.coherent.running hme).1] at hdead

/-- **Setting up a block** that is not allocated, in an empty slot. -/
theorem Sound.install (hw : w.Sound) (hme : w.kernel.hw.sgp h = some me) (numInts : ℕ) {i : ℕ}
    (hle : w.machine.maxCpus b ≤ h2kIdMaxCpus) (hfree : w.allocated b = false)
    (hslot : w.machine.vmblocks i = none) : (w.install b i numInts me).Sound := by
  obtain ⟨hplaced, hre, hdead'⟩ := hw.coherent.placed.initContexts fun t ht =>
    hw.dead t (ht ▸ hfree)
  set w' := w.install b i numInts me with hw'
  have hsched : w'.kernel.sched = (w.kernel.sched.bzero w.machine b).initContexts w.machine b := rfl
  have hvm : w'.machine.vmblock = w.machine.vmblock := rfl
  rw [← hsched] at hplaced hre hdead'
  have hother {b₁ : β} (hb₁ : w'.allocated b₁ = true) (hne : b₁ ≠ b) : w.allocated b₁ = true := by
    simpa [hw', System.install, hne] using hb₁
  refine ⟨⟨hplaced.of_vmblock hvm, fun h => ?_, fun {h t} ht => ?_, fun b₁ p hp hpool => ?_⟩,
    fun b₁ => ?_, fun t ht => ?_, fun b₁ hb₁ => ?_, fun b₁ hb₁ => ?_, fun b₁ hb₁ => ?_⟩
  · rw [hre.runlist]
    exact hw.coherent.executes h
  · rw [hre.runlist] at ht
    exact hw.coherent.started ht
  · -- a thread that VMs report to is not one of the new block
    have hpb : w.machine.vmblock p ≠ b := fun hb => by
      have := hpool.1
      simp [hdead' p hb] at this
    have hpool' : PoolBlocked w.kernel.sched p := by
      rwa [PoolBlocked, hre.status p hpb, hre.r00 p hpb] at hpool
    have hie : w'.kernel.threads.ie p = w.kernel.threads.ie p := by
      simp [hw', System.install, Kernel.bzero, hpb]
    -- nor does its id name the new slot
    obtain ⟨b₂, hb₂, hcontext⟩ := bind_eq_some_iff.mp hp
    have hpb₂ : w.machine.vmblock p = b₂ := (w.machine.context_eq_some.mp hcontext).1
    have hold (x : ℕ) (hx : w'.machine.vmblocks x = some b₂) : w.machine.vmblocks x = some b₂ := by
      by_cases hxi : x = i
      · have : b = b₂ := by simpa [hw', System.install, Machine.install, hxi] using hx
        exact absurd (hpb₂.trans this.symm) hpb
      · simpa [hw', System.install, Machine.install, hxi] using hx
    rw [hie]
    by_cases hbb : b₁ = b
    · have hparent : w'.machine.parent b₁ =
          (w.machine.vmidx (w.machine.vmblock me), w.machine.cpuidx me) := by
        simp [hw', System.install, Machine.install, hbb]
      rw [hparent] at hb₂ hcontext
      have hvme := (hw.idToContext hme).symm.trans (hold _ hb₂)
      have hself : w.machine.context b₂ (w.machine.cpuidx me) = some me :=
        w.machine.context_eq_some.mpr ⟨some.inj hvme, rfl⟩
      have hpm : p = me := some.inj (hcontext.symm.trans hself)
      have := (hw.coherent.running hme).1
      simp [← hpm, hpool'.1] at this
    · have hparent : w'.machine.parent b₁ = w.machine.parent b₁ := by
        simp [hw', System.install, Machine.install, hbb]
      rw [hparent] at hb₂ hcontext
      exact hw.coherent.parents b₁ p (bind_eq_some_iff.mpr ⟨b₂, hold _ hb₂, hcontext⟩) hpool'
  · by_cases hbb : b₁ = b
    · have hlive : w'.kernel.live w'.machine b₁ = ∅ := by
        refine Finset.filter_eq_empty_iff.mpr fun t _ => ?_
        rintro ⟨ht, hlive⟩
        exact hlive (hdead' t (ht.trans hbb))
      rw [hlive]
      simp [hw', System.install, Kernel.bzero, hbb]
    · have hlive : w'.kernel.live w'.machine b₁ = w.kernel.live w.machine b₁ := by
        refine Finset.filter_congr fun t _ => and_congr_right fun ht => ?_
        rw [hre.status t fun hb => hbb (ht.symm.trans hb)]
      rw [hlive, ← hw.census b₁]
      simp [hw', System.install, Kernel.bzero, hbb]
  · rw [hvm] at ht
    have hb : w.machine.vmblock t ≠ b := fun hb => by simp [hw', System.install, hb] at ht
    rw [hre.status t hb]
    exact hw.dead t (by simpa [hw', System.install, hb] using ht)
  · by_cases hbb : b₁ = b
    · simp [hw', System.install, Machine.install, hbb]
    · have hold := hw.slots b₁ (hother hb₁ hbb)
      have hne : w.machine.vmidx b₁ ≠ i := by
        rintro rfl
        simp [hslot] at hold
      simpa [hw', System.install, Machine.install, hbb, hne] using hold
  · by_cases hbb : b₁ = b
    · exact hbb ▸ hle
    · exact hw.maxCpus_le b₁ (hother hb₁ hbb)
  · by_cases hbb : b₁ = b
    · simp [hw', System.install, hbb]
    · simpa [hw', System.install, Kernel.bzero, hbb] using hw.fresh b₁ (hother hb₁ hbb)

theorem Sound.setCpusInts (hw : w.Sound) (hme : w.kernel.hw.sgp h = some me) {numInts : ℕ}
    (hset : w.setCpusInts b numInts me = some (e, w')) : w'.Sound := by
  obtain rfl | ⟨i, hle, hfree, hslot, rfl⟩ := setCpusInts_cases hset
  · exact hw
  · exact hw.install hme numInts hle hfree hslot

theorem Sound.step (hw : w.Sound) {a : ℕ × SysOp ι β} (hminds : w.Minds a)
    (hstep : w.step a = some w') : w'.Sound := by
  obtain ⟨h, op⟩ := a
  obtain ⟨⟨e, w'⟩, hexec, rfl⟩ := map_eq_some_iff.mp hstep
  cases op with
  | kernel op => exact hw.kernel hminds hexec
  | setCpusInts b numInts =>
    rw [System.exec] at hexec
    split at hexec
    · obtain ⟨me, hme, hset⟩ := bind_eq_some_iff.mp hexec
      exact hw.setCpusInts hme hset
    · simp at hexec
  | vmopFree vm =>
    rw [System.exec] at hexec
    split at hexec
    · obtain ⟨me, hme, hfree⟩ := bind_eq_some_iff.mp hexec
      exact hw.vmopFree hminds hfree
    · simp at hexec

theorem sound_boot {M : Machine ι β} {timerIntnum : ℕ} {mask : BitVec 32} {cluster : Cluster ι}
    {bootvm : β} (hmask : mask.getLsbD 0 = true) (hmax : M.maxCpus bootvm ≤ h2kIdMaxCpus)
    (hboot : System.boot M timerIntnum mask cluster bootvm = some (e, w)) : w.Sound := by
  obtain ⟨⟨e', k⟩, hk, ⟨⟩⟩ := map_eq_some_iff.mp hboot
  obtain ⟨boot, k₁, hpass, hcensus, hvm, hst, hfreed⟩ := boot_passage hmask hk
  have hboot {b : β} (hb : (b == bootvm && !k.vms.freed b) = true) :
      b = bootvm ∧ k.vms.freed b = false := by simpa using hb
  refine ⟨coherent_boot hmask hk, census_boot hmask hk, fun t ht => ?_, fun b hb => ?_,
    fun b hb => ?_, fun b hb => (hboot hb).2⟩
  · by_cases htb : M.vmblock t = bootvm
    · have hk' : k.vms.freed bootvm = true := by
        have hvm : (M.alone bootvm).vmblock t = bootvm := htb
        simpa [hvm] using ht
      have hlt : (M.alone bootvm).maxCpus bootvm < 0x100000000 := by
        have : (M.alone bootvm).maxCpus bootvm ≤ 65536 := hmax
        omega
      rcases hpass.freed hcensus bootvm hlt hk' with hold | hd
      · simp [hfreed] at hold
      · exact hd.dead t htb
    · have htboot : t ≠ boot := by
        rintro rfl
        exact htb hvm
      exact hpass.dead t (by rw [hst, update_of_ne htboot])
  · obtain ⟨rfl, -⟩ := hboot hb
    simp [Machine.alone]
  · obtain ⟨rfl, -⟩ := hboot hb
    exact hmax

end System

end Whole

end H2
