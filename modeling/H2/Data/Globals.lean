import H2.Machinery.Ring
import Mathlib.Algebra.GroupWithZero.Nat
import Mathlib.Data.Fintype.Card

/-!
# Data/Globals — thread contexts, VM blocks and the kernel globals

The contexts form a finite type `ι`, the VM blocks a type `β`; a `Machine` says which context is
which cpu of which VM, and never changes.  What changes is split in two.  `Sched` holds every
structure a context can be *in* — the rings, the runlist, the free lists, the interrupt handler
table — and the context fields that say where it belongs.  `Kernel` adds the interrupt controllers,
the cluster bookkeeping, the other context and VM fields and the hardware threads, each a record of
its own so that a function says by its type what it leaves alone.
-/

namespace H2

/-- `H2K_STATUS_*`. -/
inductive Status where
  | dead
  | running
  | ready
  | blocked
  | vmwait
  | intblocked
  deriving DecidableEq, Repr

/-- `MAX_PRIOS`. -/
def maxPrios : ℕ := 256

/-- `MAX_PRIO`. -/
def maxPrio : ℕ := 255

/-- `MAX_INTERRUPTS`. -/
def maxInterrupts : ℕ := 512

/-- `L2_CORE_INTERRUPT`. -/
def l2CoreInterrupt : ℕ := 2

/-- `PERCPU_INTERRUPTS`. -/
def percpuInterrupts : ℕ := 16

/-- `H2K_TIME_GUESTINT`. -/
def timeGuestint : ℕ := 12

/-- `H2K_VM_CHILDINT`. -/
def vmChildint : ℕ := 14

/-- `(u32_t)-1`. -/
def u32Max : ℕ := 0xffffffff

/-- The head cells of the rings that contexts are linked into. -/
inductive RingRef (β : Type) where
  | ready (prio : ℕ)
  /-- `futexhash[hashval]`. -/
  | futex (hashval : ℕ)
  | intpool (vmblock : β)
  deriving DecidableEq

/-- An entry of `inthandlers`: the handler with its parameter. -/
inductive Inthandler (ι β : Type) where
  /-- `raw = 0`. -/
  | null
  /-- `H2K_popup_int`, waking the thread that waits. -/
  | popup (woken : ι)
  /-- `H2K_intpool_int` for a VM. -/
  | intpool (vmblock : β)
  /-- `H2K_resched`. -/
  | resched
  /-- `H2K_resched_cluster`. -/
  | reschedCluster
  /-- `H2K_vm_ipi_do`. -/
  | vmIpi
  /-- `H2K_timer_int`. -/
  | timer
  deriving DecidableEq

/-- The static layout: which context is which cpu of which VM, and who created whom. -/
structure Machine (ι β : Type) where
  vmblock : ι → β
  /-- `t->id.cpuidx`. -/
  cpuidx : ι → ℕ
  maxCpus : β → ℕ
  /-- `&vmblock->contexts[i]`, for `i` below `max_cpus`. -/
  context : β → ℕ → Option ι
  /-- The VM table. -/
  vmblocks : ℕ → Option β
  vmidx : β → ℕ
  /-- `vmblock->parent`, as `vmidx` and `cpuidx`. -/
  parent : β → ℕ × ℕ
  bestprio : β → ℕ
  numInts : β → ℕ
  context_eq_some : ∀ {b i t}, context b i = some t ↔ vmblock t = b ∧ cpuidx t = i
  context_isSome : ∀ {b i}, (context b i).isSome ↔ i < maxCpus b

/-- The structures a context can be in, and the context fields that say where it belongs. -/
structure Sched (ι β : Type) where
  /-- The link fields of all contexts, with the heads of the ready, futex and intpool rings. -/
  rings : Rings (RingRef β) ι
  status : ι → Status
  prio : ι → ℕ
  hthread : ι → ℕ
  /-- `t->futex_ptr`, a 34-bit field. -/
  futexPtr : ι → ℕ
  /-- `t->r00`, where a blocked thread's interrupt number and return value live. -/
  r00 : ι → ℕ
  runlist : ℕ → Option ι
  runlistPrios : ℕ → ℤ
  readyValids : ℕ → BitVec 64
  /-- `vmblock->free_threads`, linked through `next`. -/
  freeThreads : β → Option ι
  inthandlers : ℕ → Inthandler ι β
  /-- Set by a write past the end of `inthandlers`; what it clobbers is not modelled. -/
  outOfBounds : Bool

/-- The coprocessor bookkeeping of cluster scheduling. -/
structure Cluster (ι : Type) where
  /-- `cluster_sched`. -/
  sched : Bool
  /-- `cluster_clusters`. -/
  clusters : ℕ
  /-- `cluster_hthreads`. -/
  hthreads : ℕ
  /-- `cluster_mask[i]`. -/
  mask : ℕ → BitVec 32
  /-- `coproc_max`, all ones for no limit. -/
  coprocMax : BitVec 32
  coprocCount : ℕ → BitVec 32
  /-- The coprocessor enables in the `ssr` and `ccr` of each hardware thread: xe, xe2, xe3. -/
  hw : ℕ → Bool × Bool × Bool
  /-- The enables each context asks for: `ssr_xe`, `ssr_xe2`, `ccr_xe3`. -/
  ctx : ι → Bool × Bool × Bool
  /-- The hardware threads `CLUSTER_RESCHED_INT` is steered to, and whether it is raised. -/
  steer : BitVec 32
  raised : Bool

@[grind =] theorem update_row {α γ δ : Type*} [DecidableEq α] [DecidableEq γ] (f : α → γ → δ)
    (a b : α) (i j : γ) (v : δ) :
    Function.update f a (Function.update (f a) i v) b j = if b = a ∧ j = i then v else f b j := by
  by_cases hb : b = a <;> by_cases hj : j = i <;> simp [hb, hj]

/-- The interrupt controllers' state: per-cpu bits of each context, shared bits of each VM. -/
structure Intctl (ι β : Type) where
  cpuintPending : ι → ℕ → Bool
  cpuintEnabled : ι → ℕ → Bool
  pending : β → ℕ → Bool
  enable : β → ℕ → Bool
  percpuMask : ι → ℕ → Bool
  /-- `vmblock->intpool_pending`, with `intpool_anypending`. -/
  intpoolPending : β → ℕ → Bool
  intpoolAnypending : β → Bool

/-- The other context fields the scheduler and the interrupt code read. -/
structure Threads (ι : Type) where
  basePrio : ι → ℕ
  /-- `H2K_VMSTATUS_VMWORK`, `H2K_VMSTATUS_KILL` and `H2K_VMSTATUS_IE`. -/
  vmwork : ι → Bool
  kill : ι → Bool
  ie : ι → Bool
  gevb : ι → ℕ

/-- The VM block fields that change. -/
structure Vms (β : Type) where
  numCpus : β → ℕ
  status : β → ℤ
  waitingCpus : β → BitVec 64
  /-- VM blocks returned to the allocator. -/
  freed : β → Bool

/-- The hardware threads: the kernel's masks over them, and their own registers. -/
structure Hw (ι β : Type) where
  /-- `wait_mask`, `priomask`, `mask_for_ipi`. -/
  waitMask : BitVec 32
  priomask : BitVec 32
  maskForIpi : BitVec 32
  /-- `hthreads` and `hthreads_mask`. -/
  hthreads : ℕ
  hthreadsMask : BitVec 32
  /-- `sgp0` of each hardware thread: the context it executes, none in wait mode. -/
  sgp : ℕ → Option ι
  /-- The handler entry a hardware thread read when it took an interrupt it has yet to handle. -/
  latched : ℕ → Option (ℕ × Inthandler ι β)
  /-- `imask` of each hardware thread. -/
  imask : ℕ → BitVec 32
  /-- `RESCHED_INT` is raised and not yet acknowledged. -/
  reschedInt : Bool
  /-- A hardware thread waits for the kernel lock it holds itself. -/
  hung : Bool

/-- The whole kernel state. -/
structure Kernel (ι β : Type) where
  sched : Sched ι β
  ints : Intctl ι β
  cluster : Cluster ι
  threads : Threads ι
  vms : Vms β
  hw : Hw ι β

/-! ## Numerals for the contexts of runs that are written out -/

namespace Numerals

scoped instance one : NeZero 1 := ⟨by decide⟩

scoped instance two : NeZero 2 := ⟨by decide⟩

scoped instance three : NeZero 3 := ⟨by decide⟩

scoped instance four : NeZero 4 := ⟨by decide⟩

end Numerals

end H2
