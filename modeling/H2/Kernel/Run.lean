import H2.Event.Popup
import H2.Init.Boot
import H2.Mem.Safemem
import H2.Sched.Resched
import H2.Vm.Vmfuncs
import H2.Vm.Vmop

/-!
# Kernel/Run — the kernel as a transition system

Each hardware thread executes a thread or waits.  Between two steps the kernel lock is free; a step
is one hold of the lock, or something that happens without it — an interrupt is taken, interrupt
controllers are written.  An interrupt is taken and handled in separate steps, since the handler is
looked up before the lock is asked for.

`Reached` is what any interleaving of such steps leads to.
-/

namespace H2

variable {ι β : Type} [DecidableEq ι] [DecidableEq β] [Fintype ι]

/-- What a thread can do to a per-cpu interrupt of its own. -/
inductive Intop where
  | enable
  | disable
  | clear

/-- What a thread can ask of the kernel. -/
inductive Trap where
  | yield
  | stop (status : ℤ)
  | create (pc sp arg1 prio : ℕ) (asid : Bool)
  | vmopBoot (pc sp arg1 prio vm : ℕ) (asid : Bool)
  | vmopKillThread (id : ℕ)
  | vmopKillVm (vm : ℕ) (status : ℤ)
  | futexWait (lock : Access) (readval val : ℕ)
  | futexResume (lock : Access) (nToWake : ℕ)
  | futexLockPi (lock : Access) (word : ℕ)
  | futexUnlockPi (lock : Access)
  | popupWait (intnum : ℕ)
  | intpoolWait
  | intpoolConfigure (intno : ℕ) (enable : Bool)
  | vmwait
  | setie (enable : Bool)
  | setvec (gevb : ℕ)
  | intop (op : Intop) (intno : Fin percpuInterrupts)
  | prioSet (prio : ℕ)

/-- A step of one hardware thread. -/
inductive Op (ι β : Type) where
  /-- The thread it executes traps. -/
  | trap (t : Trap)
  /-- A per-cpu interrupt is posted, by a thread or a device. -/
  | post (dst : ι) (intno : Fin percpuInterrupts)
  /-- `H2K_vm_int_deliver`, the end of a post of a shared one. -/
  | deliver (dst : ι) (intno : ℕ)
  /-- The interrupt controllers are written and work flags set, which takes no lock. -/
  | controllers (ints : Intctl ι β) (work : ι → Bool)
  /-- It comes out of reset. -/
  | start
  /-- It takes an interrupt, and reads the handler. -/
  | takeInt (intno : ℕ)
  /-- It handles the interrupt it took; if that is the timer's, these timers have expired. -/
  | handleInt (expired : List ι)

namespace Kernel

/-- `me`, on hardware thread `h`, traps. -/
def trap (M : Machine ι β) (h : ℕ) (me : ι) (t : Trap) (k : Kernel ι β) :
    Option (Exit × Kernel ι β) :=
  match t with
  | .yield => k.schedYield M me
  | .stop status => k.threadStopWithlock M status me h
  | .create pc sp arg1 prio asid =>
    k.threadCreateNoSquash M pc sp arg1 prio asid (M.vmblock me) me
  | .vmopBoot pc sp arg1 prio vm asid => k.vmopBoot M pc sp arg1 prio vm asid me
  | .vmopKillThread id => k.vmopKillThread M id me
  | .vmopKillVm vm status => k.vmopKillVm M vm status me
  | .futexWait lock readval val => k.futexWait M (lock.safemem safememR) readval val me h
  | .futexResume lock nToWake => k.futexResume (lock.safemem safememR) nToWake
  | .futexLockPi lock word => k.futexLockPi M (lock.safemem safememRw) word me h
  | .futexUnlockPi lock => k.futexUnlockPi (lock.safemem safememRw) me
  | .popupWait intnum => k.popupWait M intnum me h
  | .intpoolWait => k.intpoolWait M me h
  | .intpoolConfigure intno enable => k.intpoolConfigure M intno enable me
  | .vmwait => k.vmtrapWait M me h
  | .setie enable => k.vmtrapSetie M enable me h
  | .setvec gevb => k.vmtrapSetvec gevb me
  | .intop .enable intno => some (.returned 0, k.vmCpuintEnable me intno)
  | .intop .disable intno => some (.returned 0, k.vmCpuintDisable me intno)
  | .intop .clear intno => some (.returned 0, k.vmCpuintClear me intno)
  | .prioSet prio => k.prioSet M prio me

/-- Call a handler that is not null. -/
def handler (M : Machine ι β) (h intno : ℕ) (expired : List ι) (e : Inthandler ι β)
    (k : Kernel ι β) : Option (Exit × Kernel ι β) :=
  match e with
  | .null => some (.returned 0, k)
  | .popup woken => k.popupInt M intno h woken
  | .intpool b => k.intpoolInt M intno h b
  | .resched => k.resched M h
  | .reschedCluster => k.reschedCluster M h
  | .vmIpi => k.vmIpiDo M h
  | .timer => k.timerInt M expired

def setLatched (h : ℕ) (v : Option (ℕ × Inthandler ι β)) (k : Kernel ι β) : Kernel ι β :=
  { k with hw := { k.hw with latched := Function.update k.hw.latched h v } }

/-- `H2K_handle_int` and `H2K_interrupted_waitmode` after the handler was read.  Where there is
none, `H2K_handle_int` runs on into `H2K_interrupted_waitmode`, and that goes to sleep; so it does
when a handler returns to it. -/
def handleInt (M : Machine ι β) (h : ℕ) (expired : List ι) (k : Kernel ι β) :
    Option (Exit × Kernel ι β) :=
  match k.hw.latched h with
  | none => none
  | some (_, .null) => some (.switched, (k.setLatched h none).switchNull h)
  | some (intno, e) =>
    ((k.setLatched h none).handler M h intno expired e).map fun
      | (.returned r, k') =>
        (.returned r, if (k.hw.sgp h).isNone then k'.setLatched h (some (intno, .null)) else k')
      | p => p

/-- An interrupt is taken.  The two reschedule handlers acknowledge theirs before they ask for the
lock. -/
def takeInt (h intno : ℕ) (k : Kernel ι β) : Kernel ι β :=
  let k := k.setLatched h (some (intno, k.sched.inthandlers intno))
  match k.sched.inthandlers intno with
  | .resched => { k with hw := { k.hw with reschedInt := false } }
  | .reschedCluster => { k with cluster := { k.cluster with raised := false } }
  | _ => k

/-- The hardware thread is in a position to make the step. -/
def enabled (h : ℕ) (op : Op ι β) (k : Kernel ι β) : Bool :=
  !k.hw.hung && k.hw.hthreadsMask.getLsbD h &&
    match op with
    | .trap _ => (k.hw.sgp h).isSome && (k.hw.latched h).isNone
    | .post .. | .deliver .. | .controllers .. => true
    | .start => (k.hw.sgp h).isNone && (k.hw.latched h).isNone && !k.hw.waitMask.getLsbD h
    | .takeInt intno => (k.hw.latched h).isNone && decide (intno < maxInterrupts) &&
        ((k.hw.sgp h).isSome || k.hw.waitMask.getLsbD h)
    | .handleInt _ => (k.hw.latched h).isSome

def perform (M : Machine ι β) (h : ℕ) (op : Op ι β) (k : Kernel ι β) : Option (Exit × Kernel ι β) :=
  match op with
  | .trap t => (k.hw.sgp h).bind fun me => k.trap M h me t
  | .post dst intno => some (.returned 0, k.vmCpuintPostLocked M dst intno)
  | .deliver dst intno =>
    some (.returned (k.vmIntDeliverLocked M dst intno).1, (k.vmIntDeliverLocked M dst intno).2)
  | .controllers ints work =>
    some (.returned 0, { k with
      ints := ints
      threads := { k.threads with vmwork := fun t => k.threads.vmwork t || work t } })
  | .start => some (.switched, k.switchNull h)
  | .takeInt intno => some (.returned 0, k.takeInt h intno)
  | .handleInt expired => k.handleInt M h expired

/-- One step, if it is enabled. -/
def exec (M : Machine ι β) (h : ℕ) (op : Op ι β) (k : Kernel ι β) : Option (Exit × Kernel ι β) :=
  if k.enabled h op then k.perform M h op else none

def run (M : Machine ι β) : List (ℕ × Op ι β) → Kernel ι β → Option (Kernel ι β)
  | [], k => some k
  | (h, op) :: ops, k => (k.exec M h op).bind fun p => run M ops p.2

/-- A sequence of steps, each made in a state that passes a test. -/
def runIf (M : Machine ι β) (test : ℕ → Op ι β → Kernel ι β → Bool) :
    List (ℕ × Op ι β) → Kernel ι β → Option (Kernel ι β)
  | [], k => some k
  | (h, op) :: ops, k =>
    if test h op k then (k.exec M h op).bind fun p => runIf M test ops p.2 else none

end Kernel

theorem enabled_of_exec {M : Machine ι β} {k : Kernel ι β} {h : ℕ} {op : Op ι β}
    {p : Exit × Kernel ι β} (hexec : k.exec M h op = some p) : k.enabled h op = true := by
  by_contra hen
  simp [Kernel.exec, hen] at hexec

/-- The states that steps lead to, each of which meets a condition. -/
inductive Reached (M : Machine ι β) (C : ℕ → Op ι β → Kernel ι β → Prop) (k₀ : Kernel ι β) :
    Kernel ι β → Prop
  | init : Reached M C k₀ k₀
  | step {k k' : Kernel ι β} {h : ℕ} {op : Op ι β} {e : Exit} (hk : Reached M C k₀ k)
      (hC : C h op k) (hexec : k.exec M h op = some (e, k')) : Reached M C k₀ k'

section Reached

variable {M : Machine ι β} {C : ℕ → Op ι β → Kernel ι β → Prop} {k₀ : Kernel ι β}

/-- Running is reaching, with steps that meet the condition in any state. -/
theorem Reached.of_run : ∀ {ops : List (ℕ × Op ι β)} {k k' : Kernel ι β},
    (∀ p ∈ ops, ∀ k, C p.1 p.2 k) → Reached M C k₀ k → k.run M ops = some k' → Reached M C k₀ k'
  | [], k, k', _, hk, hrun => Option.some.inj hrun ▸ hk
  | (h, op) :: ops, k, k', hC, hk, hrun => by
      obtain ⟨⟨e, k₁⟩, hexec, hrun'⟩ := Option.bind_eq_some_iff.mp hrun
      exact of_run (fun p hp => hC p (List.mem_cons_of_mem _ hp))
        (hk.step (hC _ List.mem_cons_self k) hexec) hrun'

variable {test : ℕ → Op ι β → Kernel ι β → Bool}

/-- So it is with steps whose states pass a test of the condition. -/
theorem Reached.of_runIf (htest : ∀ h op k, test h op k = true → C h op k) :
    ∀ {ops : List (ℕ × Op ι β)} {k k' : Kernel ι β},
    Reached M C k₀ k → k.runIf M test ops = some k' → Reached M C k₀ k'
  | [], k, k', hk, hrun => Option.some.inj hrun ▸ hk
  | (h, op) :: ops, k, k', hk, hrun => by
      rw [Kernel.runIf] at hrun
      split at hrun
      · next hpass =>
        obtain ⟨⟨e, k₁⟩, hexec, hrun'⟩ := Option.bind_eq_some_iff.mp hrun
        exact of_runIf htest (hk.step (htest h op k hpass) hexec) hrun'
      · simp at hrun

end Reached

/-! ## A machine with one VM

The boot VM alone, in slot 1, and no cluster scheduling — enough to show runs on. -/

/-- A word of a page mapped to itself, with all permissions. -/
def identityAccess (userVa : BitVec 32) : Access where
  userVa := userVa
  probe := some ((0xf0000001#64) ||| (userVa.setWidth 64 >>> 12) <<< 1)
  guest := true

/-- The boot VM, with `n + 1` cpus. -/
def oneVm (n : ℕ) : Machine (Fin (n + 1)) Unit where
  vmblock _ := ()
  cpuidx t := t
  maxCpus _ := n + 1
  context _ i := if h : i < n + 1 then some ⟨i, h⟩ else none
  vmblocks i := if i = 1 then some () else none
  vmidx _ := 1
  parent _ := (0, 0)
  bestprio _ := 0
  numInts _ := 0
  context_eq_some {b i t} := by
    constructor
    · intro h
      split at h
      · exact ⟨rfl, by rw [← Option.some.inj h]⟩
      · simp at h
    · rintro ⟨-, rfl⟩
      exact dif_pos t.isLt
  context_isSome {b i} := by split <;> simp_all

/-- A build without `CLUSTER_SCHED`. -/
def Cluster.off : Cluster ι where
  sched := false
  clusters := 0
  hthreads := 1
  mask _ := 0
  coprocMax := -1
  coprocCount _ := 0
  hw _ := (false, false, false)
  ctx _ := (false, false, false)
  steer := -1
  raised := false

/-- Boot on the hardware threads of a mask, and run. -/
def bootRun (n : ℕ) (mask : BitVec 32) (ops : List (ℕ × Op (Fin (n + 1)) Unit)) :
    Option (Kernel (Fin (n + 1)) Unit) :=
  (Kernel.boot (oneVm n) 3 mask .off ()).bind fun p => p.2.run (oneVm n) ops

/-- A run whose end has a property, as a reached state. -/
theorem exists_reached_of_bootRun {n : ℕ} (mask : BitVec 32)
    (ops : List (ℕ × Op (Fin (n + 1)) Unit))
    {C : ℕ → Op (Fin (n + 1)) Unit → Kernel (Fin (n + 1)) Unit → Prop}
    (hC : ∀ p ∈ ops, ∀ k, C p.1 p.2 k) (P : Kernel (Fin (n + 1)) Unit → Prop)
    (hrun : ∃ k ∈ bootRun n mask ops, P k) :
    ∃ e k₀ k, Kernel.boot (oneVm n) 3 mask .off () = some (e, k₀) ∧ Reached (oneVm n) C k₀ k ∧
      bootRun n mask ops = some k ∧ P k := by
  obtain ⟨k, hk, hP⟩ := hrun
  obtain ⟨⟨e, k₀⟩, hboot, hops⟩ := Option.bind_eq_some_iff.mp hk
  exact ⟨e, k₀, k, hboot, .of_run hC .init hops, hk, hP⟩

end H2
