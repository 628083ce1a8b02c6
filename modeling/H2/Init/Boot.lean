import H2.Init.Setup
import H2.Sched.Dosched

/-!
# Init/Boot — the first thread

All contexts are on the free lists of their VMs, in descending order, since they are pushed one
after the other.  `H2K_thread_boot` takes the first of the boot VM, puts it on the runlist of
hardware thread 0 and switches to it.  The other hardware threads start in wait mode, later.
-/

namespace H2

open Function (update update_of_ne)

variable {ι β : Type} [dι : DecidableEq ι] [dβ : DecidableEq β] {mask : BitVec 32}

/-- The handlers the kernel installs for its own interrupts. -/
def inthandlersInit (timerIntnum i : ℕ) : Inthandler ι β :=
  if i = timerIntnum then .timer
  else
    match i with
    | 0 => .vmIpi
    | 1 => .resched
    | 6 => .reschedCluster
    | _ => .null

/-- The structures with every VM block set up and nothing running. -/
def Sched.reset (M : Machine ι β) (timerIntnum : ℕ) : Sched ι β :=
  { (Sched.init : Sched ι β) with
    rings :=
      { links :=
          { next := fun t =>
              if M.cpuidx t = 0 then none else M.context (M.vmblock t) (M.cpuidx t - 1)
            prev := fun _ => none }
        head := fun _ => none }
    freeThreads := fun b => M.context b (M.maxCpus b - 1)
    inthandlers := inthandlersInit timerIntnum }

namespace Kernel

/-- The kernel before its first thread, on the hardware threads of a mask. -/
def reset (M : Machine ι β) (timerIntnum : ℕ) (mask : BitVec 32) (cluster : Cluster ι) :
    Kernel ι β where
  sched := Sched.reset M timerIntnum
  ints := ⟨fun _ _ => false, fun _ _ => false, fun _ _ => false, fun _ _ => false,
    fun _ _ => false, fun _ _ => false, fun _ => false⟩
  cluster := cluster
  threads := ⟨fun _ => 0, fun _ => false, fun _ => false, fun _ => false, fun _ => 0⟩
  vms := ⟨fun _ => 0, fun _ => 0, fun _ => 0, fun _ => false⟩
  hw := Hw.init mask

variable [Fintype ι]

/-- The end of `H2K_thread_boot`. -/
def threadBoot (M : Machine ι β) (bootvm : β) (k : Kernel ι β) : Option (Exit × Kernel ι β) :=
  match k.sched.freeThreads bootvm with
  | none => none
  | some boot =>
    { k with
      sched :=
        ((k.sched.freePop bootvm boot).setPrio boot (M.bestprio bootvm)).runlistPush boot
      threads := { k.threads with
        basePrio := update k.threads.basePrio boot (M.bestprio bootvm % 256) }
      vms := { k.vms with numCpus := update k.vms.numCpus bootvm 1 } }.switch M boot 0

/-- The state in which the boot VM gets going. -/
def boot (M : Machine ι β) (timerIntnum : ℕ) (mask : BitVec 32) (cluster : Cluster ι) (bootvm : β) :
    Option (Exit × Kernel ι β) := (reset M timerIntnum mask cluster).threadBoot M bootvm

end Kernel

/-! ## Nothing running -/

section Reset

variable (M : Machine ι β) (timerIntnum : ℕ)

omit dι dβ

/-- The first contexts of a VM, the last one pushed on top. -/
theorem isStack_reset (b : β) : ∀ n, n ≤ M.maxCpus b →
    ∃ F, IsStack (Sched.reset M timerIntnum).rings.links
        (if n = 0 then none else M.context b (n - 1)) F ∧ F.Nodup ∧
      ∀ t, t ∈ F ↔ M.vmblock t = b ∧ M.cpuidx t < n
  | 0, _ => ⟨[], rfl, List.nodup_nil, by simp⟩
  | n + 1, hn => by
      obtain ⟨F, hF, hnd, hmem⟩ := isStack_reset b n (by omega)
      have hlt : n < M.maxCpus b := by omega
      obtain ⟨t, ht⟩ := Option.isSome_iff_exists.mp (M.context_isSome.mpr hlt)
      obtain ⟨hb, hi⟩ := M.context_eq_some.mp ht
      refine ⟨t :: F, ⟨by simpa using ht, ?_⟩, List.nodup_cons.mpr ⟨?_, hnd⟩, fun u => ?_⟩
      · rw [← hi, ← hb] at hF
        exact hF
      · rw [hmem, hi]
        simp
      · rw [List.mem_cons, hmem]
        constructor
        · rintro (rfl | ⟨hub, hlt⟩)
          · exact ⟨hb, by omega⟩
          · exact ⟨hub, by omega⟩
        · rintro ⟨hub, hlt⟩
          rcases Nat.lt_succ_iff_lt_or_eq.mp hlt with hlt | heq
          · exact .inr ⟨hub, hlt⟩
          · left
            have := M.context_eq_some.mpr ⟨hub, heq⟩
            rw [ht] at this
            exact (Option.some.inj this).symm

theorem placed_reset : Placed M (Sched.reset M timerIntnum) := by
  have hplace (t : ι) : (Sched.reset M timerIntnum).place M t = .free (M.vmblock t) := rfl
  refine ⟨⟨?_, ⟨fun _ => [], ⟨fun _ => .nil _, ?_⟩, ?_⟩, ?_, fun b => ?_, ?_, rfl⟩, ?_, ?_, ?_⟩
  · intro h t
    rw [hplace]
    simp [Sched.reset, Sched.init]
  · simp
  · simp [hplace]
  · intro i t
    rw [hplace]
    simp only [Sched.reset, inthandlersInit]
    split
    · simp
    · split <;> simp
  · obtain ⟨F, hF, hnd, hmem⟩ := isStack_reset M timerIntnum b (M.maxCpus b) le_rfl
    have htop : (if M.maxCpus b = 0 then none else M.context b (M.maxCpus b - 1)) =
        (Sched.reset M timerIntnum).freeThreads b := by
      split
      · next hzero =>
        refine (Option.not_isSome_iff_eq_none.mp fun hsome => ?_).symm
        have := M.context_isSome.mp hsome
        omega
      · rfl
    rw [htop] at hF
    refine ⟨F, hF, hnd, fun {t} => ?_⟩
    rw [hmem, hplace, Place.free.injEq, and_iff_left_iff_imp]
    intro hb
    exact M.context_isSome.mp (Option.isSome_iff_exists.mpr ⟨t, M.context_eq_some.mpr ⟨hb, rfl⟩⟩)
  · intro p hp
    simp [Sched.reset, Sched.init, Sched.validBit]
  all_goals simp [Sched.reset, Sched.init]

theorem between_reset (hmask : mask.getLsbD 0 = true) (cluster : Cluster ι) :
    Between M 0 (Kernel.reset M timerIntnum mask cluster) where
  placed := placed_reset M timerIntnum
  executes _ _ := rfl
  empty := rfl
  on := hmask
  started {h t} ht := by simp [Kernel.reset, Sched.reset, Sched.init] at ht
  parents b p _ hpool := by simp [Kernel.reset, Sched.reset, Sched.init, PoolBlocked] at hpool

end Reset

/-! ## The boot thread -/

theorem maxCpus_pos_of_boot [Fintype ι] {M : Machine ι β} {timerIntnum : ℕ}
    {cluster : Cluster ι} {bootvm : β} {p : Exit × Kernel ι β}
    (hboot : Kernel.boot M timerIntnum mask cluster bootvm = some p) : 0 < M.maxCpus bootvm := by
  unfold Kernel.boot Kernel.threadBoot at hboot
  split at hboot
  · simp at hboot
  · next boot hfree =>
    have hlt := M.context_isSome.mp (Option.isSome_iff_exists.mpr ⟨boot, hfree⟩)
    omega

/-- The boot thread enters, the only one that is not dead. -/
theorem boot_enters [Fintype ι] (M : Machine ι β) (timerIntnum : ℕ)
    (hmask : mask.getLsbD 0 = true) (cluster : Cluster ι) {bootvm : β}
    (hpos : 0 < M.maxCpus bootvm) :
    ∃ (boot : ι) (k : Kernel ι β), Kernel.boot M timerIntnum mask cluster bootvm =
      k.switch M boot 0 ∧ Coherent M (k.switchTo boot 0) ∧
      SameConfig (Kernel.reset M timerIntnum mask cluster) (k.switchTo boot 0) ∧
      Elsewhere 0 (Kernel.reset M timerIntnum mask cluster) (k.switchTo boot 0) ∧
      M.vmblock boot = bootvm ∧
      k.sched.status = update (fun _ => .dead) boot .running ∧
      k.vms.numCpus = update (fun _ => 0) bootvm 1 ∧ k.vms.freed = fun _ => false := by
  have hb := between_reset M timerIntnum hmask cluster
  obtain ⟨boot, hfree⟩ :
      ∃ boot, (Kernel.reset M timerIntnum mask cluster).sched.freeThreads bootvm =
      some boot := Option.isSome_iff_exists.mp (M.context_isSome.mpr (by omega))
  obtain ⟨-, hvm, hhand⟩ := hb.placed.popFree hfree
  unfold Kernel.boot Kernel.threadBoot
  rw [hfree]
  refine ⟨boot, _, rfl, ?_, ⟨rfl, rfl, rfl, rfl, id⟩, ⟨fun h hh => ?_, fun _ _ => rfl⟩,
    hvm, rfl, rfl, rfl⟩
  · refine hb.enter (hhand.setPrio (M.bestprio bootvm)) ?_ rfl rfl rfl rfl
      ⟨rfl, rfl, rfl, rfl, id⟩ rfl
    exact { AgreeOff.refl boot _ with prio := fun u hu => by simp [hu] }
  · exact update_of_ne hh ..

/-- … and is left running. -/
theorem boot_eq_some [Fintype ι] (M : Machine ι β) (timerIntnum : ℕ) (mask : BitVec 32)
    (cluster : Cluster ι) {bootvm : β} {boot : ι}
    (hboot : M.context bootvm (M.maxCpus bootvm - 1) = some boot) :
    ∃ e k, Kernel.boot M timerIntnum mask cluster bootvm = some (e, k) ∧
      k.sched.status = update (fun _ => .dead) boot .running ∧
      k.vms.numCpus = update (fun _ => 0) bootvm 1 ∧ (k.vms.freed = fun _ => false) ∧
      k.hw.sgp = update (fun _ => none) 0 (some boot) ∧ (k.hw.latched = fun _ => none) ∧
      k.hw.hung = false ∧ k.hw.hthreadsMask = mask := by
  have hfree : (Kernel.reset M timerIntnum mask cluster).sched.freeThreads bootvm = some boot :=
    hboot
  unfold Kernel.boot Kernel.threadBoot
  rw [hfree]
  refine ⟨_, _, rfl, rfl, rfl, rfl, ?_⟩
  simp only [Kernel.checkSanity]
  rw [Hw.checkSanity_eq]
  exact ⟨rfl, rfl, rfl, rfl⟩

theorem boot_runs [Fintype ι] {M : Machine ι β} {timerIntnum : ℕ}
    {cluster : Cluster ι} {bootvm : β} {e : Exit} {k : Kernel ι β}
    (hboot : Kernel.boot M timerIntnum mask cluster bootvm = some (e, k)) :
    ∃ boot, M.context bootvm (M.maxCpus bootvm - 1) = some boot ∧
      k.sched.status = update (fun _ => .dead) boot .running ∧
      k.vms.freed = fun _ => false := by
  have hpos := maxCpus_pos_of_boot hboot
  obtain ⟨boot, hcontext⟩ : ∃ boot, M.context bootvm (M.maxCpus bootvm - 1) = some boot :=
    Option.isSome_iff_exists.mp (M.context_isSome.mpr (by omega))
  obtain ⟨e', k', hk', hst, -, hfreed, -⟩ := boot_eq_some M timerIntnum mask cluster hcontext
  obtain ⟨-, rfl⟩ := Prod.mk.inj (Option.some.inj (hk'.symm.trans hboot))
  exact ⟨boot, hcontext, hst, hfreed⟩

/-- **The kernel boots**, with one thread running. -/
theorem boot_ends [Fintype ι] (M : Machine ι β) (timerIntnum : ℕ)
    (hmask : mask.getLsbD 0 = true) (cluster : Cluster ι) {bootvm : β}
    (hpos : 0 < M.maxCpus bootvm) : Ends (Settled M 0 (Kernel.reset M timerIntnum mask cluster))
      (Kernel.boot M timerIntnum mask cluster bootvm) := by
  obtain ⟨boot, k, hboot, hc, hcfg, hel, -⟩ := boot_enters M timerIntnum hmask cluster hpos
  rw [hboot]
  exact (switch_ends hc).mono fun k' hk' => hk'.of_config hcfg hel

end H2
