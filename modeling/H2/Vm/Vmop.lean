import H2.Futex.Futex

/-!
# Vm/Vmop — creating threads and killing them

A new thread comes from the free list of its VM.  A killed one is marked, and stops when it next
does its work; to get there it is made ready wherever it waits, much as an interrupt is delivered —
but with no look at `IE`, and without the preemption test that follows every other wake-up.
-/

namespace H2

open Function

variable {ι β : Type} [dι : DecidableEq ι] [dβ : DecidableEq β]

/-- `H2K_ID_MAX_VMS`. -/
def h2kIdMaxVms : ℕ := 64

/-- `VMOP_KILL_VM_SELF`. -/
def vmopKillVmSelf : ℕ := 0

namespace Machine

/-- `t->id.raw`, as the `s32_t` a trap returns. -/
def idRaw (M : Machine ι β) (t : ι) : ℤ :=
  (BitVec.ofNat 32 (M.vmidx (M.vmblock t) * 0x4000000 + M.cpuidx t * 0x400)).toInt

/-- The contexts of a VM, in order. -/
def contexts (M : Machine ι β) (b : β) : List ι :=
    (List.range (M.maxCpus b)).filterMap (M.context b)

/-- A VM may be operated on by its own threads and by those of the VM that created it. -/
def mayOperate (M : Machine ι β) (me : ι) (b : β) : Bool :=
  M.vmidx (M.vmblock me) = M.vmidx b || M.vmidx (M.vmblock me) = (M.parent b).1

end Machine

namespace Sched

/-- `vmblock->free_threads = tmp`, its `next` untouched. -/
def freeReturn (b : β) (t : ι) (s : Sched ι β) : Sched ι β :=
  { s with freeThreads := update s.freeThreads b (some t) }

end Sched

namespace Kernel

/-- The context fields `H2K_thread_create_no_squash` writes that say nothing about places. -/
def initThread (tmp : ι) (prio gevb : ℕ) (k : Kernel ι β) : Kernel ι β :=
  { k with threads :=
      { basePrio := update k.threads.basePrio tmp (prio % 256)
        vmwork := update k.threads.vmwork tmp false
        kill := update k.threads.kill tmp false
        ie := update k.threads.ie tmp false
        gevb := update k.threads.gevb tmp gevb } }

/-- `H2K_thread_create_no_squash`; `asid` says whether `H2K_asid_table_inc` finds one. -/
def threadCreateNoSquash (M : Machine ι β) (pc sp arg1 prio : ℕ) (asid : Bool) (b : β) (me : ι)
    (k : Kernel ι β) : Option (Exit × Kernel ι β) :=
  if maxPrio < prio ∨ prio < M.bestprio b ∨ sp % 8 ≠ 0 ∨ pc % 4 ≠ 0 then some (.returned (-1), k)
  else
    match k.sched.freeThreads b with
    | none => some (.returned (-1), k)
    | some tmp =>
      let gevb := if k.vms.numCpus b = 0 then 0 else k.threads.gevb me
      let s := ((k.sched.freePop b tmp).setPrio tmp prio).setR00 tmp arg1
      let k := k.initThread tmp prio gevb
      if asid then
        some (.returned (M.idRaw tmp), { k with
          sched := s.readyAppend tmp
          cluster := { k.cluster with
            ctx := update k.cluster.ctx tmp (false, false, false) }
          vms := { k.vms with
            numCpus := update k.vms.numCpus b ((k.vms.numCpus b + 1) % 0x100000000) }
          }.checkSanity)
      else some (.returned (-1), { k with sched := s.freeReturn b tmp })

/-- `H2K_vmop_boot`. -/
def vmopBoot (M : Machine ι β) (pc sp arg1 prio vm : ℕ) (asid : Bool) (me : ι) (k : Kernel ι β) :
    Option (Exit × Kernel ι β) :=
  if h2kIdMaxVms ≤ vm then some (.returned (-1), k)
  else
    match M.vmblocks vm with
    | none => some (.returned (-1), k)
    | some b =>
      if M.vmidx (M.vmblock me) ≠ (M.parent b).1 ∨ 0 < k.vms.numCpus b then some (.returned (-1), k)
      else k.threadCreateNoSquash M pc sp arg1 prio asid b me

/-- `kill_thread_locked`. -/
def killThreadLocked (M : Machine ι β) (target : ι) (k : Kernel ι β) : Kernel ι β :=
  let marked := { k with threads := { k.threads with
    kill := update k.threads.kill target true
    vmwork := update k.threads.vmwork target true } }
  match k.sched.status target with
  | .dead => k
  | .vmwait =>
    { marked with vms := clearWaiting M target k.vms, sched := k.sched.readyAppend target }
  | .running => marked.vmIpiSendWithlock target
  | .intblocked => { marked with sched := (k.sched.popupCancel target).readyAppend target }
  | .blocked => { marked with sched := (k.sched.futexCancel target).readyAppend target }
  | .ready => marked

/-- `H2K_vmop_kill_thread`. -/
def vmopKillThread (M : Machine ι β) (id : ℕ) (me : ι) (k : Kernel ι β) :
    Option (Exit × Kernel ι β) :=
  match M.vmblocks (idFields id).1 with
  | none => some (.returned 0, k)
  | some b =>
    if M.mayOperate me b then
      match M.context b (idFields id).2 with
      | none => some (.returned (-1), k)
      | some target => some (.returned 0, k.killThreadLocked M target)
    else some (.returned (-1), k)

/-- `H2K_vmop_kill_vm` once the VM is found. -/
def killVm (M : Machine ι β) (status : ℤ) (me : ι) (b : β) (k : Kernel ι β) : Exit × Kernel ι β :=
  if M.mayOperate me b then
    (.returned 0, (M.contexts b).foldl (fun k t => k.killThreadLocked M t)
      { k with vms := { k.vms with status := update k.vms.status b status } })
  else (.returned (-1), k)

/-- `H2K_vmop_kill_vm`. -/
def vmopKillVm (M : Machine ι β) (vm : ℕ) (status : ℤ) (me : ι) (k : Kernel ι β) :
    Option (Exit × Kernel ι β) :=
  if vm = vmopKillVmSelf then some (k.killVm M status me (M.vmblock me))
  else if h2kIdMaxVms ≤ vm then some (.returned (-1), k)
  else
    match M.vmblocks vm with
    | none => some (.returned 0, k)
    | some b => some (k.killVm M status me b)

end Kernel

/-! ## Creating -/

section Create

variable {M : Machine ι β} {k : Kernel ι β} {h : ℕ} {me : ι}

omit dβ in
/-- The fields of a thread that is not in an intpool, nor about to be. -/
theorem ParentsReachable.initThread (hp : ParentsReachable M k) {k' : Kernel ι β} {t : ι}
    (ha : AgreeOff t k.sched k'.sched) (hst : k'.sched.status t ≠ .intblocked) {prio gevb : ℕ}
    (hthreads : k'.threads = (k.initThread t prio gevb).threads) : ParentsReachable M k' := by
  refine hp.of_agreeOff ha (fun u hu => ?_) fun _ _ hpool => absurd hpool.1 hst
  rw [hthreads]
  simp [Kernel.initThread, hu]

/-- **Creating a thread** takes it off the free list and makes it ready — or leaves it there. -/
theorem threadCreateNoSquash_ends (hc : Coherent M k) (pc sp arg1 prio : ℕ) (asid : Bool) (b : β) :
    Ends (After M h k) (k.threadCreateNoSquash M pc sp arg1 prio asid b me) := by
  unfold Kernel.threadCreateNoSquash
  split
  · exact .some (.refl hc)
  split
  · exact .some (.refl hc)
  next tmp hfree =>
  obtain ⟨hdead, -, hhand⟩ := hc.placed.popFree hfree
  simp only
  have hfields : AgreeOff tmp k.sched ((k.sched.setPrio tmp prio).setR00 tmp arg1) :=
    { AgreeOff.refl tmp k.sched with
      prio := fun u hu => by simp [hu]
      r00 := fun u hu => by simp [hu] }
  split
  · have hplaced := ((hhand.setPrio prio).setR00 arg1).readyAppend
    refine .some (.checkSanity (hc.congr hplaced rfl rfl ⟨rfl, rfl, rfl, rfl, id⟩ ?_)
      ⟨rfl, rfl, rfl, rfl, id⟩ (.of_eq rfl rfl))
    refine hc.parents.initThread ⟨fun u hu => by simp [hu], hfields.prio, hfields.hthread,
      hfields.futexPtr, hfields.r00⟩ (by simp) rfl
  · -- the free list is as it was
    have hback : (((k.sched.freePop b tmp).setPrio tmp prio).setR00 tmp arg1).freeReturn b tmp =
        (k.sched.setPrio tmp prio).setR00 tmp arg1 := by
      simp [Sched.freePop, Sched.freeReturn, Sched.setPrio, Sched.setR00, ← hfree]
    rw [hback]
    have hrun (h : ℕ) : k.sched.runlist h ≠ some tmp := fun e => by
      have := (hc.placed.runlist_iff.mp e).1
      simp [hdead] at this
    have hplaced : Placed M ((k.sched.setPrio tmp prio).setR00 tmp arg1) :=
      hc.placed.congr hfields (by simp [Sched.place, hdead]) rfl rfl rfl rfl rfl rfl
        ((hc.placed.prios.setPrio hrun prio).congr rfl rfl rfl)
    refine .some ⟨⟨hc.congr hplaced rfl rfl ⟨rfl, rfl, rfl, rfl, id⟩ ?_, ⟨rfl, rfl, rfl, rfl, id⟩,
      .of_eq rfl rfl⟩, fun _ hmiss _ hmissed => hmiss ?_⟩
    · exact hc.parents.initThread hfields (by simp [hdead]) rfl
    · -- a dead thread is missed by nobody
      have hprio {u : ι} {v : Status} (hu : k.sched.status u = v) (hv : v ≠ .dead) :
          ((k.sched.setPrio tmp prio).setR00 tmp arg1).prio u = k.sched.prio u := by
        have hne : u ≠ tmp := by
          rintro rfl
          exact hv (hu.symm.trans hdead)
        simp [hne]
      rcases hmissed with ⟨t, u, ht, hu, hlt⟩ | hwait
      · refine .inl ⟨t, u, ht, hu, ?_⟩
        rw [← hprio ht (by simp), ← hprio hu (by simp)]
        exact hlt
      · exact .inr hwait

theorem vmopBoot_ends (hc : Coherent M k) (pc sp arg1 prio vm : ℕ) (asid : Bool) :
    Ends (After M h k) (k.vmopBoot M pc sp arg1 prio vm asid me) := by
  unfold Kernel.vmopBoot
  split
  · exact .some (.refl hc)
  split
  · exact .some (.refl hc)
  split
  · exact .some (.refl hc)
  · exact threadCreateNoSquash_ends hc pc sp arg1 prio asid _

end Create

/-! ## Killing -/

section Kill

variable {M : Machine ι β} {k k' k'' : Kernel ι β} {h : ℕ} {me : ι} {T : ι → Prop}

/-- The thread waits: it is not running or ready, and not dead. -/
def Waits (s : Sched ι β) (t : ι) : Prop :=
  s.status t ≠ .running ∧ s.status t ≠ .ready ∧ s.status t ≠ .dead

/-- What killing does: some of the targets that wait are made ready, and no interrupt is raised. -/
structure Kills (M : Machine ι β) (T : ι → Prop) (k k' : Kernel ι β) : Prop where
  placed : Placed M k'.sched
  stirs : Stirs k k'
  reschedInt : k'.hw.reschedInt = k.hw.reschedInt
  ready : ∀ t, k'.sched.status t = .ready → k.sched.status t = .ready ∨ T t ∧ Waits k.sched t

section

omit dι dβ

theorem Kills.refl (hs : Placed M k.sched) : Kills M T k k := ⟨hs, .refl k, rfl, fun _ => .inl⟩

theorem Kills.trans (hk : Kills M T k k') (hk' : Kills M T k' k'') : Kills M T k k'' := by
  refine ⟨hk'.placed, hk.stirs.trans hk'.stirs, hk'.reschedInt.trans hk.reschedInt, fun t ht => ?_⟩
  rcases hk'.ready t ht with ht' | ⟨hT, hrun, hready, hdead⟩
  · exact hk.ready t ht'
  · rcases hk.stirs.wakes.status t with ⟨hst, -⟩ | ⟨-, -, hst⟩
    · exact .inr ⟨hT, hst ▸ hrun, hst ▸ hready, hst ▸ hdead⟩
    · exact absurd hst hready

end

/-- The marks of a killed thread. -/
def Kernel.marked (target : ι) (k : Kernel ι β) : Kernel ι β :=
  { k with threads := { k.threads with
    kill := update k.threads.kill target true
    vmwork := update k.threads.vmwork target true } }

/-- **What a kill can do**: nothing to the dead, an IPI to the running, and a wait cut short. -/
theorem killThreadLocked_cases (M : Machine ι β) (t : ι) (k : Kernel ι β) :
    (k.sched.status t = .dead ∧ k.killThreadLocked M t = k) ∨
    (k.sched.status t = .running ∧ k.killThreadLocked M t = (k.marked t).vmIpiSendWithlock t) ∨
    (k.sched.status t = .ready ∧ k.killThreadLocked M t = k.marked t) ∨
    ∃ s v, Rouses M t k s v ∧
      k.killThreadLocked M t = { k.marked t with sched := s.readyAppend t, vms := v } := by
  unfold Kernel.killThreadLocked
  split
  · next hst => exact .inl ⟨hst, rfl⟩
  · next hst =>
    refine .inr (.inr (.inr ⟨_, _, .vmwait hst (k.sched.r00 t), ?_⟩))
    rw [Sched.setR00, update_eq_self]
    rfl
  · next hst => exact .inr (.inl ⟨hst, rfl⟩)
  · next hst => exact .inr (.inr (.inr ⟨_, _, .popup hst, rfl⟩))
  · next hst => exact .inr (.inr (.inr ⟨_, _, .futex hst, rfl⟩))
  · next hst => exact .inr (.inr (.inl ⟨hst, rfl⟩))

theorem killThreadLocked_kills (hs : Placed M k.sched) {target : ι} (hT : T target)
    (hpool : ¬PoolBlocked k.sched target) : Kills M T k (k.killThreadLocked M target) := by
  have hmarked : Stirs k (k.marked target) := .of_flags rfl rfl rfl fun _ => id
  rcases killThreadLocked_cases M target k with ⟨-, heq⟩ | ⟨-, heq⟩ | ⟨-, heq⟩ | ⟨s, v, hr, heq⟩ <;>
    rw [heq]
  · exact .refl hs
  · obtain ⟨hstirs, hsched, hint⟩ := vmIpiSendWithlock_stirs target (k.marked target)
    refine ⟨hsched ▸ hs, hmarked.trans hstirs, hint, fun t ht => ?_⟩
    rw [hsched] at ht
    exact .inl ht
  · exact ⟨hs, hmarked, rfl, fun _ => .inl⟩
  · obtain ⟨hhand, ha⟩ := hr.inHand hs hpool
    refine ⟨hhand.readyAppend, ⟨hr.wakes ha, rfl, rfl, ⟨rfl, rfl, rfl, rfl, id⟩, fun _ => id⟩, rfl,
      fun t ht => ?_⟩
    by_cases htt : t = target
    · exact .inr ⟨htt ▸ hT, htt ▸ hr.waits⟩
    · rw [Sched.readyAppend_status, update_of_ne htt, ha.status t htt] at ht
      exact .inl ht

theorem foldl_kills : ∀ (ts : List ι) {k : Kernel ι β}, Placed M k.sched → (∀ t ∈ ts, T t) →
    (∀ t ∈ ts, ¬PoolBlocked k.sched t) →
    Kills M T k (ts.foldl (fun k t => k.killThreadLocked M t) k)
  | [], _, hs, _, _ => .refl hs
  | t :: ts, k, hs, hT, hpool => by
      have hk := killThreadLocked_kills hs (hT t List.mem_cons_self) (hpool t List.mem_cons_self)
      exact hk.trans (foldl_kills ts hk.placed (fun u hu => hT u (List.mem_cons_of_mem t hu))
        fun u hu hp => hpool u (List.mem_cons_of_mem t hu) (hk.stirs.poolBlocked hp))

/-- The preemption test a kill leaves out would have raised nothing new. -/
def KillSeen (T : ι → Prop) (k : Kernel ι β) : Prop :=
  k.hw.reschedInt = true ∨ ∀ t, T t → Waits k.sched t →
    k.hw.waitMask = 0 ∧ ∀ u, k.sched.status u = .running → k.sched.prio u ≤ k.sched.prio t

section

omit dι dβ

theorem Kills.keeps (hk : Kills M T k k') (hc : Coherent M k) : Keeps M h k k' :=
  ⟨hk.stirs.coherent hc hk.placed, hk.stirs.config, hk.stirs.elsewhere⟩

theorem Kills.noMissed (hk : Kills M T k k') (hseen : KillSeen T k) (hmiss : NoMissed k) :
    NoMissed k' := by
  intro hmissed
  rw [hk.reschedInt]
  rcases hseen with hint | hseen
  · exact hint
  refine hmiss ?_
  rw [Missed, hk.stirs.waitMask, hk.stirs.wakes.prio] at hmissed
  rcases hmissed with ⟨t, u, ht, hu, hlt⟩ | ⟨hwait, t, ht⟩
  · rw [hk.stirs.wakes.running_iff] at hu
    rcases hk.ready t ht with ht | ⟨hT, hwaits⟩
    · exact .inl ⟨t, u, ht, hu, hlt⟩
    · exact absurd ((hseen t hT hwaits).2 u hu) (by omega)
  · rcases hk.ready t ht with ht | ⟨hT, hwaits⟩
    · exact .inr ⟨hwait, t, ht⟩
    · exact absurd (hseen t hT hwaits).1 hwait

end

/-- The threads `H2K_vmop_kill_thread` kills, … -/
def KillThreadTarget (M : Machine ι β) (id : ℕ) (t : ι) : Prop :=
  M.idToContext (idFields id) = some t

/-- … and those of `H2K_vmop_kill_vm`. -/
def KillVmTarget (M : Machine ι β) (vm : ℕ) (me t : ι) : Prop :=
  if vm = vmopKillVmSelf then M.vmblock t = M.vmblock me else M.vmblocks vm = some (M.vmblock t)

omit dι dβ in
theorem Machine.mem_contexts {b : β} {t : ι} : t ∈ M.contexts b ↔ M.vmblock t = b := by
  unfold Machine.contexts
  rw [List.mem_filterMap]
  constructor
  · rintro ⟨i, -, hi⟩
    exact (M.context_eq_some.mp hi).1
  · intro ht
    have hi : M.context b (M.cpuidx t) = some t := M.context_eq_some.mpr ⟨ht, rfl⟩
    exact ⟨M.cpuidx t, List.mem_range.mpr (M.context_isSome.mp (by simp [hi])), hi⟩

/-- The VM that a thread names to `H2K_vmop_kill_vm`. -/
def KillsVm (M : Machine ι β) (vm : ℕ) (me : ι) (b : β) : Prop :=
  if vm = vmopKillVmSelf then b = M.vmblock me else M.vmblocks vm = some b

/-- The exit status of a VM is written. -/
def Kernel.stamped (b : β) (status : ℤ) (k : Kernel ι β) : Kernel ι β :=
  { k with vms := { k.vms with status := update k.vms.status b status } }

section Cases

variable (M : Machine ι β) (me : ι) (k : Kernel ι β)

theorem vmopKillThread_cases (id : ℕ) : (∃ r, k.vmopKillThread M id me = some (.returned r, k)) ∨
      ∃ t, KillThreadTarget M id t ∧ M.mayOperate me (M.vmblock t) = true ∧
        k.vmopKillThread M id me = some (.returned 0, k.killThreadLocked M t) := by
  unfold Kernel.vmopKillThread
  split
  · exact .inl ⟨_, rfl⟩
  next b hb =>
  split
  · next hop =>
    split
    · exact .inl ⟨_, rfl⟩
    · next t ht =>
      refine .inr ⟨t, ?_, (M.context_eq_some.mp ht).1 ▸ hop, rfl⟩
      rw [KillThreadTarget, Machine.idToContext, hb]
      exact ht
  · exact .inl ⟨_, rfl⟩

/-- The threads of a VM are killed, one after the other, or nothing done. -/
theorem vmopKillVm_cases (vm : ℕ) (status : ℤ) : (∃ r, (r = 0 → ∀ b, ¬KillsVm M vm me b) ∧
        k.vmopKillVm M vm status me = some (.returned r, k)) ∨
      ∃ b, (∀ b', KillsVm M vm me b' ↔ b' = b) ∧ M.mayOperate me b = true ∧
        k.vmopKillVm M vm status me = some (.returned 0,
          (M.contexts b).foldl (fun k t => k.killThreadLocked M t) (k.stamped b status)) := by
  obtain ⟨r, hr, heq⟩ | ⟨b, hb, heq⟩ : (∃ r, (r = 0 → ∀ b, ¬KillsVm M vm me b) ∧
      k.vmopKillVm M vm status me = some (.returned r, k)) ∨
      ∃ b, (∀ b', KillsVm M vm me b' ↔ b' = b) ∧
        k.vmopKillVm M vm status me = some (k.killVm M status me b) := by
    unfold Kernel.vmopKillVm KillsVm
    by_cases hself : vm = vmopKillVmSelf
    · simp only [if_pos hself]
      exact .inr ⟨_, fun _ => Iff.rfl, rfl⟩
    simp only [if_neg hself]
    split
    · exact .inl ⟨-1, nofun, rfl⟩
    split
    · next hnone => exact .inl ⟨0, by simp [hnone], rfl⟩
    · next b hb => exact .inr ⟨b, fun b' => by rw [hb, Option.some.injEq, eq_comm], rfl⟩
  · exact .inl ⟨r, hr, heq⟩
  · by_cases hop : M.mayOperate me b = true
    · exact .inr ⟨b, hb, hop, by rw [heq, Kernel.killVm, if_pos hop]; rfl⟩
    · exact .inl ⟨-1, nofun, by rw [heq, Kernel.killVm, if_neg hop]⟩

end Cases

/-- An operation that kills some of the targets, or none. -/
theorem vmopKillThread_ends (hc : Coherent M k) {id : ℕ}
    (hpool : ∀ t, KillThreadTarget M id t → ¬PoolBlocked k.sched t) :
    Ends (Kills M (KillThreadTarget M id) k) (k.vmopKillThread M id me) := by
  rcases vmopKillThread_cases M me k id with ⟨r, heq⟩ | ⟨t, ht, -, heq⟩ <;> rw [heq]
  · exact .some (.refl hc.placed)
  · exact .some (killThreadLocked_kills hc.placed ht (hpool t ht))

theorem vmopKillVm_ends (hc : Coherent M k) {vm : ℕ}
    (hpool : ∀ t, KillVmTarget M vm me t → ¬PoolBlocked k.sched t) (status : ℤ) :
    Ends (Kills M (KillVmTarget M vm me) k) (k.vmopKillVm M vm status me) := by
  rcases vmopKillVm_cases M me k vm status with ⟨r, -, heq⟩ | ⟨b, hb, -, heq⟩ <;> rw [heq]
  · exact .some (.refl hc.placed)
  · have hstamped : Kills M (KillVmTarget M vm me) k (k.stamped b status) :=
      ⟨hc.placed, .of_flags rfl rfl rfl fun _ => id, rfl, fun _ => .inl⟩
    have htarget (t : ι) (ht : t ∈ M.contexts b) : KillVmTarget M vm me t :=
      (hb _).mpr (M.mem_contexts.mp ht)
    exact .some (hstamped.trans (foldl_kills _ hc.placed htarget fun t ht => hpool t
      (htarget t ht)))

end Kill

end H2
