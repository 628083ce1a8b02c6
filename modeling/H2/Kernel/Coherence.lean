import H2.Kernel.Run

/-!
# Kernel/Coherence — what every run keeps, and what it takes

Every step keeps the kernel coherent, provided a few things do not happen: an interrupt delivered,
or a kill, to a thread in an intpool, which is then taken for one with a popup; a popup or intpool
interrupt on another hardware thread than its thread last ran on; a handler that changed or was
missing when the lock was finally held.  `Safe` is the list of them.  `Seen` is the same for the
preemption test: a kill, and a hardware thread that starts, leave it out.
-/

namespace H2

open Kernel Function

variable {ι β : Type} [dι : DecidableEq ι] [dβ : DecidableEq β] [fι : Fintype ι]

/-! ## Conditions on a step -/

/-- What a trap asks of the state it is made in. -/
def Trap.Safe (M : Machine ι β) (me : ι) (k : Kernel ι β) : Trap → Prop
  -- a thread that VMs report to does not wait in an intpool with its interrupts enabled
  | .intpoolWait => ∀ b, M.idToContext (M.parent b) = some me → k.threads.ie me = false
  | .intpoolConfigure intno _ =>
    intno < maxInterrupts ∧ ∀ u, k.sched.inthandlers intno ≠ .popup u
  | .vmopKillThread id => ∀ t, KillThreadTarget M id t → ¬PoolBlocked k.sched t
  | .vmopKillVm vm _ => ∀ t, KillVmTarget M vm me t → ¬PoolBlocked k.sched t
  | _ => True

/-- What an interrupt asks of the state it is handled in. -/
def Inthandler.Safe (h intno : ℕ) (expired : List ι) (k : Kernel ι β) : Inthandler ι β → Prop
  | .null => k.hw.sgp h = none
  | .popup woken => k.sched.inthandlers intno = .popup woken ∧ k.sched.hthread woken = h
  | .intpool b =>
    ∀ woken, k.sched.rings.head (.intpool b) = some woken → k.sched.hthread woken = h
  | .timer => ∀ t ∈ expired, Deliverable k t
  | _ => True

/-- What a step asks of the state it is made in. -/
def Safe (M : Machine ι β) (h : ℕ) (op : Op ι β) (k : Kernel ι β) : Prop :=
  match op with
  | .trap t => ∀ me, k.hw.sgp h = some me → t.Safe M me k
  | .post dst _ | .deliver dst _ => Deliverable k dst
  | .handleInt expired => ∀ p, k.hw.latched h = some p → p.2.Safe h p.1 expired k
  | _ => True

/-- What a step that makes threads ready, or a hardware thread wait, without a test for preemption
asks for. -/
def Seen (M : Machine ι β) (h : ℕ) (op : Op ι β) (k : Kernel ι β) : Prop :=
  match op with
  | .trap (.vmopKillThread id) => KillSeen (KillThreadTarget M id) k
  | .trap (.vmopKillVm vm _) => ∀ me, k.hw.sgp h = some me → KillSeen (KillVmTarget M vm me) k
  | .start => k.hw.reschedInt = true ∨ ∀ t, k.sched.status t ≠ .ready
  | _ => True

/-! ## One step -/

/-- Hardware thread `h` has acknowledged `RESCHED_INT`, and will reschedule when it gets the
lock. -/
def Caught (h : ℕ) (k : Kernel ι β) : Prop := ∃ intno, k.hw.latched h = some (intno, .resched)

/-- A hardware thread that took an interrupt in wait mode counts as waiting. -/
def Awaits (h : ℕ) (k : Kernel ι β) : Prop :=
  k.hw.latched h ≠ none → k.hw.sgp h = none → k.hw.waitMask.getLsbD h = true

/-- What a step of hardware thread `h` does. -/
structure StepTo (M : Machine ι β) (h : ℕ) (seen : Prop) (k k' : Kernel ι β) : Prop where
  coherent : Coherent M k'
  plain : Plain k → Plain k'
  latched : ∀ h', h' ≠ h → k'.hw.latched h' = k.hw.latched h'
  elsewhere : Elsewhere h k k'
  awaits : Awaits h k → Awaits h k'
  noMissed : seen → Plain k → Awaits h k → k'.hw.hung = false → NoMissed k →
    NoMissed k' ∨ Caught h k'
  caught : Plain k → k'.hw.hung = false → Caught h k → NoMissed k' ∨ Caught h k'

section Steps

variable {M : Machine ι β} {k k' : Kernel ι β} {h : ℕ} {seen : Prop} {e : Inthandler ι β}

section

omit dι dβ fι

theorem Keeps.stepTo (hk : Keeps M h k k') (hnone : k.hw.latched h = none)
    (hmiss : seen → Plain k → NoMissed k → k'.hw.hung = false → NoMissed k') :
    StepTo M h seen k k' where
  coherent := hk.coherent
  plain := hk.config.plain
  latched h' _ := by rw [hk.config.latched]
  elsewhere := hk.elsewhere
  awaits _ hne := absurd (by rw [hk.config.latched, hnone]) hne
  noMissed hs hp _ hf hm := .inl (hmiss hs hp hm hf)
  caught _ _ hc := by
    obtain ⟨intno, hc⟩ := hc
    simp [hnone] at hc

theorem After.stepTo (ha : After M h k k') (hnone : k.hw.latched h = none) : StepTo M h seen k k' :=
  ha.toKeeps.stepTo hnone fun _ => ha.noMissed

/-- Something done on the side, which switches nobody. -/
theorem After.stepTo_of_stirs (ha : After M h k k') (hs : Stirs k k') : StepTo M h seen k k' where
  coherent := ha.coherent
  plain := ha.config.plain
  latched h' _ := by rw [ha.config.latched]
  elsewhere := ha.elsewhere
  awaits hw := by
    rw [Awaits, ha.config.latched, hs.sgp, hs.waitMask]
    exact hw
  noMissed _ hp _ hf hm := .inl (ha.noMissed hp hm hf)
  caught _ _ hc := by
    obtain ⟨intno, hc⟩ := hc
    exact .inr ⟨intno, by rw [ha.config.latched, hc]⟩

theorem Kills.stepTo {T : ι → Prop} (hk : Kills M T k k') (hc : Coherent M k)
    (hnone : k.hw.latched h = none) (hseen : seen → KillSeen T k) : StepTo M h seen k k' :=
  (hk.keeps hc).stepTo hnone fun hs _ hm _ => hk.noMissed (hseen hs) hm

end

theorem trap_step (hc : Coherent M k) {me : ι} (hme : k.hw.sgp h = some me)
    (hnone : k.hw.latched h = none) (t : Trap) (hsafe : t.Safe M me k) :
    Ends (StepTo M h (Seen M h (.trap t) k) k) (k.trap M h me t) := by
  have hafter {seen : Prop} {o : Option (Exit × Kernel ι β)} (ho : Ends (After M h k) o) :
      Ends (StepTo M h seen k) o := ho.mono fun _ hk' => hk'.stepTo hnone
  cases t with
  | yield => exact hafter (schedYield_ends hc hme)
  | stop status => exact hafter (threadStopWithlock_ends hc hme status).after
  | create pc sp arg1 prio asid =>
    exact hafter (threadCreateNoSquash_ends hc pc sp arg1 prio asid _)
  | vmopBoot pc sp arg1 prio vm asid => exact hafter (vmopBoot_ends hc pc sp arg1 prio vm asid)
  | vmopKillThread id =>
    exact (vmopKillThread_ends hc hsafe).mono fun _ hk' => hk'.stepTo hc hnone fun hseen => hseen
  | vmopKillVm vm status =>
    exact (vmopKillVm_ends hc hsafe status).mono fun _ hk' =>
      hk'.stepTo hc hnone fun hseen => hseen me hme
  | futexWait lock readval val =>
    exact hafter (futexWait_ends hc hme (fun _ => safemem_lt) readval val)
  | futexResume lock nToWake => exact hafter (futexResume_ends hc _ nToWake)
  | futexLockPi lock word =>
    exact hafter (futexLockPi_ends hc hme (fun _ => safemem_lt) word)
  | futexUnlockPi lock => exact hafter (futexUnlockPi_ends hc hme _)
  | popupWait intnum => exact hafter (popupWait_ends hc hme intnum)
  | intpoolWait =>
    rw [trap]
    exact hafter (intpoolWait_ends hc hme hsafe)
  | intpoolConfigure intno enable =>
    exact hafter (intpoolConfigure_ends hc hsafe.1 hsafe.2 enable)
  | vmwait => exact hafter (vmtrapWait_ends hc hme)
  | setie enable => exact hafter (vmtrapSetie_ends hc hme enable)
  | setvec gevb => exact hafter (vmtrapSetvec_ends hc gevb)
  | intop op intno =>
    cases op with
    | enable =>
      obtain ⟨hstirs, hsched, hhw⟩ := vmCpuintEnable_stirs me intno k
      exact hafter (.some (.of_sched_eq hc hsched hstirs (by rw [hhw]; exact id)))
    | disable => exact hafter (.some (.of_sched_eq hc rfl (.of_flags rfl rfl rfl fun _ => id) id))
    | clear => exact hafter (.some (.of_sched_eq hc rfl (.of_flags rfl rfl rfl fun _ => id) id))
  | prioSet prio => exact hafter (prioSet_ends hc prio)

/-! ### Interrupts -/

section

omit dι dβ fι

theorem Coherent.setLatched (hc : Coherent M k) (v : Option (ℕ × Inthandler ι β)) :
    Coherent M (k.setLatched h v) := ⟨hc.placed, hc.executes, hc.started, hc.parents⟩

theorem Plain.setLatched (hp : Plain k) (v : Option (ℕ × Inthandler ι β)) :
    Plain (k.setLatched h v) := ⟨hp.lt_hthreads, hp.hthreads_le, hp.clusterSched⟩

theorem switchNull_keeps (hc : Coherent M k) (hsgp : k.hw.sgp h = none) :
    Keeps M h k (k.switchNull h) := by
  have hcfg : SameConfig k (k.switchNull h) := ⟨rfl, rfl, rfl, rfl, id⟩
  have hsgp' : (k.switchNull h).hw.sgp = k.hw.sgp := by
    rw [← update_eq_self h k.hw.sgp, hsgp]
    rfl
  refine ⟨hc.congr hc.placed rfl hsgp' hcfg hc.parents, hcfg, fun h' _ => by rw [hsgp'],
    fun h' hh => getLsbD_setBit _ hh⟩

end

theorem setBit_of_getLsbD {w : BitVec 32} {h : ℕ} (hbit : w.getLsbD h = true) :
    w ||| (1#32 <<< h) = w := by
  refine BitVec.eq_of_getLsbD_eq fun i hi => ?_
  by_cases hih : i = h
  · subst hih
    simp [hbit]
  · exact getLsbD_setBit w hih

theorem handler_ends (hc : Coherent M k) (hon : k.hw.hthreadsMask.getLsbD h = true) {intno : ℕ}
    {expired : List ι} (hsafe : e.Safe h intno expired k) :
    Ends (After M h k) (k.handler M h intno expired e) := by
  cases e with
  | null => exact .some (.refl hc)
  | popup woken => exact takeOver_ends hc hon (popupInt_takenOver hc.placed hsafe.1 hsafe.2)
  | intpool b => exact intpoolInt_ends hc hon intno hsafe
  | resched => exact (resched_ends hc hon).after
  | reschedCluster => exact (reschedCluster_ends hc hon).after
  | vmIpi => exact vmIpiDo_ends hc
  | timer => exact timerInt_ends hc hsafe

theorem handler_returned (hs : Placed M k.sched) (hsgp : k.hw.sgp h = none) {intno : ℕ}
    {expired : List ι} (hsafe : e.Safe h intno expired k) {r : ℤ}
    (hret : k.handler M h intno expired e = some (.returned r, k')) : Stirs k k' := by
  cases e with
  | null =>
    cases hret
    exact .refl k
  | popup woken => exact absurd hret (switch_not_returned r k')
  | intpool b =>
    rw [handler, intpoolInt] at hret
    split at hret
    · cases hret
      exact .of_flags rfl rfl rfl fun _ => id
    · exact absurd hret (switch_not_returned r k')
  | resched => exact absurd hret (dosched_not_returned r k')
  | reschedCluster => exact absurd hret (dosched_not_returned r k')
  | vmIpi =>
    rw [handler, vmIpiDo] at hret
    simp only [hsgp] at hret
    cases hret
    exact ⟨.refl _, rfl, rfl, ⟨rfl, rfl, rfl, rfl, id⟩, fun _ => id⟩
  | timer =>
    cases hret
    exact (foldl_post_stirs expired hs hsafe).1

theorem handleInt_eq {intno : ℕ}
    (hlatched : k.hw.latched h = some (intno, e)) (he : e ≠ .null) {expired : List ι} :
    k.handleInt M h expired = ((k.setLatched h none).handler M h intno expired e).map fun
        | (.returned r, k') => (.returned r,
            if (k.hw.sgp h).isNone then k'.setLatched h (some (intno, .null)) else k')
        | p => p := by
  unfold handleInt
  rw [hlatched]
  cases e <;> first | exact absurd rfl he | rfl

theorem handleInt_step (hc : Coherent M k) (hon : k.hw.hthreadsMask.getLsbD h = true)
    {intno : ℕ} (hlatched : k.hw.latched h = some (intno, e))
    {expired : List ι} (hsafe : e.Safe h intno expired k) :
    Ends (StepTo M h seen k) (k.handleInt M h expired) := by
  set k₀ := k.setLatched h none with hk₀
  have hc₀ : Coherent M k₀ := hc.setLatched none
  have hne {h' : ℕ} (hh : h' ≠ h) : k₀.hw.latched h' = k.hw.latched h' :=
    update_of_ne hh ..
  have hwait (ha : Awaits h k) (hsgp : k.hw.sgp h = none) : k.hw.waitMask.getLsbD h = true :=
    ha (by simp [hlatched]) hsgp
  by_cases hnull : e = .null
  · subst hnull
    -- back to sleep: the hardware thread counts as waiting already
    have hk := switchNull_keeps hc₀ hsafe
    have hlatched' : (k₀.switchNull h).hw.latched h = none := by
      exact update_self ..
    unfold handleInt
    rw [hlatched]
    refine .some ⟨hk.coherent, fun hp => hk.config.plain (hp.setLatched none), fun h' hh => ?_, ?_,
      fun _ hne => ?_, fun _ _ ha _ hm => .inl ?_, fun _ _ hcaught => ?_⟩
    · rw [hk.config.latched, hne hh]
    · exact ⟨hk.elsewhere.sgp, hk.elsewhere.waits⟩
    · exact absurd hlatched' hne
    · have hmask : (k₀.switchNull h).hw.waitMask = k.hw.waitMask :=
        setBit_of_getLsbD (hwait ha hsafe)
      rw [NoMissed, Missed, hmask]
      exact hm
    · obtain ⟨i, hi⟩ := hcaught
      simp [hlatched] at hi
  obtain ⟨x, k₁, hhandler, hk₁⟩ := handler_ends (h := h) hc₀ hon hsafe
  have hresched (he : e = .resched) : Plain k → k₁.hw.hung = false → NoMissed k₁ := by
    subst he
    obtain ⟨x', k', hrun, hk'⟩ := resched_ends hc₀ hon
    obtain ⟨-, rfl⟩ := Prod.mk.inj (Option.some.inj (hhandler.symm.trans hrun))
    exact fun hp => hk'.noMissed (hp.setLatched none)
  -- the step, up to what is latched in the end
  have hstep {v : Option (ℕ × Inthandler ι β)}
      (hawaits : Awaits h k → Awaits h (k₁.setLatched h v)) :
      StepTo M h seen k (k₁.setLatched h v) := by
    refine ⟨hk₁.coherent.setLatched v,
      fun hp => (hk₁.config.plain (hp.setLatched none)).setLatched v, fun h' hh => ?_, ?_, hawaits,
      fun _ hp _ hf hm => .inl (hk₁.noMissed (hp.setLatched none) hm hf),
      fun hp hf hcaught => .inl ?_⟩
    · rw [← hne hh, ← hk₁.config.latched]
      exact update_of_ne hh ..
    · exact ⟨hk₁.elsewhere.sgp, hk₁.elsewhere.waits⟩
    · obtain ⟨i, hi⟩ := hcaught
      rw [hlatched] at hi
      exact hresched (Prod.mk.inj (Option.some.inj hi)).2 hp hf
  have hdone : StepTo M h seen k k₁ := by
    have hnone : k₁.hw.latched h = none := by
      rw [hk₁.config.latched]
      exact update_self ..
    have hself : k₁.setLatched h none = k₁ := by
      rw [← hnone]
      simp [setLatched]
    rw [← hself]
    exact hstep fun _ hne => absurd (update_self ..) hne
  rw [handleInt_eq hlatched hnull, hhandler]
  cases x with
  | returned r =>
    split
    · next hsgp =>
      rw [Option.isNone_iff_eq_none] at hsgp
      have hstirs := handler_returned hc₀.placed hsgp hsafe hhandler
      refine .some (hstep fun ha _ _ => ?_)
      exact (congrArg (·.getLsbD h) hstirs.waitMask).trans (hwait ha hsgp)
    · exact .some hdone
  | switched => exact .some hdone
  | hung => exact .some hdone

omit fι in
theorem takeInt_step (hc : Coherent M k) (hnone : k.hw.latched h = none)
    (hmode : k.hw.sgp h ≠ none ∨ k.hw.waitMask.getLsbD h = true) (intno : ℕ) :
    StepTo M h seen k (k.takeInt h intno) := by
  have hlatched : (k.takeInt h intno).hw.latched =
      update k.hw.latched h (some (intno, k.sched.inthandlers intno)) := by
    unfold takeInt
    simp only
    split <;> rfl
  have hsame : (k.takeInt h intno).sched = k.sched ∧ (k.takeInt h intno).hw.sgp = k.hw.sgp ∧
      (k.takeInt h intno).hw.waitMask = k.hw.waitMask ∧
      (k.takeInt h intno).hw.hthreadsMask = k.hw.hthreadsMask ∧
      (k.takeInt h intno).hw.hthreads = k.hw.hthreads ∧
      (k.takeInt h intno).cluster.sched = k.cluster.sched ∧
      (k.takeInt h intno).threads = k.threads := by
    unfold takeInt
    simp only
    split <;> exact ⟨rfl, rfl, rfl, rfl, rfl, rfl, rfl⟩
  obtain ⟨hsched, hsgp, hwait, hmask, hhthreads, hcluster, hthreads⟩ := hsame
  refine ⟨⟨hsched ▸ hc.placed, fun h' => by rw [hsgp, hsched, hc.executes], ?_, ?_⟩, fun hp => ?_,
    fun h' hh => ?_, .of_eq hsgp hwait, fun _ _ hsgpn => ?_, fun _ _ _ _ hm => ?_,
    fun _ _ hcaught => ?_⟩
  · rw [hsched, hmask]
    exact hc.started
  · intro b p hbp
    rw [hsched, hthreads]
    exact hc.parents b p hbp
  · exact ⟨by rw [hmask, hhthreads]; exact hp.lt_hthreads, by rw [hhthreads]; exact hp.hthreads_le,
      by rw [hcluster, hp.clusterSched]⟩
  · rw [hlatched, update_of_ne hh]
  · rw [hsgp] at hsgpn
    rw [hwait]
    exact hmode.resolve_left fun hne => hne hsgpn
  · by_cases hentry : k.sched.inthandlers intno = .resched
    · exact .inr ⟨intno, by rw [hlatched, update_self, hentry]⟩
    · left
      have hint : (k.takeInt h intno).hw.reschedInt = k.hw.reschedInt := by
        unfold takeInt
        simp only
        split
        · next he => exact absurd he hentry
        all_goals rfl
      rw [NoMissed, Missed, hint, hsched, hwait]
      exact hm
  · obtain ⟨i, hi⟩ := hcaught
    simp [hnone] at hi

theorem exec_step (hc : Coherent M k) {op : Op ι β} (hen : k.enabled h op = true)
    (hsafe : Safe M h op k) : Ends (StepTo M h (Seen M h op k) k) (k.exec M h op) := by
  rw [exec, if_pos hen]
  simp only [enabled, Bool.and_eq_true] at hen
  obtain ⟨⟨-, hon⟩, hop⟩ := hen
  cases op with
  | trap t =>
    simp only [Bool.and_eq_true, Option.isSome_iff_exists, Option.isNone_iff_eq_none] at hop
    obtain ⟨⟨me, hme⟩, hnone⟩ := hop
    rw [perform, hme]
    exact trap_step hc hme hnone t (hsafe me hme)
  | post dst intno =>
    have hd := vmCpuintPostLocked_delivery hc.placed hsafe intno
    exact .some ((hd.after hc).stepTo_of_stirs hd.stirs)
  | deliver dst intno =>
    have hd := vmIntDeliverLocked_delivery hc.placed hsafe intno
    exact .some ((hd.after hc).stepTo_of_stirs hd.stirs)
  | controllers ints work =>
    set k₁ : Kernel ι β := { k with
      ints := ints
      threads := { k.threads with vmwork := fun t => k.threads.vmwork t || work t } }
    have hs : Stirs k k₁ := .of_flags rfl rfl rfl fun _ => id
    have ha : After M h k k₁ := .of_sched_eq hc rfl hs id
    exact .some (ha.stepTo_of_stirs hs)
  | start =>
    simp only [Bool.and_eq_true, Option.isNone_iff_eq_none] at hop
    refine .some ((switchNull_keeps hc hop.1.1).stepTo hop.1.2 fun hseen _ _ _ hmissed => ?_)
    rcases hseen with hint | hready
    · exact hint
    · rcases hmissed with ⟨t, -, ht, -⟩ | ⟨-, t, ht⟩ <;> exact absurd ht (hready t)
  | takeInt intno =>
    simp only [Bool.and_eq_true, Bool.or_eq_true, Option.isNone_iff_eq_none,
      Option.isSome_iff_ne_none] at hop
    exact .some (takeInt_step hc hop.1.1 hop.2 intno)
  | handleInt expired =>
    obtain ⟨⟨intno, e⟩, hlatched⟩ := Option.isSome_iff_exists.mp hop
    exact handleInt_step hc hon hlatched (hsafe _ hlatched)

end Steps

/-! ## Runs -/

section Runs

variable {M : Machine ι β} {C : ℕ → Op ι β → Kernel ι β → Prop} {k₀ k k' : Kernel ι β}

theorem stepTo_of_exec {h : ℕ} {op : Op ι β} {e : Exit} (hc : Coherent M k)
    (hsafe : Safe M h op k) (hexec : k.exec M h op = some (e, k')) :
    StepTo M h (Seen M h op k) k k' := by
  obtain ⟨e', k'', hexec', hk''⟩ := exec_step hc (enabled_of_exec hexec) hsafe
  obtain ⟨-, rfl⟩ := Prod.mk.inj (Option.some.inj (hexec.symm.trans hexec'))
  exact hk''

/-- **Coherence along every run** of safe steps. -/
theorem Reached.coherent (hC : ∀ h op k, C h op k → Safe M h op k) (h₀ : Coherent M k₀)
    (hk : Reached M C k₀ k) : Coherent M k := by
  induction hk with
  | init => exact h₀
  | step _ hstep hexec ih => exact (stepTo_of_exec ih (hC _ _ _ hstep) hexec).coherent

/-- What the preemption test leaves behind, along a run. -/
structure Watched (M : Machine ι β) (k : Kernel ι β) : Prop where
  coherent : Coherent M k
  plain : Plain k
  awaits : ∀ h, Awaits h k
  noMissed : k.hw.hung = false → NoMissed k ∨ ∃ h, Caught h k

theorem Watched.step (hw : Watched M k) {h : ℕ} {op : Op ι β} {e : Exit}
    (hsafe : Safe M h op k) (hseen : Seen M h op k) (hexec : k.exec M h op = some (e, k')) :
    Watched M k' := by
  have hs := stepTo_of_exec hw.coherent hsafe hexec
  refine ⟨hs.coherent, hs.plain hw.plain, fun h' => ?_, fun hf => ?_⟩
  · by_cases hh : h' = h
    · exact hh ▸ hs.awaits (hw.awaits h)
    · rw [Awaits, hs.latched h' hh, hs.elsewhere.sgp h' hh, hs.elsewhere.waits h' hh]
      exact hw.awaits h'
  · have hhung : k.hw.hung = false := by
      have := enabled_of_exec hexec
      simp only [enabled, Bool.and_eq_true, Bool.not_eq_true'] at this
      exact this.1.1
    rcases hw.noMissed hhung with hm | ⟨h', hcaught⟩
    · exact (hs.noMissed hseen hw.plain (hw.awaits h) hf hm).imp_right fun hc => ⟨h, hc⟩
    · by_cases hh : h' = h
      · subst hh
        exact (hs.caught hw.plain hf hcaught).imp_right fun hc => ⟨h', hc⟩
      · obtain ⟨intno, hi⟩ := hcaught
        exact .inr ⟨h', intno, by rw [hs.latched h' hh, hi]⟩

theorem Reached.watched (h₀ : Watched M k₀)
    (hk : Reached M (fun h op k => Safe M h op k ∧ Seen M h op k) k₀ k) : Watched M k := by
  induction hk with
  | init => exact h₀
  | step _ hstep hexec ih => exact ih.step hstep.1 hstep.2 hexec

end Runs

/-! ## From boot on -/

section Boot

variable {M : Machine ι β} {timerIntnum : ℕ} {mask : BitVec 32} {cluster : Cluster ι} {bootvm : β}
  {e : Exit} {k₀ k : Kernel ι β}

theorem coherent_boot (hmask : mask.getLsbD 0 = true)
    (hboot : boot M timerIntnum mask cluster bootvm = some (e, k₀)) : Coherent M k₀ := by
  obtain ⟨e', k', hboot', hk'⟩ := boot_ends M timerIntnum hmask cluster (maxCpus_pos_of_boot hboot)
  obtain ⟨-, rfl⟩ := Prod.mk.inj (Option.some.inj (hboot.symm.trans hboot'))
  exact hk'.coherent

theorem watched_boot (hmask : mask.getLsbD 0 = true) (hdense : Dense mask)
    (hcluster : cluster.sched = false)
    (hboot : boot M timerIntnum mask cluster bootvm = some (e, k₀)) : Watched M k₀ := by
  obtain ⟨e', k', hboot', hk'⟩ := boot_ends M timerIntnum hmask cluster (maxCpus_pos_of_boot hboot)
  obtain ⟨-, rfl⟩ := Prod.mk.inj (Option.some.inj (hboot.symm.trans hboot'))
  have hplain : Plain (reset M timerIntnum mask cluster) :=
    ⟨fun _ hh => hdense.lt_popcount hh, (popcount_le mask).trans (by decide), hcluster⟩
  refine ⟨hk'.coherent, hk'.config.plain hplain, fun h hne => ?_,
    fun hf => .inl (hk'.noMissed hplain hf)⟩
  rw [hk'.config.latched] at hne
  exact absurd rfl hne

end Boot

/-- **One place per thread**, in every state that safe steps lead to; and none of those steps gets
stuck. -/
theorem onePlace_of_reached (M : Machine ι β) (timerIntnum : ℕ) (mask : BitVec 32)
    (cluster : Cluster ι) (bootvm : β) (hmask : mask.getLsbD 0 = true) {e : Exit}
    {k₀ k : Kernel ι β} (hboot : boot M timerIntnum mask cluster bootvm = some (e, k₀))
    (hk : Reached M (Safe M) k₀ k) :
    OnePlace M k.sched ∧ ∀ h op, k.enabled h op = true → Safe M h op k →
      (k.exec M h op).isSome := by
  have hc := hk.coherent (fun _ _ _ => id) (coherent_boot hmask hboot)
  refine ⟨hc.placed.onePlace, fun h op hen hsafe => ?_⟩
  obtain ⟨e', k', hexec, -⟩ := exec_step hc hen hsafe
  rw [hexec]
  rfl

/-- Two threads; one waits on a futex and is woken. -/
def wakeUp : List (ℕ × Op (Fin 2) Unit) :=
  [(0, .trap (.create 0 0 0 5 true)), (0, .trap (.futexWait (identityAccess 0x1000) 0 0)),
    (0, .trap (.futexResume (identityAccess 0x1000) 1))]

/-- Its steps are safe and seen whatever the state. -/
theorem wakeUp_safe : ∀ p ∈ wakeUp, ∀ k, Safe (oneVm 1) p.1 p.2 k ∧ Seen (oneVm 1) p.1 p.2 k := by
  simp [wakeUp, Safe, Trap.Safe, Seen]

theorem onePlace_wakeUp : ∃ e k₀ k, boot (oneVm 1) 3 1#32 .off () = some (e, k₀) ∧
    Reached (oneVm 1) (Safe (oneVm 1)) k₀ k ∧ k.sched.status 1 = .ready ∧
    OnePlace (oneVm 1) k.sched := by
  obtain ⟨e, k₀, k, hboot, hk, -, hready⟩ := exists_reached_of_bootRun 1#32 wakeUp
    (fun p hp k => (wakeUp_safe p hp k).1) (fun k => k.sched.status 1 = .ready) (by decide +kernel)
  exact ⟨e, k₀, k, hboot, hk, hready, (onePlace_of_reached (oneVm 1) 3 1#32 .off () rfl hboot hk).1⟩

/-- A thread waits in the intpool and is killed: its `r00` is taken for the number of a popup
interrupt, the write for that goes past the handler table, and the thread is made ready while it is
still in the intpool. -/
theorem onePlace_fails_killed_in_intpool : ∃ e k₀ k, boot (oneVm 1) 3 1#32 .off () = some (e, k₀) ∧
      Reached (oneVm 1) (fun _ _ _ => True) k₀ k ∧ k.sched.outOfBounds = true ∧
      k.sched.rings.head (.intpool ()) = some 1 ∧ k.sched.rings.head (.ready 0) = some 1 ∧
      ¬OnePlace (oneVm 1) k.sched := by
  obtain ⟨e, k₀, k, hboot, hk, -, hout, hpool, hready⟩ := exists_reached_of_bootRun (n := 1) 1#32
    [(0, .trap (.create 0 0 0 0 true)), (0, .trap .intpoolWait),
      (0, .trap (.vmopKillThread 0x4000400))] (C := fun _ _ _ => True) (fun _ _ _ => trivial)
    (fun k => k.sched.outOfBounds = true ∧ k.sched.rings.head (.intpool ()) = some 1 ∧
      k.sched.rings.head (.ready 0) = some 1) (by decide +kernel)
  refine ⟨e, k₀, k, hboot, hk, hout, hpool, hready, fun ⟨P, hP, _⟩ => ?_⟩
  have := hP.inBounds
  simp [hout] at this

/-- **The runlist**: each slot holds a running thread of that hardware thread with its priority
beside it, or nothing and `-1`; and a running thread is in the slot of the one hardware thread that
executes it. -/
structure RunlistCoherent (k : Kernel ι β) : Prop where
  slot : ∀ h, (∃ t, k.sched.runlist h = some t ∧ k.sched.status t = .running ∧
      k.sched.hthread t = h ∧ k.sched.runlistPrios h = k.sched.prio t) ∨
    k.sched.runlist h = none ∧ k.sched.runlistPrios h = -1
  executed : ∀ t, k.sched.status t = .running →
    ∃ h, k.sched.runlist h = some t ∧ ∀ h', k.hw.sgp h' = some t ↔ h' = h

omit dι dβ fι in
theorem Coherent.runlistCoherent {M : Machine ι β} {k : Kernel ι β} (hc : Coherent M k) :
    RunlistCoherent k where
  slot h := by
    rcases hrun : k.sched.runlist h with - | t
    · exact .inr ⟨rfl, hc.placed.prios.empty hrun⟩
    · obtain ⟨hst, hh⟩ := hc.placed.runlist_iff.mp hrun
      exact .inl ⟨t, rfl, hst, hh, hc.placed.prios.slot hrun⟩
  executed t ht := by
    refine ⟨k.sched.hthread t, hc.placed.runlist_iff.mpr ⟨ht, rfl⟩, fun h' => ?_⟩
    rw [hc.executes, hc.placed.runlist_iff]
    exact ⟨fun h => h.2.symm, fun h => ⟨ht, h.symm⟩⟩

/-- **Runlist coherence**, in every state that safe steps lead to. -/
theorem runlistCoherent_of_reached (M : Machine ι β) (timerIntnum : ℕ) (mask : BitVec 32)
    (cluster : Cluster ι) (bootvm : β) (hmask : mask.getLsbD 0 = true) {e : Exit}
    {k₀ k : Kernel ι β} (hboot : boot M timerIntnum mask cluster bootvm = some (e, k₀))
    (hk : Reached M (Safe M) k₀ k) : RunlistCoherent k :=
  (hk.coherent (fun _ _ _ => id) (coherent_boot hmask hboot)).runlistCoherent

theorem runlistCoherent_wakeUp : ∃ e k₀ k, boot (oneVm 1) 3 1#32 .off () = some (e, k₀) ∧
    Reached (oneVm 1) (Safe (oneVm 1)) k₀ k ∧ k.sched.runlist 0 = some 0 ∧
    RunlistCoherent k := by
  obtain ⟨e, k₀, k, hboot, hk, -, hslot⟩ := exists_reached_of_bootRun 1#32 wakeUp
    (fun p hp k => (wakeUp_safe p hp k).1) (fun k => k.sched.runlist 0 = some 0) (by decide +kernel)
  exact ⟨e, k₀, k, hboot, hk, hslot,
    runlistCoherent_of_reached (oneVm 1) 3 1#32 .off () rfl hboot hk⟩

/-- A thread waits for a popup interrupt on hardware thread 0, and hardware thread 1 takes it: the
thread runs there, in the slot of hardware thread 0. -/
theorem runlistCoherent_fails_popup_elsewhere :
    ∃ e k₀ k, boot (oneVm 0) 3 3#32 .off () = some (e, k₀) ∧
      Reached (oneVm 0) (fun _ _ _ => True) k₀ k ∧ k.sched.status 0 = .running ∧
      k.hw.sgp 1 = some 0 ∧ k.sched.runlist 1 = none ∧ k.sched.runlist 0 = some 0 ∧
      ¬RunlistCoherent k := by
  obtain ⟨e, k₀, k, hboot, hk, -, hst, hsgp, hempty, hslot⟩ :=
    exists_reached_of_bootRun (n := 0) 3#32
    [(0, .trap (.popupWait 5)), (1, .start), (1, .takeInt 5), (1, .handleInt [])]
    (C := fun _ _ _ => True) (fun _ _ _ => trivial)
    (fun k => k.sched.status 0 = .running ∧ k.hw.sgp 1 = some 0 ∧
      k.sched.runlist 1 = none ∧ k.sched.runlist 0 = some 0) (by decide +kernel)
  refine ⟨e, k₀, k, hboot, hk, hst, hsgp, hempty, hslot, fun hr => ?_⟩
  obtain ⟨h, hrun, hexec⟩ := hr.executed 0 hst
  rw [← (hexec 1).mp hsgp, hempty] at hrun
  simp at hrun

/-- **No missed preemption**, in every state that safe and seen steps lead to, while no hardware
thread is about to reschedule and none hangs. -/
theorem noMissed_of_reached (M : Machine ι β) (timerIntnum : ℕ) (mask : BitVec 32)
    (cluster : Cluster ι) (bootvm : β) (hmask : mask.getLsbD 0 = true) (hdense : Dense mask)
    (hcluster : cluster.sched = false) {e : Exit} {k₀ k : Kernel ι β}
    (hboot : boot M timerIntnum mask cluster bootvm = some (e, k₀))
    (hk : Reached M (fun h op k => Safe M h op k ∧ Seen M h op k) k₀ k)
    (hhung : k.hw.hung = false) (hcaught : ∀ h, ¬Caught h k) : NoMissed k := by
  rcases (hk.watched (watched_boot hmask hdense hcluster hboot)).noMissed hhung with hm | ⟨h, hc⟩
  · exact hm
  · exact absurd hc (hcaught h)

theorem dense_one : Dense 1#32 := by
  intro h h' hlt hh'
  have : h' = 0 := by simpa using hh'
  omega

omit dι dβ fι in
theorem not_caught_of_run {o : Option (Kernel ι β)} {k : Kernel ι β} (hk : o = some k)
    (hlatched : o.map (·.hw.latched) = some fun _ => none) (h : ℕ) : ¬Caught h k := by
  rw [hk, Option.map_some, Option.some_inj] at hlatched
  rintro ⟨intno, hi⟩
  simp [hlatched] at hi

theorem noMissed_wakeUp : ∃ e k₀ k, boot (oneVm 1) 3 1#32 .off () = some (e, k₀) ∧
    Reached (oneVm 1) (fun h op k => Safe (oneVm 1) h op k ∧ Seen (oneVm 1) h op k) k₀ k ∧
    Missed k ∧ NoMissed k := by
  obtain ⟨e, k₀, k, hboot, hk, hrun, hmissed, hhung⟩ := exists_reached_of_bootRun 1#32 wakeUp
    (C := fun h op k => Safe (oneVm 1) h op k ∧ Seen (oneVm 1) h op k) wakeUp_safe
    (fun k => (k.sched.status 1 = .ready ∧ k.sched.status 0 = .running ∧
      k.sched.prio 1 < k.sched.prio 0) ∧ k.hw.hung = false) (by decide +kernel)
  refine ⟨e, k₀, k, hboot, hk, .inl ⟨1, 0, hmissed⟩,
    noMissed_of_reached (oneVm 1) 3 1#32 .off () rfl dense_one rfl hboot hk hhung ?_⟩
  have hlatched : (bootRun 1 1#32 wakeUp).map (·.hw.latched) = some fun _ => none := by rfl
  exact not_caught_of_run hrun hlatched

/-- A thread of the best priority waits on a futex and is killed by another: it is made ready, and
nobody is told. -/
theorem noMissed_fails_killed_on_futex : ∃ e k₀ k, boot (oneVm 1) 3 1#32 .off () = some (e, k₀) ∧
      Reached (oneVm 1) (fun _ _ _ => True) k₀ k ∧ k.hw.hung = false ∧ (∀ h, ¬Caught h k) ∧
      ¬NoMissed k := by
  obtain ⟨e, k₀, k, hboot, hk, hrun, hmissed, hhung, hint⟩ :=
    exists_reached_of_bootRun (n := 1) 1#32
    [(0, .trap (.create 0 0 0 5 true)), (0, .trap (.futexWait (identityAccess 0x1000) 0 0)),
      (0, .trap (.vmopKillThread 0x4000400))] (C := fun _ _ _ => True) (fun _ _ _ => trivial)
    (fun k => (k.sched.status 1 = .ready ∧ k.sched.status 0 = .running ∧
      k.sched.prio 1 < k.sched.prio 0) ∧ k.hw.hung = false ∧ k.hw.reschedInt = false)
    (by decide +kernel)
  refine ⟨e, k₀, k, hboot, hk, hhung, ?_, fun hm => ?_⟩
  · exact not_caught_of_run hrun rfl
  · have := hm (.inl ⟨1, 0, hmissed⟩)
    simp [hint] at this

end H2
