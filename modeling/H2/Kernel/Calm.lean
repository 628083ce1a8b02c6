import H2.Kernel.Run

/-!
# Kernel/Calm — sleeping virtual cpus, and the exit status of a VM

Two things that every operation but a few leave alone, in whatever state the structures are.  A cpu
in VMWAIT *sleeps*: none of its per-cpu interrupts is pending and enabled.  And the status word of a
VM is written by the threads that exit, and by a kill.

`Calm` says so of one operation, up to the VMs whose status it writes; it composes, so the
operations are gone through once and both results follow.
-/

namespace H2

open Kernel Function

variable {ι β : Type} [dι : DecidableEq ι] [dβ : DecidableEq β]

/-! ## Calm -/

/-- No per-cpu interrupt of the thread is pending and enabled. -/
def Quiet (t : ι) (k : Kernel ι β) : Prop :=
  ∀ i < percpuInterrupts, k.ints.cpuReady t i = false

/-- If the thread is in VMWAIT, it has nothing to wake up for. -/
def Sleeps (k : Kernel ι β) (t : ι) : Prop := k.sched.status t = .vmwait → Quiet t k

/-- Threads that sleep go on sleeping or wake up, and the VMs outside `B` keep their status. -/
structure Calm (B : β → Prop) (k k' : Kernel ι β) : Prop where
  sleeps : ∀ t, Sleeps k t → Sleeps k' t
  vmStatus : ∀ b, ¬B b → k'.vms.status b = k.vms.status b

abbrev noVm : β → Prop := fun _ => False

/-- Whatever state the operation leaves, it is like this. -/
structure Does (Q : Kernel ι β → Prop) (o : Option (Exit × Kernel ι β)) : Prop where
  of_some : ∀ {e k'}, o = some (e, k') → Q k'

section Basics

variable {B : β → Prop} {Q Q' : Kernel ι β → Prop} {k k' k'' : Kernel ι β}
  {o : Option (Exit × Kernel ι β)} {t : ι}

omit dι dβ

theorem Does.some {e : Exit} (h : Q k) : Does Q (some (e, k)) := by
  constructor
  rintro e' k' ⟨⟩
  exact h

theorem Does.none : Does Q none := by
  constructor
  rintro e k ⟨⟩

theorem Does.mono (h : Does Q o) (hQ : ∀ k, Q k → Q' k) : Does Q' o :=
  ⟨fun ho => hQ _ (h.of_some ho)⟩

theorem Does.map (h : Does Q o) (f : Exit → Exit) : Does Q (o.map fun p => (f p.1, p.2)) := by
  rcases o with - | ⟨e, k⟩
  · exact .none
  · exact .some (h.of_some rfl)

theorem Calm.refl (B : β → Prop) (k : Kernel ι β) : Calm B k k := ⟨fun _ => id, fun _ _ => rfl⟩

theorem Calm.trans (h : Calm B k k') (h' : Calm B k' k'') : Calm B k k'' :=
  ⟨fun t ht => h'.sleeps t (h.sleeps t ht), fun b hb => (h'.vmStatus b hb).trans (h.vmStatus b hb)⟩

theorem Calm.of_noVm (h : Calm noVm k k') : Calm B k k' := ⟨h.sleeps, fun b _ => h.vmStatus b id⟩

/-- Nobody starts to wait, no interrupt comes up, no status is written. -/
theorem Calm.of_fields
    (hstatus : ∀ t, k'.sched.status t = .vmwait → k.sched.status t = .vmwait)
    (hints : ∀ t i, k'.ints.cpuReady t i = true → k.ints.cpuReady t i = true)
    (hvms : k'.vms.status = k.vms.status) : Calm B k k' := by
  refine ⟨fun t ht hwait i hi => ?_, fun b _ => by rw [hvms]⟩
  grind [Sleeps, Quiet]

/-- Of the threads, one may have changed its status, to something other than VMWAIT. -/
theorem Calm.of_update [DecidableEq ι] {v : Status} (hv : v ≠ .vmwait)
    (hstatus : k'.sched.status = update k.sched.status t v) (hints : k'.ints = k.ints)
    (hvms : k'.vms.status = k.vms.status) : Calm B k k' := by
  refine .of_fields (fun u hu => ?_) (fun u i => by rw [hints]; exact id) hvms
  rw [hstatus] at hu
  by_cases hut : u = t
  · simp [hut, hv] at hu
  · simpa [hut] using hu

theorem Calm.of_eq (hstatus : k'.sched.status = k.sched.status) (hints : k'.ints = k.ints)
    (hvms : k'.vms.status = k.vms.status) : Calm B k k' :=
  .of_fields (fun t => by rw [hstatus]; exact id) (fun t i => by rw [hints]; exact id) hvms

theorem Calm.foldl {α : Type} {f : Kernel ι β → α → Kernel ι β} (hf : ∀ k a, Calm B k (f k a)) :
    ∀ (l : List α) (k : Kernel ι β), Calm B k (l.foldl f k)
  | [], k => .refl B k
  | a :: l, k => (hf k a).trans (Calm.foldl hf l (f k a))

/-- What follows is calm, and so was what came before. -/
theorem Does.calm (h : Calm B k k') (ho : Does (Calm B k') o) : Does (Calm B k) o :=
  ho.mono fun _ => h.trans

end Basics

/-! ## Interrupts -/

section Interrupts

variable {M : Machine ι β} {B : β → Prop} {k : Kernel ι β}

section

omit dι dβ

theorem Works.calm {me : ι} {k' : Kernel ι β} (hw : Works me k k') : Calm B k k' :=
  .of_fields (fun t => by rw [hw.sched]; exact id) hw.ready (by rw [hw.vms])

theorem checkSanity_calm (k : Kernel ι β) : Calm B k k.checkSanity := .of_eq rfl rfl rfl

theorem vmIpiSendWithlock_calm (t : ι) (k : Kernel ι β) : Calm B k (k.vmIpiSendWithlock t) := by
  obtain ⟨m, hm⟩ := vmIpiSendWithlock_eq t k
  rw [hm]
  exact .of_eq rfl rfl rfl

@[simp] theorem writeHandler_status (i : ℕ) (e : Inthandler ι β) (s : Sched ι β) :
    (s.writeHandler i e).status = s.status := by
  unfold Sched.writeHandler
  split <;> rfl

end

/-- A delivery at most makes the thread ready. -/
theorem vmIntDeliverLocked_status (M : Machine ι β) (t : ι) (intno : ℕ) (k : Kernel ι β) :
    (k.vmIntDeliverLocked M t intno).2.ints = k.ints ∧
    (k.vmIntDeliverLocked M t intno).2.vms.status = k.vms.status ∧
    (((k.vmIntDeliverLocked M t intno).2.sched.status = k.sched.status ∧
        k.sched.status t ≠ .vmwait) ∨
      (k.vmIntDeliverLocked M t intno).2.sched.status = update k.sched.status t .ready) := by
  rcases vmIntDeliverLocked_cases M t intno k with ⟨hne, heq | heq⟩ | ⟨s, v, hr, -, heq⟩ <;>
    rw [heq]
  · exact ⟨rfl, rfl, .inl ⟨rfl, hne⟩⟩
  · obtain ⟨m, hm⟩ := vmIpiSendWithlock_eq t k
    rw [hm]
    exact ⟨rfl, rfl, .inl ⟨rfl, hne⟩⟩
  · obtain ⟨⟨R, -, -, r, rfl⟩, w, rfl⟩ := hr.fields
    exact ⟨rfl, rfl, .inr rfl⟩

theorem vmIntDeliverLocked_calm (M : Machine ι β) (t : ι) (intno : ℕ) (k : Kernel ι β) :
    Calm B k (k.vmIntDeliverLocked M t intno).2 := by
  obtain ⟨hints, hvms, ⟨hst, -⟩ | hst⟩ := vmIntDeliverLocked_status M t intno k
  · exact .of_eq hst hints hvms
  · exact .of_update (by simp) hst hints hvms

/-- **A post** wakes up a thread in VMWAIT if anything is then pending and enabled. -/
theorem vmCpuintPostLocked_calm (M : Machine ι β) (dst : ι) (intno : ℕ) (k : Kernel ι β) :
    Calm B k (k.vmCpuintPostLocked M dst intno) := by
  set k₁ := k.cpuintSetPending dst intno with hk₁
  have hother {t : ι} (ht : t ≠ dst) (i : ℕ) : k₁.ints.cpuReady t i = k.ints.cpuReady t i := by
    simp [hk₁, cpuintSetPending, Intctl.cpuReady, ht]
  unfold vmCpuintPostLocked
  simp only [← hk₁]
  split
  · obtain ⟨hints, hvms, hcases⟩ := vmIntDeliverLocked_status M dst intno k₁
    refine ⟨fun t ht hwait => ?_, fun b _ => by rw [hvms]; rfl⟩
    by_cases htd : t = dst
    · -- it is not in VMWAIT any more, if it ever was
      subst htd
      rcases hcases with ⟨hst, hne⟩ | hst
      · exact absurd (hst ▸ hwait) hne
      · simp [hst] at hwait
    · intro i hi
      rw [hints, hother htd]
      refine ht ?_ i hi
      rcases hcases with ⟨hst, -⟩ | hst
      · exact (congrFun hst t).symm.trans hwait
      · rw [hst, update_of_ne htd] at hwait
        exact hwait
  · next hnone =>
    refine ⟨fun t ht hwait i hi => ?_, fun _ _ => rfl⟩
    by_cases htd : t = dst
    · subst htd
      simp only [List.any_eq_true, List.mem_range, not_exists, not_and] at hnone
      exact eq_false_of_ne_true (hnone i hi)
    · rw [hother htd]
      exact ht hwait i hi

end Interrupts

/-! ## Switching -/

section Switching

variable {M : Machine ι β} {k k' : Kernel ι β} {h : ℕ} {B : β → Prop}

/-- The VM of a thread, if the thread's exit changes its status. -/
def Restamps (M : Machine ι β) (me : ι) (status : ℤ) (k : Kernel ι β) (b : β) : Prop :=
  b = M.vmblock me ∧ k.vms.status b ≠ status

theorem signalParent_calm (M : Machine ι β) (b : β) (status : ℤ)
    (k : Kernel ι β) : Calm B k (k.signalParent M b status) := by
  rcases signalParent_cases M b status k with heq | ⟨p, -, heq⟩ | ⟨-, -, heq⟩ <;> rw [heq]
  · exact .refl B k
  · exact vmCpuintPostLocked_calm ..
  · exact .of_eq rfl rfl rfl

/-- **An exit** writes the status of one VM. -/
theorem stop_calm (M : Machine ι β) (status : ℤ) (me : ι) (k : Kernel ι β) :
    Calm (Restamps M me status k) k (k.stop M status me) := by
  unfold stop retire
  refine Calm.trans ⟨fun t ht hwait => ?_, fun b hb => ?_⟩ (signalParent_calm ..)
  · by_cases htm : t = me
    · simp [htm, Sched.freePush, Sched.contextClear] at hwait
    · intro i hi
      have := ht (by simpa [htm, Sched.freePush, Sched.contextClear, clearThread] using hwait) i hi
      simpa [Intctl.cpuReady, clearThread, htm] using this
  · by_cases hbm : b = M.vmblock me
    · simpa [hbm, Restamps, eq_comm] using hb
    · simp [hbm, clearThread]

/-- … unless it is the one the VM has already. -/
theorem reap_calm (M : Machine ι β) (me : ι) (k : Kernel ι β) :
    Calm B k (k.stop M (k.vms.status (M.vmblock me)) me) :=
  ⟨(stop_calm ..).sleeps, fun b _ =>
    (stop_calm M _ me k).vmStatus b (by rintro ⟨rfl, hne⟩; exact hne rfl)⟩

variable [fι : Fintype ι]

theorem readyGetbest_fields {r : Option ι} (hget : k.readyGetbest h = some (r, k')) :
    k'.sched.status = k.sched.status ∧ k'.ints = k.ints ∧ k'.vms = k.vms := by
  unfold readyGetbest at hget
  simp only at hget
  split at hget
  · cases hget
    split <;> exact ⟨rfl, rfl, rfl⟩
  · obtain ⟨⟨r', c⟩, -, hget⟩ := Option.bind_eq_some_iff.mp hget
    cases r' <;> cases hget <;> exact ⟨rfl, rfl, rfl⟩

omit fι in
theorem work_calm (M : Machine ι β) (me : ι) (k : Kernel ι β) :
    Does (Calm B k) (match k.vmWork M me with
      | (.hung, k) => some (.hung, k)
      | (_, k) => some (.switched, k.checkSanity)) := by
  refine work_elim M me k (fun k' hw _ => ?_) fun k' hw => ?_
  · exact .some hw.calm
  · exact .some (hw.calm.trans (checkSanity_calm k'))

/-- **`H2K_dosched`** writes no status: a killed thread exits with the one its VM has. -/
theorem doschedLoop_calm (M : Machine ι β) (h : ℕ) :
    ∀ (fuel : ℕ) (k : Kernel ι β), Does (Calm B k) (k.doschedLoop M h fuel)
  | 0, _ => .none
  | fuel + 1, k => by
      rw [doschedLoop]
      rcases hget : k.readyGetbest h with - | ⟨r, k₁⟩
      · exact .none
      obtain ⟨hst, hints, hvms⟩ := readyGetbest_fields hget
      rw [Option.bind_eq_bind, Option.bind_some]
      cases r with
      | none => exact .some (.of_eq hst hints (by rw [← hvms]; rfl))
      | some new =>
        simp only
        set k₂ := (k₁.dispatch new h).switchTo new h
        have hk₂ : Calm B k k₂ := by
          refine .of_update (t := new) (v := .running) (by simp) ?_ hints ?_
          · rw [← hst]
            rfl
          · rw [← hvms]
            rfl
        split
        · exact (doschedLoop_calm M h fuel _).calm (hk₂.trans (reap_calm M new k₂))
        · exact (work_calm M new k₂).calm hk₂

theorem dosched_calm {B : β → Prop} (M : Machine ι β) (h : ℕ) (k : Kernel ι β) :
    Does (Calm B k) (k.dosched M h) := doschedLoop_calm M h _ k

theorem threadStopWithlock_calm (M : Machine ι β) (status : ℤ) (me : ι) (h : ℕ) (k : Kernel ι β) :
    Does (Calm (Restamps M me status k) k) (k.threadStopWithlock M status me h) :=
  (dosched_calm M h _).calm (stop_calm M status me k)

theorem vmDoWorkWithlock_calm (M : Machine ι β) (me : ι) (h : ℕ)
    (k : Kernel ι β) : Does (Calm B k) (k.vmDoWorkWithlock M me h) := by
  unfold vmDoWorkWithlock
  split
  · exact (dosched_calm M h _).calm (reap_calm M me k)
  · exact .some (vmWork_works M me k).1.calm

theorem switch_calm (M : Machine ι β) (new : ι) (h : ℕ) (k : Kernel ι β) :
    Does (Calm B k) (k.switch M new h) := by
  have hk : Calm B k (k.switchTo new h) := .of_eq rfl rfl rfl
  unfold switch
  simp only
  split
  · exact (dosched_calm M h _).calm (hk.trans (reap_calm M new _))
  · exact (work_calm M new _).calm hk

omit fι in
theorem makeWay_calm (h : ℕ) (k : Kernel ι β) : Calm B k (k.makeWay h) := by
  unfold makeWay
  split
  · exact .of_update (by simp) rfl rfl rfl
  · exact .of_eq rfl rfl rfl

end Switching

/-! ## Every operation -/

section Operations

variable [fι : Fintype ι] {M : Machine ι β} {k : Kernel ι β} {h : ℕ} {me : ι} {B : β → Prop}

variable {k' : Kernel ι β}

/-- A calm beginning, and `H2K_dosched`. -/
theorem Calm.dosched (hk : Calm B k k') : Does (Calm B k) (k'.dosched M h) :=
  (dosched_calm M h k').calm hk

theorem schedYield_calm : Does (Calm B k) (k.schedYield M me) := by
  unfold schedYield
  split
  · refine Calm.dosched ?_
    exact .of_update (by simp) rfl rfl rfl
  · exact .some (.refl B k)

section

omit fι

theorem threadCreateNoSquash_calm (pc sp arg1 prio : ℕ) (asid : Bool) (b : β) :
    Does (Calm B k) (k.threadCreateNoSquash M pc sp arg1 prio asid b me) := by
  unfold threadCreateNoSquash
  split
  · exact .some (.refl B k)
  split
  · exact .some (.refl B k)
  simp only
  split
  · exact .some (.of_update (by simp) rfl rfl rfl)
  · exact .some (.of_eq rfl rfl rfl)

theorem vmopBoot_calm (pc sp arg1 prio vm : ℕ) (asid : Bool) :
    Does (Calm B k) (k.vmopBoot M pc sp arg1 prio vm asid me) := by
  unfold vmopBoot
  repeat' split
  all_goals first | exact .some (.refl B k) | exact threadCreateNoSquash_calm ..

theorem killThreadLocked_calm (M : Machine ι β) (target : ι) (k : Kernel ι β) :
    Calm B k (k.killThreadLocked M target) := by
  rcases killThreadLocked_cases M target k with ⟨-, heq⟩ | ⟨-, heq⟩ | ⟨-, heq⟩ | ⟨s, v, hr, heq⟩ <;>
    rw [heq]
  · exact .refl B k
  · have hmarked : Calm B k (k.marked target) := .of_eq rfl rfl rfl
    exact hmarked.trans (vmIpiSendWithlock_calm target _)
  · exact .of_eq rfl rfl rfl
  · obtain ⟨⟨R, -, -, r, rfl⟩, w, rfl⟩ := hr.fields
    exact .of_update (by simp) rfl rfl rfl

theorem foldl_kill_calm (M : Machine ι β) (ts : List ι) (k : Kernel ι β) :
    Calm B k (ts.foldl (fun k t => k.killThreadLocked M t) k) :=
  .foldl (fun k t => killThreadLocked_calm M t k) ts k

theorem vmopKillThread_calm (id : ℕ) : Does (Calm B k) (k.vmopKillThread M id me) := by
  rcases vmopKillThread_cases M me k id with ⟨r, heq⟩ | ⟨t, -, -, heq⟩ <;> rw [heq]
  · exact .some (.refl B k)
  · exact .some (killThreadLocked_calm M t k)

end

/-- The VM a thread kills, if its status is not the one given already. -/
def KillRestamps (M : Machine ι β) (vm : ℕ) (status : ℤ) (me : ι) (k : Kernel ι β) (b : β) : Prop :=
  KillsVm M vm me b ∧ k.vms.status b ≠ status

omit fι in
/-- **A kill** writes the status of the VM it kills. -/
theorem vmopKillVm_calm (vm : ℕ) (status : ℤ) :
    Does (Calm (KillRestamps M vm status me k) k) (k.vmopKillVm M vm status me) := by
  rcases vmopKillVm_cases M me k vm status with ⟨r, -, heq⟩ | ⟨b, hb, -, heq⟩ <;> rw [heq]
  · exact .some (.refl _ k)
  · refine .some (Calm.trans ?_ (foldl_kill_calm M _ (k.stamped b status)))
    refine ⟨fun _ => id, fun b' hb' => ?_⟩
    by_cases hbb : b' = b
    · have hsame : k.vms.status b' = status := by
        by_contra hne
        exact hb' ⟨(hb b').mpr hbb, hne⟩
      rw [hsame, hbb]
      exact update_self ..
    · exact update_of_ne hbb ..

theorem workFirst_calm {o : Option (Exit × Kernel ι β)} (f : Exit → Exit) (ho : Does (Calm B k) o) :
    Does (Calm B k) (if k.threads.vmwork me then
      (k.vmDoWorkWithlock M me h).map fun p => (f p.1, p.2) else o) := by
  split
  · exact (vmDoWorkWithlock_calm M me h k).map f
  · exact ho

theorem futexBlock_calm (pa : ℕ) : Does (Calm B k) (k.futexBlock M pa me) := by
  unfold futexBlock
  rcases hadd : k.futexEnqueue pa me with - | k'
  · exact .none
  · refine Calm.dosched ?_
    obtain ⟨s', hs', rfl⟩ := Option.map_eq_some_iff.mp hadd
    obtain ⟨R, rfl⟩ := futexHashAddRing_fields hs'
    exact .of_update (by simp) rfl rfl rfl

theorem futexWait_calm (pa : Option ℕ) (readval val : ℕ) :
    Does (Calm B k) (k.futexWait M pa readval val me h) := by
  refine workFirst_calm _ ?_
  split
  · exact .some (.refl B k)
  · split
    · exact .some (.refl B k)
    · exact futexBlock_calm _

theorem futexHashRemoveOne_status {s s' : Sched ι β} {locklo hashval : ℕ} {pos pos' r : Option ι}
    (hone : s.futexHashRemoveOne locklo hashval pos = some (r, pos', s')) :
    ∀ t, s'.status t = .vmwait → s.status t = .vmwait := by
  unfold Sched.futexHashRemoveOne at hone
  split at hone
  · cases hone
    exact fun _ => id
  · obtain ⟨start, -, hone⟩ := Option.bind_eq_some_iff.mp hone
    obtain ⟨r', -, hone⟩ := Option.bind_eq_some_iff.mp hone
    cases r' with
    | none =>
      cases hone
      exact fun _ => id
    | some cur =>
      cases hone
      intro t ht
      by_cases htc : t = cur
      · simp [htc] at ht
      · simpa [htc] using ht

theorem futexResumeLoop_status {locklo hashval nToWake : ℕ} : ∀ {fuel nWoken n : ℕ}
    {pos : Option ι} {s s' : Sched ι β},
    s.futexResumeLoop locklo hashval nToWake fuel nWoken pos = some (n, s') →
    ∀ t, s'.status t = .vmwait → s.status t = .vmwait
  | fuel + 1, nWoken, n, pos, s, s', hloop => by
      rw [Sched.futexResumeLoop] at hloop
      obtain ⟨⟨r, pos', s₁⟩, hone, hloop⟩ := Option.bind_eq_some_iff.mp hloop
      have hs₁ := futexHashRemoveOne_status hone
      cases r with
      | none =>
        cases hloop
        exact hs₁
      | some cur =>
        simp only at hloop
        split at hloop
        · exact fun t ht => hs₁ t (futexResumeLoop_status hloop t ht)
        · cases hloop
          exact hs₁

theorem futexResume_calm (pa : Option ℕ) (nToWake : ℕ) :
    Does (Calm B k) (k.futexResume pa nToWake) := by
  unfold futexResume
  split
  · exact .some (.refl B k)
  split
  · exact .some (.refl B k)
  simp only
  split
  · exact .some (.refl B k)
  rcases hloop : k.sched.futexResumeLoop _ _ nToWake (Fintype.card ι + 1) 0 _ with - | ⟨n, s⟩
  · exact .none
  · exact .some (.of_fields (futexResumeLoop_status hloop) (fun _ _ => id) rfl)

theorem futexLockPi_calm (pa : Option ℕ) (word : ℕ) :
    Does (Calm B k) (k.futexLockPi M pa word me h) := by
  refine workFirst_calm _ ?_
  split
  · exact .some (.refl B k)
  split
  · exact .some (.refl B k)
  rcases hraise : k.futexPiRaise M (k.sched.prio me) word with - | k'
  · exact .none
  · have hk : Calm B k k' := by
      obtain ⟨R, p, rp, rv, pm, im, rfl⟩ := futexPiRaise_fields hraise
      exact .of_eq rfl rfl rfl
    exact (futexBlock_calm _).calm hk

theorem futexUnlockPi_calm (pa : Option ℕ) : Does (Calm B k) (k.futexUnlockPi pa me) := by
  unfold futexUnlockPi
  split
  · exact .some (.refl B k)
  simp only
  rcases hone : k.sched.futexHashRemoveOne _ _ _ with - | ⟨r, pos, s⟩
  · exact .none
  · have hst := futexHashRemoveOne_status hone
    exact .some (.of_fields hst (fun _ _ => id) rfl)

theorem popupWait_calm (intnum : ℕ) : Does (Calm B k) (k.popupWait M intnum me h) := by
  unfold popupWait
  split
  · exact .some (.refl B k)
  split
  · exact .some (.refl B k)
  refine workFirst_calm _ ?_
  split
  · exact .some (.refl B k)
  · refine Calm.dosched ?_
    refine .of_update (t := me) (v := .intblocked) (by simp) ?_ rfl rfl
    rw [← writeHandler_status intnum (.popup me) k.sched]
    rfl

theorem intpoolBlock_calm (hk : Calm B k k') :
    Does (Calm B k) (k'.intpoolBlock M me) := by
  refine Calm.dosched (hk.trans ?_)
  exact .of_update (by simp) rfl rfl rfl

theorem intpoolWait_calm : Does (Calm B k) (k.intpoolWait M me h) := by
  refine workFirst_calm _ ?_
  split
  · split
    · exact .some (.of_fields (fun _ => id) (fun _ _ => id) rfl)
    · refine intpoolBlock_calm ?_
      exact .of_fields (fun _ => id) (fun _ _ => id) rfl
  · exact intpoolBlock_calm (.refl B k)

omit fι dι dβ in
theorem intpoolConfigure_calm (intno : ℕ) (enable : Bool) :
    Does (Calm B k) (k.intpoolConfigure M intno enable me) :=
  .some (.of_eq (writeHandler_status ..) rfl rfl)

/-- **Enabling interrupts** writes a status only when there is no vector to take one at. -/
theorem vmtrapSetie_calm (enable : Bool) (hB : enable = true → k.threads.gevb me = 0 →
      ∀ b, Restamps M me h2ThreadFatalError k b → B b) :
    Does (Calm B k) (k.vmtrapSetie M enable me h) := by
  unfold vmtrapSetie
  split
  · next hen =>
    unfold enableGuestInterrupts
    split
    · exact .some (.refl B k)
    have hcheck : Calm noVm _ _ := (vmCheckInterrupts_works M me (k.setIe me true)).1.calm
    have hk : Calm noVm k (k.setIe me true) := .of_eq rfl rfl rfl
    have hgevb : ((k.setIe me true).vmCheckInterrupts M me).1 = none → k.threads.gevb me = 0 := by
      unfold vmCheckInterrupts
      split
      · simp only
        split
        · simp
        · split
          · next hg => exact fun _ => hg
          · simp
      · simp
    rcases hc : (k.setIe me true).vmCheckInterrupts M me with ⟨r, k'⟩
    rw [hc] at hcheck hgevb
    have hk' := hk.trans hcheck
    cases r with
    | some intno => exact .some hk'.of_noVm
    | none =>
      refine ((threadStopWithlock_calm M _ me h k').mono fun k'' hk'' => ?_).calm hk'.of_noVm
      refine ⟨hk''.sleeps, fun b hb => hk''.vmStatus b fun ⟨hbm, hne⟩ => hb ?_⟩
      exact hB hen (hgevb rfl) b ⟨hbm, by rwa [← hk'.vmStatus b id]⟩
  · exact .some (.of_eq rfl rfl rfl)

/-- Whether the thread knows of all that is pending: it has work to do, or nothing is. -/
def Informed (me : ι) (k : Kernel ι β) : Prop :=
  k.threads.vmwork me = true ∨ Quiet me k

omit fι in
theorem interruptGet_eq_neg {c : Intctl ι β} (hnone : (c.interruptGet M me).1 = -1) :
    (c.interruptGet M me).2 = c ∧ ∀ i < percpuInterrupts, c.cpuReady me i = false := by
  unfold Intctl.interruptGet at hnone ⊢
  grind

omit dι dβ fι in
theorem interruptPeek_eq_neg {c : Intctl ι β} (hnone : c.interruptPeek M me = -1) :
    ∀ i < percpuInterrupts, c.cpuReady me i = false := by
  unfold Intctl.interruptPeek at hnone
  grind

omit fι in
/-- Looking for interrupts and finding none leaves none. -/
theorem vmCheckInterrupts_quiet
    (hcheck : k.vmCheckInterrupts M me = (some (-1), k')) : Quiet me k' := by
  have hget : (k.ints.interruptGet M me).1 = -1 → _ := interruptGet_eq_neg
  have hpeek : k.ints.interruptPeek M me = -1 → _ := interruptPeek_eq_neg
  unfold vmCheckInterrupts at hcheck
  grind [Quiet]

omit fι in
/-- Work that finds nothing leaves nothing. -/
theorem vmWork_quiet (hinf : Informed me k)
    (hwork : k.vmWork M me = (.returned (-1), k')) : Quiet me k' := by
  unfold vmWork at hwork
  split at hwork
  · set k₁ : Kernel ι β := { k with threads :=
      { k.threads with vmwork := update k.threads.vmwork me false } }
    rcases hcheck : k₁.vmCheckInterrupts M me with ⟨r, k₂⟩
    simp only [hcheck] at hwork
    cases r with
    | none => simp at hwork
    | some intno =>
      obtain ⟨hr, rfl⟩ := Prod.mk.inj hwork
      rw [Exit.returned.inj hr] at hcheck
      exact vmCheckInterrupts_quiet hcheck
  · next hno =>
    cases hwork
    exact hinf.resolve_left hno

/-- A step that is calm if `W`, and writes the status of the VMs `B` only. -/
structure CalmIf (W : Prop) (B : β → Prop) (k k' : Kernel ι β) : Prop where
  sleeps : W → ∀ t, Sleeps k t → Sleeps k' t
  vmStatus : ∀ b, ¬B b → k'.vms.status b = k.vms.status b

section

omit dι dβ fι

theorem Calm.calmIf (hk : Calm B k k') (W : Prop) : CalmIf W B k k' :=
  ⟨fun _ => hk.sleeps, hk.vmStatus⟩

theorem CalmIf.trans_calm {W : Prop} {k' k'' : Kernel ι β} (hk : CalmIf W B k k')
    (hk' : Calm B k' k'') : CalmIf W B k k'' :=
  ⟨fun hW t ht => hk'.sleeps t (hk.sleeps hW t ht),
    fun b hb => (hk'.vmStatus b hb).trans (hk.vmStatus b hb)⟩

theorem Does.calmIf {W : Prop} {o : Option (Exit × Kernel ι β)} (ho : Does (Calm B k) o) :
    Does (CalmIf W B k) o := ho.mono fun _ hk' => hk'.calmIf W

end

/-- **Waiting** is calm for a thread that knows of all that is pending. -/
theorem vmtrapWait_calmIf : Does (CalmIf (Informed me k) B k) (k.vmtrapWait M me h) := by
  unfold vmtrapWait
  have hwork := vmDoWorkWithlock_calm (B := B) M me h k
  rcases hdo : k.vmDoWorkWithlock M me h with - | ⟨e, k₁⟩
  · exact .none
  have hk₁ := hwork.of_some hdo
  rw [Option.bind_eq_bind, Option.bind_some]
  cases e with
  | returned intno =>
    simp only
    split
    · next hneg =>
      subst hneg
      have hvm : k.vmWork M me = (.returned (-1), k₁) := by
        unfold vmDoWorkWithlock at hdo
        split at hdo
        · exact absurd hdo (dosched_not_returned _ _)
        · exact Option.some.inj hdo
      set k₂ : Kernel ι β := { k₁ with
        vms := setWaiting M me k₁.vms
        sched := (k₁.sched.setStatus me .vmwait).runlistRemove me }
      have hvms : k₂.vms.status = k₁.vms.status := by
        simp only [k₂, setWaiting]
        split <;> rfl
      refine (dosched_calm M _ k₂).mono fun k' hk' =>
        CalmIf.trans_calm ⟨fun hinf t ht => ?_,
        fun b hb => by rw [hvms, hk₁.vmStatus b hb]⟩ hk'
      by_cases htm : t = me
      · -- it has looked and found nothing
        intro _
        rw [htm]
        exact (vmWork_quiet hinf hvm : Quiet me k₁)
      · intro hwait
        refine hk₁.sleeps t ht ?_
        simpa [k₂, htm] using hwait
    · refine .some (Calm.calmIf (hk₁.trans ?_) _)
      exact .of_eq rfl rfl rfl
  | switched => exact .some (hk₁.calmIf _)
  | hung => exact .some (hk₁.calmIf _)

section

omit dβ fι

theorem vmCpuintEnable_calmIf (intno : ℕ) :
    CalmIf (k.sched.status me ≠ .vmwait) B k (k.vmCpuintEnable me intno) := by
  unfold vmCpuintEnable
  split
  · exact (Calm.refl B k).calmIf _
  · refine ⟨fun hne t ht hwait i hi => ?_, fun _ _ => rfl⟩
    have htm : t ≠ me := by
      rintro rfl
      exact hne hwait
    simpa [Intctl.cpuReady, htm] using ht hwait i hi

theorem vmCpuintDisable_calm (intno : ℕ) : Calm B k (k.vmCpuintDisable me intno) := by
  refine .of_fields (fun _ => id) (fun t i => ?_) rfl
  simp only [vmCpuintDisable, Intctl.cpuReady]
  grind

theorem vmCpuintClear_calm (intno : ℕ) : Calm B k (k.vmCpuintClear me intno) := by
  refine .of_fields (fun _ => id) (fun t i => ?_) rfl
  simp only [vmCpuintClear, Intctl.cpuReady]
  grind

end

/-! ### Interrupts of the kernel's own -/

theorem vmIpiDo_calm : Does (Calm B k) (k.vmIpiDo M h) := by
  unfold vmIpiDo
  set k₁ : Kernel ι β :=
    { k with hw := { k.hw with maskForIpi := k.hw.maskForIpi &&& ~~~(1#32 <<< h) } }
  have hk₁ : Calm B k k₁ := .of_eq rfl rfl rfl
  simp only
  split
  · next me _ => exact ((vmDoWorkWithlock_calm M me h k₁).calm hk₁).map _
  · exact .some hk₁

theorem takeOver_calm (hk : Calm B k k') (woken : ι) :
    Does (Calm B k) (k'.takeOver M h woken) := by
  refine Does.calm (hk.trans (makeWay_calm h k')) (Does.calm ?_ (switch_calm M woken h _))
  exact .of_update (by simp) rfl rfl rfl

theorem intpoolInt_calm (intnum : ℕ) (b : β) : Does (Calm B k) (k.intpoolInt M intnum h b) := by
  unfold intpoolInt
  split
  · exact .some (.of_fields (fun _ => id) (fun _ _ => id) rfl)
  · refine takeOver_calm ?_ _
    exact .of_eq rfl rfl rfl

theorem resched_calm : Does (Calm B k) (k.resched M h) := Calm.dosched (makeWay_calm h k)

theorem reschedCluster_calm : Does (Calm B k) (k.reschedCluster M h) := by
  refine Does.calm ?_ resched_calm
  exact .of_eq rfl rfl rfl

theorem handler_calm (intno : ℕ) (expired : List ι) (e : Inthandler ι β) :
    Does (Calm B k) (k.handler M h intno expired e) := by
  cases e with
  | null => exact .some (.refl B k)
  | popup woken =>
    refine takeOver_calm ?_ woken
    exact .of_eq (writeHandler_status ..) rfl rfl
  | intpool b => exact intpoolInt_calm intno b
  | resched => exact resched_calm
  | reschedCluster => exact reschedCluster_calm
  | vmIpi => exact vmIpiDo_calm
  | timer => exact .some (.foldl (fun k t => vmCpuintPostLocked_calm M t timeGuestint k) expired k)

theorem handleInt_calm (expired : List ι) : Does (Calm B k) (k.handleInt M h expired) := by
  have hk : Calm B k (k.setLatched h none) := .of_eq rfl rfl rfl
  unfold handleInt
  split
  · exact .none
  · exact .some (hk.trans (.of_eq rfl rfl rfl))
  · next intno e _ _ =>
    have hhandler := (handler_calm (M := M) (h := h) intno expired e).calm hk
    rcases hrun : (k.setLatched h none).handler M h intno expired e with - | ⟨x, k₁⟩
    · exact .none
    have hk₁ := hhandler.of_some hrun
    cases x with
    | returned r =>
      refine .some ?_
      split
      · exact hk₁.trans (.of_eq rfl rfl rfl)
      · exact hk₁
    | switched => exact .some hk₁
    | hung => exact .some hk₁

end Operations

/-! ## Steps and runs -/

section Runs

variable [fι : Fintype ι] {M : Machine ι β} {k k' : Kernel ι β} {h : ℕ}

/-- What a step asks of the state it is made in, for sleepers to go on sleeping. -/
def Wakeful (h : ℕ) (op : Op ι β) (k : Kernel ι β) : Prop :=
  match op with
  -- only `VMWORK` makes the trap look for interrupts
  | .trap .vmwait => ∀ me, k.hw.sgp h = some me → Informed me k
  | .trap (.intop .enable _) => ∀ me, k.hw.sgp h = some me → k.sched.status me ≠ .vmwait
  | .controllers ints _ => ∀ t i, ints.cpuReady t i = true → k.ints.cpuReady t i = true
  | _ => True

/-- The VM whose status a step changes. -/
def Stamps (M : Machine ι β) (h : ℕ) (op : Op ι β) (k : Kernel ι β) (b : β) : Prop :=
  match op with
  | .trap (.stop status) => ∃ me, k.hw.sgp h = some me ∧ Restamps M me status k b
  | .trap (.vmopKillVm vm status) => ∃ me, k.hw.sgp h = some me ∧ KillRestamps M vm status me k b
  | .trap (.setie true) =>
    ∃ me, k.hw.sgp h = some me ∧ k.threads.gevb me = 0 ∧ Restamps M me h2ThreadFatalError k b
  | _ => False

theorem trap_calm {me : ι} (hme : k.hw.sgp h = some me) (t : Trap) :
    Does (CalmIf (Wakeful h (.trap t) k) (Stamps M h (.trap t) k) k) (k.trap M h me t) := by
  cases t with
  | yield => exact schedYield_calm.calmIf
  | stop status =>
    exact (threadStopWithlock_calm M status me h k).mono fun k' hk' =>
      ⟨fun _ => hk'.sleeps, fun b hb => hk'.vmStatus b fun hre => hb ⟨me, hme, hre⟩⟩
  | create pc sp arg1 prio asid => exact Does.calmIf (threadCreateNoSquash_calm ..)
  | vmopBoot pc sp arg1 prio vm asid => exact Does.calmIf (vmopBoot_calm ..)
  | vmopKillThread id => exact Does.calmIf (vmopKillThread_calm id)
  | vmopKillVm vm status =>
    exact (vmopKillVm_calm vm status).mono fun k' hk' =>
      ⟨fun _ => hk'.sleeps, fun b hb => hk'.vmStatus b fun hre => hb ⟨me, hme, hre⟩⟩
  | futexWait lock readval val =>
    exact Does.calmIf (futexWait_calm ..)
  | futexResume lock nToWake => exact Does.calmIf (futexResume_calm ..)
  | futexLockPi lock word =>
    rw [trap]
    exact Does.calmIf (futexLockPi_calm ..)
  | futexUnlockPi lock => exact Does.calmIf (futexUnlockPi_calm _)
  | popupWait intnum => exact Does.calmIf (popupWait_calm intnum)
  | intpoolWait =>
    rw [trap]
    exact intpoolWait_calm.calmIf
  | intpoolConfigure intno enable => exact Does.calmIf (intpoolConfigure_calm ..)
  | vmwait =>
    exact vmtrapWait_calmIf.mono fun k' hk' => ⟨fun hW => hk'.sleeps (hW me hme), hk'.vmStatus⟩
  | setie enable =>
    refine Does.calmIf (vmtrapSetie_calm enable fun hen hg b hre => ?_)
    subst hen
    exact ⟨me, hme, hg, hre⟩
  | setvec gevb => exact Does.calmIf (.some (.of_eq rfl rfl rfl))
  | intop op intno =>
    cases op with
    | enable =>
      have hk' : CalmIf _ noVm k (k.vmCpuintEnable me intno) := vmCpuintEnable_calmIf intno
      exact .some ⟨fun hW => hk'.sleeps (hW me hme), fun b _ => hk'.vmStatus b id⟩
    | disable => exact Does.calmIf (.some (vmCpuintDisable_calm _))
    | clear => exact Does.calmIf (.some (vmCpuintClear_calm _))
  | prioSet prio =>
    refine Does.calmIf ?_
    rw [trap, prioSet]
    split
    · exact .some (.refl _ k)
    · exact .some (.of_eq rfl rfl rfl)

theorem exec_calm {op : Op ι β} {e : Exit} (hexec : k.exec M h op = some (e, k')) :
    CalmIf (Wakeful h op k) (Stamps M h op k) k k' := by
  suffices Does (CalmIf (Wakeful h op k) (Stamps M h op k) k) (k.perform M h op) by
    rw [exec] at hexec
    split at hexec
    · exact this.of_some hexec
    · simp at hexec
  cases op with
  | trap t =>
    rw [perform]
    rcases hme : k.hw.sgp h with - | me
    · exact .none
    · exact trap_calm hme t
  | post dst intno => exact Does.calmIf (.some (vmCpuintPostLocked_calm ..))
  | deliver dst intno => exact Does.calmIf (.some (vmIntDeliverLocked_calm ..))
  | controllers ints work =>
    refine .some ⟨fun hW => Calm.sleeps (B := noVm) ?_, fun _ _ => rfl⟩
    exact .of_fields (fun _ => id) hW rfl
  | start => exact Does.calmIf (.some (.of_eq rfl rfl rfl))
  | takeInt intno =>
    refine Does.calmIf (.some ?_)
    unfold takeInt
    simp only
    split <;> exact .of_eq rfl rfl rfl
  | handleInt expired => exact Does.calmIf (handleInt_calm expired)

theorem Reached.sleeps {k₀ : Kernel ι β} (h₀ : ∀ t, Sleeps k₀ t) (hk : Reached M Wakeful k₀ k)
    (t : ι) : Sleeps k t := by
  induction hk with
  | init => exact h₀ t
  | step _ hstep hexec ih => exact (exec_calm hexec).sleeps hstep t ih

theorem sleeps_boot {timerIntnum : ℕ} {mask : BitVec 32} {cluster : Cluster ι} {bootvm : β}
    {e : Exit} {k₀ : Kernel ι β}
    (hboot : boot M timerIntnum mask cluster bootvm = some (e, k₀)) (t : ι) : Sleeps k₀ t := by
  rw [boot, threadBoot] at hboot
  split at hboot
  · simp at hboot
  · exact ((switch_calm (B := noVm) M _ 0 _).of_some hboot).sleeps t fun _ _ _ => rfl

/-- A thread with its interrupts disabled that looks for one finds it. -/
theorem vmtrapWait_returns {me : ι} (hie : k.threads.ie me = false)
    (hkill : k.threads.kill me = false) (hwork : k.threads.vmwork me = true) {i : ℕ}
    (hi : i < percpuInterrupts) (hready : k.ints.cpuReady me i = true) :
    ∃ j < percpuInterrupts, k.ints.cpuReady me j = true ∧ ∃ k', k'.sched.status = k.sched.status ∧
      k.vmtrapWait M me h = some (.returned j, k') := by
  obtain ⟨j, hfind⟩ : ∃ j, (List.range percpuInterrupts).find? (k.ints.cpuReady me) = some j := by
    rw [← Option.isSome_iff_exists, List.find?_isSome]
    exact ⟨i, List.mem_range.mpr hi, hready⟩
  have hpeek : k.ints.interruptPeek M me = j := by
    unfold Intctl.interruptPeek
    rw [hfind]
  have hdo : k.vmDoWorkWithlock M me h = some (.returned j, { k with threads :=
      { k.threads with vmwork := update k.threads.vmwork me false } }) := by
    simp [vmDoWorkWithlock, vmWork, vmCheckInterrupts, hkill, hwork, hie, hpeek]
  refine ⟨j, List.mem_range.mp (List.mem_of_find?_eq_some hfind), by
    simpa using List.find?_some hfind, ?_⟩
  unfold vmtrapWait
  rw [hdo, Option.bind_eq_bind]
  exact ⟨{ k with
    sched := k.sched.setR00 me (j : ℤ).toNat
    threads := { k.threads with vmwork := update k.threads.vmwork me false } }, rfl, rfl⟩

end Runs

/-- **No sleeping on a pending interrupt**, in every state that wakeful steps lead to; and a thread
that waits with its interrupts disabled, not killed and informed, is handed a pending one. -/
theorem sleeps_of_reached [Fintype ι] (M : Machine ι β) (timerIntnum : ℕ) (mask : BitVec 32)
    (cluster : Cluster ι) (bootvm : β) {e : Exit} {k₀ k : Kernel ι β}
    (hboot : boot M timerIntnum mask cluster bootvm = some (e, k₀)) (hk : Reached M Wakeful k₀ k) :
    (∀ t, k.sched.status t = .vmwait → ∀ i < percpuInterrupts,
      (k.ints.cpuintEnabled t i && k.ints.cpuintPending t i) = false) ∧
    ∀ h me, k.threads.ie me = false → k.threads.kill me = false → Informed me k →
      ∀ i < percpuInterrupts, k.ints.cpuReady me i = true →
        ∃ j < percpuInterrupts, k.ints.cpuReady me j = true ∧ ∃ k',
          k'.sched.status = k.sched.status ∧
          k.vmtrapWait M me h = some (.returned j, k') := by
  refine ⟨hk.sleeps (sleeps_boot hboot), fun h me hie hkill hinf i hi hready => ?_⟩
  refine vmtrapWait_returns hie hkill (hinf.resolve_right fun hq => ?_) hi hready
  simp [hq i hi] at hready

/-- A test that a step is made by a thread that does not wait, and is no `vmwait` without
`VMWORK`. -/
def wakefulTest (h : ℕ) (op : Op ι β) (k : Kernel ι β) : Bool :=
  match op with
  | .trap .vmwait => (k.hw.sgp h).all fun me => k.threads.vmwork me
  | .trap _ => (k.hw.sgp h).all fun me => k.sched.status me != .vmwait
  | .controllers .. => false
  | _ => true

omit dι dβ in
theorem wakeful_of_wakefulTest (h : ℕ) (op : Op ι β) (k : Kernel ι β)
    (htest : wakefulTest h op k = true) : Wakeful h op k := by
  unfold Wakeful
  split
  · intro me hme
    exact .inl (by simpa [wakefulTest, hme] using htest)
  · intro me hme
    simpa [wakefulTest, hme] using htest
  · simp [wakefulTest] at htest
  · trivial

/-- A virtual cpu with an interrupt enabled and posted. -/
def postSelf : List (ℕ × Op (Fin 1) Unit) :=
  [(0, .trap (.intop .enable ⟨3, by decide⟩)), (0, .post 0 ⟨3, by decide⟩)]

theorem sleeps_postSelf : ∃ e k₀ k, boot (oneVm 0) 3 1#32 .off () = some (e, k₀) ∧
    Reached (oneVm 0) Wakeful k₀ k ∧ k.ints.cpuReady 0 3 = true ∧
    ∃ j < percpuInterrupts, k.ints.cpuReady 0 j = true ∧ ∃ k', k'.sched.status = k.sched.status ∧
      k.vmtrapWait (oneVm 0) 0 0 = some (.returned j, k') := by
  have hrun : ∃ p ∈ boot (oneVm 0) 3 1#32 .off (), ∃ k ∈ p.2.runIf (oneVm 0) wakefulTest postSelf,
      k.ints.cpuReady 0 3 = true ∧ k.threads.ie 0 = false ∧ k.threads.kill 0 = false ∧
        k.threads.vmwork 0 = true := by decide +kernel
  obtain ⟨⟨e, k₀⟩, hboot, k, hk, hready, hie, hkill, hwork⟩ := hrun
  have hreached := Reached.of_runIf wakeful_of_wakefulTest .init hk
  exact ⟨e, k₀, k, hboot, hreached, hready, (sleeps_of_reached (oneVm 0) 3 1#32 .off () hboot
    hreached).2 0 0 hie hkill (.inl hwork) 3 (by decide) hready⟩

/-- With its interrupts disabled, the cpu waits and is told of the interrupt, which stays pending.
When it waits again `VMWORK` is clear, and it goes to sleep. -/
theorem sleeps_fails_second_wait : ∃ e k₀ k, boot (oneVm 0) 3 1#32 .off () = some (e, k₀) ∧
    Reached (oneVm 0) (fun _ _ _ => True) k₀ k ∧ k.sched.status 0 = .vmwait ∧
    (k.ints.cpuintEnabled 0 3 && k.ints.cpuintPending 0 3) = true := by
  obtain ⟨e, k₀, k, hboot, hk, -, hP⟩ := exists_reached_of_bootRun 1#32
    (postSelf ++ [(0, .trap .vmwait), (0, .trap .vmwait)]) (C := fun _ _ _ => True)
    (fun _ _ _ => trivial) (fun k => k.sched.status 0 = .vmwait ∧
      (k.ints.cpuintEnabled 0 3 && k.ints.cpuintPending 0 3) = true) (by decide +kernel)
  exact ⟨e, k₀, k, hboot, hk, hP⟩

/-! ## The exit status of a killed VM -/

section Exit

variable [fι : Fintype ι] {M : Machine ι β} {k k' : Kernel ι β} {h : ℕ}

/-- A step that, if it is an exit of a thread of VM `b`, is one with this status; and no further
kill of that VM.  A thread with no event vector that enables its interrupts may exit with a fatal
error. -/
def ExitsWith (M : Machine ι β) (status : ℤ) (b : β) (h : ℕ) (op : Op ι β) (k : Kernel ι β) :
    Prop :=
  match op with
  | .trap (.stop s) => ∀ me, k.hw.sgp h = some me → M.vmblock me = b → s = status
  | .trap (.setie true) => ∀ me, k.hw.sgp h = some me → M.vmblock me = b →
      k.threads.gevb me = 0 → status = h2ThreadFatalError
  | .trap (.vmopKillVm vm _) => ∀ me, k.hw.sgp h = some me → ¬KillsVm M vm me b
  | _ => True

omit dι dβ fι in
theorem ExitsWith.not_stamps {op : Op ι β} {b : β} (he : ExitsWith M (k.vms.status b) b h op k) :
    ¬Stamps M h op k b := by
  unfold Stamps
  split
  · rintro ⟨me, hme, hb, hne⟩
    exact hne (he me hme hb.symm).symm
  · rintro ⟨me, hme, hb, -⟩
    exact he me hme hb
  · rintro ⟨me, hme, hg, hb, hne⟩
    exact hne (he me hme hb.symm hg)
  · exact id

theorem vmStatus_killVm {vm : ℕ} {status : ℤ} {me : ι} {b : β} (hme : k.hw.sgp h = some me)
    (hb : KillsVm M vm me b)
    (hkill : k.exec M h (.trap (.vmopKillVm vm status)) = some (.returned 0, k')) :
    k'.vms.status b = status := by
  rw [exec, if_pos (enabled_of_exec hkill), perform, hme, Option.bind_some, trap] at hkill
  rcases vmopKillVm_cases M me k vm status with ⟨r, hr, heq⟩ | ⟨b', hb', -, heq⟩ <;>
    rw [heq] at hkill <;> cases hkill
  · exact absurd hb (hr rfl b)
  · obtain rfl := (hb' b).mp hb
    exact ((foldl_kill_calm (B := noVm) M _ _).vmStatus b id).trans (update_self ..)

theorem Reached.vmStatus {k₁ : Kernel ι β} {b : β} {status : ℤ} (h₁ : k₁.vms.status b = status)
    (hk : Reached M (ExitsWith M status b) k₁ k) : k.vms.status b = status := by
  induction hk with
  | init => exact h₁
  | @step k _ _ _ _ _ hstep hexec ih =>
    subst ih
    exact (exec_calm hexec).vmStatus b hstep.not_stamps

end Exit

/-- **The exit status of a killed VM**: what the kill asks for, in every state that steps lead to in
which its threads exit with that status or none. -/
theorem vmStatus_of_killed [Fintype ι] (M : Machine ι β) {k k₁ k' : Kernel ι β} {h vm : ℕ} {me : ι}
    {b : β} {status : ℤ} (hme : k.hw.sgp h = some me) (hb : KillsVm M vm me b)
    (hkill : k.exec M h (.trap (.vmopKillVm vm status)) = some (.returned 0, k₁))
    (hk : Reached M (ExitsWith M status b) k₁ k') : k'.vms.status b = status :=
  hk.vmStatus (vmStatus_killVm hme hb hkill)

/-- Two threads of the boot VM, each on a hardware thread. -/
def twoRunning : List (ℕ × Op (Fin 2) Unit) :=
  [(1, .start), (0, .trap (.create 0 0 0 0 true)), (1, .takeInt 1), (1, .handleInt [])]

/-- A test that a step is an interrupt or an exit with this status. -/
def exitsWithTest (status : ℤ) (_ : ℕ) (op : Op ι β) (_ : Kernel ι β) : Bool :=
  match op with
  | .trap (.stop s) => s == status
  | .takeInt _ => true
  | .handleInt _ => true
  | _ => false

omit dι dβ in
theorem exitsWith_of_exitsWithTest (M : Machine ι β) (status : ℤ) (b : β) (h : ℕ) (op : Op ι β)
    (k : Kernel ι β) (htest : exitsWithTest status h op k = true) :
      ExitsWith M status b h op k := by
  unfold ExitsWith
  split
  · simpa [exitsWithTest] using fun _ _ _ => htest
  · simp [exitsWithTest] at htest
  · simp [exitsWithTest] at htest
  · trivial

/-- Both threads are killed, and take their interrupts. -/
theorem vmStatus_twoRunning : ∃ k k₁ k', bootRun 1 3#32 twoRunning = some k ∧
    k.vms.numCpus () = 2 ∧
    k.exec (oneVm 1) 0 (.trap (.vmopKillVm vmopKillVmSelf 5)) = some (.returned 0, k₁) ∧
    Reached (oneVm 1) (ExitsWith (oneVm 1) 5 ()) k₁ k' ∧ k'.vms.numCpus () = 0 ∧
    k'.vms.status () = 5 := by
  have hrun : ∃ k ∈ bootRun 1 3#32 twoRunning,
      ∃ p ∈ k.exec (oneVm 1) 0 (.trap (.vmopKillVm vmopKillVmSelf 5)),
      ∃ k' ∈ p.2.runIf (oneVm 1) (exitsWithTest 5)
        [(1, .takeInt 0), (1, .handleInt []), (0, .takeInt 0), (0, .handleInt [])],
        p.1 = .returned 0 ∧ k.hw.sgp 0 = some 1 ∧ k.vms.numCpus () = 2 ∧
          k'.vms.numCpus () = 0 := by decide +kernel
  obtain ⟨k, hk, ⟨_, k₁⟩, hexec, k', hk', rfl, hme, hlive, hgone⟩ := hrun
  have hb : KillsVm (oneVm 1) vmopKillVmSelf 1 () := by simp [KillsVm]
  have hreached := Reached.of_runIf (exitsWith_of_exitsWithTest (oneVm 1) 5 ()) .init hk'
  exact ⟨k, k₁, k', hk, hlive, hexec, hreached, hgone,
    vmStatus_of_killed (oneVm 1) hme hb hexec hreached⟩

/-- Killed with status 5, one of the threads exits with 7 before it takes its interrupt; the other
is reaped with what it finds, and 7 it stays. -/
theorem vmStatus_fails_stop_after_kill : ∃ k k₁ k', bootRun 1 3#32 twoRunning = some k ∧
    k.vms.numCpus () = 2 ∧
    k.exec (oneVm 1) 0 (.trap (.vmopKillVm vmopKillVmSelf 5)) = some (.returned 0, k₁) ∧
    Reached (oneVm 1) (fun _ op _ => ∀ vm s, op ≠ .trap (.vmopKillVm vm s)) k₁ k' ∧
    k'.vms.numCpus () = 0 ∧ k'.vms.status () = 7 := by
  have hrun : ∃ k ∈ bootRun 1 3#32 twoRunning,
      ∃ p ∈ k.exec (oneVm 1) 0 (.trap (.vmopKillVm vmopKillVmSelf 5)),
      ∃ k' ∈ p.2.runIf (oneVm 1) (exitsWithTest 7)
        [(1, .trap (.stop 7)), (0, .takeInt 0), (0, .handleInt [])],
        p.1 = .returned 0 ∧ k.vms.numCpus () = 2 ∧ k'.vms.numCpus () = 0 ∧
          k'.vms.status () = 7 := by decide +kernel
  obtain ⟨k, hk, ⟨_, k₁⟩, hexec, k', hk', rfl, hlive, hgone, hstatus⟩ := hrun
  refine ⟨k, k₁, k', hk, hlive, hexec, .of_runIf (fun _ op _ htest vm s hop => ?_) .init hk', hgone,
    hstatus⟩
  simp [hop, exitsWithTest] at htest

end H2
