import H2.Kernel.Passage

/-!
# Kernel/Moves — one step, and what it begins

`Begins` is the list of what a passage is not: a thread joins a futex bucket or the table of
handlers or an intpool, it goes to VMWAIT, it is created.  A step is one of these with a passage
before it and one after it (`exec_moves`), and so an invariant that passages keep is checked against
the list.
-/

namespace H2

open Kernel Function

variable {ι β : Type} [dι : DecidableEq ι] [dβ : DecidableEq β] [fι : Fintype ι]

/-- The VM a step may create a thread in. -/
def Op.creates (M : Machine ι β) (h : ℕ) (k : Kernel ι β) : Op ι β → Option β
  | .trap (.create ..) => (k.hw.sgp h).map M.vmblock
  | .trap (.vmopBoot _ _ _ _ vm _) => (M.vmblocks vm).filter fun b => k.vms.numCpus b = 0
  | _ => none

/-- The word address a step may block its thread on. -/
def Op.blocksOn : Op ι β → Option ℕ
  | .trap (.futexWait lock _ _) => (lock.safemem safememR).map (· / 4)
  | .trap (.futexLockPi lock _) => (lock.safemem safememRw).map (· / 4)
  | _ => none

/-- A context is taken from the free list of its VM, made ready and counted, and for the others
nothing changes. -/
structure Births (M : Machine ι β) (t : ι) (k k' : Kernel ι β) : Prop where
  dead : k.sched.status t = .dead
  ready : k'.sched.status t = .ready
  others : ∀ u, u ≠ t → k'.sched.status u = k.sched.status u ∧
    k'.sched.hthread u = k.sched.hthread u ∧ k'.sched.prio u = k.sched.prio u ∧
    k'.sched.futexPtr u = k.sched.futexPtr u ∧ k'.threads.kill u = k.threads.kill u ∧
    k'.threads.vmwork u = k.threads.vmwork u
  handlers : k'.sched.inthandlers = k.sched.inthandlers
  queues : ∀ v, k'.sched.queue (.futex v) = k.sched.queue (.futex v)
  ipi : k'.hw.maskForIpi = k.hw.maskForIpi
  census : Census M k → Census M k'
  freed : k'.vms.freed = k.vms.freed

/-- The thread has no kill to notice. -/
def Spared (k : Kernel ι β) (t : ι) : Prop := ¬(k.threads.kill t = true ∧ k.threads.vmwork t = true)

/-- What a step begins. -/
inductive Begins (M : Machine ι β) (h : ℕ) : Op ι β → Kernel ι β → Kernel ι β → Prop
  | nothing (op : Op ι β) (k : Kernel ι β) : Begins M h op k k
  | futexWait {k k' : Kernel ι β} {me : ι} {lock : Access} {a : ℕ} (val : ℕ)
      (hme : k.hw.sgp h = some me) (hspared : Spared k me) (ha : lock.safemem safememR = some a)
      (hk' : k.futexEnqueue (a / 4) me = some k') :
      Begins M h (.trap (.futexWait lock val val)) k k'
  | futexLockPi {k k₁ k' : Kernel ι β} {me : ι} {lock : Access} {word a : ℕ}
      (hme : k.hw.sgp h = some me) (hspared : Spared k me) (ha : lock.safemem safememRw = some a)
      (hk₁ : k.futexPiRaise M (k.sched.prio me) word = some k₁)
      (hk' : k₁.futexEnqueue (a / 4) me = some k') :
      Begins M h (.trap (.futexLockPi lock word)) k k'
  | popup {k : Kernel ι β} {me : ι} {intnum : ℕ} (hme : k.hw.sgp h = some me)
      (hspared : Spared k me) (hlt : intnum < maxInterrupts)
      (hnull : k.sched.inthandlers intnum = .null) :
      Begins M h (.trap (.popupWait intnum)) k
        { k with sched :=
            (((k.sched.writeHandler intnum (.popup me)).runlistRemove me).setStatus me
              .intblocked).setR00 me intnum }
  | intpool {k : Kernel ι β} {me : ι} (hme : k.hw.sgp h = some me) (hspared : Spared k me) :
      Begins M h (.trap .intpoolWait) k
        { k with sched :=
            ({ k.sched.runlistRemove me with rings :=
                (k.sched.runlistRemove me).rings.append (.intpool (M.vmblock me)) me }.setStatus me
              .intblocked).setR00 me u32Max }
  | vmwait {k : Kernel ι β} {me : ι} (hme : k.hw.sgp h = some me) (hspared : Spared k me) :
      Begins M h (.trap .vmwait) k
        { k with
          vms := setWaiting M me k.vms
          sched := (k.sched.setStatus me .vmwait).runlistRemove me }
  | create {op : Op ι β} {k k' : Kernel ι β} {b : β} {t : ι} (hop : op.creates M h k = some b)
      (hfree : k.sched.freeThreads b = some t) (hk' : Births M t k k') : Begins M h op k k'
  | configure {k : Kernel ι β} {me : ι} {intno : ℕ} (enable : Bool) (hlt : intno < maxInterrupts)
      (hpopup : ∀ u, k.sched.inthandlers intno ≠ .popup u) :
      Begins M h (.trap (.intpoolConfigure intno enable)) k
        { k with sched :=
            k.sched.writeHandler intno (if enable then .intpool (M.vmblock me) else .null) }

/-- What a step does to threads.  Two of the waits begin with work that is to be done first. -/
structure Moves (M : Machine ι β) (h : ℕ) (op : Op ι β) (k k' : Kernel ι β) : Prop where
  intro ::
  split : ∃ k₁ k₂, Passage M nobody k k₁ ∧ Coherent M k₁ ∧
    (k₁ = k ∨ op = .trap .vmwait ∨ op = .trap .intpoolWait) ∧ Begins M h op k₁ k₂ ∧
    Passage M nobody k₂ k'

section Steps

variable {M : Machine ι β} {k k' : Kernel ι β} {h : ℕ} {op : Op ι β} {me : ι}

theorem Passage.moves (hc : Coherent M k) (hk' : Passage M nobody k k') : Moves M h op k k' :=
  ⟨k, k, .refl M nobody k, hc, .inl rfl, .nothing op k, hk'⟩

theorem Begins.moves (hc : Coherent M k) (hk' : Begins M h op k k') : Moves M h op k k' :=
  ⟨k, k', .refl M nobody k, hc, .inl rfl, hk', .refl M nobody k'⟩

/-- It waits, and another is switched to. -/
theorem Begins.dosched (hc : Coherent M k) (hb : Begins M h op k k') (hl : Leaves M h k k') :
    Does (Moves M h op k) (k'.dosched M h) :=
  (dosched_passage hl.between).mono fun _ hk'' => ⟨k, k', .refl M nobody k, hc, .inl rfl, hb, hk''⟩

/-- A context that was dead is not, and is counted. -/
theorem Census.insert (hcensus : Census M k) {t : ι} (ht : k.sched.status t = .dead)
    (hdead : ∀ u, k'.sched.status u = .dead ↔ u ≠ t ∧ k.sched.status u = .dead)
    (hnum : k'.vms.numCpus = update k.vms.numCpus (M.vmblock t)
      ((k.vms.numCpus (M.vmblock t) + 1) % 0x100000000)) : Census M k' := by
  intro b
  by_cases hb : M.vmblock t = b
  · subst hb
    have hlive : k'.live M (M.vmblock t) = Insert.insert t (k.live M (M.vmblock t)) := by
      ext u
      by_cases hut : u = t <;> simp [live, hdead, hut]
    have hout : t ∉ k.live M (M.vmblock t) := by simp [live, ht]
    rw [hnum, hlive, Finset.card_insert_of_notMem hout, update_self, hcensus]
    omega
  · have hlive : k'.live M b = k.live M b := by
      ext u
      by_cases hut : u = t
      · simp [live, hut, hb]
      · simp [live, hdead, hut]
    rw [hnum, hlive, update_of_ne (Ne.symm hb), hcensus]

/-- **Creating**: the context is taken off the free list and counted, or put back. -/
theorem threadCreateNoSquash_moves (hc : Coherent M k) {b : β} (hop : op.creates M h k = some b)
    (pc sp arg1 prio : ℕ) (asid : Bool) :
    Does (Moves M h op k) (k.threadCreateNoSquash M pc sp arg1 prio asid b me) := by
  have hsame : Moves M h op k k := (Passage.refl M nobody k).moves hc
  unfold threadCreateNoSquash
  split
  · exact .some hsame
  split
  · exact .some hsame
  next tmp hfree =>
  obtain ⟨hdead, hb, hhand⟩ := hc.placed.popFree hfree
  set gevb := if k.vms.numCpus b = 0 then 0 else k.threads.gevb me
  split
  · have hhand' := (hhand.setPrio prio).setR00 arg1
    refine .some (Begins.moves hc (.create hop hfree ?_))
    refine ⟨hdead, by simp, fun u hu => ?_, rfl, fun v => ?_, checkSanity_maskForIpi _,
      fun hcensus => ?_, rfl⟩
    · refine ⟨by simp [hu], rfl, by simp [hu], rfl, ?_, ?_⟩
      all_goals exact update_of_ne hu ..
    · have hsame : (((k.sched.freePop b tmp).setPrio tmp prio).setR00 tmp arg1).queue =
          k.sched.queue := rfl
      rw [checkSanity_sched, hhand'.queue_readyAppend, hsame, update_of_ne (by simp)]
    · subst hb
      refine (checkSanity_passage _).census (hcensus.insert hdead (fun u => ?_) rfl)
      by_cases hut : u = tmp <;> simp [hut]
  · -- only a dead context has been written
    have hqueue {v : ℕ} : ((((k.sched.freePop b tmp).setPrio tmp prio).setR00 tmp arg1).freeReturn b
        tmp).queue (.futex v) = k.sched.queue (.futex v) := rfl
    have hk' : Passage M (· = tmp) k { k.initThread tmp prio gevb with sched :=
        (((k.sched.freePop b tmp).setPrio tmp prio).setR00 tmp arg1).freeReturn b tmp } := by
      refine .of_status ⟨fun t ht => ?_, fun t ht _ => ?_, fun _ _ _ => id, rfl, rfl⟩
        (fun _ => .inl ⟨rfl, rfl⟩) (fun _ => .inl rfl) (fun v => ?_) fun t ht => ?_
      · simp [initThread, ht]
      · simp [initThread, ht]
      · rw [hqueue]
      · have hne : t ≠ tmp := by
          rintro rfl
          simp [Sched.freeReturn, hdead] at ht
        simp [Sched.freeReturn, hne]
    refine .some ((hk'.settle fun t ht => ?_).moves hc)
    subst ht
    exact fun _ => .inl hdead

/-- A thread that returns from its work has not been killed. -/
theorem vmDoWorkWithlock_spared {r : ℤ}
    (hwork : k.vmDoWorkWithlock M me h = some (.returned r, k')) : Spared k' me := by
  unfold vmDoWorkWithlock at hwork
  split at hwork
  · exact absurd hwork (dosched_not_returned r k')
  · next hkill =>
    have hsame := (vmWork_works M me k).1.kill
    rw [Option.some.inj hwork] at hsame
    rintro ⟨hkill', -⟩
    exact hkill (hsame ▸ hkill')

theorem vmtrapWait_moves (hc : Coherent M k) (hme : k.hw.sgp h = some me) :
    Does (Moves M h (.trap .vmwait) k) (k.vmtrapWait M me h) := by
  obtain ⟨e, k₁, hwork, hk₁⟩ := vmDoWorkWithlock_ends hc hme
  have hpass := ((vmDoWorkWithlock_passage hc hme).of_some hwork).1
  unfold vmtrapWait
  rw [hwork, Option.bind_eq_bind, Option.bind_some]
  cases e with
  | returned intno =>
    have hme₁ := vmDoWorkWithlock_returned hme hwork
    simp only
    split
    · unfold vmBlock
      rw [(hk₁.coherent.running hme₁).2]
      refine (dosched_passage (vmBlock_leaves hk₁.coherent hme₁).between).mono fun k₂ hk₂ => ?_
      exact ⟨k₁, _, hpass, hk₁.coherent, .inr (.inl rfl),
        .vmwait hme₁ (vmDoWorkWithlock_spared hwork), hk₂⟩
    · refine .some ((hpass.trans ?_).moves hc)
      exact .of_status (.of_eq rfl rfl rfl rfl rfl) (fun _ => .inl ⟨rfl, rfl⟩) (fun _ => .inl rfl)
        (fun _ => List.Sublist.refl _) fun _ _ => ⟨rfl, rfl⟩
  | switched => exact .some (hpass.moves hc)
  | hung => exact .some (hpass.moves hc)

theorem trap_moves (hc : Coherent M k) (hme : k.hw.sgp h = some me) (t : Trap)
    (hsafe : t.Safe M me k) : Does (Moves M h (.trap t) k) (k.trap M h me t) := by
  have hpass {op : Op ι β} {o : Option (Exit × Kernel ι β)} (ho : Does (Passage M nobody k) o) :
      Does (Moves M h op k) o := ho.mono fun _ hk' => hk'.moves hc
  have hwork {op : Op ι β} (r : ℤ) : Does (Moves M h op k)
      ((k.vmDoWorkWithlock M me h).map fun p => (p.1.andReturn r, p.2)) :=
    hpass (((vmDoWorkWithlock_passage hc hme).mono fun _ hk' => hk'.1).map _)
  have hstay {op : Op ι β} {e : Exit} : Does (Moves M h op k) (some (e, k)) :=
    hpass (.some (.refl M nobody k))
  have hspared (hw : ¬k.threads.vmwork me = true) : Spared k me := fun hk => hw hk.2
  have hh := (hc.running hme).2
  cases t with
  | yield => exact hpass (schedYield_passage hc hme)
  | stop status => exact hpass ((threadStopWithlock_passage hc hme status).mono fun _ hk' => hk'.1)
  | create pc sp arg1 prio asid =>
    exact threadCreateNoSquash_moves hc (by simp [Op.creates, hme]) pc sp arg1 prio asid
  | vmopBoot pc sp arg1 prio vm asid =>
    rw [trap, vmopBoot]
    split
    · exact hstay
    split
    · exact hstay
    next b hb =>
    split
    · exact hstay
    · next hnum =>
      refine threadCreateNoSquash_moves hc ?_ pc sp arg1 prio asid
      simp only [not_or, not_lt, Nat.le_zero] at hnum
      simp [Op.creates, hb, hnum.2]
  | vmopKillThread id => exact hpass (vmopKillThread_passage hc hsafe)
  | vmopKillVm vm status => exact hpass (vmopKillVm_passage hc hsafe status)
  | futexWait lock readval val =>
    rw [trap]
    unfold futexWait
    split
    · exact hwork (-1)
    next hw =>
    split
    · exact hstay
    next a ha =>
    split
    · exact hstay
    next hval =>
    rw [not_not] at hval
    have := safemem_lt ha
    obtain ⟨k', hadd, hl⟩ := futexEnqueue_leaves hc hme (by omega : a / 4 < 0x400000000)
    rw [futexBlock, hadd, hh, hval]
    exact Begins.dosched hc (.futexWait val hme (hspared hw) ha hadd) hl
  | futexResume lock nToWake => exact hpass (futexResume_passage hc _ nToWake)
  | futexLockPi lock word =>
    rw [trap]
    unfold futexLockPi
    split
    · exact hwork (-1)
    next hw =>
    split
    · exact hstay
    next a ha =>
    split
    · exact hstay
    obtain ⟨k₁, hraise, hc₁, -, hsgp, -⟩ :=
      futexPiRaise_coherent hc (hc.placed.prios.prio_le me) word
    have hme₁ : k₁.hw.sgp h = some me := hsgp ▸ hme
    have := safemem_lt ha
    obtain ⟨k', hadd, hl⟩ := futexEnqueue_leaves hc₁ hme₁ (by omega : a / 4 < 0x400000000)
    rw [hraise, Option.bind_some, futexBlock, hadd, (hc₁.running hme₁).2]
    refine (dosched_passage hl.between).mono fun k₂ hk₂ => ?_
    exact ⟨k, k', .refl M nobody k, hc, .inl rfl, .futexLockPi hme (hspared hw) ha hraise hadd, hk₂⟩
  | futexUnlockPi lock => exact hpass (futexUnlockPi_passage hc hme _)
  | popupWait intnum =>
    rw [trap, popupWait]
    split
    · exact hstay
    next hlt =>
    split
    · exact hstay
    split
    · exact hwork (-1)
    next hw =>
    split
    · exact hstay
    next hnull =>
    rw [not_not] at hnull
    rw [not_le] at hlt
    rw [hh]
    exact Begins.dosched hc (.popup hme (hspared hw) hlt hnull) (popupWait_leaves hc hme hlt hnull)
  | intpoolWait =>
    rw [trap, intpoolWait]
    split
    · exact hwork (-1)
    next hw =>
    have hblock {k₁ : Kernel ι β} (hc₁ : Coherent M k₁) (hk₁ : Passage M nobody k k₁)
        (hhw : k₁.hw = k.hw) (hthreads : k₁.threads = k.threads) :
        Does (Moves M h (.trap .intpoolWait) k) (k₁.intpoolBlock M me) := by
      have hme₁ : k₁.hw.sgp h = some me := hhw ▸ hme
      unfold intpoolBlock
      rw [(hc₁.running hme₁).2]
      have hl := intpoolBlock_leaves hc₁ hme₁ (by rw [hthreads]; exact hsafe)
      refine (dosched_passage hl.between).mono fun k₂ hk₂ => ?_
      exact ⟨k₁, _, hk₁, hc₁, .inr (.inr rfl),
        .intpool hme₁ (by rw [Spared, hthreads]; exact hspared hw), hk₂⟩
    split
    · split
      · exact hpass (.some (.of_flags (.of_eq rfl rfl rfl rfl rfl) rfl))
      · exact hblock ⟨hc.placed, hc.executes, hc.started, hc.parents⟩
          (.of_flags (.of_eq rfl rfl rfl rfl rfl) rfl) rfl rfl
    · exact hblock hc (.refl M nobody k) rfl rfl
  | intpoolConfigure intno enable =>
    exact .some (Begins.moves hc (.configure enable hsafe.1 hsafe.2))
  | vmwait => exact vmtrapWait_moves hc hme
  | setie enable => exact hpass (vmtrapSetie_passage hc hme enable)
  | setvec gevb => exact hpass (.some (.of_flags (.of_eq rfl rfl rfl rfl rfl) rfl))
  | intop op intno =>
    cases op with
    | enable => exact hpass (.some (vmCpuintEnable_passage _))
    | disable => exact hpass (.some (.of_flags (.of_eq rfl rfl rfl rfl rfl) rfl))
    | clear => exact hpass (.some (.of_flags (.of_eq rfl rfl rfl rfl rfl) rfl))
  | prioSet prio =>
    rw [trap, prioSet]
    split
    · exact hstay
    · exact hpass (.some (.of_flags (.of_eq rfl rfl rfl rfl rfl) rfl))

theorem exec_moves (hc : Coherent M k) (hsafe : Safe M h op k) {e : Exit}
    (hexec : k.exec M h op = some (e, k')) : Moves M h op k k' := by
  have hen := enabled_of_exec hexec
  have hon : k.hw.hthreadsMask.getLsbD h = true := by
    simp only [enabled, Bool.and_eq_true] at hen
    exact hen.1.2
  suffices Does (Moves M h op k) (k.perform M h op) by
    rw [exec, if_pos hen] at hexec
    exact this.of_some hexec
  have hpass {o : Option (Exit × Kernel ι β)} (ho : Does (Passage M nobody k) o) :
      Does (Moves M h op k) o := ho.mono fun _ hk' => hk'.moves hc
  cases op with
  | trap t =>
    rw [perform]
    rcases hme : k.hw.sgp h with - | me
    · exact .none
    · exact trap_moves hc hme t (hsafe me hme)
  | post dst intno => exact hpass (.some (vmCpuintPostLocked_passage hc.placed hsafe _))
  | deliver dst intno => exact hpass (.some (vmIntDeliverLocked_passage hc.placed hsafe _))
  | controllers ints work =>
    refine hpass (.some (.of_flags ⟨fun _ _ => id, fun t _ _ hw => ?_,
      fun _ _ _ => id, rfl, rfl⟩ rfl))
    simp [hw]
  | start => exact hpass (.some (.of_flags (.of_eq rfl rfl rfl rfl rfl) rfl))
  | takeInt intno =>
    refine hpass (.some ?_)
    unfold takeInt
    simp only
    split <;> exact .of_flags (.of_eq rfl rfl rfl rfl rfl) rfl
  | handleInt expired =>
    rcases hlatched : k.hw.latched h with - | p
    · simp [enabled, hlatched] at hen
    · exact hpass (handleInt_passage hc hon hlatched (hsafe p hlatched))

end Steps

/-! ## What a step begins, seen from outside -/

section Seen

variable {M : Machine ι β} {k k' k'' : Kernel ι β} {h : ℕ} {op : Op ι β} {me : ι}

/-- A running thread with no kill to notice begins to wait, and for the others nothing changes. -/
structure Rests (me : ι) (k k' : Kernel ι β) : Prop where
  spared : Spared k me
  running : k.sched.status me = .running
  waits : Waits k'.sched me
  others : ∀ t, t ≠ me → k'.sched.status t = k.sched.status t
  hthread : k'.sched.hthread = k.sched.hthread
  threads : k'.threads = k.threads
  ipi : k'.hw.maskForIpi = k.hw.maskForIpi
  numCpus : k'.vms.numCpus = k.vms.numCpus
  freed : k'.vms.freed = k.vms.freed

omit dβ fι in
theorem Rests.sinks (hr : Rests me k k') (t : ι) : Sinks k k' t := by
  by_cases htm : t = me
  · subst htm
    refine .of_not_doomed ?_
    rintro (hdead | ⟨hflags, -⟩)
    · simp [hr.running] at hdead
    · exact hr.spared hflags
  · exact .of_fields (hr.others t htm) (by rw [hr.hthread]) (by rw [hr.threads])
      (by rw [hr.threads]) hr.ipi

theorem Rests.census (hr : Rests me k k') (hcensus : Census M k) : Census M k' := by
  refine hcensus.congr hr.numCpus fun t => ?_
  by_cases htm : t = me
  · rw [htm]
    simp [hr.running, hr.waits.2.2]
  · rw [hr.others t htm]

omit dι dβ fι in
/-- Raising comes before. -/
theorem Rests.of_same (hr : Rests me k' k'') (hst : k'.sched.status = k.sched.status)
    (hh : k'.sched.hthread = k.sched.hthread) (hthreads : k'.threads = k.threads)
    (hipi : k'.hw.maskForIpi = k.hw.maskForIpi) (hvms : k'.vms = k.vms) : Rests me k k'' where
  spared := by
    rw [Spared, ← hthreads]
    exact hr.spared
  running := by rw [← hst, hr.running]
  waits := hr.waits
  others t ht := by rw [hr.others t ht, hst]
  hthread := hr.hthread.trans hh
  threads := hr.threads.trans hthreads
  ipi := hr.ipi.trans hipi
  numCpus := by rw [hr.numCpus, hvms]
  freed := by rw [hr.freed, hvms]

theorem futexEnqueue_rests (hspared : Spared k me) (hrunning : k.sched.status me = .running)
    {pa : ℕ} (hadd : k.futexEnqueue pa me = some k') : Rests me k k' := by
  obtain ⟨s, hs, rfl⟩ := Option.map_eq_some_iff.mp hadd
  obtain ⟨R, rfl⟩ := futexHashAddRing_fields hs
  exact ⟨hspared, hrunning, by simp [Waits], fun t ht => by simp [ht], rfl, rfl, rfl, rfl, rfl⟩

/-- Whatever begins, it is one thread that waits, or one that is created, or neither. -/
theorem Begins.cases_threads (hc : Coherent M k) (hb : Begins M h op k k') : (∃ me, Rests me k k') ∨
    (∃ b t, op.creates M h k = some b ∧ k.sched.freeThreads b = some t ∧ Births M t k k') ∨
    (k'.sched.status = k.sched.status ∧ k'.sched.hthread = k.sched.hthread ∧
      k'.threads = k.threads ∧ k'.hw.maskForIpi = k.hw.maskForIpi ∧ k'.vms = k.vms) := by
  cases hb with
  | nothing => simp
  | futexWait val hme hspared ha hk' =>
    exact .inl ⟨_, futexEnqueue_rests hspared (hc.running hme).1 hk'⟩
  | @futexLockPi _ k₁ _ me _ _ _ hme hspared ha hk₁ hk' =>
    obtain ⟨R, p, rp, rv, pm, im, rfl⟩ := futexPiRaise_fields hk₁
    refine .inl ⟨me, (futexEnqueue_rests ?_ ?_ hk').of_same rfl rfl rfl rfl rfl⟩
    · exact hspared
    · exact (hc.running hme).1
  | @popup _ me _ hme hspared hlt hnull =>
    rw [Sched.writeHandler_eq hlt]
    exact .inl ⟨me, hspared, (hc.running hme).1, by simp [Waits],
      fun t ht => by simp [ht], rfl, rfl, rfl, rfl, rfl⟩
  | @intpool _ me hme hspared =>
    exact .inl ⟨me, hspared, (hc.running hme).1, by simp [Waits],
      fun t ht => by simp [ht], rfl, rfl, rfl, rfl, rfl⟩
  | @vmwait _ me hme hspared =>
    refine .inl ⟨me, hspared, (hc.running hme).1, by simp [Waits],
      fun t ht => by simp [ht], rfl, rfl, rfl, ?_, ?_⟩
    all_goals
      unfold setWaiting
      split <;> rfl
  | create hop hfree hk' => exact .inr (.inl ⟨_, _, hop, hfree, hk'⟩)
  | configure enable hlt hpopup =>
    rw [Sched.writeHandler_eq hlt]
    exact .inr (.inr ⟨rfl, rfl, rfl, rfl, rfl⟩)

theorem Passage.blocked_of {X : ι → Prop} (hk' : Passage M X k k') {t : ι}
    (ht : k'.sched.status t = .blocked) :
    k.sched.status t = .blocked ∧ k'.sched.futexPtr t = k.sched.futexPtr t := by
  refine ⟨?_, (hk'.blocked t ht).2⟩
  rcases hk'.waits t with hst | hst | hst | hst
  · exact hst.symm.trans ht
  all_goals simp [ht] at hst

theorem futexEnqueue_blocked {pa : ℕ} (hpa : pa < 0x400000000)
    (hadd : k.futexEnqueue pa me = some k') {t : ι} (ht : k'.sched.status t = .blocked) :
    (k.sched.status t = .blocked ∧ k'.sched.futexPtr t = k.sched.futexPtr t) ∨
      t = me ∧ k'.sched.futexPtr t = pa := by
  obtain ⟨s, hs, rfl⟩ := Option.map_eq_some_iff.mp hadd
  obtain ⟨R, rfl⟩ := futexHashAddRing_fields hs
  by_cases htm : t = me
  · exact .inr ⟨htm, by simp [htm, Nat.mod_eq_of_lt hpa]⟩
  · exact .inl ⟨by simpa [htm] using ht, by simp [htm]⟩

theorem Begins.blocked (hb : Begins M h op k k') {t : ι} (ht : k'.sched.status t = .blocked) :
    (k.sched.status t = .blocked ∧ k'.sched.futexPtr t = k.sched.futexPtr t) ∨
      k.hw.sgp h = some t ∧ op.blocksOn = some (k'.sched.futexPtr t) := by
  have hother {me : ι} {st : Status} {s : Sched ι β} (hst : st ≠ .blocked)
      (hstatus : s.status = update k.sched.status me st)
      (hptr : s.futexPtr = k.sched.futexPtr) (ht : s.status t = .blocked) :
      k.sched.status t = .blocked ∧ s.futexPtr t = k.sched.futexPtr t := by
    refine ⟨?_, by rw [hptr]⟩
    rw [hstatus, update_apply] at ht
    split at ht
    · exact absurd ht hst
    · exact ht
  cases hb with
  | nothing => exact .inl ⟨ht, rfl⟩
  | futexWait val hme hspared ha hk' =>
    have := safemem_lt ha
    rcases futexEnqueue_blocked (by omega) hk' ht with hold | ⟨rfl, hptr⟩
    · exact .inl hold
    · exact .inr ⟨hme, by simp [Op.blocksOn, ha, hptr]⟩
  | futexLockPi hme hspared ha hk₁ hk' =>
    have := safemem_lt ha
    obtain ⟨R, p, rp, rv, pm, im, rfl⟩ := futexPiRaise_fields hk₁
    rcases futexEnqueue_blocked (by omega) hk' ht with hold | ⟨rfl, hptr⟩
    · exact .inl hold
    · exact .inr ⟨hme, by simp [Op.blocksOn, ha, hptr]⟩
  | popup hme hspared hlt hnull =>
    rw [Sched.writeHandler_eq hlt] at ht ⊢
    exact .inl (hother (by simp) rfl rfl ht)
  | intpool hme hspared => exact .inl (hother (by simp) rfl rfl ht)
  | vmwait hme hspared => exact .inl (hother (by simp) rfl rfl ht)
  | @create _ _ _ _ u hop hfree hk' =>
    left
    by_cases htu : t = u
    · rw [htu, hk'.ready] at ht
      simp at ht
    · obtain ⟨hst, -, -, hptr, -⟩ := hk'.others t htu
      exact ⟨hst ▸ ht, hptr⟩
  | configure enable hlt hpopup =>
    rw [Sched.writeHandler_eq hlt] at ht ⊢
    exact .inl ⟨ht, rfl⟩

/-- **Who is blocked** after a step has been before, on the same address, or is the thread that made
the step. -/
theorem Moves.blocked (hm : Moves M h op k k') {t : ι} (ht : k'.sched.status t = .blocked) :
    (k.sched.status t = .blocked ∧ k'.sched.futexPtr t = k.sched.futexPtr t) ∨
      k.hw.sgp h = some t ∧ op.blocksOn = some (k'.sched.futexPtr t) := by
  obtain ⟨k₁, k₂, hk₁, -, hop, hb, hk'⟩ := hm.split
  obtain ⟨ht₂, hptr₂⟩ := hk'.blocked_of ht
  rw [hptr₂]
  rcases hb.blocked ht₂ with ⟨ht₁, hptr₁⟩ | ⟨hme, hblocks⟩
  · obtain ⟨hold, hptr⟩ := hk₁.blocked_of ht₁
    exact .inl ⟨hold, hptr₁.trans hptr⟩
  · rcases hop with rfl | rfl | rfl
    · exact .inr ⟨hme, hblocks⟩
    all_goals simp [Op.blocksOn] at hblocks

theorem Begins.census (hc : Coherent M k) (hb : Begins M h op k k') (hcensus : Census M k) :
    Census M k' := by
  rcases hb.cases_threads hc with ⟨me, hr⟩ | ⟨b, t, -, -, hk'⟩ | ⟨hst, -, -, -, hvms⟩
  · exact hr.census hcensus
  · exact hk'.census hcensus
  · exact hcensus.congr (by rw [hvms]) fun t => by rw [hst]

/-- The threads of a VM in which none is created sink. -/
theorem Begins.sinks (hc : Coherent M k) (hb : Begins M h op k k') {t : ι}
    (ht : op.creates M h k ≠ some (M.vmblock t)) : Sinks k k' t := by
  rcases hb.cases_threads hc with ⟨me, hr⟩ | ⟨b, u, hop, hfree, hk'⟩ | ⟨hst, hh, hthreads, hipi, -⟩
  · exact hr.sinks t
  · have htu : t ≠ u := by
      rintro rfl
      rw [(hc.placed.popFree hfree).2.1] at ht
      exact ht hop
    obtain ⟨hst, hh, -, -, hkill, hwork⟩ := hk'.others t htu
    exact .of_fields hst hh hkill hwork hk'.ipi
  · exact .of_fields (by rw [hst]) (by rw [hh]) (by rw [hthreads]) (by rw [hthreads]) hipi

/-- **Threads of a VM in which none is created sink**, at each step. -/
theorem Moves.sinks (hm : Moves M h op k k') {t : ι}
    (ht : op.creates M h k ≠ some (M.vmblock t)) : Sinks k k' t := by
  obtain ⟨k₁, k₂, hk₁, hc₁, hop, hb, hk'⟩ := hm.split
  have ht₁ : op.creates M h k₁ ≠ some (M.vmblock t) := by
    rcases hop with rfl | rfl | rfl
    · exact ht
    all_goals simp [Op.creates]
  exact ((hk₁.sinks t id).trans (hb.sinks hc₁ ht₁)).trans (hk'.sinks t id)

/-- **The count of threads is kept**, at each step. -/
theorem Moves.census (hm : Moves M h op k k') (hcensus : Census M k) : Census M k' := by
  obtain ⟨k₁, k₂, hk₁, hc₁, -, hb, hk'⟩ := hm.split
  exact hk'.census (hb.census hc₁ (hk₁.census hcensus))

theorem Begins.freed (hc : Coherent M k) (hb : Begins M h op k k') :
    k'.vms.freed = k.vms.freed := by
  rcases hb.cases_threads hc with ⟨me, hr⟩ | ⟨b, u, -, -, hk'⟩ | ⟨-, -, -, -, hvms⟩
  · exact hr.freed
  · exact hk'.freed
  · rw [hvms]

/-- **A VM block is freed when its last thread has stopped** and no parent is left, at each step. -/
theorem Moves.freed (hm : Moves M h op k k') (hcensus : Census M k) {b : β}
    (hb : M.maxCpus b < 0x100000000) (hfreed : k'.vms.freed b = true) :
    k.vms.freed b = true ∨ op.creates M h k = some b ∧
        (∀ t, M.vmblock t = b → k'.sched.status t = .dead) ∨ Deserts M b k k' := by
  obtain ⟨k₁, k₂, hk₁, hc₁, hop, hbegins, hk'⟩ := hm.split
  have hstays {t : ι} (hop : op.creates M h k₁ ≠ some (M.vmblock t))
      (hdead : k₁.sched.status t = .dead) : k₂.sched.status t = .dead := by
    rcases hbegins.sinks hc₁ hop (.inl hdead) with h | ⟨h, -⟩
    · exact h
    · exact absurd hdead h
  rcases hk'.freed (hbegins.census hc₁ (hk₁.census hcensus)) b hb hfreed with hfreed₂ | hd
  · rw [hbegins.freed hc₁] at hfreed₂
    rcases hop with rfl | hop
    · exact .inl hfreed₂
    · have hnone : op.creates M h k₁ = none := by
        rcases hop with rfl | rfl <;> rfl
      refine (hk₁.freed hcensus b hb hfreed₂).imp id fun hd => .inr ⟨hd.live, fun t ht => ?_,
        fun p hp => ?_⟩
      · exact hk'.dead t (hstays (by simp [hnone]) (hd.dead t ht))
      · exact hk'.dead p (hstays (by simp [hnone]) (hd.orphan p hp))
  · by_cases hcreates : op.creates M h k₁ = some b
    · have hkk : k₁ = k := by
        rcases hop with h | rfl | rfl
        · exact h
        all_goals simp [Op.creates] at hcreates
      exact .inr (.inl ⟨hkk ▸ hcreates, hd.dead⟩)
    · obtain ⟨t, rfl, hlive⟩ := hd.live
      exact .inr (.inr ⟨⟨t, rfl, fun hdead => hlive (hstays hcreates (hk₁.dead t hdead))⟩, hd.dead,
        hd.orphan⟩)

end Seen

/-! ## Booting -/

section Boot

variable {M : Machine ι β} {timerIntnum : ℕ} {mask : BitVec 32} {cluster : Cluster ι} {bootvm : β}
  {e : Exit} {k₀ : Kernel ι β}

/-- The kernel boots by switching to its only thread, which is counted. -/
theorem boot_passage (hmask : mask.getLsbD 0 = true)
    (hboot : boot M timerIntnum mask cluster bootvm = some (e, k₀)) :
    ∃ (boot : ι) (k : Kernel ι β), Passage M nobody k k₀ ∧ Census M k ∧ M.vmblock boot = bootvm ∧
      k.sched.status = update (fun _ => .dead) boot .running ∧
      k.vms.freed = fun _ => false := by
  obtain ⟨boot, k, heq, hc, -, -, hvm, hst, hnum, hfreed⟩ :=
    boot_enters M timerIntnum hmask cluster (maxCpus_pos_of_boot hboot)
  rw [heq] at hboot
  have hst' : (k.switchTo boot 0).sched.status = update (fun _ => .dead) boot .running := hst
  have hreset : Census M (reset M timerIntnum mask cluster) := by
    intro b
    simp [live, reset, Sched.reset, Sched.init]
  have hcensus : Census M (k.switchTo boot 0) := by
    refine hreset.insert (t := boot) rfl (fun u => ?_) ?_
    · rw [hst']
      by_cases hu : u = boot <;> simp [hu, reset, Sched.reset, Sched.init]
    · rw [hvm]
      exact hnum
  exact ⟨boot, k.switchTo boot 0, (switch_passage hc).of_some hboot, hcensus, hvm, hst', hfreed⟩

theorem census_boot (hmask : mask.getLsbD 0 = true)
    (hboot : boot M timerIntnum mask cluster bootvm = some (e, k₀)) : Census M k₀ := by
  obtain ⟨-, k, hk, hcensus, -⟩ := boot_passage hmask hboot
  exact hk.census hcensus

end Boot

end H2
