import H2.Kernel.Calm
import H2.Kernel.Coherence

/-!
# Kernel/Passage — what becomes of threads

From one state to the next a thread may be woken, switched to, sent back to its ready ring or
stopped, whatever operation it is that does so; only a few operations make a thread wait, create one
or touch the table of handlers in another way.  `Passage` is what all the others do.

What is kept of a thread that has been killed is in `Sinks`: it goes from running to ready to dead
and never back.  `Census` is the count of the threads of a VM.
-/

namespace H2

open Kernel Function Finset

variable {ι β : Type} [dι : DecidableEq ι] [dβ : DecidableEq β] [fι : Fintype ι]

/-! ## The killed and the counted -/

/-- A thread that is dead, or has been killed and will notice: when it is next switched to, or by
the interrupt that is on its way. -/
def Doomed (k : Kernel ι β) (t : ι) : Prop :=
  k.sched.status t = .dead ∨
    (k.threads.kill t = true ∧ k.threads.vmwork t = true) ∧
      (k.sched.status t = .ready ∨
        k.sched.status t = .running ∧ k.hw.maskForIpi.getLsbD (k.sched.hthread t) = true)

/-- A doomed thread dies, or becomes ready, or goes on running where it was. -/
def Sinks (k k' : Kernel ι β) (t : ι) : Prop :=
  Doomed k t → k'.sched.status t = .dead ∨
    k.sched.status t ≠ .dead ∧ Doomed k' t ∧ (k'.sched.status t = .ready ∨
      k.sched.status t = .running ∧ k'.sched.status t = .running ∧
        k'.sched.hthread t = k.sched.hthread t)

/-- The threads of a VM that are not dead. -/
def Kernel.live (M : Machine ι β) (k : Kernel ι β) (b : β) : Finset ι :=
  univ.filter fun t => M.vmblock t = b ∧ k.sched.status t ≠ .dead

/-- `num_cpus` is their number, as far as 32 bits go. -/
def Census (M : Machine ι β) (k : Kernel ι β) : Prop :=
  ∀ b, k.vms.numCpus b = (k.live M b).card % 0x100000000

section Basics

variable {M : Machine ι β} {k k' k'' : Kernel ι β} {t : ι}

omit dι

section

omit dβ fι

theorem Sinks.doomed (h : Sinks k k' t) (hd : Doomed k t) : Doomed k' t := by
  rcases h hd with hdead | ⟨-, hd', -⟩
  · exact .inl hdead
  · exact hd'

theorem Sinks.trans (h : Sinks k k' t) (h' : Sinks k' k'' t) : Sinks k k'' t := by
  intro hd
  rcases h' (h.doomed hd) with hdead | ⟨hlive', hd'', hst''⟩
  · exact .inl hdead
  rcases h hd with hdead | ⟨hlive, -, hst'⟩
  · exact absurd hdead hlive'
  refine .inr ⟨hlive, hd'', ?_⟩
  rcases hst'' with hready | ⟨hrun', hrun'', hh'⟩
  · exact .inl hready
  · rcases hst' with hready | ⟨hrun, -, hh⟩
    · simp [hready] at hrun'
    · exact .inr ⟨hrun, hrun'', hh'.trans hh⟩

theorem Sinks.of_fields (hst : k'.sched.status t = k.sched.status t)
    (hh : k'.sched.hthread t = k.sched.hthread t) (hkill : k'.threads.kill t = k.threads.kill t)
    (hwork : k'.threads.vmwork t = k.threads.vmwork t)
    (hipi : k'.hw.maskForIpi = k.hw.maskForIpi) : Sinks k k' t := by
  intro hd
  have hd' : Doomed k' t := by
    unfold Doomed
    rw [hst, hh, hkill, hwork, hipi]
    exact hd
  rcases hd with hdead | ⟨-, hready | ⟨hrun, -⟩⟩
  · exact .inl (hst.trans hdead)
  · exact .inr ⟨by simp [hready], hd', .inl (hst.trans hready)⟩
  · exact .inr ⟨by simp [hrun], hd', .inr ⟨hrun, hst.trans hrun, hh⟩⟩

/-- It is the killed that sink. -/
theorem Sinks.of_not_doomed (h : ¬Doomed k t) : Sinks k k' t := fun hd => absurd hd h

end

/-- Nobody is born, and nobody dies. -/
theorem Census.congr (hc : Census M k) (hnum : k'.vms.numCpus = k.vms.numCpus)
    (hdead : ∀ t, k'.sched.status t = .dead ↔ k.sched.status t = .dead) : Census M k' := by
  intro b
  rw [hnum, hc b]
  simp only [live, ne_eq, hdead]

theorem Machine.card_vmblock (M : Machine ι β) (b : β) :
    (univ.filter fun t => M.vmblock t = b).card = M.maxCpus b := by
  have hinj : Set.InjOn M.cpuidx (univ.filter fun t => M.vmblock t = b) := by
    intro t ht u hu heq
    have htb : M.vmblock t = b := by simpa using ht
    have hub : M.vmblock u = b := by simpa using hu
    have ht' : M.context b (M.cpuidx t) = some t := M.context_eq_some.mpr ⟨htb, rfl⟩
    have hu' : M.context b (M.cpuidx t) = some u := M.context_eq_some.mpr ⟨hub, heq.symm⟩
    exact Option.some.inj (ht'.symm.trans hu')
  have himage : (univ.filter fun t => M.vmblock t = b).image M.cpuidx = range (M.maxCpus b) := by
    ext i
    simp only [mem_image, mem_filter, mem_univ, true_and, mem_range]
    rw [← M.context_isSome, Option.isSome_iff_exists]
    simp only [M.context_eq_some]
  rw [← card_image_of_injOn hinj, himage, card_range]

theorem Census.numCpus_eq (hc : Census M k) {b : β} (hb : M.maxCpus b < 0x100000000) :
    k.vms.numCpus b = (k.live M b).card := by
  have hsub : k.live M b ⊆ univ.filter fun t => M.vmblock t = b := by
    intro t ht
    simp only [live, mem_filter] at ht ⊢
    exact ⟨ht.1, ht.2.1⟩
  have hle := (card_le_card hsub).trans (M.card_vmblock b).le
  rw [hc b, Nat.mod_eq_of_lt (by omega)]

theorem Census.dead_of_zero (hc : Census M k) {b : β} (hb : M.maxCpus b < 0x100000000)
    (hzero : k.vms.numCpus b = 0) (ht : M.vmblock t = b) : k.sched.status t = .dead := by
  rw [hc.numCpus_eq hb, card_eq_zero, live, filter_eq_empty_iff] at hzero
  by_contra hne
  exact hzero (mem_univ t) ⟨ht, hne⟩

end Basics

/-! ## Passage -/

abbrev nobody : ι → Prop := fun _ => False

/-- The last threads of a VM stop, and nobody is left to be told. -/
structure Deserts (M : Machine ι β) (b : β) (k k' : Kernel ι β) : Prop where
  live : ∃ t, M.vmblock t = b ∧ k.sched.status t ≠ .dead
  dead : ∀ t, M.vmblock t = b → k'.sched.status t = .dead
  orphan : ∀ p, M.idToContext (M.parent b) = some p → k'.sched.status p = .dead

/-- What an operation does to threads, those of `X` apart where it comes to being killed. -/
structure Passage (M : Machine ι β) (X : ι → Prop) (k k' : Kernel ι β) : Prop where
  /-- Nobody begins to wait, … -/
  waits : ∀ t, k'.sched.status t = k.sched.status t ∨ k'.sched.status t = .ready ∨
    k'.sched.status t = .running ∨ k'.sched.status t = .dead
  /-- … handlers are at most removed, … -/
  handlers : ∀ i, k'.sched.inthandlers i = k.sched.inthandlers i ∨ k'.sched.inthandlers i = .null
  /-- … threads at most leave the futex buckets, … -/
  queues : ∀ v, (k'.sched.queue (.futex v)).Sublist (k.sched.queue (.futex v))
  /-- … and those that stay have the priority and the address they had. -/
  blocked : ∀ t, k'.sched.status t = .blocked →
    k'.sched.prio t = k.sched.prio t ∧ k'.sched.futexPtr t = k.sched.futexPtr t
  sinks : ∀ t, ¬X t → Sinks k k' t
  /-- Nobody is born, … -/
  dead : ∀ t, k.sched.status t = .dead → k'.sched.status t = .dead
  census : Census M k → Census M k'
  /-- … and a VM block is freed when its last thread has stopped and no parent is left. -/
  freed : Census M k → ∀ b, M.maxCpus b < 0x100000000 → k'.vms.freed b = true →
    k.vms.freed b = true ∨ Deserts M b k k'

/-- The flags of a killed thread stay, and no VM is recounted. -/
structure Marks (X : ι → Prop) (k k' : Kernel ι β) : Prop where
  kill : ∀ t, ¬X t → k.threads.kill t = true → k'.threads.kill t = true
  vmwork : ∀ t, ¬X t → k.threads.kill t = true → k.threads.vmwork t = true →
    k'.threads.vmwork t = true
  ipi : ∀ t, ¬X t → k.sched.status t = .running →
    k.hw.maskForIpi.getLsbD (k.sched.hthread t) = true →
    k'.hw.maskForIpi.getLsbD (k.sched.hthread t) = true
  numCpus : k'.vms.numCpus = k.vms.numCpus
  freed : k'.vms.freed = k.vms.freed

section Rules

variable {M : Machine ι β} {X X' : ι → Prop} {k k' k'' : Kernel ι β}

omit dι dβ fι in
theorem Marks.of_eq (hkill : k'.threads.kill = k.threads.kill)
    (hvmwork : k'.threads.vmwork = k.threads.vmwork) (hipi : k'.hw.maskForIpi = k.hw.maskForIpi)
    (hnum : k'.vms.numCpus = k.vms.numCpus) (hfreed : k'.vms.freed = k.vms.freed) : Marks X k k' :=
  ⟨fun _ _ h => by rwa [hkill], fun _ _ _ h => by rwa [hvmwork], fun _ _ _ h => by rwa [hipi], hnum,
    hfreed⟩

namespace Passage

theorem refl (M : Machine ι β) (X : ι → Prop) (k : Kernel ι β) : Passage M X k k where
  waits _ := .inl rfl
  handlers _ := .inl rfl
  queues _ := List.Sublist.refl _
  blocked _ _ := ⟨rfl, rfl⟩
  sinks _ _ := .of_fields rfl rfl rfl rfl rfl
  dead _ := id
  census := id
  freed _ _ _ := .inl

theorem trans (h : Passage M X k k') (h' : Passage M X k' k'') : Passage M X k k'' where
  waits t := by
    rcases h'.waits t with hst | hst
    · rw [hst]
      exact h.waits t
    · exact .inr hst
  handlers i := by
    rcases h'.handlers i with hi | hi
    · rw [hi]
      exact h.handlers i
    · exact .inr hi
  queues v := (h'.queues v).trans (h.queues v)
  blocked t ht := by
    have ht' : k'.sched.status t = .blocked := by
      rcases h'.waits t with hst | hst | hst | hst
      · rw [← hst, ht]
      all_goals simp [ht] at hst
    obtain ⟨hp, hf⟩ := h.blocked t ht'
    obtain ⟨hp', hf'⟩ := h'.blocked t ht
    exact ⟨hp'.trans hp, hf'.trans hf⟩
  sinks t ht := (h.sinks t ht).trans (h'.sinks t ht)
  dead t ht := h'.dead t (h.dead t ht)
  census hc := h'.census (h.census hc)
  freed hc b hb hfreed := by
    rcases h'.freed (h.census hc) b hb hfreed with hfreed' | hd
    · exact (h.freed hc b hb hfreed').imp id fun hd =>
        ⟨hd.live, fun t ht => h'.dead t (hd.dead t ht), fun p hp => h'.dead p (hd.orphan p hp)⟩
    · obtain ⟨t, ht, hlive⟩ := hd.live
      exact .inr ⟨⟨t, ht, fun hdead => hlive (h.dead t hdead)⟩, hd.dead, hd.orphan⟩

theorem mono (h : Passage M X k k') (hX : ∀ t, X t → X' t) : Passage M X' k k' :=
  { h with sinks := fun t ht => h.sinks t fun hx => ht (hX t hx) }

/-- The exceptions sink after all. -/
theorem settle (h : Passage M X k k') (hX : ∀ t, X t → Sinks k k' t) : Passage M X' k k' := by
  refine { h with sinks := fun t _ => ?_ }
  by_cases hx : X t
  · exact hX t hx
  · exact h.sinks t hx

/-- A thread that was waiting is woken up, a thread that was running has been sent back to its ready
ring — or, among the exceptions, a thread has been switched to. -/
theorem of_status (hm : Marks X k k')
    (hst : ∀ t, (k'.sched.status t = k.sched.status t ∧ k'.sched.hthread t = k.sched.hthread t) ∨
      (k.sched.status t ≠ .dead ∧ k'.sched.status t = .ready) ∨
      (X t ∧ k.sched.status t ≠ .dead ∧ k'.sched.status t = .running))
    (hhandlers : ∀ i, k'.sched.inthandlers i = k.sched.inthandlers i ∨
      k'.sched.inthandlers i = .null)
    (hqueues : ∀ v, (k'.sched.queue (.futex v)).Sublist (k.sched.queue (.futex v)))
    (hblocked : ∀ t, k'.sched.status t = .blocked →
      k'.sched.prio t = k.sched.prio t ∧ k'.sched.futexPtr t = k.sched.futexPtr t) :
    Passage M X k k' where
  waits t := by
    rcases hst t with ⟨h, -⟩ | ⟨-, h⟩ | ⟨-, -, h⟩
    · exact .inl h
    · exact .inr (.inl h)
    · exact .inr (.inr (.inl h))
  handlers := hhandlers
  queues := hqueues
  blocked := hblocked
  sinks t ht hd := by
    rcases hd with hdead | ⟨⟨hkill, hvmwork⟩, hcases⟩
    · left
      rcases hst t with ⟨h, -⟩ | ⟨h, -⟩ | ⟨h, -⟩
      · rw [h, hdead]
      · exact absurd hdead h
      · exact absurd h ht
    · have hflags := And.intro (hm.kill t ht hkill) (hm.vmwork t ht hkill hvmwork)
      have hlive : k.sched.status t ≠ .dead := by
        rcases hcases with h | ⟨h, -⟩ <;> simp [h]
      rcases hst t with ⟨h, hh⟩ | ⟨-, h⟩ | ⟨h, -⟩
      · rcases hcases with hready | ⟨hrun, hipi⟩
        · have hready' : k'.sched.status t = .ready := h.trans hready
          exact .inr ⟨hlive, .inr ⟨hflags, .inl hready'⟩, .inl hready'⟩
        · have hrun' : k'.sched.status t = .running := h.trans hrun
          have hipi' := hm.ipi t ht hrun hipi
          rw [← hh] at hipi'
          exact .inr ⟨hlive, .inr ⟨hflags, .inr ⟨hrun', hipi'⟩⟩, .inr ⟨hrun, hrun', hh⟩⟩
      · exact .inr ⟨hlive, .inr ⟨hflags, .inl h⟩, .inl h⟩
      · exact absurd h ht
  census hc := by
    refine hc.congr hm.numCpus fun t => ?_
    rcases hst t with ⟨h, -⟩ | ⟨hlive, h⟩ | ⟨-, hlive, h⟩
    · rw [h]
    all_goals simp [h, hlive]
  dead t hdead := by
    rcases hst t with ⟨h, -⟩ | ⟨hlive, -⟩ | ⟨-, hlive, -⟩
    · rw [h, hdead]
    all_goals exact absurd hdead hlive
  freed _ b _ hf := .inl (hm.freed ▸ hf)

theorem of_flags (hm : Marks X k k') (hsched : k'.sched = k.sched) : Passage M X k k' :=
  of_status hm (fun t => .inl ⟨by rw [hsched], by rw [hsched]⟩) (fun i => .inl (by rw [hsched]))
    (fun v => by rw [hsched]) fun t _ => ⟨by rw [hsched], by rw [hsched]⟩

end Passage

end Rules

/-! ## Waking up -/

section Waking

variable {M : Machine ι β} {k : Kernel ι β} {t : ι}

/-- A thread taken out of where it waited, and made ready. -/
theorem passage_readyAppend {X : ι → Prop} {k' : Kernel ι β} {s : Sched ι β} (hm : Marks X k k')
    (hs : InHand M s t) (hsched : k'.sched = s.readyAppend t) (ha : AgreeOff t k.sched s)
    (hlive : k.sched.status t ≠ .dead)
    (hhandlers : ∀ i, s.inthandlers i = k.sched.inthandlers i ∨ s.inthandlers i = .null)
    (hqueues : ∀ v, (s.queue (.futex v)).Sublist (k.sched.queue (.futex v))) :
    Passage M X k k' := by
  refine .of_status hm (fun u => ?_) (fun i => by rw [hsched]; exact hhandlers i) (fun v => ?_)
    fun u hu => ?_
  · by_cases hut : u = t
    · exact .inr (.inl ⟨hut ▸ hlive, by rw [hsched, hut]; simp⟩)
    · refine .inl ⟨?_, ?_⟩ <;> rw [hsched]
      · simp [hut, ha.status u hut]
      · exact ha.hthread u hut
  · rw [hsched, hs.queue_readyAppend]
    exact hqueues v
  · rw [hsched] at hu ⊢
    by_cases hut : u = t
    · simp [hut] at hu
    · exact ⟨ha.prio u hut, ha.futexPtr u hut⟩

/-- The waits that end by being cancelled. -/
theorem queues_futexCancel (hs : Placed M k.sched) (ht : k.sched.status t = .blocked) (v : ℕ) :
    ((k.sched.futexCancel t).queue (.futex v)).Sublist (k.sched.queue (.futex v)) := by
  have hqueue := hs.queue_remove (place_eq_futex.mpr ⟨ht, rfl⟩)
  have hcongr : (k.sched.futexCancel t).queue = _ := hqueue
  rw [hcongr]
  by_cases hv : v = futexHashval (k.sched.futexPtr t)
  · rw [hv, update_self]
    exact List.erase_sublist
  · rw [update_of_ne (by simpa using hv)]

omit dι dβ fι in
theorem checkSanity_maskForIpi (k : Kernel ι β) :
    k.checkSanity.hw.maskForIpi = k.hw.maskForIpi := by
  rw [checkSanity, Hw.checkSanity_eq k.sched k.hw]

theorem checkSanity_passage (k : Kernel ι β) : Passage M nobody k k.checkSanity :=
  .of_flags (.of_eq rfl rfl (checkSanity_maskForIpi k) rfl rfl) rfl

omit dβ fι in
theorem popupCancel_handlers (s : Sched ι β) (t : ι) (i : ℕ) :
    (s.popupCancel t).inthandlers i = s.inthandlers i ∨
      (s.popupCancel t).inthandlers i = .null := by
  unfold Sched.popupCancel Sched.writeHandler
  split
  · simp only [Sched.setR00]
    by_cases hi : i = s.r00 t
    · exact .inr (by simp [hi])
    · exact .inl (by simp [hi])
  · exact .inl rfl

omit fι dι dβ in
theorem vmIpiSendWithlock_marks (X : ι → Prop) (k : Kernel ι β) :
    Marks X k (k.vmIpiSendWithlock t) := by
  obtain ⟨m, hm⟩ := vmIpiSendWithlock_eq t k
  rw [hm]
  refine ⟨fun _ _ => id, fun _ _ _ => id, fun u _ _ hipi => ?_, rfl, rfl⟩
  rw [BitVec.getLsbD_or, hipi, Bool.true_or]

/-- **A wait cut short.** -/
theorem Rouses.passage {s : Sched ι β} {v : Vms β} (hr : Rouses M t k s v) (hs : Placed M k.sched)
    (hpool : ¬PoolBlocked k.sched t) {X : ι → Prop} {k' : Kernel ι β} (hm : Marks X k k')
    (hsched : k'.sched = s.readyAppend t) : Passage M X k k' := by
  obtain ⟨hhand, ha⟩ := hr.inHand hs hpool
  refine passage_readyAppend hm hhand hsched ha hr.waits.2.2 (fun i => ?_) fun w => ?_
  · cases hr with
    | vmwait | futex => exact .inl rfl
    | popup => exact popupCancel_handlers k.sched t i
  · cases hr with
    | vmwait => exact List.Sublist.refl _
    | popup =>
      obtain ⟨handlers, oob, hw⟩ := writeHandler_sched k.sched (k.sched.r00 t) .null
      rw [Sched.popupCancel, hw]
      exact List.Sublist.refl _
    | futex hst => exact queues_futexCancel hs hst w

theorem vmIntDeliverLocked_passage (hs : Placed M k.sched) (hd : Deliverable k t) (intno : ℕ) :
    Passage M nobody k (k.vmIntDeliverLocked M t intno).2 := by
  rcases vmIntDeliverLocked_cases M t intno k with ⟨-, heq | heq⟩ | ⟨s, v, hr, hie, heq⟩ <;>
    rw [heq]
  · exact .refl M nobody k
  · exact .of_flags (vmIpiSendWithlock_marks _ k) (vmIpiSendWithlock_stirs t k).2.1
  · obtain ⟨-, w, rfl⟩ := hr.fields
    refine Passage.trans ?_ (checkSanity_passage _)
    exact hr.passage hs (hd.not_poolBlocked hie) (.of_eq rfl rfl rfl rfl rfl) rfl

theorem vmCpuintPostLocked_passage (hs : Placed M k.sched) (hd : Deliverable k t) (intno : ℕ) :
    Passage M nobody k (k.vmCpuintPostLocked M t intno) := by
  have hpend : Passage M nobody k (k.cpuintSetPending t intno) := by
    refine .of_flags ⟨fun _ _ => id, fun u _ _ hwork => ?_, fun _ _ _ => id, rfl, rfl⟩ rfl
    by_cases hut : u = t <;> simp [cpuintSetPending, hut, hwork]
  unfold vmCpuintPostLocked
  simp only
  split
  · exact hpend.trans (vmIntDeliverLocked_passage (k := k.cpuintSetPending t intno) hs hd intno)
  · exact hpend

end Waking

/-! ## Switching -/

section Switching

variable {M : Machine ι β} {k : Kernel ι β} {h : ℕ} {me : ι}

theorem live_erase {k' : Kernel ι β}
    (hdead : ∀ t, k'.sched.status t = .dead ↔ t = me ∨ k.sched.status t = .dead) (b : β) :
    k'.live M b = (k.live M b).erase me := by
  ext t
  simp only [live, mem_filter, mem_erase, ne_eq, hdead]
  tauto

/-- **Retiring**: the thread dies, and is no longer counted. -/
theorem retire_passage (hc : Coherent M k) (hme : k.hw.sgp h = some me) (status : ℤ) :
    Passage M nobody k (k.retire M status me) := by
  have hrunning := (hc.running hme).1
  have ha : AgreeOff me k.sched (k.retire M status me).sched := agreeOff_stop k.sched (M.vmblock me)
  have hdead (t : ι) : (k.retire M status me).sched.status t = .dead ↔
      t = me ∨ k.sched.status t = .dead := by
    by_cases htm : t = me
    · simp [htm]
    · simp [htm, ha.status t htm]
  refine ⟨fun t => ?_, fun _ => .inl rfl, fun v => ?_, fun t ht => ?_, fun t _ => ?_,
    fun t ht => (hdead t).mpr (.inr ht), fun hcensus b => ?_, fun _ _ _ => .inl⟩
  · by_cases htm : t = me
    · exact .inr (.inr (.inr ((hdead t).mpr (.inl htm))))
    · exact .inl (ha.status t htm)
  · have hqueue : (k.retire M status me).sched.queue = (k.sched.runlistRemove me).queue := by
      refine (hc.placed.runlistRemove hrunning).queue_freeLinks rfl (fun x hx => ?_) fun x hx => ?_
      all_goals simp [retire, clearThread, Sched.freePush, Sched.contextClear, hx]
    rw [hqueue]
    exact List.Sublist.refl _
  · have htm : t ≠ me := by
      rintro rfl
      simp at ht
    exact ⟨ha.prio t htm, ha.futexPtr t htm⟩
  · by_cases htm : t = me
    · exact fun _ => .inl ((hdead t).mpr (.inl htm))
    · exact .of_fields (ha.status t htm) (ha.hthread t htm) (by simp [retire, clearThread, htm])
        (by simp [retire, clearThread, htm]) rfl
  · rw [live_erase hdead b]
    simp only [retire]
    by_cases hb : b = M.vmblock me
    · have hmem : me ∈ k.live M b := by simp [live, hb, hrunning]
      have hpos := card_pos.mpr ⟨me, hmem⟩
      rw [hb, update_self, ← hb, card_erase_of_mem hmem]
      simp only [clearThread, hcensus b]
      omega
    · have hmem : me ∉ k.live M b := by simp [live, Ne.symm hb]
      rw [update_of_ne hb, erase_eq_of_notMem hmem]
      exact hcensus b

theorem stop_passage (hc : Coherent M k) (hme : k.hw.sgp h = some me) (status : ℤ) :
    Passage M nobody k (k.stop M status me) ∧ (k.stop M status me).sched.status me = .dead := by
  obtain ⟨hb, -, -⟩ := retire_leaves hc hme status
  have hretire := retire_passage hc hme status
  refine ⟨?_, ?_⟩
  · rcases signalParent_cases M (M.vmblock me) status (k.retire M status me) with
      heq | ⟨p, hp, heq⟩ | ⟨hzero, horphan, heq⟩
    · rw [stop, heq]
      exact hretire
    · rw [stop, heq]
      exact hretire.trans (vmCpuintPostLocked_passage hb.placed (hb.parents _ p hp) vmChildint)
    · rw [stop, heq]
      refine { hretire with census := hretire.census, freed := fun hcensus b hlt hf => ?_ }
      by_cases hbm : b = M.vmblock me
      · subst hbm
        exact .inr ⟨⟨me, rfl, by simp [(hc.running hme).1]⟩,
          fun t ht => (hretire.census hcensus).dead_of_zero hlt hzero ht, horphan⟩
      · exact (hretire.freed hcensus b hlt (by simpa [hbm] using hf)).imp id fun hd =>
          ⟨hd.live, hd.dead, hd.orphan⟩
  · have hwakes := (signalParent_stirs hb.placed hb.parents (M.vmblock me) status).1.wakes
    exact (hwakes.dead_iff me).mpr (retire_status_self status)

omit dι dβ fι in
/-- Work leaves the flags of the killed alone; the thread itself has not been killed. -/
theorem Works.marks {k' : Kernel ι β} (hw : Works me k k') (X : ι → Prop)
    (hkill : k.threads.kill me = false) : Marks X k k' := by
  have hhw := hw.hw
  refine ⟨fun t _ => by rw [hw.kill]; exact id, fun t _ hkt hwork => ?_,
    fun t _ _ => by rw [hhw]; exact id, by rw [hw.vms], by rw [hw.vms]⟩
  rw [hw.vmwork t (by rintro rfl; simp [hkill] at hkt), hwork]

theorem Works.passage {k' : Kernel ι β} (hw : Works me k k') (hkill : k.threads.kill me = false) :
    Passage M nobody k k' := .of_flags (hw.marks nobody hkill) hw.sched

theorem work_passage (hkill : k.threads.kill me = false) :
    Does (Passage M nobody k) (match k.vmWork M me with
      | (.hung, k) => some (.hung, k)
      | (_, k) => some (.switched, k.checkSanity)) := by
  refine work_elim M me k (fun k' hw _ => ?_) fun k' hw => ?_
  · exact .some (hw.passage hkill)
  · exact .some ((hw.passage hkill).trans (checkSanity_passage k'))

/-- **`H2K_dosched`**: a killed thread that is switched to dies, and any other runs. -/
theorem doschedLoop_passage : ∀ (fuel : ℕ) {k : Kernel ι β}, Between M h k →
    Does (Passage M nobody k) (k.doschedLoop M h fuel)
  | 0, _, _ => .none
  | fuel + 1, k, hb => by
      obtain ⟨r, k₁, hget, hbest⟩ := readyGetbest_spec (h := h) hb.placed
      rw [doschedLoop, hget, Option.bind_eq_bind, Option.bind_some]
      cases hbest with
      | @sleep c hc hready =>
        have hipi : k.hw.raiseLowprio.maskForIpi = k.hw.maskForIpi := by rw [Hw.raiseLowprio_eq]
        exact .some (.of_flags (.of_eq rfl rfl hipi rfl rfl) rfl)
      | @best c new hc hnew =>
        simp only
        set k₂ := (({ k with cluster := c, sched := k.sched.readyRemove new } :
          Kernel ι β).dispatch new h).switchTo new h with hk₂
        obtain ⟨hc₂, -, -, hsgp, hipi⟩ := hb.dispatch hc hnew hk₂
        have henter : Passage M (· = new) k k₂ := by
          refine .of_status (.of_eq rfl rfl hipi rfl rfl) (fun t => ?_) (fun _ => .inl rfl)
            (fun v => ?_)
            fun t ht => ?_
          · by_cases htn : t = new
            · refine .inr (.inr ⟨htn, by simp [htn, hnew], ?_⟩)
              simp [hk₂, switchTo, dispatch, htn]
            · exact .inl ⟨by simp [hk₂, switchTo, dispatch, htn],
                by simp [hk₂, switchTo, dispatch, htn]⟩
          · have hqueue : k₂.sched.queue = (k.sched.readyRemove new).queue := queue_congr rfl
            rw [hqueue, hb.placed.queue_readyRemove hnew, update_of_ne (by simp)]
          · exact ⟨rfl, rfl⟩
        split
        · obtain ⟨hstop, hdead⟩ := stop_passage hc₂ hsgp (k₂.vms.status (M.vmblock new))
          have hb' := (stop_between hc₂ hsgp (k₂.vms.status (M.vmblock new))).1
          have hk : Passage M nobody k (k₂.stop M (k₂.vms.status (M.vmblock new)) new) := by
            refine (henter.trans (hstop.mono (by simp))).settle fun t ht => ?_
            rw [ht]
            exact fun _ => .inl hdead
          exact (doschedLoop_passage fuel hb').mono fun _ => hk.trans
        · next hkill =>
          have hkill : k₂.threads.kill new = false := by simpa using hkill
          refine (work_passage hkill).mono fun k' hk' => ?_
          refine (henter.settle fun t ht => .of_not_doomed ?_).trans hk'
          rw [ht]
          rintro (hdead | ⟨⟨hk, -⟩, -⟩)
          · simp [hnew] at hdead
          · rw [← Bool.not_eq_true] at hkill
            exact hkill hk

theorem dosched_passage (hb : Between M h k) : Does (Passage M nobody k) (k.dosched M h) :=
  doschedLoop_passage _ hb

theorem threadStopWithlock_passage (hc : Coherent M k) (hme : k.hw.sgp h = some me) (status : ℤ) :
    Does (fun k' => Passage M nobody k k' ∧ k'.sched.status me = .dead)
      (k.threadStopWithlock M status me h) := by
  obtain ⟨hstop, hdead⟩ := stop_passage hc hme status
  refine (dosched_passage (stop_between hc hme status).1).mono fun k' hk' => ⟨hstop.trans hk', ?_⟩
  rcases hk'.sinks me id (.inl hdead) with h | ⟨h, -⟩
  · exact h
  · exact absurd hdead h

/-- **Doing the work**: a killed thread dies. -/
theorem vmDoWorkWithlock_passage (hc : Coherent M k) (hme : k.hw.sgp h = some me) :
    Does (fun k' => Passage M nobody k k' ∧
      (k.threads.kill me = true → k'.sched.status me = .dead)) (k.vmDoWorkWithlock M me h) := by
  unfold vmDoWorkWithlock
  split
  · exact (threadStopWithlock_passage hc hme _).mono fun k' hk' => ⟨hk'.1, fun _ => hk'.2⟩
  · next hkill =>
    exact .some ⟨(vmWork_works M me k).1.passage (by simpa using hkill), fun h => absurd h hkill⟩

theorem switch_passage {new : ι} (hc : Coherent M (k.switchTo new h)) :
    Does (Passage M nobody (k.switchTo new h)) (k.switch M new h) := by
  unfold switch
  simp only
  split
  · exact (threadStopWithlock_passage hc (update_self ..) _).mono fun _ hk' => hk'.1
  · next hkill => exact work_passage (by simpa using hkill)

/-- A thread gives up its hardware thread, and is ready again. -/
theorem passage_ready (hc : Coherent M k) (hme : k.hw.sgp h = some me) :
    Passage M nobody k { k with sched := (k.sched.runlistRemove me).readyAppend me } := by
  have hrunning := (hc.running hme).1
  exact passage_readyAppend (.of_eq rfl rfl rfl rfl rfl)
    (hc.placed.runlistRemove hrunning) rfl { AgreeOff.refl me k.sched with } (by simp [hrunning])
    (fun _ => .inl rfl) fun _ => List.Sublist.refl _

theorem makeWay_passage (hc : Coherent M k) : Passage M nobody k (k.makeWay h) := by
  unfold makeWay
  split
  · next me hme => exact passage_ready hc hme
  · exact .of_flags (.of_eq rfl rfl rfl rfl rfl) rfl

end Switching

/-! ## Operations that make nobody wait -/

section Operations

variable {M : Machine ι β} {k : Kernel ι β} {h : ℕ} {me : ι}

theorem schedYield_passage (hc : Coherent M k) (hme : k.hw.sgp h = some me) :
    Does (Passage M nobody k) (k.schedYield M me) := by
  unfold schedYield
  split
  · rw [(hc.running hme).2]
    exact (dosched_passage (schedYield_leaves hc hme).between).mono fun _ =>
      (passage_ready hc hme).trans
  · exact .some (.refl M nobody k)

/-- Waiters that are made ready leave their bucket. -/
theorem Woken.passage {s : Sched ι β} {v : ℕ} {W : List ι} (hw : Woken M v W k.sched s)
    (hs : Placed M k.sched) : Passage M nobody k { k with sched := s } := by
  obtain ⟨R, st, valids, hfields⟩ := hw.fields
  have hprio : s.prio = k.sched.prio := by rw [hfields]
  have hptr : s.futexPtr = k.sched.futexPtr := by rw [hfields]
  refine .of_status (.of_eq rfl rfl rfl rfl rfl) (fun t => ?_) (fun i => .inl (by rw [hfields]))
    (fun v' => ?_) fun t _ => ⟨by rw [hprio], by rw [hptr]⟩
  · by_cases ht : t ∈ W
    · have hblocked := (hs.mem_bucket.mp (hw.mem t ht)).1
      exact .inr (.inl ⟨by simp [hblocked], by simp [hw.status, ht]⟩)
    · exact .inl ⟨by simp [hw.status, ht], by rw [hfields]⟩
  · simp only
    by_cases hv : v' = v
    · rw [hv, hw.bucket]
      exact List.filter_sublist
    · rw [hw.others _ (by simpa using hv) (by simp)]

theorem futexResume_passage (hc : Coherent M k) (pa : Option ℕ) (nToWake : ℕ) :
    Does (Passage M nobody k) (k.futexResume pa nToWake) := by
  rcases pa with - | a
  · unfold futexResume
    split <;> exact .some (.refl M nobody k)
  obtain ⟨s, hwoken, heq | ⟨-, heq⟩⟩ := futexResume_eq hc.placed a nToWake
  · rw [heq]
    exact .some ((hwoken.passage hc.placed).trans (checkSanity_passage _))
  · rw [heq]
    exact .some (.refl M nobody k)

omit dβ fι in
theorem runlistSetThreadPrio_rings (s : Sched ι β) (t : ι) (v : ℕ) :
    (s.runlistSetThreadPrio t v).rings = s.rings := rfl

theorem passage_runlistSetThreadPrio {t : ι} (ht : k.sched.status t = .running) (v : ℕ) :
    Passage M nobody k { k with sched := k.sched.runlistSetThreadPrio t v } := by
  refine .of_status (.of_eq rfl rfl rfl rfl rfl) (fun _ => .inl ⟨rfl, rfl⟩) (fun _ => .inl rfl)
    (fun v => by rw [queue_congr (runlistSetThreadPrio_rings ..)]) fun u hu => ⟨?_, rfl⟩
  have hut : u ≠ t := by
    rintro rfl
    simp [ht] at hu
  simp [hut]

theorem futexUnlockPi_passage (hc : Coherent M k) (hme : k.hw.sgp h = some me) (pa : Option ℕ) :
    Does (Passage M nobody k) (k.futexUnlockPi pa me) := by
  unfold futexUnlockPi
  split
  · exact .some (.refl M nobody k)
  next a =>
  simp only
  obtain ⟨pos, s, hremove, hwoken⟩ :=
    hc.placed.futexHashRemoveOne_head (a / 4 % 0x100000000) (futexHashval (a / 4))
  have hrunning : s.status me = .running :=
    ((hwoken.wakes hc.placed).running_iff me).mpr (hc.running hme).1
  rw [hremove]
  exact .some (((hwoken.passage hc.placed).trans (passage_runlistSetThreadPrio hrunning _)).trans
    (checkSanity_passage _))

/-- **Killing** a thread dooms it, and wakes it up. -/
theorem killThreadLocked_passage (hs : Placed M k.sched) {target : ι}
    (hpool : ¬PoolBlocked k.sched target) : Passage M nobody k (k.killThreadLocked M target) := by
  have hmarks {k' : Kernel ι β} (hthreads : k'.threads = (k.marked target).threads)
      (hhw : k'.hw = k.hw) (hnum : k'.vms.numCpus = k.vms.numCpus)
      (hfreed : k'.vms.freed = k.vms.freed) : Marks nobody k k' := by
    refine ⟨fun t _ hk => ?_, fun t _ _ hw => ?_, fun _ _ _ => by rw [hhw]; exact id, hnum, hfreed⟩
    · by_cases ht : t = target <;> simp [hthreads, marked, ht, hk]
    · by_cases ht : t = target <;> simp [hthreads, marked, ht, hw]
  have hmarked : Passage M nobody k (k.marked target) := .of_flags (hmarks rfl rfl rfl rfl) rfl
  rcases killThreadLocked_cases M target k with ⟨-, heq⟩ | ⟨-, heq⟩ | ⟨-, heq⟩ | ⟨s, v, hr, heq⟩ <;>
    rw [heq]
  · exact .refl M nobody k
  · exact hmarked.trans (.of_flags (vmIpiSendWithlock_marks nobody _)
      (vmIpiSendWithlock_stirs target _).2.1)
  · exact hmarked
  · obtain ⟨-, w, rfl⟩ := hr.fields
    exact hr.passage hs hpool (hmarks rfl rfl rfl rfl) rfl

theorem foldl_kill_passage : ∀ (ts : List ι) {k : Kernel ι β}, Placed M k.sched →
    (∀ t ∈ ts, ¬PoolBlocked k.sched t) →
    Passage M nobody k (ts.foldl (fun k t => k.killThreadLocked M t) k)
  | [], k, _, _ => .refl M nobody k
  | t :: ts, k, hs, hpool => by
      have hkill := killThreadLocked_kills (T := fun _ => True) hs trivial
        (hpool t List.mem_cons_self)
      exact (killThreadLocked_passage hs (hpool t List.mem_cons_self)).trans
        (foldl_kill_passage ts hkill.placed fun u hu hp =>
          hpool u (List.mem_cons_of_mem t hu) (hkill.stirs.poolBlocked hp))

theorem vmopKillThread_passage (hc : Coherent M k) {id : ℕ}
    (hpool : ∀ t, KillThreadTarget M id t → ¬PoolBlocked k.sched t) :
    Does (Passage M nobody k) (k.vmopKillThread M id me) := by
  rcases vmopKillThread_cases M me k id with ⟨r, heq⟩ | ⟨t, ht, -, heq⟩ <;> rw [heq]
  · exact .some (.refl M nobody k)
  · exact .some (killThreadLocked_passage hc.placed (hpool t ht))

theorem vmopKillVm_passage (hc : Coherent M k) {vm : ℕ}
    (hpool : ∀ t, KillVmTarget M vm me t → ¬PoolBlocked k.sched t) (status : ℤ) :
    Does (Passage M nobody k) (k.vmopKillVm M vm status me) := by
  rcases vmopKillVm_cases M me k vm status with ⟨r, -, heq⟩ | ⟨b, hb, -, heq⟩ <;> rw [heq]
  · exact .some (.refl M nobody k)
  · have hstamped : Passage M nobody k (k.stamped b status) :=
      .of_flags (.of_eq rfl rfl rfl rfl rfl) rfl
    exact .some (hstamped.trans (foldl_kill_passage _ hc.placed fun t ht =>
      hpool t ((hb _).mpr (M.mem_contexts.mp ht))))

theorem vmtrapSetie_passage (hc : Coherent M k) (hme : k.hw.sgp h = some me) (enable : Bool) :
    Does (Passage M nobody k) (k.vmtrapSetie M enable me h) := by
  unfold vmtrapSetie
  split
  · unfold enableGuestInterrupts
    split
    · exact .some (.refl M nobody k)
    have hie := setIe_after hc hme true
    obtain ⟨hw, hhw, hvmwork⟩ := vmCheckInterrupts_works M me (k.setIe me true)
    rcases hcheck : (k.setIe me true).vmCheckInterrupts M me with ⟨r, k'⟩
    rw [hcheck] at hw hhw hvmwork
    have hk' : Passage M nobody k k' := .of_flags
      (.of_eq hw.kill hvmwork (by rw [hhw]; rfl) (by rw [hw.vms]; rfl) (by rw [hw.vms]; rfl))
        hw.sched
    have hc' : Coherent M k' := hw.stirs.coherent hie.coherent (hw.sched ▸ hie.coherent.placed)
    cases r with
    | some intno => exact .some hk'
    | none =>
      have hme' : k'.hw.sgp h = some me := by
        rw [hhw]
        exact hme
      exact (threadStopWithlock_passage hc' hme' _).mono fun k'' hk'' => hk'.trans hk''.1
  · exact .some (.of_flags (.of_eq rfl rfl rfl rfl rfl) rfl)

theorem vmCpuintEnable_passage (intno : ℕ) : Passage M nobody k (k.vmCpuintEnable me intno) := by
  unfold vmCpuintEnable
  split
  · exact .refl M nobody k
  · refine .of_flags ⟨fun _ _ => id, fun t _ _ hw => ?_, fun _ _ _ => id, rfl, rfl⟩ rfl
    by_cases htm : t = me
    · simp [htm, htm ▸ hw]
    · simp [htm, hw]

/-! ### Interrupts of the kernel's own -/

/-- **The IPI** is acknowledged, and a killed thread dies of it. -/
theorem vmIpiDo_passage (hc : Coherent M k) : Does (fun k' => Passage M nobody k k' ∧
    ∀ me, k.hw.sgp h = some me → k.threads.kill me = true → k'.sched.status me = .dead)
    (k.vmIpiDo M h) := by
  unfold vmIpiDo
  set k₁ : Kernel ι β :=
    { k with hw := { k.hw with maskForIpi := k.hw.maskForIpi &&& ~~~(1#32 <<< h) } }
  have hc₁ : Coherent M k₁ := ⟨hc.placed, hc.executes, hc.started, hc.parents⟩
  have hk₁ : Passage M (fun t => k.hw.sgp h = some t) k k₁ := by
    refine .of_flags ⟨fun _ _ => id, fun _ _ _ => id, fun t ht hrun hipi => ?_, rfl, rfl⟩ rfl
    have hh : k.sched.hthread t ≠ h := by
      rintro rfl
      exact ht ((hc.executes _).trans (hc.placed.runlist_iff.mpr ⟨hrun, rfl⟩))
    exact (getLsbD_clearBit _ hh).trans hipi
  simp only
  split
  · next me hme =>
    refine Does.map ((vmDoWorkWithlock_passage hc₁ hme).mono fun k' hk' => ⟨?_, ?_⟩) _
    · refine (hk₁.trans (hk'.1.mono (by simp))).settle fun t ht hd => ?_
      obtain rfl : t = me := Option.some.inj (ht.symm.trans hme)
      have hrunning := (hc.running hme).1
      rcases hd with hdead | ⟨⟨hkill, -⟩, -⟩
      · simp [hrunning] at hdead
      · exact .inl (hk'.2 hkill)
    · intro me' hme' hkill
      obtain rfl : me' = me := Option.some.inj (hme'.symm.trans hme)
      exact hk'.2 hkill
  · next hnone =>
    have hnone : k.hw.sgp h = none := hnone
    refine .some ⟨hk₁.settle fun t ht => ?_, fun me hme => ?_⟩
    · simp [hnone] at ht
    · simp [hnone] at hme

theorem foldl_post_passage : ∀ (expired : List ι) {k : Kernel ι β}, Placed M k.sched →
    (∀ t ∈ expired, Deliverable k t) →
    Passage M nobody k (expired.foldl (fun k t => k.vmCpuintPostLocked M t timeGuestint) k)
  | [], k, _, _ => .refl M nobody k
  | t :: expired, k, hs, hd => by
      have hpost := vmCpuintPostLocked_delivery hs (hd t List.mem_cons_self) timeGuestint
      exact (vmCpuintPostLocked_passage hs (hd t List.mem_cons_self) timeGuestint).trans
        (foldl_post_passage expired (hpost.placed hs) fun u hu =>
          (hd u (List.mem_cons_of_mem t hu)).of_stirs hpost.stirs)

theorem resched_passage (hc : Coherent M k) (hon : k.hw.hthreadsMask.getLsbD h = true) :
    Does (Passage M nobody k) (k.resched M h) :=
  (dosched_passage (makeWay_between hc hon).1).mono fun _ => (makeWay_passage hc).trans

theorem reschedCluster_passage (hc : Coherent M k) (hon : k.hw.hthreadsMask.getLsbD h = true) :
    Does (Passage M nobody k) (k.reschedCluster M h) := by
  set k₁ : Kernel ι β := { k with cluster := { k.cluster with steer := -1 } }
  have hk₁ : Passage M nobody k k₁ := .of_flags (.of_eq rfl rfl rfl rfl rfl) rfl
  have hc₁ : Coherent M k₁ := hc.congr hc.placed rfl rfl ⟨rfl, rfl, rfl, rfl, id⟩ hc.parents
  exact (resched_passage hc₁ hon).mono fun _ => hk₁.trans

section MakeWay

variable (h : ℕ) (k : Kernel ι β)

omit fι

theorem makeWay_status (t : ι) : (k.makeWay h).sched.status t = k.sched.status t ∨
    k.hw.sgp h = some t ∧ (k.makeWay h).sched.status t = .ready := by
  unfold makeWay
  split
  · next me hme =>
    by_cases htm : t = me
    · exact .inr ⟨htm ▸ hme, by simp [htm]⟩
    · exact .inl (by simp [htm])
  · exact .inl rfl

theorem makeWay_inthandlers : (k.makeWay h).sched.inthandlers = k.sched.inthandlers := by
  unfold makeWay
  split <;> rfl

theorem makeWay_marks (X : ι → Prop) (s : Sched ι β) :
    Marks X k ({ k with sched := s }.makeWay h) := by
  unfold makeWay
  split <;> exact .of_eq rfl rfl rfl rfl rfl

end MakeWay

/-- **Taking over**: the interrupted thread goes back to its ready ring, the woken one runs. -/
theorem takeOver_passage (hc : Coherent M k) (hon : k.hw.hthreadsMask.getLsbD h = true) {woken : ι}
    {s : Sched ι β} (hs : TakenOver M h woken k s) :
    Does (Passage M nobody k) ({ k with sched := s }.takeOver M h woken) := by
  have ha := hs.agreeOff
  have hst := hs.intblocked
  refine (switch_passage (pushWoken_coherent hc hon hs).1).mono fun _ => Passage.trans ?_
  set k₁ : Kernel ι β := { k with sched := s.setStatus woken .vmwait }
  have hway : Passage M nobody k₁ (k₁.makeWay h) := makeWay_passage (hs.coherent hc)
  have hsched : (k₁.makeWay h).sched = _ := makeWay_setStatus (hs.sgp_ne hc)
  set k₂ := ({ k with sched := s } : Kernel ι β).makeWay h
  set k₃ := (({ k with sched := s } : Kernel ι β).pushWoken h woken).switchTo woken h
  have hstatus {t : ι} (ht : t ≠ woken) : k₃.sched.status t = k₂.sched.status t :=
    update_of_ne ht ..
  obtain ⟨hkill, hvmwork, hipi, hnum, hfreed⟩ := makeWay_marks h k (· = woken) s
  have hmarks : Marks (· = woken) k k₃ := ⟨hkill, hvmwork, hipi, hnum, hfreed⟩
  refine (Passage.of_status hmarks (fun t => ?_) (fun i => ?_) (fun v => ?_)
    fun t ht => ?_).settle fun t ht => .of_not_doomed ?_
  · by_cases htw : t = woken
    · exact .inr (.inr ⟨htw, by simp [htw, hst], htw ▸ update_self ..⟩)
    · have hh : k₃.sched.hthread t = k.sched.hthread t :=
        (congrFun (makeWay_hthread h { k with sched := s }) t).trans (ha.hthread t htw)
      rw [hstatus htw]
      rcases makeWay_status h { k with sched := s } t with hsame | ⟨hme, hready⟩
      · exact .inl ⟨hsame.trans (ha.status t htw), hh⟩
      · exact .inr (.inl ⟨by simp [(hc.running hme).1], hready⟩)
  · have : k₃.sched.inthandlers = s.inthandlers := makeWay_inthandlers h { k with sched := s }
    rw [this]
    exact hs.handlers i
  · have hqueue : k₃.sched.queue = (k₁.makeWay h).sched.queue := queue_congr (by rw [hsched]; rfl)
    rw [hqueue, ← hs.queue v]
    exact hway.queues v
  · have htw : t ≠ woken := by
      rintro rfl
      exact Status.noConfusion (ht.symm.trans (update_self ..))
    obtain ⟨hp, hf⟩ := hway.blocked t (by rw [hsched]; simpa [htw, hstatus htw] using ht)
    rw [hsched] at hp hf
    exact ⟨hp.trans (ha.prio t htw), hf.trans (ha.futexPtr t htw)⟩
  · rw [ht]
    rintro (hdead | ⟨-, hready | ⟨hrunning, -⟩⟩)
    · simp [hst] at hdead
    · simp [hst] at hready
    · simp [hst] at hrunning

theorem intpoolInt_passage (hc : Coherent M k) (hon : k.hw.hthreadsMask.getLsbD h = true)
    (intnum : ℕ) {b : β}
    (hth : ∀ woken, k.sched.rings.head (.intpool b) = some woken → k.sched.hthread woken = h) :
    Does (Passage M nobody k) (k.intpoolInt M intnum h b) := by
  unfold intpoolInt
  split
  · exact .some (.of_flags (.of_eq rfl rfl rfl rfl rfl) rfl)
  · next woken hhead =>
    exact takeOver_passage hc hon (intpoolInt_takenOver hc.placed intnum hhead (hth woken hhead))

theorem handler_passage (hc : Coherent M k) (hon : k.hw.hthreadsMask.getLsbD h = true) {intno : ℕ}
    {expired : List ι} {e : Inthandler ι β} (hsafe : e.Safe h intno expired k) :
    Does (Passage M nobody k) (k.handler M h intno expired e) := by
  cases e with
  | null => exact .some (.refl M nobody k)
  | popup woken => exact takeOver_passage hc hon (popupInt_takenOver hc.placed hsafe.1 hsafe.2)
  | intpool b => exact intpoolInt_passage hc hon intno hsafe
  | resched => exact resched_passage hc hon
  | reschedCluster => exact reschedCluster_passage hc hon
  | vmIpi => exact (vmIpiDo_passage hc).mono fun _ hk' => hk'.1
  | timer => exact .some (foldl_post_passage expired hc.placed hsafe)

theorem setLatched_passage (v : Option (ℕ × Inthandler ι β)) :
    Passage M nobody k (k.setLatched h v) := .of_flags (.of_eq rfl rfl rfl rfl rfl) rfl

theorem handleInt_passage (hc : Coherent M k) (hon : k.hw.hthreadsMask.getLsbD h = true)
    {intno : ℕ} {e : Inthandler ι β} (hlatched : k.hw.latched h = some (intno, e))
    {expired : List ι} (hsafe : e.Safe h intno expired k) :
    Does (Passage M nobody k) (k.handleInt M h expired) := by
  have hk₀ : Passage M nobody k (k.setLatched h none) := setLatched_passage none
  by_cases hnull : e = .null
  · subst hnull
    unfold handleInt
    rw [hlatched]
    refine .some (hk₀.trans ?_)
    exact .of_flags (.of_eq rfl rfl rfl rfl rfl) rfl
  · rw [handleInt_eq hlatched hnull]
    have hc₀ : Coherent M (k.setLatched h none) := hc.setLatched none
    have hhandler := handler_passage hc₀ hon hsafe
    rcases hrun : (k.setLatched h none).handler M h intno expired e with - | ⟨x, k₁⟩
    · exact .none
    have hk₁ := hk₀.trans (hhandler.of_some hrun)
    cases x with
    | returned r =>
      refine .some ?_
      split
      · exact hk₁.trans (setLatched_passage _)
      · exact hk₁
    | switched => exact .some hk₁
    | hung => exact .some hk₁

end Operations

end H2
