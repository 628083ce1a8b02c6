import H2.Sched.Getbest
import H2.Vm.Vmint

/-!
# Sched/Dosched — switching to the best ready thread

`H2K_dosched` never returns: it ends in `H2K_switch`, which goes to sleep or to another thread.  A
thread that is switched to does its virtual machine work first, and if it has been killed that work
is to stop — which ends in `H2K_dosched` again.  So the two make a loop, and each turn of it leaves
one more thread dead.

The thread that is switched from plays no part but to have its registers saved.
-/

namespace H2

open Kernel Function

variable {ι β : Type} [dι : DecidableEq ι] [dβ : DecidableEq β]

/-- `H2K_dosched` before the push: is the new thread the lowest priority one, to take interrupts? -/
def Hw.dispatch (s : Sched ι β) (prio h : ℕ) (hw : Hw ι β) : Hw ι β :=
  if hw.waitMask = 0 ∧ runlistWorstPrio hw.hthreads s < prio then
    if hw.priomask.getLsbD h then hw
    else
      let hw := hw.raiseLowprio
      { hw with priomask := hw.priomask ||| (1#32 <<< h) }.changeImask h 0
  else if hw.priomask.getLsbD h then
    { hw with priomask := hw.priomask &&& ~~~(1#32 <<< h) }.changeImask h (-1)
  else hw

namespace Sched

/-- `H2K_thread_context_clear`, which keeps the id and the VM. -/
def contextClear (t : ι) (s : Sched ι β) : Sched ι β :=
  { s with
    rings := { s.rings with links := (s.rings.links.setPrev t none).setNext t none }
    status := update s.status t .dead
    prio := update s.prio t 0
    hthread := update s.hthread t 0
    futexPtr := update s.futexPtr t 0
    r00 := update s.r00 t 0 }

/-- Return a context to the free list of its VM. -/
def freePush (b : β) (t : ι) (s : Sched ι β) : Sched ι β :=
  { s with
    rings := { s.rings with links := s.rings.links.setNext t (s.freeThreads b) }
    freeThreads := update s.freeThreads b (some t) }

end Sched

namespace Kernel

/-- The rest of `H2K_dosched`: the new thread goes on the runlist of this hardware thread. -/
def dispatch (new : ι) (h : ℕ) (k : Kernel ι β) : Kernel ι β :=
  { k with
    hw := k.hw.dispatch k.sched (k.sched.prio new) h
    sched := (k.sched.setHthread new h).runlistPush new }

/-- `H2K_switch` to a thread, up to its work: the hardware thread executes it, with the
coprocessors it asks for, as `switch.v4opt.S` loads them. -/
def switchTo (new : ι) (h : ℕ) (k : Kernel ι β) : Kernel ι β :=
  { k with
    cluster := { k.cluster with hw := update k.cluster.hw h (k.cluster.ctx new) }
    hw := { k.hw with sgp := update k.hw.sgp h (some new) } }

/-- `H2K_switch` to nothing: wait mode, open to interrupts. -/
def switchNull (h : ℕ) (k : Kernel ι β) : Kernel ι β :=
  { k with
    hw := { k.hw with
      waitMask := k.hw.waitMask ||| (1#32 <<< h)
      priomask := k.hw.priomask ||| (1#32 <<< h)
      sgp := update k.hw.sgp h none }.changeImask h 0 }

/-- The other fields of a context that `H2K_thread_context_clear` clears. -/
def clearThread (t : ι) (k : Kernel ι β) : Kernel ι β :=
  { k with
    ints := { k.ints with
      cpuintPending := update k.ints.cpuintPending t fun _ => false
      cpuintEnabled := update k.ints.cpuintEnabled t fun _ => false }
    cluster := { k.cluster with ctx := update k.cluster.ctx t (false, false, false) }
    threads :=
      { basePrio := update k.threads.basePrio t 0
        vmwork := update k.threads.vmwork t false
        kill := update k.threads.kill t false
        ie := update k.threads.ie t false
        gevb := update k.threads.gevb t 0 } }

/-- The end of `H2K_thread_stop_withlock`: the parent is told, or the VM block freed if there is no
parent left to do it. -/
def signalParent (M : Machine ι β) (vmblock : β) (status : ℤ) (k : Kernel ι β) : Kernel ι β :=
  let dealloc :=
    if k.vms.numCpus vmblock = 0 then
      { k with vms := { k.vms with freed := update k.vms.freed vmblock true } }
    else k
  if status ≠ 0 ∨ k.vms.numCpus vmblock = 0 then
    match M.idToContext (M.parent vmblock) with
    | some p =>
      if k.sched.status p ≠ .dead then k.vmCpuintPostLocked M p vmChildint else dealloc
    | none => dealloc
  else k

/-- `H2K_thread_stop_withlock` up to the signal to the parent. -/
def retire (M : Machine ι β) (status : ℤ) (me : ι) (k : Kernel ι β) : Kernel ι β :=
  let b := M.vmblock me
  let k := k.clearThread me
  { k with
    sched := ((k.sched.runlistRemove me).contextClear me).freePush b me
    vms := { k.vms with
      numCpus := update k.vms.numCpus b
        ((k.vms.numCpus b + 0xffffffff) % 0x100000000)
      status := update k.vms.status b status } }

/-- `H2K_thread_stop_withlock` up to `H2K_dosched`. -/
def stop (M : Machine ι β) (status : ℤ) (me : ι) (k : Kernel ι β) : Kernel ι β :=
  (k.retire M status me).signalParent M (M.vmblock me) status

variable [fι : Fintype ι]

/-- `H2K_dosched`, with the work and the death of the threads it switches to. -/
def doschedLoop (M : Machine ι β) (h : ℕ) : ℕ → Kernel ι β → Option (Exit × Kernel ι β)
  | 0, _ => none
  | fuel + 1, k => do
    match ← k.readyGetbest h with
    | (none, k) => some (.switched, { k with hw := k.hw.raiseLowprio }.switchNull h)
    | (some new, k) =>
      let k := (k.dispatch new h).switchTo new h
      if k.threads.kill new then
        doschedLoop M h fuel (k.stop M (k.vms.status (M.vmblock new)) new)
      else
        match k.vmWork M new with
        | (.hung, k) => some (.hung, k)
        | (_, k) => some (.switched, k.checkSanity)

/-- `H2K_dosched`. -/
def dosched (M : Machine ι β) (h : ℕ) (k : Kernel ι β) : Option (Exit × Kernel ι β) :=
  k.doschedLoop M h (Fintype.card ι + 1)

/-- `H2K_thread_stop_withlock`, on hardware thread `h`. -/
def threadStopWithlock (M : Machine ι β) (status : ℤ) (me : ι) (h : ℕ) (k : Kernel ι β) :
    Option (Exit × Kernel ι β) :=
  (k.stop M status me).dosched M h

/-- `H2K_vm_do_work_withlock`. -/
def vmDoWorkWithlock (M : Machine ι β) (me : ι) (h : ℕ) (k : Kernel ι β) :
    Option (Exit × Kernel ι β) :=
  if k.threads.kill me then k.threadStopWithlock M (k.vms.status (M.vmblock me)) me h
  else some (k.vmWork M me)

/-- `H2K_switch` to a thread, which does its work — and that may be to stop. -/
def switch (M : Machine ι β) (new : ι) (h : ℕ) (k : Kernel ι β) : Option (Exit × Kernel ι β) :=
  let k := k.switchTo new h
  if k.threads.kill new then k.threadStopWithlock M (k.vms.status (M.vmblock new)) new h
  else
    match k.vmWork M new with
    | (.hung, k) => some (.hung, k)
    | (_, k) => some (.switched, k.checkSanity)

end Kernel

/-! ## Leaving and entering -/

section Moves

variable {M : Machine ι β} {k k' : Kernel ι β} {h : ℕ} {t : ι}

omit dβ

/-- What can be delivered to parents depends on the fields of contexts one by one. -/
theorem ParentsReachable.of_agreeOff (hp : ParentsReachable M k) (ha : AgreeOff t k.sched k'.sched)
    (hie : ∀ u, u ≠ t → k'.threads.ie u = true → k.threads.ie u = true)
    (ht : ∀ b, M.idToContext (M.parent b) = some t → Deliverable k' t) : ParentsReachable M k' := by
  intro b p hbp hpool
  by_cases hpt : p = t
  · subst hpt
    exact ht b hbp hpool
  · have hpool' : PoolBlocked k.sched p := by
      rwa [PoolBlocked, ← ha.status p hpt, ← ha.r00 p hpt]
    have := hp b p hbp hpool'
    rw [← Bool.not_eq_true] at this ⊢
    exact fun h => this (hie p hpt h)

omit dι in
theorem Coherent.running (hc : Coherent M k) (ht : k.hw.sgp h = some t) :
    k.sched.status t = .running ∧ k.sched.hthread t = h :=
  hc.placed.runlist_iff.mp (hc.executes h ▸ ht)

omit dι in
/-- **Leaving**: a running thread has been put elsewhere. -/
theorem Coherent.leave (hc : Coherent M k) (ht : k.hw.sgp h = some t) (hp : Placed M k'.sched)
    (hrun : k'.sched.runlist = (k.sched.runlistRemove t).runlist) (hsgp : k'.hw.sgp = k.hw.sgp)
    (hcfg : SameConfig k k') (hparents : ParentsReachable M k') : Between M h k' := by
  have hslot : k.sched.runlist h = some t := hc.executes h ▸ ht
  obtain ⟨-, hht⟩ := hc.running ht
  have hrun' : k'.sched.runlist = update k.sched.runlist h none := by
    rw [hrun, ← hht]
    rfl
  refine ⟨hp, fun h' hh => ?_, by rw [hrun', update_self], ?_, fun {h' u} hu => ?_, hparents⟩
  · rw [hsgp, hrun', update_of_ne hh, hc.executes]
  · rw [hcfg.hthreadsMask]
    exact hc.started hslot
  · rw [hcfg.hthreadsMask]
    rw [hrun'] at hu
    by_cases hh : h' = h
    · simp [hh] at hu
    · rw [update_of_ne hh] at hu
      exact hc.started hu

/-- **Entering**: a thread that was taken in hand is switched to. -/
theorem Between.enter (hb : Between M h k) {s : Sched ι β} (ht : InHand M s t)
    (ha : AgreeOff t k.sched s) (hrun : s.runlist = k.sched.runlist) (hth : s.hthread t = h)
    (hsched : k'.sched = s.runlistPush t) (hsgp : k'.hw.sgp = update k.hw.sgp h (some t))
    (hcfg : SameConfig k k') (hie : k'.threads.ie = k.threads.ie) : Coherent M k' := by
  have hfree : s.runlist (s.hthread t) = none := by rw [hth, hrun, hb.empty]
  refine ⟨hsched ▸ ht.runlistPush hfree, fun h' => ?_, fun {h' u} hu => ?_, ?_⟩
  · rw [hsched, hsgp, Sched.runlistPush_runlist, hth, hrun]
    by_cases hh : h' = h
    · simp [hh]
    · rw [update_of_ne hh, update_of_ne hh, hb.executes h' hh]
  · rw [hcfg.hthreadsMask]
    rw [hsched, Sched.runlistPush_runlist, hth, hrun] at hu
    by_cases hh : h' = h
    · rw [hh]
      exact hb.on
    · rw [update_of_ne hh] at hu
      exact hb.started hu
  · refine hb.parents.of_agreeOff (t := t) ?_ (fun u _ => by rw [hie]; exact id) fun _ _ hpool => ?_
    · rw [hsched]
      exact ⟨fun u hu => by simp [hu, ha.status u hu], ha.prio, ha.hthread, ha.futexPtr, ha.r00⟩
    · rw [hsched] at hpool
      simp [PoolBlocked] at hpool

section

omit dι

theorem Hw.raiseLowprio_eq (hw : Hw ι β) : hw.raiseLowprio =
    { hw with priomask := hw.raiseLowprio.priomask, imask := hw.raiseLowprio.imask } := by
  unfold Hw.raiseLowprio
  split <;> rfl

theorem Hw.dispatch_eq (s : Sched ι β) (prio h : ℕ) (hw : Hw ι β) : hw.dispatch s prio h = { hw with
      priomask := (hw.dispatch s prio h).priomask
      imask := (hw.dispatch s prio h).imask } := by
  unfold Hw.dispatch
  split
  · split
    · rfl
    · simp only
      rw [Hw.raiseLowprio_eq]
      rfl
  · split <;> rfl

theorem Between.sleep (hb : Between M h k) (hsched : k'.sched = k.sched)
    (hsgp : k'.hw.sgp = update k.hw.sgp h none) (hcfg : SameConfig k k')
    (hie : k'.threads.ie = k.threads.ie) : Coherent M k' := by
  refine ⟨hsched ▸ hb.placed, fun h' => ?_, fun {h' u} hu => ?_, ?_⟩
  · rw [hsched, hsgp]
    by_cases hh : h' = h
    · rw [hh, update_self, hb.empty]
    · rw [update_of_ne hh, hb.executes h' hh]
  · rw [hcfg.hthreadsMask]
    exact hb.started (hsched ▸ hu)
  · intro b p hbp
    rw [hsched, hie]
    exact hb.parents b p hbp

end

end Moves

/-- Hardware thread `h` has been left without a thread, the others as they were. -/
structure Leaves (M : Machine ι β) (h : ℕ) (k k' : Kernel ι β) : Prop where
  between : Between M h k'
  config : SameConfig k k'
  elsewhere : Elsewhere h k k'

/-! ## Stopping -/

section Stop

variable {M : Machine ι β} {k : Kernel ι β} {h : ℕ} {me : ι}

/-- A dead thread is in its free list, cleared. -/
theorem InHand.die {s : Sched ι β} (hs : InHand M s me) :
    Placed M ((s.contextClear me).freePush (M.vmblock me) me) := by
  set s' : Sched ι β := { s with
    status := update s.status me .dead
    prio := update s.prio me 0
    hthread := update s.hthread me 0
    futexPtr := update s.futexPtr me 0
    r00 := update s.r00 me 0 }
  have hhand : InHand M s' me :=
    hs.congr ⟨fun u hu => by simp [s', hu], fun u hu => by simp [s', hu],
      fun u hu => by simp [s', hu], fun u hu => by simp [s', hu], fun u hu => by simp [s', hu]⟩
      rfl rfl rfl rfl rfl rfl rfl (by simp [s'])
  have hlinks : ((s.rings.links.setPrev me none).setNext me none).setNext me
      (s.freeThreads (M.vmblock me)) =
      (s.rings.links.setPrev me none).setNext me (s.freeThreads (M.vmblock me)) := by
    simp [Links.setNext]
  have hpush := hhand.pushFree (update_self ..) none
  rw [Sched.freePush, Sched.contextClear]
  simp only [hlinks]
  exact hpush

theorem agreeOff_stop (s : Sched ι β) (b : β) :
    AgreeOff me s (((s.runlistRemove me).contextClear me).freePush b me) := by
  refine ⟨?_, ?_, ?_, ?_, ?_⟩ <;> intro u hu <;>
    simp [Sched.freePush, Sched.contextClear, hu]

/-- The parent is told, or the block freed, or there is nothing to do. -/
theorem signalParent_cases (M : Machine ι β) (b : β) (status : ℤ) (k : Kernel ι β) :
    k.signalParent M b status = k ∨
    (∃ p, M.idToContext (M.parent b) = some p ∧
      k.signalParent M b status = k.vmCpuintPostLocked M p vmChildint) ∨
    k.vms.numCpus b = 0 ∧ (∀ p, M.idToContext (M.parent b) = some p → k.sched.status p = .dead) ∧
      k.signalParent M b status =
        { k with vms := { k.vms with freed := update k.vms.freed b true } } := by
  unfold signalParent
  simp only
  split
  · split
    · next p hp =>
      split
      · exact .inr (.inl ⟨p, hp, rfl⟩)
      · next hdead =>
        split
        · next hzero => exact .inr (.inr ⟨hzero, by simpa [hp] using hdead, rfl⟩)
        · exact .inl rfl
    · next hp =>
      split
      · next hzero => exact .inr (.inr ⟨hzero, by simp [hp], rfl⟩)
      · exact .inl rfl
  · exact .inl rfl

/-- Telling the parent wakes it up, if anything. -/
theorem signalParent_stirs (hs : Placed M k.sched) (hp : ParentsReachable M k) (b : β)
    (status : ℤ) :
    Stirs k (k.signalParent M b status) ∧ Placed M (k.signalParent M b status).sched := by
  rcases signalParent_cases M b status k with heq | ⟨p, hparent, heq⟩ | ⟨-, -, heq⟩ <;> rw [heq]
  · exact ⟨.refl k, hs⟩
  · have hd := vmCpuintPostLocked_delivery hs (hp b p hparent) vmChildint
    exact ⟨hd.stirs, hd.placed hs⟩
  · exact ⟨.of_flags rfl rfl rfl fun _ => id, hs⟩

variable [fι : Fintype ι]

/-- How many threads are not dead. -/
def Sched.numLive (s : Sched ι β) : ℕ := (Finset.univ.filter fun t => s.status t ≠ .dead).card

omit dι dβ in
theorem Wakes.numLive {s s' : Sched ι β} (hw : Wakes s s') : s'.numLive = s.numLive := by
  simp only [Sched.numLive, ne_eq, hw.dead_iff]

omit fι in
@[simp] theorem retire_status_self (status : ℤ) :
    (k.retire M status me).sched.status me = .dead := by
  simp [retire, Sched.freePush, Sched.contextClear]

omit fι in
/-- **Retiring** leaves the hardware thread without a thread. -/
theorem retire_leaves (hc : Coherent M k) (hme : k.hw.sgp h = some me) (status : ℤ) :
    Leaves M h k (k.retire M status me) := by
  have hrunning := (hc.running hme).1
  have hcfg : SameConfig k (k.retire M status me) := ⟨rfl, rfl, rfl, rfl, id⟩
  refine ⟨hc.leave hme (hc.placed.runlistRemove hrunning).die rfl rfl hcfg ?_, hcfg, .of_eq rfl rfl⟩
  refine hc.parents.of_agreeOff (agreeOff_stop k.sched (M.vmblock me)) (fun u hu => ?_)
    fun _ _ hpool => ?_
  · simp [retire, clearThread, hu]
  · simp [PoolBlocked] at hpool

/-- **Stopping** leaves the hardware thread without a thread, and one thread less alive. -/
theorem stop_between (hc : Coherent M k) (hme : k.hw.sgp h = some me) (status : ℤ) :
    Between M h (k.stop M status me) ∧ SameConfig k (k.stop M status me) ∧
      Elsewhere h k (k.stop M status me) ∧
      (k.stop M status me).sched.numLive < k.sched.numLive := by
  obtain ⟨hbetween, hcfg, helse⟩ := retire_leaves hc hme status
  obtain ⟨hstirs, hp⟩ :=
    signalParent_stirs hbetween.placed hbetween.parents (M.vmblock me) status
  refine ⟨hstirs.between hbetween hp, hcfg.trans hstirs.config, helse.trans hstirs.elsewhere, ?_⟩
  rw [stop, hstirs.wakes.numLive]
  refine Finset.card_lt_card (Finset.ssubset_iff_of_subset (fun u hu => ?_) |>.mpr ⟨me, ?_, ?_⟩)
  · have hne : u ≠ me := by
      rintro rfl
      simp at hu
    have hst := (agreeOff_stop k.sched (M.vmblock me)).status u hne
    simp only [Finset.mem_filter] at hu ⊢
    exact hst ▸ hu
  · simp [(hc.running hme).1]
  · simp

end Stop

/-! ## The loop -/

section Loop

variable [fι : Fintype ι] {M : Machine ι β} {k : Kernel ι β} {h : ℕ}

/-- What the switch to another thread establishes, whatever the lock holder did before. -/
structure Settled (M : Machine ι β) (h : ℕ) (k k' : Kernel ι β) : Prop
    extends Keeps M h k k' where
  noMissed : Plain k → k'.hw.hung = false → NoMissed k'

section

omit dι dβ fι

theorem Settled.of_config {k₁ k' : Kernel ι β} (hs : Settled M h k₁ k') (hcfg : SameConfig k k₁)
    (he : Elsewhere h k k₁) : Settled M h k k' :=
  ⟨⟨hs.coherent, hcfg.trans hs.config, he.trans hs.elsewhere⟩,
    fun hp => hs.noMissed (hcfg.plain hp)⟩

theorem Settled.after {k' : Kernel ι β} (hs : Settled M h k k') : After M h k k' :=
  ⟨hs.toKeeps, fun hp _ => hs.noMissed hp⟩

theorem Ends.after {o : Option (Exit × Kernel ι β)} (ho : Ends (Settled M h k) o) :
    Ends (After M h k) o := ho.mono fun _ hk' => hk'.after

end

omit fι in
theorem Coherent.work (hc : Coherent M k) (me : ι) : Ends (Settled M h k) (match k.vmWork M me with
      | (.hung, k) => some (.hung, k)
      | (_, k) => some (.switched, k.checkSanity)) := by
  have hcoherent {k' : Kernel ι β} (hw : Works me k k') : Coherent M k' :=
    hw.stirs.coherent hc (hw.sched ▸ hc.placed)
  refine work_elim M me k (fun k' hw hhung => ?_) fun k' hw => ?_
  · exact .some ⟨⟨hcoherent hw, hw.stirs.config, hw.stirs.elsewhere⟩,
      fun _ hf => by simp [hhung] at hf⟩
  · have hc' := hcoherent hw
    have hstirs := hw.stirs.trans (stirs_checkSanity k')
    exact .some ⟨⟨(stirs_checkSanity k').coherent hc' hc'.placed, hstirs.config, hstirs.elsewhere⟩,
      fun hp _ => hc'.placed.noMissed_checkSanity hc'.started (hw.stirs.config.plain hp)⟩

omit fι in
/-- **The switch** to the thread that was chosen. -/
theorem Between.dispatch (hb : Between M h k) {c : Cluster ι} (hc : c.sched = k.cluster.sched)
    {new : ι} (hnew : k.sched.status new = .ready) {k₂ : Kernel ι β}
    (hk₂ : k₂ = (({ k with cluster := c, sched := k.sched.readyRemove new } :
      Kernel ι β).dispatch new h).switchTo new h) :
    Coherent M k₂ ∧ SameConfig k k₂ ∧ Elsewhere h k k₂ ∧ k₂.hw.sgp h = some new ∧
      k₂.hw.maskForIpi = k.hw.maskForIpi := by
  have hdispatch := Hw.dispatch_eq (k.sched.readyRemove new) (k.sched.prio new) h k.hw
  have hhw : k₂.hw = { k.hw.dispatch (k.sched.readyRemove new) (k.sched.prio new) h with
      sgp := update
        (k.hw.dispatch (k.sched.readyRemove new) (k.sched.prio new) h).sgp h (some new) } := by
    rw [hk₂]
    rfl
  rw [hdispatch] at hhw
  have hcfg : SameConfig k k₂ := by
    refine ⟨by rw [hhw], by rw [hhw], ?_, by rw [hhw], by rw [hhw]; exact id⟩
    rw [hk₂]
    exact hc
  have hsgp : k₂.hw.sgp = update k.hw.sgp h (some new) := by rw [hhw]
  refine ⟨?_, hcfg, ⟨fun h' hh => by rw [hsgp, update_of_ne hh], fun _ _ => by rw [hhw]⟩,
    by rw [hsgp, update_self], by rw [hhw]⟩
  refine hb.enter ((hb.placed.readyRemove hnew).setHthread h) ?_ rfl ?_ ?_ hsgp hcfg ?_
  · exact { AgreeOff.refl new k.sched with hthread := fun u hu => by simp [hu] }
  · simp
  all_goals
    rw [hk₂]
    rfl

/-- **`H2K_dosched` ends**, in wait mode or with another thread running. -/
theorem doschedLoop_ends : ∀ (fuel : ℕ) {k : Kernel ι β}, Between M h k →
    k.sched.numLive < fuel → Ends (Settled M h k) (k.doschedLoop M h fuel)
  | fuel + 1, k, hb, hfuel => by
      obtain ⟨r, k₁, hget, hbest⟩ := readyGetbest_spec (h := h) hb.placed
      rw [doschedLoop, hget, Option.bind_eq_bind, Option.bind_some]
      cases hbest with
      | @sleep c hc hready =>
        have hraise := Hw.raiseLowprio_eq k.hw
        set k' := ({ k with cluster := c, hw := k.hw.raiseLowprio } : Kernel ι β).switchNull h
        have hhw : k'.hw = ({ k.hw.raiseLowprio with
            waitMask := k.hw.raiseLowprio.waitMask ||| (1#32 <<< h)
            priomask := k.hw.raiseLowprio.priomask ||| (1#32 <<< h)
            sgp := update k.hw.raiseLowprio.sgp h none } : Hw ι β).changeImask h 0 := rfl
        rw [hraise] at hhw
        have hcfg : SameConfig k k' :=
          ⟨by rw [hhw]; rfl, by rw [hhw]; rfl, hc, by rw [hhw]; rfl, by rw [hhw]; exact id⟩
        have hsgp : k'.hw.sgp = update k.hw.sgp h none := by
          rw [hhw]
          rfl
        have hwait : k'.hw.waitMask = k.hw.waitMask ||| (1#32 <<< h) := by
          rw [hhw]
          rfl
        have helse : Elsewhere h k k' :=
          ⟨fun h' hh => by rw [hsgp, update_of_ne hh],
            fun h' hh => by rw [hwait, getLsbD_setBit _ hh]⟩
        refine .some ⟨⟨hb.sleep rfl hsgp hcfg rfl, hcfg, helse⟩, fun hp _ hmissed => ?_⟩
        -- nothing is ready
        exact absurd hmissed (by
          rintro (⟨t, -, ht, -⟩ | ⟨-, t, ht⟩) <;> exact hready hp.clusterSched t ht)
      | @best c new hc hnew =>
        simp only
        set k₂ := (({ k with cluster := c, sched := k.sched.readyRemove new } :
          Kernel ι β).dispatch new h).switchTo new h with hk₂
        obtain ⟨hc₂, hcfg, helse, hsgp, -⟩ := hb.dispatch hc hnew hk₂
        split
        · -- killed: it stops, and the loop goes on
          obtain ⟨hb', hcfg', helse', hlt⟩ :=
            stop_between hc₂ hsgp (k₂.vms.status (M.vmblock new))
          have hlive : k₂.sched.numLive = k.sched.numLive := by
            have hdead : ∀ t, k₂.sched.status t = .dead ↔ k.sched.status t = .dead := by
              intro t
              by_cases ht : t = new
              · simp [hk₂, switchTo, dispatch, ht, hnew]
              · simp [hk₂, switchTo, dispatch, ht]
            simp only [Sched.numLive, ne_eq, hdead]
          obtain ⟨e, k', hloop, hk'⟩ := doschedLoop_ends fuel hb' (by omega)
          exact ⟨e, k', hloop, hk'.of_config (hcfg.trans hcfg') (helse.trans helse')⟩
        · exact (hc₂.work new).mono fun k' hk' => hk'.of_config hcfg helse

theorem dosched_ends (hb : Between M h k) : Ends (Settled M h k) (k.dosched M h) :=
  doschedLoop_ends _ hb (Nat.lt_succ_of_le (Finset.card_le_univ _))

theorem doschedLoop_not_returned (r : ℤ) (k' : Kernel ι β) :
    ∀ (fuel : ℕ) (k : Kernel ι β), k.doschedLoop M h fuel ≠ some (.returned r, k')
  | 0, _ => by simp [doschedLoop]
  | fuel + 1, k => by
      rw [doschedLoop]
      rcases k.readyGetbest h with - | ⟨new, k₁⟩
      · simp
      rw [Option.bind_eq_bind, Option.bind_some]
      cases new with
      | none => simp
      | some new =>
        simp only
        split
        · exact doschedLoop_not_returned r k' fuel _
        · split <;> simp

theorem dosched_not_returned (r : ℤ) (k' : Kernel ι β) : k.dosched M h ≠ some (.returned r, k') :=
  doschedLoop_not_returned r k' _ k

theorem switch_not_returned {new : ι} (r : ℤ) (k' : Kernel ι β) :
    k.switch M new h ≠ some (.returned r, k') := by
  unfold switch
  simp only
  split
  · exact dosched_not_returned r k'
  · split <;> simp

theorem threadStopWithlock_ends (hc : Coherent M k) {me : ι} (hme : k.hw.sgp h = some me)
    (status : ℤ) : Ends (Settled M h k) (k.threadStopWithlock M status me h) := by
  obtain ⟨hb, hcfg, helse, -⟩ := stop_between hc hme status
  exact (dosched_ends hb).mono fun k' hk' => hk'.of_config hcfg helse

/-- **Doing the work** of a running thread: it stops, or does what it can. -/
theorem vmDoWorkWithlock_ends (hc : Coherent M k) {me : ι} (hme : k.hw.sgp h = some me) :
    Ends (After M h k) (k.vmDoWorkWithlock M me h) := by
  unfold vmDoWorkWithlock
  split
  · exact (threadStopWithlock_ends hc hme _).after
  · exact .some (vmWork_after hc)

theorem switch_ends {new : ι} (hc : Coherent M (k.switchTo new h)) :
    Ends (Settled M h (k.switchTo new h)) (k.switch M new h) := by
  unfold switch
  simp only
  split
  · exact threadStopWithlock_ends hc (update_self ..) _
  · exact hc.work new

theorem Leaves.dosched {k' : Kernel ι β} (hl : Leaves M h k k') :
    Ends (Settled M h k) (k'.dosched M h) :=
  (dosched_ends hl.between).mono fun _ hk'' => hk''.of_config hl.config hl.elsewhere

omit fι dβ in
/-- **Blocking**: the running thread has been put where it waits. -/
theorem Coherent.block {k' : Kernel ι β} (hc : Coherent M k) {me : ι} (hme : k.hw.sgp h = some me)
    (hp : Placed M k'.sched) (ha : AgreeOff me k.sched k'.sched)
    (hrun : k'.sched.runlist = (k.sched.runlistRemove me).runlist) (hhw : k'.hw = k.hw)
    (hcluster : k'.cluster = k.cluster) (hie : k'.threads.ie = k.threads.ie)
    (hparent : ∀ b, M.idToContext (M.parent b) = some me → Deliverable k' me) :
    Leaves M h k k' := by
  have hcfg : SameConfig k k' :=
    ⟨by rw [hhw], by rw [hhw], by rw [hcluster], by rw [hhw], by rw [hhw]; exact id⟩
  refine ⟨hc.leave hme hp hrun (by rw [hhw]) hcfg ?_, hcfg, .of_eq (by rw [hhw]) (by rw [hhw])⟩
  exact hc.parents.of_agreeOff ha (fun _ _ => by rw [hie]; exact id) hparent

end Loop

/-! ## Making way

An interrupt that switches takes the hardware thread from its thread, or out of wait mode. -/

/-- The beginning of `H2K_resched`, `H2K_popup_int` and `H2K_intpool_int`: the interrupted thread
is ready again, last at its priority. -/
def Kernel.makeWay (h : ℕ) (k : Kernel ι β) : Kernel ι β :=
  match k.hw.sgp h with
  | some me => { k with sched := (k.sched.runlistRemove me).readyAppend me }
  | none => { k with hw := { k.hw with waitMask := k.hw.waitMask &&& ~~~(1#32 <<< h) } }

section MakeWay

variable (h : ℕ) (k : Kernel ι β)

@[simp] theorem makeWay_hthread : (k.makeWay h).sched.hthread = k.sched.hthread := by
  unfold makeWay
  split <;> rfl

@[simp] theorem makeWay_cluster : (k.makeWay h).cluster = k.cluster := by
  unfold makeWay
  split <;> rfl

@[simp] theorem makeWay_threads : (k.makeWay h).threads = k.threads := by
  unfold makeWay
  split <;> rfl

/-- The hardware's side of making way, whatever the threads' side. -/
theorem makeWay_hw (s : Sched ι β) : ({ k with sched := s }.makeWay h).hw = (k.makeWay h).hw := by
  unfold makeWay
  cases k.hw.sgp h <;> rfl

end MakeWay

theorem makeWay_between {M : Machine ι β} {k : Kernel ι β} {h : ℕ} (hc : Coherent M k)
    (hon : k.hw.hthreadsMask.getLsbD h = true) :
    Between M h (k.makeWay h) ∧ SameConfig k (k.makeWay h) ∧ Elsewhere h k (k.makeWay h) := by
  unfold makeWay
  split
  · next me hme =>
    obtain ⟨hrunning, -⟩ := hc.running hme
    refine ⟨hc.leave hme (hc.placed.runlistRemove hrunning).readyAppend rfl rfl
      ⟨rfl, rfl, rfl, rfl, id⟩ ?_, ⟨rfl, rfl, rfl, rfl, id⟩, .of_eq rfl rfl⟩
    refine hc.parents.of_agreeOff (t := me) ?_ (fun _ _ => id) fun _ _ hpool => ?_
    · exact { AgreeOff.refl me k.sched with status := fun u hu => by simp [hu] }
    · simp [PoolBlocked] at hpool
  · next hnone =>
    refine ⟨⟨hc.placed, fun h' _ => hc.executes h', ?_, hon, hc.started, hc.parents⟩,
      ⟨rfl, rfl, rfl, rfl, id⟩, fun _ _ => rfl, fun h' hh => getLsbD_clearBit _ hh⟩
    rw [← hc.executes h, hnone]

end H2
