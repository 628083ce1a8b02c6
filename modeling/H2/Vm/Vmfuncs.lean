import H2.Sched.Dosched

/-!
# Vm/Vmfuncs — what a virtual cpu asks of the kernel, and the kernel's own interrupts

The virtual cpu enables its interrupts, which may make it take one, or waits for one.  The IPI makes
a running cpu look for interrupts, and the timer posts them.
-/

namespace H2

open Kernel Function

variable {ι β : Type} [dι : DecidableEq ι] [dβ : DecidableEq β] [fι : Fintype ι]

/-- `H2_THREAD_FATAL_ERROR`, as an `s32_t`. -/
def h2ThreadFatalError : ℤ := 0xaaafa7a1 - 0x100000000

namespace Kernel

/-- `me->vmstatus`, its interrupt enable written. -/
def setIe (me : ι) (v : Bool) (k : Kernel ι β) : Kernel ι β :=
  { k with threads := { k.threads with ie := update k.threads.ie me v } }

/-- `H2K_enable_guest_interrupts`: interrupts that were disabled are tried at once.  The lock is not
held, so that a fatal event can stop the thread. -/
def enableGuestInterrupts (M : Machine ι β) (me : ι) (h : ℕ) (k : Kernel ι β) :
    Option (Exit × Kernel ι β) :=
  if k.threads.ie me then some (.returned 1, k)
  else
    match (k.setIe me true).vmCheckInterrupts M me with
    | (some _, k) => some (.returned 0, k)
    | (none, k) => k.threadStopWithlock M h2ThreadFatalError me h

/-- `H2K_disable_guest_interrupts`. -/
def disableGuestInterrupts (me : ι) (k : Kernel ι β) : Option (Exit × Kernel ι β) :=
  some (.returned (if k.threads.ie me then 1 else 0), k.setIe me false)

/-- `H2K_vmtrap_setie`. -/
def vmtrapSetie (M : Machine ι β) (enable : Bool) (me : ι) (h : ℕ) (k : Kernel ι β) :
    Option (Exit × Kernel ι β) :=
  if enable then k.enableGuestInterrupts M me h else k.disableGuestInterrupts me

/-- `H2K_vmtrap_setvec`. -/
def vmtrapSetvec (gevb : ℕ) (me : ι) (k : Kernel ι β) : Option (Exit × Kernel ι β) :=
  some (.returned 0, { k with
    threads := { k.threads with gevb := update k.threads.gevb me gevb } })

/-- `H2K_prio_set`, which leaves the priority the thread runs at alone. -/
def prioSet (M : Machine ι β) (prio : ℕ) (me : ι) (k : Kernel ι β) : Option (Exit × Kernel ι β) :=
  if maxPrio < prio ∨ prio < M.bestprio (M.vmblock me) then some (.returned (-1), k)
  else some (.returned (k.threads.basePrio me), { k with
    threads := { k.threads with basePrio := update k.threads.basePrio me (prio % 256) } })

/-- Set the bit of a cpu in `waiting_cpus`: the `1` shifted is an `int`, widened afterwards. -/
def setWaiting (M : Machine ι β) (t : ι) (v : Vms β) : Vms β :=
  if M.cpuidx t < 64 then
    { v with
      waitingCpus := update v.waitingCpus (M.vmblock t)
        (v.waitingCpus (M.vmblock t) ||| (1#32 <<< M.cpuidx t).signExtend 64) }
  else v

/-- The rest of `H2K_vmtrap_wait` when nothing is pending. -/
def vmBlock (M : Machine ι β) (me : ι) (k : Kernel ι β) : Option (Exit × Kernel ι β) :=
  { k with
    vms := setWaiting M me k.vms
    sched := (k.sched.setStatus me .vmwait).runlistRemove me }.dosched M (k.sched.hthread me)

/-- `H2K_vmtrap_wait`. -/
def vmtrapWait (M : Machine ι β) (me : ι) (h : ℕ) (k : Kernel ι β) :
    Option (Exit × Kernel ι β) := do
  match ← k.vmDoWorkWithlock M me h with
  | (.returned intno, k) =>
    if intno = -1 then k.vmBlock M me
    else some (.returned intno, { k with sched := k.sched.setR00 me intno.toNat })
  | p => some p

/-- `H2K_vm_ipi_do`. -/
def vmIpiDo (M : Machine ι β) (h : ℕ) (k : Kernel ι β) : Option (Exit × Kernel ι β) :=
  let k := { k with hw := { k.hw with maskForIpi := k.hw.maskForIpi &&& ~~~(1#32 <<< h) } }
  match k.hw.sgp h with
  | some me => (k.vmDoWorkWithlock M me h).map fun p => (p.1.andReturn 0, p.2)
  | none => some (.returned 0, k)

/-- The part of `H2K_timer_int` that posts to the threads whose timers have expired, in one hold of
the lock. -/
def timerInt (M : Machine ι β) (expired : List ι) (k : Kernel ι β) : Option (Exit × Kernel ι β) :=
  some (.returned 0, expired.foldl (fun k t => k.vmCpuintPostLocked M t timeGuestint) k)

end Kernel

variable {M : Machine ι β} {k k' : Kernel ι β} {h : ℕ} {me : ι}

omit fι dβ in
theorem setIe_after (hc : Coherent M k) (hme : k.hw.sgp h = some me) (v : Bool) :
    After M h k (k.setIe me v) := by
  have hcfg : SameConfig k (k.setIe me v) := ⟨rfl, rfl, rfl, rfl, id⟩
  refine ⟨⟨hc.congr hc.placed rfl rfl hcfg ?_, hcfg, .of_eq rfl rfl⟩, fun _ hm _ => hm⟩
  refine hc.parents.of_agreeOff (.refl me _) (fun u hu => ?_) fun _ _ hpool => ?_
  · simp [setIe, hu]
  · have hst : (k.setIe me v).sched.status me = .running := (hc.running hme).1
    simp [PoolBlocked, hst] at hpool

theorem enableGuestInterrupts_ends (hc : Coherent M k) (hme : k.hw.sgp h = some me) :
    Ends (After M h k) (k.enableGuestInterrupts M me h) := by
  unfold enableGuestInterrupts
  split
  · exact .some (.refl hc)
  have hie := setIe_after hc hme true
  obtain ⟨hw, hhw, -⟩ := vmCheckInterrupts_works M me (k.setIe me true)
  rcases hcheck : (k.setIe me true).vmCheckInterrupts M me with ⟨r, k'⟩
  rw [hcheck] at hw hhw
  have hk' : After M h k k' :=
    hie.trans (.of_sched_eq hie.coherent hw.sched hw.stirs (by rw [hhw]; exact id))
  cases r with
  | some intno => exact .some hk'
  | none =>
    have hme' : k'.hw.sgp h = some me := by
      rw [hhw]
      exact hme
    exact (threadStopWithlock_ends hk'.coherent hme' _).mono fun k'' hk'' => hk'.trans hk''.after

theorem vmtrapSetie_ends (hc : Coherent M k) (hme : k.hw.sgp h = some me) (enable : Bool) :
    Ends (After M h k) (k.vmtrapSetie M enable me h) := by
  unfold vmtrapSetie
  split
  · exact enableGuestInterrupts_ends hc hme
  · exact .some (setIe_after hc hme false)

section

omit dβ fι

theorem vmtrapSetvec_ends (hc : Coherent M k) (gevb : ℕ) :
    Ends (After M h k) (k.vmtrapSetvec gevb me) :=
  .some (.of_sched_eq hc rfl (.of_flags rfl rfl rfl fun _ => id) id)

theorem prioSet_ends (hc : Coherent M k) (prio : ℕ) : Ends (After M h k) (k.prioSet M prio me) := by
  unfold prioSet
  split
  · exact .some (.refl hc)
  · exact .some (.of_sched_eq hc rfl (.of_flags rfl rfl rfl fun _ => id) id)

end

theorem vmDoWorkWithlock_returned {r : ℤ} (hme : k.hw.sgp h = some me)
    (hwork : k.vmDoWorkWithlock M me h = some (.returned r, k')) : k'.hw.sgp h = some me := by
  unfold vmDoWorkWithlock at hwork
  split at hwork
  · exact absurd hwork (dosched_not_returned r k')
  · have hstirs := (vmWork_works M me k).1.stirs
    rw [Option.some.inj hwork] at hstirs
    rw [hstirs.sgp, hme]

omit fι in
/-- A running thread in VMWAIT is in no structure. -/
theorem vmBlock_leaves (hc : Coherent M k) (hme : k.hw.sgp h = some me) : Leaves M h k { k with
      vms := setWaiting M me k.vms
      sched := (k.sched.setStatus me .vmwait).runlistRemove me } := by
  have hrunning := (hc.running hme).1
  refine hc.block hme (((hc.placed.runlistRemove hrunning).setStatus .vmwait).vmwait (by simp)) ?_
    rfl rfl rfl rfl fun _ _ hpool => ?_
  · exact { AgreeOff.refl me k.sched with status := fun u hu => by simp [hu] }
  · simp [PoolBlocked] at hpool

theorem vmBlock_ends (hc : Coherent M k) (hme : k.hw.sgp h = some me) :
    Ends (Settled M h k) (k.vmBlock M me) := by
  unfold vmBlock
  rw [(hc.running hme).2]
  exact (vmBlock_leaves hc hme).dosched

theorem vmtrapWait_ends (hc : Coherent M k) (hme : k.hw.sgp h = some me) :
    Ends (After M h k) (k.vmtrapWait M me h) := by
  obtain ⟨e, k', hwork, hk'⟩ := vmDoWorkWithlock_ends hc hme
  unfold vmtrapWait
  rw [hwork, Option.bind_eq_bind, Option.bind_some]
  cases e with
  | returned intno =>
    have hme' := vmDoWorkWithlock_returned hme hwork
    simp only
    split
    · exact (vmBlock_ends hk'.coherent hme').mono fun k'' hk'' => hk'.trans hk''.after
    · -- the interrupt number is in a register of a running thread
      have hrunning := (hk'.coherent.running hme').1
      have hplaced : Placed M (k'.sched.setR00 me intno.toNat) := by
        refine hk'.coherent.placed.congr (agreeOff_setR00 me _ _) ?_ rfl rfl rfl rfl rfl rfl
          (hk'.coherent.placed.prios.congr rfl rfl rfl)
        simp [Sched.place, hrunning]
      refine .some (hk'.trans (.of_still hk'.coherent hplaced
        ⟨⟨rfl, rfl, fun t => .inl ⟨rfl, fun ht => ?_⟩⟩, rfl, rfl, ⟨rfl, rfl, rfl, rfl, id⟩,
          fun _ => id⟩ (fun _ => id) id))
      have hne : t ≠ me := by
        rintro rfl
        simp [hrunning] at ht
      simp [hne]
  | switched => exact .some hk'
  | hung => exact .some hk'

theorem vmIpiDo_ends (hc : Coherent M k) : Ends (After M h k) (k.vmIpiDo M h) := by
  unfold vmIpiDo
  set k₁ : Kernel ι β :=
    { k with hw := { k.hw with maskForIpi := k.hw.maskForIpi &&& ~~~(1#32 <<< h) } }
  have hk₁ : After M h k k₁ :=
    .of_sched_eq hc rfl ⟨.refl _, rfl, rfl, ⟨rfl, rfl, rfl, rfl, id⟩, fun _ => id⟩ id
  simp only
  split
  · next me hme =>
    exact ((vmDoWorkWithlock_ends hk₁.coherent hme).mono fun k' hk' => hk₁.trans hk').map _
  · exact .some hk₁

omit dι dβ fι in
/-- Deliveries to others leave a thread as deliverable as before. -/
theorem Deliverable.of_stirs (hk : Stirs k k') (hd : Deliverable k me) : Deliverable k' me := by
  intro hpool
  have := hd (hk.poolBlocked hpool)
  rw [← Bool.not_eq_true] at this ⊢
  exact fun hie => this (hk.ie me hie)

omit fι in
theorem foldl_post_stirs : ∀ (expired : List ι) {k : Kernel ι β}, Placed M k.sched →
    (∀ t ∈ expired, Deliverable k t) →
    Stirs k (expired.foldl (fun k t => k.vmCpuintPostLocked M t timeGuestint) k) ∧
      Placed M (expired.foldl (fun k t => k.vmCpuintPostLocked M t timeGuestint) k).sched
  | [], k, hs, _ => ⟨.refl k, hs⟩
  | t :: expired, k, hs, hd => by
      have hpost := vmCpuintPostLocked_delivery hs (hd t List.mem_cons_self) timeGuestint
      obtain ⟨hstirs, hplaced⟩ := foldl_post_stirs expired (hpost.placed hs)
        fun u hu => (hd u (List.mem_cons_of_mem t hu)).of_stirs hpost.stirs
      exact ⟨hpost.stirs.trans hstirs, hplaced⟩

omit fι in
theorem timerInt_ends (hc : Coherent M k) {expired : List ι}
    (hd : ∀ t ∈ expired, Deliverable k t) : Ends (After M h k) (k.timerInt M expired) := by
  refine .some ?_
  induction expired generalizing k with
  | nil => exact .refl hc
  | cons t expired ih =>
    have hpost := vmCpuintPostLocked_delivery hc.placed (hd t List.mem_cons_self) timeGuestint
    have hk₁ : After M h k (k.vmCpuintPostLocked M t timeGuestint) := hpost.after hc
    exact hk₁.trans (ih hk₁.coherent fun u hu =>
      (hd u (List.mem_cons_of_mem t hu)).of_stirs hpost.stirs)

end H2
