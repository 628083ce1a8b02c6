import H2.Data.Places
import H2.Sched.CheckSanity

/-!
# Data/Coherent — what holds whenever the kernel lock is free

Every thread is in its place, and each hardware thread executes the occupant of its runlist slot
(`Coherent`).  In the middle of a switch one hardware thread has no thread of its own
(`Between`).  Neither is disturbed by making waiting threads ready (`Stirs`), which is most of what
happens outside a switch.

`NoMissed` is the scheduler's side of it: when a ready thread should be running, `RESCHED_INT` is
raised.
-/

namespace H2

variable {ι β : Type}

/-- `H2K_id_to_context`, for an id of a VM and a cpu index.  A VM of no cpu has no context here; the
code takes its `max_cpus - 1` for a bound, and has none. -/
def Machine.idToContext (M : Machine ι β) (id : ℕ × ℕ) : Option ι :=
  (M.vmblocks id.1).bind fun b => M.context b id.2

/-- The thread is blocked in the intpool of its VM, rather than on an interrupt of its own. -/
def PoolBlocked (s : Sched ι β) (t : ι) : Prop :=
  s.status t = .intblocked ∧ maxInterrupts ≤ s.r00 t

/-- The hardware threads and the scheduling policy are as configured, the same interrupts are on
their way to their handlers, and a hardware thread that hangs goes on hanging. -/
structure SameConfig (k k' : Kernel ι β) : Prop where
  hthreads : k'.hw.hthreads = k.hw.hthreads
  hthreadsMask : k'.hw.hthreadsMask = k.hw.hthreadsMask
  clusterSched : k'.cluster.sched = k.cluster.sched
  latched : k'.hw.latched = k.hw.latched
  hung : k.hw.hung = true → k'.hw.hung = true

/-- All hardware threads but `h` do what they did. -/
structure Elsewhere (h : ℕ) (k k' : Kernel ι β) : Prop where
  sgp : ∀ h', h' ≠ h → k'.hw.sgp h' = k.hw.sgp h'
  waits : ∀ h', h' ≠ h → k'.hw.waitMask.getLsbD h' = k.hw.waitMask.getLsbD h'

/-- No thread that VMs report their exit to is in an intpool with its interrupts enabled. -/
def ParentsReachable (M : Machine ι β) (k : Kernel ι β) : Prop :=
  ∀ b p, M.idToContext (M.parent b) = some p → PoolBlocked k.sched p → k.threads.ie p = false

/-- What holds whenever the kernel lock is free. -/
structure Coherent (M : Machine ι β) (k : Kernel ι β) : Prop where
  placed : Placed M k.sched
  /-- Each hardware thread executes the thread of its runlist slot. -/
  executes : ∀ h, k.hw.sgp h = k.sched.runlist h
  started : ∀ {h t}, k.sched.runlist h = some t → k.hw.hthreadsMask.getLsbD h = true
  parents : ParentsReachable M k

/-- What holds while hardware thread `h` is between two threads. -/
structure Between (M : Machine ι β) (h : ℕ) (k : Kernel ι β) : Prop where
  placed : Placed M k.sched
  executes : ∀ h', h' ≠ h → k.hw.sgp h' = k.sched.runlist h'
  empty : k.sched.runlist h = none
  on : k.hw.hthreadsMask.getLsbD h = true
  started : ∀ {h t}, k.sched.runlist h = some t → k.hw.hthreadsMask.getLsbD h = true
  parents : ParentsReachable M k

/-- Some waiting threads have been made ready, and interrupts at most disabled. -/
structure Stirs (k k' : Kernel ι β) : Prop where
  wakes : Wakes k.sched k'.sched
  sgp : k'.hw.sgp = k.hw.sgp
  waitMask : k'.hw.waitMask = k.hw.waitMask
  config : SameConfig k k'
  ie : ∀ t, k'.threads.ie t = true → k.threads.ie t = true

namespace SameConfig

variable {k k' k'' : Kernel ι β}

theorem refl (k : Kernel ι β) : SameConfig k k := ⟨rfl, rfl, rfl, rfl, id⟩

theorem trans (h : SameConfig k k') (h' : SameConfig k' k'') : SameConfig k k'' :=
  ⟨h'.hthreads.trans h.hthreads, h'.hthreadsMask.trans h.hthreadsMask,
    h'.clusterSched.trans h.clusterSched, h'.latched.trans h.latched,
    fun hk => h'.hung (h.hung hk)⟩

end SameConfig

namespace Elsewhere

variable {h : ℕ} {k k' k'' : Kernel ι β}

theorem refl (h : ℕ) (k : Kernel ι β) : Elsewhere h k k := ⟨fun _ _ => rfl, fun _ _ => rfl⟩

theorem trans (he : Elsewhere h k k') (he' : Elsewhere h k' k'') : Elsewhere h k k'' :=
  ⟨fun h' hh => (he'.sgp h' hh).trans (he.sgp h' hh),
    fun h' hh => (he'.waits h' hh).trans (he.waits h' hh)⟩

theorem of_eq (hsgp : k'.hw.sgp = k.hw.sgp) (hwait : k'.hw.waitMask = k.hw.waitMask) :
    Elsewhere h k k' := ⟨fun _ _ => by rw [hsgp], fun _ _ => by rw [hwait]⟩

end Elsewhere

theorem Coherent.congr {M : Machine ι β} {k k' : Kernel ι β} (hc : Coherent M k)
    (hp : Placed M k'.sched) (hrun : k'.sched.runlist = k.sched.runlist)
    (hsgp : k'.hw.sgp = k.hw.sgp) (hcfg : SameConfig k k') (hparents : ParentsReachable M k') :
    Coherent M k' where
  placed := hp
  executes h := by rw [hsgp, hrun, hc.executes]
  started {h t} ht := by
    rw [hcfg.hthreadsMask]
    exact hc.started (hrun ▸ ht)
  parents := hparents

namespace Stirs

variable {M : Machine ι β} {k k' k'' : Kernel ι β} {h : ℕ}

theorem refl (k : Kernel ι β) : Stirs k k := ⟨.refl _, rfl, rfl, .refl k, fun _ => id⟩

theorem trans (h : Stirs k k') (h' : Stirs k' k'') : Stirs k k'' :=
  ⟨h.wakes.trans h'.wakes, h'.sgp.trans h.sgp, h'.waitMask.trans h.waitMask,
    h.config.trans h'.config, fun t ht => h.ie t (h'.ie t ht)⟩

theorem elsewhere (hk : Stirs k k') : Elsewhere h k k' := .of_eq hk.sgp hk.waitMask

/-- Only flags have changed, and no interrupts been enabled. -/
theorem of_flags (hsched : k'.sched = k.sched) (hhw : k'.hw = k.hw)
    (hcluster : k'.cluster = k.cluster)
    (hie : ∀ t, k'.threads.ie t = true → k.threads.ie t = true) : Stirs k k' :=
  ⟨hsched ▸ .refl _, by rw [hhw], by rw [hhw],
    ⟨by rw [hhw], by rw [hhw], by rw [hcluster], by rw [hhw], by rw [hhw]; exact id⟩, hie⟩

theorem poolBlocked (hk : Stirs k k') {t : ι} (ht : PoolBlocked k'.sched t) :
    PoolBlocked k.sched t := by
  obtain ⟨hst, hr⟩ := hk.wakes.of_intblocked ht.1
  exact ⟨hst, hr ▸ ht.2⟩

theorem parents (hk : Stirs k k') (hp : ParentsReachable M k) : ParentsReachable M k' := by
  intro b p hbp hpool
  have hie := hp b p hbp (hk.poolBlocked hpool)
  rw [← Bool.not_eq_true] at hie ⊢
  exact fun h => hie (hk.ie p h)

theorem coherent (hk : Stirs k k') (hc : Coherent M k) (hp : Placed M k'.sched) : Coherent M k' :=
  hc.congr hp hk.wakes.runlist hk.sgp hk.config (hk.parents hc.parents)

theorem between (hk : Stirs k k') (hc : Between M h k) (hp : Placed M k'.sched) :
    Between M h k' where
  placed := hp
  executes h' hh := by rw [hk.sgp, hk.wakes.runlist, hc.executes h' hh]
  empty := by rw [hk.wakes.runlist, hc.empty]
  on := by rw [hk.config.hthreadsMask, hc.on]
  started {h t} ht := by
    rw [hk.config.hthreadsMask]
    exact hc.started (hk.wakes.runlist ▸ ht)
  parents := hk.parents hc.parents

end Stirs

/-! ## Masks of hardware threads -/

theorem getLsbD_setBit (w : BitVec 32) {h h' : ℕ} (hh : h' ≠ h) :
    (w ||| (1#32 <<< h)).getLsbD h' = w.getLsbD h' := by
  by_cases hlt : h' < h
  · simp [hlt]
  · have : h' - h ≠ 0 := by omega
    simp [this]

theorem getLsbD_clearBit (w : BitVec 32) {h h' : ℕ} (hh : h' ≠ h) :
    (w &&& ~~~(1#32 <<< h)).getLsbD h' = w.getLsbD h' := by
  by_cases hlt : h' < 32
  · have : ¬h' < h → h' - h ≠ 0 := by omega
    by_cases hh' : h' < h <;> simp_all
  · simp [BitVec.getLsbD_of_ge w h' (by omega)]

/-! ## The preemption test -/

section CheckSanity

variable {M : Machine ι β} {k : Kernel ι β}

/-- `H2K_check_sanity` touches two masks and raises an interrupt. -/
theorem stirs_checkSanity (k : Kernel ι β) : Stirs k k.checkSanity := by
  have h := Hw.checkSanity_eq k.sched k.hw
  refine ⟨.refl _, ?_, ?_, ⟨?_, ?_, rfl, ?_, ?_⟩, fun _ => id⟩ <;> rw [Kernel.checkSanity, h]
  exact id

@[simp] theorem Kernel.checkSanity_sched : k.checkSanity.sched = k.sched := rfl

@[simp] theorem Kernel.checkSanity_waitMask : k.checkSanity.hw.waitMask = k.hw.waitMask :=
  (stirs_checkSanity k).waitMask

/-- A ready thread should be running: it is better than one that does, or a hardware thread
waits. -/
def Missed (k : Kernel ι β) : Prop :=
  (∃ t u, k.sched.status t = .ready ∧ k.sched.status u = .running ∧
    k.sched.prio t < k.sched.prio u) ∨
  (k.hw.waitMask ≠ 0 ∧ ∃ t, k.sched.status t = .ready)

/-- If a ready thread should be running, `RESCHED_INT` is raised. -/
def NoMissed (k : Kernel ι β) : Prop := Missed k → k.hw.reschedInt = true

/-- The slots of all started hardware threads are looked at, and ready threads are handed out in
order of priority alone. -/
structure Plain (k : Kernel ι β) : Prop where
  lt_hthreads : ∀ h, k.hw.hthreadsMask.getLsbD h = true → h < k.hw.hthreads
  hthreads_le : k.hw.hthreads ≤ 2 ^ 32
  clusterSched : k.cluster.sched = false

theorem SameConfig.plain {k' : Kernel ι β} (h : SameConfig k k') (hp : Plain k) : Plain k' where
  lt_hthreads := by
    rw [h.hthreads, h.hthreadsMask]
    exact hp.lt_hthreads
  hthreads_le := by
    rw [h.hthreads]
    exact hp.hthreads_le
  clusterSched := by rw [h.clusterSched, hp.clusterSched]

theorem Placed.assigned {mask : BitVec 32} {s : Sched ι β} (hs : Placed M s)
    (hmask : ∀ {h t}, s.runlist h = some t → mask.getLsbD h = true) : Assigned mask s where
  running {t} := by simp [hs.runlist_iff]
  slot {h t} ht := ⟨(hs.runlist_iff.mp ht).2, hmask ht⟩
  prios := hs.prios.slot
  empty := hs.prios.empty
  prio_le := hs.prios.prio_le

/-- The best ready priority is at least as good as that of any ready thread. -/
theorem Placed.readyBestPrio_le {s : Sched ι β} (hs : Placed M s) {t : ι}
    (ht : s.status t = .ready) : s.readyBestPrio ≤ s.prio t := by
  have hvalid : Sched.validBit s.readyValids (s.prio t) = true :=
    (hs.holds.valids _ (hs.prios.prio_le t)).mpr
      (hs.holds.head_ne_none (place_eq_ready.mpr ⟨ht, rfl⟩))
  by_contra hlt
  have := (Sched.firstIn_readyBestPrio s).1 (s.prio t) (Nat.zero_le _) (Nat.lt_of_not_le hlt)
  simp [hvalid] at this

theorem Placed.not_ready_of_best {s : Sched ι β} (hs : Placed M s)
    (hbest : maxPrios ≤ s.readyBestPrio) (t : ι) : s.status t ≠ .ready := by
  intro ht
  have := hs.readyBestPrio_le ht
  have := hs.prios.prio_le t
  simp only [maxPrios, maxPrio] at *
  omega

/-- **The preemption test misses nothing.** -/
theorem Placed.noMissed_checkSanity (hs : Placed M k.sched)
    (hstarted : ∀ {h t}, k.sched.runlist h = some t → k.hw.hthreadsMask.getLsbD h = true)
    (hp : Plain k) : NoMissed k.checkSanity := by
  rintro hmissed
  rw [Kernel.checkSanity, Hw.checkSanity_reschedInt, Hw.needsResched, Bool.or_eq_true]
  right
  rcases hmissed with ⟨t, u, ht, hu, hlt⟩ | ⟨hwait, t, ht⟩
  · rw [Kernel.checkSanity_sched] at ht hu hlt
    have hbest := hs.readyBestPrio_le ht
    obtain ⟨v, -, -, -, hv, hmax⟩ :=
      (hs.assigned hstarted).worst hp.lt_hthreads hp.hthreads_le hu
    have hworst : k.sched.readyBestPrio < runlistWorstPrio k.hw.hthreads k.sched := by
      have := hmax u hu
      omega
    simp [hworst]
  · rw [Kernel.checkSanity_sched] at ht
    rw [Kernel.checkSanity_waitMask] at hwait
    have hbest := hs.readyBestPrio_le ht
    have hle := hs.prios.prio_le t
    have hany : k.sched.readyAnyValid = true := by
      simp only [Sched.readyAnyValid, maxPrios, maxPrio] at *
      exact decide_eq_true (by omega)
    rw [hany, Bool.and_true, Bool.or_eq_true]
    exact .inr (decide_eq_true hwait)

end CheckSanity

/-! ## Operations

An operation ends by returning to its caller, by switching to another thread, or never, when a
hardware thread waits for the lock it holds. -/

/-- How an operation leaves the kernel. -/
inductive Exit where
  | returned (r : ℤ)
  | switched
  | hung
  deriving DecidableEq

/-- A function that does not pass on the value it was returned. -/
def Exit.andReturn (r : ℤ) : Exit → Exit
  | .returned _ => .returned r
  | e => e

/-- What an operation of hardware thread `h` keeps, from one state in which the lock is free to the
next, … -/
structure Keeps (M : Machine ι β) (h : ℕ) (k k' : Kernel ι β) : Prop where
  coherent : Coherent M k'
  config : SameConfig k k'
  elsewhere : Elsewhere h k k'

/-- … and what it keeps if it tests for preemption where it has to. -/
structure After (M : Machine ι β) (h : ℕ) (k k' : Kernel ι β) : Prop extends Keeps M h k k' where
  noMissed : Plain k → NoMissed k → k'.hw.hung = false → NoMissed k'

/-- The operation ends, and well. -/
def Ends (Q : Kernel ι β → Prop) (o : Option (Exit × Kernel ι β)) : Prop :=
  ∃ e k', o = some (e, k') ∧ Q k'

theorem Ends.mono {Q Q' : Kernel ι β → Prop} {o : Option (Exit × Kernel ι β)} (h : Ends Q o)
    (hQ : ∀ k, Q k → Q' k) : Ends Q' o := by
  obtain ⟨e, k', ho, hk'⟩ := h
  exact ⟨e, k', ho, hQ k' hk'⟩

theorem Ends.map {Q : Kernel ι β → Prop} {o : Option (Exit × Kernel ι β)} (h : Ends Q o)
    (f : Exit → Exit) : Ends Q (o.map fun p => (f p.1, p.2)) := by
  obtain ⟨e, k', rfl, hk'⟩ := h
  exact ⟨f e, k', rfl, hk'⟩

theorem Ends.some {Q : Kernel ι β → Prop} {e : Exit} {k : Kernel ι β} (h : Q k) :
    Ends Q (some (e, k)) := ⟨e, k, rfl, h⟩

namespace After

variable {M : Machine ι β} {h : ℕ} {k k' : Kernel ι β}

theorem refl (hc : Coherent M k) : After M h k k :=
  ⟨⟨hc, .refl k, .refl h k⟩, fun _ h _ => h⟩

theorem trans {k'' : Kernel ι β} (ha : After M h k k') (ha' : After M h k' k'') :
    After M h k k'' := by
  refine ⟨⟨ha'.coherent, ha.config.trans ha'.config, ha.elsewhere.trans ha'.elsewhere⟩,
    fun hp hm hf => ha'.noMissed (ha.config.plain hp) (ha.noMissed hp hm ?_) hf⟩
  rw [← Bool.not_eq_true] at hf ⊢
  exact fun h => hf (ha'.config.hung h)

theorem of_still (hc : Coherent M k) (hp : Placed M k'.sched) (hk : Stirs k k')
    (hready : ∀ t, k'.sched.status t = .ready → k.sched.status t = .ready)
    (hint : k.hw.reschedInt = true → k'.hw.reschedInt = true) : After M h k k' := by
  refine ⟨⟨hk.coherent hc hp, hk.config, hk.elsewhere⟩, fun _ hmiss _ h => hint (hmiss ?_)⟩
  rw [Missed, hk.waitMask, hk.wakes.prio] at h
  rcases h with ⟨t, u, ht, hu, hlt⟩ | ⟨hwait, t, ht⟩
  · exact .inl ⟨t, u, hready t ht, (hk.wakes.running_iff u).mp hu, hlt⟩
  · exact .inr ⟨hwait, t, hready t ht⟩

theorem of_sched_eq (hc : Coherent M k) (hs : k'.sched = k.sched) (hk : Stirs k k')
    (hint : k.hw.reschedInt = true → k'.hw.reschedInt = true) : After M h k k' :=
  .of_still hc (hs ▸ hc.placed) hk (fun t => by rw [hs]; exact id) hint

/-- Whatever has been done, the preemption test has seen it. -/
theorem checkSanity (hc' : Coherent M k') (hcfg : SameConfig k k') (he : Elsewhere h k k') :
    After M h k k'.checkSanity := by
  have hk' := stirs_checkSanity k'
  exact ⟨⟨hk'.coherent hc' hc'.placed, hcfg.trans hk'.config, he.trans hk'.elsewhere⟩,
    fun hplain _ _ => hc'.placed.noMissed_checkSanity hc'.started (hcfg.plain hplain)⟩

/-- What threads have been made ready, the preemption test has seen. -/
theorem of_checkSanity (hc : Coherent M k) (hp : Placed M k'.sched) (hk : Stirs k k') :
    After M h k k'.checkSanity :=
  checkSanity (hk.coherent hc hp) hk.config hk.elsewhere

end After

end H2
