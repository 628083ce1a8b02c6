import H2.Kernel.Moves
import H2.Machinery.Leads

/-!
# Kernel/Drain — a killed VM comes to an end

A kill dooms every thread of the VM: those that wait are made ready, those that run are sent an
interrupt, and all are marked.  From then on they sink — no step makes one of them wait, or run once
it is ready, other than to stop it.  Where ready threads are switched to in the end, and interrupts
taken, all of them die, and `num_cpus` reaches 0.

A thread created by a victim before it has taken its interrupt is not marked, and lives.
-/

namespace H2

open Kernel

variable {ι β : Type} [dι : DecidableEq ι] [dβ : DecidableEq β] [fι : Fintype ι]

/-! ## The kill -/

section Kill

variable {M : Machine ι β} {k k' : Kernel ι β} {h : ℕ} {me t : ι}

omit dι dβ fι in
theorem Coherent.hthread_lt (hc : Coherent M k) (ht : k.sched.status t = .running) :
    k.sched.hthread t < 32 := by
  have hrun : k.sched.runlist (k.sched.hthread t) = some t := hc.placed.runlist_iff.mpr ⟨ht, rfl⟩
  exact BitVec.lt_of_getLsbD (hc.started hrun)

omit fι in
theorem doomed_killThreadLocked (hh : k.sched.status t = .running → k.sched.hthread t < 32) :
    Doomed (k.killThreadLocked M t) t := by
  rcases killThreadLocked_cases M t k with ⟨hst, heq⟩ | ⟨hst, heq⟩ | ⟨hst, heq⟩ | ⟨s, v, -, heq⟩ <;>
    rw [heq]
  · exact .inl hst
  · refine .inr ⟨?_, .inr ?_⟩ <;> simp [vmIpiSendWithlock, marked, hst, hh hst]
  · exact .inr ⟨by simp [marked], .inl hst⟩
  · exact .inr ⟨by simp [marked], .inl (by simp)⟩

theorem doomed_foldl_kill : ∀ (ts : List ι) {k : Kernel ι β}, Coherent M k →
    (∀ t ∈ ts, ¬PoolBlocked k.sched t) → ∀ t ∈ ts,
    Doomed (ts.foldl (fun k t => k.killThreadLocked M t) k) t
  | u :: ts, k, hc, hpool, t, ht => by
      have hkill := killThreadLocked_kills (T := fun _ => True) hc.placed trivial
        (hpool u List.mem_cons_self)
      have hc' := hkill.stirs.coherent hc hkill.placed
      have hpool' : ∀ v ∈ ts, ¬PoolBlocked (k.killThreadLocked M u).sched v := fun v hv hp =>
        hpool v (List.mem_cons_of_mem u hv) (hkill.stirs.poolBlocked hp)
      by_cases htu : t = u
      · subst htu
        exact ((foldl_kill_passage ts hc'.placed hpool').sinks t id).doomed
          (doomed_killThreadLocked hc.hthread_lt)
      · have hmem : t ∈ ts := (List.mem_cons.mp ht).resolve_left htu
        exact doomed_foldl_kill ts hc' hpool' t hmem

theorem doomed_killVm {vm : ℕ} {status : ℤ} {b : β} (hc : Coherent M k)
    (hme : k.hw.sgp h = some me) (hb : KillsVm M vm me b)
    (hsafe : Safe M h (.trap (.vmopKillVm vm status)) k)
    (hkill : k.exec M h (.trap (.vmopKillVm vm status)) = some (.returned 0, k'))
    (ht : M.vmblock t = b) : Doomed k' t := by
  have htarget := hsafe me hme
  rw [exec, if_pos (enabled_of_exec hkill), perform, hme, Option.bind_some, trap] at hkill
  rcases vmopKillVm_cases M me k vm status with ⟨r, hr, heq⟩ | ⟨b', hb', -, heq⟩ <;>
    rw [heq] at hkill <;> cases hkill
  · exact absurd hb (hr rfl b)
  · obtain rfl := (hb' b).mp hb
    have hc₀ : Coherent M (k.stamped b status) := ⟨hc.placed, hc.executes, hc.started, hc.parents⟩
    exact doomed_foldl_kill (M.contexts b) hc₀
      (fun u hu => htarget u ((hb' _).mpr (M.mem_contexts.mp hu))) t (M.mem_contexts.mpr ht)

/-- A killed thread that runs is stopped by the interrupt it was sent. -/
theorem dead_handleInt {intno : ℕ} {expired : List ι} {e : Exit} (hc : Coherent M k)
    (hlatched : k.hw.latched h = some (intno, .vmIpi)) (hme : k.hw.sgp h = some me)
    (hkill : k.threads.kill me = true)
    (hexec : k.exec M h (.handleInt expired) = some (e, k')) : k'.sched.status me = .dead := by
  rw [exec, if_pos (enabled_of_exec hexec), perform, handleInt_eq hlatched (by simp)] at hexec
  obtain ⟨⟨x, k₁⟩, hrun, hk'⟩ := Option.map_eq_some_iff.mp hexec
  have hc₀ : Coherent M (k.setLatched h none) := hc.setLatched none
  have hdead := ((vmIpiDo_passage hc₀).of_some hrun).2 me hme hkill
  cases x with
  | returned r =>
    cases hk'
    split <;> exact hdead
  | switched =>
    cases hk'
    exact hdead
  | hung =>
    cases hk'
    exact hdead

end Kill

/-! ## Runs without end -/

/-- A run, as the states at successive times; at some times nothing happens. -/
def Run (M : Machine ι β) (C : ℕ → Op ι β → Kernel ι β → Prop) (σ : ℕ → Kernel ι β) : Prop :=
  ∀ n, σ (n + 1) = σ n ∨ ∃ h op e, C h op (σ n) ∧ (σ n).exec M h op = some (e, σ (n + 1))

/-- What is asked of the scheduler and of the hardware: threads of the VM that are ready are
switched to in the end, and an interrupt that was sent is taken by its hardware thread and
handled. -/
structure Fair (M : Machine ι β) (b : β) (σ : ℕ → Kernel ι β) : Prop where
  ready : ∀ n t, M.vmblock t = b → (σ n).sched.status t = .ready →
    ∃ m ≥ n, (σ m).sched.status t ≠ .ready
  ipi : ∀ n h, (σ n).hw.maskForIpi.getLsbD h = true → ∃ m ≥ n, ∃ intno expired e,
    (σ m).hw.latched h = some (intno, .vmIpi) ∧
      (σ m).exec M h (.handleInt expired) = some (e, σ (m + 1))

/-- A safe step that creates no thread of the VM. -/
def Barren (M : Machine ι β) (b : β) (h : ℕ) (op : Op ι β) (k : Kernel ι β) : Prop :=
  Safe M h op k ∧ op.creates M h k ≠ some b

section Runs

variable {M : Machine ι β} {b : β} {σ : ℕ → Kernel ι β} {t : ι}

theorem Run.coherent {C : ℕ → Op ι β → Kernel ι β → Prop} (hσ : Run M C σ)
    (hC : ∀ h op k, C h op k → Safe M h op k) (hc : Coherent M (σ 0)) : ∀ n, Coherent M (σ n)
  | 0 => hc
  | n + 1 => by
      have ih := hσ.coherent hC hc n
      rcases hσ n with heq | ⟨h, op, e, hop, hexec⟩
      · rwa [heq]
      · exact (stepTo_of_exec ih (hC h op _ hop) hexec).coherent

theorem Run.census (hσ : Run M (Barren M b) σ) (hc : Coherent M (σ 0)) (h₀ : Census M (σ 0)) :
    ∀ n, Census M (σ n)
  | 0 => h₀
  | n + 1 => by
      have ih := hσ.census hc h₀ n
      rcases hσ n with heq | ⟨h, op, e, hbarren, hexec⟩
      · rwa [heq]
      · exact (exec_moves (hσ.coherent (fun _ _ _ hop => hop.1) hc n) hbarren.1 hexec).census ih

/-- From any time to any later one the threads of the VM sink. -/
theorem Run.sinks (hσ : Run M (Barren M b) σ) (hc : Coherent M (σ 0))
    (ht : M.vmblock t = b) {n m : ℕ} (hnm : n ≤ m) : Sinks (σ n) (σ m) t := by
  have hself (k : Kernel ι β) : Sinks k k t := (Passage.refl M nobody k).sinks t id
  induction m, hnm using Nat.le_induction with
  | base => exact hself _
  | succ m _ ih =>
    refine ih.trans ?_
    rcases hσ m with heq | ⟨h, op, e, hbarren, hexec⟩
    · rw [heq]
      exact hself _
    · exact (exec_moves (hσ.coherent (fun _ _ _ hop => hop.1) hc m) hbarren.1 hexec).sinks
        (ht ▸ hbarren.2)

theorem Run.dies_of_ready (hσ : Run M (Barren M b) σ) (hc : Coherent M (σ 0)) (hfair : Fair M b σ)
    (ht : M.vmblock t = b) {n : ℕ} (hd : Doomed (σ n) t) (hready : (σ n).sched.status t = .ready) :
    ∃ m, (σ m).sched.status t = .dead := by
  obtain ⟨m, hm, hleft⟩ := hfair.ready n t ht hready
  rcases hσ.sinks hc ht hm hd with hdead | ⟨-, -, hready' | ⟨hrun, -⟩⟩
  · exact ⟨m, hdead⟩
  · exact absurd hready' hleft
  · simp [hready] at hrun

/-- **A doomed thread dies.** -/
theorem Run.dies (hσ : Run M (Barren M b) σ) (hc : Coherent M (σ 0)) (hfair : Fair M b σ)
    (ht : M.vmblock t = b) (hd : Doomed (σ 0) t) : ∃ m, (σ m).sched.status t = .dead := by
  rcases id hd with hdead | ⟨⟨hkill, -⟩, hready | ⟨-, hipi⟩⟩
  · exact ⟨0, hdead⟩
  · exact hσ.dies_of_ready hc hfair ht hd hready
  -- it runs: when its interrupt is handled it is dead or ready, or this is where it runs
  obtain ⟨m, hm, intno, expired, e, hlatched, hexec⟩ := hfair.ipi 0 _ hipi
  rcases hσ.sinks hc ht hm hd with hdead | ⟨-, hd', hready | ⟨-, hrun', hh⟩⟩
  · exact ⟨m, hdead⟩
  · exact hσ.dies_of_ready hc hfair ht hd' hready
  · have hcm := hσ.coherent (fun _ _ _ hop => hop.1) hc m
    have hme : (σ m).hw.sgp ((σ 0).sched.hthread t) = some t := by
      rw [hcm.executes]
      exact hcm.placed.runlist_iff.mpr ⟨hrun', hh⟩
    have hkill' : (σ m).threads.kill t = true := by
      rcases hd' with hdead | ⟨⟨hkill, -⟩, -⟩
      · simp [hrun'] at hdead
      · exact hkill
    exact ⟨m + 1, dead_handleInt hcm hlatched hme hkill' hexec⟩

/-- **The VM ends**: when all of its threads are doomed, none of them waits, and at some time they
are all dead. -/
theorem Run.drains (hσ : Run M (Barren M b) σ) (hc : Coherent M (σ 0)) (hcensus : Census M (σ 0))
    (hfair : Fair M b σ) (hd : ∀ t, M.vmblock t = b → Doomed (σ 0) t) :
    (∀ n t, M.vmblock t = b → ¬Waits (σ n).sched t) ∧ ∃ m, ∀ n ≥ m, (σ n).vms.numCpus b = 0 := by
  constructor
  · intro n t ht
    rintro ⟨hrun, hready, hdead⟩
    rcases (hσ.sinks hc ht (Nat.zero_le n)).doomed (hd t ht) with h | ⟨-, h | ⟨h, -⟩⟩
    · exact hdead h
    · exact hready h
    · exact hrun h
  · choose! death hdeath using fun t (ht : M.vmblock t = b) => hσ.dies hc hfair ht (hd t ht)
    refine ⟨Finset.univ.sup death, fun n hn => ?_⟩
    have hlive : (σ n).live M b = ∅ := by
      refine Finset.filter_eq_empty_iff.mpr fun t _ => ?_
      rintro ⟨ht, hlive⟩
      have hle : death t ≤ n := (Finset.le_sup (Finset.mem_univ t)).trans hn
      have hdead := hdeath t ht
      rcases hσ.sinks hc ht hle (.inl hdead) with h | ⟨h, -⟩
      · exact hlive h
      · exact h hdead
    rw [hσ.census hc hcensus n b, hlive]
    rfl

end Runs

/-! ## From boot on -/

section Boot

variable {M : Machine ι β} {timerIntnum : ℕ} {mask : BitVec 32} {cluster : Cluster ι} {bootvm : β}
  {e : Exit} {k₀ k : Kernel ι β}

theorem Reached.census (hc : Coherent M k₀) (h₀ : Census M k₀) (hk : Reached M (Safe M) k₀ k) :
    Census M k := by
  induction hk with
  | init => exact h₀
  | step hk hsafe hexec ih =>
    exact (exec_moves (hk.coherent (fun _ _ _ => id) hc) hsafe hexec).census ih

end Boot

/-- **Killing a VM drains it.** -/
theorem drains_of_killed (M : Machine ι β) (timerIntnum : ℕ) (mask : BitVec 32)
    (cluster : Cluster ι)
    (bootvm : β) (hmask : mask.getLsbD 0 = true) {e : Exit} {k₀ k : Kernel ι β}
    (hboot : boot M timerIntnum mask cluster bootvm = some (e, k₀))
    (hk : Reached M (Safe M) k₀ k) {h vm : ℕ} {me : ι} {b : β} {status : ℤ}
    (hme : k.hw.sgp h = some me) (hb : KillsVm M vm me b)
    (hsafe : Safe M h (.trap (.vmopKillVm vm status)) k) {σ : ℕ → Kernel ι β}
    (hkill : k.exec M h (.trap (.vmopKillVm vm status)) = some (.returned 0, σ 0))
    (hσ : Run M (Barren M b) σ) (hfair : Fair M b σ) :
    (∀ n t, M.vmblock t = b → ¬Waits (σ n).sched t) ∧ ∃ m, ∀ n ≥ m, (σ n).vms.numCpus b = 0 := by
  have hc := hk.coherent (fun _ _ _ => id) (coherent_boot hmask hboot)
  have hcensus := hk.census (coherent_boot hmask hboot) (census_boot hmask hboot)
  exact hσ.drains (stepTo_of_exec hc hsafe hkill).coherent
    ((exec_moves hc hsafe hkill).census hcensus) hfair fun t => doomed_killVm hc hme hb hsafe hkill

/-! ## Runs that come to rest

A finite run after which nothing happens any more. -/

/-- A step of a hardware thread, whatever it returns. -/
def Kernel.step (M : Machine ι β) (a : ℕ × Op ι β) (k : Kernel ι β) : Option (Kernel ι β) :=
  (k.exec M a.1 a.2).map Prod.snd

/-- The states a sequence of steps goes through. -/
def Kernel.trace (M : Machine ι β) (ops : List (ℕ × Op ι β)) (k : Kernel ι β) : ℕ → Kernel ι β :=
  H2.trace (step M) ops k

/-- Interrupts sent are taken back by being handled, and in the end there is none. -/
def Kernel.served (M : Machine ι β) : List (ℕ × Op ι β) → Kernel ι β → Bool
  | [], k => k.hw.maskForIpi == 0#32
  | (h, op) :: ops, k =>
    match k.exec M h op with
    | some p =>
      let gone := k.hw.maskForIpi &&& ~~~p.2.hw.maskForIpi
      (gone == 0#32 ||
        match op, k.hw.latched h with
        | .handleInt _, some (_, .vmIpi) => gone &&& ~~~(1#32 <<< h) == 0#32
        | _, _ => false) && served M ops p.2
    | none => false

section Trace

variable {M : Machine ι β} {C : ℕ → Op ι β → Kernel ι β → Prop}
  {test : ℕ → Op ι β → Kernel ι β → Bool} {b : β}

theorem Kernel.trace_zero (M : Machine ι β) (ops : List (ℕ × Op ι β)) (k : Kernel ι β) :
    k.trace M ops 0 = k := H2.trace_zero ..

theorem Kernel.trace_succ {h : ℕ} {op : Op ι β} {ops : List (ℕ × Op ι β)} {k k' : Kernel ι β}
    {e : Exit} (hexec : k.exec M h op = some (e, k')) (n : ℕ) :
    k.trace M ((h, op) :: ops) (n + 1) = k'.trace M ops n :=
  H2.trace_succ (by simp [step, hexec]) n

theorem Kernel.runIf_eq : ∀ (ops : List (ℕ × Op ι β)) (k : Kernel ι β),
    k.runIf M test ops = H2.runIf (step M) (fun a => test a.1 a.2) ops k
  | [], _ => rfl
  | (h, op) :: ops, k => by
      rw [runIf, H2.runIf, step, Option.bind_map]
      simp only [runIf_eq ops]
      rfl

theorem Run.trace (htest : ∀ h op k, test h op k = true → C h op k) {ops : List (ℕ × Op ι β)}
    {k k' : Kernel ι β} (hrun : k.runIf M test ops = some k') :
    Run M C (k.trace M ops) ∧ ∀ n ≥ ops.length, k.trace M ops n = k' := by
  rw [runIf_eq] at hrun
  obtain ⟨hpath, hend⟩ := Path.trace (C := fun a => C a.1 a.2) (fun a => htest a.1 a.2) hrun
  refine ⟨fun n => (hpath n).imp id ?_, hend⟩
  rintro ⟨⟨h, op⟩, hC, hstep⟩
  obtain ⟨⟨e, k₁⟩, hexec, hk₁⟩ := Option.map_eq_some_iff.mp hstep
  refine ⟨h, op, e, hC, hexec.trans ?_⟩
  rw [Kernel.trace, ← hk₁]

theorem Kernel.served_ipi : ∀ {ops : List (ℕ × Op ι β)} {k : Kernel ι β}, k.served M ops = true →
    ∀ n h, (k.trace M ops n).hw.maskForIpi.getLsbD h = true → ∃ m ≥ n, ∃ intno expired e,
      (k.trace M ops m).hw.latched h = some (intno, .vmIpi) ∧
        (k.trace M ops m).exec M h (.handleInt expired) = some (e, k.trace M ops (m + 1))
  | [], k, hserved, n, h, hbit => by
      rw [served, beq_iff_eq] at hserved
      rw [Kernel.trace, H2.trace, hserved] at hbit
      simp at hbit
  | (h₀, op) :: ops, k, hserved, n, h, hbit => by
      rw [served] at hserved
      split at hserved
      · next p hexec =>
        simp only [Bool.and_eq_true, Bool.or_eq_true] at hserved
        obtain ⟨hgone, hrest⟩ := hserved
        -- a later state of the run is a state of the rest
        have hlater (n : ℕ) (hbit : (p.2.trace M ops n).hw.maskForIpi.getLsbD h = true) :
            ∃ m ≥ n + 1, ∃ intno expired e,
              (k.trace M ((h₀, op) :: ops) m).hw.latched h = some (intno, .vmIpi) ∧
                (k.trace M ((h₀, op) :: ops) m).exec M h (.handleInt expired) =
                  some (e, k.trace M ((h₀, op) :: ops) (m + 1)) := by
          obtain ⟨m, hm, hstep⟩ := served_ipi hrest n h hbit
          refine ⟨m + 1, by omega, ?_⟩
          rw [Kernel.trace_succ hexec, Kernel.trace_succ (e := p.1) hexec]
          exact hstep
        cases n with
        | succ n =>
          rw [Kernel.trace_succ hexec] at hbit
          obtain ⟨m, hm, hstep⟩ := hlater n hbit
          exact ⟨m, hm, hstep⟩
        | zero =>
          rw [Kernel.trace_zero] at hbit
          by_cases hbit' : p.2.hw.maskForIpi.getLsbD h = true
          · obtain ⟨m, hm, hstep⟩ := hlater 0 (by rwa [Kernel.trace_zero])
            exact ⟨m, by omega, hstep⟩
          have hgone' : (k.hw.maskForIpi &&& ~~~p.2.hw.maskForIpi).getLsbD h = true := by
            rw [Bool.not_eq_true] at hbit'
            rw [BitVec.getLsbD_and, BitVec.getLsbD_not, hbit, hbit',
              decide_eq_true (BitVec.lt_of_getLsbD hbit)]
            rfl
          rcases hgone with hzero | hipi
          · rw [beq_iff_eq] at hzero
            simp [hzero] at hgone'
          · split at hipi
            · next expired intno hlatched =>
              rw [beq_iff_eq] at hipi
              have hh : h = h₀ := by
                by_contra hne
                rw [← getLsbD_clearBit _ hne, hipi] at hgone'
                simp at hgone'
              subst hh
              refine ⟨0, le_rfl, intno, expired, p.1, ?_⟩
              rw [Kernel.trace_zero, Kernel.trace_succ (e := p.1) hexec, Kernel.trace_zero]
              exact ⟨hlatched, hexec⟩
            · simp at hipi
      · simp at hserved

theorem Fair.trace {ops : List (ℕ × Op ι β)} {k k' : Kernel ι β}
    (hend : ∀ n ≥ ops.length, k.trace M ops n = k') (hserved : k.served M ops = true)
    (hready : ∀ t, M.vmblock t = b → k'.sched.status t ≠ .ready) : Fair M b (k.trace M ops) := by
  refine ⟨fun n t ht _ => ⟨max n ops.length, le_max_left .., ?_⟩, served_ipi hserved⟩
  rw [hend _ (le_max_right ..)]
  exact hready t ht

end Trace

/-- A test that a step is safe, and creates no thread: an interrupt of the kernel's own. -/
def ownInterruptTest (h : ℕ) (op : Op ι β) (k : Kernel ι β) : Bool :=
  match op with
  | .start => true
  | .takeInt _ => true
  | .handleInt _ =>
    match k.hw.latched h with
    | some (_, .resched) => true
    | some (_, .vmIpi) => true
    | _ => false
  | _ => false

/-- With that, creating a thread and waiting, for an interrupt or on a futex, are safe. -/
def createTest (h : ℕ) (op : Op ι β) (k : Kernel ι β) : Bool :=
  match op with
  | .trap (.create ..) => true
  | .trap .vmwait => true
  | .trap (.futexWait ..) => true
  | _ => ownInterruptTest h op k

section

omit dι dβ fι

theorem safe_of_createTest (M : Machine ι β) (h : ℕ) (op : Op ι β) (k : Kernel ι β)
    (htest : createTest h op k = true) : Safe M h op k := by
  unfold createTest at htest
  split at htest
  · exact fun _ _ => trivial
  · exact fun _ _ => trivial
  · exact fun _ _ => trivial
  unfold ownInterruptTest at htest
  split at htest
  · trivial
  · trivial
  · split at htest
    · next hlatched =>
      rintro p hp
      rw [hlatched] at hp
      exact Option.some.inj hp ▸ trivial
    · next hlatched =>
      rintro p hp
      rw [hlatched] at hp
      exact Option.some.inj hp ▸ trivial
    · simp at htest
  · simp at htest

theorem barren_of_ownInterruptTest (M : Machine ι β) (b : β) (h : ℕ) (op : Op ι β) (k : Kernel ι β)
    (htest : ownInterruptTest h op k = true) : Barren M b h op k := by
  cases op with
  | trap t => simp [ownInterruptTest] at htest
  | _ => exact ⟨safe_of_createTest M h _ k htest, by simp [Op.creates]⟩

end

/-- A kill in the middle of a run, which then comes to rest. -/
theorem exists_killed_run {n : ℕ} (mask : BitVec 32) (ops ops' : List (ℕ × Op (Fin (n + 1)) Unit))
    (test : ℕ → Op (Fin (n + 1)) Unit → Kernel (Fin (n + 1)) Unit → Bool)
    (P : Kernel (Fin (n + 1)) Unit → Kernel (Fin (n + 1)) Unit → Kernel (Fin (n + 1)) Unit → Prop)
    (hrun : ∃ p ∈ boot (oneVm n) 3 mask .off (), ∃ k ∈ p.2.runIf (oneVm n) createTest ops,
      ∃ q ∈ k.exec (oneVm n) 0 (.trap (.vmopKillVm vmopKillVmSelf 5)),
      ∃ k' ∈ q.2.runIf (oneVm n) test ops',
        q.1 = .returned 0 ∧ q.2.served (oneVm n) ops' = true ∧ P k q.2 k') :
    ∃ e k₀ k k₁ k', boot (oneVm n) 3 mask .off () = some (e, k₀) ∧
      Reached (oneVm n) (Safe (oneVm n)) k₀ k ∧
      k.exec (oneVm n) 0 (.trap (.vmopKillVm vmopKillVmSelf 5)) = some (.returned 0, k₁) ∧
      k₁.runIf (oneVm n) test ops' = some k' ∧ k₁.served (oneVm n) ops' = true ∧
      P k k₁ k' := by
  obtain ⟨⟨e, k₀⟩, hboot, k, hk, ⟨_, k₁⟩, hkill, k', hk', rfl, hserved, hP⟩ := hrun
  exact ⟨e, k₀, k, k₁, k', hboot, .of_runIf (safe_of_createTest (oneVm n)) .init hk, hkill, hk',
    hserved, hP⟩

/-- Two threads run, are killed and take their interrupts. -/
theorem drains_twoRunning : ∃ e k₀ k σ, boot (oneVm 1) 3 3#32 .off () = some (e, k₀) ∧
    Reached (oneVm 1) (Safe (oneVm 1)) k₀ k ∧ k.vms.numCpus () = 2 ∧
    k.exec (oneVm 1) 0 (.trap (.vmopKillVm vmopKillVmSelf 5)) = some (.returned 0, σ 0) ∧
    Run (oneVm 1) (Barren (oneVm 1) ()) σ ∧ Fair (oneVm 1) () σ ∧
    ∃ m, ∀ n ≥ m, (σ n).vms.numCpus () = 0 := by
  obtain ⟨e, k₀, k, k₁, k', hboot, hk, hkill, hrun, hserved, hme, hlive, hpool, hready⟩ :=
    exists_killed_run 3#32 twoRunning
      [(1, .takeInt 0), (1, .handleInt []), (0, .takeInt 0), (0, .handleInt [])] ownInterruptTest
      (fun k _ k' => k.hw.sgp 0 = some 1 ∧ k.vms.numCpus () = 2 ∧
        (∀ t, k.sched.status t ≠ .intblocked) ∧ ∀ t, k'.sched.status t ≠ .ready) (by decide +kernel)
  obtain ⟨hσ, hend⟩ := Run.trace (barren_of_ownInterruptTest (oneVm 1) ()) hrun
  have hfair : Fair (oneVm 1) () _ := .trace hend hserved fun t _ => hready t
  have hsafe : Safe (oneVm 1) 0 (.trap (.vmopKillVm vmopKillVmSelf 5)) k :=
    fun _ _ t _ hp => hpool t hp.1
  exact ⟨e, k₀, k, _, hboot, hk, hlive, hkill, hσ, hfair, (drains_of_killed (oneVm 1) 3 3#32 .off ()
    (by decide) hboot hk hme (by simp [KillsVm]) hsafe hkill hσ hfair).2⟩

/-- Two threads of three cpus, each on a hardware thread. -/
def twoOfThree : List (ℕ × Op (Fin 3) Unit) :=
  [(1, .start), (0, .trap (.create 0 0 0 0 true)), (1, .takeInt 1), (1, .handleInt [])]

/-- One of them creates a third and is stopped, the third waits, and the other is stopped. -/
def createThenWait : List (ℕ × Op (Fin 3) Unit) :=
  [(1, .trap (.create 0 0 0 0 true)), (1, .takeInt 0), (1, .handleInt []), (1, .trap .vmwait),
    (0, .takeInt 0), (0, .handleInt [])]

/-- Before it takes its interrupt one of the threads creates a third, which is not marked, and goes
on to wait when the others are dead. -/
theorem drains_fails_create_after_kill : ∃ e k₀ k σ,
    boot (oneVm 2) 3 3#32 .off () = some (e, k₀) ∧
    Reached (oneVm 2) (Safe (oneVm 2)) k₀ k ∧
    k.exec (oneVm 2) 0 (.trap (.vmopKillVm vmopKillVmSelf 5)) = some (.returned 0, σ 0) ∧
    Run (oneVm 2) (Safe (oneVm 2)) σ ∧ Fair (oneVm 2) () σ ∧
    (∃ m, ∀ n ≥ m, Waits (σ n).sched 0) ∧ ∀ n, (σ n).vms.numCpus () ≠ 0 := by
  obtain ⟨e, k₀, k, k₁, k', hboot, hk, hkill, hrun, hserved, hready, hwait, hcount, hcount'⟩ :=
    exists_killed_run 3#32 twoOfThree createThenWait createTest
      (fun _ k₁ k' => (∀ t, k'.sched.status t ≠ .ready) ∧ k'.sched.status 0 = .vmwait ∧
        (∀ n : Fin 6, (k₁.trace (oneVm 2) createThenWait n).vms.numCpus () ≠ 0) ∧
        k'.vms.numCpus () ≠ 0) (by decide +kernel)
  obtain ⟨hσ, hend⟩ := Run.trace (safe_of_createTest (oneVm 2)) hrun
  have hfair : Fair (oneVm 2) () _ := .trace hend hserved fun t _ => hready t
  refine ⟨e, k₀, k, _, hboot, hk, hkill, hσ, hfair, ⟨6, fun n hn => ?_⟩, fun n => ?_⟩
  · rw [hend n hn]
    simp [Waits, hwait]
  · rcases Nat.lt_or_ge n 6 with hn | hn
    · exact hcount ⟨n, hn⟩
    · rw [hend n hn]
      exact hcount'

end H2
