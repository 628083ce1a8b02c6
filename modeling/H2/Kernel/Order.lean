import H2.Futex.Order
import H2.Kernel.Drain

/-!
# Kernel/Order — the buckets along a run

Whatever steps are made, a thread gets into a futex bucket by blocking and in no other way, and its
place in it changes when it is raised and at no other time.  So every bucket is in order in every
state of a run, and of two threads with the same priority the one that has waited longer is first.
-/

namespace H2

variable {ι β : Type} [dι : DecidableEq ι] [dβ : DecidableEq β] [fι : Fintype ι]

section Steps

variable {M : Machine ι β} {k k' : Kernel ι β} {h : ℕ} {op : Op ι β} {me : ι}

theorem Passage.steady {X : ι → Prop} (hk' : Passage M X k k')
    (hnd : ∀ v, (k.sched.queue (.futex v)).Nodup) (hs' : Placed M k'.sched) (hord : InOrder k) :
    Steady k k' :=
  .of_sublist hnd hord hk'.queues fun _ t ht => (hk'.blocked t (hs'.mem_bucket.mp ht).1).1

/-- What begins is a wait on a futex, or nothing to the buckets. -/
theorem Begins.cases_bucket (hc : Coherent M k) (hb : Begins M h op k k') :
    ((∀ v, k'.sched.queue (.futex v) = k.sched.queue (.futex v)) ∧
      ∀ t, k.sched.status t = .blocked → k'.sched.prio t = k.sched.prio t) ∨
    ∃ me k₁ a, (op ≠ .trap .vmwait ∧ op ≠ .trap .intpoolWait) ∧ k.hw.sgp h = some me ∧
      a < 0x400000000 ∧ (k₁ = k ∨ ∃ word, k.futexPiRaise M (k.sched.prio me) word = some k₁) ∧
      k₁.futexEnqueue a me = some k' := by
  cases hb with
  | nothing => exact .inl ⟨fun _ => rfl, fun _ _ => rfl⟩
  | futexWait val hme hspared ha hk' =>
    have := safemem_lt ha
    exact .inr ⟨_, k, _, by simp, hme, by omega, .inl rfl, hk'⟩
  | futexLockPi hme hspared ha hk₁ hk' =>
    have := safemem_lt ha
    exact .inr ⟨_, _, _, by simp, hme, by omega, .inr ⟨_, hk₁⟩, hk'⟩
  | popup hme hspared hlt hnull =>
    rw [Sched.writeHandler_eq hlt]
    exact .inl ⟨fun _ => rfl, fun _ _ => rfl⟩
  | @intpool _ me hme hspared =>
    refine .inl ⟨fun v => ?_, fun _ _ => rfl⟩
    have hhand := hc.placed.runlistRemove (hc.running hme).1
    have hqueue := hhand.queue_append (.intpool (M.vmblock me))
    exact (congrFun hqueue _).trans (Function.update_of_ne (by simp) ..)
  | vmwait hme hspared => exact .inl ⟨fun _ => rfl, fun _ _ => rfl⟩
  | create hop hfree hk' =>
    refine .inl ⟨hk'.queues, fun t ht => (hk'.others t ?_).2.2.1⟩
    rintro rfl
    simp [hk'.dead] at ht
  | configure enable hlt hpopup =>
    rw [Sched.writeHandler_eq hlt]
    exact .inl ⟨fun _ => rfl, fun _ _ => rfl⟩

/-- **What begins** keeps the buckets in order, and no more than one thread joins. -/
theorem Begins.steady (hc : Coherent M k) (hb : Begins M h op k k') (hord : InOrder k) :
    Steady k k' ∧ (∀ v, (k'.sched.queue (.futex v)).Nodup) ∧
      ∃ joins, ∀ v t, t ∈ k'.sched.queue (.futex v) →
        t ∈ k.sched.queue (.futex v) ∨ joins = some t := by
  rcases hb.cases_bucket hc with ⟨hqueue, hprio⟩ | ⟨me, k₁, a, -, hme, ha, hk₁, hk'⟩
  · refine ⟨.of_same hc.placed hord hqueue hprio, fun v => ?_, none, fun v t ht => ?_⟩
    · rw [hqueue]
      exact hc.placed.nodup_queue _
    · exact .inl (hqueue v ▸ ht)
  · -- the owner is raised, if there is one
    obtain ⟨hc₁, hme₁, hsteady, hmem⟩ : Coherent M k₁ ∧ k₁.hw.sgp h = some me ∧ Steady k k₁ ∧
        ∀ v t, t ∈ k₁.sched.queue (.futex v) ↔ t ∈ k.sched.queue (.futex v) := by
      rcases hk₁ with rfl | ⟨word, hraise⟩
      · exact ⟨hc, hme, .of_same hc.placed hord (fun _ => rfl) fun _ _ => rfl, fun _ _ => Iff.rfl⟩
      · obtain ⟨k₂, hraise', hc₂, -, hsgp, -⟩ :=
          futexPiRaise_coherent hc (hc.placed.prios.prio_le me) word
        obtain rfl := Option.some.inj (hraise.symm.trans hraise')
        refine ⟨hc₂, hsgp ▸ hme, futexPiRaise_steady hc hord hraise, fun v t => ?_⟩
        obtain ⟨R, p, rp, rv, pm, im, rfl⟩ := futexPiRaise_fields hraise
        rw [hc₂.placed.mem_bucket, hc.placed.mem_bucket]
    obtain ⟨hjoin, hmem'⟩ := futexEnqueue_steady hc₁ hme₁ hsteady.inOrder hk'
    have hprio := (futexEnqueue_inserts hc₁ hme₁ hsteady.inOrder hk').2.2
    obtain ⟨k₂, hk₂, hleaves⟩ := futexEnqueue_leaves hc₁ hme₁ ha
    obtain rfl := Option.some.inj (hk'.symm.trans hk₂)
    refine ⟨fun v => ?_, fun v => hleaves.between.placed.nodup_queue _, some me, fun v t ht => ?_⟩
    · exact (hsteady v).trans (hjoin v) (fun t _ => by rw [hprio]) fun t _ ht => (hmem v t).mpr ht
    · rcases hmem' v t ht with rfl | ht
      · exact .inr rfl
      · exact .inl ((hmem v t).mp ht)

theorem Moves.steady (hm : Moves M h op k k') (hc : Coherent M k) (hc' : Coherent M k')
    (hord : InOrder k) : Steady k k' ∧ ∃ joins, ∀ v t, t ∈ k'.sched.queue (.futex v) →
      t ∈ k.sched.queue (.futex v) ∨ joins = some t := by
  obtain ⟨k₁, k₂, hk₁, hc₁, hop, hb, hk'⟩ := hm.split
  have hnd (v : ℕ) := hc.placed.nodup_queue (.futex v)
  have hfirst := hk₁.steady hnd hc₁.placed hord
  obtain ⟨hsteady, hnd₂, joins, hjoins⟩ := hb.steady hc₁ hfirst.inOrder
  have hlast := hk'.steady hnd₂ hc'.placed hsteady.inOrder
  have hprio (v : ℕ) (t : ι) (ht : t ∈ k'.sched.queue (.futex v)) :
      k'.sched.prio t = k₂.sched.prio t :=
    (hk'.blocked t (hc'.placed.mem_bucket.mp ht).1).1
  refine ⟨fun v => ?_, joins, fun v t ht => ?_⟩
  · refine Stable.trans ?_ (hlast v) (hprio v) fun t ht _ => (hk'.queues v).subset ht
    rcases hop with rfl | hop
    · exact hsteady v
    · -- these waits are not on futexes
      rcases hb.cases_bucket hc₁ with ⟨hqueue, hsame⟩ | ⟨-, -, -, hother, -⟩
      · refine (hfirst v).trans (hsteady v) (fun t ht => hsame t ?_) fun t ht _ => hqueue v ▸ ht
        rw [hqueue] at ht
        exact (hc₁.placed.mem_bucket.mp ht).1
      · exact absurd hop (not_or.mpr hother)
  · exact (hjoins v t ((hk'.queues v).subset ht)).imp (fun ht => (hk₁.queues v).subset ht) id

end Steps

/-! ## Runs -/

/-- The operations on futexes, and those that cancel a wait on one: a kill, and an interrupt that is
delivered. -/
def OnFutex (M : Machine ι β) (op : Op ι β) (k : Kernel ι β) : Prop :=
  match op with
  | .trap (.futexWait ..) | .trap (.futexResume ..) => True
  | .trap (.futexLockPi ..) | .trap (.futexUnlockPi _) => True
  | .trap (.vmopKillThread id) => ∀ t, KillThreadTarget M id t → k.sched.status t = .blocked
  | .post dst _ | .deliver dst _ => k.sched.status dst = .blocked
  | _ => False

section Runs

variable {M : Machine ι β} {k : Kernel ι β} {h : ℕ} {op : Op ι β} {σ : ℕ → Kernel ι β}
  {C : ℕ → Op ι β → Kernel ι β → Prop}

omit dι dβ fι in
theorem OnFutex.safe (hop : OnFutex M op k) : Safe M h op k := by
  have hpool {t : ι} (ht : k.sched.status t = .blocked) : ¬PoolBlocked k.sched t := fun hp => by
    simp [hp.1] at ht
  unfold OnFutex at hop
  split at hop
  all_goals first | exact fun _ _ => trivial | skip
  · exact fun me _ t ht => hpool (hop t ht)
  · exact fun hp => absurd hp (hpool hop)
  · exact fun hp => absurd hp (hpool hop)
  · exact hop.elim

theorem not_blocked_boot {timerIntnum : ℕ} {mask : BitVec 32} {cluster : Cluster ι} {bootvm : β}
    {e : Exit} (hmask : mask.getLsbD 0 = true)
    (hboot : Kernel.boot M timerIntnum mask cluster bootvm = some (e, k)) (t : ι) :
    k.sched.status t ≠ .blocked := by
  intro hblocked
  obtain ⟨boot, k₁, hpass, -, -, hst, -⟩ := boot_passage hmask hboot
  have hwaits := hpass.waits t
  rw [hblocked, hst, Function.update_apply] at hwaits
  split at hwaits <;> simp at hwaits

omit dβ in
theorem inOrder_of_not_blocked (hs : Placed M k.sched) (hk : ∀ t, k.sched.status t ≠ .blocked) :
    InOrder k := by
  intro v
  have hnil : k.sched.queue (.futex v) = [] := List.eq_nil_iff_forall_not_mem.mpr fun t ht =>
    hk t (hs.mem_bucket.mp ht).1
  rw [hnil]
  exact List.Pairwise.nil

theorem inOrder_boot {timerIntnum : ℕ} {mask : BitVec 32} {cluster : Cluster ι}
    {bootvm : β} {e : Exit} (hmask : mask.getLsbD 0 = true)
    (hboot : Kernel.boot M timerIntnum mask cluster bootvm = some (e, k)) : InOrder k :=
  inOrder_of_not_blocked (coherent_boot hmask hboot).placed (not_blocked_boot hmask hboot)

/-- **Along a run** each step is steady, and at most one thread joins. -/
theorem Run.steady (hσ : Run M C σ) (hC : ∀ h op k, C h op k → Safe M h op k)
    (hc : Coherent M (σ 0)) (hord : InOrder (σ 0)) :
    ∀ n, InOrder (σ n) ∧ Steady (σ n) (σ (n + 1)) ∧ ∃ joins, ∀ v t,
      t ∈ (σ (n + 1)).sched.queue (.futex v) → t ∈ (σ n).sched.queue (.futex v) ∨
      joins = some t := by
  have hstep (n : ℕ) (hn : InOrder (σ n)) : Steady (σ n) (σ (n + 1)) ∧ ∃ joins, ∀ v t,
      t ∈ (σ (n + 1)).sched.queue (.futex v) → t ∈ (σ n).sched.queue (.futex v) ∨
      joins = some t := by
    have hcn := hσ.coherent hC hc
    rcases hσ n with heq | ⟨h, op, e, hop, hexec⟩
    · rw [heq]
      exact ⟨.of_same (hcn n).placed hn (fun _ => rfl) fun _ _ => rfl, none, fun _ _ => .inl⟩
    · exact (exec_moves (hcn n) (hC h op _ hop) hexec).steady (hcn n) (hcn (n + 1)) hn
  have hall (n : ℕ) : InOrder (σ n) := by
    induction n with
    | zero => exact hord
    | succ n ih => exact (hstep n ih).1.inOrder
  exact fun n => ⟨hall n, hstep n (hall n)⟩

end Runs

/-- After step `i` and up to `j` two threads are in a bucket with one and the same priority. -/
def Together (σ : ℕ → Kernel ι β) (v : ℕ) (x y : ι) (p i j : ℕ) : Prop :=
  ∀ n, i < n → n ≤ j → (x ∈ (σ n).sched.queue (.futex v) ∧ y ∈ (σ n).sched.queue (.futex v)) ∧
    (σ n).sched.prio x = p ∧ (σ n).sched.prio y = p

omit dβ in
/-- Equals stay in the order they joined in. -/
theorem Together.before {σ : ℕ → Kernel ι β} (hsteady : ∀ n, Steady (σ n) (σ (n + 1))) {v p i : ℕ}
    {x y : ι} (hx : x ∈ (σ i).sched.queue (.futex v)) (hy : y ∉ (σ i).sched.queue (.futex v)) :
    ∀ {j : ℕ}, i < j → Together σ v x y p i j → [x, y].Sublist ((σ j).sched.queue (.futex v))
  | j + 1, hij, ht => by
      obtain ⟨⟨hx', hy'⟩, hpx', hpy'⟩ := ht (j + 1) hij le_rfl
      rcases Nat.lt_succ_iff_lt_or_eq.mp hij with hlt | rfl
      · have hbefore := Together.before hsteady hx hy hlt fun n hn hle => ht n hn (by omega)
        obtain ⟨-, hpx, hpy⟩ := ht j hlt (by omega)
        exact (hsteady j v).stays hbefore hx' hy' (by rw [hpx, hpx']) (by rw [hpy, hpy'])
          (by rw [hpx, hpy])
      · exact (hsteady i v).joins hx hy hx' hy' (by rw [hpx', hpy'])

/-- **The order of the buckets.**  In every state of a run of futex operations, among any steps that
are safe: each bucket is a ring, sorted from its head; no two threads join at once; and of two that
have had the same priority since the second one joined, the first is before the second. -/
theorem buckets_in_order (M : Machine ι β) (timerIntnum : ℕ) (mask : BitVec 32)
    (cluster : Cluster ι) (bootvm : β) (hmask : mask.getLsbD 0 = true) {e : Exit}
    {σ : ℕ → Kernel ι β} (hboot : Kernel.boot M timerIntnum mask cluster bootvm = some (e, σ 0))
    (hσ : Run M (fun h op k => OnFutex M op k ∨ Safe M h op k) σ) :
    (∀ n v, IsRing (σ n).sched.rings.links ((σ n).sched.rings.head (.futex v))
        ((σ n).sched.queue (.futex v)) ∧
      ((σ n).sched.queue (.futex v)).Pairwise ((σ n).sched.prio · ≤ (σ n).sched.prio ·)) ∧
    (∀ n, ∃ joins, ∀ v t, t ∈ (σ (n + 1)).sched.queue (.futex v) →
      t ∈ (σ n).sched.queue (.futex v) ∨ joins = some t) ∧
    ∀ v x y p i j, x ∈ (σ i).sched.queue (.futex v) → y ∉ (σ i).sched.queue (.futex v) → i < j →
      Together σ v x y p i j → [x, y].Sublist ((σ j).sched.queue (.futex v)) := by
  have hC (h : ℕ) (op : Op ι β) (k : Kernel ι β) (hop : OnFutex M op k ∨ Safe M h op k) :
      Safe M h op k := hop.elim OnFutex.safe id
  have hc := coherent_boot hmask hboot
  have hsteady := hσ.steady hC hc (inOrder_boot hmask hboot)
  refine ⟨fun n v => ⟨(hσ.coherent hC hc n).placed.holds.rep.ring _, (hsteady n).1 v⟩,
    fun n => (hsteady n).2.2, fun v x y p i j hx hy hij ht => ?_⟩
  exact ht.before (fun n => (hsteady n).2.1) hx hy hij

/-- Three threads of one priority wait on one word, one after the other. -/
def threeWait : List (ℕ × Op (Fin 3) Unit) :=
  [(0, .trap (.create 0 0 0 0 true)), (0, .trap (.create 0 0 0 0 true)),
    (0, .trap (.futexWait (identityAccess 0x1000) 0 0)),
    (0, .trap (.futexWait (identityAccess 0x1000) 0 0)),
    (0, .trap (.futexWait (identityAccess 0x1000) 0 0))]

theorem buckets_in_order_threeWait : ∃ e σ, Kernel.boot (oneVm 2) 3 1#32 .off () = some (e, σ 0) ∧
    Run (oneVm 2) (fun h op k => OnFutex (oneVm 2) op k ∨ Safe (oneVm 2) h op k) σ ∧
    (σ 3).sched.queue (.futex (futexHashval 0x400)) = [2] ∧
    [(2 : Fin 3), 1].Sublist ((σ 5).sched.queue (.futex (futexHashval 0x400))) := by
  set_option synthInstance.maxSize 512 in
  have hrun : ∃ p ∈ Kernel.boot (oneVm 2) 3 1#32 .off (),
      ∃ k ∈ p.2.runIf (oneVm 2) createTest threeWait,
        (p.2.trace (oneVm 2) threeWait 3).sched.queue (.futex (futexHashval 0x400)) = [2] ∧
        ∀ n : Fin 6, 3 < n.val →
          (2 ∈ (p.2.trace (oneVm 2) threeWait n).sched.queue (.futex (futexHashval 0x400)) ∧
            1 ∈ (p.2.trace (oneVm 2) threeWait n).sched.queue (.futex (futexHashval 0x400))) ∧
          (p.2.trace (oneVm 2) threeWait n).sched.prio 2 = 0 ∧
            (p.2.trace (oneVm 2) threeWait n).sched.prio 1 = 0 := by decide +kernel
  obtain ⟨⟨e, k₀⟩, hboot, k, hk, hthree, hboth⟩ := hrun
  obtain ⟨hσ, -⟩ := Run.trace (C := fun h op k => OnFutex (oneVm 2) op k ∨ Safe (oneVm 2) h op k)
    (fun h op k ht => .inr (safe_of_createTest (oneVm 2) h op k ht)) hk
  have htogether : Together (k₀.trace (oneVm 2) threeWait) (futexHashval 0x400) 2 1 0 3 5 :=
    fun n hn hle => hboth ⟨n, Nat.lt_succ_of_le hle⟩ hn
  refine ⟨e, _, hboot, hσ, hthree, ?_⟩
  exact (buckets_in_order (oneVm 2) 3 1#32 .off () (by decide) hboot hσ).2.2 _ _ _ 0 3 5
    (by simp [hthree]) (by simp [hthree]) (by decide) htogether

end H2
