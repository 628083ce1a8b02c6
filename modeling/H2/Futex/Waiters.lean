import H2.Futex.Order
import H2.Futex.Resume
import H2.Machinery.Threads

/-!
# Futex/Waiters — the queue of one word

Of the buckets and rings of the kernel, who builds a lock over a word sees only the queue of threads
that wait on that word.  The wake-up trap takes the first off it (`futexResume_waiters`); the
waiting trap compares, and lets the thread join it behind those that are as good
(`futexWait_waiters`).  Where the order does not matter, what counts is who sleeps
(`futexResume_sleepers`, `futexWait_sleepers`), and a program in which the sleepers are at certain
places sees them go on from there (`futexResume_threadsAt`, `futexWait_threadsAt`).
-/

namespace H2

open Function

variable {ι β : Type} [DecidableEq ι] [dβ : DecidableEq β] [fι : Fintype ι]

variable {M : Machine ι β} {k : Kernel ι β} {t : ι} {a : ℕ}

omit dβ in
theorem mem_waiters (hs : Placed M k.sched) {x : ℕ} :
    t ∈ k.sched.waiters x ↔ k.sched.status t = .blocked ∧ k.sched.futexPtr t = x := by
  unfold Sched.waiters
  rw [List.mem_filter, hs.mem_bucket, decide_eq_true_iff]
  constructor
  · rintro ⟨⟨hst, -⟩, hx⟩
    exact ⟨hst, hx⟩
  · rintro ⟨hst, rfl⟩
    exact ⟨⟨hst, rfl⟩, rfl⟩

omit dβ in
theorem nodup_waiters (hs : Placed M k.sched) (x : ℕ) : (k.sched.waiters x).Nodup :=
  (hs.nodup_queue _).filter _

omit fι in
/-- Who is not among the first is behind them. -/
theorem filter_notMem_take {l : List ι} (hl : l.Nodup) (n : ℕ) :
    l.filter (· ∉ l.take n) = l.drop n := by
  conv_lhs => arg 2; rw [← List.take_append_drop n l]
  rw [List.filter_append, List.filter_eq_nil_iff.mpr (by simp), List.nil_append,
    List.filter_eq_self]
  intro x hx
  have hdisj := List.disjoint_take_drop hl (le_refl n)
  simpa using fun hx' => hdisj hx' hx

/-- A kernel in which a wake-up for the word at `a` finds its waiters. -/
structure Wakeable (M : Machine ι β) (k : Kernel ι β) (a : ℕ) : Prop where
  placed : Placed M k.sched
  futexPtr_lt : ∀ t, k.sched.status t = .blocked → k.sched.futexPtr t < 0x400000000
  lt : a < 0x1000000000

/-- Thread `t`, on hardware thread `h`, may begin to wait on the word at `a`. -/
structure MayWait (M : Machine ι β) (k : Kernel ι β) (h : ℕ) (t : ι) (a : ℕ) : Prop where
  coherent : Coherent M k
  sgp : k.hw.sgp h = some t
  vmwork : k.threads.vmwork t = false
  lt : a < 0x1000000000

/-- **The wake-up trap** takes the first off the queue and answers how many. -/
theorem futexResume_waiters (ha : Wakeable M k a) (nToWake : ℕ) :
    ∃ k', k.futexResume (some a) nToWake =
        some (.returned (min nToWake (k.sched.waiters (a / 4)).length : ℕ), k') ∧
      k'.sched.waiters (a / 4) = (k.sched.waiters (a / 4)).drop nToWake ∧ Placed M k'.sched := by
  obtain ⟨k', hk', hwoken⟩ := futexResume_woken ha.placed ha.futexPtr_lt ha.lt nToWake
  refine ⟨k', hk', ?_, hwoken.placed⟩
  have hptrs : k'.sched.futexPtr = k.sched.futexPtr := by
    obtain ⟨R, st, valids, hfields⟩ := hwoken.fields
    rw [hfields]
  rw [← filter_notMem_take (nodup_waiters ha.placed _), Sched.waiters, hwoken.bucket, hptrs,
    List.filter_filter]
  conv_rhs => arg 2; rw [Sched.waiters]
  rw [List.filter_filter]
  exact List.filter_congr fun u _ => Bool.and_comm ..

/-- **The waiting trap** compares: the thread comes back, or it joins the queue. -/
theorem futexWait_waiters {h readval val : ℕ} (ht : MayWait M k h t a) :
    readval ≠ val ∧ k.futexWait M (some a) readval val t h = some (.returned (-1), k) ∨
      readval = val ∧ ∃ k' : Kernel ι β, k.futexWait M (some a) readval val t h = k'.dosched M h ∧
        Placed M k'.sched ∧
        (∀ u, u ∈ k'.sched.waiters (a / 4) ↔ u = t ∨ u ∈ k.sched.waiters (a / 4)) ∧
        (InOrder k →
          Inserts k.sched.prio t (k.sched.waiters (a / 4)) (k'.sched.waiters (a / 4))) := by
  obtain ⟨hc, hme, hwork, ha⟩ := ht
  unfold Kernel.futexWait
  rw [if_neg (by simp [hwork])]
  simp only
  by_cases heq : readval = val
  · right
    have hlt : a / 4 < 0x400000000 := by omega
    obtain ⟨k', hadd, hl⟩ := futexEnqueue_leaves hc hme hlt
    refine ⟨heq, k', ?_, hl.between.placed, fun u => ?_, fun hord => ?_⟩
    · rw [if_neg (by simpa using heq), Kernel.futexBlock, hadd, Option.bind_some,
        (hc.running hme).2]
    · rw [mem_waiters hl.between.placed, mem_waiters hc.placed]
      obtain ⟨s', hs', rfl⟩ := Option.map_eq_some_iff.mp hadd
      obtain ⟨R, rfl⟩ := futexHashAddRing_fields hs'
      by_cases hut : u = t
      · subst hut
        simp [Nat.mod_eq_of_lt hlt]
      · simp [hut]
    · obtain ⟨hins, -, -⟩ := futexEnqueue_inserts hc hme hord hadd
      obtain ⟨s', hs', rfl⟩ := Option.map_eq_some_iff.mp hadd
      obtain ⟨R, rfl⟩ := futexHashAddRing_fields hs'
      have hout : t ∉ k.sched.queue (.futex (futexHashval (a / 4))) := by
        rw [hc.placed.mem_bucket, (hc.running hme).1]
        simp
      have hsame : k.sched.waiters (a / 4) = (k.sched.queue (.futex (futexHashval (a / 4)))).filter
          (update k.sched.futexPtr t (a / 4 % 0x400000000) · = a / 4) :=
        List.filter_congr fun u hu => by
          have hut : u ≠ t := fun hut => hout (hut ▸ hu)
          rw [update_of_ne hut]
      rw [hsame]
      exact hins.filter_of_pos (by simp [Nat.mod_eq_of_lt hlt])
  · exact .inl ⟨heq, if_pos heq⟩

/-! ## Who sleeps -/

/-- The threads that sleep on the word at `a`. -/
def Kernel.sleepers (a : ℕ) (k : Kernel ι β) : Finset ι := (k.sched.waiters (a / 4)).toFinset

/-- **The wake-up trap** takes as many of the sleepers as it is asked for. -/
theorem futexResume_sleepers (ha : Wakeable M k a) (nToWake : ℕ) :
    ∃ (W : Finset ι) (k' : Kernel ι β), W ⊆ k.sleepers a ∧
      W.card = min nToWake (k.sleepers a).card ∧
      k.futexResume (some a) nToWake = some (.returned (W.card : ℕ), k') ∧
      Placed M k'.sched ∧ k'.sleepers a = k.sleepers a \ W := by
  obtain ⟨k', hk', hdrop, hs'⟩ := futexResume_waiters ha nToWake
  unfold Kernel.sleepers
  set queue := k.sched.waiters (a / 4)
  have hnodup : queue.Nodup := nodup_waiters ha.placed _
  have hcard : (queue.take nToWake).toFinset.card = min nToWake queue.length := by
    rw [List.toFinset_card_of_nodup (hnodup.sublist (List.take_sublist ..)), List.length_take]
  refine ⟨(queue.take nToWake).toFinset, k', fun u hu => ?_, ?_, hcard ▸ hk', hs', ?_⟩
  · exact List.mem_toFinset.mpr (List.mem_of_mem_take (List.mem_toFinset.mp hu))
  · rw [hcard, List.toFinset_card_of_nodup hnodup]
  · ext u
    rw [hdrop, ← filter_notMem_take hnodup]
    simp

/-- **The waiting trap** compares: the thread comes back, or it sleeps, too. -/
theorem futexWait_sleepers {h readval val : ℕ} (ht : MayWait M k h t a) :
    readval ≠ val ∧ k.futexWait M (some a) readval val t h = some (.returned (-1), k) ∨
      readval = val ∧ ∃ k' : Kernel ι β, k.futexWait M (some a) readval val t h = k'.dosched M h ∧
        Placed M k'.sched ∧ k'.sleepers a = insert t (k.sleepers a) := by
  rcases futexWait_waiters ht with hback | ⟨heq, k', hk', hs', hmem, -⟩
  · exact .inl hback
  · refine .inr ⟨heq, k', hk', hs', ?_⟩
    ext u
    simp [Kernel.sleepers, hmem]

/-- The waiting trap comes back, or goes on to another thread, and leaves the sleepers `S`. -/
def Kernel.WaitLeaves (M : Machine ι β) (k : Kernel ι β) (h : ℕ) (t : ι) (a : ℕ) (x y : BitVec 32)
    (S : Finset ι) : Prop :=
  k.futexWait M (some a) x.toNat y.toNat t h = some (.returned (-1), k) ∧ S = k.sleepers a ∨
    ∃ k' : Kernel ι β, k.futexWait M (some a) x.toNat y.toNat t h = k'.dosched M h ∧
      S = k'.sleepers a

/-! ## Threads in a program -/

section Programs

variable {P : Type} {sleeps : P → Bool} {pc : ι → P}

/-- **The wake-up trap**: sleepers go `back`, and who has woken them goes on at `c`. -/
theorem futexResume_threadsAt (ha : Wakeable M k a) (hk : threadsAt sleeps pc = k.sleepers a)
    (nToWake : ℕ) (back : P → P) (c : P) (hback : ∀ d, sleeps d → sleeps (back d) = false)
    (ht : sleeps (pc t) = false) (hc : sleeps c = false) : ∃ (W : Finset ι) (k' : Kernel ι β),
      k.futexResume (some a) nToWake = some (.returned (W.card : ℕ), k') ∧
      (W ⊆ threadsAt sleeps pc ∧ W.card = min nToWake (threadsAt sleeps pc).card) ∧
      threadsAt sleeps (update (fun u => if u ∈ W then back (pc u) else pc u) t c) =
        k'.sleepers a := by
  obtain ⟨W, k', hW, hcard, hk', -, hleft⟩ := futexResume_sleepers ha nToWake
  rw [← hk] at hW hcard hleft
  refine ⟨W, k', hk', ⟨hW, hcard⟩, ?_⟩
  have hsent := threadsAt_send fun u hu => hback _ (mem_threadsAt.mp (hW hu))
  rw [hleft, ← hsent]
  refine threadsAt_update_of_eq ?_
  split
  · rw [hc, hback _ (mem_threadsAt.mp (hW ‹_›))]
  · rw [hc, ht]

/-- **The waiting trap**: the thread goes on at `c'`, or sleeps at `c`. -/
theorem futexWait_threadsAt {h : ℕ} {x y : BitVec 32} (ha : MayWait M k h t a)
    (hk : threadsAt sleeps pc = k.sleepers a) {c c' : P} (ht : sleeps (pc t) = false)
    (hc : sleeps c = true) (hc' : sleeps c' = false) :
    k.WaitLeaves M h t a x y (threadsAt sleeps (update pc t (if x = y then c else c'))) := by
  rcases futexWait_sleepers ha with ⟨hne, hret⟩ | ⟨heq, k', hk', -, hjoin⟩
  · refine .inl ⟨hret, ?_⟩
    rw [if_neg fun h => hne (congrArg BitVec.toNat h)]
    exact (threadsAt_update_of_eq (hc'.trans ht.symm)).trans hk
  · refine .inr ⟨k', hk', ?_⟩
    rw [if_pos (BitVec.eq_of_toNat_eq heq), hjoin, ← hk]
    exact threadsAt_update_of_pos hc

end Programs

end H2
