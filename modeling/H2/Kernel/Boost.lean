import H2.Kernel.Order

/-!
# Kernel/Boost — the owner of a lock is raised

A thread that has to wait for a priority inheriting lock raises the owner to its own priority before
it goes to sleep, wherever the owner is (`Kernel.futexPiRaise`): it is taken out of its ready ring
and put in front of another, moved up in its bucket, or entered in the runlist with the new
priority.  The threads around it stay as they are and in the order they are in.

One state has been left out.  A virtual cpu that waits for an interrupt is in no ring, so there
would be nothing to re-file, but its priority is not raised either, and it comes back with the old
one (`boost_misses_vmwait`).  In all other states, and if the owner is good enough already, the
owner is boosted (`lockPi_boosts_iff`).
-/

namespace H2

open Function Option

variable {ι β : Type} [dι : DecidableEq ι] [dβ : DecidableEq β] [fι : Fintype ι]

/-- **A thread is filed at its priority**: in the structure of its status, where that goes by
priority. -/
def FiledAtPrio (s : Sched ι β) (t : ι) : Prop :=
  match s.status t with
  | .ready => t ∈ s.queue (.ready (s.prio t)) ∧ Sched.validBit s.readyValids (s.prio t) = true
  | .blocked => ∃ A B, s.queue (.futex (futexHashval (s.futexPtr t))) = A ++ t :: B ∧
      (∀ a ∈ A, s.prio a ≤ s.prio t) ∧ ∀ b ∈ B, s.prio t ≤ s.prio b
  | .running => s.runlist (s.hthread t) = some t ∧ s.runlistPrios (s.hthread t) = s.prio t
  | .intblocked | .vmwait | .dead => True

/-- **The owner is boosted**, by a thread `me` that goes to sleep. -/
structure Boosted (me owner : ι) (k k' : Kernel ι β) : Prop where
  prio : k'.sched.prio owner ≤ k.sched.prio me
  filed : FiledAtPrio k'.sched owner
  /-- The fields of other threads are what they were, … -/
  fields : ∀ t, t ≠ me → t ≠ owner → k'.sched.status t = k.sched.status t ∧
    k'.sched.prio t = k.sched.prio t ∧ k'.sched.hthread t = k.sched.hthread t ∧
    k'.sched.futexPtr t = k.sched.futexPtr t ∧ k'.sched.r00 t = k.sched.r00 t
  threads : k'.threads = k.threads
  /-- … and they stand in their rings as they stood. -/
  order : ∀ r, (k'.sched.queue r).filter (fun t => t ≠ me ∧ t ≠ owner) =
    (k.sched.queue r).filter fun t => t ≠ me ∧ t ≠ owner

/-! ## Leaving and joining, as the others see it -/

section Others

variable {M : Machine ι β} {s s' : Sched ι β} {t : ι} {p : ι → Bool}

omit dι fι in
theorem Inserts.filter {κ : Type} [LinearOrder κ] {key : ι → κ} {l l' : List ι}
    (h : Inserts key t l l') (hp : p t = false) : l'.filter p = l.filter p := by
  obtain ⟨A, B, rfl, rfl, -⟩ := h
  simp [hp]

omit fι in
theorem filter_erase_of_nodup {l : List ι} (hl : l.Nodup) (hp : p t = false) :
    (l.erase t).filter p = l.filter p := by
  rw [hl.erase_eq_filter, List.filter_filter]
  refine List.filter_congr fun u _ => ?_
  by_cases hu : u = t
  · simp [hu, hp]
  · simp [hu]

/-- Joining a bucket, wherever it may be. -/
theorem InHand.filter_futexHashAddRing (hs : InHand M s t) (hp : p t = false) {v : ℕ}
    (hadd : s.futexHashAddRing v t = some s') (r : RingRef β) :
    (s'.queue r).filter p = (s.queue r).filter p := by
  obtain ⟨R, A, B, hadd', hAB, hrep, -⟩ := futexHashAddRing_between v hs.holds.rep hs.not_mem_queue
  obtain rfl := some.inj (hadd.symm.trans hadd')
  rw [Rings.Rep.queue_eq hrep]
  by_cases hr : r = .futex v
  · subst hr
    rw [hAB]
    simp [hp]
  · rw [update_of_ne hr]

omit dι fι in
theorem filter_update {Q : RingRef β → List ι} {r₀ : RingRef β}
    {l : List ι} (h : l.filter p = (Q r₀).filter p) (r : RingRef β) :
    (update Q r₀ l r).filter p = (Q r).filter p := by
  by_cases hr : r = r₀
  · subst hr
    rw [update_self, h]
  · rw [update_of_ne hr]

end Others

/-! ## Raising -/

section Raising

variable {M : Machine ι β} {k k' : Kernel ι β} {word prio : ℕ} {owner : ι}

theorem futexPiRaise_prio (howner : M.idToContext (idFields word) = some owner)
    (hraise : k.futexPiRaise M prio word = some k') : k'.sched.prio =
      if k.sched.prio owner ≤ prio ∨ k.sched.status owner = .vmwait ∨ k.sched.status owner = .dead
      then k.sched.prio else update k.sched.prio owner (prio % 256) := by
  unfold Kernel.futexPiRaise at hraise
  simp only [howner] at hraise
  split at hraise
  · next hle => rw [← some.inj hraise, if_pos (.inl hle)]
  next hgt =>
  split at hraise
  · next hst =>
    rw [if_neg (by simp [hgt, hst])]
    split at hraise
    · rw [← some.inj hraise]
      rfl
    · obtain ⟨s, hs, rfl⟩ := map_eq_some_iff.mp hraise
      obtain ⟨R, rfl⟩ := futexHashAddRing_fields hs
      rfl
  · next hst =>
    rw [if_neg (by simp [hgt, hst]), ← some.inj hraise]
    rfl
  · next hst =>
    rw [if_neg (by simp [hgt, hst]), ← some.inj hraise]
    split <;> rfl
  · next hst =>
    rw [if_neg (by simp [hgt, hst]), ← some.inj hraise]
    rfl
  · next hst => rw [if_pos (.inr (.inl hst)), ← some.inj hraise]
  · next hst => rw [if_pos (.inr (.inr hst)), ← some.inj hraise]

/-- **The others** keep their places in the rings. -/
theorem futexPiRaise_filter (hc : Coherent M k)
    (howner : M.idToContext (idFields word) = some owner)
    (hraise : k.futexPiRaise M prio word = some k') {p : ι → Bool} (hp : p owner = false)
    (r : RingRef β) : (k'.sched.queue r).filter p = (k.sched.queue r).filter p := by
  unfold Kernel.futexPiRaise at hraise
  simp only [howner] at hraise
  split at hraise
  · rw [← some.inj hraise]
  split at hraise
  · next hst =>
    split at hraise
    · rw [← some.inj hraise]
      rfl
    · obtain ⟨s, hs, rfl⟩ := map_eq_some_iff.mp hraise
      have hplaced := hc.placed.setPrio (.inl hst) prio
      have hplace : (k.sched.setPrio owner prio).place M owner =
          .ring (.futex (futexHashval ((k.sched.setPrio owner prio).futexPtr owner))) :=
        place_eq_futex.mpr ⟨hst, rfl⟩
      rw [(hplaced.remove hplace (by simp)).filter_futexHashAddRing hp hs,
        hplaced.queue_remove hplace]
      exact filter_update (filter_erase_of_nodup (hplaced.nodup_queue _) hp) r
  · next hst =>
    rw [← some.inj hraise]
    have hhand := (hc.placed.readyRemove hst).setPrio prio
    have hqueue : ((k.sched.readyRemove owner).setPrio owner prio).queue =
        (k.sched.readyRemove owner).queue := rfl
    rw [hhand.queue_readyInsert, hqueue, hc.placed.queue_readyRemove hst]
    rw [filter_update (List.filter_cons_of_neg (by simp [hp])),
      filter_update (filter_erase_of_nodup (hc.placed.nodup_queue _) hp)]
  · rw [← some.inj hraise]
    split <;> rfl
  · rw [← some.inj hraise]
    rfl
  all_goals rw [← some.inj hraise]

end Raising

/-! ## Raising and going to sleep -/

omit dβ in
/-- Where all threads are in their places and the buckets in order, each thread is filed at its
priority. -/
theorem Placed.filedAtPrio {M : Machine ι β} {s : Sched ι β} (hs : Placed M s)
    (hord : ∀ v, (s.queue (.futex v)).Pairwise (s.prio · ≤ s.prio ·)) (t : ι) :
    FiledAtPrio s t := by
  unfold FiledAtPrio
  split
  · next hst =>
    have hplace : s.place M t = .ring (.ready (s.prio t)) := place_eq_ready.mpr ⟨hst, rfl⟩
    exact ⟨hs.mem_queue.mpr hplace,
      (hs.holds.valids _ (hs.prios.prio_le t)).mpr (hs.holds.head_ne_none hplace)⟩
  · next hst =>
    obtain ⟨A, B, hAB⟩ := List.append_of_mem (hs.mem_bucket.mpr ⟨hst, rfl⟩)
    have hsorted := hord (futexHashval (s.futexPtr t))
    rw [hAB, List.pairwise_append, List.pairwise_cons] at hsorted
    exact ⟨A, B, hAB, fun a ha => hsorted.2.2 a ha t List.mem_cons_self, hsorted.2.1.1⟩
  · next hst =>
    have hrun := hs.holds.run.mpr (place_eq_run.mpr ⟨hst, rfl⟩)
    exact ⟨hrun, hs.prios.slot hrun⟩
  all_goals trivial

/-- A call that has to wait, up to the scheduler. -/
theorem futexLockPi_eq {M : Machine ι β} {k k₁ k' : Kernel ι β} {h a word : ℕ} {me : ι}
    (hwork : k.threads.vmwork me = false) (hheld : word ||| 1 ≠ 1)
    (hraise : k.futexPiRaise M (k.sched.prio me) word = some k₁) (hh : k₁.sched.hthread me = h)
    (hadd : k₁.futexEnqueue (a / 4) me = some k') :
    k.futexLockPi M (some a) word me h = k'.dosched M h := by
  rw [Kernel.futexLockPi, if_neg (by simp [hwork]), if_neg hheld, hraise, bind_some,
    Kernel.futexBlock, hadd, bind_some, hh]

/-- **The owner of a lock is boosted, unless it waits for an interrupt of its virtual cpu with a
worse priority** — by every call of `H2K_futex_lock_pi` that has to wait, when it hands over to the
scheduler. -/
theorem lockPi_boosts_iff {M : Machine ι β} {k : Kernel ι β} {h a word : ℕ} {me owner : ι}
    (hc : Coherent M k) (hord : InOrder k) (hme : k.hw.sgp h = some me)
    (hwork : k.threads.vmwork me = false) (ha : a < 0x1000000000) (hheld : word ||| 1 ≠ 1)
    (howner : M.idToContext (idFields word) = some owner) (hlive : k.sched.status owner ≠ .dead) :
    ∃ k', ((k.futexPiRaise M (k.sched.prio me) word).bind fun k => k.futexEnqueue (a / 4) me) =
      some k' ∧ k.futexLockPi M (some a) word me h = k'.dosched M h ∧
      (Boosted me owner k k' ↔
        (k.sched.status owner = .vmwait → k.sched.prio owner ≤ k.sched.prio me)) := by
  have hle := hc.placed.prios.prio_le me
  obtain ⟨k₁, hraise, hc₁, -, hsgp, -⟩ := futexPiRaise_coherent hc hle word
  have hme₁ : k₁.hw.sgp h = some me := hsgp ▸ hme
  have hord₁ := (futexPiRaise_steady hc hord hraise).inOrder
  obtain ⟨k', hadd, hleaves⟩ := futexEnqueue_leaves hc₁ hme₁ (show a / 4 < 0x400000000 by omega)
  obtain ⟨hins, hother, hprio⟩ := futexEnqueue_inserts hc₁ hme₁ hord₁ hadd
  have hprio₁ := futexPiRaise_prio howner hraise
  obtain ⟨R, p, rp, rv, pm, im, rfl⟩ := futexPiRaise_fields hraise
  refine ⟨k', by rw [hraise, bind_some, hadd],
    futexLockPi_eq hwork hheld hraise (hc₁.running hme₁).2 hadd, fun hb hwait => ?_,
    fun hgood => ?_⟩
  · have hle' := hb.prio
    rwa [hprio, hprio₁, if_pos (.inr (.inl hwait))] at hle'
  · have hsorted := (futexEnqueue_steady hc₁ hme₁ hord₁ hadd).1.inOrder
    obtain ⟨s, hs, rfl⟩ := map_eq_some_iff.mp hadd
    obtain ⟨R, rfl⟩ := futexHashAddRing_fields hs
    refine ⟨?_, hleaves.between.placed.filedAtPrio hsorted owner, fun t ht hto => ?_, rfl,
      fun r => ?_⟩
    · rw [hprio, hprio₁]
      split
      · next hstays =>
        exact hstays.elim id fun hst => hst.elim hgood fun hdead => absurd hdead hlive
      · rw [update_self]
        exact Nat.mod_le _ _
    · have hsame : p t = k.sched.prio t := by
        refine (congrFun hprio₁ t).trans ?_
        split
        · rfl
        · rw [update_of_ne hto]
      simp [ht, hsame]
    · have hraised := futexPiRaise_filter hc howner hraise
        (p := fun t => t ≠ me ∧ t ≠ owner) (by simp) r
      rw [← hraised]
      by_cases hr : r = .futex (futexHashval (a / 4))
      · rw [hr]
        exact hins.filter (by simp)
      · rw [hother r hr]

/-- The id of the first cpu of the boot VM, as a lock holds it. -/
def firstCpuWord : ℕ := 0x4000000

/-- The boot thread creates one of worse priority, which is ready. -/
def ownerReady : List (ℕ × Op (Fin 2) Unit) := [(0, .trap (.create 0 0 0 5 true))]

theorem lockPi_boosts_ready : ∃ e k₀ k k', Kernel.boot (oneVm 1) 3 1#32 .off () = some (e, k₀) ∧
    Reached (oneVm 1) (Safe (oneVm 1)) k₀ k ∧ k.sched.status 0 = .ready ∧ k.sched.prio 0 = 5 ∧
    k.futexLockPi (oneVm 1) (some 0x1000) firstCpuWord 1 0 = k'.dosched (oneVm 1) 0 ∧
    Boosted 1 0 k k' := by
  have hrun : ∃ p ∈ Kernel.boot (oneVm 1) 3 1#32 .off (),
      ∃ k ∈ p.2.runIf (oneVm 1) createTest ownerReady,
      k.hw.sgp 0 = some 1 ∧ k.threads.vmwork 1 = false ∧ k.sched.status 0 = .ready ∧
        k.sched.status 1 = .running ∧ k.sched.prio 0 = 5 := by decide +kernel
  obtain ⟨⟨e, k₀⟩, hboot, k, hk, hme, hwork, hready, hrunning, hprio⟩ := hrun
  replace hk := Reached.of_runIf (safe_of_createTest (oneVm 1)) .init hk
  have hc := hk.coherent (fun _ _ _ => id) (coherent_boot (by decide) hboot)
  have hblocked : ∀ t, k.sched.status t ≠ .blocked := by
    simp [hready, hrunning]
  have howner : (oneVm 1).idToContext (idFields firstCpuWord) = some 0 := rfl
  have hlive : k.sched.status 0 ≠ .dead := by simp [hready]
  obtain ⟨k', -, hlock, hiff⟩ := lockPi_boosts_iff hc (inOrder_of_not_blocked hc.placed hblocked)
    hme hwork (show 0x1000 < 0x1000000000 by decide) (by decide) howner hlive
  exact ⟨e, k₀, k, k', hboot, hk, hready, hprio, hlock, hiff.mpr (by simp [hready])⟩

/-- It runs on the other hardware thread, and waits for an interrupt of its virtual cpu. -/
def ownerWaits : List (ℕ × Op (Fin 2) Unit) :=
  [(1, .start), (0, .trap (.create 0 0 0 5 true)), (1, .takeInt 1), (1, .handleInt []),
    (1, .trap .vmwait)]

/-- **An owner that waits for an interrupt of its virtual cpu is not boosted.** -/
theorem boost_misses_vmwait : ∃ e k₀ k k₁ k', Kernel.boot (oneVm 1) 3 3#32 .off () = some (e, k₀) ∧
    Reached (oneVm 1) (Safe (oneVm 1)) k₀ k ∧ k.hw.sgp 0 = some 1 ∧
    (oneVm 1).idToContext (idFields firstCpuWord) = some 0 ∧ k.sched.status 0 = .vmwait ∧
    k.futexPiRaise (oneVm 1) (k.sched.prio 1) firstCpuWord = some k₁ ∧
    k₁.futexEnqueue (0x1000 / 4) 1 = some k' ∧
    k.futexLockPi (oneVm 1) (some 0x1000) firstCpuWord 1 0 = k'.dosched (oneVm 1) 0 ∧
    k.sched.prio 1 = 0 ∧ k'.sched.prio 0 = 5 ∧ ¬Boosted 1 0 k k' := by
  have hrun : ∃ p ∈ Kernel.boot (oneVm 1) 3 3#32 .off (),
      ∃ k ∈ p.2.runIf (oneVm 1) createTest ownerWaits,
      k.hw.sgp 0 = some 1 ∧ k.threads.vmwork 1 = false ∧ k.sched.status 0 = .vmwait ∧
        k.sched.prio 1 = 0 ∧ k.sched.prio 0 = 5 := by decide +kernel
  obtain ⟨⟨e, k₀⟩, hboot, k, hk, hme, hwork, hwait, hprio, hprio'⟩ := hrun
  replace hk := Reached.of_runIf (safe_of_createTest (oneVm 1)) .init hk
  have hc := hk.coherent (fun _ _ _ => id) (coherent_boot (by decide) hboot)
  have howner : (oneVm 1).idToContext (idFields firstCpuWord) = some 0 := rfl
  obtain ⟨k₁, hraise, hc₁, -, hsgp, -⟩ :=
    futexPiRaise_coherent hc (hc.placed.prios.prio_le 1) firstCpuWord
  have hme₁ : k₁.hw.sgp 0 = some 1 := hsgp ▸ hme
  obtain ⟨k', hadd, -⟩ := futexEnqueue_leaves hc₁ hme₁ (show 0x1000 / 4 < 0x400000000 by decide)
  have hkeeps : k'.sched.prio 0 = 5 := by
    obtain ⟨s, hs, rfl⟩ := map_eq_some_iff.mp hadd
    obtain ⟨R, rfl⟩ := futexHashAddRing_fields hs
    simp [futexPiRaise_prio howner hraise, hwait, hprio']
  refine ⟨e, k₀, k, k₁, k', hboot, hk, hme, howner, hwait, hraise, hadd,
    futexLockPi_eq hwork (by decide) hraise (hc₁.running hme₁).2 hadd, hprio, hkeeps, fun hb => ?_⟩
  have hle := hb.prio
  rw [hkeeps, hprio] at hle
  exact absurd hle (by decide)

end H2
