import H2.Futex.Futex

/-!
# Futex/Order — who is next in a bucket

A bucket is a queue in order of priority (`InOrder`).  Joining it goes behind those that are as
good; raising a thread that is in it takes it out and lets it join again, unless it is alone.
Either is `Steady`: the buckets stay in order, and threads whose priorities are equal and have not
changed stay in the order they joined in.
-/

namespace H2

open Function

variable {ι β : Type} [dι : DecidableEq ι] [dβ : DecidableEq β] [fι : Fintype ι]

/-- Every bucket is sorted, the best thread first. -/
def InOrder (k : Kernel ι β) : Prop :=
  ∀ v, (k.sched.queue (.futex v)).Pairwise (k.sched.prio · ≤ k.sched.prio ·)

/-- Every bucket stays in order, and so do the equals in it. -/
def Steady (k k' : Kernel ι β) : Prop :=
  ∀ v, Stable k.sched.prio (k.sched.queue (.futex v)) k'.sched.prio (k'.sched.queue (.futex v))

section Basics

variable {M : Machine ι β} {k k' : Kernel ι β} {t : ι} {v : ℕ}

omit dβ

theorem Steady.inOrder (h : Steady k k') : InOrder k' := fun v => (h v).sorted

theorem Steady.of_sublist (hnd : ∀ v, (k.sched.queue (.futex v)).Nodup) (hord : InOrder k)
    (hsub : ∀ v, (k'.sched.queue (.futex v)).Sublist (k.sched.queue (.futex v)))
    (hprio : ∀ v, ∀ t ∈ k'.sched.queue (.futex v), k'.sched.prio t = k.sched.prio t) :
    Steady k k' :=
  fun v => .of_sublist (hord v) (hnd v) (hsub v) (hprio v)

theorem Steady.of_same (hs : Placed M k.sched) (hord : InOrder k)
    (hqueue : ∀ v, k'.sched.queue (.futex v) = k.sched.queue (.futex v))
    (hprio : ∀ t, k.sched.status t = .blocked → k'.sched.prio t = k.sched.prio t) :
    Steady k k' := by
  refine .of_sublist (fun v => hs.nodup_queue _) hord
    (fun v => (hqueue v).symm ▸ List.Sublist.refl _) fun v t ht => ?_
  rw [hqueue] at ht
  exact hprio t (hs.mem_bucket.mp ht).1

end Basics

section Joining

variable {M : Machine ι β} {k k' : Kernel ι β} {h : ℕ} {me : ι}

/-- **Blocking**: the thread joins the bucket of the address. -/
theorem futexEnqueue_inserts (hc : Coherent M k) (hme : k.hw.sgp h = some me) (hord : InOrder k)
    {pa : ℕ} (hadd : k.futexEnqueue pa me = some k') :
    Inserts k.sched.prio me (k.sched.queue (.futex (futexHashval pa)))
        (k'.sched.queue (.futex (futexHashval pa))) ∧
      (∀ r, r ≠ .futex (futexHashval pa) → k'.sched.queue r = k.sched.queue r) ∧
      k'.sched.prio = k.sched.prio := by
  obtain ⟨s', hs', rfl⟩ := Option.map_eq_some_iff.mp hadd
  have hout (r : RingRef β) : me ∉ k.sched.queue r := by
    rw [hc.placed.mem_queue, place_eq_run.mpr ⟨(hc.running hme).1, rfl⟩]
    simp
  have hrep := hc.placed.holds.rep
  obtain ⟨hins, hother⟩ := futexHashAddRing_inserts
    (s := (((k.sched.setFutexPtr me pa).runlistRemove me).setR00 me 0).setStatus me .blocked)
    (futexHashval pa) hrep hout (hord _) hs'
  obtain ⟨R, rfl⟩ := futexHashAddRing_fields hs'
  exact ⟨hins, hother, rfl⟩

theorem futexEnqueue_steady (hc : Coherent M k) (hme : k.hw.sgp h = some me) (hord : InOrder k)
    {pa : ℕ} (hadd : k.futexEnqueue pa me = some k') :
    Steady k k' ∧ ∀ v t, t ∈ k'.sched.queue (.futex v) → t = me ∨ t ∈ k.sched.queue (.futex v) := by
  obtain ⟨hins, hother, hprio⟩ := futexEnqueue_inserts hc hme hord hadd
  refine ⟨fun v => ?_, fun v t ht => ?_⟩
  · rw [hprio]
    by_cases hv : v = futexHashval pa
    · exact hv ▸ hins.stable (hord _)
    · rw [hother _ (by simpa using hv)]
      exact .of_sublist (hord v) (hc.placed.nodup_queue _) (List.Sublist.refl _) fun _ _ => rfl
  · by_cases hv : v = futexHashval pa
    · subst hv
      exact hins.mem_iff.mp ht
    · rw [hother _ (by simpa using hv)] at ht
      exact .inr ht

end Joining

section Raising

variable {M : Machine ι β} {k k' : Kernel ι β} {dest : ι} {prio : ℕ}

omit dι fι in
theorem IsRing.eq_singleton {l : Links ι} {h : Option ι} {xs : List ι} (hr : IsRing l h xs) {x : ι}
    (hx : x ∈ xs) (hself : l.next x = some x) : xs = [x] := by
  obtain ⟨A, B, rfl⟩ := List.append_of_mem hx
  obtain ⟨-, b, hb, hlink⟩ := hr.neighbours
  obtain rfl : b = x := Option.some.inj (hlink.1.symm.trans hself)
  have hnd := hr.nodup
  rcases B with - | ⟨c, B⟩
  · rcases A with - | ⟨c, A⟩
    · rfl
    · obtain rfl : c = b := by simpa using hb
      simp at hnd
  · obtain rfl : c = b := by simpa using hb
    simp [List.nodup_append] at hnd

omit dβ in
/-- A thread that is alone in its bucket needs no moving. -/
theorem steady_setPrio_alone (hc : Coherent M k) (hord : InOrder k)
    (halone : k.sched.rings.links.next dest = some dest) :
    Steady k { k with sched := k.sched.setPrio dest prio } := by
  intro v
  have hqueue : (k.sched.setPrio dest prio).queue = k.sched.queue := rfl
  rw [hqueue]
  by_cases hdest : dest ∈ k.sched.queue (.futex v)
  · rw [(hc.placed.holds.rep.ring (.futex v)).eq_singleton hdest halone]
    refine ⟨List.pairwise_singleton _ _, fun hxy _ _ _ _ _ => ?_, fun _ hy _ hy' _ => absurd hy' hy⟩
    exact absurd hxy.length_le (by simp)
  · refine .of_sublist (hord v) (hc.placed.nodup_queue _) (List.Sublist.refl _) fun t ht => ?_
    have hne : t ≠ dest := fun e => hdest (e ▸ ht)
    simp [hne]

/-- It is taken out and joins again. -/
theorem steady_refile (hc : Coherent M k) (hord : InOrder k) (hst : k.sched.status dest = .blocked)
    (hlt : prio < k.sched.prio dest) {s s' : Sched ι β} (hs : s = k.sched.setPrio dest prio)
    (hadd : Sched.futexHashAddRing (futexHashval (s.futexPtr dest)) dest
      { s with rings := s.rings.remove (.futex (futexHashval (s.futexPtr dest))) dest } = some s') :
    Steady k { k with sched := s' } := by
  subst hs
  set v₀ := futexHashval ((k.sched.setPrio dest prio).futexPtr dest) with hv₀
  have hplaced := hc.placed.setPrio (.inl hst) prio
  have hmem : dest ∈ k.sched.queue (.futex v₀) := hc.placed.mem_bucket.mpr ⟨hst, rfl⟩
  have hhand := hplaced.remove (place_eq_futex.mpr ⟨hst, rfl⟩) (by simp)
  have hqueue := hplaced.queue_remove (r := .futex v₀) (place_eq_futex.mpr ⟨hst, rfl⟩)
  have hsame : (k.sched.setPrio dest prio).queue = k.sched.queue := rfl
  rw [hsame] at hqueue
  have hnd (v : ℕ) := hc.placed.nodup_queue (.futex v)
  have hkey (t : ι) (ht : t ≠ dest) : (k.sched.setPrio dest prio).prio t = k.sched.prio t := by
    simp [ht]
  have hrest : ((k.sched.queue (.futex v₀)).erase dest).Pairwise
      ((k.sched.setPrio dest prio).prio · ≤ (k.sched.setPrio dest prio).prio ·) :=
    sorted_congr (fun t ht => hkey t ((hnd v₀).mem_erase_iff.mp ht).1)
      ((hord v₀).sublist List.erase_sublist)
  obtain ⟨hins, hother⟩ := futexHashAddRing_inserts v₀ hhand.holds.rep hhand.not_mem_queue
    (by rw [hqueue, update_self]; exact hrest) hadd
  obtain ⟨R, rfl⟩ := futexHashAddRing_fields hadd
  rw [hqueue, update_self] at hins
  intro v
  by_cases hv : v = v₀
  · rw [hv]
    refine hins.stable_erase hmem (hnd v₀) (hord v₀) hkey ?_
    have hle := hc.placed.prios.prio_le dest
    rw [maxPrio] at hle
    simp only [Sched.setPrio, update_self]
    omega
  · have hne : RingRef.futex v ≠ (.futex v₀ : RingRef β) := by simpa using hv
    have hout : dest ∉ k.sched.queue (.futex v) := fun hd =>
      hv (hc.placed.mem_bucket.mp hd).2.symm
    simp only
    rw [hother _ hne, hqueue, update_of_ne hne]
    exact .of_sublist (hord v) (hnd v) (List.Sublist.refl _) fun t ht => hkey t
      fun e => hout (e ▸ ht)

theorem futexPiRaise_steady (hc : Coherent M k) (hord : InOrder k) {destid : ℕ}
    (hraise : k.futexPiRaise M prio destid = some k') : Steady k k' := by
  have hsame {k' : Kernel ι β} (hqueue : ∀ v, k'.sched.queue (.futex v) = k.sched.queue (.futex v))
      (hprio : ∀ t, k.sched.status t = .blocked → k'.sched.prio t = k.sched.prio t) : Steady k k' :=
    .of_same hc.placed hord hqueue hprio
  unfold Kernel.futexPiRaise at hraise
  split at hraise
  · exact Option.some.inj hraise ▸ hsame (fun _ => rfl) fun _ _ => rfl
  next dest _ =>
  split at hraise
  · exact Option.some.inj hraise ▸ hsame (fun _ => rfl) fun _ _ => rfl
  next hlt =>
  rw [not_le] at hlt
  have hne {st : Status} (hst : k.sched.status dest = st) (hb : st ≠ .blocked) {t : ι}
      (ht : k.sched.status t = .blocked) : t ≠ dest := by
    rintro rfl
    exact hb (hst.symm.trans ht)
  split at hraise
  · next hst =>
    simp only at hraise
    split at hraise
    · next halone => exact Option.some.inj hraise ▸ steady_setPrio_alone hc hord halone
    · obtain ⟨s, hs, rfl⟩ := Option.map_eq_some_iff.mp hraise
      exact steady_refile hc hord hst hlt rfl hs
  · next hst =>
    cases hraise
    refine hsame (fun v => ?_) fun t ht => ?_
    · have hhand := (hc.placed.readyRemove hst).setPrio prio
      have hqueue : ((k.sched.readyRemove dest).setPrio dest prio).queue =
          (k.sched.readyRemove dest).queue := rfl
      rw [hhand.queue_readyInsert, update_of_ne (by simp), hqueue,
        hc.placed.queue_readyRemove hst, update_of_ne (by simp)]
    · simp [hne hst (by simp) ht]
  · next hst =>
    cases hraise
    split <;> exact hsame (fun _ => rfl) fun t ht => by simp [hne hst (by simp) ht]
  · next hst =>
    cases hraise
    exact hsame (fun _ => rfl) fun t ht => by simp [hne hst (by simp) ht]
  all_goals exact Option.some.inj hraise ▸ hsame (fun _ => rfl) fun _ _ => rfl

end Raising

end H2
