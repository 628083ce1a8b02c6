import H2.Data.Places

/-!
# Data/Queues — the rings as lists

A ring read from its head is a list, first to last.  Where the structures hold what a placement
says, these lists represent the rings, and each operation does to them what its name says: it
appends, it puts in front, it takes out one member.  What a thread in hand has in its link fields is
nobody's business.
-/

namespace H2

open Function

variable {ι β : Type} [dι : DecidableEq ι] [fι : Fintype ι]

/-- The members of a ring, first to last. -/
def Sched.queue (s : Sched ι β) (r : RingRef β) : List ι :=
  s.rings.links.toList (Fintype.card ι) (s.rings.head r)

section Reading

variable {s s' : Sched ι β} {P : ι → Place β} {t : ι} {r : RingRef β}

theorem Rings.Rep.queue_eq {L : RingRef β → List ι} (hL : s.rings.Rep L) : s.queue = L := by
  funext r
  exact (hL.ring r).toList_eq (hL.ring r).nodup.length_le_card

theorem queue_congr (h : s'.rings = s.rings) : s'.queue = s.queue := by
  unfold Sched.queue
  rw [h]

/-- The lists represent the rings, … -/
theorem Holds.rep (hs : Holds s P) : s.rings.Rep s.queue := by
  obtain ⟨L, hL, -⟩ := hs.rings
  rwa [hL.queue_eq]

/-- … and have the members the placement says. -/
theorem Holds.mem_queue (hs : Holds s P) : t ∈ s.queue r ↔ P t = .ring r := by
  obtain ⟨L, hL, hmem⟩ := hs.rings
  rw [hL.queue_eq, hmem]

end Reading

omit dι fι in
/-- Links that agree at the members. -/
theorem Rings.Rep.of_links {ρ : Type} {R R' : Rings ρ ι} {L : ρ → List ι} (hR : R.Rep L)
    (hhead : R'.head = R.head) (hnext : ∀ r, ∀ x ∈ L r, R'.links.next x = R.links.next x)
    (hprev : ∀ r, ∀ x ∈ L r, R'.links.prev x = R.links.prev x) : R'.Rep L := by
  refine ⟨fun r => ?_, hR.disjoint⟩
  rw [hhead]
  exact (hR.ring r).congr (hnext r) (hprev r)

section Operations

variable {M : Machine ι β} {s : Sched ι β} {t : ι}

theorem Placed.mem_queue (hs : Placed M s) {r : RingRef β} :
    t ∈ s.queue r ↔ s.place M t = .ring r := hs.holds.mem_queue

/-- In a bucket are the threads that wait on its futexes. -/
theorem Placed.mem_bucket (hs : Placed M s) {v : ℕ} :
    t ∈ s.queue (.futex v) ↔ s.status t = .blocked ∧ futexHashval (s.futexPtr t) = v :=
  hs.mem_queue.trans place_eq_futex

theorem Placed.nodup_queue (hs : Placed M s) (r : RingRef β) : (s.queue r).Nodup :=
  (hs.holds.rep.ring r).nodup

theorem InHand.not_mem_queue (hs : InHand M s t) (r : RingRef β) : t ∉ s.queue r := by
  rw [hs.holds.mem_queue]
  simp

/-- A dead thread's links are written, and its VM's free list takes it. -/
theorem InHand.queue_freeLinks (hs : InHand M s t) {s' : Sched ι β}
    (hhead : s'.rings.head = s.rings.head)
    (hnext : ∀ x, x ≠ t → s'.rings.links.next x = s.rings.links.next x)
    (hprev : ∀ x, x ≠ t → s'.rings.links.prev x = s.rings.links.prev x) : s'.queue = s.queue := by
  have hout (r : RingRef β) (x : ι) (hx : x ∈ s.queue r) : x ≠ t := by
    rintro rfl
    exact hs.not_mem_queue r hx
  exact (hs.holds.rep.of_links hhead (fun r x hx => hnext x (hout r x hx))
    fun r x hx => hprev x (hout r x hx)).queue_eq

variable [DecidableEq β]

theorem InHand.queue_append (hs : InHand M s t) (r : RingRef β) :
    ({ s with rings := s.rings.append r t } : Sched ι β).queue =
      update s.queue r (s.queue r ++ [t]) :=
  Rings.Rep.queue_eq
    (hs.holds.rep.append r hs.not_mem_queue)

theorem InHand.queue_readyAppend (hs : InHand M s t) : (s.readyAppend t).queue =
    update s.queue (.ready (s.prio t)) (s.queue (.ready (s.prio t)) ++ [t]) :=
  hs.queue_append _

theorem InHand.queue_readyInsert (hs : InHand M s t) : (s.readyInsert t).queue =
    update s.queue (.ready (s.prio t)) (t :: s.queue (.ready (s.prio t))) :=
  Rings.Rep.queue_eq (hs.holds.rep.insert _ hs.not_mem_queue)

theorem Placed.queue_remove (hs : Placed M s) {r : RingRef β} (ht : s.place M t = .ring r) :
    ({ s with rings := s.rings.remove r t } : Sched ι β).queue =
      update s.queue r ((s.queue r).erase t) :=
  Rings.Rep.queue_eq
    (hs.holds.rep.remove (hs.mem_queue.mpr ht))

theorem Placed.queue_readyRemove (hs : Placed M s) (ht : s.status t = .ready) :
    (s.readyRemove t).queue =
      update s.queue (.ready (s.prio t)) ((s.queue (.ready (s.prio t))).erase t) :=
  hs.queue_remove (place_eq_ready.mpr ⟨ht, rfl⟩)

end Operations

end H2
