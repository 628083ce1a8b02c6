import H2.Data.Readylist
import H2.Machinery.RingSearch

/-!
# Data/Places — the one place of a thread

A context is a member of at most one structure at a time: a runlist slot, one of the rings, an
entry of the interrupt handler table, a free list.  `Holds s P` says that the structures of `s`
contain exactly what the placement `P` says; `Sched.place` is the placement the contexts' own
fields name, and a state is `Placed` when the two agree.

An operation takes a thread out of its place and puts it in another.  In between the thread is
`InHand`: no structure contains it, and its fields may change freely.  Each structure has one rule
for taking and one for putting, and every kernel operation is a sequence of those.
-/

namespace H2

open Function

/-- Where a context can be. -/
inductive Place (β : Type) where
  /-- `runlist[h]`. -/
  | run (h : ℕ)
  | ring (r : RingRef β)
  /-- The parameter of `inthandlers[i]`, to be woken by `H2K_popup_int`. -/
  | popup (i : ℕ)
  /-- The free list of a VM. -/
  | free (vmblock : β)
  | nowhere
  deriving DecidableEq

/-- `FUTEX_HASHVAL`. -/
def futexHashval (x : ℕ) : ℕ :=
  ((x % 0x100000000) * 2654435761 % 0x100000000 / 0x4000000) ^^^ (x / 0x100000000 % 0x100000000)

variable {ι β : Type}

/-- The place the fields of a context name.  A popup leaves its interrupt number in `r00`, a
thread in an intpool `-1`. -/
def Sched.place (M : Machine ι β) (s : Sched ι β) (t : ι) : Place β :=
  match s.status t with
  | .running => .run (s.hthread t)
  | .ready => .ring (.ready (s.prio t))
  | .blocked => .ring (.futex (futexHashval (s.futexPtr t)))
  | .intblocked =>
    if s.r00 t < maxInterrupts then .popup (s.r00 t) else .ring (.intpool (M.vmblock t))
  | .vmwait => .nowhere
  | .dead => .free (M.vmblock t)

namespace Sched

variable [dι : DecidableEq ι]

/-! Writing a field of one context. -/

@[simps] def setStatus (t : ι) (v : Status) (s : Sched ι β) : Sched ι β :=
  { s with status := update s.status t v }

/-- `t->prio = (u8_t)v`. -/
@[simps] def setPrio (t : ι) (v : ℕ) (s : Sched ι β) : Sched ι β :=
  { s with prio := update s.prio t (v % 256) }

@[simps] def setHthread (t : ι) (v : ℕ) (s : Sched ι β) : Sched ι β :=
  { s with hthread := update s.hthread t v }

/-- `t->futex_ptr = v`, which keeps 34 bits. -/
@[simps] def setFutexPtr (t : ι) (v : ℕ) (s : Sched ι β) : Sched ι β :=
  { s with futexPtr := update s.futexPtr t (v % 0x400000000) }

@[simps] def setR00 (t : ι) (v : ℕ) (s : Sched ι β) : Sched ι β :=
  { s with r00 := update s.r00 t v }

/-- `vmblock->free_threads = vmblock->free_threads->next`. -/
@[simps] def freePop [DecidableEq β] (b : β) (t : ι) (s : Sched ι β) : Sched ι β :=
  { s with freeThreads := update s.freeThreads b (s.rings.links.next t) }

end Sched

/-- The structures contain the threads where the placement says, and nowhere else. -/
structure Holds (s : Sched ι β) (P : ι → Place β) : Prop where
  run : ∀ {h t}, s.runlist h = some t ↔ P t = .run h
  rings : ∃ L, s.rings.Rep L ∧ ∀ {r t}, t ∈ L r ↔ P t = .ring r
  popup : ∀ {i t}, s.inthandlers i = .popup t ↔ P t = .popup i
  free : ∀ b, ∃ F, IsStack s.rings.links (s.freeThreads b) F ∧ F.Nodup ∧
    ∀ {t}, t ∈ F ↔ P t = .free b
  /-- The bitmap marks the ready rings that are not empty, … -/
  valids : ∀ p ≤ maxPrio, Sched.validBit s.readyValids p = true ↔ s.rings.head (.ready p) ≠ none
  /-- … and no write has gone past the handler table. -/
  inBounds : s.outOfBounds = false

/-- The priorities of the runlist are those of its threads. -/
structure Prios (s : Sched ι β) : Prop where
  prio_le : ∀ t, s.prio t ≤ maxPrio
  slot : ∀ {h t}, s.runlist h = some t → s.runlistPrios h = s.prio t
  empty : ∀ {h}, s.runlist h = none → s.runlistPrios h = -1

/-! ## Reading a place -/

section Place

variable {M : Machine ι β} {s : Sched ι β} {t : ι}

theorem place_eq_run {h : ℕ} : s.place M t = .run h ↔ s.status t = .running ∧ s.hthread t = h := by
  unfold Sched.place
  grind

theorem place_eq_ready {p : ℕ} :
    s.place M t = .ring (.ready p) ↔ s.status t = .ready ∧ s.prio t = p := by
  unfold Sched.place
  split <;> simp_all
  split <;> simp

theorem place_eq_futex {v : ℕ} : s.place M t = .ring (.futex v) ↔
    s.status t = .blocked ∧ futexHashval (s.futexPtr t) = v := by
  unfold Sched.place
  split <;> simp_all
  split <;> simp

theorem place_eq_intpool {b : β} : s.place M t = .ring (.intpool b) ↔
    s.status t = .intblocked ∧ maxInterrupts ≤ s.r00 t ∧ M.vmblock t = b := by
  unfold Sched.place
  split <;> simp_all
  split <;> simp_all

theorem place_eq_popup {i : ℕ} : s.place M t = .popup i ↔
    s.status t = .intblocked ∧ s.r00 t < maxInterrupts ∧ s.r00 t = i := by
  unfold Sched.place
  split <;> simp_all
  split <;> simp_all

theorem place_eq_free {b : β} : s.place M t = .free b ↔ s.status t = .dead ∧ M.vmblock t = b := by
  unfold Sched.place
  split <;> simp_all
  split <;> simp

theorem place_eq_nowhere : s.place M t = .nowhere ↔ s.status t = .vmwait := by
  unfold Sched.place
  split <;> simp_all
  split <;> simp

end Place

/-! ## Moving one thread

What a write to one structure does to a placement: one thread changes its place, from or to
nowhere. -/

section Moves

variable [dι : DecidableEq ι] {s : Sched ι β} {P : ι → Place β} {t : ι}

theorem update_eq_iff {X Y : Place β} {u : ι} :
    update P t X u = Y ↔ (u = t ∧ X = Y) ∨ (u ≠ t ∧ P u = Y) := by
  by_cases hu : u = t <;> simp [hu]

/-- A move between two places concerns no third one. -/
theorem update_eq_iff_of_ne {X Y : Place β} {u : ι} (hP : P t ≠ Y) (hX : X ≠ Y) :
    update P t X u = Y ↔ P u = Y := by
  grind

namespace Holds

variable {X : Place β}

/-! The structures a move does not concern. -/

theorem run_update (hs : Holds s P) (hP : ∀ h, P t ≠ .run h) (hX : ∀ h, X ≠ .run h) {h : ℕ}
    {u : ι} : s.runlist h = some u ↔ update P t X u = .run h := by
  rw [update_eq_iff_of_ne (hP h) (hX h), hs.run]

theorem rings_update (hs : Holds s P) (hP : ∀ r, P t ≠ .ring r) (hX : ∀ r, X ≠ .ring r) :
    ∃ L, s.rings.Rep L ∧ ∀ {r u}, u ∈ L r ↔ update P t X u = .ring r := by
  obtain ⟨L, hL, hmem⟩ := hs.rings
  refine ⟨L, hL, fun {r u} => ?_⟩
  rw [update_eq_iff_of_ne (hP r) (hX r), hmem]

theorem popup_update (hs : Holds s P) (hP : ∀ i, P t ≠ .popup i) (hX : ∀ i, X ≠ .popup i) {i : ℕ}
    {u : ι} : s.inthandlers i = .popup u ↔ update P t X u = .popup i := by
  rw [update_eq_iff_of_ne (hP i) (hX i), hs.popup]

/-- The free lists need their own nodes' `next` fields only. -/
theorem free_update {links : Links ι} (hs : Holds s P) (hP : ∀ b, P t ≠ .free b)
    (hX : ∀ b, X ≠ .free b)
    (hframe : ∀ u b, P u = .free b → links.next u = s.rings.links.next u) (b : β) :
    ∃ F, IsStack links (s.freeThreads b) F ∧ F.Nodup ∧
      ∀ {u}, u ∈ F ↔ update P t X u = .free b := by
  obtain ⟨F, hF, hnd, hmem⟩ := hs.free b
  refine ⟨F, hF.congr fun u hu => hframe u b (hmem.mp hu), hnd, fun {u} => ?_⟩
  rw [update_eq_iff_of_ne (hP b) (hX b), hmem]

/-! The runlist. -/

theorem runlistRemove (hs : Holds s P) (ht : P t = .run (s.hthread t)) :
    Holds (s.runlistRemove t) (update P t .nowhere) where
  run {h u} := by
    have hslot := hs.run.mpr ht
    rw [Sched.runlistRemove_runlist, update_apply]
    split <;> grind [hs.run (t := u)]
  rings := hs.rings_update (by simp [ht]) (by simp)
  popup := hs.popup_update (by simp [ht]) (by simp)
  free := hs.free_update (by simp [ht]) (by simp) fun _ _ _ => rfl
  valids := hs.valids
  inBounds := hs.inBounds

theorem runlistPush (hs : Holds s P) (ht : P t = .nowhere)
    (hfree : s.runlist (s.hthread t) = none) :
    Holds (s.runlistPush t) (update P t (.run (s.hthread t))) where
  run {h u} := by
    rw [Sched.runlistPush_runlist, update_apply]
    split <;> grind [hs.run]
  rings := hs.rings_update (by simp [ht]) (by simp)
  popup := hs.popup_update (by simp [ht]) (by simp)
  free := hs.free_update (by simp [ht]) (by simp) fun _ _ _ => rfl
  valids := hs.valids
  inBounds := hs.inBounds

/-! The interrupt handler table. -/

/-- Writing a popup entry over one that wakes nobody. -/
theorem setPopup (hs : Holds s P) (ht : P t = .nowhere) {i : ℕ}
    (hi : ∀ u, s.inthandlers i ≠ .popup u) :
    Holds { s with inthandlers := update s.inthandlers i (.popup t) }
      (update P t (.popup i)) where
  run := hs.run_update (by simp [ht]) (by simp)
  rings := hs.rings_update (by simp [ht]) (by simp)
  popup {j u} := by
    rw [update_apply]
    split <;> grind [hs.popup]
  free := hs.free_update (by simp [ht]) (by simp) fun _ _ _ => rfl
  valids := hs.valids
  inBounds := hs.inBounds

/-- Overwriting the popup entry of a thread. -/
theorem clearPopup (hs : Holds s P) {i : ℕ} (ht : P t = .popup i) {e : Inthandler ι β}
    (he : ∀ u, e ≠ .popup u) : Holds { s with inthandlers := update s.inthandlers i e }
      (update P t .nowhere) where
  run := hs.run_update (by simp [ht]) (by simp)
  rings := hs.rings_update (by simp [ht]) (by simp)
  popup {j u} := by
    have hi := hs.popup.mpr ht
    rw [update_apply]
    split <;> grind [hs.popup]
  free := hs.free_update (by simp [ht]) (by simp) fun _ _ _ => rfl
  valids := hs.valids
  inBounds := hs.inBounds

section

omit dι

/-- Writing an entry that concerns no thread. -/
theorem setHandler (hs : Holds s P) {i : ℕ} (hi : ∀ u, s.inthandlers i ≠ .popup u)
    {e : Inthandler ι β} (he : ∀ u, e ≠ .popup u) :
    Holds { s with inthandlers := update s.inthandlers i e } P where
  run := hs.run
  rings := hs.rings
  popup {j u} := by
    change update s.inthandlers i e j = .popup u ↔ _
    rw [update_apply]
    split <;> grind [hs.popup]
  free := hs.free
  valids := hs.valids
  inBounds := hs.inBounds

/-! The rings. -/

theorem head_ne_none (hs : Holds s P) {r : RingRef β} (ht : P t = .ring r) :
    s.rings.head r ≠ none := by
  obtain ⟨L, hL, hmem⟩ := hs.rings
  rw [ne_eq, hL.head_eq_none]
  exact List.ne_nil_of_mem (hmem.mpr ht)

theorem of_head (hs : Holds s P) {r : RingRef β} (ht : s.rings.head r = some t) :
    P t = .ring r := by
  obtain ⟨L, hL, hmem⟩ := hs.rings
  exact hmem.mp (List.mem_of_mem_head? ((hL.ring r).head ▸ ht))

end

variable [DecidableEq β]

/-- Linking a thread into a ring; the bitmap follows the ready rings. -/
theorem adds (hs : Holds s P) {L : RingRef β → List ι} (hL : s.rings.Rep L)
    (hmem : ∀ {r u}, u ∈ L r ↔ P u = .ring r) (ht : P t = .nowhere) {R : Rings (RingRef β) ι}
    {r : RingRef β} (hR : s.rings.Adds R L r t) {valids : ℕ → BitVec 64}
    (hvalids : ∀ p ≤ maxPrio, Sched.validBit valids p = true ↔
      r = .ready p ∨ Sched.validBit s.readyValids p = true) :
    Holds { s with rings := R, readyValids := valids } (update P t (.ring r)) := by
  obtain ⟨⟨A, B, hAB, hrep⟩, hframe⟩ := hR
  have hmemAB {u : ι} : u ∈ A ++ t :: B ↔ u = t ∨ u ∈ L r := by
    rw [hAB]
    simp only [List.mem_append, List.mem_cons]
    tauto
  refine ⟨hs.run_update (by simp [ht]) (by simp), ⟨_, hrep, fun {r' u} => ?_⟩,
    hs.popup_update (by simp [ht]) (by simp),
    hs.free_update (by simp [ht]) (by simp) fun u b hu => ?_, fun p hp => ?_, hs.inBounds⟩
  · rw [update_apply]
    split <;> next hr => grind
  · exact hframe u (by rw [hmem, hu]; simp) (by rintro rfl; simp [ht] at hu)
  · rw [hvalids p hp, hs.valids p hp, ne_eq, ne_eq, hL.head_eq_none, hrep.head_eq_none,
      update_apply]
    split
    · next hr => simp [hr]
    · next hr => simp [Ne.symm hr]

theorem takes (hs : Holds s P) {r : RingRef β} (ht : P t = .ring r) {valids : ℕ → BitVec 64}
    (hvalids : ∀ p ≤ maxPrio, Sched.validBit valids p = true ↔
      if r = .ready p then (s.rings.remove r t).head r ≠ none
      else Sched.validBit s.readyValids p = true) :
    Holds { s with rings := s.rings.remove r t, readyValids := valids }
      (update P t .nowhere) := by
  obtain ⟨L, hL, hmem⟩ := hs.rings
  obtain ⟨hrep, hframe⟩ := hL.remove_takes (hmem.mpr ht)
  refine ⟨hs.run_update (by simp [ht]) (by simp), ⟨_, hrep, fun {r' u} => ?_⟩,
    hs.popup_update (by simp [ht]) (by simp),
    hs.free_update (by simp [ht]) (by simp) fun u b hu => ?_, fun p hp => ?_, hs.inBounds⟩
  · rw [update_apply, update_eq_iff]
    split
    · next hr =>
      rw [hr, (hL.ring r).nodup.mem_erase_iff, hmem]
      simp
    · next hr => grind
  · exact hframe u (by rw [hmem, hu]; simp)
  · rw [hvalids p hp]
    split
    · next hr => rw [hr]
    · next hr =>
      rw [hs.valids p hp, ne_eq, ne_eq, hL.head_eq_none, hrep.head_eq_none,
        update_of_ne (Ne.symm hr)]

/-! The free lists. -/

theorem popFree (hs : Holds s P) {b : β} (ht : s.freeThreads b = some t) :
    P t = .free b ∧ Holds (s.freePop b t) (update P t .nowhere) := by
  obtain ⟨F, hF, hnd, hmem⟩ := hs.free b
  rw [ht] at hF
  obtain ⟨F', rfl, hF'⟩ := hF.pop
  have hPt : P t = .free b := hmem.mp List.mem_cons_self
  refine ⟨hPt, hs.run_update (by simp [hPt]) (by simp), hs.rings_update (by simp [hPt]) (by simp),
    hs.popup_update (by simp [hPt]) (by simp), fun b' => ?_, hs.valids, hs.inBounds⟩
  by_cases hb : b' = b
  · subst hb
    refine ⟨F', by simpa using hF', (List.nodup_cons.mp hnd).2, fun {u} => ?_⟩
    grind
  · obtain ⟨G, hG, hnd', hmem'⟩ := hs.free b'
    refine ⟨G, by simpa [hb] using hG, hnd', fun {u} => ?_⟩
    rw [update_eq_iff_of_ne (by rw [hPt]; simp [Ne.symm hb]) (by simp), hmem']

/-- Pushing on a free list; the links of the thread in hand may change. -/
theorem pushFree (hs : Holds s P) (ht : P t = .nowhere) (b : β) (v : Option ι) : Holds { s with
        rings := { s.rings with links := (s.rings.links.setPrev t v).setNext t (s.freeThreads b) }
        freeThreads := update s.freeThreads b (some t) }
      (update P t (.free b)) := by
  refine ⟨hs.run_update (by simp [ht]) (by simp), ?_, hs.popup_update (by simp [ht]) (by simp),
    fun b' => ?_, hs.valids, hs.inBounds⟩
  · obtain ⟨L, hL, hmem⟩ := hs.rings
    have hout (r : RingRef β) {u : ι} (hu : u ∈ L r) : u ≠ t := by
      rintro rfl
      rw [hmem, ht] at hu
      simp at hu
    refine ⟨L, ⟨fun r => (hL.ring r).congr (fun u hu => ?_) fun u hu => ?_, hL.disjoint⟩,
      fun {r u} => ?_⟩
    · simp [hout r hu]
    · simp [hout r hu]
    · rw [update_eq_iff_of_ne (by simp [ht]) (by simp), hmem]
  · obtain ⟨F, hF, hnd, hmem⟩ := hs.free b'
    have hout : t ∉ F := by
      rw [hmem, ht]
      simp
    have hF' : IsStack (s.rings.links.setPrev t v) (s.freeThreads b') F := hF.congr fun _ _ => rfl
    by_cases hb : b' = b
    · subst hb
      refine ⟨t :: F, by simpa using hF'.push hout, List.nodup_cons.mpr ⟨hout, hnd⟩, fun {u} => ?_⟩
      grind
    · refine ⟨F, ?_, hnd, fun {u} => ?_⟩
      · have hne : ∀ x ∈ F, x ≠ t := fun x hx e => hout (e ▸ hx)
        simp only [update_of_ne hb]
        exact hF'.congr fun x hx => by simp [hne x hx]
      · rw [update_eq_iff_of_ne (by simp [ht]) (by simp [Ne.symm hb]), hmem]

end Holds

end Moves

/-! ## Placed, and in hand -/

/-- Every thread is where its fields say, and nowhere else. -/
structure Placed (M : Machine ι β) (s : Sched ι β) : Prop where
  holds : Holds s (s.place M)
  prios : Prios s

/-- `t` is nowhere, whatever its fields say; every other thread is where its fields say. -/
structure InHand [DecidableEq ι] (M : Machine ι β) (s : Sched ι β) (t : ι) : Prop where
  holds : Holds s (update (s.place M) t .nowhere)
  prios : Prios s

/-- The fields that name a place agree but for those of `t`. -/
structure AgreeOff (t : ι) (s s' : Sched ι β) : Prop where
  status : ∀ u, u ≠ t → s'.status u = s.status u
  prio : ∀ u, u ≠ t → s'.prio u = s.prio u
  hthread : ∀ u, u ≠ t → s'.hthread u = s.hthread u
  futexPtr : ∀ u, u ≠ t → s'.futexPtr u = s.futexPtr u
  r00 : ∀ u, u ≠ t → s'.r00 u = s.r00 u

section Placed

variable [dι : DecidableEq ι] {M : Machine ι β} {s s' : Sched ι β} {t : ι}

omit dι in
theorem AgreeOff.place (ha : AgreeOff t s s') {u : ι} (hu : u ≠ t) :
    s'.place M u = s.place M u := by
  simp only [Sched.place, ha.status u hu, ha.prio u hu, ha.hthread u hu, ha.futexPtr u hu,
    ha.r00 u hu]

theorem AgreeOff.update (ha : AgreeOff t s s') (X : Place β) :
    update (s'.place M) t X = update (s.place M) t X := by
  funext u
  by_cases hu : u = t <;> simp [hu, ha.place]

theorem InHand.put (hs : InHand M s t) (ha : AgreeOff t s s') {X : Place β} (hX : s'.place M t = X)
    (hmove : ∀ {P : ι → Place β}, Holds s P → P t = .nowhere → Holds s' (update P t X))
    (hp : Prios s') : Placed M s' := by
  refine ⟨?_, hp⟩
  have hput := hmove hs.holds (update_self ..)
  rw [update_idem, ← ha.update, ← hX, update_eq_self] at hput
  exact hput

theorem Placed.take (hs : Placed M s) (ha : AgreeOff t s s')
    (hmove : Holds s (s.place M) → Holds s' (update (s.place M) t .nowhere))
    (hp : Prios s') : InHand M s' t :=
  ⟨by rw [ha.update]; exact hmove hs.holds, hp⟩

/-! Priorities. -/

omit dι in
theorem Prios.congr (hp : Prios s) (hprio : s'.prio = s.prio) (hrun : s'.runlist = s.runlist)
    (hprios : s'.runlistPrios = s.runlistPrios) : Prios s' where
  prio_le := hprio ▸ hp.prio_le
  slot {h t} ht := by
    rw [hprios, hprio]
    exact hp.slot (hrun ▸ ht)
  empty {h} hh := by
    rw [hprios]
    exact hp.empty (hrun ▸ hh)

omit dι in
theorem Prios.runlistRemove (hp : Prios s) (t : ι) : Prios (s.runlistRemove t) := by
  obtain ⟨⟩ := hp
  constructor <;> grind [Sched.runlistRemove_prio, Sched.runlistRemove_runlist,
    Sched.runlistRemove_runlistPrios]

theorem Prios.runlistPush (hp : Prios s) (t : ι) : Prios (s.runlistPush t) := by
  obtain ⟨⟩ := hp
  constructor <;> grind [Sched.runlistPush_prio, Sched.runlistPush_runlist,
    Sched.runlistPush_runlistPrios]

theorem InHand.congr (hs : InHand M s t) (ha : AgreeOff t s s') (hrings : s'.rings = s.rings)
    (hrun : s'.runlist = s.runlist) (hprios : s'.runlistPrios = s.runlistPrios)
    (hvalids : s'.readyValids = s.readyValids) (hfree : s'.freeThreads = s.freeThreads)
    (hhandlers : s'.inthandlers = s.inthandlers) (hbounds : s'.outOfBounds = s.outOfBounds)
    (hprio : s'.prio t ≤ maxPrio) : InHand M s' t := by
  obtain ⟨⟨h₁, h₂, h₃, h₄, h₅, h₆⟩, hp⟩ := hs
  refine ⟨?_, fun u => ?_, fun {h u} hu => ?_, fun {h} hu => ?_⟩
  · rw [ha.update]
    exact ⟨by rwa [hrun], by rwa [hrings], by rwa [hhandlers], by rwa [hrings, hfree],
      by rwa [hrings, hvalids], by rwa [hbounds]⟩
  · by_cases hu : u = t
    · rwa [hu]
    · rw [ha.prio u hu]
      exact hp.prio_le u
  · rw [hrun] at hu
    have hut : u ≠ t := by
      rintro rfl
      simpa using h₁.mp hu
    rw [hprios, hp.slot hu, ha.prio u hut]
  · rw [hprios]
    exact hp.empty (hrun ▸ hu)

/-! The setters change the fields of one thread. -/

omit dι in
theorem AgreeOff.refl (t : ι) (s : Sched ι β) : AgreeOff t s s :=
  ⟨fun _ _ => rfl, fun _ _ => rfl, fun _ _ => rfl, fun _ _ => rfl, fun _ _ => rfl⟩

theorem agreeOff_setStatus (t : ι) (v : Status) (s : Sched ι β) : AgreeOff t s (s.setStatus t v) :=
  { AgreeOff.refl t s with status := fun u hu => by simp [hu] }

theorem agreeOff_setPrio (t : ι) (v : ℕ) (s : Sched ι β) : AgreeOff t s (s.setPrio t v) :=
  { AgreeOff.refl t s with prio := fun u hu => by simp [hu] }

theorem agreeOff_setHthread (t : ι) (v : ℕ) (s : Sched ι β) : AgreeOff t s (s.setHthread t v) :=
  { AgreeOff.refl t s with hthread := fun u hu => by simp [hu] }

theorem agreeOff_setFutexPtr (t : ι) (v : ℕ) (s : Sched ι β) : AgreeOff t s (s.setFutexPtr t v) :=
  { AgreeOff.refl t s with futexPtr := fun u hu => by simp [hu] }

theorem agreeOff_setR00 (t : ι) (v : ℕ) (s : Sched ι β) : AgreeOff t s (s.setR00 t v) :=
  { AgreeOff.refl t s with r00 := fun u hu => by simp [hu] }

theorem InHand.setStatus (hs : InHand M s t) (v : Status) : InHand M (s.setStatus t v) t :=
  hs.congr (agreeOff_setStatus t v s) rfl rfl rfl rfl rfl rfl rfl (hs.prios.prio_le t)

theorem InHand.setPrio (hs : InHand M s t) (v : ℕ) : InHand M (s.setPrio t v) t := by
  refine hs.congr (agreeOff_setPrio t v s) rfl rfl rfl rfl rfl rfl rfl ?_
  simp only [Sched.setPrio_prio, update_self, maxPrio]
  omega

theorem InHand.setHthread (hs : InHand M s t) (v : ℕ) : InHand M (s.setHthread t v) t :=
  hs.congr (agreeOff_setHthread t v s) rfl rfl rfl rfl rfl rfl rfl (hs.prios.prio_le t)

theorem InHand.setFutexPtr (hs : InHand M s t) (v : ℕ) : InHand M (s.setFutexPtr t v) t :=
  hs.congr (agreeOff_setFutexPtr t v s) rfl rfl rfl rfl rfl rfl rfl (hs.prios.prio_le t)

theorem InHand.setR00 (hs : InHand M s t) (v : ℕ) : InHand M (s.setR00 t v) t :=
  hs.congr (agreeOff_setR00 t v s) rfl rfl rfl rfl rfl rfl rfl (hs.prios.prio_le t)

omit dι in
/-- A thread in the runlist is running on the hardware thread of its slot. -/
theorem Placed.runlist_iff (hs : Placed M s) {h : ℕ} :
    s.runlist h = some t ↔ s.status t = .running ∧ s.hthread t = h := by
  rw [hs.holds.run, place_eq_run]

/-! Fields that do not matter where a thread is may change there. -/

omit dι in
theorem Placed.congr (hs : Placed M s) (ha : AgreeOff t s s') (hplace : s'.place M t = s.place M t)
    (hrings : s'.rings = s.rings) (hrun : s'.runlist = s.runlist)
    (hvalids : s'.readyValids = s.readyValids) (hfree : s'.freeThreads = s.freeThreads)
    (hhandlers : s'.inthandlers = s.inthandlers) (hbounds : s'.outOfBounds = s.outOfBounds)
    (hprios : Prios s') : Placed M s' := by
  obtain ⟨⟨h₁, h₂, h₃, h₄, h₅, h₆⟩, -⟩ := hs
  have hP : s'.place M = s.place M := by
    grind [ha.place]
  refine ⟨?_, hprios⟩
  rw [hP]
  exact ⟨by rwa [hrun], by rwa [hrings], by rwa [hhandlers], by rwa [hrings, hfree],
    by rwa [hrings, hvalids], by rwa [hbounds]⟩

theorem Prios.setPrio (hp : Prios s) (ht : ∀ h, s.runlist h ≠ some t) (v : ℕ) :
    Prios (s.setPrio t v) := by
  obtain ⟨⟩ := hp
  constructor <;> grind [Sched.setPrio_prio, Sched.setPrio_runlist, Sched.setPrio_runlistPrios,
    maxPrio]

/-- A running thread's priority is kept beside its slot too. -/
theorem Placed.runlistSetThreadPrio (hs : Placed M s) (ht : s.status t = .running) {v : ℕ}
    (hv : v ≤ maxPrio) : Placed M (s.runlistSetThreadPrio t v) := by
  have hmod : v % 256 = v := Nat.mod_eq_of_lt (by simp only [maxPrio] at hv; omega)
  have hslot := (hs.runlist_iff).mpr ⟨ht, rfl⟩
  obtain ⟨hle, hprio, hempty⟩ := hs.prios
  refine hs.congr (t := t) { AgreeOff.refl t s with prio := fun u hu => by simp [hu] }
    (by simp [Sched.place, ht]) rfl rfl rfl rfl rfl rfl ?_
  have hrun {h : ℕ} {u : ι} := hs.runlist_iff (h := h) (t := u)
  constructor <;> grind [Sched.runlistSetThreadPrio_prio, Sched.runlistSetThreadPrio_runlist,
    Sched.runlistSetThreadPrio_runlistPrios]

/-! ### Taking -/

theorem Placed.runlistRemove (hs : Placed M s) (ht : s.status t = .running) :
    InHand M (s.runlistRemove t) t := by
  refine hs.take ⟨by simp, by simp, by simp, by simp, by simp⟩ (fun h => h.runlistRemove ?_)
    (hs.prios.runlistRemove t)
  exact place_eq_run.mpr ⟨ht, rfl⟩

theorem Placed.vmwait (hs : Placed M s) (ht : s.status t = .vmwait) : InHand M s t := by
  have hPt : s.place M t = .nowhere := place_eq_nowhere.mpr ht
  refine ⟨?_, hs.prios⟩
  rw [← hPt, update_eq_self]
  exact hs.holds

theorem Placed.clearPopup (hs : Placed M s) (ht : s.status t = .intblocked)
    (hr : s.r00 t < maxInterrupts) {e : Inthandler ι β} (he : ∀ u, e ≠ .popup u) :
    InHand M { s with inthandlers := update s.inthandlers (s.r00 t) e } t := by
  refine hs.take ⟨by simp, by simp, by simp, by simp, by simp⟩ (fun h => h.clearPopup ?_ he)
    (hs.prios.congr rfl rfl rfl)
  exact place_eq_popup.mpr ⟨ht, hr, rfl⟩

omit dι in
theorem Placed.setHandler (hs : Placed M s) {i : ℕ} (hi : ∀ u, s.inthandlers i ≠ .popup u)
    {e : Inthandler ι β} (he : ∀ u, e ≠ .popup u) :
    Placed M { s with inthandlers := update s.inthandlers i e } :=
  ⟨hs.holds.setHandler hi he, hs.prios.congr rfl rfl rfl⟩

section Rings

variable [DecidableEq β]

theorem Placed.popFree (hs : Placed M s) {b : β} (ht : s.freeThreads b = some t) :
    s.status t = .dead ∧ M.vmblock t = b ∧ InHand M (s.freePop b t) t := by
  obtain ⟨hPt, hmove⟩ := hs.holds.popFree ht
  obtain ⟨hdead, hb⟩ := place_eq_free.mp hPt
  exact ⟨hdead, hb, hmove, hs.prios.congr rfl rfl rfl⟩

theorem Placed.remove (hs : Placed M s) {r : RingRef β} (ht : s.place M t = .ring r)
    (hr : ∀ p, r ≠ .ready p) : InHand M { s with rings := s.rings.remove r t } t := by
  refine hs.take ⟨by simp, by simp, by simp, by simp, by simp⟩ (fun h => h.takes ht ?_)
    (hs.prios.congr rfl rfl rfl)
  simp [hr]

theorem Placed.readyRemove (hs : Placed M s) (ht : s.status t = .ready) :
    InHand M (s.readyRemove t) t := by
  have hPt : s.place M t = .ring (.ready (s.prio t)) := place_eq_ready.mpr ⟨ht, rfl⟩
  refine hs.take ⟨by simp, by simp, by simp, by simp, by simp⟩ (fun h => h.takes hPt ?_)
    (hs.prios.congr rfl rfl rfl)
  intro p hp
  by_cases hpt : s.prio t = p
  · subst hpt
    have hvalid := (hs.holds.valids _ hp).mpr (hs.holds.head_ne_none hPt)
    by_cases hnone : (s.rings.remove (.ready (s.prio t)) t).head (.ready (s.prio t)) = none
    · simp [hnone, Sched.validBit_readyClearPrio]
    · simp [hnone, hvalid]
  · by_cases hnone : (s.rings.remove (.ready (s.prio t)) t).head (.ready (s.prio t)) = none
    · simp [hnone, hpt, Sched.validBit_readyClearPrio, Ne.symm hpt]
    · simp [hnone, hpt]

/-! ### Putting -/

theorem InHand.ready (hs : InHand M s t) {R : Rings (RingRef β) ι}
    (hR : ∀ {L : RingRef β → List ι}, s.rings.Rep L → (∀ r', t ∉ L r') →
      s.rings.Adds R L (.ready (s.prio t)) t) :
    Placed M { s with
      status := update s.status t .ready
      rings := R
      readyValids := Sched.readySetPrio (s.prio t) s.readyValids } := by
  refine hs.put ⟨fun u hu => by simp [hu], by simp, by simp, by simp, by simp⟩
    (place_eq_ready.mpr ⟨update_self .., rfl⟩) (fun {P} hP hPt => ?_) (hs.prios.congr rfl rfl rfl)
  obtain ⟨L, hL, hmem⟩ := hP.rings
  have hout : ∀ r, t ∉ L r := fun r => by
    rw [hmem, hPt]
    simp
  obtain ⟨h₁, h₂, h₃, h₄, h₅, h₆⟩ := hP.adds hL hmem hPt (hR hL hout) fun p hp => by
    rw [Sched.validBit_readySetPrio, Bool.or_eq_true, decide_eq_true_iff, RingRef.ready.injEq,
      eq_comm]
  exact ⟨h₁, h₂, h₃, h₄, h₅, h₆⟩

theorem InHand.readyAppend (hs : InHand M s t) : Placed M (s.readyAppend t) :=
  hs.ready fun hL hout => hL.append_adds _ hout

theorem InHand.readyInsert (hs : InHand M s t) : Placed M (s.readyInsert t) :=
  hs.ready fun hL hout => hL.insert_adds _ hout

end Rings

theorem InHand.runlistPush (hs : InHand M s t) (hfree : s.runlist (s.hthread t) = none) :
    Placed M (s.runlistPush t) :=
  hs.put ⟨fun u hu => by simp [hu], by simp, by simp, by simp, by simp⟩
    (place_eq_run.mpr ⟨update_self .., rfl⟩) (fun hP hPt => hP.runlistPush hPt hfree)
    (hs.prios.runlistPush t)

theorem InHand.vmwait (hs : InHand M s t) (ht : s.status t = .vmwait) : Placed M s := by
  have hPt : s.place M t = .nowhere := place_eq_nowhere.mpr ht
  refine ⟨?_, hs.prios⟩
  rw [← update_eq_self t (s.place M), hPt]
  exact hs.holds

theorem InHand.setPopup (hs : InHand M s t) {i : ℕ} (ht : s.status t = .intblocked)
    (hr : s.r00 t = i) (hi : i < maxInterrupts) (hfree : ∀ u, s.inthandlers i ≠ .popup u) :
    Placed M { s with inthandlers := update s.inthandlers i (.popup t) } :=
  hs.put ⟨by simp, by simp, by simp, by simp, by simp⟩
    (place_eq_popup.mpr ⟨ht, hr.symm ▸ hi, hr⟩) (fun hP hPt => hP.setPopup hPt hfree)
    (hs.prios.congr rfl rfl rfl)

/-- A ring other than a ready ring takes the thread in hand, wherever it puts it. -/
theorem InHand.adds [DecidableEq β] (hs : InHand M s t) {r : RingRef β}
    (ht : s.place M t = .ring r) (hr : ∀ p, r ≠ .ready p) {R : Rings (RingRef β) ι}
    {L : RingRef β → List ι} (hL : s.rings.Rep L)
    (hmem : ∀ {r u}, u ∈ L r ↔ update (s.place M) t .nowhere u = .ring r)
    (hR : s.rings.Adds R L r t) : Placed M { s with rings := R } := by
  have hput : Holds { s with rings := R } _ :=
    hs.holds.adds hL hmem (update_self ..) hR (by simp [hr])
  rw [update_idem, ← ht, update_eq_self] at hput
  exact ⟨hput, hs.prios.congr rfl rfl rfl⟩

theorem InHand.append [DecidableEq β] (hs : InHand M s t) {r : RingRef β}
    (ht : s.place M t = .ring r) (hr : ∀ p, r ≠ .ready p) :
    Placed M { s with rings := s.rings.append r t } := by
  obtain ⟨L, hL, hmem⟩ := hs.holds.rings
  refine hs.adds ht hr hL hmem (hL.append_adds r fun r' => ?_)
  rw [hmem]
  simp

/-- Death: the thread goes to the free list of its VM. -/
theorem InHand.pushFree [DecidableEq β] (hs : InHand M s t) (ht : s.status t = .dead)
    (v : Option ι) : Placed M { s with
      rings := { s.rings with
        links := (s.rings.links.setPrev t v).setNext t (s.freeThreads (M.vmblock t)) }
      freeThreads := update s.freeThreads (M.vmblock t) (some t) } :=
  hs.put ⟨by simp, by simp, by simp, by simp, by simp⟩ (place_eq_free.mpr ⟨ht, rfl⟩)
    (fun hP hPt => hP.pushFree hPt _ v) (hs.prios.congr rfl rfl rfl)

end Placed

/-! ## Waking

Most of what one thread does to others is to make some of them ready that were not running. -/

/-- Some waiting threads have been made ready; the runlist and all priorities are as before. -/
structure Wakes (s s' : Sched ι β) : Prop where
  runlist : s'.runlist = s.runlist
  prio : s'.prio = s.prio
  status : ∀ t,
    s'.status t = s.status t ∧ (s.status t = .intblocked → s'.r00 t = s.r00 t) ∨
    s.status t ≠ .running ∧ s.status t ≠ .dead ∧ s'.status t = .ready

namespace Wakes

variable {s s' s'' : Sched ι β}

theorem refl (s : Sched ι β) : Wakes s s := ⟨rfl, rfl, fun _ => .inl ⟨rfl, fun _ => rfl⟩⟩

theorem trans (h : Wakes s s') (h' : Wakes s' s'') : Wakes s s'' := by
  refine ⟨h'.runlist.trans h.runlist, h'.prio.trans h.prio, fun t => ?_⟩
  grind [h.status t, h'.status t]

theorem running_iff (h : Wakes s s') (t : ι) : s'.status t = .running ↔ s.status t = .running := by
  grind [h.status t]

theorem dead_iff (h : Wakes s s') (t : ι) : s'.status t = .dead ↔ s.status t = .dead := by
  grind [h.status t]

/-- A thread that still waits waits as before. -/
theorem of_intblocked (h : Wakes s s') {t : ι} (ht : s'.status t = .intblocked) :
    s.status t = .intblocked ∧ s'.r00 t = s.r00 t := by
  grind [h.status t]

end Wakes

/-- Making ready a thread that was taken out of the place it waited in. -/
theorem Wakes.of_agreeOff [DecidableEq ι] [DecidableEq β] {s s' : Sched ι β} {t : ι}
    (ha : AgreeOff t s s') (hrun : s.status t ≠ .running) (hdead : s.status t ≠ .dead)
    (hlist : s'.runlist = s.runlist) (hprio : s'.prio = s.prio) : Wakes s (s'.readyAppend t) := by
  refine ⟨hlist, hprio, fun u => ?_⟩
  by_cases hu : u = t
  · exact .inr ⟨hu ▸ hrun, hu ▸ hdead, by simp [hu]⟩
  · exact .inl ⟨by simp [hu, ha.status u hu], fun _ => by simp [ha.r00 u hu]⟩

/-! ## What the placement says -/

/-- The places a status names. -/
def Named (M : Machine ι β) (s : Sched ι β) (t : ι) (X : Place β) : Prop :=
  match s.status t with
  | .running => ∃ h, X = .run h
  | .ready => X = .ring (.ready (s.prio t))
  | .blocked => X = .ring (.futex (futexHashval (s.futexPtr t)))
  | .intblocked => (∃ i, X = .popup i) ∨ X = .ring (.intpool (M.vmblock t))
  | .vmwait => X = .nowhere
  | .dead => X = .free (M.vmblock t)

/-- **One place per thread**: some placement that every status names describes all the structures,
the bitmap marks the rings that are not empty, and no write has gone past the handler table. -/
def OnePlace (M : Machine ι β) (s : Sched ι β) : Prop :=
  ∃ P, Holds s P ∧ ∀ t, Named M s t (P t)

theorem Placed.onePlace {M : Machine ι β} {s : Sched ι β} (hs : Placed M s) : OnePlace M s := by
  refine ⟨s.place M, hs.holds, fun t => ?_⟩
  unfold Named Sched.place
  split <;> simp
  split <;> simp_all

end H2
