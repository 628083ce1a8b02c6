import H2.Machinery.Leads
import H2.Qurt.Pgalloc
import Mathlib.Order.Interval.Finset.Nat

/-!
# Qurt/Pages — the free pages, along every sequence of calls

Releases and allocations on several lists, from the arena `qurt_pgalloc_init` sets up, with the sets
of free pages kept beside them: a release adds its range to the set of its list, an allocation takes
out the range it returns.

In every state the lists are canonical and are exactly these sets (`pages_sound`); an allocation
returns a range that was free, or finds no range that could hold the request; and neither call ends
in a fatal error unless the storage for nodes has run out.
-/

namespace H2.Qurt

open Function

variable {ρ ι : Type} [dρ : DecidableEq ρ] [dι : DecidableEq ι]

/-- The memory of the lists, and the pages that are free on each. -/
structure Pages (ρ ι : Type) where
  arena : Arena ρ ι
  free : ρ → Finset ℕ

inductive Call (ρ : Type) where
  | pgalloc (r : ρ) (addr size alignhint : ℕ)
  | pgfree (r : ρ) (addr size : ℕ)

namespace Pages

/-- After `qurt_pgalloc_init`: no lists, and the static storage on the stream. -/
def init (storage : List ι) (heap : List (List ι)) : Pages ρ ι where
  arena := Arena.s5Feed ⟨fun _ => none, fun _ => 0, fun _ => 0, heap⟩ storage
  free _ := ∅

/-- A call.  There is no next state if it ends in a fatal error. -/
def step [Fintype ι] : Call ρ → Pages ρ ι → Option (Pages ρ ι)
  | .pgalloc r addr size alignhint, s =>
    (s.arena.pgalloc r addr size alignhint).map fun res =>
      { arena := res.2
        free := if res.1 = 0 then s.free
          else update s.free r (s.free r \ Finset.Ico res.1 (res.1 + size)) }
  | .pgfree r addr size, s =>
    (s.arena.pgfree r addr size).map fun a =>
      { arena := a
        free := update s.free r (s.free r ∪ Finset.Ico addr (addr + size)) }

/-- **Proper calls**: page numbers and sizes up to `2 ^ 20`, and only pages that are not free are
released.  An allocation may leave the address open. -/
def Proper : Call ρ → Pages ρ ι → Prop
  | .pgalloc _ addr size _, _ => addr ≤ 2 ^ 20 ∧ 1 ≤ size ∧ size ≤ 2 ^ 20
  | .pgfree r addr size, s => (1 ≤ addr ∧ addr ≤ 2 ^ 20) ∧ (1 ≤ size ∧ size ≤ 2 ^ 20) ∧
      Disjoint (Finset.Ico addr (addr + size)) (s.free r)

instance : ∀ (c : Call ρ) (s : Pages ρ ι), Decidable (Proper c s)
  | .pgalloc .., _ => inferInstanceAs (Decidable (_ ∧ _))
  | .pgfree .., _ => inferInstanceAs (Decidable (_ ∧ _))

/-- **The nodes `xs` are the list `r`, and serve it right.** -/
structure Sound [Fintype ι] (s : Pages ρ ι) (r : ρ) (xs : List ι) : Prop where
  strung : Strung s.arena.ptr (.head (some r)) xs
  canonical : Canonical (s.arena.nodes xs)
  exact : ∀ p, Free (s.arena.nodes xs) p ↔ p ∈ s.free r
  pgalloc : ∀ addr size alignhint, Proper (.pgalloc r addr size alignhint) s → ¬s.arena.Dry →
    ∃ ret a', s.arena.pgalloc r addr size alignhint = some (ret, a') ∧
      (ret = 0 → ∀ n ∈ s.arena.nodes xs, ¬n.Holds addr size) ∧
      (ret ≠ 0 → Finset.Ico ret (ret + size) ⊆ s.free r ∧ (addr ≠ 0 → ret = addr))
  pgfree : ∀ addr size, Proper (.pgfree r addr size) s → ¬s.arena.Dry →
    (s.arena.pgfree r addr size).isSome

/-! ## The invariant -/

/-- The lists of ranges, canonical, are the free pages. -/
structure Inv (s : Pages ρ ι) (l : ρ → List Node) : Prop where
  shows : s.arena.Shows l
  canonical : ∀ r, Canonical (l r)
  exact : ∀ r p, Free (l r) p ↔ p ∈ s.free r
  bounded : ∀ r, ∀ p ∈ s.free r, 1 ≤ p ∧ p < 2 ^ 21

variable {s s' : Pages ρ ι} {l : ρ → List Node} {r : ρ} {addr size alignhint : ℕ}

section Bounds

omit dρ dι

theorem Inv.limit_le (h : Inv s l) {n : Node} (hn : n ∈ l r) : n.limit ≤ 2 ^ 21 := by
  have hpos := (h.canonical r).nonempty n hn
  have hlast : Free (l r) (n.limit - 1) := by
    refine ⟨n, hn, ?_⟩
    unfold Node.Has Node.limit
    omega
  have := h.bounded r _ ((h.exact r _).mp hlast)
  omega

theorem Inv.limit_lt (h : Inv s l) (r : ρ) : ∀ n ∈ l r, n.limit < 2 ^ 32 := fun n hn => by
  have := h.limit_le hn
  omega

theorem Inv.not_free_zero (h : Inv s l) (r : ρ) : ¬Free (l r) 0 := fun hfree => by
  have := (h.bounded r 0 ((h.exact r 0).mp hfree)).1
  omega

end Bounds

theorem Inv.pgalloc [Fintype ι] (h : Inv s l) (hC : Proper (.pgalloc r addr size alignhint) s) :
    s.arena.Allocated l r addr size (s.arena.pgalloc r addr size alignhint) :=
  h.shows.pgalloc (by have := hC.2.2; omega) (by have := hC.1; have := hC.2.2; omega) (h.limit_lt r)

theorem Inv.pgfree [Fintype ι] (h : Inv s l) (hC : Proper (.pgfree r addr size) s) :
    s.arena.Released l r addr size (s.arena.pgfree r addr size) :=
  h.shows.pgfree (by have := hC.1.2; have := hC.2.1.2; omega) (h.limit_lt r)

omit dι in
/-- One list changes, and its set of pages with it. -/
theorem Inv.update (h : Inv s l) {a' : Arena ρ ι} {l' : List Node} {F : Finset ℕ}
    (hshows : a'.Shows (update l r l')) (hcanonical : Canonical l')
    (hexact : ∀ p, Free l' p ↔ p ∈ F) (hbounded : ∀ p ∈ F, 1 ≤ p ∧ p < 2 ^ 21) :
    Inv ⟨a', update s.free r F⟩ (update l r l') where
  shows := hshows
  canonical j := by
    by_cases hj : j = r
    · subst hj
      rwa [update_self]
    · rw [update_of_ne hj]
      exact h.canonical j
  exact j p := by
    by_cases hj : j = r
    · subst hj
      simp only [update_self]
      exact hexact p
    · simp only [update_of_ne hj]
      exact h.exact j p
  bounded j p := by
    by_cases hj : j = r
    · subst hj
      simp only [update_self]
      exact hbounded p
    · simp only [update_of_ne hj]
      exact h.bounded j p

theorem Inv.step [Fintype ι] {c : Call ρ} (h : Inv s l) (hC : Proper c s)
    (hstep : step c s = some s') : ∃ l', Inv s' l' := by
  cases c with
  | pgalloc r addr size alignhint =>
    rcases h.pgalloc hC with ⟨hnone, -⟩ | ⟨ret, l', a', hsome, hallocates, hshows⟩
    · simp [Pages.step, hnone] at hstep
    · simp only [Pages.step, hsome, Option.map_some, Option.some.injEq] at hstep
      have hcanonical := hallocates.canonical (h.canonical r) hC.2.1
      have hfree (p : ℕ) := hallocates.free_iff (h.canonical r) (h.not_free_zero r) hC.2.1 (p := p)
      by_cases hret : ret = 0
      · rw [if_pos hret, ← update_eq_self r s.free] at hstep
        refine ⟨_, hstep ▸ h.update hshows hcanonical (fun p => ?_) (h.bounded r)⟩
        rw [hfree, h.exact]
        exact and_iff_left fun hne => absurd hret hne
      · rw [if_neg hret] at hstep
        refine ⟨_, hstep ▸ h.update hshows hcanonical (fun p => ?_) fun p hp =>
          h.bounded r p (Finset.mem_sdiff.mp hp).1⟩
        rw [hfree, h.exact, Finset.mem_sdiff, Finset.mem_Ico]
        exact and_congr_right' ⟨fun hout => hout hret, fun hout _ => hout⟩
  | pgfree r addr size =>
    have hreleased := h.pgfree hC
    obtain ⟨⟨haddr, haddr'⟩, ⟨hsize, hsize'⟩, hdisjoint⟩ := hC
    rcases hreleased with ⟨hnone, -⟩ | ⟨l', a', hsome, hfrees, hshows⟩
    · simp [Pages.step, hnone] at hstep
    · simp only [Pages.step, hsome, Option.map_some, Option.some.injEq] at hstep
      have hout (p : ℕ) (hp : addr ≤ p) (hp' : p < addr + size) : ¬Free (l r) p := fun hfree =>
        Finset.disjoint_left.mp hdisjoint (Finset.mem_Ico.mpr ⟨hp, hp'⟩) ((h.exact r p).mp hfree)
      refine ⟨_, hstep ▸ h.update hshows (hfrees.canonical (h.canonical r) hout hsize) (fun p => ?_)
        fun p hp => ?_⟩
      · rw [hfrees.free_iff, h.exact, Finset.mem_union, Finset.mem_Ico]
      · rcases Finset.mem_union.mp hp with hp | hp
        · exact h.bounded r p hp
        · have := Finset.mem_Ico.mp hp
          omega

theorem Inv.init {storage : List ι} {heap : List (List ι)}
    (hstorage : (storage :: heap).flatten.Nodup) :
    Inv (init storage heap : Pages ρ ι) fun _ => [] where
  shows := by
    have hempty : Arena.Keeps (⟨fun _ => none, fun _ => 0, fun _ => 0, heap⟩ : Arena ρ ι)
        fun _ => [] :=
      ⟨⟨fun _ => rfl, fun _ => .nil, nofun⟩, (List.flatten_cons ▸ hstorage).of_append_right,
        fun _ _ _ => List.not_mem_nil⟩
    refine ⟨_, hempty.s5Feed (List.flatten_cons ▸ hstorage).of_append_left fun x hx =>
      ⟨fun _ => List.not_mem_nil, List.disjoint_of_nodup_append hstorage hx⟩, fun r => ?_⟩
    rfl
  canonical _ := canonical_nil
  exact _ _ := by simp [Pages.init]
  bounded _ _ hp := by simp [Pages.init] at hp

/-- **The page lists are sound in every state.** -/
theorem pages_sound [Fintype ι] {storage : List ι} {heap : List (List ι)}
    (hstorage : (storage :: heap).flatten.Nodup)
    (hs : Leads step Proper (init storage heap) s) (r : ρ) : ∃ xs, s.Sound r xs := by
  have hinv : ∃ l, Inv s l := by
    refine hs.invariant (I := fun s => ∃ l, Inv s l) ⟨_, Inv.init hstorage⟩ ?_
    rintro c s s' ⟨l, h⟩ hC hstep
    exact h.step hC hstep
  obtain ⟨l, h⟩ := hinv
  obtain ⟨K, hkeeps, hl⟩ := h.shows
  refine ⟨K (some r), hkeeps.chains.strung _, ?_, fun p => ?_,
    fun addr size alignhint hC hdry => ?_, fun addr size hC hdry => ?_⟩
  · rw [hl]
    exact h.canonical r
  · rw [hl]
    exact h.exact r p
  · rw [hl]
    rcases h.pgalloc hC with ⟨-, hdry'⟩ | ⟨ret, l', a', hsome, hallocates, -⟩
    · exact absurd hdry' hdry
    · refine ⟨ret, a', hsome, fun hret => ?_, fun hret => ⟨fun p hp => ?_, fun haddr => ?_⟩⟩
      · exact hallocates.not_holds (h.not_free_zero r) hC.2.1 hret
      · obtain ⟨hp, hp'⟩ := Finset.mem_Ico.mp hp
        exact (h.exact r p).mp (hallocates.taken hret hp hp')
      · exact hallocates.at_addr hret haddr
  · rcases h.pgfree hC with ⟨-, hdry'⟩ | ⟨l', a', hsome, -, -⟩
    · exact absurd hdry' hdry
    · rw [hsome]
      rfl

/-- Pages out of the middle of a range, and given back: three calls with two nodes. -/
theorem pages_sound_middle : ∃ s : Pages Unit (Fin 2), s.free () = Finset.Ico 4 12 ∧
    s.arena.size 1 = 8 ∧ ∃ xs, s.Sound () xs := by
  have hrun : ∃ s ∈ runIf step (fun c s => decide (Proper c s))
      [.pgfree () 4 8, .pgalloc () 6 2 0, .pgfree () 6 2] (init [0, 1] []),
      s.free () = Finset.Ico 4 12 ∧ s.arena.size (1 : Fin 2) = 8 := by decide +kernel
  obtain ⟨s, hs, hfree, hsize⟩ := hrun
  exact ⟨s, hfree, hsize, pages_sound (by decide)
    (Leads.of_runIf (fun _ _ => of_decide_eq_true) .init hs) ()⟩

end Pages

end H2.Qurt
