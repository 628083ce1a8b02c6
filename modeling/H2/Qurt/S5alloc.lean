import H2.Machinery.Chain
import H2.Qurt.Freelist

/-!
# Qurt/S5alloc — the stream the nodes come from

The nodes of the page lists are elements of one size.  Those not in use hang on a stream, linked
through the word that is a node's `next` field when it is in a page list; so the stream is one more
list on the same nodes.  An allocation pops its first element, asks for a block of the heap if there
is none, and gives up if there is none then either.

`Arena.Keeps` says which lists there are; `s5Alloc_spec` and `Keeps.s5Free` say what becomes of
them.
-/

namespace H2.Qurt

open Function List

/-- **The memory of the page lists**: every pointer, the two other fields of the nodes, and the
elements of the blocks the heap has to give.  The stream hangs from `head none`. -/
structure Arena (ρ ι : Type) where
  ptr : Hook (Option ρ) ι → Option ι
  base : ι → ℕ
  size : ι → ℕ
  heap : List (List ι)

namespace Arena

variable {ρ ι : Type} [dρ : DecidableEq ρ] [dι : DecidableEq ι]

@[simps -fullyApplied]
def setPtr (a : Arena ρ ι) (c : Hook (Option ρ) ι) (v : Option ι) : Arena ρ ι :=
  { a with ptr := update a.ptr c v }

@[simps -fullyApplied]
def setBase (a : Arena ρ ι) (x : ι) (v : ℕ) : Arena ρ ι :=
  { a with base := update a.base x v }

@[simps -fullyApplied]
def setSize (a : Arena ρ ι) (x : ι) (v : ℕ) : Arena ρ ι :=
  { a with size := update a.size x v }

/-- `qurt_s5_free`. -/
def s5Free (a : Arena ρ ι) (x : ι) : Arena ρ ι :=
  (a.setPtr (.next x) (a.ptr (.head none))).setPtr (.head none) (some x)

/-- `qurt_s5_feed`: the elements of a block, one after the other. -/
def s5Feed (a : Arena ρ ι) (block : List ι) : Arena ρ ι := block.foldl s5Free a

/-- `more_freelist_storage`. -/
def moreFreelistStorage (a : Arena ρ ι) : Arena ρ ι :=
  match a.heap with
  | [] => a
  | block :: heap => { a with heap := heap }.s5Feed block

/-- More memory is asked for if there is none on the stream. -/
def stocked (a : Arena ρ ι) : Arena ρ ι :=
  if a.ptr (.head none) = none then a.moreFreelistStorage else a

/-- `qurt_s5_alloc`.  `none` is the null pointer. -/
def s5Alloc (a : Arena ρ ι) : Option (ι × Arena ρ ι) :=
  (a.stocked.ptr (.head none)).map fun cur =>
    (cur, a.stocked.setPtr (.head none) (a.stocked.ptr (.next cur)))

/-- **The storage has run out**: nothing on the stream, and nothing to be had from the heap. -/
def Dry (a : Arena ρ ι) : Prop := a.ptr (.head none) = none ∧ ∀ block ∈ a.heap.head?, block = []

/-- The ranges of some nodes. -/
def nodes (a : Arena ρ ι) (xs : List ι) : List Node := xs.map fun x => ⟨a.base x, a.size x⟩

/-- **The lists of the arena**: the stream `K none`, and the page lists. -/
structure Keeps (a : Arena ρ ι) (K : Option ρ → List ι) : Prop where
  chains : Chains a.ptr K
  nodup : a.heap.flatten.Nodup
  fresh : ∀ x ∈ a.heap.flatten, ∀ j, x ∉ K j

/-! ## Links -/

variable {a a' : Arena ρ ι} {K : Option ρ → List ι} {k : Option ρ} {x : ι} {xs ys : List ι}

omit dρ dι in
theorem Keeps.congr (h : a.Keeps K) (hptr : a'.ptr = a.ptr) (hheap : a'.heap = a.heap) :
    a'.Keeps K :=
  ⟨hptr ▸ h.chains, hheap ▸ h.nodup, hheap ▸ h.fresh⟩

/-- A node leaves its list, and then is in no list. -/
theorem Keeps.unlink (h : a.Keeps K) (hk : K k = xs ++ x :: ys) :
    (a.setPtr ((Hook.head k).after xs) (a.ptr (.next x))).Keeps (update K k (xs ++ ys)) ∧
      ∀ j, x ∉ update K k (xs ++ ys) j := by
  have hx : x ∈ K k := hk ▸ mem_append_right _ (mem_cons_self ..)
  have hout : x ∉ xs ++ ys := (nodup_cons.mp (nodup_middle.mp (hk ▸ h.chains.nodup k))).1
  have hsub {j : Option ρ} {y : ι} (hy : y ∈ update K k (xs ++ ys) j) : y ∈ K j := by
    by_cases hj : j = k
    · subst hj
      rw [update_self] at hy
      rw [hk]
      exact append_subset.mpr ⟨subset_append_left .., fun z hz =>
        mem_append_right _ (mem_cons_of_mem _ hz)⟩ hy
    · rwa [update_of_ne hj] at hy
  refine ⟨⟨h.chains.unlink hk, h.nodup, fun y hy j hj => h.fresh y hy j (hsub hj)⟩, fun j hj => ?_⟩
  obtain rfl := h.chains.disjoint (hsub hj) hx
  rw [update_self] at hj
  exact hout hj

/-- A node that is in no list comes into one. -/
theorem Keeps.link (h : a.Keeps K) (hk : K k = xs ++ ys) (hx : ∀ j, x ∉ K j)
    (hheap : x ∉ a.heap.flatten) :
    ((a.setPtr (.next x) (a.ptr ((Hook.head k).after xs))).setPtr ((Hook.head k).after xs)
      (some x)).Keeps (update K k (xs ++ x :: ys)) where
  chains := h.chains.link hk hx
  nodup := h.nodup
  fresh y hy j hj := by
    by_cases hjk : j = k
    · subst hjk
      rw [update_self] at hj
      rcases mem_cons.mp (perm_middle.mem_iff.mp hj) with rfl | hj
      · exact hheap hy
      · exact h.fresh y hy j (hk ▸ hj)
    · rw [update_of_ne hjk] at hj
      exact h.fresh y hy j hj

/-! ## The stream -/

/-- A node in no list goes on the stream, … -/
theorem Keeps.s5Free (h : a.Keeps K) (hx : ∀ j, x ∉ K j) (hheap : x ∉ a.heap.flatten) :
    (a.s5Free x).Keeps (update K none (x :: K none)) :=
  h.link (show K none = [] ++ K none from rfl) hx hheap

/-- … and so do the elements of a block, … -/
theorem Keeps.s5Feed : ∀ {block : List ι} {a : Arena ρ ι} {K : Option ρ → List ι}, a.Keeps K →
    block.Nodup → (∀ x ∈ block, (∀ j, x ∉ K j) ∧ x ∉ a.heap.flatten) →
    (a.s5Feed block).Keeps (update K none (block.reverse ++ K none))
  | [], a, K, h, _, _ => by
      rw [reverse_nil, nil_append, update_eq_self]
      exact h
  | x :: block, a, K, h, hnd, hout => by
      obtain ⟨hx, hnd⟩ := nodup_cons.mp hnd
      obtain ⟨hxK, hxheap⟩ := hout x (mem_cons_self ..)
      have hnext := (h.s5Free hxK hxheap).s5Feed hnd fun y hy => by
        obtain ⟨hyK, hyheap⟩ := hout y (mem_cons_of_mem _ hy)
        refine ⟨fun j hj => ?_, hyheap⟩
        by_cases hjn : j = none
        · subst hjn
          rcases mem_cons.mp hj with rfl | hj
          · exact hx hy
          · exact hyK none hj
        · rw [update_of_ne hjn] at hj
          exact hyK j hj
      rw [update_idem, update_self] at hnext
      rw [reverse_cons, append_assoc]
      exact hnext

@[simp] theorem s5Feed_base (a : Arena ρ ι) : ∀ block : List ι, (a.s5Feed block).base = a.base := by
  intro block
  induction block generalizing a with
  | nil => rfl
  | cons x block ih => exact ih (a.s5Free x)

@[simp] theorem s5Feed_size (a : Arena ρ ι) : ∀ block : List ι, (a.s5Feed block).size = a.size := by
  intro block
  induction block generalizing a with
  | nil => rfl
  | cons x block ih => exact ih (a.s5Free x)

/-- … those of the heap's next one among them. -/
theorem Keeps.moreFreelistStorage (h : a.Keeps K) : a.moreFreelistStorage.Keeps
    (update K none ((a.heap.head?.getD []).reverse ++ K none)) := by
  unfold Arena.moreFreelistStorage
  cases hheap : a.heap with
  | nil =>
    simp only [head?_nil, Option.getD_none, reverse_nil, nil_append, update_eq_self]
    exact h
  | cons block heap =>
    have hnd := h.nodup
    have hfresh := h.fresh
    rw [hheap, flatten_cons] at hnd hfresh
    have hrest : Arena.Keeps { a with heap := heap } K :=
      ⟨h.chains, hnd.of_append_right, fun x hx => hfresh x (mem_append_right _ hx)⟩
    exact hrest.s5Feed hnd.of_append_left fun x hx =>
      ⟨hfresh x (mem_append_left _ hx), disjoint_of_nodup_append hnd hx⟩

@[simp] theorem stocked_base : a.stocked.base = a.base := by
  unfold stocked moreFreelistStorage
  split
  · split
    · rfl
    · exact s5Feed_base ..
  · rfl

@[simp] theorem stocked_size : a.stocked.size = a.size := by
  unfold stocked moreFreelistStorage
  split
  · split
    · rfl
    · exact s5Feed_size ..
  · rfl

/-- The stream is stocked, unless the storage has run out. -/
theorem Keeps.stocked (h : a.Keeps K) :
    ∃ S, a.stocked.Keeps (update K none S) ∧ (S = [] → a.Dry) := by
  unfold Arena.stocked
  have hhead := (h.chains.strung none).head?
  split
  · next hnone =>
    refine ⟨_, h.moreFreelistStorage, fun hS => ⟨hnone, fun block hblock => ?_⟩⟩
    have hempty := (append_eq_nil_iff.mp hS).1
    rw [Option.mem_def.mp hblock] at hempty
    exact reverse_eq_nil_iff.mp hempty
  · next hsome =>
    refine ⟨K none, (update_eq_self none K).symm ▸ h, fun hS => absurd ?_ hsome⟩
    rw [hhead, hS, head?_nil]

/-- **An allocation** takes an element that is in no list, and fails only when the storage has run
out. -/
theorem Keeps.s5Alloc (h : a.Keeps K) : a.s5Alloc = none ∧ a.Dry ∨
    ∃ x S, ∃ a' : Arena ρ ι, a.s5Alloc = some (x, a') ∧ a'.Keeps (update K none S) ∧
      (∀ j, x ∉ update K none S j) ∧ x ∉ a'.heap.flatten ∧
      a'.base = a.base ∧ a'.size = a.size := by
  obtain ⟨S, hkeeps, hdry⟩ := h.stocked
  have hhead := (hkeeps.chains.strung none).head?
  unfold Arena.s5Alloc
  cases S with
  | nil => exact .inl ⟨by rw [hhead]; rfl, hdry rfl⟩
  | cons x S =>
    obtain ⟨hpop, hx⟩ := hkeeps.unlink (show _ = [] ++ x :: S from update_self ..)
    rw [update_idem] at hpop hx
    refine .inr ⟨x, S, _, by rw [hhead]; rfl, hpop, hx, fun hheap => ?_, stocked_base, stocked_size⟩
    refine hkeeps.fresh x hheap none ?_
    exact mem_cons_self ..

end Arena

end H2.Qurt
