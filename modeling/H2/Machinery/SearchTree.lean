import Mathlib.Data.List.Nodup
import Mathlib.Data.Tree.Basic
import Mathlib.Order.Lattice

/-!
# Machinery/SearchTree — search trees with duplicate keys

Trees over a type of nodes, ordered by a key function: left keys are at most the node's key, right
keys are above it.  Three operations, each with what it does to the nodes in order and to the
search property:

* `graft` hangs a whole tree below, where a search for a key ends;
* `prune` takes a node out, its left subtree in its place and the right one grafted below that;
* `bisect` splits at a key.
-/

namespace H2

open BinaryTree List

variable {ι κ : Type*}

/-! ## The nodes in order -/

/-- The nodes of a tree, from left to right. -/
def inorder : BinaryTree ι → List ι
  | .nil => []
  | .node x l r => inorder l ++ x :: inorder r

@[simp] theorem inorder_nil : inorder (.nil : BinaryTree ι) = [] := rfl

@[simp] theorem inorder_node (x : ι) (l r : BinaryTree ι) :
    inorder (.node x l r) = inorder l ++ x :: inorder r := rfl

theorem length_inorder : ∀ T : BinaryTree ι, (inorder T).length = T.numNodes
  | .nil => rfl
  | .node x l r => by
      simp only [inorder, length_append, length_cons, numNodes, length_inorder l, length_inorder r]
      omega

/-- What a list without repetitions says about a node and its subtrees. -/
theorem nodup_inorder_node {x : ι} {l r : BinaryTree ι} :
    (inorder (.node x l r)).Nodup ↔ (inorder l).Nodup ∧ (inorder r).Nodup ∧ x ∉ inorder l ∧
      x ∉ inorder r ∧ (inorder l).Disjoint (inorder r) := by
  rw [inorder, nodup_append', nodup_cons, disjoint_cons_right]
  tauto

section Search

variable [LinearOrder κ] (key : ι → κ)

/-- Left keys are at most the node's key, right keys are above it. -/
def IsSearch : BinaryTree ι → Prop
  | .nil => True
  | .node x l r => (∀ y ∈ inorder l, key y ≤ key x) ∧ (∀ y ∈ inorder r, key x < key y) ∧
      IsSearch l ∧ IsSearch r

variable {key}

theorem IsSearch.congr {key' : ι → κ} : ∀ {T : BinaryTree ι}, IsSearch key T →
    (∀ x ∈ inorder T, key' x = key x) → IsSearch key' T
  | .nil, _, _ => trivial
  | .node x l r, ⟨hl, hr, hsl, hsr⟩, hk => by
      simp only [inorder_node, mem_append, mem_cons] at hk
      refine ⟨fun y hy => ?_, fun y hy => ?_, hsl.congr fun y hy => hk y (.inl hy),
        hsr.congr fun y hy => hk y (.inr (.inr hy))⟩
      · rw [hk y (.inl hy), hk x (.inr (.inl rfl))]
        exact hl y hy
      · rw [hk y (.inr (.inr hy)), hk x (.inr (.inl rfl))]
        exact hr y hy

/-- **In order means in non-decreasing key order.** -/
theorem IsSearch.pairwise : ∀ {T : BinaryTree ι}, IsSearch key T →
    (inorder T).Pairwise (key · ≤ key ·)
  | .nil, _ => .nil
  | .node x l r, ⟨hl, hr, hsl, hsr⟩ => by
      rw [inorder, pairwise_append, pairwise_cons]
      refine ⟨hsl.pairwise, ⟨fun y hy => (hr y hy).le, hsr.pairwise⟩, fun a ha b hb => ?_⟩
      rcases mem_cons.mp hb with rfl | hb
      · exact hl a ha
      · exact (hl a ha).trans (hr b hb).le

variable (key)

/-! ## Grafting -/

/-- Hang `N` where the search for `k` ends. -/
def graft (k : κ) (N : BinaryTree ι) : BinaryTree ι → BinaryTree ι
  | .nil => N
  | .node x l r => if k ≤ key x then .node x (graft k N l) r else .node x l (graft k N r)

variable {key} {k : κ} {N : BinaryTree ι}

theorem mem_inorder_graft {y : ι} : ∀ {T : BinaryTree ι},
    y ∈ inorder (graft key k N T) ↔ y ∈ inorder N ∨ y ∈ inorder T
  | .nil => by simp [graft]
  | .node x l r => by
      rw [graft]
      split
      · simp only [inorder_node, mem_append, mem_cons, mem_inorder_graft, or_assoc]
      · simp only [inorder_node, mem_append, mem_cons, mem_inorder_graft]
        tauto

theorem nodup_inorder_graft : ∀ {T : BinaryTree ι}, (inorder T).Nodup → (inorder N).Nodup →
    (inorder T).Disjoint (inorder N) → (inorder (graft key k N T)).Nodup
  | .nil, _, hN, _ => hN
  | .node x l r, hT, hN, hd => by
      obtain ⟨hl, hr, hxl, hxr, hlr⟩ := nodup_inorder_node.mp hT
      simp only [inorder_node, disjoint_append_left, disjoint_cons_left] at hd
      obtain ⟨hdl, hxN, hdr⟩ := hd
      rw [graft]
      split
      · refine nodup_inorder_node.mpr ⟨nodup_inorder_graft hl hN hdl, hr, ?_, hxr, ?_⟩
        · rw [mem_inorder_graft]
          exact not_or.mpr ⟨hxN, hxl⟩
        · intro y hy hyr
          exact (mem_inorder_graft.mp hy).elim (hdr hyr) (hlr · hyr)
      · refine nodup_inorder_node.mpr ⟨hl, nodup_inorder_graft hr hN hdr, hxl, ?_, ?_⟩
        · rw [mem_inorder_graft]
          exact not_or.mpr ⟨hxN, hxr⟩
        · intro y hyl hy
          exact (mem_inorder_graft.mp hy).elim (hdl hyl) (hlr hyl ·)

/-- Grafting a search tree all of whose keys compare with the tree's as `k` does. -/
theorem IsSearch.graft : ∀ {T : BinaryTree ι}, IsSearch key T → IsSearch key N →
    (∀ y ∈ inorder T, ∀ z ∈ inorder N, key z ≤ key y ↔ k ≤ key y) → IsSearch key (graft key k N T)
  | .nil, _, hN, _ => hN
  | .node x l r, ⟨hl, hr, hsl, hsr⟩, hN, hcmp => by
      simp only [inorder_node, mem_append, mem_cons] at hcmp
      rw [H2.graft]
      split
      · next hk =>
        refine ⟨fun y hy => ?_, hr, hsl.graft hN fun y hy => hcmp y (.inl hy), hsr⟩
        rcases mem_inorder_graft.mp hy with hy | hy
        · exact (hcmp x (.inr (.inl rfl)) y hy).mpr hk
        · exact hl y hy
      · next hk =>
        refine ⟨hl, fun y hy => ?_, hsl, hsr.graft hN fun y hy => hcmp y (.inr (.inr hy))⟩
        rcases mem_inorder_graft.mp hy with hy | hy
        · exact not_le.mp fun h => hk ((hcmp x (.inr (.inl rfl)) y hy).mp h)
        · exact hr y hy

/-- Above every key, the graft goes to the right end. -/
theorem inorder_graft_of_lt : ∀ {T : BinaryTree ι}, (∀ y ∈ inorder T, key y < k) →
    inorder (graft key k N T) = inorder T ++ inorder N
  | .nil, _ => rfl
  | .node x l r, hlt => by
      simp only [inorder_node, mem_append, mem_cons] at hlt
      have hx : ¬k ≤ key x := not_le.mpr (hlt x (.inr (.inl rfl)))
      rw [graft, if_neg hx, inorder_node, inorder_graft_of_lt fun y hy => hlt y (.inr (.inr hy))]
      simp

variable (key)

/-! ## Pruning -/

/-- The tree left when a root goes: its left subtree with the right one grafted below. -/
def splice (l : BinaryTree ι) : BinaryTree ι → BinaryTree ι
  | .nil => l
  | .node z a b => graft key (key z) (.node z a b) l

variable [dι : DecidableEq ι]

/-- Search for node `x` by key `k`, and take it out. -/
def prune (k : κ) (x : ι) : BinaryTree ι → BinaryTree ι
  | .nil => .nil
  | .node y l r =>
    if y = x then splice key l r
    else if k ≤ key y then .node y (prune k x l) r
    else .node y l (prune k x r)

variable {key} {x : ι}

omit dι in
/-- Keys on the left below keys on the right: `splice` puts one list after the other. -/
theorem inorder_splice {l r : BinaryTree ι}
    (hlr : ∀ y ∈ inorder l, ∀ z ∈ inorder r, key y < key z) :
    inorder (splice key l r) = inorder l ++ inorder r := by
  cases r with
  | nil => simp [splice]
  | node z a b => exact inorder_graft_of_lt fun y hy => hlr y hy z (by simp)

omit dι in
theorem IsSearch.splice {l r : BinaryTree ι} (hl : IsSearch key l) (hr : IsSearch key r)
    (hlr : ∀ y ∈ inorder l, ∀ z ∈ inorder r, key y < key z) : IsSearch key (splice key l r) := by
  cases r with
  | nil => exact hl
  | node z a b =>
    refine hl.graft hr fun y hy w hw => ?_
    have hz : key y < key z := hlr y hy z (by simp)
    exact ⟨fun h => absurd (hlr y hy w hw) (not_lt.mpr h), fun h => absurd hz (not_lt.mpr h)⟩

/-- **Pruning a node of a search tree** takes exactly that node out of the list. -/
theorem inorder_prune : ∀ {T : BinaryTree ι}, IsSearch key T → (inorder T).Nodup →
    x ∈ inorder T → inorder (prune key (key x) x T) = (inorder T).erase x
  | .node y l r, ⟨hl, hr, hsl, hsr⟩, hnd, hx => by
      obtain ⟨hndl, hndr, hyl, -, hlr⟩ := nodup_inorder_node.mp hnd
      rw [prune, inorder_node]
      by_cases hyx : y = x
      · subst hyx
        rw [if_pos rfl, inorder_splice fun a ha b hb => (hl a ha).trans_lt (hr b hb),
          erase_append_right _ hyl, erase_cons_head]
      · rw [if_neg hyx]
        simp only [inorder_node, mem_append, mem_cons, Ne.symm hyx, false_or] at hx
        rcases hx with hx | hx
        · rw [if_pos (hl x hx), inorder_node, inorder_prune hsl hndl hx, erase_append_left _ hx]
        · have hxl : x ∉ inorder l := fun h => hlr h hx
          rw [if_neg (not_le.mpr (hr x hx)), inorder_node, inorder_prune hsr hndr hx,
            erase_append_right _ hxl, erase_cons_tail (by simpa using hyx)]

theorem mem_inorder_of_mem_prune {y : ι} : ∀ {T : BinaryTree ι},
    y ∈ inorder (prune key k x T) → y ∈ inorder T
  | .nil, h => h
  | .node z l r, h => by
      rw [prune] at h
      split_ifs at h
      · cases r with
        | nil => exact mem_append_left _ h
        | node w a b =>
          rcases mem_inorder_graft.mp h with h | h
          · simp only [inorder_node, mem_append, mem_cons] at h ⊢
            tauto
          · exact mem_append_left _ h
      · simp only [inorder_node, mem_append, mem_cons] at h ⊢
        exact h.imp_left mem_inorder_of_mem_prune
      · simp only [inorder_node, mem_append, mem_cons] at h ⊢
        exact h.imp_right (Or.imp_right mem_inorder_of_mem_prune)

theorem IsSearch.prune : ∀ {T : BinaryTree ι}, IsSearch key T → IsSearch key (prune key k x T)
  | .nil, _ => trivial
  | .node y l r, ⟨hl, hr, hsl, hsr⟩ => by
      rw [H2.prune]
      split_ifs
      · exact hsl.splice hsr fun a ha b hb => (hl a ha).trans_lt (hr b hb)
      · exact ⟨fun z hz => hl z (mem_inorder_of_mem_prune hz), hr, hsl.prune, hsr⟩
      · exact ⟨hl, fun z hz => hr z (mem_inorder_of_mem_prune hz), hsl, hsr.prune⟩

variable (key)

/-! ## Bisecting -/

/-- Split into the nodes with key at most `k` and those above. -/
def bisect (k : κ) : BinaryTree ι → BinaryTree ι × BinaryTree ι
  | .nil => (.nil, .nil)
  | .node x l r =>
    if key x ≤ k then (.node x l (bisect k r).1, (bisect k r).2)
    else ((bisect k l).1, .node x (bisect k l).2 r)

variable {key}

section

omit dι

/-- **Both halves keep the order of the list.** -/
theorem inorder_bisect : ∀ {T : BinaryTree ι}, IsSearch key T →
    inorder (bisect key k T).1 = (inorder T).filter (key · ≤ k) ∧
      inorder (bisect key k T).2 = (inorder T).filter (k < key ·)
  | .nil, _ => ⟨rfl, rfl⟩
  | .node x l r, ⟨hl, hr, hsl, hsr⟩ => by
      rw [bisect]
      split
      · next hx =>
        have hle : ∀ y ∈ inorder l, key y ≤ k := fun y hy => (hl y hy).trans hx
        have hfst : (inorder l).filter (key · ≤ k) = inorder l :=
          filter_eq_self.mpr fun y hy => by simpa using hle y hy
        have hsnd : (inorder l).filter (k < key ·) = [] :=
          filter_eq_nil_iff.mpr fun y hy => by simpa using hle y hy
        obtain ⟨ih₁, ih₂⟩ := inorder_bisect hsr
        simp [ih₁, ih₂, hfst, hsnd, hx]
      · next hx =>
        have hlt : ∀ y ∈ inorder r, k < key y := fun y hy => (not_le.mp hx).trans (hr y hy)
        have hfst : (inorder r).filter (key · ≤ k) = [] :=
          filter_eq_nil_iff.mpr fun y hy => by simpa using hlt y hy
        have hsnd : (inorder r).filter (k < key ·) = inorder r :=
          filter_eq_self.mpr fun y hy => by simpa using hlt y hy
        obtain ⟨ih₁, ih₂⟩ := inorder_bisect hsl
        simp [ih₁, ih₂, hfst, hsnd, not_le.mp hx]

theorem mem_inorder_of_mem_bisect {y : ι} : ∀ {T : BinaryTree ι},
    y ∈ inorder (bisect key k T).1 ∨ y ∈ inorder (bisect key k T).2 → y ∈ inorder T
  | .nil, h => by simp [bisect] at h
  | .node x l r, h => by
      rw [bisect] at h
      split at h <;> simp only [inorder_node, mem_append, mem_cons] at h ⊢
      · have := @mem_inorder_of_mem_bisect y r
        tauto
      · have := @mem_inorder_of_mem_bisect y l
        tauto

theorem IsSearch.bisect : ∀ {T : BinaryTree ι}, IsSearch key T →
    IsSearch key (bisect key k T).1 ∧ IsSearch key (bisect key k T).2
  | .nil, _ => ⟨trivial, trivial⟩
  | .node x l r, ⟨hl, hr, hsl, hsr⟩ => by
      rw [H2.bisect]
      split
      · exact ⟨⟨hl, fun y hy => hr y (mem_inorder_of_mem_bisect (.inl hy)), hsl, hsr.bisect.1⟩,
          hsr.bisect.2⟩
      · exact ⟨hsl.bisect.1,
          fun y hy => hl y (mem_inorder_of_mem_bisect (.inr hy)), hr, hsl.bisect.2, hsr⟩

end

end Search

end H2
