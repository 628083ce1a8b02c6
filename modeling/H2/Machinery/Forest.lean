import H2.Machinery.SearchTree
import Mathlib.Data.Fintype.Card

/-!
# Machinery/Forest — trees of nodes that point at one another

The child fields of all nodes and the root variables are *cells* that hold a pointer or nothing.
`Points f p T` reads the tree `T` off the cells from the pointer `p`; it depends on the child
fields of `T`'s own nodes only (`Points.congr`), which is all that is needed to change one tree and
keep another.
-/

namespace H2

open BinaryTree

variable {ρ ι : Type*}

/-- A cell that holds a pointer: a root variable or a child field. -/
inductive Slot (ρ ι : Type*) where
  | root (r : ρ)
  | left (x : ι)
  | right (x : ι)
  deriving DecidableEq

/-- What every cell holds. -/
abbrev Cells (ρ ι : Type*) := Slot ρ ι → Option ι

/-- The node a cell is a field of. -/
@[simp] def Slot.owner : Slot ρ ι → Option ι
  | .root _ => none
  | .left x => some x
  | .right x => some x

/-- A cell that is not a field of any of these nodes. -/
def Slot.Outside (s : Slot ρ ι) (xs : List ι) : Prop := ∀ x ∈ xs, s.owner ≠ some x

namespace Slot

variable {s : Slot ρ ι} {x : ι} {xs ys : List ι}

@[simp] theorem outside_cons : s.Outside (x :: xs) ↔ s.owner ≠ some x ∧ s.Outside xs := by
  simp [Outside]

@[simp] theorem outside_append : s.Outside (xs ++ ys) ↔ s.Outside xs ∧ s.Outside ys := by
  simp [Outside, or_imp, forall_and]

@[simp] theorem outside_root (r : ρ) : (Slot.root r : Slot ρ ι).Outside xs := by
  simp [Outside, owner]

theorem outside_iff (hs : s.owner = some x) : s.Outside xs ↔ x ∉ xs := by
  simp only [Outside, hs, ne_eq, Option.some.injEq]
  exact ⟨fun h hx => h x hx rfl, fun h y hy e => h (e ▸ hy)⟩

@[simp] theorem outside_left : (Slot.left x : Slot ρ ι).Outside xs ↔ x ∉ xs := outside_iff rfl

@[simp] theorem outside_right : (Slot.right x : Slot ρ ι).Outside xs ↔ x ∉ xs := outside_iff rfl

/-- A field of one of the nodes is another cell. -/
theorem Outside.ne (h : s.Outside xs) (hx : x ∈ xs) {s' : Slot ρ ι} (hs' : s'.owner = some x) :
    s' ≠ s := by
  rintro rfl
  exact h x hx hs'

theorem Outside.mono (h : s.Outside ys) (hsub : xs ⊆ ys) : s.Outside xs :=
  fun x hx => h x (hsub hx)

end Slot

/-- The tree that hangs from a pointer. -/
def Points (f : Cells ρ ι) : Option ι → BinaryTree ι → Prop
  | p, .nil => p = none
  | p, .node x l r => p = some x ∧ Points f (f (.left x)) l ∧ Points f (f (.right x)) r

namespace Points

variable {f f' : Cells ρ ι} {p : Option ι} {T : BinaryTree ι}

/-- A tree survives any change to cells that are not its nodes' own. -/
theorem congr : ∀ {p : Option ι} {T : BinaryTree ι}, Points f p T →
    (∀ x ∈ inorder T, f' (.left x) = f (.left x) ∧ f' (.right x) = f (.right x)) → Points f' p T
  | _, .nil, h, _ => h
  | _, .node x l r, ⟨hp, hl, hr⟩, hf => by
      simp only [inorder_node, List.mem_append, List.mem_cons] at hf
      obtain ⟨hxl, hxr⟩ := hf x (.inr (.inl rfl))
      exact ⟨hp, hxl ▸ hl.congr fun y hy => hf y (.inl hy),
        hxr ▸ hr.congr fun y hy => hf y (.inr (.inr hy))⟩

/-- The same, for a change described by the cells. -/
theorem owned (h : Points f p T)
    (hf : ∀ {s : Slot ρ ι} {x : ι}, s.owner = some x → x ∈ inorder T → f' s = f s) :
    Points f' p T :=
  h.congr fun _ hx => ⟨hf rfl hx, hf rfl hx⟩

end Points

/-- A tree without repetitions has no more nodes than there are. -/
theorem numNodes_le_card [Fintype ι] {T : BinaryTree ι} (h : (inorder T).Nodup) :
    T.numNodes ≤ Fintype.card ι := by
  rw [← length_inorder]
  exact h.length_le_card

end H2
