import Mathlib.Algebra.Order.BigOperators.Group.List
import Mathlib.Algebra.GroupWithZero.Nat

/-!
# Machinery/Tiling — a row of blocks

Blocks of given lengths are laid one after the other, from a place on.  What is said of a block may
depend on something the block before it hands on, and what is said of the place after the last block
on what that one hands on.  A row is changed in the middle by changing what comes after its first
part (`Tiles.replace`).
-/

namespace H2

variable {α σ : Type} {len : α → ℕ} {out : α → σ}

/-- How far a row reaches. -/
def extent (len : α → ℕ) (bs : List α) : ℕ := (bs.map len).sum

@[simp] theorem extent_nil : extent len [] = 0 := rfl

@[simp] theorem extent_cons (b : α) (bs : List α) : extent len (b :: bs) = len b + extent len bs :=
  List.sum_cons

@[simp] theorem extent_append (as bs : List α) :
    extent len (as ++ bs) = extent len as + extent len bs := by
  simp [extent]

/-- **A row of blocks** from a place on: `P f p b` says that `b` is at `p` and comes after a block
that hands on `f`, and `E f p` that the row ends at `p` with a block that does. -/
def Tiles (len : α → ℕ) (out : α → σ) (P : σ → ℕ → α → Prop) (E : σ → ℕ → Prop) :
    σ → ℕ → List α → Prop
  | f, p, [] => E f p
  | f, p, b :: bs => P f p b ∧ Tiles len out P E (out b) (p + len b) bs

variable {P P' : σ → ℕ → α → Prop} {E E' : σ → ℕ → Prop} {f : σ} {p : ℕ}

/-- The second part of a row is what the first ends with. -/
theorem tiles_append (as bs : List α) : Tiles len out P E f p (as ++ bs) ↔
    Tiles len out P (fun g q => Tiles len out P E g q bs) f p as := by
  induction as generalizing f p with
  | nil => exact Iff.rfl
  | cons a as ih => exact and_congr_right fun _ => ih

theorem Tiles.imp : ∀ {bs : List α} {f : σ} {p : ℕ}, Tiles len out P E f p bs →
    (∀ g q, ∀ b ∈ bs, p ≤ q → q + len b ≤ p + extent len bs → P g q b → P' g q b) →
    (∀ g, E g (p + extent len bs) → E' g (p + extent len bs)) → Tiles len out P' E' f p bs
  | [], f, p, h, _, hE => hE f h
  | b :: bs, f, p, h, hP, hE => by
    rw [extent_cons, ← Nat.add_assoc] at hE
    refine ⟨hP f p b (List.mem_cons_self ..) le_rfl (by simp) h.1, h.2.imp ?_ hE⟩
    intro g q c hc hpq hq
    exact hP g q c (List.mem_cons_of_mem _ hc) (by omega) (by rw [extent_cons]; omega)

/-- **A row changes from a place on**, if it does not change before. -/
theorem Tiles.replace {as bs bs' : List α} (h : Tiles len out P E f p (as ++ bs))
    (hP : ∀ g q, ∀ b ∈ as, p ≤ q → q + len b ≤ p + extent len as → P g q b → P' g q b)
    (hrest : ∀ g, Tiles len out P E g (p + extent len as) bs →
      Tiles len out P' E' g (p + extent len as) bs') :
    Tiles len out P' E' f p (as ++ bs') :=
  (tiles_append as bs').mpr (((tiles_append as bs).mp h).imp hP hrest)

theorem Tiles.rest {as bs : List α} (h : Tiles len out P E f p (as ++ bs)) :
    ∃ g, Tiles len out P E g (p + extent len as) bs := by
  induction as generalizing f p with
  | nil => exact ⟨f, h⟩
  | cons a as ih =>
    obtain ⟨g, hg⟩ := ih h.2
    exact ⟨g, by rwa [extent_cons, ← Nat.add_assoc]⟩

theorem Tiles.stop {bs : List α} (h : Tiles len out P E f p bs) : ∃ g, E g (p + extent len bs) := by
  rw [← List.append_nil bs] at h
  exact h.rest

/-- **Two blocks of a row** are the same, or one comes before the other. -/
theorem append_cons_cases {as as' bs bs' : List α} {a b : α} (h : as ++ a :: bs = as' ++ b :: bs') :
    (as = as' ∧ a = b ∧ bs = bs') ∨ (∃ ms, as' = as ++ a :: ms) ∨ ∃ ms, as = as' ++ b :: ms := by
  rcases List.append_eq_append_iff.mp h with ⟨cs, rfl, hcs⟩ | ⟨cs, rfl, hcs⟩
  · cases cs with
    | nil =>
      obtain ⟨rfl, rfl⟩ := List.cons.inj hcs
      exact .inl ⟨(List.append_nil as).symm, rfl, rfl⟩
    | cons c cs =>
      obtain ⟨rfl, -⟩ := List.cons.inj hcs
      exact .inr (.inl ⟨cs, rfl⟩)
  · cases cs with
    | nil =>
      obtain ⟨rfl, rfl⟩ := List.cons.inj hcs
      exact .inl ⟨List.append_nil as', rfl, rfl⟩
    | cons c cs =>
      obtain ⟨rfl, -⟩ := List.cons.inj hcs
      exact .inr (.inr ⟨cs, rfl⟩)

end H2
