import Mathlib.Data.Fintype.Card

/-!
# Machinery/Threads — where threads are

Threads take steps in any order, and each is somewhere in its program.  `threadsAt p pc` are those
whose place has the property `p`: what becomes of them when one thread goes on, and when some of
them are sent on together.
-/

namespace H2

open Function

variable {ι P : Type} [dι : DecidableEq ι] [Fintype ι]

attribute [grind =] update_apply

/-- The threads that are at a place with a property. -/
def threadsAt (p : P → Bool) (pc : ι → P) : Finset ι := {t | p (pc t)}

variable {p : P → Bool} {pc : ι → P} {t : ι} {c : P}

omit dι in
@[simp, grind =] theorem mem_threadsAt : t ∈ threadsAt p pc ↔ p (pc t) = true := by simp [threadsAt]

/-- One thread goes where the property holds, … -/
theorem threadsAt_update_of_pos (hc : p c = true) :
    threadsAt p (update pc t c) = insert t (threadsAt p pc) := by
  ext u
  by_cases hut : u = t
  · subst hut
    simp [hc]
  · simp [hut]

/-- … or where it does not, … -/
theorem threadsAt_update_of_neg (hc : p c = false) :
    threadsAt p (update pc t c) = (threadsAt p pc).erase t := by
  ext u
  by_cases hut : u = t
  · subst hut
    simp [hc]
  · simp [hut]

/-- … or where it is as before. -/
theorem threadsAt_update_of_eq (hc : p c = p (pc t)) :
    threadsAt p (update pc t c) = threadsAt p pc := by
  ext u
  by_cases hut : u = t
  · subst hut
    simp [hc]
  · simp [hut]

/-- How many there are, when one thread goes on. -/
theorem card_threadsAt_update (p : P → Bool) (pc : ι → P) (t : ι) (c : P) :
    (threadsAt p (update pc t c)).card + (p (pc t)).toNat =
      (threadsAt p pc).card + (p c).toNat := by
  cases hc : p c with
  | true =>
    rw [threadsAt_update_of_pos hc]
    cases ht : p (pc t) with
    | true => rw [Finset.insert_eq_of_mem (mem_threadsAt.mpr ht)]
    | false => rw [Finset.card_insert_of_notMem (by simp [ht])]; rfl
  | false =>
    rw [threadsAt_update_of_neg hc]
    cases ht : p (pc t) with
    | true => exact Finset.card_erase_add_one (mem_threadsAt.mpr ht)
    | false => rw [Finset.erase_eq_of_notMem (by simp [ht])]

/-- Some threads are sent on to where the property does not hold. -/
theorem threadsAt_send {W : Finset ι} {f : P → P} (hf : ∀ u ∈ W, p (f (pc u)) = false) :
    threadsAt p (fun u => if u ∈ W then f (pc u) else pc u) = threadsAt p pc \ W := by
  ext u
  by_cases hu : u ∈ W
  · simp [hu, hf u hu]
  · simp [hu]

end H2
