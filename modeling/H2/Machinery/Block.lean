import Mathlib.Data.BitVec

/-!
# Machinery/Block — the words of an aligned block

A block of `2 ^ n` words is what agrees from bit `n` on (`AgreeFrom n`).  A map of blocks to blocks
says where the first word goes, and every word of the block goes to the word with the same low bits:
`joinAt n hi lo` has the low `n` bits of the one and the others of the other.
-/

namespace H2

open BitVec

variable {w n m : ℕ} {x y z hi hi' lo lo' : BitVec w}

/-- **The words agree from bit `n` on.** -/
def AgreeFrom (n : ℕ) (x y : BitVec w) : Prop := x >>> n = y >>> n

/-- The bits of `lo` below bit `n`, and those of `hi` from there on. -/
def joinAt (n : ℕ) (hi lo : BitVec w) : BitVec w :=
  (hi &&& (allOnes w <<< n)) ||| (lo &&& ~~~(allOnes w <<< n))

theorem agreeFrom_iff : AgreeFrom n x y ↔ ∀ i, n ≤ i → x.getLsbD i = y.getLsbD i := by
  constructor
  · intro h i hi
    have hbit := congrArg (·.getLsbD (i - n)) h
    simpa only [getLsbD_ushiftRight, Nat.add_sub_cancel' hi] using hbit
  · intro h
    refine eq_of_getLsbD_eq fun i _ => ?_
    simp only [getLsbD_ushiftRight]
    exact h _ (Nat.le_add_right n i)

theorem agreeFrom_iff_div : AgreeFrom n x y ↔ x.toNat / 2 ^ n = y.toNat / 2 ^ n := by
  unfold AgreeFrom
  rw [← toNat_inj, toNat_ushiftRight, toNat_ushiftRight,
    Nat.shiftRight_eq_div_pow, Nat.shiftRight_eq_div_pow]

namespace AgreeFrom

theorem refl (n : ℕ) (x : BitVec w) : AgreeFrom n x x := rfl

theorem symm (h : AgreeFrom n x y) : AgreeFrom n y x := Eq.symm h

theorem trans (h : AgreeFrom n x y) (h' : AgreeFrom n y z) : AgreeFrom n x z := Eq.trans h h'

theorem mono (h : AgreeFrom n x y) (hnm : n ≤ m) : AgreeFrom m x y :=
  agreeFrom_iff.mpr fun i hi => agreeFrom_iff.mp h i (hnm.trans hi)

theorem eq_of_zero (h : AgreeFrom 0 x y) : x = y := by
  simpa [AgreeFrom] using h

/-- A bound of whole blocks has a whole block below it, or nothing of it. -/
theorem lt_iff (h : AgreeFrom n x y) {b : ℕ} (hb : 2 ^ n ∣ b) : x.toNat < b ↔ y.toNat < b := by
  obtain ⟨c, rfl⟩ := hb
  rw [agreeFrom_iff_div] at h
  rw [Nat.mul_comm, ← Nat.div_lt_iff_lt_mul (Nat.two_pow_pos n), h,
    Nat.div_lt_iff_lt_mul (Nat.two_pow_pos n)]

end AgreeFrom

theorem getLsbD_joinAt (n : ℕ) (hi lo : BitVec w) (i : ℕ) :
    (joinAt n hi lo).getLsbD i = if i < n then lo.getLsbD i else hi.getLsbD i := by
  by_cases hw : i < w
  · by_cases hin : i < n
    all_goals simp [joinAt, hw, hin]
  · simp [getLsbD_of_ge _ _ (Nat.le_of_not_lt hw)]

theorem agreeFrom_joinAt (n : ℕ) (hi lo : BitVec w) : AgreeFrom n (joinAt n hi lo) hi := by
  refine agreeFrom_iff.mpr fun i hi' => ?_
  rw [getLsbD_joinAt, if_neg (by omega)]

/-- What is joined does not matter above, nor what it is joined to below. -/
theorem joinAt_congr (hhi : AgreeFrom n hi hi') (hlo : ∀ i, i < n → lo.getLsbD i = lo'.getLsbD i) :
    joinAt n hi lo = joinAt n hi' lo' := by
  refine eq_of_getLsbD_eq fun i _ => ?_
  rw [getLsbD_joinAt, getLsbD_joinAt]
  split
  · next h => exact hlo i h
  · next h => exact agreeFrom_iff.mp hhi i (by omega)

/-- The words of a smaller block in a larger one. -/
theorem agreeFrom_joinAt_joinAt (h : AgreeFrom n lo lo') :
    AgreeFrom n (joinAt m hi lo) (joinAt m hi lo') := by
  refine agreeFrom_iff.mpr fun i hi' => ?_
  rw [getLsbD_joinAt, getLsbD_joinAt, agreeFrom_iff.mp h i hi']

theorem joinAt_self (h : AgreeFrom n hi lo) : joinAt n hi lo = lo := by
  refine eq_of_getLsbD_eq fun i _ => ?_
  rw [getLsbD_joinAt]
  split
  · rfl
  · next hin => exact agreeFrom_iff.mp h i (by omega)

/-! ## Moving by whole blocks -/

theorem toNat_mod_eq_iff :
    x.toNat % 2 ^ n = y.toNat % 2 ^ n ↔ ∀ i, i < n → x.getLsbD i = y.getLsbD i := by
  constructor
  · intro h i hi
    have hbit := congrArg (Nat.testBit · i) h
    simpa [Nat.testBit_mod_two_pow, hi, getLsbD] using hbit
  · intro h
    refine Nat.eq_of_testBit_eq fun i => ?_
    by_cases hi : i < n
    · simpa [hi, getLsbD] using h i hi
    · simp [hi]

section Move

variable {d : BitVec w} (hd : 2 ^ n ∣ d.toNat)

include hd

theorem getLsbD_add_of_dvd (hn : n ≤ w) {i : ℕ} (hi : i < n) : (x + d).getLsbD i = x.getLsbD i := by
  refine toNat_mod_eq_iff.mp ?_ i hi
  rw [toNat_add, Nat.mod_mod_of_dvd _ (Nat.pow_dvd_pow 2 hn), Nat.add_mod,
    Nat.mod_eq_zero_of_dvd hd, Nat.add_zero, Nat.mod_mod]

theorem AgreeFrom.add (hn : n ≤ w) (h : AgreeFrom n x y) : AgreeFrom n (x + d) (y + d) := by
  obtain ⟨c, hc⟩ := hd
  obtain ⟨e, he⟩ := Nat.pow_dvd_pow 2 hn
  rw [agreeFrom_iff_div] at h ⊢
  rw [toNat_add, toNat_add, hc, he, Nat.mod_mul_right_div_self,
    Nat.mod_mul_right_div_self, Nat.add_mul_div_left _ _ (Nat.two_pow_pos n),
    Nat.add_mul_div_left _ _ (Nat.two_pow_pos n), h]

end Move

end H2
