import H2.Hexagon.Packet

/-!
# Hexagon/Reciprocal — division by a constant, through a long multiplication

A 64-bit quotient by a constant is the high part of a product with a rounded-up reciprocal.  The
product is assembled from four 32-bit partial products, so there are two facts: the pieces add up
to the high half (`highHalf_eq`), and the rounding error of the reciprocal never reaches the
quotient (`mul_div_two_pow_eq_div`).
-/

namespace H2.Hexagon

/-- **A rounded-up reciprocal divides exactly** — while the accumulated error `n * e` stays below
one unit of the scale. -/
theorem mul_div_two_pow_eq_div {n d m k e : ℕ} (hd : 0 < d) (hm : m * d = 2 ^ k + e)
    (he : n * e < 2 ^ k) : n * m / 2 ^ k = n / d := by
  have hnm : n * m * d = n * 2 ^ k + n * e := by rw [mul_assoc, hm, mul_add]
  have hlow : n / d * d ≤ n := Nat.div_mul_le_self n d
  have hhigh : n + 1 ≤ (n / d + 1) * d := by
    have := Nat.lt_mul_div_succ n hd
    rw [mul_comm] at this
    exact this
  apply Nat.div_eq_of_lt_le
  · refine Nat.le_of_mul_le_mul_right ?_ hd
    calc n / d * 2 ^ k * d = n / d * d * 2 ^ k := by ring
      _ ≤ n * 2 ^ k := Nat.mul_le_mul_right _ hlow
      _ ≤ n * m * d := by omega
  · refine Nat.lt_of_mul_lt_mul_right (a := d) ?_
    calc n * m * d < (n + 1) * 2 ^ k := by rw [hnm, add_mul, one_mul]; omega
      _ ≤ (n / d + 1) * d * 2 ^ k := Nat.mul_le_mul_right _ hhigh
      _ = (n / d + 1) * 2 ^ k * d := by ring

/-- The middle column of the long multiplication: the two cross products and the carry out of the
low one.  `unit` is the register the low word of `hi * m0` is multiplied by to widen it. -/
def middleColumn (hi lo m1 m0 unit : Word) : Dword :=
  join 0 (upper (wideMul lo m0)) + wideMul lo m1 + wideMul (lower (wideMul hi m0)) unit

/-- The high half as the packets assemble it. -/
def highHalf (hi lo m1 m0 unit : Word) : Dword :=
  wideMul hi m1 + wideMul hi m0 >>> 32 + middleColumn hi lo m1 m0 unit >>> 32

theorem mul_toNat_join_div (x : ℕ) (m1 m0 : Word) :
    x * (join m1 m0).toNat / 2 ^ 32 = x * m1.toNat + x * m0.toNat / 2 ^ 32 := by
  rw [toNat_join, mul_add, ← mul_assoc]
  omega

theorem mul_toNat_join_mod (x : ℕ) (m1 m0 : Word) :
    x * (join m1 m0).toNat % 2 ^ 32 = x * m0.toNat % 2 ^ 32 := by
  rw [toNat_join, mul_add, ← mul_assoc]
  omega

/-- The middle column in `ℕ`, with the wrap it may have. -/
theorem toNat_middleColumn (hi lo m1 m0 unit : Word) : (middleColumn hi lo m1 m0 unit).toNat =
      (lo.toNat * (join m1 m0).toNat / 2 ^ 32
        + hi.toNat * (join m1 m0).toNat % 2 ^ 32 * unit.toNat) % 2 ^ 64 := by
  rw [mul_toNat_join_div, mul_toNat_join_mod]
  simp only [middleColumn, BitVec.toNat_add, toNat_join, toNat_upper, toNat_wideMul, toNat_lower,
    BitVec.ofNat_eq_ofNat, BitVec.toNat_ofNat]
  omega

/-- The high half in `ℕ`; only the middle column can wrap. -/
theorem toNat_highHalf (hi lo m1 m0 unit : Word) : (highHalf hi lo m1 m0 unit).toNat =
      hi.toNat * (join m1 m0).toNat / 2 ^ 32
        + (middleColumn hi lo m1 m0 unit).toNat / 2 ^ 32 := by
  have hlow : hi.toNat * m0.toNat ≤ (2 ^ 32 - 1) * (2 ^ 32 - 1) :=
    Nat.mul_le_mul (by have := hi.isLt; omega) (by have := m0.isLt; omega)
  have hhigh : hi.toNat * m1.toNat ≤ (2 ^ 32 - 1) * (2 ^ 32 - 1) :=
    Nat.mul_le_mul (by have := hi.isLt; omega) (by have := m1.isLt; omega)
  rw [mul_toNat_join_div]
  simp only [highHalf, BitVec.toNat_add, BitVec.toNat_ushiftRight, toNat_wideMul,
    Nat.shiftRight_eq_div_pow]
  omega

/-- **The pieces add up to the high half** when the widening multiplier is one. -/
theorem highHalf_eq (hi lo m1 m0 : Word) : (highHalf hi lo m1 m0 1).toNat =
      (join hi lo).toNat * (join m1 m0).toNat / 2 ^ 64 := by
  have hcross : lo.toNat * m1.toNat ≤ (2 ^ 32 - 1) * (2 ^ 32 - 1) :=
    Nat.mul_le_mul (by have := lo.isLt; omega) (by have := m1.isLt; omega)
  have hlow : lo.toNat * m0.toNat ≤ (2 ^ 32 - 1) * (2 ^ 32 - 1) :=
    Nat.mul_le_mul (by have := lo.isLt; omega) (by have := m0.isLt; omega)
  have hprod : (hi.toNat * 2 ^ 32 + lo.toNat) * (m1.toNat * 2 ^ 32 + m0.toNat) =
      hi.toNat * m1.toNat * 2 ^ 64 + (hi.toNat * m0.toNat + lo.toNat * m1.toNat) * 2 ^ 32
        + lo.toNat * m0.toNat := by ring
  rw [toNat_highHalf, toNat_middleColumn, mul_toNat_join_div, mul_toNat_join_div,
    mul_toNat_join_mod, toNat_join, toNat_join, hprod]
  simp only [BitVec.ofNat_eq_ofNat, BitVec.toNat_ofNat]
  omega

end H2.Hexagon
