import H2.Data.Readylist
import H2.Hexagon.Bitfield

/-!
# Hexagon/Marker — the lowest set bit, and fields

A word of a table or a TLB entry says how large it is by its lowest set bit: the rest is above it.
The instructions find the bit, clear it, and move the fields above it.
-/

namespace H2

open Nat

theorem toNat_one_shiftLeft {n s : ℕ} (hs : s < n) : (1#n <<< s).toNat = 2 ^ s := by
  have hone : 1 < 2 ^ n := Nat.one_lt_two_pow (by omega)
  rw [BitVec.toNat_shiftLeft, Nat.shiftLeft_eq, BitVec.toNat_ofNat, Nat.mod_eq_of_lt hone,
    Nat.one_mul, Nat.mod_eq_of_lt (Nat.pow_lt_pow_right Nat.one_lt_two hs)]

theorem toNat_mask {n s : ℕ} (hs : s < n) : ((1#n <<< s) - 1).toNat = 2 ^ s - 1 := by
  have hpos := Nat.two_pow_pos s
  have hshift := toNat_one_shiftLeft hs
  have hone : (1 : BitVec n).toNat = 1 := Nat.mod_eq_of_lt (Nat.one_lt_two_pow (by omega))
  rw [BitVec.toNat_sub_of_le (BitVec.le_def.mpr (by omega)), hone, hshift]

/-! ## The lowest set bit -/

section Marker

variable {w : BitVec 32} {s : ℕ}

theorem ct0_eq_of_bits (hs : s < 32) (hbit : w.getLsbD s = true)
    (hlow : ∀ i < s, w.getLsbD i = false) : ct0 w = s := by
  obtain ⟨hbefore, hend⟩ := firstIn_ct0 w
  rcases lt_trichotomy (ct0 w) s with hlt | heq | hgt
  · rcases hend with h | ⟨-, -, h⟩
    · omega
    · rw [hlow _ hlt] at h
      cases h
  · exact heq
  · rw [hbefore s (zero_le s) hgt] at hbit
    cases hbit

theorem testBit_marker {a i : ℕ} : (2 ^ (s + 1) * a + 2 ^ s).testBit i =
    if i < s + 1 then decide (i = s) else a.testBit (i - (s + 1)) := by
  rw [Nat.testBit_two_pow_mul_add a (Nat.pow_lt_pow_right Nat.one_lt_two (Nat.lt_succ_self s)),
    Nat.testBit_two_pow]
  simp only [eq_comm]

/-- **The lowest set bit** splits a word. -/
theorem toNat_eq_marker {n : ℕ} {w : BitVec n} (hbit : w.getLsbD s = true)
    (hlow : ∀ i < s, w.getLsbD i = false) :
    w.toNat = 2 ^ (s + 1) * (w.toNat / 2 ^ (s + 1)) + 2 ^ s := by
  refine eq_of_testBit_eq fun i => ?_
  rw [testBit_marker, testBit_div_two_pow]
  split
  · next hi =>
    rcases Nat.lt_succ_iff_lt_or_eq.mp hi with hlt | rfl
    · rw [decide_eq_false hlt.ne]
      exact hlow i hlt
    · rw [decide_eq_true rfl]
      exact hbit
  · next hi => rw [Nat.sub_add_cancel (Nat.le_of_not_lt hi)]

theorem getLsbD_of_ct0 (hs : s < 32) (hct0 : ct0 w = s) :
    w.getLsbD s = true ∧ ∀ i < s, w.getLsbD i = false := by
  obtain ⟨hbefore, hend⟩ := firstIn_ct0 w
  subst hct0
  refine ⟨?_, fun i hi => hbefore i (zero_le i) hi⟩
  rcases hend with h | ⟨-, -, h⟩
  · omega
  · exact h

theorem ct0_eq_iff (hs : s < 32) : ct0 w = s ↔ ∃ a, w.toNat = 2 ^ (s + 1) * a + 2 ^ s := by
  constructor
  · intro hct0
    obtain ⟨hbit, hlow⟩ := getLsbD_of_ct0 hs hct0
    exact ⟨_, toNat_eq_marker hbit hlow⟩
  · rintro ⟨a, ha⟩
    have hget (i : ℕ) : w.getLsbD i = (2 ^ (s + 1) * a + 2 ^ s).testBit i := by
      rw [← ha]
      rfl
    refine ct0_eq_of_bits hs ?_ fun i hi => ?_
    · rw [hget, testBit_marker, if_pos (lt_succ_self s), decide_eq_true rfl]
    · rw [hget, testBit_marker, if_pos (lt_succ_of_lt hi), decide_eq_false hi.ne]

theorem toNat_and_pred {n a : ℕ} {w : BitVec n} (hw : w.toNat = 2 ^ (s + 1) * a + 2 ^ s) :
    (w &&& (w - 1)).toNat = 2 ^ (s + 1) * a := by
  have hpos := Nat.two_pow_pos s
  have hpred : (w - 1).toNat = 2 ^ (s + 1) * a + (2 ^ s - 1) := by
    have hlt : 1 < 2 ^ n := by
      have := w.isLt
      omega
    have hone : (1 : BitVec n).toNat = 1 := Nat.mod_eq_of_lt hlt
    rw [BitVec.toNat_sub_of_le (BitVec.le_def.mpr (by omega)), hone]
    omega
  rw [BitVec.toNat_and, hw, hpred]
  refine Nat.eq_of_testBit_eq fun i => ?_
  have hlt : 2 ^ s - 1 < 2 ^ (s + 1) :=
    (Nat.sub_lt hpos Nat.one_pos).trans (Nat.pow_lt_pow_right Nat.one_lt_two (Nat.lt_succ_self s))
  rw [Nat.testBit_and, testBit_marker, Nat.testBit_two_pow_mul_add a hlt, Nat.testBit_two_pow_mul]
  by_cases hi : i < s + 1
  · have hge : ¬i ≥ s + 1 := Nat.not_le.mpr hi
    rcases Nat.lt_succ_iff_lt_or_eq.mp hi with hlt' | rfl
    · simp only [hi, if_true, hlt'.ne, decide_false, Bool.false_and, hge]
    · simp
  · have hge : i ≥ s + 1 := Nat.le_of_not_lt hi
    simp [hi, hge]

theorem getLsbD_and_pred {n : ℕ} {w : BitVec n} (hbit : w.getLsbD s = true)
    (hlow : ∀ i < s, w.getLsbD i = false) (i : ℕ) :
    (w &&& (w - 1)).getLsbD i = (decide (s < i) && w.getLsbD i) := by
  have hw := toNat_eq_marker hbit hlow
  rw [BitVec.getLsbD, BitVec.getLsbD, toNat_and_pred hw, testBit_two_pow_mul, testBit_div_two_pow]
  by_cases hi : s < i
  · rw [Nat.sub_add_cancel hi]
    rfl
  · simp [hi, Nat.not_le.mpr (Nat.lt_succ_of_le (Nat.le_of_not_lt hi))]

end Marker

/-! ## Fields -/

theorem getLsbD_mask {n s i : ℕ} (hs : s < n) : ((1#n <<< s) - 1).getLsbD i = decide (i < s) := by
  rw [BitVec.getLsbD, toNat_mask hs, Nat.testBit_two_pow_sub_one]

theorem getLsbD_ones {w i : ℕ} (hw : w < 64) : (ones w).getLsbD i = decide (i < w) :=
  getLsbD_mask hw

/-- A field that is taken out, … -/
theorem getLsbD_extractuRP {rs width offset : BitVec 32} {i : ℕ} (hwidth : width.toNat < 64)
    (hoffset : offset.toNat < 64) (hi : i < 32) : (extractuRP rs width offset).getLsbD i =
      (rs.getLsbD (offset.toNat + i) && decide (i < width.toNat)) := by
  have hnn : ¬(offset.toNat : ℤ) < 0 := by omega
  simp only [extractuRP, if_neg hnn, sxt7_of_lt hoffset, Int.toNat_natCast, mod_eq_of_lt hwidth,
    BitVec.getLsbD_setWidth, BitVec.getLsbD_and, BitVec.getLsbD_ushiftRight, getLsbD_ones hwidth]
  by_cases hlt : offset.toNat + i < 64
  · simp [hi, hlt]
  · have : rs.getLsbD (offset.toNat + i) = false := BitVec.getLsbD_of_ge _ _ (by omega)
    simp [this]

/-- … and one that is put in. -/
theorem getLsbD_insertPII {rxx rss : BitVec 64} {width offset i : ℕ} (hwidth : width < 64)
    (hi : i < 64) : (insertPII rxx rss width offset).getLsbD i =
      if offset ≤ i ∧ i < offset + width then rss.getLsbD (i - offset) else rxx.getLsbD i := by
  simp only [insertPII, BitVec.getLsbD_or, BitVec.getLsbD_and, BitVec.getLsbD_not,
    BitVec.getLsbD_shiftLeft, getLsbD_ones hwidth]
  rcases lt_or_ge i offset with hlt | hge
  · simp [hi, hlt, Nat.not_le.mpr hlt]
  · by_cases hin : i < offset + width
    · simp [hi, hge, Nat.not_lt.mpr hge, hin, show i - offset < width by omega]
    · simp [hi, Nat.not_lt.mpr hge, hin, show ¬i - offset < width by omega]

theorem getLsbD_insertPP {rxx rss : BitVec 64} {width offset : BitVec 32} {i : ℕ}
    (hwidth : width.toNat < 64) (hoffset : offset.toNat < 64) (hi : i < 64) :
    (insertPP rxx rss width offset).getLsbD i =
      if offset.toNat ≤ i ∧ i < offset.toNat + width.toNat then rss.getLsbD (i - offset.toNat)
      else rxx.getLsbD i := by
  have hnn : ¬(offset.toNat : ℤ) < 0 := by omega
  rw [insertPP, sxt7_of_lt hoffset, if_neg hnn, Int.toNat_natCast, mod_eq_of_lt hwidth,
    getLsbD_insertPII hwidth hi]

theorem getLsbD_insertRP {rx rs width offset : BitVec 32} {i : ℕ} (hwidth : width.toNat < 64)
    (hoffset : offset.toNat < 64) (hi : i < 32) : (insertRP rx rs width offset).getLsbD i =
      if offset.toNat ≤ i ∧ i < offset.toNat + width.toNat then rs.getLsbD (i - offset.toNat)
      else rx.getLsbD i := by
  rw [insertRP, BitVec.getLsbD_setWidth, getLsbD_insertPP hwidth hoffset (by omega)]
  simp [hi, show i < 64 by omega, show i - offset.toNat < 64 by omega]

end H2
