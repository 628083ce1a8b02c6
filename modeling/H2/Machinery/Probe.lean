import Mathlib.Data.BitVec
import Mathlib.Data.Nat.Prime.Basic

/-!
# Machinery/Probe — hopping around a table

A table of `2 ^ w` places is searched from a start by hops of a fixed stride, around and around.
With an odd stride every place is met, in fewer hops than there are places (`exists_probe_eq`).
-/

namespace H2

variable {w : ℕ}

/-- The place after `i` hops. -/
def probe (start stride : BitVec w) (i : ℕ) : BitVec w := start + BitVec.ofNat w i * stride

@[simp] theorem probe_zero (start stride : BitVec w) : probe start stride 0 = start := by
  simp [probe]

/-- One hop, and then the others. -/
theorem probe_add_stride (start stride : BitVec w) (i : ℕ) :
    probe (start + stride) stride i = probe start stride (i + 1) := by
  rw [probe, probe, BitVec.ofNat_add, add_mul, BitVec.one_mul, add_assoc, add_comm stride]

/-- An odd number has an inverse. -/
theorem exists_mul_eq_one_of_odd {c : BitVec w} (hodd : c.toNat % 2 = 1) : ∃ d, d * c = 1#w := by
  rcases Nat.eq_zero_or_pos w with rfl | hw
  · exact ⟨0, Subsingleton.elim _ _⟩
  have hcop : c.toNat.Coprime (2 ^ w) := (Nat.odd_iff.mpr hodd).coprime_two_right.pow_right w
  obtain ⟨d, -, hd⟩ := Nat.exists_mul_mod_eq_one_of_coprime hcop (Nat.one_lt_two_pow hw.ne')
  refine ⟨BitVec.ofNat w d, BitVec.eq_of_toNat_eq ?_⟩
  rw [BitVec.toNat_mul, BitVec.toNat_ofNat, BitVec.toNat_ofNat, Nat.mod_mul_mod, mul_comm, hd,
    Nat.mod_eq_of_lt (Nat.one_lt_two_pow hw.ne')]

/-- **Every place is met.** -/
theorem exists_probe_eq (start : BitVec w) {stride : BitVec w} (hodd : stride.toNat % 2 = 1)
    (x : BitVec w) : ∃ i < 2 ^ w, probe start stride i = x := by
  obtain ⟨d, hd⟩ := exists_mul_eq_one_of_odd hodd
  refine ⟨((x - start) * d).toNat, BitVec.isLt _, ?_⟩
  rw [probe, BitVec.ofNat_toNat, BitVec.setWidth_eq, mul_assoc, hd]
  simp

end H2
