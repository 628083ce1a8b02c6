import Mathlib.Data.BitVec
import Mathlib.Tactic.Abel

/-!
# Machinery/Bytes — writing to memory that goes round

Memory is a function of addresses of a fixed width, so what is written beyond the last address goes
on at the first.  Two writes one behind the other are one, as long as they do not meet again
(`writeAt_append`); every other fact about writes is a look at one address.
-/

namespace H2

variable {w : ℕ} {α : Type} {mem : BitVec w → α} {a x : BitVec w} {bs xs ys : List α}

/-- The memory with `bs` written from `a` on. -/
def writeAt (mem : BitVec w → α) (a : BitVec w) (bs : List α) : BitVec w → α :=
  fun x => (bs[(x - a).toNat]?).getD (mem x)

theorem writeAt_nil : writeAt mem a [] = mem := rfl

theorem toNat_add_sub_self {d : ℕ} (hd : d < 2 ^ w) : (a + BitVec.ofNat w d - a).toNat = d := by
  rw [add_sub_cancel_left, BitVec.toNat_ofNat, Nat.mod_eq_of_lt hd]

/-- What is read at a distance. -/
theorem writeAt_add {d : ℕ} (hd : d < 2 ^ w) :
    writeAt mem a bs (a + BitVec.ofNat w d) = (bs[d]?).getD (mem (a + BitVec.ofNat w d)) := by
  rw [writeAt, toNat_add_sub_self hd]

theorem writeAt_of_ne (hx : ∀ d < bs.length, x ≠ a + BitVec.ofNat w d) :
    writeAt mem a bs x = mem x := by
  rw [writeAt, List.getElem?_eq_none, Option.getD_none]
  by_contra hlt
  refine hx (x - a).toNat (Nat.lt_of_not_le hlt) ?_
  rw [BitVec.ofNat_toNat, BitVec.setWidth_eq]
  abel

/-- **Writes one behind the other** are one write. -/
theorem writeAt_append (h : xs.length + ys.length ≤ 2 ^ w) :
    writeAt (writeAt mem a xs) (a + BitVec.ofNat w xs.length) ys = writeAt mem a (xs ++ ys) := by
  funext x
  have hx := (x - a).isLt
  have hsub : x - (a + BitVec.ofNat w xs.length) = x - a - BitVec.ofNat w xs.length := by abel
  unfold writeAt
  rw [hsub, BitVec.toNat_sub, BitVec.toNat_ofNat]
  generalize (x - a).toNat = k at hx
  rcases Nat.lt_or_ge k xs.length with hlt | hge
  · -- the second write begins behind, and does not come round as far
    have hmod : xs.length % 2 ^ w = xs.length ∨ ys.length = 0 := by
      rcases Nat.eq_zero_or_pos ys.length with hzero | hpos
      · exact .inr hzero
      · exact .inl (Nat.mod_eq_of_lt (by omega))
    have hnone : ys[(2 ^ w - xs.length % 2 ^ w + k) % 2 ^ w]? = none := by
      refine List.getElem?_eq_none ?_
      rcases hmod with hmod | hzero
      · rw [hmod, Nat.mod_eq_of_lt (by omega)]
        omega
      · omega
    rw [hnone, Option.getD_none, List.getElem?_append_left hlt]
  · have hmod : (2 ^ w - xs.length % 2 ^ w + k) % 2 ^ w = k - xs.length := by
      have hlen : xs.length < 2 ^ w := hge.trans_lt hx
      rw [Nat.mod_eq_of_lt hlen]
      have hsum : 2 ^ w - xs.length + k = k - xs.length + 2 ^ w := by omega
      rw [hsum, Nat.add_mod_right, Nat.mod_eq_of_lt (by omega)]
    rw [hmod, List.getElem?_append_right hge, List.getElem?_eq_none hge, Option.getD_none]

end H2
