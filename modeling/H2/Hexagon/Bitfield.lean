import H2.Machinery.Block

/-!
# Hexagon/Bitfield — instructions on bit fields

The instructions that shift a register or move a field of one take the amount from another register:
the low seven bits of the offset, signed, and the low six of the width.  A shift by a negative
amount is one the other way.
-/

namespace H2

/-- The amount of a shift, from a register. -/
def sxt7 (r : BitVec 32) : ℤ := (r.setWidth 7).toInt

/-- So many ones. -/
def ones (width : ℕ) : BitVec 64 := (1#64 <<< width) - 1

/-- `Rd=asl(Rs,Rt)`. -/
def aslR (rs rt : BitVec 32) : BitVec 32 :=
  if sxt7 rt < 0 then ((rs.signExtend 64).sshiftRight (-sxt7 rt).toNat).setWidth 32
  else ((rs.signExtend 64) <<< (sxt7 rt).toNat).setWidth 32

/-- `Rd=extractu(Rs,Rtt)`, with the width in the upper word of `Rtt` and the offset in the lower. -/
def extractuRP (rs width offset : BitVec 32) : BitVec 32 :=
  let shifted :=
    if sxt7 offset < 0 then rs.setWidth 64 <<< (-sxt7 offset).toNat
    else rs.setWidth 64 >>> (sxt7 offset).toNat
  (shifted &&& ones (width.toNat % 64)).setWidth 32

/-- `Rxx=insert(Rss,#u6,#U6)`. -/
def insertPII (rxx rss : BitVec 64) (width offset : ℕ) : BitVec 64 :=
  (rxx &&& ~~~(ones width <<< offset)) ||| ((rss &&& ones width) <<< offset)

/-- `Rxx=insert(Rss,Rtt)`. -/
def insertPP (rxx rss : BitVec 64) (width offset : BitVec 32) : BitVec 64 :=
  if sxt7 offset < 0 then 0 else insertPII rxx rss (width.toNat % 64) (sxt7 offset).toNat

/-- `Rx=insert(Rs,Rtt)`. -/
def insertRP (rx rs width offset : BitVec 32) : BitVec 32 :=
  (insertPP (rx.setWidth 64) (rs.setWidth 64) width offset).setWidth 32

/-! ## What the fields are -/

theorem sxt7_of_lt {r : BitVec 32} (hr : r.toNat < 64) : sxt7 r = r.toNat := by
  have hmod : r.toNat % 2 ^ 7 = r.toNat := Nat.mod_eq_of_lt (by omega)
  rw [sxt7, BitVec.toInt_eq_toNat_cond, BitVec.toNat_setWidth, hmod, if_pos (by omega)]

variable {p q v width offset : BitVec 32}

/-- A field reads nothing of the bits below it. -/
theorem extractuRP_congr (hoffset : offset.toNat < 64) (h : AgreeFrom offset.toNat p q) :
    extractuRP p width offset = extractuRP q width offset := by
  have hnn : ¬(offset.toNat : ℤ) < 0 := by omega
  simp only [extractuRP, if_neg hnn, sxt7_of_lt hoffset, Int.toNat_natCast]
  have hshift : p.setWidth 64 >>> offset.toNat = q.setWidth 64 >>> offset.toNat := by
    refine BitVec.eq_of_getLsbD_eq fun i hi => ?_
    simp only [BitVec.getLsbD_ushiftRight, BitVec.getLsbD_setWidth,
      agreeFrom_iff.mp h _ (Nat.le_add_right offset.toNat i)]
  rw [hshift]

/-- A field that is inserted leaves the bits below it as they are. -/
theorem insertRP_eq_joinAt (hoffset : offset.toNat < 64) (h : AgreeFrom offset.toNat p q) :
    insertRP q v width offset = joinAt offset.toNat (insertRP p v width offset) q := by
  have hnn : ¬(offset.toNat : ℤ) < 0 := by omega
  refine BitVec.eq_of_getLsbD_eq fun i hi => ?_
  rw [getLsbD_joinAt]
  simp only [insertRP, insertPP, insertPII, if_neg hnn, sxt7_of_lt hoffset, Int.toNat_natCast,
    BitVec.getLsbD_setWidth, BitVec.getLsbD_or, BitVec.getLsbD_and, BitVec.getLsbD_not,
    BitVec.getLsbD_shiftLeft]
  split
  · next hlt => simp [hlt, hi, show i < 64 by omega]
  · next hge => simp [agreeFrom_iff.mp h i (Nat.le_of_not_lt hge)]

end H2
