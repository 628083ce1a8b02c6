import H2.Mem.Safemem

/-!
# Mem/Tlb — cached translations

Translations are cached in the TLB of the hardware and, behind it, in the software TLB.  Each entry
carries the address space it is of.  The software TLB keeps for each address space a bit for every
set, and nothing is found in a set whose bit is clear; so all of an address space is dropped by
clearing its bits (`Stlb.lookup_invalidateAsid`).
-/

namespace H2

/-- `STLB_MAX_SETS`. -/
def stlbMaxSets : ℕ := 2048

/-- `STLB_MAX_WAYS`. -/
def stlbMaxWays : ℕ := 4

/-! ## The TLB of the hardware -/

/-- The address space of an entry. -/
def tlbfmtAsid (entry : BitVec 64) : BitVec 7 := entry.extractLsb' 52 7

def tlbfmtGlobal (entry : BitVec 64) : Bool := entry.getLsbD 62

def tlbfmtValid (entry : BitVec 64) : Bool := entry.getLsbD 63

/-- The instruction: no entry of the address space is valid, but for those that are global. -/
def tlbinvasid (asid : BitVec 7) (tlb : ℕ → BitVec 64) (i : ℕ) : BitVec 64 :=
  if tlbfmtAsid (tlb i) = asid ∧ tlbfmtGlobal (tlb i) = false then tlb i &&& ~~~(1#64 <<< 63)
  else tlb i

theorem tlbfmtValid_tlbinvasid {asid : BitVec 7} {tlb : ℕ → BitVec 64} {i : ℕ}
    (hasid : tlbfmtAsid (tlbinvasid asid tlb i) = asid)
    (hglobal : tlbfmtGlobal (tlbinvasid asid tlb i) = false) :
    tlbfmtValid (tlbinvasid asid tlb i) = false := by
  unfold tlbinvasid at hasid hglobal ⊢
  split
  · simp [tlbfmtValid]
  · next hnot =>
    rw [if_neg hnot] at hasid hglobal
    exact absurd ⟨hasid, hglobal⟩ hnot

/-! ## The software TLB -/

/-- The valid bits of each address space, and the entries. -/
structure Stlb where
  valids : BitVec 7 → ℕ → Bool
  bulk : ℕ → BitVec 64

namespace Stlb

/-- `baseaddr`: the entries of an address space start here. -/
def base (asid : BitVec 7) : ℕ := asid.toNat * (stlbMaxSets / 128)

/-- The set of an address. -/
def setOf (va : BitVec 32) : ℕ := (va >>> 12).toNat % stlbMaxSets

/-- Where the ways of an address are. -/
def slot (asid : BitVec 7) (va : BitVec 32) (i : ℕ) : ℕ := base asid + setOf va * stlbMaxWays + i

/-- What is looked for. -/
def asidVa (va : BitVec 32) (asid : BitVec 7) : BitVec 32 := va >>> 12 ||| asid.setWidth 32 <<< 20

/-- `H2K_mem_stlb_find`, for what the instruction `tlbmatch` matches. -/
def find (tlbmatch : BitVec 64 → BitVec 32 → Bool) (va : BitVec 32) (asid : BitVec 7) (s : Stlb) :
    Option ℕ :=
  if s.valids asid (setOf va) then
    (List.range stlbMaxWays).findSome? fun i =>
      if tlbmatch (s.bulk (slot asid va i)) (asidVa va asid) then some (slot asid va i) else none
  else none

/-- `H2K_mem_stlb_lookup`: an entry, or 0. -/
def lookup (tlbmatch : BitVec 64 → BitVec 32 → Bool) (va : BitVec 32) (asid : BitVec 7) (s : Stlb) :
    BitVec 64 :=
  match s.find tlbmatch va asid with
  | some i => s.bulk i
  | none => 0

/-- `H2K_mem_stlb_invalidate_asid`. -/
def invalidateAsid (asid : BitVec 7) (s : Stlb) : Stlb :=
  { s with valids := Function.update s.valids asid fun _ => false }

/-- **Nothing is found** in an address space that was invalidated. -/
theorem lookup_invalidateAsid (tlbmatch : BitVec 64 → BitVec 32 → Bool) (va : BitVec 32)
    (asid : BitVec 7) (s : Stlb) : (s.invalidateAsid asid).lookup tlbmatch va asid = 0 := by
  simp [lookup, find, invalidateAsid]

end Stlb

end H2
