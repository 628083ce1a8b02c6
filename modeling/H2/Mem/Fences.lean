import H2.Mem.Permissions

/-!
# Mem/Fences — what the fences let through

Where an offset is the last stage, two fences are around the memory of a guest.  They are for pages
of the size of the offset, and the page at the upper fence is inside.  But how much of it is inside
is taken from the size that is asked for, so that small requests get the start of it only
(`offsetLowest_iff`).
-/

namespace H2

namespace Translation

variable (u : Translation)

/-- The number of 4 KB pages that a translation is for, … -/
def pages : ℕ := 4 ^ u.size.toNat

/-- … and the first of them. -/
def firstPage : ℕ := u.pn.toNat / u.pages * u.pages

theorem firstPage_le :
    0 < u.pages ∧ u.firstPage ≤ u.pn.toNat ∧ u.pn.toNat < u.firstPage + u.pages :=
  have hpos : 0 < u.pages := Nat.pow_pos (by decide)
  ⟨hpos, Nat.div_mul_le_self _ _, Nat.lt_div_mul_add hpos⟩

end Translation

/-- **A request is accepted just if all of its pages are between the fences**, up to the end of the
offset's page at the upper one. -/
def Maps.FencesRight (k : Maps) (b : VmMap) (o : OffsetFmt) (t : Translation) : Prop :=
  let u := offsetUpdate t o
  k.offsetLowest b t.pn u = u ↔ ∀ p, u.firstPage ≤ p → p < u.firstPage + u.pages →
    b.fenceLo.toNat ≤ p ∧ p < b.fenceHi.toNat + 4 ^ o.size.toNat

section Fences

variable {k : Maps} {b : VmMap} {t u : Translation} {o : OffsetFmt}

/-- What is compared with the fences. -/
theorem offsetLowest_eq_iff (hwindow : k.inWindow t.pn = false) (hhi : b.fenceHi.toNat < 2 ^ 20)
    (hu : u ≠ translateBad) : k.offsetLowest b t.pn u = u ↔
      b.fenceLo.toNat ≤ u.pn.toNat ∧ u.pn.toNat < b.fenceHi.toNat + u.pages := by
  have hle : 4 ^ u.size.toNat ≤ 4 ^ 15 :=
    Nat.pow_le_pow_right (by decide) (Nat.le_of_lt_succ u.size.isLt)
  have hbound : (b.fenceHi + (1#32 <<< (2 * u.size.toNat))).toNat = b.fenceHi.toNat + u.pages := by
    rw [BitVec.toNat_add, toNat_pages (Nat.le_of_lt_succ u.size.isLt)]
    exact Nat.mod_eq_of_lt (by omega)
  simp only [Maps.offsetLowest, hwindow, Bool.false_eq_true, if_false, BitVec.lt_def, BitVec.le_def,
    hbound]
  split
  · exact ⟨fun h => absurd h.symm hu, fun h => by omega⟩
  · exact ⟨fun _ => by omega, fun _ => rfl⟩

/-- Pages are as large as those of the offset, or at most half as large. -/
theorem pages_cases (hsize : u.size.toNat ≤ o.size.toNat) :
    u.size = o.size ∧ u.pages = 4 ^ o.size.toNat ∨
      u.size ≠ o.size ∧ 2 * u.pages ≤ 4 ^ o.size.toNat := by
  by_cases hsame : u.size = o.size
  · exact .inl ⟨hsame, by rw [Translation.pages, hsame]⟩
  · have hlt : u.size.toNat + 1 ≤ o.size.toNat :=
      Nat.lt_of_le_of_ne hsize fun h => hsame (BitVec.eq_of_toNat_eq h)
    have hpow : 4 ^ (u.size.toNat + 1) ≤ 4 ^ o.size.toNat := Nat.pow_le_pow_right (by decide) hlt
    exact .inr ⟨hsame, by rw [Translation.pages]; omega⟩

/-- **The fences are right** just if neither cuts through the pages of an accepted request, and no
request is for pages after the first ones of the offset's page at the upper fence. -/
theorem offsetLowest_iff (hwindow : k.inWindow t.pn = false) (hhi : b.fenceHi.toNat < 2 ^ 20)
    (hupdate : offsetUpdate t o = u) (hu : u ≠ translateBad) : k.FencesRight b o t ↔
      (b.fenceLo.toNat ≤ u.pn.toNat → u.pn.toNat < b.fenceHi.toNat + u.pages →
        b.fenceLo.toNat ≤ u.firstPage ∧ (u.size = o.size → u.firstPage ≤ b.fenceHi.toNat)) ∧
      (b.fenceLo.toNat ≤ u.firstPage → b.fenceHi.toNat + u.pages ≤ u.pn.toNat →
        b.fenceHi.toNat + 4 ^ o.size.toNat < u.firstPage + u.pages) := by
  have hfirst := u.firstPage_le
  have hall : (∀ p, u.firstPage ≤ p → p < u.firstPage + u.pages →
      b.fenceLo.toNat ≤ p ∧ p < b.fenceHi.toNat + 4 ^ o.size.toNat) ↔
      b.fenceLo.toNat ≤ u.firstPage ∧
        u.firstPage + u.pages ≤ b.fenceHi.toNat + 4 ^ o.size.toNat := by
    refine ⟨fun h => ?_, fun h p hp hp' => ⟨by omega, by omega⟩⟩
    have hlow := (h u.firstPage (Nat.le_refl _) (by omega)).1
    have hlast := (h (u.firstPage + u.pages - 1) (by omega) (by omega)).2
    omega
  have hsize : u.size.toNat ≤ o.size.toNat :=
    hupdate ▸ (toNat_minSize o.size t.size).trans_le (Nat.min_le_left _ _)
  rw [Maps.FencesRight, hupdate, offsetLowest_eq_iff hwindow hhi hu, hall]
  rcases pages_cases hsize with ⟨hsame, hlarge⟩ | ⟨hsame, hlarge⟩ <;>
    simp only [hsame, true_imp_iff, false_imp_iff, and_true] <;> omega

end Fences

/-- The first 16 KB page is for the guest: they are right for 16 KB of it, … -/
theorem offsetLowest_large : fencedList.FencesRight ⟨noMap, 0, 0⟩ 0xff1 (.ofPage 2) :=
  (offsetLowest_iff rfl (by decide) rfl (by decide)).mpr (by decide)

/-- … and wrong for 4 KB. -/
theorem offsetLowest_small :
    ¬fencedList.FencesRight ⟨noMap, 0, 0⟩ 0xff1 { Translation.ofPage 2 with size := 0 } := by
  intro h
  have hbad := h.mpr fun p _ hp => ⟨Nat.zero_le p, Nat.lt_of_lt_of_le hp (by decide)⟩
  exact absurd hbad (by decide)

end H2
