import H2.Machinery.Leads
import H2.Mem.Tlb

/-!
# Mem/Stlb — the software TLB

The software TLB has 2048 sets of four ways for each of 128 address spaces, in storage that is twice
what one of them needs: the address spaces are laid over each other, each a little further than the
one before.  So what is found in a set may be of another address space, and is told by its asid; and
what was left from before all of an address space was dropped has to be wiped when a set is first
used again.

A lookup never gives what is stale or foreign (`stlb_sound`).  But taking an address out is another
matter.  An entry may be in more than one way of a set, or with a large page in more than one set,
and `H2K_mem_stlb_invalidate_va` clears one way for each page; and when the end of the range wraps,
it clears nothing (`clrmap_leaves`).  What it takes to take all out is in `clrmap_unmaps`.
-/

namespace H2

open Function BitVec

/-! ## The instruction -/

/-- The page size of an entry: there are `4 ^ n` pages of 4K, for the first bit `n` that is set. -/
def tlbfmtPageSize (entry : BitVec 64) : ℕ := (List.range 32).findIdx (entry.getLsbD ·)

/-- `tlbmatch`: the entry is valid, and has the address space and the page, up to its size.  There
is a largest size that the instruction knows. -/
def tlbmatch (m : Fin 11) (entry : BitVec 64) (asidVa : BitVec 32) : Bool :=
  let mask := 0x07ffffff#32 &&& allOnes 32 <<< (2 * min m.val (tlbfmtPageSize entry))
  tlbfmtValid entry && (entry.extractLsb' 32 32 &&& mask == asidVa &&& mask)

/-- The page of an entry has an address. -/
def TlbCovers (entry : BitVec 64) (va : BitVec 32) : Prop :=
  entry.extractLsb' 32 20 >>> (2 * tlbfmtPageSize entry) =
    va.extractLsb' 12 20 >>> (2 * tlbfmtPageSize entry)

instance (entry : BitVec 64) (va : BitVec 32) : Decidable (TlbCovers entry va) :=
  inferInstanceAs (Decidable (_ = _))

/-- `STLB_ENTRIES`. -/
def stlbEntries : ℕ := stlbMaxSets * stlbMaxWays * 2

namespace Stlb

/-! ## The operations -/

/-- `H2K_mem_stlb_init`: in memory that holds anything. -/
def init (bulk : ℕ → BitVec 64) : Stlb where
  valids _ _ := false
  bulk := bulk

/-- What `H2K_mem_stlb_add` does with a way of a set whose bit is clear: what is there of the
address space is from before. -/
def scrubWay (asid : BitVec 7) (va : BitVec 32) (bulk : ℕ → BitVec 64) (i : ℕ) : ℕ → BitVec 64 :=
  if tlbfmtAsid (bulk (slot asid va i)) = asid then update bulk (slot asid va i) 0 else bulk

/-- … and with the set. -/
def scrub (asid : BitVec 7) (va : BitVec 32) (bulk : ℕ → BitVec 64) : ℕ → BitVec 64 :=
  (List.range stlbMaxWays).foldl (scrubWay asid va) bulk

/-- `H2K_mem_stlb_add`, for the way that the cycle counter picks. -/
def add (va : BitVec 32) (asid : BitVec 7) (entry : BitVec 64) (way : Fin 4) (s : Stlb) : Stlb :=
  let s :=
    if s.valids asid (setOf va) then s
    else
      { valids := update s.valids asid (update (s.valids asid) (setOf va) true)
        bulk := scrub asid va s.bulk }
  { s with bulk := update s.bulk (slot asid va way) entry }

/-- `H2K_mem_stlb_invalidate_va`, for one page. -/
def invalidatePage (m : Fin 11) (asid : BitVec 7) (s : Stlb) (page : ℕ) : Stlb :=
  match s.find (tlbmatch m) (BitVec.ofNat 32 page <<< 12) asid with
  | some i => { s with bulk := update s.bulk i 0 }
  | none => s

/-- The first and the last page of `H2K_mem_stlb_invalidate_va`. -/
def startPage (va : BitVec 32) : ℕ := (va >>> 12).toNat

@[inherit_doc startPage]
def endPage (va count : BitVec 32) : ℕ := ((va + count - 1) >>> 12).toNat

/-- `H2K_mem_stlb_invalidate_va`. -/
def invalidateVa (m : Fin 11) (va count : BitVec 32) (asid : BitVec 7) (s : Stlb) : Stlb :=
  (List.range' (startPage va) (endPage va count + 1 - startPage va)).foldl (invalidatePage m asid) s

/-- `H2K_vmtrap_clrmap`, as far as the software TLB is concerned. -/
def clrmap (m : Fin 11) (va count : BitVec 32) (asid : BitVec 7) (s : Stlb) : Stlb :=
  if count = 0 then s else s.invalidateVa m va count asid

/-! ## What is found -/

/-- A way of an address that matches. -/
def Hit (m : Fin 11) (s : Stlb) (asid : BitVec 7) (va : BitVec 32) (k : ℕ) : Prop :=
  s.valids asid (setOf va) = true ∧ tlbmatch m (s.bulk (slot asid va k)) (asidVa va asid) = true

section Find

variable {m : Fin 11} {s : Stlb} {asid : BitVec 7} {va : BitVec 32} {i : ℕ}

theorem find_eq_some (h : s.find (tlbmatch m) va asid = some i) : ∃ k < 4, i = slot asid va k ∧
    s.Hit m asid va k := by
  unfold find at h
  split at h
  · next hvalid =>
    obtain ⟨k, hk, hi⟩ := List.exists_of_findSome?_eq_some h
    split at hi
    · next hmatch =>
      cases hi
      exact ⟨k, List.mem_range.mp hk, rfl, hvalid, hmatch⟩
    · cases hi
  · cases h

theorem find_eq_none : s.find (tlbmatch m) va asid = none ↔ ∀ k < 4, ¬s.Hit m asid va k := by
  unfold find Hit
  split
  · next hvalid =>
    rw [List.findSome?_eq_none_iff]
    refine forall_congr' fun k => ?_
    simp only [List.mem_range, hvalid, true_and]
    exact imp_congr_right fun _ => by simp
  · next hvalid => simp [hvalid]

/-- 0 is not valid, … -/
theorem tlbmatch_zero (m : Fin 11) (av : BitVec 32) : tlbmatch m 0 av = false := rfl

theorem ne_zero_of_tlbmatch {entry : BitVec 64} {av : BitVec 32} (h : tlbmatch m entry av = true) :
    entry ≠ 0 := by
  rintro rfl
  cases h

/-- … so a lookup gives 0 if and only if nothing matches, … -/
theorem lookup_eq_zero : s.lookup (tlbmatch m) va asid = 0 ↔ ∀ k < 4, ¬s.Hit m asid va k := by
  unfold lookup
  cases hfind : s.find (tlbmatch m) va asid with
  | none => exact iff_of_true rfl (find_eq_none.mp hfind)
  | some i =>
    obtain ⟨k, hk, rfl, hhit⟩ := find_eq_some hfind
    exact iff_of_false (ne_zero_of_tlbmatch hhit.2) fun h => h k hk hhit

/-- … and otherwise something that does. -/
theorem exists_hit_of_lookup (h : s.lookup (tlbmatch m) va asid ≠ 0) : ∃ k < 4,
    s.lookup (tlbmatch m) va asid = s.bulk (slot asid va k) ∧ s.Hit m asid va k := by
  unfold lookup at h ⊢
  cases hfind : s.find (tlbmatch m) va asid with
  | none => simp [hfind] at h
  | some i =>
    obtain ⟨k, hk, rfl, hhit⟩ := find_eq_some hfind
    exact ⟨k, hk, rfl, hhit⟩

end Find

end Stlb

/-! ## Matching -/

section Match

variable {m : Fin 11} {entry : BitVec 64} {asid : BitVec 7} {va : BitVec 32}

/-- The bits that are compared. -/
theorem tlbmatch_bits (h : tlbmatch m entry (Stlb.asidVa va asid) = true) {i : ℕ} (hi : i < 27)
    (hsize : 2 * min m.val (tlbfmtPageSize entry) ≤ i) :
    entry.getLsbD (32 + i) = (Stlb.asidVa va asid).getLsbD i := by
  unfold tlbmatch at h
  simp only [Bool.and_eq_true, beq_iff_eq] at h
  generalize 2 * min m.val (tlbfmtPageSize entry) = n at h hsize
  have hmask : (0x07ffffff#32 &&& allOnes 32 <<< n).getLsbD i = true := by
    have hlow : 0x07ffffff#32 = allOnes 32 >>> 5 := by decide
    rw [getLsbD_and, hlow, getLsbD_ushiftRight, getLsbD_shiftLeft,
      getLsbD_allOnes, getLsbD_allOnes, decide_eq_true (by omega),
      decide_eq_true (by omega), decide_eq_false (Nat.not_lt.mpr hsize), decide_eq_true (by omega)]
    rfl
  generalize 0x07ffffff#32 &&& allOnes 32 <<< n = mask at h hmask
  have hbit := congrArg (fun w => getLsbD w i) h.2
  rw [getLsbD_and, getLsbD_and, hmask, Bool.and_true, Bool.and_true,
    getLsbD_extractLsb', decide_eq_true (by omega), Bool.true_and] at hbit
  exact hbit

/-- **What matches is of the address space**, … -/
theorem tlbfmtAsid_of_tlbmatch (h : tlbmatch m entry (Stlb.asidVa va asid) = true) :
    tlbfmtAsid entry = asid := by
  refine eq_of_getLsbD_eq fun j hj => ?_
  have hbit := tlbmatch_bits h (i := 20 + j) (by omega) (by omega)
  have hva : va.getLsbD (12 + (20 + j)) = false := getLsbD_of_ge _ _ (by omega)
  rw [tlbfmtAsid, getLsbD_extractLsb', decide_eq_true hj, Bool.true_and,
    show 52 + j = 32 + (20 + j) by omega, hbit]
  simp [Stlb.asidVa, hva, hj, show 20 + j < 32 by omega]

/-- … and has the address. -/
theorem tlbCovers_of_tlbmatch (h : tlbmatch m entry (Stlb.asidVa va asid) = true) :
    TlbCovers entry va := by
  refine eq_of_getLsbD_eq fun j hj => ?_
  simp only [getLsbD_ushiftRight, getLsbD_extractLsb']
  by_cases hlt : 2 * tlbfmtPageSize entry + j < 20
  · have hbit := tlbmatch_bits h (i := 2 * tlbfmtPageSize entry + j) (by omega) (by omega)
    rw [decide_eq_true hlt, Bool.true_and, Bool.true_and, hbit]
    simp [Stlb.asidVa, getLsbD_shiftLeft, hlt]
  · rw [decide_eq_false hlt, Bool.false_and, Bool.false_and]

end Match

namespace Stlb

/-! ## Storage -/

section Slots

variable {asid : BitVec 7} {va va' : BitVec 32} {i j : ℕ}

theorem setOf_lt (va : BitVec 32) : setOf va < 2048 := Nat.mod_lt _ (by decide)

/-- All ways are in the storage, … -/
theorem slot_lt (asid : BitVec 7) (va : BitVec 32) (hi : i < 4) : slot asid va i < stlbEntries := by
  have hset := setOf_lt va
  unfold slot base stlbEntries stlbMaxWays stlbMaxSets
  omega

/-- … and those of an address space are apart. -/
theorem slot_inj (hi : i < 4) (hj : j < 4) (h : slot asid va i = slot asid va' j) :
    setOf va = setOf va' ∧ i = j := by
  unfold slot stlbMaxWays at h
  omega

theorem slot_congr (h : setOf va = setOf va') (i : ℕ) : slot asid va i = slot asid va' i := by
  rw [slot, h, slot]

/-- Wiping clears ways of the set, and nothing else, … -/
theorem scrub_cases (asid : BitVec 7) (va : BitVec 32) (bulk : ℕ → BitVec 64) (j : ℕ) :
    scrub asid va bulk j = bulk j ∨ scrub asid va bulk j = 0 ∧ ∃ i < 4, j = slot asid va i := by
  have hfold : ∀ (l : List ℕ) (bulk : ℕ → BitVec 64), (∀ i ∈ l, i < 4) →
      l.foldl (scrubWay asid va) bulk j = bulk j ∨
        l.foldl (scrubWay asid va) bulk j = 0 ∧ ∃ i < 4, j = slot asid va i := by
    intro l
    induction l with
    | nil => exact fun _ _ => .inl rfl
    | cons i l ih =>
      intro bulk hl
      rw [List.foldl_cons]
      rcases ih (scrubWay asid va bulk i) fun i h => hl i (by simp [h]) with h | h
      · rw [h, scrubWay]
        split
        · by_cases hj : j = slot asid va i
          · subst hj
            exact .inr ⟨update_self .., i, hl i (by simp), rfl⟩
          · exact .inl (update_of_ne hj ..)
        · exact .inl rfl
      · exact .inr h
  exact hfold _ bulk fun i hi => List.mem_range.mp hi

/-- … all those of the address space. -/
theorem scrub_slot (asid : BitVec 7) (va : BitVec 32) (bulk : ℕ → BitVec 64) (hi : i < 4) :
    scrub asid va bulk (slot asid va i) = 0 ∨
    tlbfmtAsid (scrub asid va bulk (slot asid va i)) ≠ asid := by
  have hfold : ∀ (l : List ℕ) (bulk : ℕ → BitVec 64),
      (i ∈ l ∨ bulk (slot asid va i) = 0 ∨ tlbfmtAsid (bulk (slot asid va i)) ≠ asid) →
      l.foldl (scrubWay asid va) bulk (slot asid va i) = 0 ∨
        tlbfmtAsid (l.foldl (scrubWay asid va) bulk (slot asid va i)) ≠ asid := by
    intro l
    induction l with
    | nil => exact fun _ h => h.resolve_left (by simp)
    | cons k l ih =>
      intro bulk h
      refine ih _ ?_
      unfold scrubWay
      by_cases hk : slot asid va i = slot asid va k
      · right
        rw [hk]
        split
        · exact .inl (update_self ..)
        · next hne => exact .inr hne
      · have hmem : i ∈ k :: l ↔ i ∈ l := by
          rw [List.mem_cons, or_iff_right]
          rintro rfl
          exact hk rfl
        rw [hmem] at h
        split
        · rwa [update_of_ne hk]
        · exact h
  exact hfold _ bulk (.inl (List.mem_range.mpr hi))

end Slots

/-! ## Clearing -/

/-- Entries have been cleared. -/
structure Clears (s s' : Stlb) : Prop where
  valids : s'.valids = s.valids
  bulk : ∀ i, s'.bulk i = s.bulk i ∨ s'.bulk i = 0 ∧ i < stlbEntries

/-- One page: an entry is cleared, if any. -/
theorem invalidatePage_clears (m : Fin 11) (asid : BitVec 7) (s : Stlb) (page : ℕ) :
    s.Clears (s.invalidatePage m asid page) := by
  unfold invalidatePage
  split
  · next j hfind =>
    refine ⟨rfl, fun i => ?_⟩
    by_cases hi : i = j
    · obtain ⟨k, hk, rfl, -⟩ := find_eq_some hfind
      subst hi
      exact .inr ⟨update_self .., slot_lt _ _ hk⟩
    · exact .inl (update_of_ne hi ..)
  · exact ⟨rfl, fun i => .inl rfl⟩

/-- Several pages: entries are cleared. -/
theorem foldl_invalidatePage_clears (m : Fin 11) (asid : BitVec 7) (pages : List ℕ) (s : Stlb) :
    s.Clears (pages.foldl (invalidatePage m asid) s) := by
  induction pages generalizing s with
  | nil => exact ⟨rfl, fun i => .inl rfl⟩
  | cons page pages ih =>
    have hfirst := invalidatePage_clears m asid s page
    have hrest := ih (s.invalidatePage m asid page)
    refine ⟨hrest.valids.trans hfirst.valids, fun i => ?_⟩
    rcases hrest.bulk i with h' | h'
    · rcases hfirst.bulk i with h | h
      · exact .inl (h'.trans h)
      · exact .inr ⟨h'.trans h.1, h.2⟩
    · exact .inr h'

/-! ## Runs -/

/-- The software TLB, with what was added for each address space since all of it was dropped. -/
structure Run where
  stlb : Stlb
  since : BitVec 7 → List (BitVec 64)

/-- What is done with it. -/
inductive Op where
  | add (va : BitVec 32) (asid : BitVec 7) (entry : BitVec 64) (way : Fin 4)
  | lookup (va : BitVec 32) (asid : BitVec 7)
  | invalidateVa (va count : BitVec 32) (asid : BitVec 7)
  | invalidateAsid (asid : BitVec 7)

namespace Run

def step (m : Fin 11) : Op → Run → Option Run
  | .add va asid entry way, r => some
    { stlb := r.stlb.add va asid entry way
      since := update r.since asid (entry :: r.since asid) }
  | .lookup _ _, r => some r
  | .invalidateVa va count asid, r => some { r with stlb := r.stlb.invalidateVa m va count asid }
  | .invalidateAsid asid, r => some
    { stlb := r.stlb.invalidateAsid asid, since := update r.since asid [] }

/-- An entry that is added has the address space and the page it is added for. -/
def Carries : Op → Run → Prop
  | .add va asid entry _, _ => tlbfmtAsid entry = asid ∧ TlbCovers entry va
  | .lookup .., _ | .invalidateVa .., _ | .invalidateAsid _, _ => True

instance : ∀ (op : Op) (r : Run), Decidable (Carries op r)
  | .add va asid entry _, _ =>
    inferInstanceAs (Decidable (tlbfmtAsid entry = asid ∧ TlbCovers entry va))
  | .lookup .., _ | .invalidateVa .., _ | .invalidateAsid _, _ => inferInstanceAs (Decidable True)

/-- **Before** anything is done. -/
def start (bulk : ℕ → BitVec 64) : Run := ⟨init bulk, fun _ => []⟩

/-- What holds between the steps: in a set whose bit is set, what is of the address space was added
since; and nothing outside the storage has changed. -/
structure Inv (bulk : ℕ → BitVec 64) (r : Run) : Prop where
  since : ∀ asid va, r.stlb.valids asid (setOf va) = true → ∀ k < 4,
    tlbfmtAsid (r.stlb.bulk (slot asid va k)) = asid →
      r.stlb.bulk (slot asid va k) = 0 ∨ r.stlb.bulk (slot asid va k) ∈ r.since asid
  outside : ∀ i, stlbEntries ≤ i → r.stlb.bulk i = bulk i

variable {bulk : ℕ → BitVec 64} {r : Run}

theorem Inv.clear (hr : r.Inv bulk) {s : Stlb} (hs : r.stlb.Clears s) :
    Inv bulk { r with stlb := s } := by
  refine ⟨fun asid va hvalid k hk hasid => ?_, fun i hi => ?_⟩
  · rcases hs.bulk (slot asid va k) with h | h
    · rw [hs.valids] at hvalid
      rw [h] at hasid ⊢
      exact hr.since asid va hvalid k hk hasid
    · exact .inl h.1
  · rcases hs.bulk i with h | h
    · exact h.trans (hr.outside i hi)
    · exact absurd h.2 (Nat.not_lt.mpr hi)

theorem Inv.add (hr : r.Inv bulk) {va : BitVec 32} {asid : BitVec 7}
    {entry : BitVec 64} (way : Fin 4) (hentry : tlbfmtAsid entry = asid) :
    Inv bulk { stlb := r.stlb.add va asid entry way
               since := update r.since asid (entry :: r.since asid) } := by
  -- first the set is wiped, if it has to be
  obtain ⟨s, hs, hinv, hvalid⟩ : ∃ s : Stlb,
      r.stlb.add va asid entry way = { s with bulk := update s.bulk (slot asid va way) entry } ∧
      Inv bulk { r with stlb := s } ∧ s.valids asid (setOf va) = true := by
    unfold Stlb.add
    by_cases hvalid : r.stlb.valids asid (setOf va) = true
    · exact ⟨_, rfl, by rw [if_pos hvalid]; exact hr, by rw [if_pos hvalid]; exact hvalid⟩
    · rw [if_neg hvalid]
      refine ⟨_, rfl, ⟨fun b vb hb k hk hasid => ?_, fun i hi => ?_⟩, by simp⟩
      · dsimp only at hb hasid ⊢
        by_cases hset : b = asid ∧ setOf vb = setOf va
        · -- of this address space, nothing is left in the set
          obtain ⟨rfl, hset⟩ := hset
          rw [slot_congr hset] at hasid ⊢
          exact .inl ((scrub_slot b va r.stlb.bulk hk).resolve_right (not_not.mpr hasid))
        · have hb' : r.stlb.valids b (setOf vb) = true := by
            by_cases hba : b = asid
            · subst hba
              rwa [update_self, update_of_ne fun h => hset ⟨rfl, h⟩] at hb
            · rwa [update_of_ne hba] at hb
          rcases scrub_cases asid va r.stlb.bulk (slot b vb k) with h | h
          · rw [h] at hasid ⊢
            exact hr.since b vb hb' k hk hasid
          · exact .inl h.1
      · rcases scrub_cases asid va r.stlb.bulk i with h | ⟨-, k, hk, rfl⟩
        · exact h.trans (hr.outside i hi)
        · exact absurd (slot_lt asid va hk) (Nat.not_lt.mpr hi)
  rw [hs]
  refine ⟨fun b vb hb k hk hasid => ?_, fun i hi => ?_⟩
  · dsimp only at hb hasid ⊢
    by_cases hat : slot b vb k = slot asid va way
    · -- the entry itself, which is of one address space only
      rw [hat, update_self] at hasid ⊢
      obtain rfl : asid = b := hentry.symm.trans hasid
      exact .inr (by simp)
    · rw [update_of_ne hat] at hasid ⊢
      rcases hinv.since b vb hb k hk hasid with h | h
      · exact .inl h
      · refine .inr ?_
        by_cases hba : b = asid
        · subst hba
          rw [update_self]
          exact List.mem_cons_of_mem _ h
        · rwa [update_of_ne hba]
  · have hne : i ≠ slot asid va way := fun h =>
      absurd (slot_lt asid va way.isLt) (Nat.not_lt.mpr (h ▸ hi))
    exact (update_of_ne hne ..).trans (hinv.outside i hi)

theorem Inv.step {m : Fin 11} {op : Op} {r' : Run} (hr : r.Inv bulk) (hC : Carries op r)
    (hstep : Run.step m op r = some r') : r'.Inv bulk := by
  cases op with
  | add va asid entry way =>
    cases hstep
    exact hr.add way hC.1
  | lookup va asid =>
    cases hstep
    exact hr
  | invalidateVa va count asid =>
    cases hstep
    exact hr.clear (foldl_invalidatePage_clears m asid _ r.stlb)
  | invalidateAsid asid =>
    cases hstep
    refine ⟨fun b vb hb k hk hasid => ?_, hr.outside⟩
    have hne : b ≠ asid := by
      rintro rfl
      simp [Stlb.invalidateAsid] at hb
    dsimp only [Stlb.invalidateAsid] at hb hasid ⊢
    rw [update_of_ne hne] at hb ⊢
    exact hr.since b vb hb k hk hasid

end Run

/-- **What a lookup gives is neither stale nor foreign**, in any interleaving of all address spaces:
it was added for the address space since that was last dropped, and it has the address.  Every way
is in the storage, and nothing outside is written. -/
theorem stlb_sound {m : Fin 11} {bulk : ℕ → BitVec 64} {r : Run}
    (hr : Leads (Run.step m) Run.Carries (Run.start bulk) r) :
    (∀ va asid, r.stlb.lookup (tlbmatch m) va asid ≠ 0 →
      r.stlb.lookup (tlbmatch m) va asid ∈ r.since asid ∧
        tlbfmtAsid (r.stlb.lookup (tlbmatch m) va asid) = asid ∧
        TlbCovers (r.stlb.lookup (tlbmatch m) va asid) va) ∧
      (∀ asid va, ∀ k < stlbMaxWays, slot asid va k < stlbEntries) ∧
      ∀ i, stlbEntries ≤ i → r.stlb.bulk i = bulk i := by
  have hinv : r.Inv bulk :=
    Leads.invariant ⟨fun _ _ h => absurd h (by simp [Run.start, init]),
      fun _ _ => rfl⟩ Run.Inv.step hr
  refine ⟨fun va asid hne => ?_, fun asid va k hk => slot_lt asid va hk, hinv.outside⟩
  obtain ⟨k, hk, heq, hvalid, hmatch⟩ := exists_hit_of_lookup hne
  rw [heq] at hne ⊢
  have hasid := tlbfmtAsid_of_tlbmatch hmatch
  exact ⟨(hinv.since asid va hvalid k hk hasid).resolve_left hne, hasid,
    tlbCovers_of_tlbmatch hmatch⟩

open scoped Numerals

/-- Address spaces 1 and 2 each add an entry to the same four ways; the first is dropped, and adds
another page of the same set. -/
def sharedSet : List Op :=
  [.add 0x4000 1 0x8010000400000001 0, .add 0 2 0x8020000000000001 1, .invalidateAsid 1,
    .add 0x804000 1 0x8010080400000001 2]

/-- What was dropped is not found, and the rest is. -/
theorem stlb_sound_shared : slot 1 0x4000 0 = slot 2 0 0 ∧
    ∃ r, Leads (Run.step 6) Run.Carries (Run.start fun _ => 0) r ∧
      r.stlb.lookup (tlbmatch 6) 0x4000 1 = 0 ∧
      r.stlb.lookup (tlbmatch 6) 0x804000 1 = 0x8010080400000001 ∧
      0x8010080400000001 ∈ r.since 1 ∧
      r.stlb.lookup (tlbmatch 6) 0 2 = 0x8020000000000001 ∧ 0x8020000000000001 ∈ r.since 2 := by
  have hrun : ∃ r ∈ runIf (Run.step 6) (fun a r => decide (Run.Carries a r)) sharedSet
      (Run.start fun _ => 0), r.stlb.lookup (tlbmatch 6) 0x4000 1 = 0 ∧
        r.stlb.lookup (tlbmatch 6) 0x804000 1 = 0x8010080400000001 ∧
        r.stlb.lookup (tlbmatch 6) 0 2 = 0x8020000000000001 := by decide +kernel
  obtain ⟨r, hr, hdropped, hone, htwo⟩ := hrun
  have hleads : Leads (Run.step 6) Run.Carries (Run.start fun _ => 0) r :=
    .of_runIf (fun _ _ => of_decide_eq_true) .init hr
  have hsince := fun va asid hne => ((stlb_sound hleads).1 va asid hne).1
  refine ⟨by decide, r, hleads, hdropped, hone, ?_, htwo, ?_⟩
  · exact hone ▸ hsince 0x804000 1 (by rw [hone]; decide)
  · exact htwo ▸ hsince 0 2 (by rw [htwo]; decide)

/-! ## Taking addresses out -/

/-- An address of the range. -/
def InRange (va count x : BitVec 32) : Prop :=
  va.toNat ≤ x.toNat ∧ x.toNat < va.toNat + count.toNat

/-- **The range is taken out**: no address in one of its pages finds anything. -/
def Unmapped (m : Fin 11) (s : Stlb) (va count : BitVec 32) (asid : BitVec 7) : Prop :=
  ∀ x y : BitVec 32, InRange va count y → x >>> 12 = y >>> 12 → s.lookup (tlbmatch m) x asid = 0

/-- … and neither does any other address find an entry whose page has an address of the range. -/
def UnmappedLarge (m : Fin 11) (s : Stlb) (va count : BitVec 32) (asid : BitVec 7) : Prop :=
  ∀ x y : BitVec 32, InRange va count y → s.lookup (tlbmatch m) x asid ≠ 0 →
    tlbmatch m (s.lookup (tlbmatch m) x asid) (asidVa y asid) = false

/-- An address of the range is in one way at most, and only if the loop comes to its page. -/
def Single (m : Fin 11) (s : Stlb) (va count : BitVec 32) (asid : BitVec 7) : Prop :=
  ∀ y : BitVec 32, InRange va count y → ∀ k < 4, ∀ k' < 4, s.Hit m asid y k → s.Hit m asid y k' →
    k = k' ∧ (y >>> 12).toNat ≤ endPage va count

/-- An entry with an address of the range is in the set of one that it has. -/
def Near (m : Fin 11) (s : Stlb) (va count : BitVec 32) (asid : BitVec 7) : Prop :=
  ∀ x, ∀ k < 4, s.Hit m asid x k → ∀ y, InRange va count y →
    tlbmatch m (s.bulk (slot asid x k)) (asidVa y asid) = true →
    ∃ y', InRange va count y' ∧ setOf y' = setOf x ∧
      tlbmatch m (s.bulk (slot asid x k)) (asidVa y' asid) = true

section Clear

variable {m : Fin 11} {s : Stlb} {asid : BitVec 7} {va count x y : BitVec 32} {k : ℕ}

theorem hit_congr (h : x >>> 12 = y >>> 12) (k : ℕ) : s.Hit m asid x k ↔ s.Hit m asid y k := by
  simp only [Hit, slot, setOf, asidVa, h]

/-- The address that the loop looks for. -/
theorem page_shift (y : BitVec 32) :
    (BitVec.ofNat 32 (y >>> 12).toNat <<< 12) >>> 12 = y >>> 12 := by
  rw [ofNat_toNat, setWidth_eq]
  refine eq_of_getLsbD_eq fun i hi => ?_
  by_cases h : 12 + i < 32
  · simp [h]
  · simp [h, getLsbD_of_ge y (12 + i) (by omega)]

/-- What is found after clearing was there before. -/
theorem Hit.of_foldl {pages : List ℕ} (h : (pages.foldl (invalidatePage m asid) s).Hit m asid x k) :
    (pages.foldl (invalidatePage m asid) s).bulk (slot asid x k) = s.bulk (slot asid x k) ∧
      s.Hit m asid x k := by
  obtain ⟨hvalids, hbulk⟩ := foldl_invalidatePage_clears m asid pages s
  obtain ⟨hvalid, hmatch⟩ := h
  rcases hbulk (slot asid x k) with h | h
  · exact ⟨h, hvalids ▸ hvalid, h ▸ hmatch⟩
  · rw [h.1, tlbmatch_zero] at hmatch
    cases hmatch

/-- **A page that is in one way** is not found again. -/
theorem invalidatePage_single
    (hsingle : ∀ k < 4, ∀ k' < 4, s.Hit m asid y k → s.Hit m asid y k' → k = k')
    (hk : k < 4) : ¬(s.invalidatePage m asid (y >>> 12).toNat).Hit m asid y k := by
  have hcongr (k : ℕ) : s.Hit m asid (BitVec.ofNat 32 (y >>> 12).toNat <<< 12) k ↔
      s.Hit m asid y k :=
    hit_congr (page_shift y) k
  unfold invalidatePage
  split
  · next i hfind =>
    obtain ⟨j, hj, rfl, hhit⟩ := find_eq_some hfind
    have hslot : slot asid (BitVec.ofNat 32 (y >>> 12).toNat <<< 12) j = slot asid y j := by
      simp only [slot, setOf, page_shift]
    rw [hcongr] at hhit
    rintro ⟨hvalid, hmatch⟩
    rw [hslot] at hmatch
    dsimp only at hmatch
    by_cases hat : slot asid y k = slot asid y j
    · rw [hat, update_self, tlbmatch_zero] at hmatch
      cases hmatch
    · rw [update_of_ne hat] at hmatch
      exact hat (by rw [hsingle k hk j hj ⟨hvalid, hmatch⟩ hhit])
  · next hfind =>
    exact fun h => find_eq_none.mp hfind k hk ((hcongr k).mpr h)

/-- **A page in another set** changes nothing. -/
theorem invalidatePage_of_ne {page : ℕ} (hpage : page < 2 ^ 20) (hne : page % 2048 ≠ setOf y)
    (hk : k < 4) : (s.invalidatePage m asid page).bulk (slot asid y k) =
      s.bulk (slot asid y k) := by
  have hset : setOf (BitVec.ofNat 32 page <<< 12) = page % 2048 := by
    have hshift : ((BitVec.ofNat 32 page <<< 12) >>> 12).toNat = page := by
      rw [BitVec.toNat_ushiftRight, BitVec.toNat_shiftLeft, BitVec.toNat_ofNat, Nat.shiftLeft_eq,
        Nat.shiftRight_eq_div_pow]
      omega
    rw [setOf, hshift]
    rfl
  unfold invalidatePage
  split
  · next i hfind =>
    obtain ⟨j, hj, rfl, -⟩ := find_eq_some hfind
    refine update_of_ne (fun heq => hne ?_) ..
    rw [← hset]
    exact ((slot_inj hk hj heq).1).symm
  · rfl

theorem Hit.foldl_of_ne (h : s.Hit m asid y k) (hk : k < 4) {pages : List ℕ}
    (hpages : ∀ page ∈ pages, page < 2 ^ 20 ∧ page % 2048 ≠ setOf y) :
    (pages.foldl (invalidatePage m asid) s).Hit m asid y k := by
  induction pages generalizing s with
  | nil => exact h
  | cons page pages ih =>
    have hpage := hpages page (by simp)
    refine ih ⟨?_, ?_⟩ fun p hp => hpages p (by simp [hp])
    · rw [(invalidatePage_clears m asid s page).valids]
      exact h.1
    · rw [invalidatePage_of_ne hpage.1 hpage.2 hk]
      exact h.2

theorem Hit.clear_of_ne (h : s.Hit m asid y k) {i : ℕ} (hne : slot asid y k ≠ i) :
    Hit m { s with bulk := update s.bulk i 0 } asid y k :=
  ⟨h.1, (congrArg (tlbmatch m · _) (update_of_ne hne ..)).trans h.2⟩

/-- **A page that is in two ways** is found again. -/
theorem exists_hit_invalidatePage {k' : ℕ} (hk : k < 4) (hk' : k' < 4) (hne : k ≠ k')
    (h : s.Hit m asid y k) (h' : s.Hit m asid y k') (page : ℕ) :
    ∃ j < 4, (s.invalidatePage m asid page).Hit m asid y j := by
  unfold invalidatePage
  split
  · next i hfind =>
    by_cases hat : slot asid y k = i
    · have hat' : slot asid y k' ≠ i := fun heq => hne (slot_inj hk hk' (hat.trans heq.symm)).2
      exact ⟨k', hk', h'.clear_of_ne hat'⟩
    · exact ⟨k, hk, h.clear_of_ne hat⟩
  · exact ⟨k, hk, h⟩

/-- **After the loop has come to a page** that was in one way, it is not found. -/
theorem foldl_invalidatePage_single {pages : List ℕ} (hmem : (y >>> 12).toNat ∈ pages)
    (hsingle : ∀ k < 4, ∀ k' < 4, s.Hit m asid y k → s.Hit m asid y k' → k = k') (hk : k < 4) :
    ¬(pages.foldl (invalidatePage m asid) s).Hit m asid y k := by
  obtain ⟨-, -, rfl⟩ := List.append_of_mem hmem
  rw [List.foldl_append, List.foldl_cons]
  intro hhit
  refine invalidatePage_single (fun k hk k' hk' h h' => ?_) hk hhit.of_foldl.2
  exact hsingle k hk k' hk' h.of_foldl.2 h'.of_foldl.2

theorem mem_pages {page : ℕ} :
    page ∈ List.range' (startPage va) (endPage va count + 1 - startPage va) ↔
    startPage va ≤ page ∧ page ≤ endPage va count := by
  rw [List.mem_range'_1]
  omega

theorem startPage_le (hy : InRange va count y) : startPage va ≤ (y >>> 12).toNat := by
  have := hy.1
  rw [startPage, toNat_ushiftRight, toNat_ushiftRight, Nat.shiftRight_eq_div_pow,
    Nat.shiftRight_eq_div_pow]
  exact Nat.div_le_div_right this

/-- **It is enough that addresses are in one way**, … -/
theorem unmapped_of_single (hsingle : s.Single m va count asid) :
    (s.invalidateVa m va count asid).Unmapped m va count asid := by
  intro x y hy hpage
  rw [lookup_eq_zero]
  intro k hk hhit
  rw [hit_congr hpage] at hhit
  have hbefore := hhit.of_foldl.2
  have hend := (hsingle y hy k hk k hk hbefore hbefore).2
  exact foldl_invalidatePage_single (mem_pages.mpr ⟨startPage_le hy, hend⟩)
    (fun k hk k' hk' h h' => (hsingle y hy k hk k' hk' h h').1) hk hhit

/-- … and for the addresses around them, that entries are where they are looked for. -/
theorem unmappedLarge_of_near (hsingle : s.Single m va count asid)
    (hnear : s.Near m va count asid) :
    (s.invalidateVa m va count asid).UnmappedLarge m va count asid := by
  intro x y hy hne
  obtain ⟨k, hk, heq, hhit⟩ := exists_hit_of_lookup hne
  rw [heq, ← Bool.not_eq_true]
  intro hmatch
  obtain ⟨hsame, hbefore⟩ := hhit.of_foldl
  rw [invalidateVa, hsame] at hmatch
  obtain ⟨y', hy', hset, hmatch'⟩ := hnear x k hk hbefore y hy hmatch
  have hslot : slot asid y' k = slot asid x k := slot_congr hset k
  have hhit' : (s.invalidateVa m va count asid).Hit m asid y' k := by
    refine ⟨hset ▸ hhit.1, ?_⟩
    rw [hslot, invalidateVa, hsame]
    exact hmatch'
  exact lookup_eq_zero.mp (unmapped_of_single hsingle y' y' hy' rfl) k hk hhit'

/-- The last page of the range, if it is in the address space. -/
def lastPage (va count : BitVec 32) : ℕ := (min (va.toNat + count.toNat) (2 ^ 32) - 1) / 4096

theorem le_lastPage (hy : InRange va count y) : (y >>> 12).toNat ≤ lastPage va count := by
  have := hy.2
  rw [toNat_ushiftRight, Nat.shiftRight_eq_div_pow, lastPage]
  refine Nat.div_le_div_right ?_
  omega

/-- The end of the loop is not beyond. -/
theorem endPage_le_lastPage (hcount : count ≠ 0) : endPage va count ≤ lastPage va count := by
  have hpos : count.toNat ≠ 0 := fun h => hcount (toNat_inj.mp h)
  have h1 : (1 : BitVec 32).toNat = 1 := rfl
  rw [endPage, toNat_ushiftRight, Nat.shiftRight_eq_div_pow, lastPage, toNat_sub, toNat_add, h1]
  refine Nat.div_le_div_right ?_
  omega

/-- **In a range of at most 2048 pages, it has to be so**: each set is come to once. -/
theorem single_of_unmapped (hcount : count ≠ 0) (hsmall : lastPage va count < startPage va + 2048)
    (h : (s.invalidateVa m va count asid).Unmapped m va count asid) : s.Single m va count asid := by
  intro y hy k hk k' hk' hhit hhit'
  have hstart := startPage_le hy
  have hlast := le_lastPage hy
  have hend : endPage va count ≤ lastPage va count := endPage_le_lastPage hcount
  have hnone := lookup_eq_zero.mp (h y y hy rfl)
  have hlt20 : lastPage va count < 2 ^ 20 := by
    unfold lastPage
    omega
  -- the loop comes to the set of the page with that page only
  have hother : ∀ page, page ≠ (y >>> 12).toNat → startPage va ≤ page → page ≤ endPage va count →
      page < 2 ^ 20 ∧ page % 2048 ≠ setOf y := by
    intro page hne hlo hhi
    refine ⟨by omega, fun heq => hne ?_⟩
    rw [setOf, stlbMaxSets] at heq
    omega
  have hpages (pages : List ℕ) (hsub : ∀ p ∈ pages, startPage va ≤ p ∧ p ≤ endPage va count)
      (hnot : (y >>> 12).toNat ∉ pages) : ∀ p ∈ pages, p < 2 ^ 20 ∧ p % 2048 ≠ setOf y :=
    fun p hp => hother p (fun heq => hnot (heq ▸ hp)) (hsub p hp).1 (hsub p hp).2
  by_cases hvisit : (y >>> 12).toNat ≤ endPage va count
  · refine ⟨by_contra fun hne => ?_, hvisit⟩
    obtain ⟨before, after, hsplit⟩ := List.append_of_mem (mem_pages.mpr ⟨hstart, hvisit⟩)
    have hnodup := List.nodup_range' (s := startPage va) (n := endPage va count + 1 - startPage va)
    rw [hsplit, List.nodup_append, List.nodup_cons] at hnodup
    have hsub : ∀ p, p ∈ before ∨ p ∈ after → startPage va ≤ p ∧ p ≤ endPage va count := fun p hp =>
      mem_pages.mp (hsplit ▸ by simp; tauto)
    have hbefore := hpages before (fun p hp => hsub p (.inl hp))
      fun hmem => hnodup.2.2 _ hmem _ (by simp) rfl
    have hafter := hpages after (fun p hp => hsub p (.inr hp)) hnodup.2.1.1
    obtain ⟨j, hj, hfound⟩ := exists_hit_invalidatePage hk hk' hne (hhit.foldl_of_ne hk hbefore)
      (hhit'.foldl_of_ne hk' hbefore) (y >>> 12).toNat
    refine hnone j hj ?_
    rw [invalidateVa, hsplit, List.foldl_append, List.foldl_cons]
    exact hfound.foldl_of_ne hj hafter
  · refine absurd (hhit.foldl_of_ne hk (hpages _ (fun p hp => mem_pages.mp hp) fun hmem => ?_))
      (hnone k hk)
    exact hvisit (mem_pages.mp hmem).2

end Clear

/-- **What `H2K_vmtrap_clrmap` takes out**: everything, if no address of the range is in two ways of
its set and the end of the range does not wrap; and in a range of at most 2048 pages only then.  The
pages of large entries are taken out with the range if no such entry is in a set without an address
of both. -/
theorem clrmap_unmaps (m : Fin 11) (s : Stlb) (va count : BitVec 32) (asid : BitVec 7) :
    (s.Single m va count asid → (s.clrmap m va count asid).Unmapped m va count asid) ∧
      (lastPage va count < startPage va + 2048 →
        ((s.clrmap m va count asid).Unmapped m va count asid ↔ s.Single m va count asid)) ∧
      (s.Single m va count asid → s.Near m va count asid →
        (s.clrmap m va count asid).UnmappedLarge m va count asid) := by
  by_cases hcount : count = 0
  · have hempty (y : BitVec 32) : ¬InRange va count y := by
      rintro ⟨hlo, hhi⟩
      rw [hcount] at hhi
      exact absurd hhi (by simpa using hlo)
    have hsingle : s.Single m va count asid := fun y hy => absurd hy (hempty y)
    have hunmapped : (s.clrmap m va count asid).Unmapped m va count asid := fun _ y hy =>
      absurd hy (hempty y)
    exact ⟨fun _ => hunmapped, fun _ => iff_of_true hunmapped hsingle, fun _ _ _ y hy =>
      absurd hy (hempty y)⟩
  · rw [clrmap, if_neg hcount]
    exact ⟨unmapped_of_single, fun hsmall => ⟨single_of_unmapped hcount hsmall, unmapped_of_single⟩,
      unmappedLarge_of_near⟩

/-- The software TLB with one page. -/
def onePage : Stlb := (init fun _ => 0).add 0x1000 1 0x8010000100000001 0

theorem hit_onePage {x : BitVec 32} {k : ℕ} (hk : k < 4) (h : onePage.Hit 6 1 x k) :
    k = 0 ∧ setOf x = 1 := by
  have hslot : slot 1 x k = slot 1 0x1000 0 := by
    by_contra hne
    have hzero : onePage.bulk (slot 1 x k) = 0 :=
      (update_of_ne hne ..).trans
        ((scrub_cases 1 0x1000 (fun _ => 0) (slot 1 x k)).elim id fun h => h.1)
    exact ne_zero_of_tlbmatch h.2 hzero
  obtain ⟨hset, hway⟩ := slot_inj hk (by decide) hslot
  exact ⟨hway, hset.trans (by decide)⟩

/-- The range of that page takes it out. -/
theorem clrmap_unmaps_onePage : onePage.lookup (tlbmatch 6) 0x1000 1 = 0x8010000100000001 ∧
    (onePage.clrmap 6 0x1000 0x1000 1).Unmapped 6 0x1000 0x1000 1 ∧
    (onePage.clrmap 6 0x1000 0x1000 1).UnmappedLarge 6 0x1000 0x1000 1 := by
  have hrange {y : BitVec 32} (hy : InRange 0x1000 0x1000 y) : (y >>> 12).toNat = 1 := by
    obtain ⟨hlo, hhi⟩ := hy
    have h1000 : (0x1000 : BitVec 32).toNat = 0x1000 := rfl
    rw [toNat_ushiftRight, Nat.shiftRight_eq_div_pow]
    omega
  have hsingle : onePage.Single 6 0x1000 0x1000 1 := fun y hy k hk k' hk' h h' =>
    ⟨(hit_onePage hk h).1.trans (hit_onePage hk' h').1.symm, (hrange hy).le.trans (by decide)⟩
  have hnear : onePage.Near 6 0x1000 0x1000 1 := fun x k hk h y hy hmatch =>
    ⟨y, hy, by rw [(hit_onePage hk h).2, setOf, hrange hy]; rfl, hmatch⟩
  obtain ⟨hunmaps, -, hlarge⟩ := clrmap_unmaps 6 onePage 0x1000 0x1000 1
  exact ⟨by decide +kernel, hunmaps hsingle, hlarge hsingle hnear⟩

/-- What a lookup finds after operations and a `clrmap`, all for address space 1. -/
def lookupAfter (ops : List Op) (va count x : BitVec 32) : Option (BitVec 64) :=
  (runIf (Run.step 6) (fun _ _ => true) ops (Run.start fun _ => 0)).map fun r =>
    (r.stlb.clrmap 6 va count 1).lookup (tlbmatch 6) x 1

/-- **What it leaves.** A page that was added twice is found after it is taken out; so is the last
page, if the range goes beyond the end of the address space; and so are 4K of a 64K page, whose
entry was added in two sets, after 4K next to them are taken out. -/
theorem clrmap_leaves :
    lookupAfter [.add 0x1000 1 0x8010000100000001 0, .add 0x1000 1 0x8010000100000001 1]
        0x1000 0x1000 0x1000 = some 0x8010000100000001 ∧
      lookupAfter [.add 0xfffff000 1 0x801fffff00000001 0] 0xfffff000 0x1001 0xfffff000 =
        some 0x801fffff00000001 ∧
      lookupAfter [.add 0x10000 1 0x8010001000000004 0, .add 0x11000 1 0x8010001000000004 0] 0x10000
        0x1000 0x11000 = some 0x8010001000000004 := by
  refine ⟨?_, ?_, ?_⟩ <;> decide +kernel

end Stlb

end H2
