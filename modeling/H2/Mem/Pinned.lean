import H2.Machinery.Leads
import H2.Traps.Tlbop

/-!
# Mem/Pinned — who has which TLB entry

The TLB is shared out from both ends.  The kernel has its own entries at the top; guests have
entries pinned below them, as recorded in a mask; and what is left at the bottom, up to
`last_tlb_index`, is replaced as translations are needed.  Now and then the kernel takes the last of
the replaceable entries for a temporary map, and moves the boundary down by one while it lasts.

The mask does not know about the temporary map, and the two users of the boundary do not know about
each other.  An entry pinned meanwhile goes where the map is, and one freed meanwhile moves the
boundary over it.  There are other ways to lose an entry: a new one that overlaps it is pinned; the
test that protects the kernel's entries counts two too few; and the index of an entry for a DMA
engine, which starts from 512, is cut to eight bits (`pins_clash`).  Without these, everybody keeps
what they have (`pins_apart`).
-/

namespace H2

open Function

open BitVec (allOnes le_def le_refl le_trans lt_def not_le not_lt ofNat toNat_inj toNat_ofNat)

open Option (isSome_some map_eq_some_iff some)

/-! ## The temporary map, and filling -/

/-- The entry is for the TLB of the DMA engines. -/
def tlbfmtHsv39 (entry : BitVec 64) : Bool := entry.getLsbD 27

namespace Tlb

/-- `H2K_mem_tlb_insert_index`: writes if nothing overlaps, and says whether it did. -/
def insertIndex (hw : TlbHw) (entry : BitVec 64) (index : BitVec 32) (t : Tlb) : Bool × Tlb :=
  if hw.tlboc t.entries entry = tlbNone then (true, t.write index entry) else (false, t)

/-- `TEMP_MAP_VA`. -/
def tempMapVa : BitVec 32 := 0xff800000

/-- `TEMP_MAP_PG_MASK`. -/
def tempMapPgMask (size : BitVec 32) : BitVec 32 := allOnes 32 <<< (12 + size.toNat * 2)

/-- The entry of `H2K_tmpmap_add_and_lock`: global and valid, for the monitor alone. -/
def tmpmapEntry (pa : BitVec 64) (cccc size : BitVec 32) : BitVec 64 :=
  let ppd := (pa &&& (tempMapPgMask size).setWidth 64) >>> 11 ||| 1#64 <<< size.toNat
  (ppd.setWidth 24).setWidth 64 ||| (cccc.setWidth 3).setWidth 64 <<< 24 |||
    (tempMapVa >>> 12).setWidth 64 <<< 32 ||| ((pa >>> 36).setWidth 2).setWidth 64 <<< 59 |||
    ((pa >>> 35).setWidth 1).setWidth 64 <<< 61 ||| 3#64 <<< 62

/-- `H2K_tmpmap_add_and_lock`, with the lock of the temporary map in hand: where the address is
mapped, the index taken for it, and the TLB. -/
def tmpmapAdd (hw : TlbHw) (pa : BitVec 64) (cccc size : BitVec 32) (t : Tlb) :
    Option (BitVec 32 × BitVec 32 × Tlb) :=
  let size := if size = -1 then 0 else size
  t.lock.map fun t =>
    let index := t.last
    let t := { t with last := t.last - 1, index := if index ≤ t.index then 0 else t.index }
    (tempMapVa ||| pa.setWidth 32 &&& ~~~tempMapPgMask size, index,
      (t.insertIndex hw (tmpmapEntry pa cccc size) index).2.unlock)

/-- `H2K_tmpmap_remove_and_unlock`. -/
def tmpmapRemove (t : Tlb) : Option Tlb :=
  t.lock.map fun t => ({ t with last := t.last + 1 }.write (t.last + 1) 0).unlock

/-- The index `H2K_mem_tlb_insert_unlock` goes by: the DMA engines have their own. -/
def fillIndex (entry : BitVec 64) (t : Tlb) : BitVec 32 :=
  if tlbfmtHsv39 entry then t.indexDma else t.index

/-- `H2K_mem_tlb_insert_unlock`. -/
def insertUnlock (hw : TlbHw) (entry : BitVec 64) (tlbidxmask : BitVec 8) (t : Tlb) : Option Tlb :=
  t.lock.map fun t =>
    let index := t.fillIndex entry
    match t.insertIndex hw entry (index &&& tlbidxmask.setWidth 32) with
    | (false, t) => t.unlock
    | (true, t) =>
      let lastIndex := if tlbfmtHsv39 entry then dmaTlbStart + hw.size - 1 else t.last
      let index := if index + 1 ≤ lastIndex then index + 1 else 0
      (if tlbfmtHsv39 entry then { t with indexDma := index } else { t with index := index }).unlock

end Tlb

/-! ## Runs -/

/-- The TLB with what is in use: the places of pinned entries, as their owners know them, and that
of the temporary map, whose lock is held while it lasts. -/
structure Pins where
  tlb : Tlb
  pins : Finset (BitVec 32)
  tmp : Option (BitVec 32)

/-- What is done under the lock. -/
inductive PinOp where
  | tlballoc (asid : BitVec 7) (entry : BitVec 64)
  | tlbfree (index : BitVec 32)
  | tmpmapAdd (pa : BitVec 64) (cccc size : BitVec 32)
  | tmpmapRemove
  | fill (entry : BitVec 64) (tlbidxmask : BitVec 8)

namespace Pins

/-- **One step.**  What an allocation returns is pinned until it is freed. -/
def step (hw : TlbHw) : PinOp → Pins → Option Pins
  | .tlballoc asid entry, s =>
    (s.tlb.tlballoc hw asid entry).map fun (ret, tlb) =>
      { s with tlb := tlb, pins := if ret = -1 then s.pins else insert (ret.setWidth 32) s.pins }
  | .tlbfree index, s =>
    (s.tlb.tlbfree hw index).map fun (ret, tlb) =>
      { s with tlb := tlb, pins := if ret = -1 then s.pins else s.pins.erase index }
  | .tmpmapAdd pa cccc size, s =>
    if s.tmp.isSome then none
    else (s.tlb.tmpmapAdd hw pa cccc size).map fun (_, index, tlb) =>
      { s with tlb := tlb, tmp := some index }
  | .tmpmapRemove, s =>
    if s.tmp.isSome then s.tlb.tmpmapRemove.map fun tlb => { s with tlb := tlb, tmp := none }
      else none
  | .fill entry tlbidxmask, s =>
    (s.tlb.insertUnlock hw entry tlbidxmask).map fun tlb => { s with tlb := tlb }

/-- After boot, with the kernel's own entries from `kernel` on. -/
def boot (kernel : BitVec 32) (entries : BitVec 32 → BitVec 64) : Pins where
  tlb := .kgInit (kernel - 1) entries
  pins := ∅
  tmp := none

variable (hw : TlbHw) (kernel : BitVec 32)

/-- Pinned, or the kernel's own. -/
def Kept (s : Pins) (i : BitVec 32) : Prop := i ∈ s.pins ∨ kernel ≤ i ∧ i < hw.size

/-- Somebody has it. -/
def InUse (s : Pins) (i : BitVec 32) : Prop := s.Kept hw kernel i ∨ s.tmp = some i

/-- **With care**: no entry is pinned that overlaps one in use, and none at all unless there is a
place for it above the temporary map, or above entry 0 if there is no map; nothing is freed during a
map, and not what is the kernel's; a map does not take entry 0; and an entry for the DMA engines
goes to the replaceable part. -/
def Careful (s : Pins) : PinOp → Prop
  | .tlballoc asid entry =>
    (∀ i, hw.tlboc s.tlb.entries (tlbfmtSetAsid asid entry) = i → i.msb = false →
      ¬s.InUse hw kernel i) ∧
    (s.tlb.pinned = allOnes 64 ∨ ∃ i, s.tmp.getD 0 < i ∧ i < kernel ∧ i ∉ s.pins)
  | .tlbfree index =>
    hw.size - (hw.npages + 1) ≤ index ∨ index ≤ s.tlb.last ∨ s.tmp = none ∧ index < kernel
  | .tmpmapAdd .. => s.tlb.last ≠ 0
  | .tmpmapRemove => True
  | .fill entry tlbidxmask =>
    tlbfmtHsv39 entry → s.tlb.indexDma &&& tlbidxmask.setWidth 32 ≤ s.tlb.last

end Pins

/-- The TLB divides into parts of the size of the mask, and the kernel's entries are in the last of
them, and not all of the TLB. -/
structure TlbHw.Fits (hw : TlbHw) (kernel : BitVec 32) : Prop where
  dvd : 64 ∣ hw.size.toNat
  pos : 0 < kernel.toNat
  lo : hw.size.toNat ≤ kernel.toNat + 64
  hi : kernel.toNat < hw.size.toNat

/-! ## The invariant -/

namespace Pins

/-- The boundary as it is without the temporary map. -/
def bound (s : Pins) : ℕ := if s.tmp.isSome then s.tlb.last.toNat + 1 else s.tlb.last.toNat

/-- What holds between the steps. -/
structure Inv (hw : TlbHw) (kernel : BitVec 32) (s : Pins) : Prop where
  /-- The mask knows what is kept, among the top 64. -/
  mask : ∀ i : BitVec 32, hw.size.toNat ≤ i.toNat + 64 → i.toNat < hw.size.toNat →
    (s.tlb.pinned.getLsbD (i.toNat % 64) = true ↔ kernel ≤ i ∨ i ∈ s.pins)
  /-- What is pinned is between the boundary and the kernel, … -/
  above : ∀ i ∈ s.pins, s.bound < i.toNat ∧ i < kernel
  lo : hw.size.toNat ≤ s.bound + 65
  /-- … and the boundary is as high as it may be. -/
  tight : s.bound + 1 = kernel.toNat ∨ ∃ i ∈ s.pins, i.toNat = s.bound + 1
  tmp : ∀ j, s.tmp = some j → j.toNat = s.bound
  index : s.tlb.index ≤ s.tlb.last

section Invariant

variable {hw : TlbHw} {kernel : BitVec 32} {s : Pins} {s' : Pins}

theorem toNat_sub_one {i : BitVec 32} (hi : i.toNat ≠ 0) : (i - 1).toNat = i.toNat - 1 :=
  BitVec.toNat_sub_of_le (le_def.mpr (Nat.one_le_iff_ne_zero.mpr hi))

theorem toNat_add_one {i : BitVec 32} (hi : i.toNat + 1 < 2 ^ 32) : (i + 1).toNat = i.toNat + 1 :=
  BitVec.toNat_add_of_lt hi

theorem last_le_bound (s : Pins) : s.tlb.last.toNat ≤ s.bound := by
  unfold bound
  split <;> omega

theorem bound_of_none (hnone : s.tmp = none) : s.bound = s.tlb.last.toNat := by
  rw [bound, hnone]
  rfl

theorem Inv.bound_lt (hs : s.Inv hw kernel) : s.bound < kernel.toNat := by
  rcases hs.tight with h | ⟨i, hi, h⟩
  · omega
  · have := (hs.above i hi).2
    have := lt_def.mp this
    omega

theorem Inv.not_inUse (hs : s.Inv hw kernel) {i : BitVec 32} (hi : i ≤ s.tlb.last) :
    ¬s.InUse hw kernel i := by
  have hle := le_def.mp hi
  have hlast := s.last_le_bound
  have hlt := hs.bound_lt
  rintro ((hpin | ⟨hk, -⟩) | htmp)
  · have := (hs.above i hpin).1
    omega
  · have := le_def.mp hk
    omega
  · have hj := hs.tmp i htmp
    simp only [bound, htmp, isSome_some, if_true] at hj
    omega

theorem toNat_and_63 (i : BitVec 32) : (i &&& 0x3f).toNat = i.toNat % 64 := by
  exact Nat.and_two_pow_sub_one_eq_mod i.toNat 6

/-- **The place to be pinned** is free, and the highest that is. -/
theorem Inv.pinIdx (hfit : hw.Fits kernel) (hs : s.Inv hw kernel)
    (hroom : s.tlb.pinned ≠ allOnes 64) : hw.size.toNat ≤ (Tlb.pinIdx hw s.tlb.pinned).toNat + 64 ∧
      Tlb.pinIdx hw s.tlb.pinned < kernel ∧ Tlb.pinIdx hw s.tlb.pinned ∉ s.pins ∧
      (Tlb.pinIdx hw s.tlb.pinned).toNat % 64 = (Tlb.maskidx s.tlb.pinned).toNat ∧
      ∀ i : BitVec 32, hw.size.toNat ≤ i.toNat + 64 → i < kernel → i ∉ s.pins →
        i ≤ Tlb.pinIdx hw s.tlb.pinned := by
  obtain ⟨q, hq⟩ := hfit.dvd
  have hhi := hfit.hi
  have hm := toNat_maskidx hroom
  have hidx : (Tlb.pinIdx hw s.tlb.pinned).toNat =
      hw.size.toNat - 64 + (63 - cl1 s.tlb.pinned) := by
    have h64 : (64 : BitVec 32).toNat = 64 := rfl
    rw [Tlb.pinIdx, BitVec.toNat_add, BitVec.toNat_sub, hm, h64]
    omega
  have hmod : (Tlb.pinIdx hw s.tlb.pinned).toNat % 64 = (Tlb.maskidx s.tlb.pinned).toNat := by
    omega
  have hclear : ¬(kernel ≤ Tlb.pinIdx hw s.tlb.pinned ∨ Tlb.pinIdx hw s.tlb.pinned ∈ s.pins) := by
    rw [← hs.mask _ (by omega) (by omega), hmod, getLsbD_maskidx hroom]
    simp
  rw [not_or, not_le] at hclear
  refine ⟨by omega, hclear.1, hclear.2, hmod, fun i hi hk hpin => ?_⟩
  have hk' := lt_def.mp hk
  have hbit : s.tlb.pinned.getLsbD (i.toNat % 64) = false := by
    rw [← Bool.not_eq_true, hs.mask i hi (by omega), not_or, not_le]
    exact ⟨hk, hpin⟩
  have hle : i.toNat % 64 + cl1 s.tlb.pinned < 64 := by
    by_contra hge
    have := getLsbD_of_cl1 (w := s.tlb.pinned) (i := i.toNat % 64) (by omega) (by omega)
    rw [hbit] at this
    cases this
  rw [le_def]
  omega

theorem inv_boot (hfit : hw.Fits kernel) (entries : BitVec 32 → BitVec 64) :
    (boot kernel entries).Inv hw kernel := by
  obtain ⟨q, hq⟩ := hfit.dvd
  have hpos := hfit.pos
  have hlo := hfit.lo
  have hhi := hfit.hi
  have hbound : (boot kernel entries).bound = kernel.toNat - 1 := toNat_sub_one hpos.ne'
  refine ⟨fun i hi hi' => ?_, by simp [boot], by omega, .inl (by omega), by simp [boot], ?_⟩
  · have hback : kernel - 1 + 1 = kernel := by bv_omega
    simp only [boot, Tlb.kgInit, hback, toNat_and_63, BitVec.getLsbD_shiftLeft,
      BitVec.getLsbD_allOnes,
      Finset.notMem_empty, or_false, le_def, Bool.and_eq_true, decide_eq_true_eq,
      Bool.not_eq_true', decide_eq_false_iff_not]
    omega
  · exact le_def.mpr (Nat.zero_le _)

theorem Inv.congr (hs : s.Inv hw kernel) (hpinned : s'.tlb.pinned = s.tlb.pinned)
    (hpins : s'.pins = s.pins) (hbound : s'.bound = s.bound)
    (htmp : ∀ j, s'.tmp = some j → j.toNat = s.bound) (hindex : s'.tlb.index ≤ s'.tlb.last) :
    s'.Inv hw kernel where
  mask := by rw [hpinned, hpins]; exact hs.mask
  above := by rw [hpins, hbound]; exact hs.above
  lo := by rw [hbound]; exact hs.lo
  tight := by rw [hpins, hbound]; exact hs.tight
  tmp := by rw [hbound]; exact htmp
  index := hindex

/-! ### Pinning -/

/-- A place among the top 64 is known by its bit. -/
theorem mod_eq_iff {i j : BitVec 32} (hi : hw.size.toNat ≤ i.toNat + 64)
    (hi' : i.toNat < hw.size.toNat)
    (hj : hw.size.toNat ≤ j.toNat + 64) (hj' : j.toNat < hw.size.toNat) :
    i.toNat % 64 = j.toNat % 64 ↔ i = j := by
  rw [← toNat_inj]
  omega

/-- What an allocation returns is `-1`, or the place. -/
theorem signExtend_pinIdx_ne (hfit : hw.Fits kernel) {mask : BitVec 64}
    (hroom : mask ≠ allOnes 64) : (Tlb.pinIdx hw mask).signExtend 64 ≠ -1 := by
  rw [ne_eq, signExtend_pin_eq_neg_one]
  intro hsize
  have hcl := cl1_lt hroom
  obtain ⟨q, hq⟩ := hfit.dvd
  have hhi := hfit.hi
  rw [hsize, toNat_ofNat] at hq hhi
  omega

section Pinning

variable (hfit : hw.Fits kernel) (hs : s.Inv hw kernel) {asid : BitVec 7} {entry : BitVec 64}
  (hC : s.Careful hw kernel (.tlballoc asid entry)) (hroom : s.tlb.pinned ≠ allOnes 64)

include hfit hs hC hroom

/-- With care, the place is not below the boundary, above the temporary map and not entry 0. -/
theorem Inv.bound_le_pinIdx :
    s.bound ≤ (Tlb.pinIdx hw s.tlb.pinned).toNat ∧ 0 < (Tlb.pinIdx hw s.tlb.pinned).toNat ∧
      (s.tmp.isSome → s.bound < (Tlb.pinIdx hw s.tlb.pinned).toNat) := by
  obtain ⟨htop, -, -, -, hmax⟩ := hs.pinIdx hfit hroom
  obtain ⟨i, hlt, hk, hpin⟩ := hC.2.resolve_left hroom
  have hboundlt := hs.bound_lt
  have hlt' := lt_def.mp hlt
  -- a place that is free is not above the one to be pinned
  have hle (n : ℕ) (hn : n < kernel.toNat) (hfree : ofNat 32 n ∉ s.pins) :
      n ≤ (Tlb.pinIdx hw s.tlb.pinned).toNat := by
    have hofNat : (ofNat 32 n).toNat = n := by
      rw [toNat_ofNat, Nat.mod_eq_of_lt (by omega)]
    by_cases hn' : hw.size.toNat ≤ n + 64
    · have := le_def.mp (hmax _ (by omega) (lt_def.mpr (by omega)) hfree)
      omega
    · omega
  have hi := hle i.toNat (lt_def.mp hk) (by simpa using hpin)
  refine ⟨hle _ hboundlt fun hmem => ?_, by omega, fun htmp => ?_⟩
  · have habove := (hs.above _ hmem).1
    rw [toNat_ofNat] at habove
    omega
  · obtain ⟨j, hj⟩ := Option.isSome_iff_exists.mp htmp
    rw [hj, Option.getD_some] at hlt'
    have := hs.tmp j hj
    omega

/-- So nobody has it. -/
theorem Inv.pinIdx_not_inUse : ¬s.InUse hw kernel (Tlb.pinIdx hw s.tlb.pinned) := by
  obtain ⟨-, hk, hpin, -, -⟩ := hs.pinIdx hfit hroom
  obtain ⟨-, -, htmp⟩ := hs.bound_le_pinIdx hfit hC hroom
  rintro ((h | ⟨h, -⟩) | h)
  · exact hpin h
  · exact not_lt.mpr h hk
  · have hj := hs.tmp _ h
    have := htmp (by rw [h, isSome_some])
    omega

theorem Inv.pin {tlb : Tlb}
    (hpinned : tlb.pinned = s.tlb.pinned ||| 1#64 <<< (Tlb.maskidx s.tlb.pinned).toNat)
    (hlast : tlb.last =
      if s.tlb.last = Tlb.pinIdx hw s.tlb.pinned then s.tlb.last - 1 else s.tlb.last)
    (hindex : tlb.index = if s.tlb.last = Tlb.pinIdx hw s.tlb.pinned ∧
      s.tlb.index = Tlb.pinIdx hw s.tlb.pinned then 0 else s.tlb.index) :
    Inv hw kernel { s with tlb := tlb, pins := insert (Tlb.pinIdx hw s.tlb.pinned) s.pins } := by
  obtain ⟨htop, hk, -, hmod, -⟩ := hs.pinIdx hfit hroom
  obtain ⟨hle, hpos, htmp⟩ := hs.bound_le_pinIdx hfit hC hroom
  set idx := Tlb.pinIdx hw s.tlb.pinned
  have hk' := lt_def.mp hk
  have hhi := hfit.hi
  have hlastle := s.last_le_bound
  -- the boundary moves if it is what is pinned, and then there is no temporary map
  obtain ⟨hbound, hindex'⟩ : bound { s with tlb := tlb, pins := insert idx s.pins } =
      (if s.bound = idx.toNat then s.bound - 1 else s.bound) ∧ tlb.index ≤ tlb.last := by
    have hidx := le_def.mp hs.index
    by_cases hat : s.tlb.last = idx
    · have hnone : ¬s.tmp.isSome := fun h => by
        have := htmp h
        rw [bound, if_pos h, hat] at this
        omega
      have hpred := toNat_sub_one hpos.ne'
      rw [if_pos hat, hat] at hlast
      refine ⟨?_, ?_⟩
      · simp only [bound, if_neg hnone, hlast, hat, hpred, if_true]
      · rw [hindex, hlast, le_def, hpred]
        split
        · exact Nat.zero_le _
        · next hne =>
          have hne' : s.tlb.index.toNat ≠ idx.toNat := fun h => hne ⟨hat, toNat_inj.mp h⟩
          omega
    · rw [if_neg hat] at hlast
      rw [if_neg fun h => hat h.1] at hindex
      refine ⟨?_, hlast ▸ hindex ▸ hs.index⟩
      have hne : s.bound ≠ idx.toNat := by
        intro heq
        by_cases hsome : s.tmp.isSome
        · exact absurd heq (Nat.ne_of_lt (htmp hsome))
        · rw [bound, if_neg hsome] at heq
          exact hat (toNat_inj.mp heq)
      rw [if_neg hne]
      unfold bound
      rw [hlast]
  refine ⟨fun i hi hi' => ?_, ?_, ?_, ?_, ?_, hindex'⟩
  · rw [hpinned, ← hmod, BitVec.getLsbD_or, Bool.or_eq_true, hs.mask i hi hi', Finset.mem_insert]
    have hbit : (1#64 <<< (idx.toNat % 64)).getLsbD (i.toNat % 64) = true ↔ i = idx := by
      rw [← mod_eq_iff hi hi' htop (by omega), BitVec.getLsbD_shiftLeft, BitVec.getLsbD_one]
      simp only [Bool.and_eq_true, decide_eq_true_eq, Bool.not_eq_true', decide_eq_false_iff_not]
      omega
    tauto
  · intro i hi
    rw [hbound]
    rcases Finset.mem_insert.mp hi with rfl | hi
    · refine ⟨?_, hk⟩
      split <;> omega
    · have := hs.above i hi
      refine ⟨?_, this.2⟩
      split <;> omega
  · have := hs.lo
    rw [hbound]
    split <;> omega
  · rw [hbound]
    split
    · exact .inr ⟨idx, Finset.mem_insert_self .., by omega⟩
    · rcases hs.tight with h | ⟨i, hi, h⟩
      · exact .inl h
      · exact .inr ⟨i, Finset.mem_insert_of_mem hi, h⟩
  · intro j hj
    have hj' := hs.tmp j hj
    have := htmp (by
      rw [hj, isSome_some])
    rw [hbound, if_neg (by omega)]
    exact hj'

end Pinning

/-! ### Freeing -/

/-- **The loop** stops where the boundary is tight. -/
theorem grow_spec (hfit : hw.Fits kernel) {mask : BitVec 64} {pins : Finset (BitVec 32)}
    (hmask : ∀ i : BitVec 32, hw.size.toNat ≤ i.toNat + 64 → i.toNat < hw.size.toNat →
      (mask.getLsbD (i.toNat % 64) = true ↔ kernel ≤ i ∨ i ∈ pins)) :
    ∀ {fuel : ℕ} {last last' : BitVec 32}, Tlb.grow mask fuel last = some last' →
      last.toNat < kernel.toNat → hw.size.toNat ≤ last.toNat + 65 →
      (∀ i ∈ pins, last.toNat < i.toNat) →
      last ≤ last' ∧ (∀ i ∈ pins, last'.toNat < i.toNat) ∧
        (last'.toNat + 1 = kernel.toNat ∨ ∃ i ∈ pins, i.toNat = last'.toNat + 1)
  | 0, _, _, h, _, _, _ => by cases h
  | fuel + 1, last, last', h, hlt, hlo, habove => by
    have hhi := hfit.hi
    have hsucc : (last + 1).toNat = last.toNat + 1 := toNat_add_one (by omega)
    have hbit := hmask (last + 1) (by omega) (by omega)
    rw [Tlb.grow, toNat_and_63] at h
    split at h
    · next hset =>
      cases h
      refine ⟨le_refl _, habove, ?_⟩
      rcases hbit.mp hset with hk | hpin
      · have := le_def.mp hk
        exact .inl (by omega)
      · exact .inr ⟨_, hpin, hsucc⟩
    · next hclear =>
      rw [hbit, not_or, not_le] at hclear
      have hlt' := lt_def.mp hclear.1
      obtain ⟨hle, hrest⟩ := grow_spec hfit hmask h hlt' (by omega) fun i hi => by
        have := habove i hi
        have hne : i.toNat ≠ (last + 1).toNat := fun heq =>
          hclear.2 (toNat_inj.mp heq ▸ hi)
        omega
      refine ⟨le_trans ?_ hle, hrest⟩
      rw [le_def]
      omega

theorem Inv.free (hfit : hw.Fits kernel) (hs : s.Inv hw kernel) (hnone : s.tmp = none)
    {index : BitVec 32} (hk : index < kernel) (hlast : s.tlb.last < index) {tlb : Tlb}
    (hpinned : tlb.pinned = s.tlb.pinned &&& ~~~(1#64 <<< (index &&& 0x3f).toNat))
    (hgrow : Tlb.grow tlb.pinned 64 s.tlb.last = some tlb.last) (hindex : tlb.index = s.tlb.index) :
    Inv hw kernel { s with tlb := tlb, pins := s.pins.erase index } := by
  have hb := bound_of_none hnone
  have hb' : bound { s with tlb := tlb, pins := s.pins.erase index } = tlb.last.toNat :=
    bound_of_none hnone
  have hlo := hs.lo
  have hhi := hfit.hi
  have hk' := lt_def.mp hk
  have hlast' := lt_def.mp hlast
  have hmask : ∀ i : BitVec 32, hw.size.toNat ≤ i.toNat + 64 → i.toNat < hw.size.toNat →
      (tlb.pinned.getLsbD (i.toNat % 64) = true ↔ kernel ≤ i ∨ i ∈ s.pins.erase index) := by
    intro i hi hi'
    have hne : i.toNat % 64 ≠ index.toNat % 64 ↔ i ≠ index :=
      not_congr (mod_eq_iff hi hi' (by omega) (by omega))
    have hbit : (~~~(1#64 <<< (index.toNat % 64))).getLsbD (i.toNat % 64) = true ↔ i ≠ index := by
      rw [← hne, BitVec.getLsbD_not, BitVec.getLsbD_shiftLeft, BitVec.getLsbD_one]
      simp only [Bool.and_eq_true, decide_eq_true_eq, Bool.not_eq_true', Bool.and_eq_false_iff,
        Bool.not_eq_false', decide_eq_false_iff_not]
      omega
    rw [hpinned, toNat_and_63, BitVec.getLsbD_and, Bool.and_eq_true, hbit, hs.mask i hi hi',
      Finset.mem_erase]
    refine ⟨fun ⟨h, hne⟩ => h.imp_right fun h => ⟨hne, h⟩, ?_⟩
    rintro (h | ⟨hne, h⟩)
    · exact ⟨.inl h, fun heq => not_lt.mpr h (heq ▸ hk)⟩
    · exact ⟨.inr h, hne⟩
  obtain ⟨hle, habove, htight⟩ :=
    grow_spec hfit hmask hgrow (by have := hs.bound_lt; omega) (by omega)
    fun i hi => hb ▸ (hs.above i (Finset.mem_of_mem_erase hi)).1
  have hle' := le_def.mp hle
  refine ⟨hmask, fun i hi => ?_, ?_, ?_, ?_, ?_⟩
  · rw [hb']
    exact ⟨habove i hi, (hs.above i (Finset.mem_of_mem_erase hi)).2⟩
  · omega
  · rw [hb']
    exact htight
  · intro j hj
    exact absurd (hnone.symm.trans hj) (by simp)
  · exact hindex ▸ le_trans hs.index hle

/-! ### What a step writes -/

theorem Tlb.lock_eq_some {t t₀ : Tlb} (h : t.lock = some t₀) : t₀ = { t with locked := true } := by
  unfold Tlb.lock at h
  split at h
  · cases h
  · exact (some.inj h).symm

/-- An entry is written at its index, or not at all. -/
theorem Tlb.insertIndex_cases (hw : TlbHw) (entry : BitVec 64) (index : BitVec 32) (t : Tlb) :
    ∃ b E, t.insertIndex hw entry index = (b, { t with entries := E }) ∧
      ∀ i, E i ≠ t.entries i → i = index := by
  unfold Tlb.insertIndex
  split
  · refine ⟨true, _, rfl, fun i hi => ?_⟩
    by_contra hne
    exact hi (update_of_ne hne ..)
  · exact ⟨false, _, rfl, fun i hi => absurd rfl hi⟩

/-- **A step spares what is kept**, unless it frees it. -/
def Spares (hw : TlbHw) (kernel : BitVec 32) (op : PinOp) (s s' : Pins) : Prop :=
  ∀ i, s.Kept hw kernel i → s'.tlb.entries i ≠ s.tlb.entries i → op = .tlbfree i ∧ i ∈ s.pins

/-- Writing to the replaceable part spares what is kept. -/
theorem Inv.spares (hs : s.Inv hw kernel) {op : PinOp}
    (h : ∀ i, s'.tlb.entries i ≠ s.tlb.entries i → i ≤ s.tlb.last) : Spares hw kernel op s s' :=
  fun i hkept hi => absurd (.inl hkept) (hs.not_inUse (h i hi))

theorem Inv.tlballoc (hfit : hw.Fits kernel) (hs : s.Inv hw kernel) {asid : BitVec 7}
    {entry : BitVec 64} (hC : s.Careful hw kernel (.tlballoc asid entry))
    (hstep : step hw (.tlballoc asid entry) s = some s') :
    s'.Inv hw kernel ∧ Spares hw kernel (.tlballoc asid entry) s s' := by
  obtain ⟨⟨ret, tlb⟩, hr, rfl⟩ := map_eq_some_iff.mp hstep
  obtain ⟨E, hE, ⟨rfl, rfl⟩ | ⟨hroom, rfl, rfl⟩⟩ := Tlb.tlballoc_cases hr
  · simp only [if_true]
    refine ⟨hs.congr rfl rfl rfl hs.tmp hs.index, fun i hkept hi => ?_⟩
    obtain ⟨htlboc, hmsb⟩ := hE i hi
    exact absurd (.inl hkept) (hC.1 i htlboc hmsb)
  · simp only [signExtend_pinIdx_ne hfit hroom, setWidth_signExtend]
    refine ⟨hs.pin hfit hC hroom rfl rfl rfl, fun i hkept hi => ?_⟩
    by_cases hat : i = Tlb.pinIdx hw s.tlb.pinned
    · exact absurd (.inl (hat ▸ hkept)) (hs.pinIdx_not_inUse hfit hC hroom)
    · obtain ⟨htlboc, hmsb⟩ := hE i fun heq =>
        hi ((update_of_ne hat ..).trans heq)
      exact absurd (.inl hkept) (hC.1 i htlboc hmsb)

theorem Inv.tlbfree (hfit : hw.Fits kernel) (hs : s.Inv hw kernel) {index : BitVec 32}
    (hC : s.Careful hw kernel (.tlbfree index))
    (hstep : step hw (.tlbfree index) s = some s') :
    s'.Inv hw kernel ∧ Spares hw kernel (.tlbfree index) s s' := by
  obtain ⟨⟨ret, tlb⟩, hr, rfl⟩ := map_eq_some_iff.mp hstep
  obtain ⟨rfl, rfl | rfl⟩ | ⟨rfl, hrange, hlast, last, hgrow, rfl⟩ := Tlb.tlbfree_cases hr
  · exact ⟨hs.congr rfl rfl rfl hs.tmp hs.index, fun i _ hi => absurd rfl hi⟩
  · exact ⟨hs.congr rfl rfl rfl hs.tmp hs.index, fun i _ hi => absurd rfl hi⟩
  · obtain ⟨hnone, hk⟩ := (hC.resolve_left (not_le.mpr hrange)).resolve_left (not_le.mpr hlast)
    refine ⟨hs.free hfit hnone hk hlast rfl hgrow rfl, fun i hkept hi => ?_⟩
    by_cases hat : i = index
    · subst hat
      exact ⟨rfl, hkept.resolve_right fun h => not_lt.mpr h.1 hk⟩
    · exact absurd (update_of_ne hat ..) hi

theorem Inv.tmpmapAdd (hs : s.Inv hw kernel) {pa : BitVec 64} {cccc size : BitVec 32}
    (hC : s.Careful hw kernel (.tmpmapAdd pa cccc size))
    (hstep : step hw (.tmpmapAdd pa cccc size) s = some s') :
    s'.Inv hw kernel ∧ Spares hw kernel (.tmpmapAdd pa cccc size) s s' := by
  simp only [Pins.step] at hstep
  split at hstep
  · cases hstep
  next hnone =>
  obtain ⟨⟨va, index, tlb⟩, hr, rfl⟩ := map_eq_some_iff.mp hstep
  obtain ⟨t₀, hlock, heq⟩ := map_eq_some_iff.mp hr
  obtain rfl := Tlb.lock_eq_some hlock
  obtain ⟨-, heq⟩ := Prod.mk.inj heq
  obtain ⟨rfl, rfl⟩ := Prod.mk.inj heq
  obtain ⟨b, E, hins, hE⟩ := Tlb.insertIndex_cases hw
    (Tlb.tmpmapEntry pa cccc (if size = -1 then 0 else size)) s.tlb.last
    { s.tlb with
      locked := true
      last := s.tlb.last - 1
      index := if s.tlb.last ≤ s.tlb.index then 0 else s.tlb.index }
  simp only [hins]
  have hne : s.tlb.last.toNat ≠ 0 := fun h => hC (toNat_inj.mp h)
  have hpred := toNat_sub_one hne
  have hb : s.bound = s.tlb.last.toNat := by rw [bound, if_neg hnone]
  refine ⟨hs.congr rfl rfl ?_ ?_ ?_, hs.spares fun i hi => (hE i hi) ▸ le_refl _⟩
  · rw [hb]
    change (s.tlb.last - 1).toNat + 1 = _
    omega
  · rintro j hj
    exact some.inj hj ▸ hb.symm
  · change (if s.tlb.last ≤ s.tlb.index then 0 else s.tlb.index) ≤ s.tlb.last - 1
    rw [le_def]
    split
    · exact Nat.zero_le _
    · next hlt =>
      have := lt_def.mp (not_le.mp hlt)
      omega

theorem Inv.tmpmapRemove (hs : s.Inv hw kernel)
    (hstep : step hw .tmpmapRemove s = some s') :
    s'.Inv hw kernel ∧ Spares hw kernel .tmpmapRemove s s' := by
  simp only [Pins.step] at hstep
  split at hstep
  next hsome =>
    obtain ⟨tlb, hr, rfl⟩ := map_eq_some_iff.mp hstep
    obtain ⟨t₀, hlock, rfl⟩ := map_eq_some_iff.mp hr
    obtain rfl := Tlb.lock_eq_some hlock
    have hb : s.bound = s.tlb.last.toNat + 1 := by rw [bound, if_pos hsome]
    have hbound := hs.bound_lt
    have hsucc : (s.tlb.last + 1).toNat = s.tlb.last.toNat + 1 := toNat_add_one (by omega)
    refine ⟨hs.congr rfl rfl (hsucc.trans hb.symm) (fun j hj => by cases hj) ?_,
      fun i hkept hi => ?_⟩
    · have := le_def.mp hs.index
      change s.tlb.index ≤ s.tlb.last + 1
      rw [le_def]
      omega
    · -- what is cleared is the map's
      have hat : i = s.tlb.last + 1 := by
        by_contra hne
        exact hi (update_of_ne hne ..)
      rcases hkept with hpin | ⟨hk, -⟩
      · have := (hs.above i hpin).1
        rw [hat] at this
        omega
      · have := le_def.mp hk
        rw [hat] at this
        omega
  · cases hstep

theorem and_le_left (x y : BitVec 32) : x &&& y ≤ x := by
  exact Nat.and_le_left

theorem Inv.fill (hs : s.Inv hw kernel) {entry : BitVec 64} {tlbidxmask : BitVec 8}
    (hC : s.Careful hw kernel (.fill entry tlbidxmask))
    (hstep : step hw (.fill entry tlbidxmask) s = some s') :
    s'.Inv hw kernel ∧ Spares hw kernel (.fill entry tlbidxmask) s s' := by
  obtain ⟨tlb, hr, rfl⟩ := map_eq_some_iff.mp hstep
  obtain ⟨t₀, hlock, heq⟩ := map_eq_some_iff.mp hr
  obtain rfl := Tlb.lock_eq_some hlock
  have hplace : Tlb.fillIndex entry s.tlb &&& tlbidxmask.setWidth 32 ≤ s.tlb.last := by
    unfold Tlb.fillIndex
    split
    · next hdma => exact hC hdma
    · exact le_trans (and_le_left ..) hs.index
  obtain ⟨b, E, hins, hE⟩ := Tlb.insertIndex_cases hw entry
    (Tlb.fillIndex entry s.tlb &&& tlbidxmask.setWidth 32) { s.tlb with locked := true }
  have hspares {s' : Pins} (h : s'.tlb.entries = E) :
      Spares hw kernel (.fill entry tlbidxmask) s s' :=
    hs.spares fun i hi => hE i (h ▸ hi) ▸ hplace
  have hindex : Tlb.fillIndex entry { s.tlb with locked := true } = Tlb.fillIndex entry s.tlb := rfl
  dsimp only at heq hins
  rw [hindex, hins] at heq
  cases b with
  | false =>
    obtain rfl := heq
    exact ⟨hs.congr rfl rfl rfl hs.tmp hs.index, hspares rfl⟩
  | true =>
    dsimp only at heq
    by_cases hdma : tlbfmtHsv39 entry
    · rw [if_pos hdma] at heq
      obtain rfl := heq
      exact ⟨hs.congr rfl rfl rfl hs.tmp hs.index, hspares rfl⟩
    · rw [if_neg hdma] at heq
      obtain rfl := heq
      refine ⟨hs.congr rfl rfl rfl hs.tmp ?_, hspares rfl⟩
      rw [if_neg hdma]
      split
      · next hle => exact hle
      · exact le_def.mpr (Nat.zero_le _)

/-- **Every step taken with care.** -/
theorem Inv.step (hfit : hw.Fits kernel) (hs : s.Inv hw kernel) {op : PinOp}
    (hC : s.Careful hw kernel op) (hstep : Pins.step hw op s = some s') :
    s'.Inv hw kernel ∧ Spares hw kernel op s s' := by
  cases op with
  | tlballoc asid entry => exact hs.tlballoc hfit hC hstep
  | tlbfree index => exact hs.tlbfree hfit hC hstep
  | tmpmapAdd pa cccc size => exact hs.tmpmapAdd hC hstep
  | tmpmapRemove => exact hs.tmpmapRemove hstep
  | fill entry tlbidxmask => exact hs.fill hC hstep

/-- With nothing pinned and no temporary map, the boundary is where it was at boot. -/
theorem Inv.last_eq (hs : s.Inv hw kernel) (htmp : s.tmp = none) (hpins : s.pins = ∅) :
    s.tlb.last = kernel - 1 := by
  have hb := bound_of_none htmp
  rcases hs.tight with h | ⟨i, hi, -⟩
  · rw [← toNat_inj, toNat_sub_one (by omega)]
    omega
  · rw [hpins] at hi
    exact absurd hi (Finset.notMem_empty i)

end Invariant

/-! ## Everybody keeps what they have -/

/-- **With care, the replaceable and the pinned entries never mix**, in any run: no replaceable
entry is in use; what an allocation returns was not; what is pinned or the kernel's is changed only
by freeing it, and then it was pinned; and without pins and maps the boundary is where it was. -/
theorem pins_apart {hw : TlbHw} {kernel : BitVec 32} (hfit : hw.Fits kernel)
    {entries : BitVec 32 → BitVec 64} {s : Pins}
    (hs : Leads (Pins.step hw) (fun op s => s.Careful hw kernel op) (boot kernel entries) s) :
    (∀ i ≤ s.tlb.last, ¬s.InUse hw kernel i) ∧
      (∀ asid entry ret tlb, s.Careful hw kernel (.tlballoc asid entry) →
        s.tlb.tlballoc hw asid entry = some (ret, tlb) → ret ≠ -1 →
        ¬s.InUse hw kernel (ret.setWidth 32)) ∧
      (∀ op s', s.Careful hw kernel op → Pins.step hw op s = some s' → Spares hw kernel op s s') ∧
      (s.tmp = none → s.pins = ∅ → s.tlb.last = kernel - 1) := by
  have hinv : s.Inv hw kernel :=
    Leads.invariant (inv_boot hfit entries) (fun hs hC hstep => (hs.step hfit hC hstep).1) hs
  refine ⟨fun i hi => hinv.not_inUse hi, ?_, fun op s' hC hstep => (hinv.step hfit hC hstep).2,
    hinv.last_eq⟩
  intro asid entry ret tlb hC hr hret
  obtain ⟨E, -, ⟨hfail, -⟩ | ⟨hroom, rfl, -⟩⟩ := Tlb.tlballoc_cases hr
  · exact absurd hfail hret
  · rw [setWidth_signExtend]
    exact hinv.pinIdx_not_inUse hfit hC hroom

/-- For a TLB of 128 entries and a kernel of four pages, which reserves three more. -/
theorem smallTlbHw_fits : smallTlbHw.Fits 121 := ⟨by decide, by decide, by decide, by decide⟩

/-- An entry is pinned, and a map is made. -/
theorem pins_apart_pinAndMap :
    ∃ s, Leads (Pins.step smallTlbHw) (fun op s => s.Careful smallTlbHw 121 op)
      (boot 121 fun _ => 0) s ∧
      s.pins = {120} ∧ s.tmp = some 119 ∧ ∀ i ≤ s.tlb.last, ¬s.InUse smallTlbHw 121 i := by
  have hrun : ∃ s ∈ Pins.step smallTlbHw (.tlballoc 1 0x8000000100000005) (boot 121 fun _ => 0),
      s.pins = {120} ∧ s.tmp = none ∧ s.tlb.last = 119 ∧ s.tlb.locked = false := by decide +kernel
  obtain ⟨s₁, hs₁, hpins, htmp, hlast, hfree⟩ := hrun
  have hC : (boot 121 fun _ => 0).Careful smallTlbHw 121 (.tlballoc 1 0x8000000100000005) := by
    refine ⟨?_, .inr ⟨120, by decide, by decide, by simp [boot]⟩⟩
    rintro i rfl hmsb
    exact absurd hmsb (by decide +kernel)
  obtain ⟨s₂, hs₂⟩ : ∃ s₂, Pins.step smallTlbHw (.tmpmapAdd 0x1000 0 0) s₁ = some s₂ ∧
      s₂.pins = s₁.pins ∧ s₂.tmp = some s₁.tlb.last := by
    simp only [Pins.step, htmp, Tlb.tmpmapAdd, Tlb.lock_of_free hfree]
    exact ⟨_, rfl, rfl, rfl⟩
  have hC₁ : s₁.Careful smallTlbHw 121 (.tmpmapAdd 0x1000 0 0) := by
    rw [Careful, hlast]
    decide
  have hleads : Leads (Pins.step smallTlbHw) (fun op s => s.Careful smallTlbHw 121 op)
      (boot 121 fun _ => 0) s₂ := .step (.step .init hC hs₁) hC₁ hs₂.1
  exact ⟨s₂, hleads, hs₂.2.1.trans hpins, hs₂.2.2.trans (congrArg some hlast),
    (pins_apart smallTlbHw_fits hleads).1⟩

/-! ## The clashes -/

/-- A run from boot, without care. -/
def run (hw : TlbHw) (kernel : BitVec 32) (ops : List PinOp) : Option Pins :=
  runIf (Pins.step hw) (fun _ _ => true) ops (boot kernel fun _ => 0)

/-- A TLB of a given size where nothing overlaps. -/
def sparseTlbHw (size : BitVec 32) : TlbHw where
  size := size
  npages := 4
  tlboc _ _ := tlbNone
  tlbp _ _ := tlbNone

/-- **The clashes.** With a temporary map at 120, an entry is pinned there.  With one at 119,
freeing 120 moves the boundary over it.  The kernel's 121 may be freed.  Pinning an entry twice
loses the first one, which is pinned still.  The 121st entry for the DMA engines goes where one is
pinned.  And in a TLB of 64 entries, when all are pinned, all are replaceable. -/
theorem pins_clash :
    (∃ s, run smallTlbHw 121 [.tmpmapAdd 0x1000 0 0, .tlballoc 1 0x8000000100000005] = some s ∧
      120 ∈ s.pins ∧ s.tmp = some 120) ∧
    (∃ s, run smallTlbHw 121 [.tlballoc 1 0x8000000100000005, .tmpmapAdd 0x1000 0 0, .tlbfree 120] =
      some s ∧ s.tmp = some 119 ∧ 119 ≤ s.tlb.last) ∧
    (∃ s, run smallTlbHw 121 [.tlbfree 121] = some s ∧ 121 ≤ s.tlb.last) ∧
    (∃ s, run smallTlbHw 121 [.tlballoc 1 0x8000000100000005, .tlballoc 1 0x8000000100000005] =
      some s ∧ 120 ∈ s.pins ∧ s.tlb.entries 120 = 0) ∧
    (∃ s, run (sparseTlbHw 128) 121 (.tlballoc 1 0x8000000100000005 ::
      List.replicate 121 (.fill 0x8000000108000005 0x7f)) = some s ∧
      120 ∈ s.pins ∧ s.tlb.entries 120 = 0x8000000108000005) ∧
    ∃ s, run (sparseTlbHw 64) 57 (List.replicate 57 (.tlballoc 1 0x8000000100000005)) = some s ∧
      0 ∈ s.pins ∧ s.tlb.last = -1 := by
  -- what a run shows is evaluated
  have show_run {hw kernel ops} {p : Pins → Prop} [DecidablePred p]
      (h : (run hw kernel ops).any (fun s => decide (p s)) = true) :
      ∃ s, run hw kernel ops = some s ∧ p s := by
    cases hrun : run hw kernel ops with
    | none => simp [hrun] at h
    | some s => exact ⟨s, rfl, by simpa [hrun] using h⟩
  exact ⟨show_run (by decide +kernel), show_run (by decide +kernel), show_run (by decide +kernel),
    show_run (by decide +kernel), show_run (by decide +kernel), show_run (by decide +kernel)⟩

end Pins

end H2
