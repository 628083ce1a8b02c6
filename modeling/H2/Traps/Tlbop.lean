import H2.Mem.Tlb

/-!
# Traps/Tlbop — a guest's hold on the TLB

A guest may read and write TLB entries, and have one pinned: `H2K_tlb_tlballoc` looks for a place
among the top 64, of which a mask says which are taken, and `H2K_tlb_tlbfree` gives it back.  Below
the pinned entries are the replaceable ones, up to `last_tlb_index`.

Every operation that writes holds the lock of the TLB, an instruction that waits.  There are two
slips on the ways out.  Freeing an index in the replaceable part returns without releasing the lock,
and nobody gets at the TLB again; and an allocation that finds all 64 taken has already invalidated
the entry that overlaps the new one.  Apart from these an operation fails without a trace
(`tlbop_clean_iff`).
-/

namespace H2

open Function BitVec

open Option (map_eq_some_iff map_some some)

/-! ## The TLB and what the kernel knows about it -/

/-- The entries, and the kernel's variables that go with them. -/
structure Tlb where
  entries : BitVec 32 → BitVec 64
  /-- `pinned_tlb_mask`: which of the top 64 entries are taken. -/
  pinned : BitVec 64
  /-- `last_tlb_index`: the last entry that may be replaced. -/
  last : BitVec 32
  /-- `tlb_index`: the next entry that will be. -/
  index : BitVec 32
  /-- `tlb_index_dma`, for the entries of DMA engines. -/
  indexDma : BitVec 32
  /-- The lock of the TLB is held. -/
  locked : Bool

/-- What does not change: the sizes, and what the instructions find. -/
structure TlbHw where
  /-- `tlb_size`. -/
  size : BitVec 32
  /-- `H2K_KERNEL_NPAGES`. -/
  npages : BitVec 32
  /-- `tlboc`: the index of the entry that overlaps, `-1` if there are several, and another negative
  number if there is none. -/
  tlboc : (BitVec 32 → BitVec 64) → BitVec 64 → BitVec 32
  tlbp : (BitVec 32 → BitVec 64) → BitVec 32 → BitVec 32

/-- What `tlboc` and `ctlbw` say when nothing overlaps. -/
def tlbNone : BitVec 32 := 0x80000000

/-- `DMA_TLB_START`. -/
def dmaTlbStart : BitVec 32 := 512

/-- `entry.asid = asid`. -/
def tlbfmtSetAsid (asid : BitVec 7) (entry : BitVec 64) : BitVec 64 :=
  entry &&& ~~~(0x7f#64 <<< 52) ||| asid.setWidth 64 <<< 52

/-- `Q6_R_cl1_P`: leading ones. -/
def cl1 (w : BitVec 64) : ℕ := (List.range 64).findIdx fun i => !w.getLsbD (63 - i)

namespace Tlb

/-- `H2K_mem_tlb_write`. -/
@[simps] def write (i : BitVec 32) (entry : BitVec 64) (t : Tlb) : Tlb :=
  { t with entries := update t.entries i entry }

/-- `H2K_mutex_lock_tlb`, if it does not wait. -/
def lock (t : Tlb) : Option Tlb := if t.locked then none else some { t with locked := true }

/-- `H2K_mutex_unlock_tlb`. -/
@[simps] def unlock (t : Tlb) : Tlb := { t with locked := false }

/-- `H2K_tlb_invalidate_overlap`: whether it gives `-1`. -/
def invalidateOverlap (hw : TlbHw) (entry : BitVec 64) (t : Tlb) : Bool × Tlb :=
  let idx := hw.tlboc t.entries entry
  if idx = -1 then (true, t)
  else if idx.msb then (false, t)
  else (false, t.write idx 0)

/-- The bit of `pinned_tlb_mask` that `H2K_tlb_tlballoc` takes, … -/
def maskidx (mask : BitVec 64) : BitVec 32 := 63 - BitVec.ofNat 32 (cl1 mask)

/-- … and the index it stands for. -/
def pinIdx (hw : TlbHw) (mask : BitVec 64) : BitVec 32 := maskidx mask + (hw.size - 64)

/-- `H2K_tlb_tlballoc`, under the lock and with the mask read. -/
def pin (hw : TlbHw) (entry : BitVec 64) (t : Tlb) : BitVec 64 × Tlb :=
  let idx := pinIdx hw t.pinned
  if t.pinned = allOnes 64 then (-1, t)
  else
    -- we may have to shrink the replaceable section
    let t' :=
      if t.last = idx then
        { t with last := t.last - 1, index := if t.index = idx then 0 else t.index }
      else t
    (idx.signExtend 64,
      { t' with pinned := t.pinned ||| 1#64 <<< (maskidx t.pinned).toNat }.write idx entry)

/-- `H2K_tlb_tlballoc`. -/
def tlballoc (hw : TlbHw) (asid : BitVec 7) (entryIn : BitVec 64) (t : Tlb) :
    Option (BitVec 64 × Tlb) :=
  let entry := tlbfmtSetAsid asid entryIn
  t.lock.map fun t =>
    match t.invalidateOverlap hw entry with
    | (true, t) => (-1, t.unlock)
    | (false, t) =>
      let (ret, t) := t.pin hw entry
      (ret, t.unlock)

/-- While there are free spots at the end, grow the replaceable section: the loop of
`H2K_tlb_tlbfree`, which does not end if no bit is set. -/
def grow (mask : BitVec 64) : ℕ → BitVec 32 → Option (BitVec 32)
  | 0, _ => none
  | fuel + 1, last =>
    if mask.getLsbD ((last + 1) &&& 0x3f).toNat then some last else grow mask fuel (last + 1)

/-- `H2K_tlb_tlbfree`. -/
def tlbfree (hw : TlbHw) (index : BitVec 32) (t : Tlb) : Option (BitVec 64 × Tlb) :=
  if hw.size - (hw.npages + 1) ≤ index then some (-1, t)
  else
    t.lock.bind fun t =>
      -- the lock is not released here
      if index ≤ t.last then some (-1, t)
      else
        let t := t.write index 0
        let mask := t.pinned &&& ~~~(1#64 <<< (index &&& 0x3f).toNat)
        (grow mask 64 t.last).map fun last => (0, { t with pinned := mask, last := last }.unlock)

/-- `H2K_tlb_tlbread`. -/
def tlbread (idx : BitVec 32) (t : Tlb) : BitVec 64 × Tlb := (t.entries idx, t)

/-- `H2K_tlb_tlbwrite`. -/
def tlbwrite (asid : BitVec 7) (idx : BitVec 32) (entryIn : BitVec 64) (t : Tlb) :
    Option (BitVec 64 × Tlb) :=
  t.lock.map fun t => (0, (t.write idx (tlbfmtSetAsid asid entryIn)).unlock)

/-- `H2K_tlb_tlbquery`. -/
def tlbquery (hw : TlbHw) (asid : BitVec 7) (va : BitVec 32) (t : Tlb) : BitVec 64 × Tlb :=
  ((hw.tlbp t.entries (asid.setWidth 32 <<< 20 ||| va >>> 12)).setWidth 64, t)

/-- `H2K_tlb_dmaset`. -/
def dmaset (idx : BitVec 32) (entryIn : BitVec 64) (t : Tlb) : Option (BitVec 64 × Tlb) :=
  t.lock.map fun t => ((idx + dmaTlbStart).setWidth 64,
    (t.write (idx + dmaTlbStart) entryIn).unlock)

end Tlb

open Tlb

/-- The operations, in the order of `H2K_tlbtab`. -/
inductive Tlbop where
  | tlbread
  | tlbwrite
  | tlbquery
  | tlballoc
  | tlbfree
  | dmaset
  deriving DecidableEq

/-- `H2K_tlbtab`. -/
def tlbtab : List Tlbop := [.tlbread, .tlbwrite, .tlbquery, .tlballoc, .tlbfree, .dmaset]

def Tlbop.exec (hw : TlbHw) (asid : BitVec 7) (val32 : BitVec 32) (val64 : BitVec 64) (t : Tlb) :
    Tlbop → Option (BitVec 64 × Tlb)
  | .tlbread => some (t.tlbread val32)
  | .tlbwrite => t.tlbwrite asid val32 val64
  | .tlbquery => some (t.tlbquery hw asid val32)
  | .tlballoc => t.tlballoc hw asid val64
  | .tlbfree => t.tlbfree hw val32
  | .dmaset => t.dmaset val32 val64

/-- `H2K_tlb_tlbop`; none if the lock is not to be had, or a loop does not end. -/
def tlbTlbop (hw : TlbHw) (asid : BitVec 7) (op val32 : BitVec 32) (val64 : BitVec 64) (t : Tlb) :
    Option (BitVec 64 × Tlb) :=
  match tlbtab[op.toNat]? with
  | none => some (-1, t)
  | some op => op.exec hw asid val32 val64 t

/-! ## Failing cleanly -/

/-- The entries and the variables that say which of them are taken. -/
structure Tlb.Same (t t' : Tlb) : Prop where
  entries : t'.entries = t.entries
  pinned : t'.pinned = t.pinned
  last : t'.last = t.last
  index : t'.index = t.index

/-- **An operation returns cleanly**: it does not keep the lock, and if it pins or frees and fails,
it has changed nothing. -/
def ReturnsCleanly (op : Option Tlbop) (t : Tlb) (r : BitVec 64 × Tlb) : Prop :=
  (t.locked = false → r.2.locked = false) ∧
    (op = some .tlballoc ∨ op = some .tlbfree → r.1 = -1 → t.Same r.2)

/-- Pinning an entry that overlaps several others fails at once.  If it overlaps one, that one is
not lost for nothing: there is room, or nothing was there. (And the place to be pinned is not the
`-1` that stands for failure, as it would be in a TLB that has no room for the leading ones of the
mask.) -/
def PinsCleanly (hw : TlbHw) (asid : BitVec 7) (entryIn : BitVec 64) (t : Tlb) : Prop :=
  let idx := hw.tlboc t.entries (tlbfmtSetAsid asid entryIn)
  idx = -1 ∨
    if t.pinned = allOnes 64 then idx.msb = true ∨ t.entries idx = 0
    else hw.size ≠ BitVec.ofNat 32 (cl1 t.pinned)

/-- Freeing does not go for the replaceable part, unless the range test stops it before. -/
def FreesCleanly (hw : TlbHw) (index : BitVec 32) (t : Tlb) : Prop :=
  hw.size - (hw.npages + 1) ≤ index ∨ t.last < index

section Clean

variable {hw : TlbHw} {asid : BitVec 7} {t : Tlb} {entry : BitVec 64}

theorem Tlb.Same.refl (t : Tlb) : t.Same t := ⟨rfl, rfl, rfl, rfl⟩

theorem Tlb.lock_of_free (h : t.locked = false) : t.lock = some { t with locked := true } := by
  simp [lock, h]

theorem Tlb.lock_of_held (h : t.locked = true) : t.lock = none := by
  simp [lock, h]

/-- There are at most 64 leading ones, … -/
theorem cl1_le (w : BitVec 64) : cl1 w ≤ 64 := by
  have : cl1 w ≤ (List.range 64).length := List.findIdx_le_length
  simpa using this

/-- … all of them are ones, … -/
theorem getLsbD_of_cl1 {w : BitVec 64} {i : ℕ} (hi : 64 ≤ i + cl1 w) (hi' : i < 64) :
    w.getLsbD i = true := by
  obtain ⟨hones, -⟩ := firstIn_findIdx (fun i => !w.getLsbD (63 - i)) 64
  have hlt : 63 - i < (List.range 64).findIdx (fun i => !w.getLsbD (63 - i)) :=
    (show 63 - i < cl1 w by omega)
  have hback : 63 - (63 - i) = i := by omega
  have hbit := hones (63 - i) (Nat.zero_le _) hlt
  simpa [hback] using hbit

/-- … and the next bit, if there is one, is not. -/
theorem getLsbD_cl1 {w : BitVec 64} (h : cl1 w < 64) : w.getLsbD (63 - cl1 w) = false := by
  obtain ⟨-, hend⟩ := firstIn_findIdx (fun i => !w.getLsbD (63 - i)) 64
  rcases hend with h64 | ⟨-, -, hbit⟩
  · exact absurd (show cl1 w = 64 from h64) (Nat.ne_of_lt h)
  · exact Bool.not_eq_true' _ ▸ hbit

theorem cl1_lt {w : BitVec 64} (h : w ≠ allOnes 64) : cl1 w < 64 := by
  refine lt_of_le_of_ne (cl1_le w) fun heq => h ?_
  refine eq_of_getLsbD_eq fun i hi => ?_
  rw [getLsbD_allOnes, decide_eq_true hi]
  exact getLsbD_of_cl1 (by omega) hi

theorem toNat_maskidx {w : BitVec 64} (h : w ≠ allOnes 64) : (maskidx w).toNat = 63 - cl1 w := by
  have := cl1_lt h
  unfold maskidx
  rw [toNat_sub, toNat_ofNat]
  have h63 : (63 : BitVec 32).toNat = 63 := rfl
  omega

/-- **The highest bit that is clear** is the one to be taken. -/
theorem getLsbD_maskidx {w : BitVec 64} (h : w ≠ allOnes 64) :
    w.getLsbD (maskidx w).toNat = false := by
  rw [toNat_maskidx h]
  exact getLsbD_cl1 (cl1_lt h)

theorem setWidth_signExtend (x : BitVec 32) : (x.signExtend 64).setWidth 32 = x := by
  ext i hi
  have hi' : i < 64 := by omega
  rw [getElem_setWidth, getLsbD_signExtend, if_pos hi, getLsbD_eq_getElem hi]
  simp [hi']

/-- The index to be pinned is `-1` only for a TLB that has no room for what is pinned already. -/
theorem signExtend_pin_eq_neg_one (mask : BitVec 64) :
    (pinIdx hw mask).signExtend 64 = -1 ↔ hw.size = BitVec.ofNat 32 (cl1 mask) := by
  have hneg : (-1 : BitVec 64) = (-1 : BitVec 32).signExtend 64 := by decide
  have hinj {x y : BitVec 32} : x.signExtend 64 = y.signExtend 64 ↔ x = y := by
    refine ⟨fun h => ?_, fun h => by rw [h]⟩
    rw [← setWidth_signExtend x, h, setWidth_signExtend]
  rw [hneg, hinj]
  unfold pinIdx maskidx
  constructor
  · intro h
    bv_omega
  · intro h
    bv_omega

/-- With all 64 taken, nothing is pinned, … -/
theorem Tlb.pin_of_full (h : t.pinned = allOnes 64) : t.pin hw entry = (-1, t) := by
  rw [pin, if_pos h]

/-- … and otherwise one of them is. -/
theorem Tlb.pin_of_room (h : t.pinned ≠ allOnes 64) :
    t.pin hw entry = ((pinIdx hw t.pinned).signExtend 64,
      { t with
        entries := update t.entries (pinIdx hw t.pinned) entry
        pinned := t.pinned ||| 1#64 <<< (maskidx t.pinned).toNat
        last := if t.last = pinIdx hw t.pinned then t.last - 1 else t.last
        index := if t.last = pinIdx hw t.pinned ∧ t.index = pinIdx hw t.pinned then 0
          else t.index }) := by
  rw [pin, if_neg h]
  by_cases hlast : t.last = pinIdx hw t.pinned <;> simp [hlast, write]

theorem Tlb.pinned_ne (h : t.pinned ≠ allOnes 64) :
    t.pinned ||| 1#64 <<< (maskidx t.pinned).toNat ≠ t.pinned := by
  have hlt : (maskidx t.pinned).toNat < 64 := by
    rw [toNat_maskidx h]
    omega
  intro heq
  have hset : (t.pinned ||| 1#64 <<< (maskidx t.pinned).toNat).getLsbD
      (maskidx t.pinned).toNat = true := by
    simp [hlt]
  rw [heq, getLsbD_maskidx h] at hset
  cases hset

/-- Dealing with the overlap writes at most the entry that overlaps. -/
theorem Tlb.invalidateOverlap_cases (b : Bool) (t' : Tlb)
    (h : t.invalidateOverlap hw entry = (b, t')) : ∃ E, t' = { t with entries := E } ∧
      ∀ i, E i ≠ t.entries i → hw.tlboc t.entries entry = i ∧ i.msb = false := by
  unfold invalidateOverlap at h
  simp only at h
  split at h
  · cases h
    exact ⟨_, rfl, fun i hi => absurd rfl hi⟩
  split at h
  · cases h
    exact ⟨_, rfl, fun i hi => absurd rfl hi⟩
  · next hmsb =>
    cases h
    refine ⟨_, rfl, fun i hi => ?_⟩
    by_cases hidx : i = hw.tlboc t.entries entry
    · subst hidx
      exact ⟨rfl, by simpa using hmsb⟩
    · exact absurd (update_of_ne hidx ..) hi

/-- **What an allocation does**: it fails, or takes the place that the mask offers. -/
theorem Tlb.tlballoc_cases {entryIn ret : BitVec 64} {t' : Tlb}
    (h : t.tlballoc hw asid entryIn = some (ret, t')) : ∃ E, (∀ i, E i ≠ t.entries i →
        hw.tlboc t.entries (tlbfmtSetAsid asid entryIn) = i ∧ i.msb = false) ∧
      (ret = -1 ∧ t' = { t with entries := E } ∨
        t.pinned ≠ allOnes 64 ∧ ret = (pinIdx hw t.pinned).signExtend 64 ∧
        t' = { t with
          entries := update E (pinIdx hw t.pinned) (tlbfmtSetAsid asid entryIn)
          pinned := t.pinned ||| 1#64 <<< (maskidx t.pinned).toNat
          last := if t.last = pinIdx hw t.pinned then t.last - 1 else t.last
          index := if t.last = pinIdx hw t.pinned ∧ t.index = pinIdx hw t.pinned then 0
            else t.index }) := by
  obtain ⟨t₀, hlock, hr⟩ := map_eq_some_iff.mp h
  obtain ⟨hfree, rfl⟩ : t.locked = false ∧ t₀ = { t with locked := true } := by
    cases hheld : t.locked with
    | true => simp [lock_of_held hheld] at hlock
    | false => exact ⟨rfl, (some.inj ((lock_of_free hheld).symm.trans hlock)).symm⟩
  rcases hover : invalidateOverlap hw (tlbfmtSetAsid asid entryIn) { t with locked := true } with
    ⟨b, t₁⟩
  obtain ⟨E, rfl, hE⟩ := invalidateOverlap_cases b t₁ hover
  rw [hover] at hr
  refine ⟨E, hE, ?_⟩
  cases b with
  | true =>
    obtain ⟨rfl, rfl⟩ := Prod.mk.inj hr
    exact .inl ⟨rfl, by simp [unlock, hfree]⟩
  | false =>
    dsimp only at hr
    by_cases hfull : t.pinned = allOnes 64
    · rw [pin_of_full (by exact hfull)] at hr
      obtain ⟨rfl, rfl⟩ := Prod.mk.inj hr
      exact .inl ⟨rfl, by simp [unlock, hfree]⟩
    · rw [pin_of_room (by exact hfull)] at hr
      obtain ⟨rfl, rfl⟩ := Prod.mk.inj hr
      exact .inr ⟨hfull, rfl, by simp [unlock, hfree]⟩

/-- **What freeing does**: it fails, with or without the lock, or clears the place and moves the
boundary. -/
theorem Tlb.tlbfree_cases {index : BitVec 32} {ret : BitVec 64} {t' : Tlb}
    (h : t.tlbfree hw index = some (ret, t')) :
    ret = -1 ∧ (t' = t ∨ t' = { t with locked := true }) ∨
      ret = 0 ∧ index < hw.size - (hw.npages + 1) ∧ t.last < index ∧
        ∃ last, grow (t.pinned &&& ~~~(1#64 <<< (index &&& 0x3f).toNat)) 64 t.last = some last ∧
          t' = { t with
            entries := update t.entries index 0
            pinned := t.pinned &&& ~~~(1#64 <<< (index &&& 0x3f).toNat)
            last := last } := by
  unfold tlbfree at h
  split at h
  · obtain ⟨rfl, rfl⟩ := Prod.mk.inj (some.inj h)
    exact .inl ⟨rfl, .inl rfl⟩
  next hrange =>
  cases hheld : t.locked with
  | true => simp [lock_of_held hheld] at h
  | false =>
    rw [lock_of_free hheld, Option.bind_some] at h
    split at h
    · obtain ⟨rfl, rfl⟩ := Prod.mk.inj (some.inj h)
      exact .inl ⟨rfl, .inr rfl⟩
    · next hlast =>
      obtain ⟨last, hgrow, hr⟩ := map_eq_some_iff.mp h
      obtain ⟨rfl, rfl⟩ := Prod.mk.inj hr
      refine .inr ⟨rfl, BitVec.not_le.mp hrange, BitVec.not_le.mp hlast, last, hgrow, ?_⟩
      simp [unlock, write]

theorem tlballoc_clean_iff (hfree : t.locked = false) (entryIn : BitVec 64) :
    (∀ r, t.tlballoc hw asid entryIn = some r → ReturnsCleanly (some .tlballoc) t r) ↔
      PinsCleanly hw asid entryIn t := by
  unfold PinsCleanly tlballoc invalidateOverlap
  rw [lock_of_free hfree]
  simp only [map_some, some.injEq, forall_eq']
  set entry := tlbfmtSetAsid asid entryIn
  set idx := hw.tlboc t.entries entry
  by_cases hmulti : idx = -1
  · simp only [hmulti, true_or, iff_true]
    exact ⟨fun _ => rfl, fun _ _ => ⟨rfl, rfl, rfl, rfl⟩⟩
  simp only [hmulti, if_false, false_or]
  -- what is left of the TLB when the overlap has been dealt with
  obtain ⟨t₁, ht₁, hpinned, hsame⟩ : ∃ t₁ : Tlb, (if idx.msb then (false, { t with locked := true })
        else (false, write idx 0 { t with locked := true })) = (false, t₁) ∧
      t₁.pinned = t.pinned ∧ (t.Same t₁.unlock ↔ idx.msb = true ∨ t.entries idx = 0) := by
    split
    · next hmsb => exact ⟨_, rfl, rfl, fun _ => .inl hmsb, fun _ => ⟨rfl, rfl, rfl, rfl⟩⟩
    · next hmsb =>
      refine ⟨_, rfl, rfl, fun h => .inr ?_, fun h => ⟨?_, rfl, rfl, rfl⟩⟩
      · rw [← h.entries]
        exact update_self ..
      · have hzero := h.resolve_left hmsb
        change update t.entries idx 0 = t.entries
        rw [← hzero, update_eq_self]
  rw [ht₁]
  simp only
  by_cases hfull : t.pinned = allOnes 64
  · rw [pin_of_full (hpinned.trans hfull), if_pos hfull, ← hsame]
    exact ⟨fun h => h.2 (.inl rfl) rfl, fun h => ⟨fun _ => rfl, fun _ _ => h⟩⟩
  · have hroom : t₁.pinned ≠ allOnes 64 := fun h => hfull (hpinned.symm.trans h)
    rw [pin_of_room hroom, if_neg hfull, ← hpinned]
    refine ⟨fun h hsize => ?_, fun h => ⟨fun _ => rfl, fun _ hret => ?_⟩⟩
    · have hsame' := h.2 (.inl rfl) ((signExtend_pin_eq_neg_one _).mpr hsize)
      exact pinned_ne hroom (hsame'.pinned.trans hpinned.symm)
    · exact absurd ((signExtend_pin_eq_neg_one _).mp hret) h

theorem tlbfree_clean_iff (hfree : t.locked = false) (index : BitVec 32) :
    (∀ r, t.tlbfree hw index = some r → ReturnsCleanly (some .tlbfree) t r) ↔
      FreesCleanly hw index t := by
  unfold FreesCleanly tlbfree
  by_cases hrange : hw.size - (hw.npages + 1) ≤ index
  · rw [if_pos hrange]
    simp only [hrange, true_or, iff_true]
    rintro r hr
    cases hr
    exact ⟨id, fun _ _ => .refl t⟩
  rw [lock_of_free hfree, Option.bind_some]
  simp only [hrange, false_or]
  by_cases hlast : index ≤ t.last
  · -- out with the lock held
    rw [if_pos hlast]
    refine ⟨fun h => ?_, fun h => absurd hlast (BitVec.not_le.mpr h)⟩
    exact absurd ((h _ rfl).1 hfree) (by simp)
  · rw [if_neg hlast]
    refine ⟨fun _ => BitVec.not_le.mp hlast, fun _ r hr => ?_⟩
    obtain ⟨last, -, rfl⟩ := map_eq_some_iff.mp hr
    have hzero : (0 : BitVec 64) ≠ -1 := by decide
    exact ⟨fun _ => rfl, fun _ hret => absurd hret hzero⟩

/-- The others do not pin or free, and release the lock they take. -/
theorem exec_clean {op : Tlbop} (halloc : op ≠ .tlballoc) (hfree : op ≠ .tlbfree)
    (val32 : BitVec 32)
    (val64 : BitVec 64) {r : BitVec 64 × Tlb} (hr : op.exec hw asid val32 val64 t = some r) :
    ReturnsCleanly (some op) t r := by
  refine ⟨fun hlock => ?_, fun h => absurd h (by simp [halloc, hfree])⟩
  have hlocked := lock_of_free hlock
  cases op with
  | tlbread | tlbquery =>
    obtain rfl := some.inj hr
    exact hlock
  | tlbwrite | dmaset =>
    simp only [Tlbop.exec, tlbwrite, dmaset, hlocked] at hr
    obtain rfl := some.inj hr
    rfl
  | tlballoc => exact absurd rfl halloc
  | tlbfree => exact absurd rfl hfree

/-- With the lock held by another, an operation that returns has not taken it. -/
theorem exec_held {op : Tlbop} (hheld : t.locked = true) {val32 : BitVec 32} {val64 : BitVec 64}
    {r : BitVec 64 × Tlb} (hr : op.exec hw asid val32 val64 t = some r) :
    ReturnsCleanly (some op) t r := by
  have hlocked := lock_of_held hheld
  refine ⟨fun h => absurd h (by simp [hheld]), fun _ _ => ?_⟩
  cases op with
  | tlbread | tlbquery =>
    cases hr
    exact .refl t
  | tlbwrite | dmaset | tlballoc =>
    simp [Tlbop.exec, tlbwrite, dmaset, tlballoc, hlocked] at hr
  | tlbfree =>
    simp only [Tlbop.exec, tlbfree, hlocked] at hr
    split at hr
    · cases hr
      exact .refl t
    · cases hr

end Clean

/-- **An operation returns cleanly unless it frees an index of the replaceable part, or pins an
entry that overlaps one other when nothing is left to be pinned** — whatever the operation, its
arguments and the state. -/
theorem tlbop_clean_iff (hw : TlbHw) (asid : BitVec 7) (op val32 : BitVec 32) (val64 : BitVec 64)
    (t : Tlb) :
    (∀ r, tlbTlbop hw asid op val32 val64 t = some r → ReturnsCleanly tlbtab[op.toNat]? t r) ↔
      t.locked = true ∨
        (tlbtab[op.toNat]? = some .tlballoc → PinsCleanly hw asid val64 t) ∧
        (tlbtab[op.toNat]? = some .tlbfree → FreesCleanly hw val32 t) := by
  unfold tlbTlbop
  rcases tlbtab[op.toNat]? with - | op
  · refine ⟨fun _ => .inr ⟨by simp, by simp⟩, fun _ r hr => ?_⟩
    cases hr
    exact ⟨id, by simp⟩
  cases hlock : t.locked with
  | true => exact ⟨fun _ => .inl rfl, fun _ r hr => exec_held hlock hr⟩
  | false =>
    simp only [Bool.false_eq_true, false_or, some.injEq]
    by_cases halloc : op = .tlballoc
    · subst halloc
      rw [show Tlbop.exec hw asid val32 val64 t .tlballoc = t.tlballoc hw asid val64 from rfl,
        tlballoc_clean_iff hlock]
      simp
    by_cases hfree : op = .tlbfree
    · subst hfree
      rw [show Tlbop.exec hw asid val32 val64 t .tlbfree = t.tlbfree hw val32 from rfl,
        tlbfree_clean_iff hlock]
      simp
    · exact ⟨fun _ => ⟨fun h => absurd h halloc, fun h => absurd h hfree⟩,
        fun _ r hr => exec_clean halloc hfree val32 val64 hr⟩

/-! ## The slips -/

/-- `H2K_kg_init`, for the TLB as it was set up at boot. -/
def Tlb.kgInit (lastTlbIndex : BitVec 32) (entries : BitVec 32 → BitVec 64) : Tlb where
  entries := entries
  pinned := allOnes 64 <<< ((lastTlbIndex + 1) &&& 0x3f).toNat
  last := lastTlbIndex
  index := 0
  indexDma := dmaTlbStart
  locked := false

/-- A TLB of 128 entries and a kernel of four pages, where nothing but the same page overlaps. -/
def smallTlbHw : TlbHw where
  size := 128
  npages := 4
  tlboc entries entry :=
    ((List.range 128).map (BitVec.ofNat 32)).find? (entries · = entry) |>.getD tlbNone
  tlbp _ _ := tlbNone

/-- All places are taken, and there is an entry that is not pinned. -/
def fullTlb : Tlb where
  entries i := if i = 5 then 0x8000000000000001 else 0
  pinned := allOnes 64
  last := 63
  index := 0
  indexDma := dmaTlbStart
  locked := false

/-- **The slips**: freeing index 0 keeps the lock, and pinning what is in the TLB already, with all
places taken, loses it. -/
theorem tlbop_unclean :
    (∃ t, tlbTlbop smallTlbHw 1 4 0 0 (.kgInit 120 fun _ => 0) = some (-1, t) ∧ t.locked = true) ∧
      ∃ t, tlbTlbop smallTlbHw 0 3 0 (fullTlb.entries 5) fullTlb = some (-1, t) ∧
        t.entries 5 ≠ fullTlb.entries 5 := by
  have hfree : (tlbTlbop smallTlbHw 1 4 0 0 (.kgInit 120 fun _ => 0)).map
      (fun r => (r.1, r.2.locked)) = some (-1, true) := by decide +kernel
  have halloc : (tlbTlbop smallTlbHw 0 3 0 (fullTlb.entries 5) fullTlb).map
      (fun r => (r.1, r.2.entries 5)) = some (-1, 0) := by decide +kernel
  obtain ⟨⟨ret, t⟩, ht, hlocked⟩ := map_eq_some_iff.mp hfree
  obtain ⟨⟨ret', t'⟩, ht', hlost⟩ := map_eq_some_iff.mp halloc
  simp only [Prod.mk.injEq] at hlocked hlost
  obtain ⟨rfl, hlocked⟩ := hlocked
  obtain ⟨rfl, hlost⟩ := hlost
  refine ⟨⟨t, ht, hlocked⟩, t', ht', ?_⟩
  rw [hlost]
  decide

end H2
