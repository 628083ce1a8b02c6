import H2.Machinery.Leads
import H2.Mem.Translate
import H2.Qurt.Tables

/-!
# Qurt/Mapping — mappings of pages, made and looked up

`qurt_mapping_create_vpn` cuts a range of pages into naturally aligned pages of powers of four, and
creates a translation for each (`Inv.createVpnLoop`); a range none of which is mapped is mapped, to
the physical pages asked for, and all other pages keep their translations.

The attributes are lost: `tmp`, which has them at first, is set anew in every round.  And
`qurt_lookup_physaddr_64` adds the page number without its shift (`lookup_lt`).  So a mapping is
never as it was asked for, unless it is of no page (`mapping_lookup_agree_iff`).
-/

namespace H2.Qurt

open Nat

open Hexagon (Word lower)

open BitVec (eq_of_toNat_eq getLsbD ofNat toNat_add toNat_and toNat_or toNat_ushiftRight)

/-- `pgsize` of one round: `minu(12,ctz(vpn|ppn))`, not larger than what is left, and even. -/
def pgsize (vpn ppn size : Word) : ℕ :=
  min (min 12 (ct0 (vpn ||| ppn))) size.toNat.log2 / 2 * 2

/-- `tmp` of one round: the page number, and below it the bit that says its size. -/
def pagePte (ppn : Word) (pgsize : ℕ) : Word :=
  (((ppn &&& 0x3fffff#32) >>> pgsize) <<< (pgsize + 1)) ||| (1#32 <<< pgsize)

namespace Layout

variable (L : Layout)

/-- The loop of `qurt_mapping_create_vpn`.  What `tmp` is before does not matter. -/
def createVpnLoop : ℕ → Word → Word → Word → Word → Tables → Option (Status × Tables)
  | 0, _, _, _, _, _ => none
  | n + 1, _tmp, vpn, ppn, size, T =>
    if size = 0 then some (.eok, T)
    else
      let s := pgsize vpn ppn size
      let tmp := pagePte ppn s
      (L.createVaradix vpn tmp s T).bind fun (ret, T) =>
        if ret ≠ .eok then some (ret, T)
        else createVpnLoop n tmp (vpn + 1#32 <<< s) (ppn + 1#32 <<< s) (size - 1#32 <<< s) T

/-- `qurt_mapping_create_vpn`; every round maps at least one page. -/
def createVpn (vpn ppn size cacheAttribs perm _abits : Word) (T : Tables) :
    Option (Status × Tables) :=
  let tmp := (cacheAttribs <<< 24) ||| ((perm <<< 1) <<< 28)
  L.createVpnLoop (size.toNat + 1) tmp vpn ppn size T

/-- `qurt_memory_init_early_varadix_from_tlb`, for an entry in the format of the TLB. -/
def earlyVaradixFromTlb (inval : BitVec 64) (T : Tables) : Option (Status × Tables) :=
  let vpn : Word := (inval >>> 32).setWidth 32 &&& 0x000fffff#32
  let ppn : Word := (inval >>> 1).setWidth 32 &&& 0x003fffff#32
  let size := 2 * ct0 (lower inval)
  let xwru : Word := (inval >>> 28).setWidth 32 &&& 0xf#32
  let cccc : Word := (inval >>> 24).setWidth 32 &&& 0xf#32
  let entry := ((ppn >>> size) <<< (size + 1)) ||| (1#32 <<< size) ||| (xwru <<< 28) |||
    (cccc <<< 24)
  L.createVaradix vpn entry size T

/-- `qurt_lookup_physaddr_64`. -/
def lookupPhysaddr64 (vaddr : Word) (T : Tables) : BitVec 64 :=
  match L.findMapping (vaddr >>> 12) T with
  | none => 0
  | some (tablebase, idx) =>
    let entry := T.mem tablebase idx
    let size := ct0 entry
    let ppn := (entry >>> 1) &&& 0x3fffff#32
    let ppn := ppn &&& (ppn - 1)
    let paddr := (ppn >>> size).setWidth 64 <<< size
    paddr ||| (vaddr &&& (1#32 <<< (12 + size) - 1)).setWidth 64

/-- What the hypervisor's walker makes of the entry for a page. -/
def translation (vpn : Word) (T : Tables) : Option Translation :=
  (L.findMapping vpn T).map fun l =>
    let entry := T.mem l.1 l.2
    varadixMktrans vpn entry (varadixEntrySize entry)

end Layout

/-! ## One page -/

section Page

variable {vpn ppn size base : Word} {s : ℕ}

theorem dvd_toNat_of_le_ct0 {w : Word} (h : s ≤ ct0 w) : 2 ^ s ∣ w.toNat := by
  refine (pow_dvd_pow 2 h).trans ?_
  rcases lt_or_ge (ct0 w) 32 with hlt | hge
  · obtain ⟨a, ha⟩ := (ct0_eq_iff hlt).mp rfl
    rw [ha, pow_succ, mul_assoc]
    exact Nat.dvd_add (Nat.dvd_mul_right ..) (Nat.dvd_refl _)
  · have hzero : w = 0 := by
      refine BitVec.eq_of_getLsbD_eq fun i hi => ?_
      rw [(firstIn_ct0 w).1 i (zero_le i) (hi.trans_le hge)]
      exact (BitVec.getLsbD_zero ..).symm
    rw [hzero]
    exact dvd_zero _

theorem dvd_of_dvd_or {x y : ℕ} (h : 2 ^ s ∣ x ||| y) : 2 ^ s ∣ x ∧ 2 ^ s ∣ y := by
  have hzero : x % 2 ^ s ||| y % 2 ^ s = 0 := by
    rw [← or_mod_two_pow]
    exact mod_eq_zero_of_dvd h
  obtain ⟨hx, hy⟩ := or_eq_zero_iff.mp hzero
  exact ⟨dvd_of_mod_eq_zero hx, dvd_of_mod_eq_zero hy⟩

/-- **The size of a page**: it fits, and both page numbers are multiples of it. -/
theorem pgsize_spec (vpn ppn : Word) (hsize : size ≠ 0) :
    (pgsize vpn ppn size ≤ 12 ∧ pgsize vpn ppn size % 2 = 0) ∧
      2 ^ pgsize vpn ppn size ≤ size.toNat ∧
      2 ^ pgsize vpn ppn size ∣ vpn.toNat ∧ 2 ^ pgsize vpn ppn size ∣ ppn.toNat := by
  have hle : pgsize vpn ppn size ≤ min (min 12 (ct0 (vpn ||| ppn))) size.toNat.log2 :=
    div_mul_le_self ..
  have hpos : size.toNat ≠ 0 := fun h => hsize (eq_of_toNat_eq h)
  have hdvd : 2 ^ pgsize vpn ppn size ∣ (vpn ||| ppn).toNat := dvd_toNat_of_le_ct0 (by omega)
  refine ⟨⟨by omega, mul_mod_left ..⟩, ?_, dvd_of_dvd_or hdvd⟩
  exact (Nat.pow_le_pow_right Nat.two_pos (by omega)).trans (Nat.log2_self_le hpos)

theorem or_le_add (x y : ℕ) : x ||| y ≤ x + y := by
  induction x using Nat.strongRecOn generalizing y with
  | _ x ih =>
    rcases Nat.eq_zero_or_pos x with rfl | hx
    · rw [zero_or, zero_add]
    · have hdiv : (x ||| y) / 2 = x / 2 ||| y / 2 := or_div_two
      have hmod : (x ||| y) % 2 = 1 ↔ x % 2 = 1 ∨ y % 2 = 1 := or_mod_two_eq_one
      have hih := ih (x / 2) (div_lt_self hx one_lt_two) (y / 2)
      omega

theorem toNat_pagePte (hs : s ≤ 12) :
    (pagePte ppn s).toNat = 2 ^ (s + 1) * (ppn.toNat % 2 ^ 22 / 2 ^ s) + 2 ^ s := by
  have hand : (ppn &&& 0x3fffff#32).toNat = ppn.toNat % 2 ^ 22 := by
    exact Nat.and_two_pow_sub_one_eq_mod ppn.toNat 22
  have hlt : ppn.toNat % 2 ^ 22 / 2 ^ s * 2 ^ (s + 1) < 2 ^ 32 := by
    have hmul := Nat.div_mul_le_self (ppn.toNat % 2 ^ 22) (2 ^ s)
    rw [show 2 ^ (s + 1) = 2 ^ s * 2 from Nat.pow_succ .., ← Nat.mul_assoc]
    omega
  rw [Nat.two_pow_add_eq_or_of_lt (Nat.pow_lt_pow_right Nat.one_lt_two (Nat.lt_succ_self s)),
    pagePte, toNat_or, toNat_one_shiftLeft (by omega), BitVec.toNat_shiftLeft,
    Nat.shiftLeft_eq, toNat_ushiftRight, Nat.shiftRight_eq_div_pow, hand,
    Nat.mod_eq_of_lt hlt, Nat.mul_comm]

theorem ct0_pagePte (hs : s ≤ 12) : ct0 (pagePte ppn s) = s :=
  (ct0_eq_iff (by omega)).mpr ⟨_, toNat_pagePte hs⟩

/-! ## What is read off an entry -/

/-- Above the bit that says its size, an entry is the page number. -/
theorem getLsbD_pagePte {i : ℕ} (hi : s ≤ i) (hlt : i < 22) :
    (pagePte ppn s).getLsbD (i + 1) = ppn.getLsbD i := by
  have hsub : s + (i + 1 - (s + 1)) = i := by omega
  have hmask : (0x3fffff#32).getLsbD i = true := by
    rw [show 0x3fffff#32 = 1#32 <<< 22 - 1 from rfl, getLsbD_mask (by decide), decide_eq_true hlt]
  have hmark : (1#32 <<< s).getLsbD (i + 1) = false := by
    rw [getLsbD, toNat_one_shiftLeft (by omega), testBit_two_pow, decide_eq_false (by omega)]
  rw [pagePte, BitVec.getLsbD_or, hmark, BitVec.getLsbD_shiftLeft, BitVec.getLsbD_ushiftRight, hsub,
    BitVec.getLsbD_and, hmask]
  simp [show i + 1 < 32 by omega, show ¬i + 1 < s + 1 by omega]

/-- **The page number the walker reads** is that of the page in the block. -/
theorem pn_pagePte {v : Word} (hs : s ≤ 12) (hv : v.toNat < 2 ^ 20) (hbase : base.toNat < 2 ^ 22)
    (hdvd : 2 ^ s ∣ base.toNat) :
    (varadixMktrans v (pagePte base s) (varadixEntrySize (pagePte base s))).pn.toNat =
      base.toNat + v.toNat % 2 ^ s := by
  obtain ⟨a, ha⟩ := hdvd
  have habove {i : ℕ} (hi : 22 ≤ i) : base.toNat.testBit i = false ∧ v.toNat.testBit i = false :=
    ⟨testBit_lt_two_pow (hbase.trans_le (Nat.pow_le_pow_right two_pos hi)),
      testBit_lt_two_pow (hv.trans_le (Nat.pow_le_pow_right two_pos (by omega)))⟩
  have hbit {i : ℕ} (hi : s ≤ i) : a.testBit (i - s) = base.toNat.testBit i := by
    rw [ha, testBit_two_pow_mul, decide_eq_true hi, Bool.true_and]
  refine eq_of_testBit_eq fun i => ?_
  rw [ha, testBit_two_pow_mul_add a (mod_lt _ (Nat.two_pow_pos s)), testBit_mod_two_pow]
  rcases Nat.lt_or_ge i 32 with hi | hi
  · refine (getLsbD_varadixMktrans (by omega) (ct0_pagePte hs) hi).trans ?_
    split
    · next hin =>
      rw [getLsbD_pagePte hin.1 hin.2, if_neg (by omega), hbit hin.1]
      rfl
    · next hout =>
      split
      · next hlt => simp [hlt, getLsbD]
      · next hge =>
        obtain ⟨hb, hv'⟩ := habove (show 22 ≤ i by omega)
        rw [hbit (by omega), hb]
        exact hv'
  · have hleft := testBit_lt_two_pow
      (((varadixMktrans v (pagePte base s) (varadixEntrySize (pagePte base s))).pn.isLt).trans_le
        (Nat.pow_le_pow_right two_pos hi))
    rw [hleft, if_neg (by omega), hbit (by omega), (habove (by omega)).1]

/-- **No attributes**: the entry has nothing above the page number. -/
theorem fields_pagePte {v : Word} (hs : s ≤ 12) :
    (varadixMktrans v (pagePte ppn s) (varadixEntrySize (pagePte ppn s))).cccc = 0 ∧
      (varadixMktrans v (pagePte ppn s) (varadixEntrySize (pagePte ppn s))).weakCcc = false ∧
      (varadixMktrans v (pagePte ppn s) (varadixEntrySize (pagePte ppn s))).xwru = 0 := by
  have hlt : (pagePte ppn s).toNat < 2 ^ 24 := by
    have hmul := mul_div_le (ppn.toNat % 2 ^ 22) (2 ^ s)
    have hpow : 2 ^ s ≤ 2 ^ 12 := Nat.pow_le_pow_right Nat.two_pos hs
    rw [toNat_pagePte hs, show 2 ^ (s + 1) = 2 ^ s * 2 from pow_succ .., mul_right_comm]
    omega
  have hbit (i : ℕ) (hi : 24 ≤ i) : (pagePte ppn s).getLsbD i = false :=
    Nat.testBit_lt_two_pow (hlt.trans_le (Nat.pow_le_pow_right Nat.two_pos hi))
  refine ⟨BitVec.eq_of_getLsbD_eq fun i hi => ?_, hbit 27 (by decide),
    BitVec.eq_of_getLsbD_eq fun i hi => ?_⟩
  all_goals
    rw [varadixMktrans, BitVec.getLsbD_extractLsb', hbit _ (by omega)]
    simp

/-- **What a lookup makes of it**: the page number is taken for an address. -/
theorem lookup_lt {L : Layout} {T : Tables} {vaddr : Word} {l : Word × ℕ}
    (hl : L.findMapping (vaddr >>> 12) T = some l) (hentry : T.mem l.1 l.2 = pagePte base s)
    (hs : s ≤ 12) (hbase : base.toNat < 2 ^ 22) (hdvd : 2 ^ s ∣ base.toNat)
    (hpos : 0 < base.toNat) :
    (L.lookupPhysaddr64 vaddr T).toNat < base.toNat * 4096 + vaddr.toNat % 2 ^ (12 + s) := by
  obtain ⟨a, ha⟩ := hdvd
  have hpow := Nat.two_pow_pos s
  obtain ⟨ppn, hppn⟩ : ∃ ppn : Word, ppn = ((pagePte base s >>> 1) &&& 0x3fffff#32) &&&
      (((pagePte base s >>> 1) &&& 0x3fffff#32) - 1) := ⟨_, rfl⟩
  have hlookup : L.lookupPhysaddr64 vaddr T = ((ppn >>> s).setWidth 64 <<< s) |||
      (vaddr &&& (1#32 <<< (12 + s) - 1)).setWidth 64 := by
    simp only [Layout.lookupPhysaddr64, hl, hentry, ct0_pagePte hs, hppn]
  have hhalf : (pagePte base s).toNat / 2 = 2 ^ s * a + 2 ^ s / 2 := by
    rw [toNat_pagePte hs, Nat.mod_eq_of_lt hbase, ha, Nat.mul_div_cancel_left _ hpow,
      show 2 ^ (s + 1) = 2 ^ s * 2 from Nat.pow_succ .., Nat.mul_right_comm]
    omega
  have hle : ppn.toNat ≤ 2 ^ s * a + 2 ^ s / 2 := by
    rw [hppn, toNat_and, toNat_and, toNat_ushiftRight, Nat.shiftRight_eq_div_pow, ← hhalf]
    exact Nat.and_le_left.trans Nat.and_le_left
  have hdiv : ppn.toNat / 2 ^ s ≤ a := by
    refine Nat.le_of_lt_succ (Nat.div_lt_of_lt_mul ?_)
    rw [Nat.mul_succ]
    omega
  have hmul : ppn.toNat / 2 ^ s * 2 ^ s ≤ base.toNat := by
    rw [ha, Nat.mul_comm]
    exact Nat.mul_le_mul_left _ hdiv
  have hpaddr : ((ppn >>> s).setWidth 64 <<< s).toNat = ppn.toNat / 2 ^ s * 2 ^ s := by
    rw [BitVec.toNat_shiftLeft, BitVec.toNat_setWidth, Nat.shiftLeft_eq,
      Nat.mod_eq_of_lt (by omega : (ppn >>> s).toNat < 2 ^ 64), toNat_ushiftRight,
      Nat.shiftRight_eq_div_pow, Nat.mod_eq_of_lt (by omega)]
  have hoff : ((vaddr &&& (1#32 <<< (12 + s) - 1)).setWidth 64).toNat =
      vaddr.toNat % 2 ^ (12 + s) := by
    have hlt : 2 ^ (12 + s) ≤ 2 ^ 24 := Nat.pow_le_pow_right Nat.two_pos (by omega)
    have hpos := Nat.two_pow_pos (12 + s)
    have hand : (vaddr &&& (1#32 <<< (12 + s) - 1)).toNat = vaddr.toNat % 2 ^ (12 + s) := by
      rw [toNat_and, toNat_mask (by omega), Nat.and_two_pow_sub_one_eq_mod]
    rw [BitVec.toNat_setWidth, hand]
    exact Nat.mod_eq_of_lt ((Nat.mod_lt _ hpos).trans (by omega))
  rw [hlookup, toNat_or, hpaddr, hoff]
  have hor : ppn.toNat / 2 ^ s * 2 ^ s ||| vaddr.toNat % 2 ^ (12 + s) ≤
      ppn.toNat / 2 ^ s * 2 ^ s + vaddr.toNat % 2 ^ (12 + s) := or_le_add ..
  omega

end Page

/-! ## A range of pages -/

namespace Layout

variable {L : Layout} {T T' : Tables} {home : Word → Option Radix.Place} {vpn ppn size tmp : Word}
  {u P s n : ℕ}

/-- The pages of a range. -/
def page (vpn : Word) (i : ℕ) : ℕ := (vpn.toNat + i) % 2 ^ 20

theorem page_lt (vpn : Word) (i : ℕ) : page vpn i < 2 ^ 20 := Nat.mod_lt _ (Nat.two_pow_pos 20)

theorem key_add (vpn w : Word) : key (vpn + w) = page vpn w.toNat := by
  rw [key, page, toNat_add]
  omega

theorem page_add (vpn w : Word) (i : ℕ) : page (vpn + w) i = page vpn (w.toNat + i) := by
  rw [page, page, toNat_add]
  omega

theorem page_inj {i j : ℕ} (hi : i < 2 ^ 20) (hj : j < 2 ^ 20) (h : page vpn i = page vpn j) :
    i = j := by
  unfold page at h
  omega

theorem dvd_key (hs : s ≤ 12) (hdvd : 2 ^ s ∣ vpn.toNat) : 2 ^ s ∣ key vpn :=
  (dvd_mod_iff (pow_dvd_pow 2 (by omega : s ≤ 20))).mpr hdvd

/-- The first pages of an aligned range do not wrap around. -/
theorem page_eq (hs : s ≤ 12) (hdvd : 2 ^ s ∣ vpn.toNat) {e : ℕ} (he : e < 2 ^ s) :
    page vpn e = key vpn + e := by
  obtain ⟨a, ha⟩ := dvd_key hs hdvd
  have hlt : key vpn < 2 ^ 20 := Nat.mod_lt _ (Nat.two_pow_pos 20)
  have hpow : 2 ^ 20 = 2 ^ s * 2 ^ (20 - s) := by rw [← Nat.pow_add, Nat.add_sub_cancel' (by omega)]
  have hle : key vpn + 2 ^ s ≤ 2 ^ 20 := by
    rw [ha, hpow] at hlt
    rw [ha, hpow, ← mul_succ]
    exact Nat.mul_le_mul_left _ (Nat.lt_of_mul_lt_mul_left hlt)
  have hmod : key vpn = vpn.toNat % 2 ^ 20 := rfl
  rw [page]
  omega

/-- **The block of a page** that begins where a range does. -/
theorem div_eq_key_iff (hs : s ≤ 12) (hdvd : 2 ^ s ∣ vpn.toNat) (hu : u < 2 ^ 20) :
    u / 2 ^ s = key vpn / 2 ^ s ↔ ∃ e < 2 ^ s, u = page vpn e := by
  obtain ⟨a, ha⟩ := dvd_key hs hdvd
  have hpos := Nat.two_pow_pos s
  constructor
  · intro heq
    have he := Nat.mod_lt u hpos
    refine ⟨u % 2 ^ s, he, ?_⟩
    have hdiv := Nat.div_add_mod u (2 ^ s)
    rw [heq, ha, Nat.mul_div_cancel_left _ hpos, ← ha] at hdiv
    rw [page_eq hs hdvd he, hdiv]
  · rintro ⟨e, he, rfl⟩
    rw [page_eq hs hdvd he, ha, Nat.mul_add_div hpos, Nat.div_eq_of_lt he,
      Nat.mul_div_cancel_left _ hpos, Nat.add_zero]

/-- **A page finds a translation** made for it, to the page `P`. -/
def Leaf (L : Layout) (T : Tables) (u P : ℕ) : Prop :=
  ∃ l s base, L.radix.find T.mem u = some l ∧ T.mem l.1 l.2 = pagePte base s ∧ s ≤ 12 ∧
    2 ^ s ∣ base.toNat ∧ 0 < base.toNat ∧ base.toNat < 2 ^ 22 ∧ base.toNat + u % 2 ^ s = P

theorem Leaf.same (h : L.Leaf T u P) (hsame : L.radix.Same T.mem u T'.mem) : L.Leaf T' u P := by
  obtain ⟨l, s, base, hl, hentry, hrest⟩ := h
  exact ⟨l, s, base, hsame.1.trans hl, (hsame.2 l hl).trans hentry, hrest⟩

/-- **How mapping a range ends.** -/
inductive Mapped (L : Layout) (vpn ppn size : Word) (T : Tables) : Option (Status × Tables) → Prop
  | exit (hshort : T.stream.length < 6 * size.toNat) : Mapped L vpn ppn size T none
  | returns {st : Status} {T' : Tables} {home' : Word → Option Radix.Place} (hinv : L.Inv T' home')
      (hother : ∀ u < 2 ^ 20, (∀ i < size.toNat, u ≠ page vpn i) → L.radix.Same T.mem u T'.mem)
      (hstatus : st = .eok ∨ st = .emem ∧
        (size.toNat ≤ 2 ^ 20 → ∃ i < size.toNat, L.radix.find T.mem (page vpn i) ≠ none))
      (heok : st = .eok → size.toNat ≤ 2 ^ 20 → 0 < ppn.toNat → ppn.toNat + size.toNat ≤ 2 ^ 22 →
        ∀ i < size.toNat, L.Leaf T' (page vpn i) (ppn.toNat + i)) :
      Mapped L vpn ppn size T (some (st, T'))

/-- **The loop maps a range.** -/
theorem Inv.createVpnLoop (h : L.Inv T home) (hn : size.toNat < n) :
    L.Mapped vpn ppn size T (L.createVpnLoop n tmp vpn ppn size T) := by
  induction n generalizing vpn ppn size tmp T home with
  | zero => exact absurd hn (not_lt_zero _)
  | succ n ih =>
    rw [Layout.createVpnLoop]
    by_cases hzero : size = 0
    · rw [if_pos hzero]
      have hnone (i : ℕ) : ¬i < size.toNat := by
        rw [hzero]
        exact not_lt_zero i
      exact .returns h (fun u _ _ => .refl) (.inl rfl) fun _ _ _ _ i hi => absurd hi (hnone i)
    rw [if_neg hzero]
    obtain ⟨hs, hfits, hvpn, hppn⟩ := pgsize_spec vpn ppn hzero
    generalize pgsize vpn ppn size = s at hs hfits hvpn hppn
    have hpow : (1#32 <<< s).toNat = 2 ^ s := toNat_one_shiftLeft (by omega)
    have hran : L.Ran vpn (pagePte ppn s) s 6 T (L.createVaradix vpn (pagePte ppn s) s T) :=
      h.createVaradix hs (ct0_pagePte hs.1)
    simp only
    generalize L.createVaradix vpn (pagePte ppn s) s T = run at hran ⊢
    cases hran with
    | exit hshort => exact .exit (by omega)
    | @returns st T₁ home₁ hinv₁ hcreated hleft =>
      cases hcreated with
      | emem hsame hmapped =>
        refine .returns hinv₁ (fun u hu _ => hsame u hu) (.inr ⟨rfl, fun _ => ?_⟩) nofun
        exact ⟨0, by omega, hmapped⟩
      | eok l hother hfound hentry =>
        rw [Option.bind_some]
        have hsize : (size - 1#32 <<< s).toNat = size.toNat - 2 ^ s := by
          rw [BitVec.toNat_sub_of_le (BitVec.le_def.mpr (by omega)), hpow]
        have hpage (i : ℕ) : page (vpn + 1#32 <<< s) i = page vpn (2 ^ s + i) := by
          rw [page_add, hpow]
        -- what is behind the first page is not in its block
        have hout {j : ℕ} (hj : 2 ^ s ≤ j) (hlt : j < 2 ^ 20) :
            page vpn j / 2 ^ s ≠ key vpn / 2 ^ s := fun heq => by
          obtain ⟨e, he, hpe⟩ := (div_eq_key_iff hs.1 hvpn (page_lt vpn j)).mp heq
          have := page_inj hlt (by omega) hpe
          omega
        have hran : L.Mapped (vpn + 1#32 <<< s) (ppn + 1#32 <<< s) (size - 1#32 <<< s) T₁
            (L.createVpnLoop n (pagePte ppn s) (vpn + 1#32 <<< s) (ppn + 1#32 <<< s)
              (size - 1#32 <<< s) T₁) :=
          ih hinv₁ (by rw [hsize]; omega)
        generalize L.createVpnLoop n (pagePte ppn s) (vpn + 1#32 <<< s) (ppn + 1#32 <<< s)
          (size - 1#32 <<< s) T₁ = run at hran ⊢
        cases hran with
        | exit hshort => exact .exit (by omega)
        | @returns st T' home' hinv' hother' hstatus heok =>
          rw [hsize] at hother' hstatus heok
          refine .returns hinv' (fun u hu hnot => ?_) ?_ fun hst hle hppos hbound i hi => ?_
          · clear hstatus
            refine (hother u hu fun heq => ?_).trans (hother' u hu fun i hi => ?_)
            · obtain ⟨e, he, hpe⟩ := (div_eq_key_iff hs.1 hvpn hu).mp heq
              exact hnot e (by omega) hpe
            · rw [hpage]
              exact hnot _ (by omega)
          · refine hstatus.imp_right fun ⟨hst, hsome⟩ => ⟨hst, fun hle => ?_⟩
            obtain ⟨i, hi, hfind⟩ := hsome ((sub_le ..).trans hle)
            rw [hpage] at hfind
            have hlt : 2 ^ s + i < size.toNat := add_lt_of_lt_sub' hi
            have hsame := hother _ (page_lt vpn (2 ^ s + i))
              (hout (Nat.le_add_right ..) (hlt.trans_le hle))
            exact ⟨2 ^ s + i, hlt, by rwa [← hsame.1]⟩
          · clear hstatus
            rcases lt_or_ge i (2 ^ s) with hlt | hge
            · have hu := page_lt vpn i
              have hblock := (div_eq_key_iff hs.1 hvpn hu).mpr ⟨i, hlt, rfl⟩
              have hmod : page vpn i % 2 ^ s = i := by
                obtain ⟨a, ha⟩ := dvd_key hs.1 hvpn
                rw [page_eq hs.1 hvpn hlt, ha, mul_add_mod, mod_eq_of_lt hlt]
              have hleaf : L.Leaf T₁ (page vpn i) (ppn.toNat + i) :=
                ⟨l, s, ppn, hfound _ hu hblock, hentry, hs.1, hppn, hppos, by omega, by rw [hmod]⟩
              refine hleaf.same (hother' _ hu fun j hj heq => ?_)
              rw [hpage] at heq
              have := page_inj (by omega) (by omega) heq
              omega
            · have hppn' : (ppn + 1#32 <<< s).toNat = ppn.toNat + 2 ^ s := by
                rw [toNat_add, hpow]
                omega
              have hleaf := heok hst (by omega) (by omega) (by omega) (i - 2 ^ s) (by omega)
              rw [hpage, hppn', Nat.add_sub_cancel' hge] at hleaf
              rwa [Nat.add_assoc, Nat.add_sub_cancel' hge] at hleaf

/-! ## Every sequence of calls -/

/-- The calls that make and remove translations. -/
inductive MapCall where
  | createVpn (vpn ppn size cacheAttribs perm abits : Word)
  | early (inval : BitVec 64)
  | removeVpn (vpn : Word)

/-- A call.  There is no next state if it ends in a fatal error. -/
def step (L : Layout) : MapCall → Tables → Option Tables
  | .createVpn vpn ppn size cacheAttribs perm abits, T =>
    (L.createVpn vpn ppn size cacheAttribs perm abits T).map Prod.snd
  | .early inval, T => (L.earlyVaradixFromTlb inval T).map Prod.snd
  | .removeVpn vpn, T => some (L.removeVpn vpn T)

/-- The entries at the start are of pages of up to 16 MB. -/
def ValidTlb (c : MapCall) (_ : Tables) : Prop := ∀ inval, c = .early inval → ct0 (lower inval) ≤ 6

theorem Inv.earlyVaradixFromTlb {inval : BitVec 64} {st : Status} (h : L.Inv T home)
    (hvalid : ct0 (lower inval) ≤ 6) (hrun : L.earlyVaradixFromTlb inval T = some (st, T')) :
    ∃ home', L.Inv T' home' := by
  unfold Layout.earlyVaradixFromTlb at hrun
  simp only at hrun
  generalize hentry : (_ ||| (1#32 <<< (2 * ct0 (lower inval))) ||| _ ||| _ : Word) = entry at hrun
  have hct0 : ct0 entry = 2 * ct0 (lower inval) := by
    subst hentry
    refine ct0_eq_of_bits (by omega) ?_ fun i hi => ?_
    · simp [show 2 * ct0 (lower inval) < 32 by omega]
    · have h₂₄ : i < 24 := by omega
      have h₂₈ : i < 28 := by omega
      simp [BitVec.getLsbD_shiftLeft, hi, h₂₄, h₂₈, show i < 2 * ct0 (lower inval) + 1 by omega]
  have hran : L.Ran _ entry (2 * ct0 (lower inval)) 6 T (some (st, T')) :=
    hrun ▸ h.createVaradix (by omega) hct0
  cases hran with
  | returns hinv' _ _ => exact ⟨_, hinv'⟩

theorem Inv.createVpn (h : L.Inv T home) (cacheAttribs perm abits : Word) :
    L.Mapped vpn ppn size T (L.createVpn vpn ppn size cacheAttribs perm abits T) :=
  h.createVpnLoop (lt_succ_self _)

/-- **The tables are in order** after every sequence of calls. -/
theorem inv_of_leads (hT : Leads L.step ValidTlb L.init T) : ∃ home, L.Inv T home := by
  refine hT.invariant (I := fun T => ∃ home, L.Inv T home) ⟨_, inv_init⟩ ?_
  rintro c T T' ⟨home, h⟩ hvalid hstep
  cases c with
  | createVpn vpn ppn size cacheAttribs perm abits =>
    obtain ⟨⟨st, T₁⟩, hrun, rfl⟩ := Option.map_eq_some_iff.mp hstep
    have hmapped : L.Mapped vpn ppn size T (some (st, T₁)) :=
      hrun ▸ h.createVpn cacheAttribs perm abits
    cases hmapped with
    | returns hinv' _ _ _ => exact ⟨_, hinv'⟩
  | early inval =>
    obtain ⟨⟨st, T₁⟩, hrun, rfl⟩ := Option.map_eq_some_iff.mp hstep
    exact h.earlyVaradixFromTlb (hvalid inval rfl) hrun
  | removeVpn vpn =>
    cases hstep
    exact ⟨home, h.removeVpn vpn⟩

/-! ## Made and looked up -/

/-- **A mapping is as it was asked for**: every page finds a translation to its physical page that
carries the attributes, a lookup gives its physical address, and what was mapped before is as it
was. -/
structure Agrees (L : Layout) (T T' : Tables) (vpn ppn size : Word) (cache : BitVec 4)
    (perm : BitVec 3) : Prop where
  leaf : ∀ i < size.toNat, ∃ t, L.translation (vpn + ofNat 32 i) T' = some t ∧
    t.pn.toNat = ppn.toNat + i ∧ BitVec.ofBool t.weakCcc ++ t.cccc = cache ∧ t.xwru = perm ++ 0#1
  lookup : ∀ i < size.toNat, ∀ off < 4096,
    (L.lookupPhysaddr64 (ofNat 32 ((vpn.toNat + i) * 4096 + off)) T').toNat =
      (ppn.toNat + i) * 4096 + off
  kept : ∀ v t, L.translation v T = some t → L.translation v T' = some t

theorem Inv.translation_same {home' : Word → Option Radix.Place} (h : L.Inv T home)
    (h' : L.Inv T' home') {v : Word} (hsame : L.radix.Same T.mem (key v) T'.mem) :
    L.translation v T' = L.translation v T := by
  rw [translation, translation, h.findMapping_eq, h'.findMapping_eq, hsame.1]
  cases hl : L.radix.find T.mem (key v) with
  | none => rfl
  | some l => simp only [Option.map_some, hsame.2 l hl]

/-- A page that finds a translation made for it, as the walker reads it. -/
theorem Leaf.translation (hleaf : L.Leaf T u P) (h : L.Inv T home) {v : Word} (hv : v.toNat = u)
    (hu : u < 2 ^ 20) : ∃ t, L.translation v T = some t ∧ t.pn.toNat = P ∧ t.cccc = 0 ∧
      t.weakCcc = false ∧ t.xwru = 0 := by
  obtain ⟨l, s, base, hl, hentry, hs, hdvd, -, hbase, rfl⟩ := hleaf
  have hkey : key v = u := by rw [key, hv, mod_eq_of_lt hu]
  refine ⟨_, by rw [Layout.translation, h.findMapping_eq, hkey, hl, Option.map_some], ?_, ?_⟩
  · simp only [hentry]
    rw [pn_pagePte hs (hv ▸ hu) hbase hdvd, hv]
  · simp only [hentry]
    exact fields_pagePte hs

/-- **A lookup of an address in it** is wrong. -/
theorem Leaf.lookup_ne (hleaf : L.Leaf T u P) (h : L.Inv T home) (hu : u < 2 ^ 20) {off : ℕ}
    (hoff : off < 4096) :
    (L.lookupPhysaddr64 (ofNat 32 (u * 4096 + off)) T).toNat ≠ P * 4096 + off := by
  obtain ⟨l, s, base, hl, hentry, hs, hdvd, hpos, hbase, rfl⟩ := hleaf
  have hvaddr : (ofNat 32 (u * 4096 + off)).toNat = u * 4096 + off := by
    rw [BitVec.toNat_ofNat]
    omega
  have hkey : key (ofNat 32 (u * 4096 + off) >>> 12) = u := by
    rw [key, toNat_ushiftRight, shiftRight_eq_div_pow, hvaddr]
    omega
  have hfind : L.findMapping (ofNat 32 (u * 4096 + off) >>> 12) T = some l := by
    rw [h.findMapping_eq, hkey, hl]
  have hmod : (u * 4096 + off) % 2 ^ (12 + s) = off + 4096 * (u % 2 ^ s) := by
    rw [pow_add, show 2 ^ 12 = 4096 from rfl, mod_mul]
    congr 1
    · omega
    · congr 2
      omega
  have hlt := lookup_lt hfind hentry hs hbase hdvd hpos
  rw [hvaddr, hmod] at hlt
  omega

/-- **Mapping and lookup never agree**, unless nothing is mapped.  A range of pages none of which is
mapped is mapped, if there are tables enough: every page finds a translation to its physical page,
and what was mapped before is as it was; but the translations carry no attributes and no
permissions, and no lookup in the range gives the physical address. -/
theorem mapping_lookup_agree_iff (hT : Leads L.step ValidTlb L.init T) (abits : Word)
    (cache : BitVec 4) (perm : BitVec 3) (hppn : ppn ≠ 0)
    (hvirt : vpn.toNat + size.toNat ≤ 2 ^ 20) (hphys : ppn.toNat + size.toNat ≤ 2 ^ 22)
    (hfree : ∀ i < size.toNat, L.findMapping (vpn + ofNat 32 i) T = none) :
    let run := L.createVpn vpn ppn size (cache.setWidth 32) (perm.setWidth 32) abits T
    (6 * size.toNat ≤ T.stream.length → ∃ T', run = some (.eok, T')) ∧
      ∀ st T', run = some (st, T') → st = .eok ∧
        (∀ i < size.toNat, ∃ t, L.translation (vpn + ofNat 32 i) T' = some t ∧
          t.pn.toNat = ppn.toNat + i ∧ t.cccc = 0 ∧ t.weakCcc = false ∧ t.xwru = 0) ∧
        (∀ i < size.toNat, ∀ off < 4096,
          (L.lookupPhysaddr64 (ofNat 32 ((vpn.toNat + i) * 4096 + off)) T').toNat ≠
            (ppn.toNat + i) * 4096 + off) ∧
        (∀ v t, L.translation v T = some t → L.translation v T' = some t) ∧
        (L.Agrees T T' vpn ppn size cache perm ↔ size = 0) := by
  intro run
  obtain ⟨home, h⟩ := inv_of_leads hT
  have hmapped : L.Mapped vpn ppn size T run :=
    h.createVpn (cache.setWidth 32) (perm.setWidth 32) abits
  have hpos : 0 < ppn.toNat := pos_of_ne_zero fun hzero => hppn (eq_of_toNat_eq hzero)
  have hi32 {i : ℕ} (hi : i < size.toNat) : (ofNat 32 i).toNat = i := by
    exact mod_eq_of_lt (hi.trans size.isLt)
  have hpage {i : ℕ} (hi : i < size.toNat) : page vpn i = vpn.toNat + i :=
    mod_eq_of_lt (by omega)
  have hnone {i : ℕ} (hi : i < size.toNat) : L.radix.find T.mem (page vpn i) = none := by
    rw [← hfree i hi, h.findMapping_eq, key_add, hi32 hi]
  generalize run = r at hmapped
  cases hmapped with
  | exit hshort => exact ⟨fun henough => absurd hshort (not_lt.mpr henough), nofun⟩
  | @returns st T' home' h' hother hstatus heok =>
    have hst : st = .eok := by
      refine hstatus.resolve_right fun hemem => ?_
      obtain ⟨i, hi, hsome⟩ := hemem.2 (by omega)
      exact hsome (hnone hi)
    refine ⟨fun _ => ⟨T', by rw [hst]⟩, fun st₁ T₁ heq => ?_⟩
    obtain ⟨rfl, rfl⟩ := Prod.mk.inj (Option.some.inj heq)
    have hleaf {i : ℕ} (hi : i < size.toNat) : L.Leaf T' (vpn.toNat + i) (ppn.toNat + i) :=
      hpage hi ▸ heok hst (by omega) hpos hphys i hi
    have hlookup (i : ℕ) (hi : i < size.toNat) (off : ℕ) (hoff : off < 4096) :
        (L.lookupPhysaddr64 (ofNat 32 ((vpn.toNat + i) * 4096 + off)) T').toNat ≠
          (ppn.toNat + i) * 4096 + off := (hleaf hi).lookup_ne h' (by omega) hoff
    have hkept (v : Word) (t : Translation) (ht : L.translation v T = some t) :
        L.translation v T' = some t := by
      rw [h.translation_same h' (hother _ (key_lt (L := L) v) fun i hi heq => ?_), ht]
      rw [translation, h.findMapping_eq, heq, hnone hi] at ht
      cases ht
    refine ⟨hst, fun i hi => ?_, hlookup, hkept, fun hagrees => ?_, fun hzero => ?_⟩
    · refine (hleaf hi).translation h' ?_ (by omega)
      rw [toNat_add, hi32 hi]
      omega
    · by_contra hne
      have hsize : 0 < size.toNat :=
        pos_of_ne_zero fun hzero => hne (eq_of_toNat_eq hzero)
      exact hlookup 0 hsize 0 (by decide) (hagrees.lookup 0 hsize 0 (by decide))
    · have hnot (i : ℕ) : ¬i < size.toNat := by
        rw [hzero]
        exact not_lt_zero i
      exact ⟨fun i hi => absurd hi (hnot i), fun i hi => absurd hi (hnot i), hkept⟩

/-- Six tables, at their physical addresses. -/
def sixTables : Layout where
  offset := 0
  root := 0x1000
  storage := [0x2000, 0x2010, 0x2020, 0x2030, 0x2040, 0x2050]
  nodup := by decide
  root_notMem := by decide
  aligned := by simp

/-- A page of 16 KB and one of 4 KB. -/
theorem mapping_lookup_agree_iff_fivePages : ∃ T',
    sixTables.createVpn 0x40004 0x80008 5 7 7 0 sixTables.init = some (.eok, T') ∧
      ¬sixTables.Agrees sixTables.init T' 0x40004 0x80008 5 7 7 := by
  have hrun : ∃ r ∈ sixTables.createVpn 0x40004 0x80008 5 7 7 0 sixTables.init, r.1 = .eok := by
    decide +kernel
  obtain ⟨⟨st, T'⟩, hrun, rfl⟩ := hrun
  have hfree : ∀ i < (5 : Word).toNat,
      sixTables.findMapping (0x40004 + ofNat 32 i) sixTables.init = none := by
    decide +kernel
  have hagree : sixTables.Agrees sixTables.init T' 0x40004 0x80008 5 7 7 ↔ (5 : Word) = 0 :=
    ((mapping_lookup_agree_iff .init 0 7 7 (by decide) (by decide) (by decide) hfree).2 _ _
      hrun).2.2.2.2
  exact ⟨T', hrun, fun h => absurd (hagree.mp h) (by decide)⟩

/-- One page with full permissions: the entry has none, and an address in the page is looked up. -/
theorem onePage_not_agrees : ∃ T', sixTables.createVpn 0x40000 0x80001 1 7 7 0 sixTables.init =
      some (.eok, T') ∧
    (sixTables.translation 0x40000 T').map (fun t => (t.pn, t.xwru)) = some (0x80001, 0) ∧
    sixTables.lookupPhysaddr64 0x40000123 T' = 0x80123 ∧
    ¬sixTables.Agrees sixTables.init T' 0x40000 0x80001 1 7 7 := by
  have hrun : ∃ r ∈ sixTables.createVpn 0x40000 0x80001 1 7 7 0 sixTables.init, r.1 = .eok ∧
      (sixTables.translation 0x40000 r.2).map (fun t => (t.pn, t.xwru)) = some (0x80001, 0) ∧
      sixTables.lookupPhysaddr64 0x40000123 r.2 = 0x80123 := by decide +kernel
  obtain ⟨⟨_, T'⟩, hrun, rfl, htrans, hlookup⟩ := hrun
  refine ⟨T', hrun, htrans, hlookup, fun h => ?_⟩
  have := h.lookup 0 (by decide) 0x123 (by decide)
  have hvaddr : ofNat 32 ((BitVec.toNat (0x40000 : Word) + 0) * 4096 + 0x123) = 0x40000123 := rfl
  rw [hvaddr, hlookup] at this
  exact absurd this (by decide)

end Layout

end H2.Qurt
