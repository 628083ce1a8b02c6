import H2.Hexagon.Marker
import H2.Hexagon.Packet
import H2.Machinery.Radix

/-!
# Qurt/Tables — the translation tables

The root table takes the upper 8 of the 20 bits of a virtual page number, each table below it two.
The lowest set bit of an entry says what it is: as many zeros below it as there are bits left make
it a translation, fewer a pointer to a table, more nothing.

The tables are a radix tree (`Layout.radix`), which `find_mapping` walks (`findMapping_eq`).
Creating a translation hangs new tables under empty entries, down to where as many bits are left as
the page has, and puts it there; so it is found for the pages of its block, and all others find what
they found (`Inv.createVaradix`).
-/

namespace H2.Qurt

open Radix Function Nat

open Hexagon (Word)

/-- What the functions return. -/
inductive Status where
  | eok
  | emem
  | eval
  deriving DecidableEq

/-- **Where the tables are**: the offset of their physical addresses, `table_root`, and the tables
in `table_storage` in the order in which the stream gives them. -/
structure Layout where
  offset : Word
  root : Word
  storage : List Word
  nodup : storage.Nodup
  root_notMem : root ∉ storage
  aligned : ∀ table ∈ storage, (table + offset).toNat % 16 = 0

/-- The tables, each by its address, and the stream of free ones. -/
structure Tables where
  mem : Word → ℕ → Word
  stream : List Word

/-- `table_size`. -/
def tableSize (entry : Word) : ℕ := ct0 entry + 1

/-- `is_terminal`. -/
def isTerminal (entry : Word) (startbit : ℕ) : Bool := ct0 entry = startbit

/-- `is_invalid`. -/
def isInvalid (entry : Word) (startbit : ℕ) : Bool := startbit < ct0 entry

/-- `policy_tablebits`. -/
def policyTablebits (_startbit : ℕ) : ℕ := 2

/-- `this_idx`. -/
def thisIdx (vpn : Word) (startbit tablebits : ℕ) : ℕ :=
  ((vpn >>> startbit) &&& (1#32 <<< tablebits - 1)).toNat

/-- `tablebase[this_idx] = entry`. -/
def Tables.store (tablebase : Word) (idx : ℕ) (entry : Word) (T : Tables) : Tables :=
  { T with mem := put T.mem tablebase idx entry }

namespace Layout

variable (L : Layout)

/-- `tcm_p2v`. -/
def tcmP2v (pa : Word) : Word := pa - L.offset

/-- `tcm_v2p`. -/
def tcmV2p (addr : Word) : Word := addr + L.offset

/-- `table_addr`. -/
def tableAddr (entry : Word) : Word := L.tcmP2v ((entry &&& (entry - 1)) <<< 2)

/-- After `qurt_memory_init_early_setup_s5mem`. -/
def init : Tables where
  mem _ _ := 0
  stream := L.storage

/-- `alloc_table`; without a table left there is no next state, for `more_mem_fatal` exits. -/
def allocTable (tablebits : ℕ) (T : Tables) : Option (Word × Tables) :=
  match T.stream with
  | [] => none
  | table :: rest =>
    some ((L.tcmV2p table >>> 2) ||| (1#32 <<< (tablebits - 1)),
      { mem := update T.mem table fun _ => 0, stream := rest })

/-- `qurt_mapping_create_varadix_walk`, to a depth. -/
def createVaradixWalk (vpn pte : Word) (size : ℕ) :
    ℕ → ℕ → Word → ℕ → Tables → Option (Status × Tables)
  | 0, _, _, _, _ => none
  | depth + 1, bitsleft, tablebase, tablebits, T =>
    let startbit := bitsleft - tablebits
    let idx := thisIdx vpn startbit tablebits
    let entry := T.mem tablebase idx
    if isTerminal entry startbit then some (.emem, T)
    else if startbit = size then some (.eok, T.store tablebase idx pte)
    else if isInvalid entry startbit then
      (L.allocTable (policyTablebits startbit) T).bind fun (entry, T) =>
        createVaradixWalk vpn pte size depth startbit (L.tableAddr entry) (tableSize entry)
          (T.store tablebase idx entry)
    else createVaradixWalk vpn pte size depth startbit (L.tableAddr entry) (tableSize entry) T

/-- `qurt_mapping_create_varadix`; `size` is even, and at most 12. -/
def createVaradix (vpn pte : Word) (size : ℕ) (T : Tables) : Option (Status × Tables) :=
  L.createVaradixWalk vpn pte size 21 20 L.root 8 T

/-- `find_mapping_walk`, to a depth. -/
def findMappingWalk (vpn : Word) (T : Tables) : ℕ → ℕ → Word → ℕ → Option (Word × ℕ)
  | 0, _, _, _ => none
  | depth + 1, bitsleft, tablebase, tablebits =>
    let startbit := bitsleft - tablebits
    let idx := thisIdx vpn startbit tablebits
    let entry := T.mem tablebase idx
    if isTerminal entry startbit then some (tablebase, idx)
    else if isInvalid entry startbit then none
    else findMappingWalk vpn T depth startbit (L.tableAddr entry) (tableSize entry)

/-- `find_mapping`: the entry, by its table and its index there. -/
def findMapping (vpn : Word) (T : Tables) : Option (Word × ℕ) :=
  L.findMappingWalk vpn T 21 20 L.root 8

/-- `qurt_mapping_remove_vpn`. -/
def removeVpn (vpn : Word) (T : Tables) : Tables :=
  match L.findMapping vpn T with
  | none => T
  | some (tablebase, idx) => T.store tablebase idx 0

end Layout

/-! ## A radix tree -/

namespace Layout

variable (L : Layout)

/-- **The tables as a radix tree.** -/
def radix : Radix Word Word where
  slot startbit entry :=
    if ct0 entry = startbit then .leaf
    else if startbit < ct0 entry then .empty
    else .down (L.tableAddr entry) (tableSize entry)
  root := L.root
  left := 20
  bits := 8

/-- The page a virtual page number is taken for. -/
def key (vpn : Word) : ℕ := vpn.toNat % 2 ^ 20

/-- **What holds between calls**: a tree in which every table but the root takes two bits, and free
tables that are in none. -/
structure Inv (T : Tables) (home : Word → Option Radix.Place) : Prop where
  tree : L.radix.Tree T.mem home
  shape : ∀ {p b k x}, home p = some ⟨b, k, x⟩ → b = 20 ∧ k = 8 ∨ b ≤ 12 ∧ b % 2 = 0 ∧ k = 2
  nodup : T.stream.Nodup
  free : ∀ table ∈ T.stream, home table = none ∧ (table + L.offset).toNat % 16 = 0

variable {L} {T T' : Tables} {home : Word → Option Radix.Place} {vpn pte p : Word}
  {b k n size : ℕ}

theorem key_lt (vpn : Word) : key vpn < 2 ^ L.radix.left := Nat.mod_lt _ (Nat.two_pow_pos 20)

section Slots

variable {startbit : ℕ} {entry : Word}

/-- An entry is a translation, … -/
theorem slot_eq_leaf_iff : L.radix.slot startbit entry = .leaf ↔ ct0 entry = startbit := by
  unfold radix
  dsimp only
  split
  · simp [*]
  · split <;> simp [*]

/-- … or nothing, … -/
theorem slot_of_lt (h : startbit < ct0 entry) : L.radix.slot startbit entry = .empty :=
  (if_neg h.ne').trans (if_pos h)

/-- … or a pointer. -/
theorem slot_of_gt (h : ct0 entry < startbit) :
    L.radix.slot startbit entry = .down (L.tableAddr entry) (tableSize entry) :=
  (if_neg h.ne).trans (if_neg (Nat.not_lt.mpr h.le))

theorem slot_zero (h : startbit < 32) : L.radix.slot startbit 0 = .empty := slot_of_lt h

end Slots

theorem inv_init : L.Inv L.init fun p => if p = L.root then some ⟨20, 8, 0⟩ else none := by
  have hroot {p : Word} {x : Radix.Place}
      (h : (if p = L.root then some ⟨20, 8, 0⟩ else none) = some x) : x = ⟨20, 8, 0⟩ := by
    split at h
    · exact (Option.some.inj h).symm
    · cases h
  refine ⟨⟨if_pos rfl, fun h => ?_, fun h _ hdown => ?_⟩, fun h => ?_, L.nodup,
    fun t ht => ⟨?_, ?_⟩⟩
  · cases hroot h
    decide
  · cases hroot h
    exact nomatch (slot_zero (by decide)).symm.trans hdown
  · cases hroot h
    exact .inl ⟨rfl, rfl⟩
  · exact if_neg fun heq : t = L.root => L.root_notMem (heq ▸ ht)
  · exact L.aligned t ht

theorem thisIdx_eq (hk : k < 32) (hkb : k ≤ b) (hb : b ≤ 20) :
    thisIdx vpn (b - k) k = index (key vpn) b k := by
  have hmod : vpn.toNat % 2 ^ 20 / 2 ^ (b - k) % 2 ^ k = vpn.toNat / 2 ^ (b - k) % 2 ^ k := by
    have hpow : 2 ^ 20 = 2 ^ (b - k) * 2 ^ (20 - (b - k)) := by
      rw [← Nat.pow_add, Nat.add_sub_cancel' (by omega)]
    rw [hpow, mod_mul_right_div_self,
      mod_mod_of_dvd _ (pow_dvd_pow 2 (by omega : k ≤ 20 - (b - k)))]
  rw [thisIdx, BitVec.toNat_and, toNat_mask hk, and_two_pow_sub_one_eq_mod,
    BitVec.toNat_ushiftRight, shiftRight_eq_div_pow, index, key, hmod]

theorem Inv.bounds (h : L.Inv T home) {x : ℕ} (hp : home p = some ⟨b, k, x⟩) :
    k < 32 ∧ k ≤ b ∧ b ≤ 20 := by
  have := h.tree.fits hp
  rcases h.shape hp with ⟨rfl, rfl⟩ | ⟨hb, -, rfl⟩ <;> omega

theorem Inv.thisIdx_eq (h : L.Inv T home) (hp : home p = some (place (key vpn) b k)) :
    thisIdx vpn (b - k) k = index (key vpn) b k := by
  obtain ⟨hk, hkb, hb⟩ := h.bounds hp
  exact Layout.thisIdx_eq hk hkb hb

theorem Inv.findMappingWalk_eq (h : L.Inv T home) (hp : home p = some (place (key vpn) b k)) :
    L.findMappingWalk vpn T n b p k = L.radix.walk T.mem (key vpn) n b p k := by
  induction n generalizing b p k with
  | zero => rfl
  | succ n ih =>
    rw [findMappingWalk, walk, h.thisIdx_eq hp]
    simp only [isTerminal, isInvalid, decide_eq_true_eq]
    rcases lt_trichotomy (ct0 (T.mem p (index (key vpn) b k))) (b - k) with hlt | heq | hgt
    · have hslot := slot_of_gt (L := L) hlt
      rw [if_neg hlt.ne, if_neg hlt.not_gt, hslot]
      exact ih (h.tree.next hp hslot)
    · rw [if_pos heq, slot_eq_leaf_iff.mpr heq]
    · rw [if_neg hgt.ne', if_pos hgt, slot_of_lt hgt]

/-- **`find_mapping` walks the tree.** -/
theorem Inv.findMapping_eq (h : L.Inv T home) (vpn : Word) :
    L.findMapping vpn T = L.radix.find T.mem (key vpn) :=
  h.findMappingWalk_eq (h.tree.home_root (key_lt vpn))

/-! ## New tables -/

/-- **The pointer to a new table**: its lowest set bit says two bits, … -/
theorem ct0_pointer {table : Word} (ht : (table + L.offset).toNat % 16 = 0) :
    ct0 ((L.tcmV2p table >>> 2) ||| (1#32 <<< 1)) = 1 ∧
      L.tableAddr ((L.tcmV2p table >>> 2) ||| (1#32 <<< 1)) = table := by
  obtain ⟨a, ha⟩ : ∃ a, (table + L.offset).toNat = 16 * a := ⟨_, (div_add_mod' ..).symm.trans
    (by rw [ht, add_zero, mul_comm])⟩
  have hentry : ((L.tcmV2p table >>> 2) ||| (1#32 <<< 1)).toNat = 2 ^ (1 + 1) * a + 2 ^ 1 := by
    rw [two_pow_add_eq_or_of_lt (by decide : 2 ^ 1 < 2 ^ (1 + 1)), BitVec.toNat_or, tcmV2p,
      BitVec.toNat_ushiftRight, ha]
    congr 1
    omega
  refine ⟨(ct0_eq_iff (by decide)).mpr ⟨a, hentry⟩, ?_⟩
  have haddr : (((L.tcmV2p table >>> 2) ||| (1#32 <<< 1)) &&&
      (((L.tcmV2p table >>> 2) ||| (1#32 <<< 1)) - 1)) <<< 2 = table + L.offset := by
    refine BitVec.eq_of_toNat_eq ?_
    rw [BitVec.toNat_shiftLeft, toNat_and_pred hentry]
    omega
  rw [tableAddr, haddr, tcmP2v, BitVec.add_sub_cancel]

/-- What becomes of the pages. -/
inductive Created (L : Layout) (vpn pte : Word) (size : ℕ) (T T' : Tables) : Status → Prop
  /-- The page is mapped, and nothing changes, … -/
  | emem (hsame : ∀ u < 2 ^ 20, L.radix.Same T.mem u T'.mem)
      (hmapped : L.radix.find T.mem (key vpn) ≠ none) : Created L vpn pte size T T' .emem
  /-- … or the pages of its block find the translation, and all others what they found. -/
  | eok (l : Word × ℕ)
      (hother : ∀ u < 2 ^ 20, u / 2 ^ size ≠ key vpn / 2 ^ size → L.radix.Same T.mem u T'.mem)
      (hfound : ∀ u < 2 ^ 20, u / 2 ^ size = key vpn / 2 ^ size → L.radix.find T'.mem u = some l)
      (hentry : T'.mem l.1 l.2 = pte) : Created L vpn pte size T T' .eok

theorem Created.of_same {T₁ : Tables} {st : Status} (h : L.Created vpn pte size T₁ T' st)
    (hsame : ∀ u < 2 ^ 20, L.radix.Same T.mem u T₁.mem) : L.Created vpn pte size T T' st := by
  cases h with
  | emem hsame' hmapped =>
    refine .emem (fun u hu => (hsame u hu).trans (hsame' u hu)) ?_
    rwa [← (hsame _ (key_lt (L := L) vpn)).1]
  | eok l hother hfound hentry =>
    exact .eok l (fun u hu hne => (hsame u hu).trans (hother u hu hne)) hfound hentry

/-- A free table is hung under an empty entry. -/
theorem Inv.hang {table : Word} {rest : List Word} (h : L.Inv T home)
    (harr : L.radix.Arrives T.mem (key vpn) p b k)
    (hempty : L.radix.slot (b - k) (T.mem p (index (key vpn) b k)) = .empty)
    (hb : 2 ≤ b - k ∧ b - k ≤ 12 ∧ (b - k) % 2 = 0) (hstream : T.stream = table :: rest) :
    let pointer := (L.tcmV2p table >>> 2) ||| (1#32 <<< 1)
    let T₁ := Tables.store p (index (key vpn) b k) pointer
      { mem := update T.mem table fun _ => 0, stream := rest }
    (∃ home', L.Inv T₁ home') ∧ (∀ u < 2 ^ 20, L.radix.Same T.mem u T₁.mem) ∧
      L.radix.Arrives T₁.mem (key vpn) table (b - k) 2 := by
  intro pointer T₁
  obtain ⟨hfree, haligned⟩ := h.free table (by rw [hstream]; exact List.mem_cons_self ..)
  obtain ⟨hct0, haddr⟩ : ct0 pointer = 1 ∧ L.tableAddr pointer = table := ct0_pointer haligned
  have hdown : L.radix.slot (b - k) pointer = .down table 2 := by
    rw [slot_of_gt (by omega), haddr, tableSize, hct0]
  have hz : L.radix.slot (b - k - 2) 0 = .empty := slot_zero (by omega)
  have hj : 0 < 2 ∧ 2 ≤ b - k := ⟨two_pos, hb.1⟩
  have hnodup := h.nodup
  rw [hstream] at hnodup
  obtain ⟨hnot, hrest⟩ := List.nodup_cons.mp hnodup
  refine ⟨⟨_, h.tree.hang harr (key_lt vpn) hfree hz hdown hj, fun hp => ?_, hrest, fun t ht => ?_⟩,
    fun u hu => h.tree.same_hang harr (key_lt vpn) hempty hfree hz hdown hj hu,
    harr.hang h.tree (key_lt vpn) hfree hdown⟩
  · rename_i p' b' k' x
    by_cases hpt : p' = table
    · rw [hpt, update_self] at hp
      obtain ⟨rfl, rfl, -⟩ := hp
      exact .inr ⟨hb.2.1, hb.2.2, rfl⟩
    · rw [update_of_ne hpt] at hp
      exact h.shape hp
  · obtain ⟨hhome, halign⟩ := h.free t (by rw [hstream]; exact List.mem_cons_of_mem _ ht)
    have hne : t ≠ table := fun heq => hnot (heq ▸ ht)
    exact ⟨(update_of_ne hne ..).trans hhome, halign⟩

/-- **How creating a translation ends**, if it takes no more than `m` tables. -/
inductive Ran (L : Layout) (vpn pte : Word) (size m : ℕ) (T : Tables) :
    Option (Status × Tables) → Prop
  | exit (hshort : T.stream.length < m) : Ran L vpn pte size m T none
  | returns {st : Status} {T' : Tables} {home' : Word → Option Radix.Place} (hinv : L.Inv T' home')
      (hcreated : L.Created vpn pte size T T' st)
      (hleft : T.stream.length ≤ T'.stream.length + m) : Ran L vpn pte size m T (some (st, T'))

/-- **The walk that creates a translation.** -/
theorem Inv.createVaradixWalk (h : L.Inv T home)
    (harr : L.radix.Arrives T.mem (key vpn) p b k) (hsize : size ≤ b - k ∧ size % 2 = 0)
    (hpte : ct0 pte = size) (hn : b < n) :
    L.Ran vpn pte size ((b - k - size) / 2) T (L.createVaradixWalk vpn pte size n b p k T) := by
  induction n generalizing b p k T home with
  | zero => exact absurd hn (not_lt_zero b)
  | succ n ih =>
    have hhome := harr.placed h.tree (key_lt vpn)
    have hfits := h.tree.fits hhome
    rw [Layout.createVaradixWalk]
    simp only [h.thisIdx_eq hhome]
    split
    · next hterm =>
      refine .returns h (.emem (fun u _ => .refl) ?_) (Nat.le_add_right ..)
      rw [harr.find h.tree (key_lt vpn), walk, slot_eq_leaf_iff.mpr (of_decide_eq_true hterm)]
      simp
    · next hterm =>
      have hne : ct0 (T.mem p (index (key vpn) b k)) ≠ b - k := fun heq =>
        hterm (decide_eq_true heq)
      split
      · next hat =>
        have hleaf : L.radix.slot (b - k) pte = .leaf := slot_eq_leaf_iff.mpr (hpte.trans hat.symm)
        have hnot (q : Word) (j : ℕ) : L.radix.slot (b - k) pte ≠ .down q j := by
          rw [hleaf]
          simp
        have hinv' : L.Inv (T.store p (index (key vpn) b k) pte) home :=
          ⟨h.tree.put harr (key_lt vpn) hnot, h.shape, h.nodup, h.free⟩
        refine .returns hinv' (.eok (p, index (key vpn) b k) (fun u hu hne => ?_)
          (fun u hu heq => ?_) (put_self ..)) (Nat.le_add_right ..)
        · rw [← hat] at hne
          exact h.tree.same_put harr (key_lt vpn) hu hne
        · rw [← hat] at heq
          have hfind := h.tree.find_put harr (key_lt vpn) hu heq hnot
          rwa [hleaf] at hfind
      · next hat =>
        have hnext : 2 ≤ b - k ∧ b - k ≤ 12 ∧ (b - k) % 2 = 0 := by
          rcases h.shape hhome with ⟨rfl, rfl⟩ | ⟨hb, heven, rfl⟩ <;> omega
        split
        · next hinv =>
          have hempty := slot_of_lt (L := L) (of_decide_eq_true hinv)
          cases hs : T.stream with
          | nil =>
            rw [allocTable, hs]
            refine .exit ?_
            rw [hs, List.length_nil]
            omega
          | cons table rest =>
            obtain ⟨⟨home₁, h₁⟩, hsame, harr₁⟩ := h.hang harr hempty hnext hs
            obtain ⟨-, haligned⟩ := h.free table (by rw [hs]; exact List.mem_cons_self ..)
            obtain ⟨hct0, haddr⟩ := ct0_pointer haligned
            have hlength : T.stream.length = rest.length + 1 := by rw [hs, List.length_cons]
            rw [allocTable, hs]
            simp only [policyTablebits, Option.bind_some, haddr, tableSize, hct0]
            have hran := ih h₁ harr₁ ⟨by omega, hsize.2⟩ (by omega)
            generalize L.createVaradixWalk vpn pte size n (b - k) table 2 _ = run at hran ⊢
            cases hran with
            | exit hshort =>
              have hshort' : rest.length < (b - k - 2 - size) / 2 := hshort
              exact .exit (by omega)
            | @returns st T' home' hinv' hcreated hleft =>
              have hleft' : rest.length ≤ T'.stream.length + (b - k - 2 - size) / 2 := hleft
              exact .returns hinv' (hcreated.of_same hsame) (by omega)
        · next hinv =>
          have hnlt : ¬b - k < ct0 (T.mem p (index (key vpn) b k)) := fun hlt =>
            hinv (decide_eq_true hlt)
          have hdown := slot_of_gt (L := L) (lt_of_le_of_ne (not_lt.mp hnlt) hne)
          have hj : tableSize (T.mem p (index (key vpn) b k)) = 2 := by
            rcases h.shape (h.tree.next hhome hdown) with ⟨hb, -⟩ | ⟨-, -, hj⟩ <;> omega
          have harr' := harr.down hdown
          rw [hj] at harr' ⊢
          have hran := ih h harr' ⟨by omega, hsize.2⟩ (by omega)
          generalize L.createVaradixWalk vpn pte size n (b - k) _ 2 T = run at hran ⊢
          cases hran with
          | exit hshort => exact .exit (by omega)
          | returns hinv' hcreated hleft => exact .returns hinv' hcreated (by omega)

/-- **Creating a translation**: it is there for the pages of its block, unless the page is mapped;
and it returns, unless there are too few tables. -/
theorem Inv.createVaradix (h : L.Inv T home) (hsize : size ≤ 12 ∧ size % 2 = 0)
    (hpte : ct0 pte = size) : L.Ran vpn pte size 6 T (L.createVaradix vpn pte size T) := by
  have hran : L.Ran vpn pte size ((20 - 8 - size) / 2) T (L.createVaradix vpn pte size T) :=
    h.createVaradixWalk .root hsize hpte (lt_succ_self 20)
  generalize L.createVaradix vpn pte size T = run at hran ⊢
  cases hran with
  | exit hshort => exact .exit (by omega)
  | returns hinv' hcreated hleft => exact .returns hinv' hcreated (by omega)

/-- **Removing a translation**: its block finds nothing, and all others what they found. -/
theorem Inv.store_zero {l : Word × ℕ} (h : L.Inv T home)
    (hl : L.radix.find T.mem (key vpn) = some l) : let size := ct0 (T.mem l.1 l.2)
    size ≤ 12 ∧ L.Inv (T.store l.1 l.2 0) home ∧
      ∀ u < 2 ^ 20,
        (u / 2 ^ size = key vpn / 2 ^ size →
          L.radix.find T.mem u = some l ∧ L.radix.find (T.store l.1 l.2 0).mem u = none) ∧
        (u / 2 ^ size ≠ key vpn / 2 ^ size → L.radix.Same T.mem u (T.store l.1 l.2 0).mem) := by
  intro size
  obtain ⟨b, k, harr, hidx, hslot⟩ := exists_arrives hl
  have hhome := harr.placed h.tree (key_lt vpn)
  have hsize : b - k = size := (slot_eq_leaf_iff.mp hslot).symm
  have hle : b - k ≤ 12 := by
    rcases h.shape hhome with ⟨rfl, rfl⟩ | ⟨hb, -, rfl⟩ <;> omega
  have hzero : L.radix.slot (b - k) 0 = .empty := slot_zero (by omega)
  have hnot (q : Word) (j : ℕ) : L.radix.slot (b - k) 0 ≠ .down q j := by
    rw [hzero]
    nofun
  rw [← hsize, hidx]
  rw [hidx] at hslot
  refine ⟨hle, ⟨h.tree.put harr (key_lt vpn) hnot, h.shape, h.nodup, h.free⟩,
    fun u hu => ⟨fun heq => ?_, fun hne => h.tree.same_put harr (key_lt vpn) hu hne⟩⟩
  have hfind := h.tree.find_put harr (key_lt vpn) hu heq hnot
  rw [hzero] at hfind
  refine ⟨?_, hfind⟩
  have harr' := harr.congr (div_congr (sub_le b k) heq)
  rw [harr'.find h.tree hu, walk, index_congr heq, hslot, ← hidx]

theorem Inv.removeVpn (h : L.Inv T home) (vpn : Word) : L.Inv (L.removeVpn vpn T) home := by
  rw [Layout.removeVpn, h.findMapping_eq]
  cases hl : L.radix.find T.mem (key vpn) with
  | none => exact h
  | some l => exact (h.store_zero hl).2.1

end Layout

end H2.Qurt
