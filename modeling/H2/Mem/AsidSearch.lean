import H2.Machinery.Leads
import H2.Machinery.Probe
import H2.Mem.Asid
import H2.Mem.Tlb

/-!
# Mem/AsidSearch — every address space is found again

The table of address spaces never moves an entry, since the place of an entry is its address space.
The entry at the hash of a page table base says how far its chain has been used; that number only
grows, and whoever takes over a place leaves it.  So an entry is found as long as its place has not
been given away (`AsidTable.Searchable`), and a second place is never given to the same address
space.

A place that is given away may have translations in the TLBs, and those go before it is used.
-/

namespace H2

open Function

/-- What an address space is known by. -/
structure AsidKey where
  ptb : BitVec 32
  vmidx : ℕ
  type : ℕ
  deriving DecidableEq

/-- What the address space of an entry is known by. -/
def AsidEntry.key (e : AsidEntry) : AsidKey := ⟨e.ptb, e.vmid.toNat, e.type.toNat⟩

namespace AsidTable

theorem isMatch_iff {e : AsidEntry} {ptb : BitVec 32} {vmidx type : ℕ} :
    isMatch e ptb vmidx type = true ↔ e.key = ⟨ptb, vmidx, type⟩ := by
  simp [isMatch, AsidEntry.key, and_assoc]

/-! ## The two loops -/

section Loops

variable {table : AsidTable} {chain idx : BitVec 7}

theorem searchFrom_some {p : AsidEntry → Bool} {j : BitVec 7} : ∀ {hops : ℕ} {idx : BitVec 7},
    searchFrom p chain table hops idx = some j → p (table j) = true
  | 0, idx, h => by
      rw [searchFrom] at h
      split at h
      · next hp => exact Option.some.inj h ▸ hp
      · simp at h
  | hops + 1, idx, h => by
      rw [searchFrom] at h
      split at h
      · next hp => exact Option.some.inj h ▸ hp
      · exact searchFrom_some h

/-- A search that fails has looked everywhere along the chain. -/
theorem searchFrom_none {p : AsidEntry → Bool} : ∀ {hops : ℕ} {idx : BitVec 7},
    searchFrom p chain table hops idx = none → ∀ i ≤ hops, p (table (probe idx chain i)) = false
  | 0, idx, h, i, hi => by
      rw [searchFrom] at h
      split at h
      · simp at h
      · next hp => simpa [Nat.le_zero.mp hi] using hp
  | hops + 1, idx, h, i, hi => by
      rw [searchFrom] at h
      split at h
      · simp at h
      next hp =>
      cases i with
      | zero => simpa using hp
      | succ i =>
        rw [← probe_add_stride]
        exact searchFrom_none h i (Nat.le_of_succ_le_succ hi)

theorem evictFrom_some {i : ℕ} {j : BitVec 7} : ∀ {left : ℕ} {idx : BitVec 7}, left ≤ maxAsids →
    evictFrom chain table left idx = some (i, j) →
    maxAsids - left ≤ i ∧ i < maxAsids ∧ j = probe idx chain (i - (maxAsids - left)) ∧
      (table j).count = 0
  | 0, idx, _, h => by simp [evictFrom] at h
  | left + 1, idx, hle, h => by
      rw [evictFrom] at h
      split at h
      · next hcount =>
        simp only [Option.some.injEq, Prod.mk.injEq] at h
        obtain ⟨rfl, rfl⟩ := h
        refine ⟨le_rfl, ?_, by simp, hcount⟩
        omega
      · obtain ⟨hi, hlt, rfl, hcount⟩ := evictFrom_some (by omega) h
        refine ⟨by omega, hlt, ?_, hcount⟩
        rw [probe_add_stride]
        congr 1
        omega

theorem evictFrom_none : ∀ {left : ℕ} {idx : BitVec 7}, evictFrom chain table left idx = none →
    ∀ i < left, (table (probe idx chain i)).count ≠ 0
  | 0, _, _, i, hi => absurd hi (Nat.not_lt_zero i)
  | left + 1, idx, h, i, hi => by
      rw [evictFrom] at h
      split at h
      · simp at h
      next hcount =>
      cases i with
      | zero => simpa using hcount
      | succ i =>
        rw [← probe_add_stride]
        exact evictFrom_none h i (Nat.lt_of_succ_lt_succ hi)

end Loops

theorem odd_chain (idx : BitVec 7) : (idx ||| 1#7).toNat % 2 = 1 := by
  rw [BitVec.toNat_or, Nat.or_mod_two_eq_one]
  exact .inr rfl

/-- The place `i` hops along the chain of a page table base. -/
def along (ptb : BitVec 32) (i : ℕ) : BitVec 7 :=
  probe (asidHashval ptb) (asidHashval ptb ||| 1#7) i

theorem exists_along_eq (ptb : BitVec 32) (j : BitVec 7) : ∃ i < maxAsids, along ptb i = j :=
  exists_probe_eq _ (odd_chain _) j

theorem lt_two_pow_log2Greater (i : ℕ) : i < 2 ^ log2Greater i := by
  unfold log2Greater
  split
  · next hi => simp [hi]
  · exact Nat.lt_log2_self

theorem log2Greater_lt {i : ℕ} (hi : i < maxAsids) : log2Greater i < 8 := by
  unfold log2Greater
  split
  · decide
  · next hne => exact Nat.succ_lt_succ ((Nat.log2_lt hne).mpr hi)

section Specs

variable {table table' : AsidTable} {ptb : BitVec 32} {vmidx type : ℕ} {j : BitVec 7}

theorem search_some (h : search ptb vmidx type table = some j) :
    (table j).key = ⟨ptb, vmidx, type⟩ :=
  isMatch_iff.mp (searchFrom_some h)

theorem search_none (h : search ptb vmidx type table = none) {i : ℕ}
    (hi : i ≤ 2 ^ (table (asidHashval ptb)).logMaxhops.toNat) :
    (table (along ptb i)).key ≠ ⟨ptb, vmidx, type⟩ := by
  have hfalse : isMatch (table (along ptb i)) ptb vmidx type = false := searchFrom_none h i hi
  rw [ne_eq, ← isMatch_iff, hfalse]
  exact Bool.false_ne_true

/-- **What a replacement does**: the place has no references, and the chain is known to reach it. -/
theorem eviction_some (h : eviction ptb table = (some j, table')) :
    (table j).count = 0 ∧ ∃ i log, along ptb i = j ∧ i ≤ 2 ^ log.toNat ∧
      (table (asidHashval ptb)).logMaxhops ≤ log ∧
      table' = update table (asidHashval ptb)
        { table (asidHashval ptb) with logMaxhops := log } := by
  unfold eviction at h
  simp only at h
  split at h
  · simp at h
  next i idx hevict =>
  obtain ⟨hj, rfl⟩ := Prod.mk.inj h
  cases hj
  obtain ⟨-, hi, hidx, hcount⟩ := evictFrom_some le_rfl hevict
  have hlog := log2Greater_lt hi
  refine ⟨hcount, i, _, hidx.symm, ?_, ?_, rfl⟩
  · rw [BitVec.toNat_ofNat, Nat.mod_eq_of_lt (by omega)]
    exact (lt_two_pow_log2Greater i).le.trans (Nat.pow_le_pow_right (by decide) (le_max_left _ _))
  · rw [BitVec.le_def, BitVec.toNat_ofNat, Nat.mod_eq_of_lt (by omega)]
    exact le_max_right _ _

/-- None is found exactly if all have references. -/
theorem eviction_none_iff (ptb : BitVec 32) :
    (eviction ptb table).1 = none ↔ ∀ j, (table j).count ≠ 0 := by
  unfold eviction
  simp only
  split
  · next hevict =>
    refine iff_of_true rfl fun j => ?_
    obtain ⟨i, hi, rfl⟩ := exists_along_eq ptb j
    exact evictFrom_none hevict i hi
  · next i idx hevict =>
    obtain ⟨-, -, -, hcount⟩ := evictFrom_some le_rfl hevict
    exact iff_of_false (by simp) fun hall => hall idx hcount

end Specs

/-! ## The invariant -/

/-- Every entry of a VM can be reached along its chain, and no two are of the same address space. -/
structure Searchable (table : AsidTable) : Prop where
  reach : ∀ j, (table j).vmid ≠ 0 → ∃ i, along (table j).ptb i = j ∧
    i ≤ 2 ^ (table (asidHashval (table j).ptb)).logMaxhops.toNat
  unique : ∀ i j, (table i).vmid ≠ 0 → (table i).key = (table j).key → i = j

/-- `H2K_asid_table_init`: all zero. -/
def zeroed : AsidTable := fun _ => ⟨0, 0, 0, 0, 0, 0⟩

theorem searchable_zeroed : Searchable zeroed :=
  ⟨fun _ h => absurd rfl h, fun _ _ h => absurd rfl h⟩

/-- `H2K_asid_table_dec`. -/
def dec (asid : BitVec 7) (table : AsidTable) : AsidTable :=
  update table asid { table asid with count := (table asid).count - 1 }

section Invariant

variable {table table' : AsidTable} {ptb : BitVec 32} {vmidx type : ℕ} {extra : BitVec 8}
  {j : BitVec 7}

/-- **The search is complete.** -/
theorem Searchable.search_iff (h : table.Searchable) (hvm : vmidx ≠ 0) :
    search ptb vmidx type table = some j ↔ (table j).key = ⟨ptb, vmidx, type⟩ := by
  refine ⟨search_some, fun hkey => ?_⟩
  have hassigned : (table j).vmid ≠ 0 := by
    intro hzero
    have := congrArg AsidKey.vmidx hkey
    simp only [AsidEntry.key, hzero] at this
    exact hvm this.symm
  have hptb : (table j).ptb = ptb := congrArg AsidKey.ptb hkey
  cases hsearch : search ptb vmidx type table with
  | some j' =>
    rw [h.unique j j' hassigned (hkey.trans (search_some hsearch).symm)]
  | none =>
    obtain ⟨i, hi, hle⟩ := h.reach j hassigned
    rw [hptb] at hi hle
    exact absurd (hi ▸ hkey) (search_none hsearch hle)

theorem Searchable.search_eq_none_iff (h : table.Searchable) (hvm : vmidx ≠ 0) :
    search ptb vmidx type table = none ↔ ∀ j, (table j).key ≠ ⟨ptb, vmidx, type⟩ := by
  rw [Option.eq_none_iff_forall_ne_some]
  exact forall_congr' fun j => not_congr (h.search_iff hvm)

/-- Counts do not matter, and the reach of a chain may grow. -/
theorem Searchable.of_same (h : table.Searchable) (hkey : ∀ j, (table' j).key = (table j).key)
    (hlog : ∀ j, (table j).logMaxhops ≤ (table' j).logMaxhops) : table'.Searchable := by
  have hptb (j : BitVec 7) : (table' j).ptb = (table j).ptb := congrArg AsidKey.ptb (hkey j)
  have hvmid (j : BitVec 7) : (table' j).vmid = (table j).vmid :=
    BitVec.eq_of_toNat_eq (congrArg AsidKey.vmidx (hkey j))
  refine ⟨fun j hj => ?_, fun i j hi hij => ?_⟩
  · obtain ⟨i, hi, hle⟩ := h.reach j (hvmid j ▸ hj)
    refine ⟨i, (hptb j).symm ▸ hi, hle.trans (Nat.pow_le_pow_right (by decide) ?_)⟩
    rw [hptb j]
    exact BitVec.le_def.mp (hlog _)
  · rw [hkey, hkey] at hij
    exact h.unique i j (hvmid i ▸ hi) hij

/-- An entry that is new, at a place its chain is known to reach. -/
theorem Searchable.assign (h : table.Searchable) {e : AsidEntry} {i : ℕ} (hi : along e.ptb i = j)
    (hle : i ≤ 2 ^ (table (asidHashval e.ptb)).logMaxhops.toNat)
    (hlog : e.logMaxhops = (table j).logMaxhops) (hnew : ∀ i, (table i).key ≠ e.key) :
    AsidTable.Searchable (update table j e) := by
  have hkeep (a : BitVec 7) : (update table j e a).logMaxhops = (table a).logMaxhops := by
    by_cases haj : a = j
    · rw [haj, update_self, hlog]
    · rw [update_of_ne haj]
  refine ⟨fun a ha => ?_, fun a b ha hab => ?_⟩
  · by_cases haj : a = j
    · subst haj
      rw [update_self] at ha ⊢
      exact ⟨i, hi, by rwa [hkeep]⟩
    · rw [update_of_ne haj] at ha ⊢
      obtain ⟨i, hi, hle⟩ := h.reach a ha
      exact ⟨i, hi, by rwa [hkeep]⟩
  · by_cases haj : a = j <;> by_cases hbj : b = j
    · exact haj.trans hbj.symm
    · rw [haj, update_self, update_of_ne hbj] at hab
      exact absurd hab.symm (hnew b)
    · rw [hbj, update_self, update_of_ne haj] at hab
      exact absurd hab (hnew a)
    · rw [update_of_ne haj] at ha hab
      rw [update_of_ne hbj] at hab
      exact h.unique a b ha hab

theorem Searchable.dec (h : table.Searchable) (asid : BitVec 7) : (table.dec asid).Searchable := by
  refine h.of_same (fun j => ?_) fun j => ?_ <;> unfold AsidTable.dec <;>
    by_cases hj : j = asid <;> simp [hj, AsidEntry.key]

/-- **What `inc` does** when it succeeds: one more reference to the place that is found, or the
first one to a place that had none. -/
theorem inc_some (h : inc ptb type extra vmidx table = (some j, table')) :
    type < 4 ∧ (search ptb vmidx type table = some j ∧
      table' = update table j { table j with count := (table j).count + 1 } ∨
    search ptb vmidx type table = none ∧ ∃ evicted, eviction ptb table = (some j, evicted) ∧
      table' = update evicted j
        { evicted j with
          ptb := ptb
          type := BitVec.ofNat 3 type
          vmid := BitVec.ofNat 6 vmidx
          count := 1
          extra := extra }) := by
  unfold inc at h
  split at h
  · simp at h
  next htype =>
  refine ⟨by omega, ?_⟩
  unfold doInc at h
  split at h
  · next asid hsearch =>
    obtain ⟨hj, rfl⟩ := Prod.mk.inj h
    cases hj
    exact .inl ⟨hsearch, rfl⟩
  next hsearch =>
  split at h
  · next asid evicted hevict =>
    obtain ⟨hj, rfl⟩ := Prod.mk.inj h
    cases hj
    exact .inr ⟨hsearch, evicted, hevict, rfl⟩
  · simp at h

theorem key_inc (htype : type < 4) (hvm : vmidx < 64)
    (h : inc ptb type extra vmidx table = (some j, table')) :
    (table' j).key = ⟨ptb, vmidx, type⟩ := by
  obtain ⟨-, ⟨hsearch, rfl⟩ | ⟨-, -, -, rfl⟩⟩ := inc_some h
  · rw [update_self]
    exact search_some hsearch
  · rw [update_self, AsidEntry.key, BitVec.toNat_ofNat, BitVec.toNat_ofNat,
      Nat.mod_eq_of_lt hvm, Nat.mod_eq_of_lt (by omega)]

theorem key_inc_of_ne (h : inc ptb type extra vmidx table = (some j, table')) {i : BitVec 7}
    (hij : i ≠ j) : (table' i).key = (table i).key := by
  obtain ⟨-, ⟨-, rfl⟩ | ⟨-, evicted, hevict, rfl⟩⟩ := inc_some h
  · rw [update_of_ne hij]
  · obtain ⟨-, -, -, -, -, -, rfl⟩ := eviction_some hevict
    rw [update_of_ne hij]
    by_cases hi : i = asidHashval ptb
    · simp [hi, AsidEntry.key]
    · rw [update_of_ne hi]

theorem Searchable.inc (h : table.Searchable) (hvm : vmidx ≠ 0) (hlt : vmidx < 64)
    (hinc : AsidTable.inc ptb type extra vmidx table = (some j, table')) : table'.Searchable := by
  have hkey (htype : type < 4) := key_inc htype hlt hinc
  obtain ⟨htype, ⟨-, rfl⟩ | ⟨hsearch, evicted, hevict, rfl⟩⟩ := inc_some hinc
  · refine h.of_same (fun i => ?_) fun i => ?_ <;> by_cases hij : i = j <;>
      simp [hij, AsidEntry.key]
  · obtain ⟨-, i, log, hi, hle, hlog, rfl⟩ := eviction_some hevict
    -- first the chain reaches further …
    have hsame (a : BitVec 7) : (update table (asidHashval ptb)
        { table (asidHashval ptb) with logMaxhops := log } a).key = (table a).key := by
      by_cases ha : a = asidHashval ptb
      · simp [ha, AsidEntry.key]
      · rw [update_of_ne ha]
    have hgrown : AsidTable.Searchable (update table (asidHashval ptb)
        { table (asidHashval ptb) with logMaxhops := log }) := by
      refine h.of_same hsame fun a => ?_
      by_cases ha : a = asidHashval ptb
      · simpa [ha] using hlog
      · rw [update_of_ne ha]
        exact BitVec.le_refl _
    -- … and then the entry is put where it reaches
    refine hgrown.assign hi (by simpa using hle) rfl fun a => ?_
    have hnew := hkey htype
    rw [update_self] at hnew
    rw [hsame, hnew]
    exact (h.search_eq_none_iff hvm).mp hsearch a

/-- **`inc` fails** exactly if the type is none, or no place is of the address space and all have
references. -/
theorem Searchable.inc_eq_none_iff (h : table.Searchable) (hvm : vmidx ≠ 0) :
    (AsidTable.inc ptb type extra vmidx table).1 = none ↔
      4 ≤ type ∨ (∀ j, (table j).key ≠ ⟨ptb, vmidx, type⟩) ∧ ∀ j, (table j).count ≠ 0 := by
  rw [← h.search_eq_none_iff hvm, ← eviction_none_iff ptb]
  unfold AsidTable.inc doInc
  by_cases htype : 4 ≤ type
  · simp [htype]
  rw [if_neg htype, or_iff_right htype]
  cases search ptb vmidx type table with
  | some asid => simp
  | none =>
    rcases eviction ptb table with ⟨_ | asid, -⟩ <;> simp

end Invariant

end AsidTable

/-! ## The table and the TLBs -/

/-- The table of address spaces and what is cached of their translations. -/
structure Mmu where
  table : AsidTable
  tlb : ℕ → BitVec 64
  stlb : Option Stlb

namespace Mmu

/-- `H2K_mem_tlb_invalidate_asid` and `H2K_mem_stlb_invalidate_asid`. -/
def invalidateAsid (asid : BitVec 7) (m : Mmu) : Mmu :=
  { m with tlb := tlbinvasid asid m.tlb, stlb := m.stlb.map (·.invalidateAsid asid) }

/-- `H2K_do_asid_table_inc`; none stands for -1. -/
def doAsidTableInc (ptb : BitVec 32) (type : ℕ) (flag : Bool) (extra : BitVec 32) (vmidx : ℕ)
    (m : Mmu) : Option (BitVec 7) × Mmu :=
  match m.table.search ptb vmidx type with
  | some asid =>
    let table := update m.table asid
      { m.table asid with count := (m.table asid).count + 1 }
    let m := { m with table := table }
    (some asid, if flag then m.invalidateAsid asid else m)
  | none =>
    match m.table.eviction ptb with
    | (some asid, evicted) =>
      let table := update evicted asid
        { evicted asid with
          ptb := ptb
          type := BitVec.ofNat 3 type
          vmid := BitVec.ofNat 6 vmidx
          count := 1
          extra := extra.setWidth 8 }
      (some asid, { m with table := table }.invalidateAsid asid)
    | (none, evicted) => (none, { m with table := evicted })

/-- `H2K_asid_table_inc`. -/
def asidTableInc (ptb : BitVec 32) (type : ℕ) (flag : Bool) (extra : BitVec 32) (vmidx : ℕ)
    (m : Mmu) : Option (BitVec 7) × Mmu :=
  if 4 ≤ type then (none, m) else m.doAsidTableInc ptb type flag extra vmidx

section Inc

variable (ptb : BitVec 32) (type : ℕ) (flag : Bool) (extra : BitVec 32) (vmidx : ℕ) (m : Mmu)

theorem asidTableInc_table : m.table.inc ptb type (extra.setWidth 8) vmidx =
      ((m.asidTableInc ptb type flag extra vmidx).1,
        (m.asidTableInc ptb type flag extra vmidx).2.table) := by
  unfold asidTableInc doAsidTableInc AsidTable.inc AsidTable.doInc
  by_cases htype : 4 ≤ type
  · simp [htype]
  rw [if_neg htype, if_neg htype]
  cases m.table.search ptb vmidx type with
  | some asid => cases flag <;> rfl
  | none => rcases m.table.eviction ptb with ⟨_ | asid, -⟩ <;> rfl

variable {ptb type flag extra vmidx m}

/-- **A place given out anew** has nothing cached. -/
theorem asidTableInc_new {m' : Mmu} {j : BitVec 7}
    (hinc : m.asidTableInc ptb type flag extra vmidx = (some j, m'))
    (hnew : m.table.search ptb vmidx type = none) :
    (∀ i, tlbfmtAsid (m'.tlb i) = j → tlbfmtGlobal (m'.tlb i) = false →
      tlbfmtValid (m'.tlb i) = false) ∧
    ∀ s, m'.stlb = some s → ∀ tlbmatch va, s.lookup tlbmatch va j = 0 := by
  unfold asidTableInc doAsidTableInc at hinc
  split at hinc
  · simp at hinc
  rw [hnew] at hinc
  simp only at hinc
  split at hinc
  · obtain ⟨hj, rfl⟩ := Prod.mk.inj hinc
    cases hj
    refine ⟨fun i hasid hglobal => tlbfmtValid_tlbinvasid hasid hglobal, fun s hs tlbmatch va => ?_⟩
    obtain ⟨s₀, -, rfl⟩ := Option.map_eq_some_iff.mp hs
    exact s₀.lookup_invalidateAsid tlbmatch va _
  · simp at hinc

end Inc

end Mmu

/-! ## Histories -/

/-- A call that counts references. -/
inductive AsidCall where
  | inc (ptb : BitVec 32) (type : ℕ) (extra : BitVec 32) (vmidx : ℕ)
  | dec (asid : BitVec 7)

/-- The VMs have the slots from 1 on. -/
def AsidCall.Valid : AsidCall → Prop
  | .inc _ _ _ vmidx => 1 ≤ vmidx ∧ vmidx < 64
  | .dec _ => True

instance : DecidablePred AsidCall.Valid
  | .inc _ _ _ vmidx => inferInstanceAs (Decidable (1 ≤ vmidx ∧ vmidx < 64))
  | .dec _ => inferInstanceAs (Decidable True)

/-- The table, and the address space each place was last given out for. -/
structure AsidHistory where
  table : AsidTable
  assigned : BitVec 7 → Option AsidKey

namespace AsidHistory

/-- Nothing has been given out. -/
def zeroed : AsidHistory := ⟨.zeroed, fun _ => none⟩

def step (c : AsidCall) (h : AsidHistory) : Option AsidHistory :=
  match c with
  | .inc ptb type extra vmidx =>
    match h.table.inc ptb type (extra.setWidth 8) vmidx with
    | (some j, table) =>
      some ⟨table, update h.assigned j (some ⟨ptb, vmidx, type⟩)⟩
    | (none, table) => some ⟨table, h.assigned⟩
  | .dec asid => some { h with table := h.table.dec asid }

/-- What was given out is there, and nothing else. -/
structure Recorded (h : AsidHistory) : Prop where
  searchable : h.table.Searchable
  assigned_iff : ∀ j key, h.assigned j = some key ↔ (h.table j).key = key ∧ key.vmidx ≠ 0
  type_lt : ∀ j key, h.assigned j = some key → key.type < 4

theorem Recorded.step {h h' : AsidHistory} {c : AsidCall} (hh : h.Recorded) (hc : c.Valid)
    (hstep : h.step c = some h') : h'.Recorded := by
  cases c with
  | dec asid =>
    cases hstep
    refine ⟨hh.searchable.dec asid, fun j key => (hh.assigned_iff j key).trans ?_, hh.type_lt⟩
    by_cases hj : j = asid <;> simp [AsidTable.dec, hj, AsidEntry.key]
  | inc ptb type extra vmidx =>
    have hvm : vmidx ≠ 0 := Nat.one_le_iff_ne_zero.mp hc.1
    rw [AsidHistory.step] at hstep
    split at hstep
    · next j table hinc =>
      cases hstep
      have htype := (AsidTable.inc_some hinc).1
      refine ⟨hh.searchable.inc hvm hc.2 hinc, fun i key => ?_, fun i key => ?_⟩ <;>
        by_cases hij : i = j
      · subst hij
        simp only [update_self, Option.some.injEq, AsidTable.key_inc htype hc.2 hinc]
        exact ⟨fun e => ⟨e, e ▸ hvm⟩, And.left⟩
      · simp only [update_of_ne hij, AsidTable.key_inc_of_ne hinc hij]
        exact hh.assigned_iff i key
      · subst hij
        simp only [update_self, Option.some.injEq]
        exact fun e => e ▸ htype
      · simp only [update_of_ne hij]
        exact hh.type_lt i key
    · next table hinc =>
      cases hstep
      obtain rfl := AsidTable.inc_eq_none hinc
      exact hh

theorem recorded_of_leads {h : AsidHistory}
    (hh : Leads step (fun c _ => c.Valid) zeroed h) : h.Recorded := by
  refine hh.invariant ⟨AsidTable.searchable_zeroed, fun j key => ?_, by simp [zeroed]⟩
    fun hI hc hstep => hI.step hc hstep
  simp only [zeroed, reduceCtorEq, false_iff, not_and, not_not]
  exact fun hkey => hkey ▸ rfl

end AsidHistory

/-- **The lookup of address spaces is complete.**  After any calls: each address space is found at
the place it was last given, and its chain is known to reach that far; no address space has two
places; `inc` fails exactly if the address space has no place and all places are in use; and a place
that is given out anew has nothing cached in the TLBs. -/
theorem asid_lookup_complete {h : AsidHistory}
    (hh : Leads AsidHistory.step (fun c _ => c.Valid) .zeroed h) :
    (∀ j key, h.assigned j = some key →
      h.table.search key.ptb key.vmidx key.type = some j ∧
        ∃ hops, AsidTable.along key.ptb hops = j ∧
          hops ≤ 2 ^ (h.table (asidHashval key.ptb)).logMaxhops.toNat) ∧
    (∀ i j key, h.assigned i = some key → h.assigned j = some key → i = j) ∧
    ∀ ptb type flag extra vmidx tlb stlb, 1 ≤ vmidx → vmidx < 64 →
      ((Mmu.asidTableInc ptb type flag extra vmidx ⟨h.table, tlb, stlb⟩).1 = none ↔
        4 ≤ type ∨ (∀ j, AsidTable.isMatch (h.table j) ptb vmidx type = false) ∧
          ∀ j, (h.table j).count ≠ 0) ∧
      ∀ j m', Mmu.asidTableInc ptb type flag extra vmidx ⟨h.table, tlb, stlb⟩ = (some j, m') →
        (∀ i, h.assigned i ≠ some ⟨ptb, vmidx, type⟩) →
        (∀ i, tlbfmtAsid (m'.tlb i) = j → tlbfmtGlobal (m'.tlb i) = false →
          tlbfmtValid (m'.tlb i) = false) ∧
        ∀ s, m'.stlb = some s → ∀ tlbmatch va, s.lookup tlbmatch va j = 0 := by
  have hr := AsidHistory.recorded_of_leads hh
  refine ⟨fun j key hj => ?_, fun i j key hi hj => ?_,
    fun ptb type flag extra vmidx tlb stlb hpos hlt => ?_⟩
  · obtain ⟨rfl, hvm⟩ := (hr.assigned_iff j key).mp hj
    refine ⟨(hr.searchable.search_iff hvm).mpr rfl, hr.searchable.reach j fun hzero => hvm ?_⟩
    simp [AsidEntry.key, hzero]
  · obtain ⟨hi, hvm⟩ := (hr.assigned_iff i key).mp hi
    obtain ⟨hj, -⟩ := (hr.assigned_iff j key).mp hj
    refine hr.searchable.unique i j (fun hzero => hvm ?_) (hi.trans hj.symm)
    simp [← hi, AsidEntry.key, hzero]
  · have hvm : vmidx ≠ 0 := Nat.one_le_iff_ne_zero.mp hpos
    have htable := Mmu.asidTableInc_table ptb type flag extra vmidx ⟨h.table, tlb, stlb⟩
    have hmatch (j : BitVec 7) : AsidTable.isMatch (h.table j) ptb vmidx type = false ↔
        (h.table j).key ≠ ⟨ptb, vmidx, type⟩ := by
      rw [ne_eq, ← AsidTable.isMatch_iff, Bool.not_eq_true]
    refine ⟨?_, fun j m' hinc hnew => Mmu.asidTableInc_new hinc ?_⟩
    · rw [forall_congr' hmatch, ← hr.searchable.inc_eq_none_iff hvm, htable]
    · exact (hr.searchable.search_eq_none_iff hvm).mpr fun i hi =>
        hnew i ((hr.assigned_iff i _).mpr ⟨hi, hvm⟩)

/-- A VM takes an address space twice and another once, and gives the first up once. -/
def threeTakes : List AsidCall :=
  [.inc 0x1000 1 0 1, .inc 0x1000 1 0 1, .inc 0x2000 1 0 1, .dec 59]

/-- The first is found. -/
theorem asid_lookup_threeTakes : ∃ h : AsidHistory,
    Leads AsidHistory.step (fun c _ => c.Valid) .zeroed h ∧ h.assigned 59 = some ⟨0x1000, 1, 1⟩ ∧
      h.table.search 0x1000 1 1 = some 59 := by
  have hrun : ∃ h ∈ runIf AsidHistory.step (fun c _ => decide c.Valid) threeTakes .zeroed,
      h.assigned 59 = some ⟨0x1000, 1, 1⟩ := by decide +kernel
  obtain ⟨h, hrun, hassigned⟩ := hrun
  have hh := Leads.of_runIf (fun _ _ => of_decide_eq_true) .init hrun
  exact ⟨h, hh, hassigned, ((asid_lookup_complete hh).1 59 _ hassigned).1⟩

end H2
