import H2.Vm.Vmop

/-!
# Mem/Asid — address spaces, and the one a new thread gets

The table of address spaces is a hash table with open addressing: an entry is looked for along a
chain from the hash of its page table base, as many hops as the first entry of the chain says may be
needed, and a new one replaces the first unused entry of the chain.  A thread that is created takes
one more reference to the address space of its creator; where that fails the thread is not created,
and nothing has changed (`threadCreate_fails`).
-/

namespace H2

open Function

/-- `H2K_asid_entry_t`. -/
@[ext] structure AsidEntry where
  ptb : BitVec 32
  count : BitVec 12
  vmid : BitVec 6
  type : BitVec 3
  logMaxhops : BitVec 3
  extra : BitVec 8
  deriving DecidableEq, Repr

/-- `asid_table`, of `MAX_ASIDS` entries. -/
abbrev AsidTable := BitVec 7 → AsidEntry

/-- `MAX_ASIDS`. -/
def maxAsids : ℕ := 128

/-- `ASID_HASHVAL`. -/
def asidHashval (ptb : BitVec 32) : BitVec 7 := ((ptb * 2654435761#32) >>> 25).setWidth 7

/-- `log2_greater`. -/
def log2Greater (x : ℕ) : ℕ := if x = 0 then 0 else x.log2 + 1

namespace AsidTable

/-- `H2K_asid_match`. -/
def isMatch (a : AsidEntry) (ptb : BitVec 32) (vmidx : ℕ) (type : ℕ) : Bool :=
  a.ptb == ptb && a.vmid.toNat == vmidx && a.type.toNat == type

/-- The loop of `H2K_asid_table_search`, with so many hops left. -/
def searchFrom (p : AsidEntry → Bool) (chain : BitVec 7) (table : AsidTable) :
    ℕ → BitVec 7 → Option (BitVec 7)
  | 0, idx => if p (table idx) then some idx else none
  | hops + 1, idx => if p (table idx) then some idx else searchFrom p chain table hops (idx + chain)

/-- `H2K_asid_table_search`. -/
def search (ptb : BitVec 32) (vmidx type : ℕ) (table : AsidTable) : Option (BitVec 7) :=
  let idx := asidHashval ptb
  searchFrom (fun a => isMatch a ptb vmidx type) (idx ||| 1#7) table
    (2 ^ (table idx).logMaxhops.toNat) idx

/-- The loop of `H2K_asid_table_eviction`, with so many entries left to look at: the number of hops
and the unused entry. -/
def evictFrom (chain : BitVec 7) (table : AsidTable) : ℕ → BitVec 7 → Option (ℕ × BitVec 7)
  | 0, _ => none
  | left + 1, idx =>
    if (table idx).count = 0 then some (maxAsids - (left + 1), idx)
    else evictFrom chain table left (idx + chain)

/-- `H2K_asid_table_eviction`. -/
def eviction (ptb : BitVec 32) (table : AsidTable) : Option (BitVec 7) × AsidTable :=
  let start := asidHashval ptb
  match evictFrom (start ||| 1#7) table maxAsids start with
  | none => (none, table)
  | some (i, idx) =>
    (some idx, update table start
      { table start with
        logMaxhops := BitVec.ofNat 3 (max (log2Greater i) (table start).logMaxhops.toNat) })

/-- `H2K_do_asid_table_inc`; none stands for -1. -/
def doInc (ptb : BitVec 32) (type : ℕ) (extra : BitVec 8) (vmidx : ℕ) (table : AsidTable) :
    Option (BitVec 7) × AsidTable :=
  match search ptb vmidx type table with
  | some asid =>
    (some asid, update table asid { table asid with count := (table asid).count + 1 })
  | none =>
    match eviction ptb table with
    | (some asid, table) =>
      (some asid, update table asid
        { table asid with
          ptb := ptb
          type := BitVec.ofNat 3 type
          vmid := BitVec.ofNat 6 vmidx
          count := 1
          extra := extra })
    | (none, table) => (none, table)

/-- `H2K_asid_table_inc`; there are four translation types. -/
def inc (ptb : BitVec 32) (type : ℕ) (extra : BitVec 8) (vmidx : ℕ) (table : AsidTable) :
    Option (BitVec 7) × AsidTable :=
  if 4 ≤ type then (none, table) else doInc ptb type extra vmidx table

theorem eviction_eq_none {ptb : BitVec 32} {table table' : AsidTable}
    (hnone : eviction ptb table = (none, table')) : table' = table := by
  unfold eviction at hnone
  simp only at hnone
  split at hnone
  · exact (Prod.mk.inj hnone).2.symm
  · simp at hnone

/-- **Without an address space nothing changes.** -/
theorem inc_eq_none {ptb : BitVec 32} {type : ℕ} {extra : BitVec 8} {vmidx : ℕ}
    {table table' : AsidTable} (hnone : inc ptb type extra vmidx table = (none, table')) :
    table' = table := by
  unfold inc doInc at hnone
  split at hnone
  · exact (Prod.mk.inj hnone).2.symm
  split at hnone
  · simp at hnone
  split at hnone
  · simp at hnone
  · next hevict =>
    cases hnone
    exact eviction_eq_none hevict

end AsidTable

/-! ## Creating a thread in an address space -/

section Create

variable {ι β : Type} [dι : DecidableEq ι] [dβ : DecidableEq β] [fι : Fintype ι]

omit fι

/-- The address spaces, and the one each thread has in its `ssr`. -/
structure Asids (ι : Type) where
  table : AsidTable
  ssrAsid : ι → BitVec 7

/-- The offset that maps everything to itself: its raw bits. -/
def identityOffset : BitVec 32 := 0xf76#32

/-- `H2K_ASID_TRANS_TYPE_OFFSET`. -/
def transTypeOffset : ℕ := 2

/-- The translation a new thread starts with: that of its creator, or for the first of a VM none. -/
def Asids.inherit (a : Asids ι) (first : Bool) (me : ι) : BitVec 32 × ℕ × BitVec 8 :=
  if first then (identityOffset, transTypeOffset, 0#8)
  else
    let e := a.table (a.ssrAsid me)
    (e.ptb, e.type.toNat, e.extra)

/-- `H2K_thread_create_no_squash`, with the address spaces. -/
def Kernel.threadCreate (M : Machine ι β) (pc sp arg1 prio : ℕ) (b : β) (me : ι) (a : Asids ι)
    (k : Kernel ι β) : Option (Exit × Kernel ι β × Asids ι) :=
  if maxPrio < prio ∨ prio < M.bestprio b ∨ sp % 8 ≠ 0 ∨ pc % 4 ≠ 0 then some (.returned (-1), k, a)
  else
    match k.sched.freeThreads b with
    | none => some (.returned (-1), k, a)
    | some tmp =>
      let (ptb, type, extra) := a.inherit (k.vms.numCpus b = 0) me
      match a.table.inc ptb type extra (M.vmidx b) with
      | (some asid, table) =>
        (k.threadCreateNoSquash M pc sp arg1 prio true b me).map fun p =>
          (p.1, p.2, ⟨table, update a.ssrAsid tmp asid⟩)
      | (none, table) =>
        (k.threadCreateNoSquash M pc sp arg1 prio false b me).map fun p =>
          (p.1, p.2, { a with table := table })

variable {M : Machine ι β} {k k' : Kernel ι β} {me : ι} {b : β}

omit dι dβ in
/-- An id has ten low bits that are clear, so it is not -1. -/
theorem Machine.idRaw_ne (M : Machine ι β) (t : ι) : M.idRaw t ≠ -1 := by
  unfold Machine.idRaw
  intro h
  have hbits : BitVec.ofNat 32 (M.vmidx (M.vmblock t) * 0x4000000 + M.cpuidx t * 0x400) =
      BitVec.ofInt 32 (-1) := by
    rw [← h, BitVec.ofInt_toInt]
  have hnat := congrArg BitVec.toNat hbits
  rw [BitVec.toNat_ofNat] at hnat
  have hneg : (BitVec.ofInt 32 (-1)).toNat = 0xffffffff := rfl
  omega

/-- What a failed creation leaves as it was: the free lists, the counts, the ready rings and the
bitmap of those that are not empty. -/
structure Unchanged (k k' : Kernel ι β) : Prop where
  freeThreads : k'.sched.freeThreads = k.sched.freeThreads
  rings : k'.sched.rings = k.sched.rings
  readyValids : k'.sched.readyValids = k.sched.readyValids
  numCpus : k'.vms.numCpus = k.vms.numCpus

theorem threadCreateNoSquash_fails {pc sp arg1 prio : ℕ} {asid : Bool}
    (hcreate : k.threadCreateNoSquash M pc sp arg1 prio asid b me = some (.returned (-1), k')) :
    Unchanged k k' := by
  unfold Kernel.threadCreateNoSquash at hcreate
  split at hcreate
  · cases hcreate
    exact ⟨rfl, rfl, rfl, rfl⟩
  split at hcreate
  · cases hcreate
    exact ⟨rfl, rfl, rfl, rfl⟩
  next tmp hfree =>
  simp only at hcreate
  split at hcreate
  · obtain ⟨hid, -⟩ := Prod.mk.inj (Option.some.inj hcreate)
    exact absurd (Exit.returned.inj hid) (M.idRaw_ne tmp)
  · cases hcreate
    refine ⟨?_, rfl, rfl, rfl⟩
    simp [Sched.freePop, Sched.freeReturn, Sched.setPrio, Sched.setR00, ← hfree]

theorem threadCreateNoSquash_succeeds {pc sp arg1 prio : ℕ} {tmp : ι} (me : ι)
    (hgood : ¬(maxPrio < prio ∨ prio < M.bestprio b ∨ sp % 8 ≠ 0 ∨ pc % 4 ≠ 0))
    (hfree : k.sched.freeThreads b = some tmp) :
    ∃ k', k.threadCreateNoSquash M pc sp arg1 prio true b me =
      some (.returned (M.idRaw tmp), k') := by
  unfold Kernel.threadCreateNoSquash
  rw [if_neg hgood, hfree]
  exact ⟨_, rfl⟩

/-- **A creation that fails** changes neither the structures nor the table. -/
theorem threadCreate_fails {pc sp arg1 prio : ℕ} {a a' : Asids ι}
    (hcreate : k.threadCreate M pc sp arg1 prio b me a = some (.returned (-1), k', a')) :
    Unchanged k k' ∧ a'.table = a.table := by
  unfold Kernel.threadCreate at hcreate
  split at hcreate
  · simp only [Option.some.injEq, Prod.mk.injEq, true_and] at hcreate
    obtain ⟨rfl, rfl⟩ := hcreate
    exact ⟨⟨rfl, rfl, rfl, rfl⟩, rfl⟩
  split at hcreate
  · simp only [Option.some.injEq, Prod.mk.injEq, true_and] at hcreate
    obtain ⟨rfl, rfl⟩ := hcreate
    exact ⟨⟨rfl, rfl, rfl, rfl⟩, rfl⟩
  next hgood _ tmp hfree =>
  simp only at hcreate
  split at hcreate
  · -- with an address space the creation succeeds
    obtain ⟨k₁, hk₁⟩ := threadCreateNoSquash_succeeds me hgood hfree
    rw [hk₁, Option.map_some, Option.some.injEq, Prod.mk.injEq] at hcreate
    exact absurd (Exit.returned.inj hcreate.1) (M.idRaw_ne tmp)
  · next hinc =>
    obtain ⟨p, hp, hmk⟩ := Option.map_eq_some_iff.mp hcreate
    simp only [Prod.mk.injEq] at hmk
    obtain ⟨he, rfl, rfl⟩ := hmk
    obtain ⟨e, k'⟩ := p
    simp only at he
    subst he
    exact ⟨threadCreateNoSquash_fails hp, AsidTable.inc_eq_none hinc⟩

end Create

end H2
