import H2.Mem.AsidSearch

/-!
# Vm/Vmmap — a thread changes its address space

`H2K_vmtrap_newmap` takes a reference to the address space that is asked for and gives up the one
the thread had.  It asks with four words: the page table base, the type of translation, whether to
drop what is cached, and `extra` — for a table of variable radix the number of bits of a page
number.

An address space is known by its base, its VM and its type, and not by `extra`.  So a thread that
asks for a base that is in the table already, with another `extra`, gets the old one
(`newmap_installs_iff`).
-/

namespace H2

/-- What a call leaves: the value returned, the table and the caches, and the address space of the
thread. -/
structure Newmap where
  r00 : ℤ
  mmu : Mmu
  ssrAsid : BitVec 7

namespace Mmu

/-- `H2K_asid_table_dec`. -/
def asidTableDec (asid : BitVec 7) (m : Mmu) : Mmu := { m with table := m.table.dec asid }

/-- `H2K_vmtrap_newmap`, by a thread of the VM in slot `vmidx`. -/
def vmtrapNewmap (r00 r01 r02 r03 : BitVec 32) (vmidx : ℕ) (ssrAsid : BitVec 7) (m : Mmu) :
    Newmap :=
  if 4 ≤ r01.toNat then ⟨-1, m, ssrAsid⟩
  else
    match m.asidTableInc r00 r01.toNat (r02 != 0) r03 vmidx with
    | (none, m) => ⟨-1, m, ssrAsid⟩
    | (some newasid, m) => ⟨0, m.asidTableDec ssrAsid, newasid⟩

section Newmap

variable {r00 r01 r02 r03 : BitVec 32} {vmidx : ℕ} {ssrAsid : BitVec 7} {m : Mmu}

/-- **What the call does**, in terms of the table. -/
theorem vmtrapNewmap_cases (r00 r01 r02 r03 : BitVec 32) (vmidx : ℕ)
    (ssrAsid : BitVec 7) (m : Mmu) : (∃ m', m'.table = m.table ∧
      (m.table.inc r00 r01.toNat (r03.setWidth 8) vmidx).1 = none ∧
      m.vmtrapNewmap r00 r01 r02 r03 vmidx ssrAsid = ⟨-1, m', ssrAsid⟩) ∨
    ∃ j table m', m.table.inc r00 r01.toNat (r03.setWidth 8) vmidx = (some j, table) ∧
      m'.table = table.dec ssrAsid ∧
      m.vmtrapNewmap r00 r01 r02 r03 vmidx ssrAsid = ⟨0, m', j⟩ := by
  have hinc := m.asidTableInc_table r00 r01.toNat (r02 != 0) r03 vmidx
  unfold vmtrapNewmap
  split
  · next htype => exact .inl ⟨m, rfl, by simp [AsidTable.inc, htype], rfl⟩
  · rcases heq : m.asidTableInc r00 r01.toNat (r02 != 0) r03 vmidx with ⟨_ | j, m'⟩
    · rw [heq] at hinc
      exact .inl ⟨m', AsidTable.inc_eq_none hinc, by rw [hinc], rfl⟩
    · rw [heq] at hinc
      exact .inr ⟨j, m'.table, m'.asidTableDec ssrAsid, hinc, rfl, rfl⟩

end Newmap

end Mmu

namespace AsidTable

variable {table table' : AsidTable} {ptb : BitVec 32} {vmidx type : ℕ} {extra : BitVec 8}
  {j : BitVec 7}

theorem dec_same (asid : BitVec 7) (table : AsidTable) (j : BitVec 7) :
    (table.dec asid j).key = (table j).key ∧ (table.dec asid j).extra = (table j).extra := by
  by_cases hj : j = asid <;> simp [dec, hj, AsidEntry.key]

/-- The `extra` of the place that is given out: the old one, if there was one. -/
theorem extra_inc (h : inc ptb type extra vmidx table = (some j, table')) :
    (table' j).extra = if search ptb vmidx type table = none then extra else (table j).extra := by
  obtain ⟨-, ⟨hsearch, rfl⟩ | ⟨hsearch, -, -, rfl⟩⟩ := inc_some h <;> simp [hsearch]

end AsidTable

/-- **What newmap promises**: the address space the thread has now is the one it asked for, or it
has the one it had and as many references are counted to that. -/
def Newmap.Installs (r00 r01 r03 : BitVec 32) (vmidx : ℕ) (ssrAsid : BitVec 7) (table : AsidTable)
    (n : Newmap) : Prop :=
  (n.r00 = 0 → (n.mmu.table n.ssrAsid).ptb = r00 ∧
    (n.mmu.table n.ssrAsid).type.toNat = r01.toNat ∧
    (n.mmu.table n.ssrAsid).extra = r03.setWidth 8 ∧
    (n.mmu.table n.ssrAsid).vmid.toNat = vmidx) ∧
  (n.r00 = -1 → n.ssrAsid = ssrAsid ∧ (n.mmu.table ssrAsid).count = (table ssrAsid).count)

/-- **Newmap installs what was asked for** exactly if the address space is not in the table with
another `extra`. -/
theorem newmap_installs_iff {h : AsidHistory}
    (hh : Leads AsidHistory.step (fun c _ => c.Valid) .zeroed h) (tlb : ℕ → BitVec 64)
    (stlb : Option Stlb) (r00 r01 r02 r03 : BitVec 32) (vmidx : ℕ) (hpos : 1 ≤ vmidx)
    (hlt : vmidx < 64) (ssrAsid : BitVec 7) :
    (Mmu.vmtrapNewmap r00 r01 r02 r03 vmidx ssrAsid ⟨h.table, tlb, stlb⟩).Installs r00 r01 r03 vmidx
        ssrAsid h.table ↔
      ∀ j, h.assigned j = some ⟨r00, vmidx, r01.toNat⟩ → (h.table j).extra = r03.setWidth 8 := by
  have hr := AsidHistory.recorded_of_leads hh
  have hvm : vmidx ≠ 0 := Nat.one_le_iff_ne_zero.mp hpos
  have hassigned (j : BitVec 7) : h.assigned j = some ⟨r00, vmidx, r01.toNat⟩ ↔
      h.table.search r00 vmidx r01.toNat = some j := by
    rw [hr.assigned_iff, hr.searchable.search_iff hvm, and_iff_left hvm]
  simp only [hassigned]
  rcases Mmu.vmtrapNewmap_cases r00 r01 r02 r03 vmidx ssrAsid ⟨h.table, tlb, stlb⟩ with
    ⟨m', htable, hfail, hmk⟩ | ⟨j, table, m', hinc, htable, hmk⟩
  · -- no place is of the address space, if it is one at all
    have hnone : h.table.search r00 vmidx r01.toNat = none := by
      rcases (hr.searchable.inc_eq_none_iff hvm).mp hfail with htype | ⟨hno, -⟩
      · refine (hr.searchable.search_eq_none_iff hvm).mpr fun j hj => ?_
        exact (hr.type_lt j _ ((hr.assigned_iff j _).mpr ⟨hj, hvm⟩)).not_ge htype
      · exact (hr.searchable.search_eq_none_iff hvm).mpr hno
    rw [hmk, hnone]
    simp [Newmap.Installs, htable]
  · have htype := (AsidTable.inc_some hinc).1
    have hkey := AsidTable.key_inc htype hlt hinc
    obtain ⟨hsame, hextra⟩ := AsidTable.dec_same ssrAsid table j
    rw [hkey] at hsame
    rw [AsidTable.extra_inc hinc] at hextra
    have hentry : (m'.table j).ptb = r00 ∧ (m'.table j).type.toNat = r01.toNat ∧
        (m'.table j).vmid.toNat = vmidx := by
      rw [htable]
      exact ⟨congrArg AsidKey.ptb hsame, congrArg AsidKey.type hsame, congrArg AsidKey.vmidx hsame⟩
    obtain ⟨hptb, htype', hvmid⟩ := hentry
    have hinstalls : (⟨0, m', j⟩ : Newmap).Installs r00 r01 r03 vmidx ssrAsid h.table ↔
        (m'.table j).extra = r03.setWidth 8 := by
      simp [Newmap.Installs, hptb, htype', hvmid]
    rw [hmk, hinstalls, htable, hextra]
    rcases hsearch : h.table.search r00 vmidx r01.toNat with - | j'
    · simp
    · -- the place that is found is the one that is given out
      obtain ⟨-, ⟨hfound, -⟩ | ⟨hnone, -⟩⟩ := AsidTable.inc_some hinc
      · obtain rfl := Option.some.inj (hsearch.symm.trans hfound)
        simp
      · simp [hsearch] at hnone

/-- The boot VM starts with the identity and maps a table of variable radix, for 20 bits. -/
def mapped20 : List AsidCall :=
  [.inc identityOffset transTypeOffset 0 1, .inc 0x1000 3 20 1, .dec 22]

/-- Asked for the same with 22 bits it goes on with 20. -/
theorem newmap_keeps_extra : ∃ h : AsidHistory,
    Leads AsidHistory.step (fun c _ => c.Valid) .zeroed h ∧
    let n := Mmu.vmtrapNewmap 0x1000 3 0 22 1 59 ⟨h.table, fun _ => 0, none⟩
    n.r00 = 0 ∧ (n.mmu.table n.ssrAsid).extra = 20 ∧ ¬n.Installs 0x1000 3 22 1 59 h.table := by
  have hrun : ∃ h ∈ runIf AsidHistory.step (fun c _ => decide c.Valid) mapped20 .zeroed,
      let n := Mmu.vmtrapNewmap 0x1000 3 0 22 1 59 ⟨h.table, fun _ => 0, none⟩
      n.r00 = 0 ∧ (n.mmu.table n.ssrAsid).extra = 20 := by decide +kernel
  obtain ⟨h, hrun, hr, h20⟩ := hrun
  refine ⟨h, .of_runIf (fun _ _ => of_decide_eq_true) .init hrun, hr, h20, fun hinst => ?_⟩
  obtain ⟨-, -, hextra, -⟩ := hinst.1 hr
  rw [h20] at hextra
  exact absurd hextra (by decide)

/-- Another table is mapped as it should be. -/
theorem newmap_installs_another : ∃ h : AsidHistory,
    Leads AsidHistory.step (fun c _ => c.Valid) .zeroed h ∧
    (Mmu.vmtrapNewmap 0x2000 3 0 22 1 59 ⟨h.table, fun _ => 0, none⟩).Installs 0x2000 3 22 1 59
      h.table := by
  have hrun : ∃ h ∈ runIf AsidHistory.step (fun c _ => decide c.Valid) mapped20 .zeroed,
      ∀ j, h.assigned j ≠ some ⟨0x2000, 1, 3⟩ := by decide +kernel
  obtain ⟨h, hrun, hnew⟩ := hrun
  have hh := Leads.of_runIf (fun _ _ => of_decide_eq_true) .init hrun
  exact ⟨h, hh, (newmap_installs_iff hh (fun _ => 0) none 0x2000 3 0 22 1 le_rfl (by decide) 59).mpr
    fun j hj => absurd hj (hnew j)⟩

end H2
