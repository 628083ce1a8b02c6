import H2.Data.Readylist

/-!
# Mem/Safemem — a user's word, found in the TLB

The futex operations take an address in the caller's address space and go by the physical one.
`H2K_safemem_check_and_lock` looks it up in the TLB, which is locked until the word has been read;
an address that is not there, or not allowed, fails.  It keeps the lower word of the TLB entry only.
What it finds has no more than 35 bits — well within the 36 that a context has room for
(`safemem_lt`) — and is where the word is just if the upper word has none of the address
(`physical_of_low`).
-/

namespace H2

/-! ## The TLB entry -/

/-- `H2K_mem_tlbfmt_get_perms`: execute, write, read, user. -/
def tlbfmtPerms (entry : BitVec 64) : BitVec 32 := (entry.extractLsb' 28 4).setWidth 32

/-- `H2K_mem_tlbfmt_get_size`. -/
def tlbfmtSize (entry : BitVec 64) : ℕ := ct0 (entry.extractLsb' 0 32)

/-- The page number and the size bit below it, with the address bits kept elsewhere. -/
def tlbfmtPpd (entry : BitVec 64) : BitVec 64 :=
  (entry.extractLsb' 0 24).setWidth 64 ||| (entry.extractLsb' 61 1).setWidth 64 <<< 24 |||
    (entry.extractLsb' 59 2).setWidth 64 <<< 25

/-- `H2K_mem_tlbfmt_get_basepa`. -/
def tlbfmtBasepa (entry : BitVec 64) : BitVec 64 :=
  (tlbfmtPpd entry &&& (tlbfmtPpd entry - 1#64)) <<< 11

/-! ## The check -/

/-- `SAFEMEM_R`. -/
def safememR : BitVec 32 := 1

/-- `SAFEMEM_RW`. -/
def safememRw : BitVec 32 := 3

/-- An access to the caller's address space. -/
structure Access where
  /-- The address itself, … -/
  userVa : BitVec 32
  /-- … the TLB entry `H2K_mem_tlb_probe` finds for it, … -/
  probe : Option (BitVec 64)
  /-- … and whether the caller is in guest mode. -/
  guest : Bool

/-- The end of `H2K_safemem_check_and_lock`: the physical address, by an entry. -/
def Access.address (a : Access) (entry : BitVec 64) : ℕ :=
  let size := tlbfmtSize entry
  let baseaddr := tlbfmtBasepa entry &&& (-1#64 <<< (size * 2))
  let tmp := a.userVa &&& ((1#32 <<< (12 + size * 2)) - 1)
  (baseaddr ||| tmp.setWidth 64).toNat

/-- `H2K_safemem_check_and_lock`: the physical address, if the access is allowed. -/
def Access.safemem (perms : BitVec 32) (a : Access) : Option ℕ :=
  if a.userVa &&& 3 ≠ 0 then none
  else
    match a.probe with
    | none => none
    | some raw =>
      let entry := (raw.setWidth 32).setWidth 64
      let eperms := tlbfmtPerms entry
      if !(a.guest || eperms.getLsbD 0) then none
      else if perms &&& (eperms >>> 1) ≠ perms then none
      else some (a.address entry)

/-- Where the word is: the address by the whole entry. -/
def Access.physical (a : Access) : Option ℕ := a.probe.map a.address

/-- The upper word of the entry has none of the address bits (`pa35` and `pa3637`). -/
def Access.Low (a : Access) : Prop := ∀ raw ∈ a.probe, raw.extractLsb' 59 3 = 0

/-- **What is found** is the address by the lower word. -/
theorem safemem_eq_some {perms : BitVec 32} {a : Access} {pa : ℕ}
    (hpa : a.safemem perms = some pa) :
    ∃ raw, a.probe = some raw ∧ pa = a.address ((raw.setWidth 32).setWidth 64) := by
  unfold Access.safemem at hpa
  split at hpa
  · simp at hpa
  split at hpa
  · simp at hpa
  next raw hraw =>
  simp only at hpa
  split at hpa
  · simp at hpa
  split at hpa
  · simp at hpa
  exact ⟨raw, hraw, (Option.some.inj hpa).symm⟩

theorem tlbfmtPpd_setWidth (w : BitVec 32) :
    tlbfmtPpd (w.setWidth 64) = (w.extractLsb' 0 24).setWidth 64 := by
  have hhigh {n : ℕ} {i : ℕ} (hi : 32 ≤ i) : (w.setWidth 64).extractLsb' i n = 0#n := by
    ext j hj
    simp [BitVec.getLsbD_of_ge w (i + j) (by omega)]
  have hlow : (w.setWidth 64).extractLsb' 0 24 = w.extractLsb' 0 24 := by
    ext j hj
    simp [show j < 64 by omega]
  rw [tlbfmtPpd, hhigh (i := 61) (by decide), hhigh (i := 59) (by decide), hlow]
  simp

/-- **It is where the word is**, for an entry with no address bits in its upper word. -/
theorem physical_of_low {perms : BitVec 32} {a : Access} {pa : ℕ} (hlow : a.Low)
    (hpa : a.safemem perms = some pa) : a.physical = some pa := by
  obtain ⟨raw, hraw, rfl⟩ := safemem_eq_some hpa
  have hbits := hlow raw hraw
  have hbit (i : ℕ) (hi : i < 3) : raw.getLsbD (59 + i) = false := by
    have := congrArg (·.getLsbD i) hbits
    simpa [hi] using this
  have hsize : tlbfmtSize raw = tlbfmtSize ((raw.setWidth 32).setWidth 64) := by
    refine congrArg ct0 (BitVec.eq_of_getLsbD_eq fun i hi => ?_)
    simp [hi, show i < 64 by omega]
  have hppd : tlbfmtPpd raw = tlbfmtPpd ((raw.setWidth 32).setWidth 64) := by
    have h61 : raw.extractLsb' 61 1 = 0 := by
      ext j hj
      obtain rfl : j = 0 := by omega
      simpa using hbit 2 (by omega)
    have h59 : raw.extractLsb' 59 2 = 0 := by
      ext j hj
      simpa [hj] using hbit j (by omega)
    have h0 : raw.extractLsb' 0 24 = (raw.setWidth 32).extractLsb' 0 24 := by
      ext j hj
      simp [show j < 32 by omega]
    rw [tlbfmtPpd_setWidth, tlbfmtPpd, h61, h59, h0]
    simp
  rw [Access.physical, hraw, Option.map_some, Access.address, Access.address, hsize, tlbfmtBasepa,
    tlbfmtBasepa, hppd]

theorem toNat_tlbfmtBasepa_lt (w : BitVec 32) : (tlbfmtBasepa (w.setWidth 64)).toNat < 2 ^ 35 := by
  have hppd : (tlbfmtPpd (w.setWidth 64)).toNat < 2 ^ 24 := by
    rw [tlbfmtPpd_setWidth]
    simp
    omega
  rw [tlbfmtBasepa, BitVec.toNat_shiftLeft, BitVec.toNat_and, Nat.shiftLeft_eq]
  have := Nat.and_le_left (n := (tlbfmtPpd (w.setWidth 64)).toNat)
    (m := (tlbfmtPpd (w.setWidth 64) - 1#64).toNat)
  omega

/-- **The address found** fits the 36 bits that `futex_ptr` has room for. -/
theorem safemem_lt {perms : BitVec 32} {a : Access} {pa : ℕ} (hpa : a.safemem perms = some pa) :
    pa < 0x1000000000 := by
  obtain ⟨raw, -, rfl⟩ := safemem_eq_some hpa
  refine lt_trans (Nat.or_lt_two_pow (n := 35) ?_ ?_) (by decide)
  · exact Nat.and_le_left.trans_lt (toNat_tlbfmtBasepa_lt _)
  · rw [BitVec.toNat_setWidth]
    exact (Nat.mod_le _ _).trans_lt ((BitVec.isLt _).trans (by decide))

end H2
