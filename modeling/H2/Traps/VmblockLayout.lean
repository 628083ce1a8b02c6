import H2.Machinery.Tiling
import H2.Traps.VmblockInit

/-!
# Traps/VmblockLayout — what is inside a VM block

A VM block is one piece of memory: the block itself, the contexts of its cpus, and what it needs for
its interrupts.  How much is asked for is computed by one set of macros (`vmblockSize`), and what is
where by moving a pointer (`pieces`, `place`).

The two agree, nothing wraps, and nothing overlaps.  But the extended contexts, which are for vector
registers and are declared to be 128-byte aligned, come right after contexts that are 32-byte
aligned in memory that is, too.  They are aligned by accident or not at all (`vmblock_laidOut_iff`).
-/

namespace H2

open BitVec

/-! ## Sizes -/

/-- The sizes of the structures that depend on how the kernel is built. -/
structure VmblockSizes where
  /-- `sizeof(H2K_vmblock_t)`. -/
  vmblock : BitVec 32
  /-- `sizeof(H2K_thread_context)`. -/
  context : BitVec 32
  /-- Both are 32-byte aligned, … -/
  vmblock_dvd : 32 ∣ vmblock.toNat
  context_dvd : 32 ∣ context.toNat
  /-- … and not larger than a page. -/
  vmblock_le : vmblock.toNat ≤ 4096
  context_le : context.toNat ≤ 4096

/-- `sizeof(H2K_ext_context)`: 32 vector registers and 32 words. -/
def sizeofExtContext : BitVec 32 := 4224

/-- `sizeof(H2K_vm_int_opinfo_t)`. -/
def sizeofOpinfo : BitVec 32 := 8

/-- `H2K_VMBLOCK_ALIGN` and `H2K_CONTEXT_ALIGN`. -/
def vmblockAlign : ℕ := 32

/-- `H2K_EXTCONTEXT_ALIGN`. -/
def extcontextAlign : ℕ := 128

/-- `ROUND`. -/
def roundUnit (expr : BitVec 32) : BitVec 32 := (expr + 4 - 1) / 4 * 4

section Macros

variable (S : VmblockSizes) (cpus ints : BitVec 32)

/-- `CONTEXT_SPACE`. -/
def contextSpace : BitVec 32 := roundUnit (cpus * S.context)

/-- `EXT_CONTEXT_SPACE`. -/
def extContextSpace : BitVec 32 := roundUnit (cpus * sizeofExtContext)

/-- `INTINFO_SPACE`. -/
def intinfoSpace : BitVec 32 := (if 0 < ints then 3 else 2) * sizeofOpinfo

/-- `MASKPTR_SPACE`. -/
def maskptrSpace : BitVec 32 := if 0 < ints then roundUnit (cpus * 4) else 0

/-- `MASK_WORDS_PERCPU`, `PENDING_WORDS` and `ENABLE_WORDS`. -/
def maskWordsPercpu : BitVec 32 := (ints + 32 - 1) / 32

/-- `MASK_SPACE`. -/
def maskSpace : BitVec 32 := roundUnit (cpus * maskWordsPercpu ints * 4)

/-- `PENDING_SPACE` and `ENABLE_SPACE`. -/
def pendingSpace : BitVec 32 := roundUnit (maskWordsPercpu ints * 4)

/-- `PHYSINT_SPACE`. -/
def physintSpace (ints : BitVec 32) : BitVec 32 := roundUnit ((ints + 2 - 1) / 2 * 4)

/-- `VMBLOCK_SIZE`. -/
def vmblockSize (ext : Bool) : BitVec 32 :=
  S.vmblock + contextSpace S cpus + intinfoSpace ints + maskptrSpace cpus ints +
    maskSpace cpus ints + pendingSpace ints + pendingSpace ints + physintSpace (ints + 16) +
    (if ext then extContextSpace cpus else 0) + (BitVec.ofNat 32 vmblockAlign - 1)

end Macros

/-! ## Where things are -/

/-- A part of the block. -/
structure Piece where
  /-- What its elements take. -/
  bytes : ℕ
  /-- What the pointer is moved by. -/
  space : BitVec 32
  /-- How its elements are to be aligned. -/
  align : ℕ
  deriving DecidableEq

/-- The parts for interrupts. -/
def intPieces (cpus ints : BitVec 32) : List Piece :=
  ⟨(if 0 < ints then 3 else 2) * sizeofOpinfo.toNat, intinfoSpace ints, 4⟩ ::
  ((if 0 < ints then
    [⟨cpus.toNat * 4, maskptrSpace cpus ints, 4⟩,
      ⟨cpus.toNat * ((ints.toNat + 31) / 32) * 4, maskSpace cpus ints, 4⟩,
      ⟨(ints.toNat + 31) / 32 * 4, pendingSpace ints, 4⟩,
      ⟨(ints.toNat + 31) / 32 * 4, pendingSpace ints, 4⟩]
    else []) ++
  [⟨(ints.toNat + 16) * 2, physintSpace (ints + 16), 2⟩])

/-- **The parts**, in the order of `H2K_config_vmblock_init_cpus_ints`. -/
def pieces (S : VmblockSizes) (cpus ints : BitVec 32) (ext : Bool) : List Piece :=
  ⟨S.vmblock.toNat, S.vmblock, vmblockAlign⟩ ::
  ⟨cpus.toNat * S.context.toNat, cpus * S.context, vmblockAlign⟩ ::
  ((if ext then [⟨cpus.toNat * sizeofExtContext.toNat, cpus * sizeofExtContext, extcontextAlign⟩]
    else []) ++
  intPieces cpus ints)

/-- The parts, each where the pointer is when it is reached. -/
def place : BitVec 32 → List Piece → List (BitVec 32 × Piece)
  | _, [] => []
  | ptrtmp, c :: cs => (ptrtmp, c) :: place (ptrtmp + c.space) cs

/-- What is asked for, as a number. -/
def vmblockBytes (S : VmblockSizes) (cpus ints : ℕ) (ext : Bool) : ℕ :=
  S.vmblock.toNat + cpus * S.context.toNat + (if 0 < ints then 3 else 2) * 8 +
    (if 0 < ints then cpus * 4 else 0) + cpus * ((ints + 31) / 32) * 4 + (ints + 31) / 32 * 4 +
    (ints + 31) / 32 * 4 + (ints + 17) / 2 * 4 + (if ext then cpus * 4224 else 0) + 31

/-- **The block is laid out well**: the size is what it should be, and the parts are apart, inside,
and aligned.  There are extended contexts if they are wanted and there are vector registers. -/
structure VmblockLaidOut (S : VmblockSizes) (vmblock cpus ints : BitVec 32)
    (useExt haveHvx : Bool) : Prop where
  exact : (vmblockSize S cpus ints useExt).toNat = vmblockBytes S cpus.toNat ints.toNat useExt
  apart : (place vmblock (pieces S cpus ints (useExt && haveHvx))).Pairwise fun a b =>
    a.1.toNat + a.2.bytes ≤ b.1.toNat
  inside : ∀ a ∈ place vmblock (pieces S cpus ints (useExt && haveHvx)),
    vmblock.toNat ≤ a.1.toNat ∧
      a.1.toNat + a.2.bytes ≤ vmblock.toNat + (vmblockSize S cpus ints useExt).toNat
  aligned : ∀ a ∈ place vmblock (pieces S cpus ints (useExt && haveHvx)), a.2.align ∣ a.1.toNat

/-! ## Rows of parts -/

/-- The parts in a row are apart and inside, if the pointer does not wrap. -/
theorem place_spec : ∀ {cs : List Piece} {p : BitVec 32},
    p.toNat + extent (fun c => c.space.toNat) cs < 2 ^ 32 → (∀ c ∈ cs, c.bytes ≤ c.space.toNat) →
    ((place p cs).Pairwise fun a b => a.1.toNat + a.2.bytes ≤ b.1.toNat) ∧
      ∀ a ∈ place p cs, p.toNat ≤ a.1.toNat ∧
        a.1.toNat + a.2.bytes ≤ p.toNat + extent (fun c => c.space.toNat) cs
  | [], _, _, _ => ⟨.nil, by simp [place]⟩
  | c :: cs, p, hfit, hbytes => by
    rw [extent_cons] at hfit ⊢
    have hnext : (p + c.space).toNat = p.toNat + c.space.toNat := by
      rw [toNat_add, Nat.mod_eq_of_lt (by omega)]
    have hc := hbytes c (by simp)
    have hbytes' : ∀ d ∈ cs, d.bytes ≤ d.space.toNat := fun d hd => hbytes d (by simp [hd])
    obtain ⟨hpair, hall⟩ := place_spec (p := p + c.space) (by omega) hbytes'
    refine ⟨.cons (fun a ha => ?_) hpair, fun a ha => ?_⟩
    · have := hall a ha
      dsimp only
      omega
    · rcases List.mem_cons.mp ha with rfl | ha
      · dsimp only
        omega
      · have := hall a ha
        omega

/-- Parts whose sizes are aligned keep the pointer aligned. -/
theorem place_dvd {d : ℕ} (hd : d ∣ 2 ^ 32) : ∀ {cs : List Piece} {p : BitVec 32}, d ∣ p.toNat →
    (∀ c ∈ cs, d ∣ c.space.toNat) → ∀ a ∈ place p cs, d ∣ a.1.toNat
  | [], _, _, _, a, ha => by cases ha
  | c :: cs, p, hp, hspace, a, ha => by
    rcases List.mem_cons.mp ha with rfl | ha
    · exact hp
    · refine place_dvd hd ?_ (fun e he => hspace e (by simp [he])) a ha
      rw [toNat_add, Nat.dvd_mod_iff hd]
      exact Nat.dvd_add hp (hspace c (by simp))

theorem mem_of_mem_place : ∀ {cs : List Piece} {p : BitVec 32} {a : BitVec 32 × Piece},
    a ∈ place p cs → a.2 ∈ cs
  | c :: cs, p, a, ha => by
    rcases List.mem_cons.mp ha with rfl | ha
    · exact List.mem_cons_self ..
    · exact List.mem_cons_of_mem _ (mem_of_mem_place ha)

/-! ## What the macros give -/

section Exact

variable {S : VmblockSizes} {cpus ints : BitVec 32}

theorem toNat_mul_of_lt {x y : BitVec 32} {m n : ℕ} (hx : x.toNat = m) (hy : y.toNat = n)
    (h : m * n < 2 ^ 32) : (x * y).toNat = m * n := by
  rw [toNat_mul, hx, hy, Nat.mod_eq_of_lt h]

theorem toNat_add_of_lt {x y : BitVec 32} {m n : ℕ} (hx : x.toNat = m) (hy : y.toNat = n)
    (h : m + n < 2 ^ 32) : (x + y).toNat = m + n := by
  rw [toNat_add, hx, hy, Nat.mod_eq_of_lt h]

theorem toNat_roundUnit {x : BitVec 32} (h : x.toNat + 4 < 2 ^ 32) :
    (roundUnit x).toNat = (x.toNat + 3) / 4 * 4 := by
  have h1 : (1 : BitVec 32).toNat = 1 := rfl
  have h4 : (4 : BitVec 32).toNat = 4 := rfl
  have hsum : (x + 4 - 1).toNat = x.toNat + 3 := by
    rw [toNat_sub, toNat_add, h1, h4]
    omega
  rw [roundUnit, toNat_mul, toNat_udiv, hsum, h4]
  omega

variable (hcpus : cpus.toNat ≤ h2kIdMaxCpus) (hints : ints.toNat ≤ maxVmInts)

section Cpus
include hcpus

theorem toNat_mul_context : (cpus * S.context).toNat = cpus.toNat * S.context.toNat ∧
    cpus.toNat * S.context.toNat ≤ 2 ^ 28 := by
  have hle : cpus.toNat * S.context.toNat ≤ 2 ^ 16 * 2 ^ 12 := Nat.mul_le_mul hcpus S.context_le
  exact ⟨toNat_mul_of_lt rfl rfl (by omega), by omega⟩

theorem toNat_contextSpace : (contextSpace S cpus).toNat = cpus.toNat * S.context.toNat := by
  obtain ⟨hmul, hle⟩ := toNat_mul_context (S := S) hcpus
  have hdvd : 4 ∣ cpus.toNat * S.context.toNat :=
    Dvd.dvd.mul_left ((by decide : 4 ∣ 32).trans S.context_dvd) _
  rw [contextSpace, toNat_roundUnit (by omega), hmul]
  omega

theorem toNat_extContext : (cpus * sizeofExtContext).toNat = cpus.toNat * 4224 := by
  have : cpus.toNat ≤ 65536 := hcpus
  exact toNat_mul_of_lt rfl rfl (by omega)

theorem toNat_extContextSpace : (extContextSpace cpus).toNat = cpus.toNat * 4224 := by
  have hmul := toNat_extContext hcpus
  rw [extContextSpace, toNat_roundUnit (by omega), hmul]
  omega

theorem toNat_maskptrSpace (ints : BitVec 32) :
    (maskptrSpace cpus ints).toNat = if 0 < ints.toNat then cpus.toNat * 4 else 0 := by
  have : cpus.toNat ≤ 65536 := hcpus
  have hmul : (cpus * 4).toNat = cpus.toNat * 4 := toNat_mul_of_lt rfl rfl (by omega)
  have hlt : 0 < ints ↔ 0 < ints.toNat := lt_def
  unfold maskptrSpace
  by_cases hpos : 0 < ints.toNat
  · rw [if_pos (hlt.mpr hpos), if_pos hpos, toNat_roundUnit (by omega), hmul]
    omega
  · rw [if_neg (mt hlt.mp hpos), if_neg hpos]
    rfl

end Cpus

theorem toNat_intinfoSpace (ints : BitVec 32) :
    (intinfoSpace ints).toNat = (if 0 < ints then 3 else 2) * 8 := by
  unfold intinfoSpace
  split <;> rfl

section Ints
include hints

theorem toNat_maskWordsPercpu : (maskWordsPercpu ints).toNat = (ints.toNat + 31) / 32 ∧
    (ints.toNat + 31) / 32 ≤ 2048 := by
  have h1 : (1 : BitVec 32).toNat = 1 := rfl
  have h32 : (32 : BitVec 32).toNat = 32 := rfl
  have : ints.toNat ≤ 65535 := hints
  have hsum : (ints + 32 - 1).toNat = ints.toNat + 31 := by
    rw [toNat_sub, toNat_add, h1, h32]
    omega
  rw [maskWordsPercpu, toNat_udiv, hsum, h32]
  exact ⟨rfl, by omega⟩

theorem toNat_pendingSpace : (pendingSpace ints).toNat = (ints.toNat + 31) / 32 * 4 := by
  obtain ⟨hwords, -⟩ := toNat_maskWordsPercpu hints
  have hmul : (maskWordsPercpu ints * 4).toNat = (ints.toNat + 31) / 32 * 4 :=
    toNat_mul_of_lt hwords rfl (by omega)
  rw [pendingSpace, toNat_roundUnit (by omega), hmul]
  omega

theorem toNat_physintSpace : (physintSpace (ints + 16)).toNat = (ints.toNat + 17) / 2 * 4 := by
  have h1 : (1 : BitVec 32).toNat = 1 := rfl
  have h2 : (2 : BitVec 32).toNat = 2 := rfl
  have h4 : (4 : BitVec 32).toNat = 4 := rfl
  have h16 : (16 : BitVec 32).toNat = 16 := rfl
  have : ints.toNat ≤ 65535 := hints
  have hsum : (ints + 16 + 2 - 1).toNat = ints.toNat + 17 := by
    rw [toNat_sub, toNat_add, toNat_add, h1, h2, h16]
    omega
  have hmul : ((ints + 16 + 2 - 1) / 2 * 4).toNat = (ints.toNat + 17) / 2 * 4 := by
    rw [toNat_mul, toNat_udiv, hsum, h2, h4]
    omega
  rw [physintSpace, toNat_roundUnit (by omega), hmul]
  omega

include hcpus

theorem toNat_maskSpace : (maskSpace cpus ints).toNat = cpus.toNat * ((ints.toNat + 31) / 32) * 4 ∧
    cpus.toNat * ((ints.toNat + 31) / 32) ≤ 2 ^ 27 := by
  obtain ⟨hwords, hle⟩ := toNat_maskWordsPercpu hints
  have hprod : cpus.toNat * ((ints.toNat + 31) / 32) ≤ 2 ^ 16 * 2 ^ 11 := Nat.mul_le_mul hcpus hle
  have hmul : (cpus * maskWordsPercpu ints).toNat = cpus.toNat * ((ints.toNat + 31) / 32) :=
    toNat_mul_of_lt rfl hwords (by omega)
  have hmul4 : (cpus * maskWordsPercpu ints * 4).toNat =
      cpus.toNat * ((ints.toNat + 31) / 32) * 4 := toNat_mul_of_lt hmul rfl (by omega)
  rw [maskSpace, toNat_roundUnit (by omega), hmul4]
  exact ⟨by omega, by omega⟩

/-- **The size does not wrap.** -/
theorem toNat_vmblockSize (ext : Bool) :
    (vmblockSize S cpus ints ext).toNat = vmblockBytes S cpus.toNat ints.toNat ext := by
  have hc : cpus.toNat ≤ 65536 := hcpus
  have hn : ints.toNat ≤ 65535 := hints
  have hvm := S.vmblock_le
  have hctxle := (toNat_mul_context (S := S) hcpus).2
  obtain ⟨hmask, hmaskle⟩ := toNat_maskSpace hcpus hints
  have hinfo : (intinfoSpace ints).toNat = (if 0 < ints.toNat then 3 else 2) * 8 := by
    rw [toNat_intinfoSpace]
    rfl
  have hext : (if ext then extContextSpace cpus else 0).toNat =
      if ext then cpus.toNat * 4224 else 0 := by
    cases ext
    · rfl
    · exact toNat_extContextSpace hcpus
  have hinfole : (if 0 < ints.toNat then 3 else 2) * 8 ≤ 24 := by split <;> decide
  have hptrle : (if 0 < ints.toNat then cpus.toNat * 4 else 0) ≤ 2 ^ 18 := by split <;> omega
  have hextle : (if ext then cpus.toNat * 4224 else 0) ≤ 2 ^ 29 := by split <;> omega
  -- no partial sum reaches the end
  have h₁ := toNat_add_of_lt (Eq.refl S.vmblock.toNat) (toNat_contextSpace (S := S) hcpus)
    (by omega)
  have h₂ := toNat_add_of_lt h₁ hinfo (by omega)
  have h₃ := toNat_add_of_lt h₂ (toNat_maskptrSpace hcpus ints) (by omega)
  have h₄ := toNat_add_of_lt h₃ hmask (by omega)
  have h₅ := toNat_add_of_lt h₄ (toNat_pendingSpace hints) (by omega)
  have h₆ := toNat_add_of_lt h₅ (toNat_pendingSpace hints) (by omega)
  have h₇ := toNat_add_of_lt h₆ (toNat_physintSpace hints) (by omega)
  have h₈ := toNat_add_of_lt h₇ hext (by omega)
  exact toNat_add_of_lt h₈ rfl (by omega)

/-- The parts for interrupts come in words, and are large enough. -/
theorem intPieces_spec : (∀ c ∈ intPieces cpus ints, 4 ∣ c.space.toNat ∧ c.bytes ≤ c.space.toNat ∧
      c.align ∣ 4) ∧
    extent (fun c : Piece => c.space.toNat) (intPieces cpus ints) =
      (if 0 < ints.toNat then 3 else 2) * 8 + (if 0 < ints.toNat then cpus.toNat * 4 else 0) +
        cpus.toNat * ((ints.toNat + 31) / 32) * 4 + (ints.toNat + 31) / 32 * 4 +
        (ints.toNat + 31) / 32 * 4 + (ints.toNat + 17) / 2 * 4 := by
  have hinfo := toNat_intinfoSpace ints
  have hptr := toNat_maskptrSpace hcpus ints
  have hmask := (toNat_maskSpace hcpus hints).1
  have hpend := toNat_pendingSpace hints
  have hphys := toNat_physintSpace hints
  have hop : sizeofOpinfo.toNat = 8 := rfl
  have hlt : 0 < ints ↔ 0 < ints.toNat := lt_def
  unfold intPieces
  by_cases hpos : 0 < ints.toNat
  · rw [if_pos (hlt.mpr hpos)] at hinfo
    simp only [hlt, hpos, if_true, List.cons_append, List.nil_append, List.mem_cons,
      List.not_mem_nil,
      or_false, forall_eq_or_imp, forall_eq, extent_cons, extent_nil, hinfo, hptr, hmask,
        hpend, hphys, hop]
    omega
  · have hzero : ints.toNat = 0 := Nat.eq_zero_of_not_pos hpos
    simp only [hlt, hzero, Nat.lt_irrefl, if_false, List.nil_append, List.mem_cons,
      List.not_mem_nil,
      or_false, forall_eq_or_imp, forall_eq, extent_cons, extent_nil, hinfo, hphys, hop]
    omega

theorem pieces_spec (ext : Bool) : (∀ c ∈ pieces S cpus ints ext, c.bytes ≤ c.space.toNat) ∧
    extent (fun c : Piece => c.space.toNat) (pieces S cpus ints ext) + 31 =
      vmblockBytes S cpus.toNat ints.toNat ext := by
  obtain ⟨hint, hextent⟩ := intPieces_spec hcpus hints
  have hctx := (toNat_mul_context (S := S) hcpus).1
  have hext := toNat_extContext hcpus
  have hsize : sizeofExtContext.toNat = 4224 := rfl
  unfold pieces vmblockBytes
  cases ext with
  | false =>
    simp only [Bool.false_eq_true, if_false, List.nil_append, List.forall_mem_cons,
      extent_cons, hctx, hextent]
    exact ⟨⟨le_rfl, le_rfl, fun c hc => (hint c hc).2.1⟩, by omega⟩
  | true =>
    simp only [if_true, List.cons_append, List.nil_append, List.forall_mem_cons,
      extent_cons, hctx, hext, hsize, hextent]
    exact ⟨⟨le_rfl, le_rfl, le_rfl, fun c hc => (hint c hc).2.1⟩, by omega⟩

end Ints

theorem toNat_extContexts {vmblock : BitVec 32} (hcpus : cpus.toNat ≤ h2kIdMaxCpus)
    (hfits : vmblock.toNat + vmblockBytes S cpus.toNat ints.toNat false ≤ 2 ^ 32) :
    (vmblock + S.vmblock).toNat = vmblock.toNat + S.vmblock.toNat ∧
      (vmblock + S.vmblock + cpus * S.context).toNat =
        vmblock.toNat + S.vmblock.toNat + cpus.toNat * S.context.toNat := by
  unfold vmblockBytes at hfits
  have h₁ := toNat_add_of_lt (Eq.refl vmblock.toNat) (Eq.refl S.vmblock.toNat) (by omega)
  exact ⟨h₁, toNat_add_of_lt h₁ (toNat_mul_context hcpus).1 (by omega)⟩

/-- **Only the extended contexts may be misaligned.** -/
theorem place_pieces_aligned_iff {vmblock : BitVec 32} (hcpus : cpus.toNat ≤ h2kIdMaxCpus)
    (hints : ints.toNat ≤ maxVmInts) (halign : 32 ∣ vmblock.toNat)
    (hfits : vmblock.toNat + vmblockBytes S cpus.toNat ints.toNat false ≤ 2 ^ 32) (ext : Bool) :
    (∀ a ∈ place vmblock (pieces S cpus ints ext), a.2.align ∣ a.1.toNat) ↔
      (ext = true → 128 ∣ vmblock.toNat + S.vmblock.toNat + cpus.toNat * S.context.toNat) := by
  obtain ⟨hint, -⟩ := intPieces_spec hcpus hints
  obtain ⟨hcontexts, hafter⟩ := toNat_extContexts hcpus hfits
  have hctx : vmblockAlign ∣ (vmblock + S.vmblock).toNat :=
    hcontexts ▸ Nat.dvd_add halign S.vmblock_dvd
  have hdvd : 32 ∣ (vmblock + S.vmblock + cpus * S.context).toNat := by
    rw [hafter]
    exact Nat.dvd_add (Nat.dvd_add halign S.vmblock_dvd) (Dvd.dvd.mul_left S.context_dvd _)
  -- from a place that is aligned on, the parts for interrupts are
  have hrest {p : BitVec 32} (hp : 4 ∣ p.toNat) :
      ∀ a ∈ place p (intPieces cpus ints), a.2.align ∣ a.1.toNat := by
    intro a ha
    have hmem : a.2 ∈ intPieces cpus ints := mem_of_mem_place ha
    exact (hint a.2 hmem).2.2.trans (place_dvd (by decide) hp (fun c hc => (hint c hc).1) a ha)
  cases ext with
  | false =>
    simp only [pieces, place, Bool.false_eq_true, if_false, List.nil_append, List.forall_mem_cons,
      false_imp_iff, iff_true]
    exact ⟨halign, hctx, hrest ((by decide : 4 ∣ 32).trans hdvd)⟩
  | true =>
    simp only [pieces, place, if_true, List.cons_append, List.nil_append,
      List.forall_mem_cons, ← hafter, forall_const]
    refine ⟨fun h => h.2.2.1, fun h => ⟨halign, hctx, h, hrest ?_⟩⟩
    rw [toNat_add, Nat.dvd_mod_iff (by decide), toNat_extContext hcpus]
    omega

end Exact

theorem vmblockBytes_le (S : VmblockSizes) (cpus ints : ℕ) (useExt haveHvx : Bool) :
    vmblockBytes S cpus ints false ≤ vmblockBytes S cpus ints useExt ∧
      vmblockBytes S cpus ints (useExt && haveHvx) ≤ vmblockBytes S cpus ints useExt := by
  unfold vmblockBytes
  cases useExt with
  | false => exact ⟨le_rfl, le_rfl⟩
  | true => cases haveHvx <;> simp

/-- **A VM block is laid out well if and only if it has no extended contexts, or they happen to be
aligned** — for every number of cpus and interrupts, wherever in memory. -/
theorem vmblock_laidOut_iff (S : VmblockSizes) {vmblock cpus ints : BitVec 32}
    (useExt haveHvx : Bool) (hcpus : cpus.toNat ≤ h2kIdMaxCpus) (hints : ints.toNat ≤ maxVmInts)
    (halign : 32 ∣ vmblock.toNat)
    (hfits : vmblock.toNat + (vmblockSize S cpus ints useExt).toNat ≤ 2 ^ 32) :
    VmblockLaidOut S vmblock cpus ints useExt haveHvx ↔ ((useExt && haveHvx) = true →
        128 ∣ vmblock.toNat + S.vmblock.toNat + cpus.toNat * S.context.toNat) := by
  have hexact := toNat_vmblockSize (S := S) hcpus hints useExt
  obtain ⟨hless, hmore⟩ := vmblockBytes_le S cpus.toNat ints.toNat useExt haveHvx
  obtain ⟨hbytes, hextent⟩ := pieces_spec (S := S) hcpus hints (useExt && haveHvx)
  obtain ⟨hapart, hinside⟩ := place_spec (p := vmblock) (by omega) hbytes
  rw [← place_pieces_aligned_iff hcpus hints halign (by omega)]
  refine ⟨fun h => h.aligned, fun h => ⟨hexact, hapart, fun a ha => ?_, h⟩⟩
  have := hinside a ha
  omega

/-- The sizes of a build for version 68. -/
def v68Sizes : VmblockSizes := ⟨192, 320, by decide, by decide, by decide, by decide⟩

/-- One cpu, at a page: the extended context is aligned. -/
theorem vmblock_laidOut_page : VmblockLaidOut v68Sizes 0x1000 1 32 true true :=
  (vmblock_laidOut_iff v68Sizes true true (by decide) (by decide) (by decide) (by decide)).mpr
    fun _ => by decide

/-- One cpu, at the next place the allocator may return: it is not. -/
theorem vmblock_misaligned :
    (0x1220, (⟨4224, 4224, 128⟩ : Piece)) ∈ place 0x1020 (pieces v68Sizes 1 32 true) ∧
      ¬VmblockLaidOut v68Sizes 0x1020 1 32 true true := by
  have hmem : (0x1220, (⟨4224, 4224, 128⟩ : Piece)) ∈ place 0x1020 (pieces v68Sizes 1 32 true) := by
    decide
  exact ⟨hmem, fun h => absurd (h.aligned _ hmem) (by decide)⟩

end H2
