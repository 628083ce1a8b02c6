import H2.Machinery.Bytes

/-!
# Booter/Load — the segments of a guest

The booter loads a guest from an ELF file: for every program header of type `PT_LOAD` it reads the
contents from the file to where the segment goes, with as many reads as the host makes of it, and
clears the rest of the segment.

Before it reads, it raises the size in the file to the size in memory.  So it reads as much as the
segment has room for, and there is nothing left to clear: what should be zero is what follows in the
file, or what was in memory if the file ends there.  A program header that the host delivers in
pieces is passed over, and with it its segment.  Apart from that the loop is right, for every way
the host splits the reads (`loadSegments_correct_iff`).
-/

namespace H2.Booter

open BitVec (ofNat)

abbrev Byte := BitVec 8

/-- What is at every address. -/
abbrev Memory := BitVec 32 → Byte

/-! ## The file -/

/-- `Elf32_Phdr`, as far as the loop reads it. -/
structure Phdr where
  type : BitVec 32
  offset : BitVec 32
  paddr : BitVec 32
  filesz : BitVec 32
  memsz : BitVec 32
  deriving DecidableEq

/-- `Elf32_Ehdr`, as far as the loop reads it. -/
structure Ehdr where
  phoff : BitVec 32
  phentsize : BitVec 16
  phnum : BitVec 16

/-- `PT_LOAD`. -/
def ptLoad : BitVec 32 := 1

/-- `sizeof(Elf32_Phdr)`. -/
def phdrSize : ℕ := 32

/-- A word of a header. -/
def leWord (bytes : List Byte) (k : ℕ) : BitVec 32 :=
  bytes.getD (k + 3) 0 ++ bytes.getD (k + 2) 0 ++ bytes.getD (k + 1) 0 ++ bytes.getD k 0

/-- A program header from its bytes. -/
def Phdr.ofBytes (bytes : List Byte) : Phdr where
  type := leWord bytes 0
  offset := leWord bytes 4
  paddr := leWord bytes 12
  filesz := leWord bytes 16
  memsz := leWord bytes 20

/-- Where program header `i` is. -/
def Ehdr.phdrPos (ehdr : Ehdr) (i : ℕ) : ℕ :=
  (ehdr.phoff + ofNat 32 (i * ehdr.phentsize.toNat)).toNat

/-- How the host splits the reads: of every read, how much it delivers at once. -/
structure Host where
  /-- For the read of program header `i`, … -/
  phdr : ℕ → ℕ
  /-- … and for every read of segment `i`. -/
  segment : ℕ → ℕ → ℕ

/-- `read`: what comes of `want` bytes when the file has `left`, and the host delivers `limit` at
most. Something comes if there is something. -/
def readSome (limit want left : ℕ) : ℕ :=
  if want = 0 ∨ left = 0 then 0 else max 1 (min limit (min want left))

/-! ## The loop -/

section Loop

variable (file : List Byte) (ehdr : Ehdr) (host : Host) (guestBase : BitVec 32)

/-- `elf_get_phdr`. -/
def elfGetPhdr (i : ℕ) : Option Phdr :=
  let pos := ehdr.phdrPos i
  if readSome (host.phdr i) phdrSize (file.length - pos) = phdrSize then
    some (Phdr.ofBytes ((file.drop pos).take phdrSize))
  else none

/-- The loop of reads: to `paddr`, `filesz` bytes of the file from `offset` on. -/
def readLoop (limit : ℕ → ℕ) (offset : ℕ) (paddr : BitVec 32) (filesz : ℕ) :
    ℕ → ℕ → ℕ → Memory → Memory
  | 0, _, _, mem => mem
  | fuel + 1, reads, bytesRead, mem =>
    let ret := readSome (limit reads) (filesz - bytesRead) (file.length - (offset + bytesRead))
    let mem' := writeAt mem (paddr + ofNat 32 bytesRead)
      ((file.drop (offset + bytesRead)).take ret)
    if 0 < ret then readLoop limit offset paddr filesz fuel (reads + 1) (bytesRead + ret) mem'
    else mem'

/-- `memset` to 0. -/
def clear (mem : Memory) (start count : BitVec 32) : Memory :=
  fun x => if x - start < count then 0 else mem x

/-- The memory, and the VM's `load_offset`. -/
structure State where
  mem : Memory
  loadOffset : BitVec 32

/-- The VM's `load_offset` when a segment is loaded: that of the first if it is not set. -/
def setOffset (loadOffset paddr : BitVec 32) : BitVec 32 :=
  if loadOffset = -1 then guestBase - paddr else loadOffset

/-- One round of the segment loop of `load_vm`. -/
def loadSegment (i : ℕ) (s : State) : State :=
  match elfGetPhdr file ehdr host i with
  | none => s
  | some phdr =>
    if phdr.memsz = 0 then s
    else if phdr.type ≠ ptLoad then s
    else
      let filesz := if phdr.filesz < phdr.memsz then phdr.memsz else phdr.filesz
      let loadOffset := setOffset guestBase s.loadOffset phdr.paddr
      let paddr := phdr.paddr + loadOffset
      let mem := readLoop file (host.segment i) phdr.offset.toNat paddr filesz.toNat
        (filesz.toNat + 1) 0 0 s.mem
      { mem := clear mem (paddr + filesz) (phdr.memsz - filesz), loadOffset }

/-- The loop, up to program header `n`. -/
def loadSegments : ℕ → State → State
  | 0, s => s
  | n + 1, s => loadSegment file ehdr host guestBase n (loadSegments n s)

end Loop

/-! ## What the file says -/

/-- Program header `i`, if the file has it. -/
def programHeader (file : List Byte) (ehdr : Ehdr) (i : ℕ) : Option Phdr :=
  if phdrSize ≤ file.length - ehdr.phdrPos i then
    some (Phdr.ofBytes ((file.drop (ehdr.phdrPos i)).take phdrSize))
  else none

/-- An ELF file: the contents of every segment are in the file, and the segment has room for
them. -/
structure ElfFile where
  bytes : List Byte
  ehdr : Ehdr
  valid : ∀ i < ehdr.phnum.toNat, ∀ phdr ∈ programHeader bytes ehdr i, phdr.type = ptLoad →
    phdr.filesz ≤ phdr.memsz ∧ phdr.offset.toNat + phdr.filesz.toNat ≤ bytes.length

namespace ElfFile

variable (e : ElfFile) (host : Host) (guestBase : BitVec 32) (s : State)

/-- `phdr` is program header `i`, of a segment to load. -/
def Segment (i : ℕ) (phdr : Phdr) : Prop :=
  i < e.ehdr.phnum.toNat ∧ programHeader e.bytes e.ehdr i = some phdr ∧ phdr.type = ptLoad

/-- What is at a distance from the start of a segment. -/
def contents (phdr : Phdr) (d : ℕ) : Byte :=
  if d < phdr.filesz.toNat then e.bytes.getD (phdr.offset.toNat + d) 0 else 0

/-- The state after the first `n` rounds. -/
def after (n : ℕ) : State := loadSegments e.bytes e.ehdr host guestBase n s

/-- Where segment `i` is loaded. -/
def loadAddr (i : ℕ) (phdr : Phdr) : BitVec 32 :=
  phdr.paddr + setOffset guestBase (e.after host guestBase s i).loadOffset phdr.paddr

/-- No two segments are loaded to the same address.  That leaves out a first header that comes in
pieces while no offset is set: the next segment goes where its own would have. -/
def Disjoint : Prop :=
  ∀ i j phdr phdr', e.Segment i phdr → e.Segment j phdr' → i ≠ j →
    ∀ d < phdr.memsz.toNat, ∀ d' < phdr'.memsz.toNat,
      e.loadAddr host guestBase s i phdr + ofNat 32 d ≠
        e.loadAddr host guestBase s j phdr' + ofNat 32 d'

/-- **The guest is loaded**: every byte of every segment is what the file says, or zero. -/
def Loaded : Prop :=
  ∀ i phdr, e.Segment i phdr → ∀ d < phdr.memsz.toNat,
    (e.after host guestBase s e.ehdr.phnum.toNat).mem
      (e.loadAddr host guestBase s i phdr + ofNat 32 d) = e.contents phdr d

end ElfFile

/-! ## Reads -/

/-- The read of a header, all or nothing. -/
theorem elfGetPhdr_eq (file : List Byte) (ehdr : Ehdr) (host : Host) (i : ℕ) :
    elfGetPhdr file ehdr host i =
      if host.phdr i < phdrSize then none else programHeader file ehdr i := by
  have hread : readSome (host.phdr i) phdrSize (file.length - ehdr.phdrPos i) = phdrSize ↔
      ¬host.phdr i < phdrSize ∧ phdrSize ≤ file.length - ehdr.phdrPos i := by
    unfold readSome phdrSize
    split <;> omega
  unfold elfGetPhdr programHeader
  simp only [hread]
  by_cases hsplit : host.phdr i < phdrSize <;> simp [hsplit]

/-- **The loop of reads** reads all there is, however it is split. -/
theorem readLoop_eq (file : List Byte) (limit : ℕ → ℕ) (offset : ℕ) (paddr : BitVec 32)
    {filesz : ℕ} (hfilesz : filesz < 2 ^ 32) : ∀ (fuel reads bytesRead : ℕ) (mem : Memory),
    bytesRead ≤ filesz → filesz - bytesRead < fuel →
    readLoop file limit offset paddr filesz fuel reads bytesRead mem =
      writeAt mem (paddr + ofNat 32 bytesRead)
        ((file.drop (offset + bytesRead)).take (filesz - bytesRead))
  | 0, _, _, _, _, hfuel => absurd hfuel (Nat.not_lt_zero _)
  | fuel + 1, reads, bytesRead, mem, hle, hfuel => by
      set want := filesz - bytesRead with hwant
      set rest := file.drop (offset + bytesRead) with hrest
      set ret := readSome (limit reads) want (file.length - (offset + bytesRead)) with hret
      have hlen : rest.length = file.length - (offset + bytesRead) := List.length_drop ..
      have hbounds : ret ≤ want ∧ ret ≤ rest.length ∧ (ret = 0 → want = 0 ∨ rest.length = 0) := by
        rw [hret, hlen]
        unfold readSome
        split
        · next hnone => exact ⟨Nat.zero_le _, Nat.zero_le _, fun _ => hnone⟩
        · omega
      obtain ⟨hretWant, hretRest, hdone⟩ := hbounds
      rw [readLoop]
      simp only [← hwant, ← hrest, ← hret]
      split
      · next hpos =>
        have htake : (rest.take ret).length = ret := List.length_take_of_le hretRest
        rw [readLoop_eq file limit offset paddr hfilesz fuel (reads + 1) (bytesRead + ret) _
          (by omega) (by omega)]
        have haddr : paddr + ofNat 32 (bytesRead + ret) =
            paddr + ofNat 32 bytesRead + ofNat 32 (rest.take ret).length := by
          rw [htake, BitVec.ofNat_add, BitVec.add_assoc]
        have hdrop : file.drop (offset + (bytesRead + ret)) = rest.drop ret := by
          rw [hrest, List.drop_drop, Nat.add_assoc]
        have hleft : filesz - (bytesRead + ret) = want - ret := by omega
        rw [haddr, hdrop, hleft, writeAt_append, ← List.take_add, Nat.add_sub_cancel' hretWant]
        have : ((rest.drop ret).take (want - ret)).length ≤ want - ret := List.length_take_le ..
        omega
      · next hzero =>
        have hempty : rest.take want = rest.take ret := by
          rcases hdone (by omega) with hnone | hnone
          · rw [hnone, Nat.eq_zero_of_not_pos hzero]
          · rw [List.eq_nil_of_length_eq_zero hnone, List.take_nil, List.take_nil]
        rw [hempty]

/-! ## Rounds -/

namespace ElfFile

variable {e : ElfFile} {host : Host} {guestBase : BitVec 32} {s : State}

/-- **A round** whose header comes in one piece reads as much as the segment has room for, … -/
theorem mem_after_succ {n : ℕ} {phdr : Phdr} (hseg : e.Segment n phdr)
    (hwhole : ¬host.phdr n < phdrSize) : (e.after host guestBase s (n + 1)).mem =
      writeAt (e.after host guestBase s n).mem (e.loadAddr host guestBase s n phdr)
        ((e.bytes.drop phdr.offset.toNat).take phdr.memsz.toNat) := by
  obtain ⟨hn, hphdr, htype⟩ := hseg
  have hget : elfGetPhdr e.bytes e.ehdr host n = some phdr := by
    rw [elfGetPhdr_eq, if_neg hwhole, hphdr]
  have hle : phdr.filesz ≤ phdr.memsz := (e.valid n hn phdr hphdr htype).1
  have hfilesz : (if phdr.filesz < phdr.memsz then phdr.memsz else phdr.filesz) = phdr.memsz := by
    split
    · rfl
    · next hnot => exact BitVec.le_antisymm hle (BitVec.not_lt.mp hnot)
  by_cases hzero : phdr.memsz = 0
  · have hskip : e.after host guestBase s (n + 1) = e.after host guestBase s n := by
      simp [after, loadSegments, loadSegment, hget, hzero]
    rw [hskip, hzero]
    exact writeAt_nil.symm
  · simp only [after, loadSegments, loadSegment, hget, if_neg hzero, if_neg (not_not.mpr htype),
      hfilesz]
    rw [readLoop_eq e.bytes _ _ _ phdr.memsz.isLt (phdr.memsz.toNat + 1) 0 0 _ (Nat.zero_le _)
      (by omega)]
    have hnothing (mem : Memory) (x : BitVec 32) : clear mem x (phdr.memsz - phdr.memsz) = mem := by
      funext y
      rw [BitVec.sub_self, clear, if_neg BitVec.not_lt_zero]
    rw [hnothing]
    exact congrArg (writeAt _ · _) (BitVec.add_zero _)

/-- … and every other one leaves the memory alone. -/
theorem mem_after_succ_of_not {n : ℕ} (hn : n < e.ehdr.phnum.toNat)
    (hnot : ∀ phdr, e.Segment n phdr → host.phdr n < phdrSize) :
    (e.after host guestBase s (n + 1)).mem = (e.after host guestBase s n).mem := by
  simp only [after, loadSegments, loadSegment]
  split
  · rfl
  · next phdr hget =>
    rw [elfGetPhdr_eq] at hget
    split at hget
    · cases hget
    · next hwhole =>
      have htype : phdr.type ≠ ptLoad := fun htype => hwhole (hnot phdr ⟨hn, hget, htype⟩)
      simp only [htype, ne_eq, not_false_eq_true, if_true, ite_self]

theorem Segment.eq {n : ℕ} {phdr phdr' : Phdr} (h : e.Segment n phdr) (h' : e.Segment n phdr') :
    phdr = phdr' :=
  Option.some.inj (h.2.1.symm.trans h'.2.1)

theorem mem_after (hdisj : e.Disjoint host guestBase s) {i : ℕ} {phdr : Phdr}
    (hseg : e.Segment i phdr) {d : ℕ} (hd : d < phdr.memsz.toNat) : ∀ n ≤ e.ehdr.phnum.toNat,
    (e.after host guestBase s n).mem (e.loadAddr host guestBase s i phdr + ofNat 32 d) =
      if i < n ∧ ¬host.phdr i < phdrSize then
        (e.bytes[phdr.offset.toNat + d]?).getD
          (s.mem (e.loadAddr host guestBase s i phdr + ofNat 32 d))
      else s.mem (e.loadAddr host guestBase s i phdr + ofNat 32 d)
  | 0, _ => by
      rw [if_neg (by omega)]
      rfl
  | n + 1, hn => by
      have ih := mem_after hdisj hseg hd n (by omega)
      set x := e.loadAddr host guestBase s i phdr + ofNat 32 d with hx
      by_cases hround : ∃ phdr', e.Segment n phdr' ∧ ¬host.phdr n < phdrSize
      · obtain ⟨phdr', hseg', hwhole⟩ := hround
        rw [mem_after_succ hseg' hwhole]
        by_cases hni : n = i
        · subst hni
          obtain rfl := hseg.eq hseg'
          have hmemsz := phdr.memsz.isLt
          rw [hx, writeAt_add (by omega), ← hx, ih, if_neg (by omega), if_pos ⟨by omega, hwhole⟩,
            List.getElem?_take_of_lt hd, List.getElem?_drop]
        · have hout : ∀ d' < ((e.bytes.drop phdr'.offset.toNat).take phdr'.memsz.toNat).length,
              x ≠ e.loadAddr host guestBase s n phdr' + ofNat 32 d' := fun d' hd' =>
            hdisj i n phdr phdr' hseg hseg' (Ne.symm hni) d hd d'
              (hd'.trans_le (List.length_take_le ..))
          have hlt : i < n ↔ i < n + 1 := by omega
          rw [writeAt_of_ne hout, ih]
          simp only [hlt]
      · have hnot : ∀ phdr', e.Segment n phdr' → host.phdr n < phdrSize := fun phdr' hseg' =>
          not_not.mp fun hwhole => hround ⟨phdr', hseg', hwhole⟩
        rw [mem_after_succ_of_not (by omega) hnot, ih]
        by_cases hni : n = i
        · subst hni
          have hsplit := hnot phdr hseg
          simp [hsplit]
        · have hlt : i < n ↔ i < n + 1 := by omega
          simp only [hlt]

end ElfFile

/-- **When a guest is loaded.** For every segment whose program header the host delivers in one
piece, what follows its contents in the file has to be zero as far as the segment goes, and so has
the memory where the file ends; a segment whose header comes in pieces has to be there already. -/
theorem loadSegments_correct_iff (e : ElfFile) (host : Host) (guestBase : BitVec 32) (s : State)
    (hdisj : e.Disjoint host guestBase s) :
    e.Loaded host guestBase s ↔ ∀ i phdr, e.Segment i phdr → ∀ d < phdr.memsz.toNat,
      let before := s.mem (e.loadAddr host guestBase s i phdr + ofNat 32 d)
      if host.phdr i < phdrSize then before = e.contents phdr d
      else phdr.filesz.toNat ≤ d → (e.bytes[phdr.offset.toNat + d]?).getD before = 0 := by
  have hbyte (i : ℕ) (phdr : Phdr) (hseg : e.Segment i phdr) (d : ℕ) (hd : d < phdr.memsz.toNat) :=
    ElfFile.mem_after hdisj hseg hd _ le_rfl
  refine forall₅_congr fun i phdr hseg d hd => ?_
  rw [hbyte i phdr hseg d hd]
  simp only [hseg.1, true_and]
  by_cases hsplit : host.phdr i < phdrSize
  · simp [hsplit]
  · rw [if_pos hsplit, if_neg hsplit, ElfFile.contents]
    by_cases hin : d < phdr.filesz.toNat
    · have hend := (e.valid i hseg.1 phdr hseg.2.1 hseg.2.2).2
      rw [if_pos hin, List.getD_eq_getElem?_getD, List.getElem?_eq_getElem (by omega)]
      exact ⟨fun _ hout => absurd hin (Nat.not_lt.mpr hout), fun _ => rfl⟩
    · rw [if_neg hin]
      exact ⟨fun h _ => h, fun h => h (Nat.le_of_not_lt hin)⟩

/-- A file of two program headers: the second segment, at 64, has two bytes, and the first, behind
it, two bytes of contents and room for four. -/
def twoSegments (rest : List Byte) : List Byte :=
  [1, 0, 0, 0, 66, 0, 0, 0, 0, 0, 0, 0, 0, 16, 0, 0, 2, 0, 0, 0, 4, 0, 0, 0, 0, 0, 0, 0, 0, 0, 0, 0,
    1, 0, 0, 0, 64, 0, 0, 0, 0, 0, 0, 0, 0, 32, 0, 0, 2, 0, 0, 0, 2, 0, 0, 0, 0, 0, 0,
    0, 0, 0, 0, 0, 3, 4, 5, 6] ++ rest

/-- The header of that file, … -/
def twoHeaders : Ehdr := ⟨0, 32, 2⟩

/-- … and its program headers. -/
def programHeaders (i : ℕ) : Phdr :=
  if i = 0 then ⟨ptLoad, 66, 0x1000, 2, 4⟩ else ⟨ptLoad, 64, 0x2000, 2, 2⟩

/-- The file, when its program headers can be read. -/
def twoSegmentsFile (rest : List Byte) (hphdr : ∀ i < 2,
    programHeader (twoSegments rest) twoHeaders i = some (programHeaders i)) : ElfFile where
  bytes := twoSegments rest
  ehdr := twoHeaders
  valid i hi phdr hi' _ := by
    obtain rfl := Option.some.inj ((hphdr i hi).symm.trans hi')
    have hlen : 68 ≤ (twoSegments rest).length := by simp [twoSegments]
    rcases Nat.lt_succ_iff_lt_or_eq.mp hi with hlt | rfl
    · obtain rfl := Nat.lt_one_iff.mp hlt
      exact ⟨by decide, hlen⟩
    · exact ⟨by decide, (by decide : (_ : ℕ) ≤ 68).trans hlen⟩

theorem segment_twoSegmentsFile {rest : List Byte} {hphdr : ∀ i < 2,
    programHeader (twoSegments rest) twoHeaders i = some (programHeaders i)} {i : ℕ} {phdr : Phdr} :
    (twoSegmentsFile rest hphdr).Segment i phdr ↔ i < 2 ∧ phdr = programHeaders i := by
  constructor
  · rintro ⟨hi, hread, -⟩
    exact ⟨hi, Option.some.inj (hread.symm.trans (hphdr i hi))⟩
  · rintro ⟨hi, rfl⟩
    refine ⟨hi, hphdr i hi, ?_⟩
    unfold programHeaders
    split <;> rfl

/-- A host that delivers headers in one piece, and segments byte by byte. -/
def byteByByte : Host := ⟨fun _ => 32, fun _ _ => 1⟩

/-- Memory that is zero, for a VM without a load offset. -/
def cleared : State := ⟨fun _ => 0, -1⟩

/-- A file that ends with the contents, … -/
def endsThere : ElfFile := twoSegmentsFile [] (by decide +kernel)

/-- … and one that goes on. -/
def goesOn : ElfFile := twoSegmentsFile [7, 8] (by decide +kernel)

/-- The second segment is loaded 4K behind the first. -/
theorem disjoint_of_loadAddr {rest : List Byte} {hphdr : ∀ i < 2,
    programHeader (twoSegments rest) twoHeaders i = some (programHeaders i)}
    (haddr : ∀ i < 2, (twoSegmentsFile rest hphdr).loadAddr byteByByte 0x100000 cleared i
      (programHeaders i) = 0x100000 + ofNat 32 (i * 0x1000)) :
    (twoSegmentsFile rest hphdr).Disjoint byteByByte 0x100000 cleared := by
  intro i j phdr phdr' hseg hseg' hij d hd d' hd'
  obtain ⟨hi, rfl⟩ := segment_twoSegmentsFile.mp hseg
  obtain ⟨hj, rfl⟩ := segment_twoSegmentsFile.mp hseg'
  rw [haddr i hi, haddr j hj]
  have hlt (i : ℕ) : (programHeaders i).memsz.toNat ≤ 4 := by
    unfold programHeaders
    split <;> decide
  have := hlt i
  have := hlt j
  intro heq
  have := congrArg BitVec.toNat heq
  simp only [BitVec.toNat_add, BitVec.toNat_ofNat] at this
  omega

/-- The first is loaded right to memory that is zero. -/
theorem loadSegments_correct_endsThere : endsThere.Disjoint byteByByte 0x100000 cleared ∧
      (∀ i < 2, endsThere.Segment i (programHeaders i)) ∧
      endsThere.Loaded byteByByte 0x100000 cleared := by
  have hdisj : endsThere.Disjoint byteByByte 0x100000 cleared :=
    disjoint_of_loadAddr (by decide +kernel)
  refine ⟨hdisj, fun i hi => segment_twoSegmentsFile.mpr ⟨hi, rfl⟩,
    (loadSegments_correct_iff _ _ _ _ hdisj).mpr fun i phdr hseg d hd => ?_⟩
  obtain ⟨hi, rfl⟩ := segment_twoSegmentsFile.mp hseg
  have hrest : ∀ i < 2, ∀ d < (programHeaders i).memsz.toNat, (programHeaders i).filesz.toNat ≤ d →
      (twoSegments [])[(programHeaders i).offset.toNat + d]? = none := by decide +kernel
  exact fun hout => (congrArg (Option.getD · _) (hrest i hi d hd hout)).trans rfl

/-- In the second, what follows the contents is where zeros should be. -/
theorem loadSegments_goesOn_not_cleared :
    goesOn.Disjoint byteByByte 0x100000 cleared ∧ goesOn.Segment 0 (programHeaders 0) ∧
      goesOn.contents (programHeaders 0) 2 = 0 ∧
      (goesOn.after byteByByte 0x100000 cleared goesOn.ehdr.phnum.toNat).mem
        (goesOn.loadAddr byteByByte 0x100000 cleared 0 (programHeaders 0) + ofNat 32 2) = 7 ∧
      ¬goesOn.Loaded byteByByte 0x100000 cleared := by
  have hseg : goesOn.Segment 0 (programHeaders 0) := segment_twoSegmentsFile.mpr ⟨by decide, rfl⟩
  have hzero : goesOn.contents (programHeaders 0) 2 = 0 := by decide +kernel
  have hread : (goesOn.after byteByByte 0x100000 cleared goesOn.ehdr.phnum.toNat).mem
      (goesOn.loadAddr byteByByte 0x100000 cleared 0 (programHeaders 0) + ofNat 32 2) = 7 := by
    decide +kernel
  refine ⟨disjoint_of_loadAddr (by decide +kernel), hseg, hzero, hread, fun hloaded => ?_⟩
  have hbyte := hread.symm.trans ((hloaded 0 (programHeaders 0) hseg 2 (by decide)).trans hzero)
  exact absurd hbyte (by decide)

end H2.Booter
