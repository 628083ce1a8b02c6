import H2.Hexagon.Marker
import H2.Machinery.Walk
import H2.Mem.Asid

/-!
# Mem/Translate — from a virtual page to a physical one

An address space is a list of entries, a table of two levels, a table of variable radix or an
offset, and the memory it speaks of is that of its VM: where the VM has a `guestmap` of its own,
that is a further translation, of the pages the tables are on and of the page that comes out.  So
`H2K_translate` calls a walker, and each walker calls `H2K_translate` again.

The tables are in memory that guests write, and nothing in the code says that a walk ends; the model
has the recursion to any depth (`Maps.translate`), and says of a walk that it returns.  What a walk
does on the way is in its log: the words it reads, the pages of tables it has to look up, and the
permissions of the entries that are used.
-/

namespace H2

open BitVec

/-! ## Translations -/

/-- `H2K_translation_t`. -/
@[ext] structure Translation where
  pn : BitVec 32
  size : BitVec 4
  xwru : BitVec 4
  cccc : BitVec 3
  weakCcc : Bool
  hsv39 : Bool
  shared : Bool
  deriving DecidableEq, Repr

/-- What `H2K_translate_default` starts from, for a page. -/
def Translation.ofPage (pn : BitVec 32) : Translation where
  pn := pn
  size := 10
  xwru := 0xf
  cccc := 0
  weakCcc := true
  hsv39 := false
  shared := false

/-- `H2K_translate_default`. -/
def translateDefault (va : BitVec 64) : Translation := .ofPage ((va >>> 12).setWidth 32)

/-- `H2K_translate_bad`, and every translation whose raw bits are 0. -/
def translateBad : Translation where
  pn := 0
  size := 0
  xwru := 0
  cccc := 0
  weakCcc := false
  hsv39 := false
  shared := false

/-- `min`, of two sizes. -/
def minSize (a b : BitVec 4) : BitVec 4 := if a < b then a else b

/-- An entry of raw bits 0: for a `guestmap`, that there is none. -/
def noMap : AsidEntry := ⟨0, 0, 0, 0, 0, 0⟩

/-- What a walker reads of a VM block. -/
structure VmMap where
  guestmap : AsidEntry
  fenceLo : BitVec 32
  fenceHi : BitVec 32
  deriving DecidableEq, Repr

/-- What a translation reads: physical memory, the VM blocks, and the windows of the tightly coupled
memories. -/
structure Maps where
  mem : BitVec 64 → BitVec 32
  vmblocks : BitVec 6 → Option VmMap
  tcmBase : BitVec 32
  tcmSize : BitVec 32
  vtcmBase : BitVec 32
  vtcmSize : BitVec 32

/-- What is done on a walk. -/
inductive WalkEvent where
  /-- A word of physical memory is read. -/
  | read (pa : BitVec 64)
  /-- A table goes on at a page of the VM, and the VM has a guestmap, which is asked for it. -/
  | page (asked : Translation) (guestmap : AsidEntry)
  /-- An entry is used, with its permissions. -/
  | leaf (xwru : BitVec 4)
  deriving DecidableEq, Repr

/-- Whether it is no entry that is used. -/
def WalkEvent.notLeaf : WalkEvent → Bool
  | .leaf _ => false
  | _ => true

/-- Whether it is a word that is read. -/
def WalkEvent.isRead : WalkEvent → Bool
  | .read _ => true
  | _ => false

/-- A walk over tables. -/
abbrev TableWalk := Walk WalkEvent

/-- The calls of `H2K_translate` that a walker makes. -/
abbrev TransCalls := Translation × AsidEntry → TableWalk Translation

open Walk

/-- The page a table is on, as the guestmap of its VM translates it: none without read
permission. -/
def VmMap.tablePage (b : VmMap) (next : TransCalls) (tmp : Translation) :
    TableWalk (Option Translation) := do
  note (.page tmp b.guestmap)
  let tmp ← keeping WalkEvent.notLeaf (next (tmp, b.guestmap))
  pure (if tmp.xwru &&& 2 = 0 then none else some tmp)

/-- The rest of a translation: that of the guestmap, if there is one. -/
def VmMap.onward (b : VmMap) (next : TransCalls) (t : Translation) : TableWalk Translation :=
  if t.shared = false ∧ b.guestmap ≠ noMap then next (t, b.guestmap) else pure t

namespace Maps

variable (k : Maps)

/-- `H2K_gp->vmblocks[vmid]`; nothing good comes of a slot that is empty. -/
def vmblock (vmid : BitVec 6) : TableWalk VmMap :=
  match k.vmblocks vmid with
  | some b => pure b
  | none => stuck

/-- `memw_phys`. -/
def memwPhys (lower upper : BitVec 32) : TableWalk (BitVec 32) := do
  let pa := (upper.setWidth 64 <<< 11) ||| (lower &&& 0x7ff).setWidth 64
  note (.read pa)
  pure (k.mem pa)

/-- `H2K_mem_physread_word`. -/
def physreadWord (pa : BitVec 64) : TableWalk (BitVec 32) :=
  k.memwPhys (pa.setWidth 32 &&& 0x7fc) ((pa >>> 11).setWidth 32)

/-- `H2K_mem_physread_dword`. -/
def physreadDword (pa : BitVec 64) : TableWalk (BitVec 64) := do
  let upper := (pa >>> 11).setWidth 32
  let lower := pa.setWidth 32 &&& 0x7fc
  let ret0 ← k.memwPhys lower upper
  let ret1 ← k.memwPhys (lower + 4) upper
  pure (ret1 ++ ret0)

end Maps

/-! ## Lists -/

/-- `H2K_linear_fmt_t`. -/
abbrev LinearFmt := BitVec 64

namespace LinearFmt

variable (e : LinearFmt)

/-! The fields. -/

def low : BitVec 32 := setWidth 32 e

def ppn : BitVec 32 := (extractLsb' 0 24 e).setWidth 32

def cccc : BitVec 3 := extractLsb' 24 3 e

def weakCcc : Bool := getLsbD e 27

def xwru : BitVec 4 := extractLsb' 28 4 e

def ppnExt : BitVec 32 := (extractLsb' 0 26 e).setWidth 32

def vpn : BitVec 32 := (extractLsb' 32 20 e).setWidth 32

def size : BitVec 4 := extractLsb' 52 4 e

def ccccExt : BitVec 3 := extractLsb' 56 3 e

def weakCccExt : Bool := getLsbD e 59

def hsv39 : Bool := getLsbD e 60

def extend : Bool := getLsbD e 61

def shared : Bool := getLsbD e 62

def chain : Bool := getLsbD e 63

/-- The page number of the entry, of either format. -/
def pageNumber : BitVec 32 := if e.extend then e.ppnExt else e.ppn

/-- `mask`. -/
def mask : BitVec 32 := (-1#32) <<< (2 * e.size.toNat)

/-- **The entry covers a page.** -/
def Covers (pn : BitVec 32) : Prop := e.vpn &&& e.mask = pn &&& e.mask

instance (pn : BitVec 32) : Decidable (e.Covers pn) := inferInstanceAs (Decidable (_ = _))

end LinearFmt

/-- `H2K_linear_translate_update`. -/
def linearTranslateUpdate (t : Translation) (e : LinearFmt) : Translation where
  size := minSize t.size e.size
  pn := e.pageNumber
  cccc := if t.weakCcc then (if e.extend then e.ccccExt else e.cccc) else t.cccc
  xwru := t.xwru &&& e.xwru
  weakCcc := if e.extend then e.weakCccExt else e.weakCcc
  hsv39 := e.extend && e.hsv39
  shared := e.shared

/-- Where the walk over a list is: the address in the VM, its page, the physical address, and what
the last page was translated to. -/
@[ext] structure ListPos where
  list : BitVec 32
  lastGpn : BitVec 32
  listPa : BitVec 64
  tmp : Translation
  deriving DecidableEq, Repr

/-- Where the walk starts; `list_pa` is set before it is read. -/
def ListPos.start (ptb : BitVec 32) : ListPos := ⟨ptb, -1, 0, .ofPage 0⟩

/-- The page that `list` is on has been found. -/
def ListPos.enter (s : ListPos) (listPpn : BitVec 32) (tmp : Translation) : ListPos where
  list := s.list
  lastGpn := s.list >>> 12
  listPa := (listPpn.setWidth 64 <<< 12) ||| (s.list &&& 0xfff).setWidth 64
  tmp := tmp

/-- To where a chain points. -/
def ListPos.chainTo (s : ListPos) (e : LinearFmt) : ListPos :=
  let list := e.low &&& -8
  { s with
    list := list
    listPa := (s.listPa &&& (s.listPa &&& 0xfffff000)) ||| (list &&& 0xfff).setWidth 64 }

/-- To the entry after this one. -/
def ListPos.next (s : ListPos) : ListPos := { s with list := s.list + 8, listPa := s.listPa + 8 }

/-- Where an entry leads: to another one, to none, or it is the one that is looked for. -/
def ListPos.advance (badvpn : BitVec 32) (s : ListPos) (e : LinearFmt) :
    ListPos ⊕ Option LinearFmt :=
  if e = 0 then .inr none
  else if e.chain then .inl (s.chainTo e)
  else if e.Covers badvpn then .inr (some e)
  else .inl s.next

namespace VmMap

/-- The entry is on the page it was on before, or that page is looked up; none without read
permission. -/
def linearPage (b : VmMap) (next : TransCalls) (s : ListPos) : TableWalk (Option ListPos) :=
  if s.list >>> 12 = s.lastGpn then pure (some s)
  else if b.guestmap = noMap then pure (some (s.enter (s.list >>> 12) s.tmp))
  else do
    let tmp ← b.tablePage next { s.tmp with pn := s.list >>> 12 }
    pure (tmp.map fun tmp => s.enter tmp.pn tmp)

end VmMap

/-- The bits of a `ListPos`: a walk with more rounds than this goes round in circles. -/
def listPositions : ℕ := 2 ^ 174

namespace Maps

variable (k : Maps)

/-- One round of the loop of `H2K_linear_translate`. -/
def linearStep (next : TransCalls) (b : VmMap) (badvpn : BitVec 32) (s : ListPos) :
    TableWalk (ListPos ⊕ Option LinearFmt) := do
  match ← b.linearPage next s with
  | none => pure (.inr none)
  | some s => do
    let e ← k.physreadDword s.listPa
    pure (s.advance badvpn e)

/-- `H2K_linear_translate`. -/
def linearTranslate (next : TransCalls) (t : Translation) (info : AsidEntry) :
    TableWalk Translation := do
  let b ← k.vmblock info.vmid
  match ← unroll (turn (k.linearStep next b t.pn)) listPositions (.start info.ptb) with
  | none => pure translateBad
  | some e => do
    note (.leaf e.xwru)
    b.onward next (linearTranslateUpdate t e)

end Maps

/-! ## Tables of two levels -/

/-- `H2K_pte_t`. -/
abbrev Pte := BitVec 32

namespace Pte

variable (pte : Pte)

/-! The fields. -/

def s : ℕ := (extractLsb' 0 3 pte).toNat

def shared : Bool := getLsbD pte 3

def u : Bool := getLsbD pte 5

def ccc : BitVec 3 := extractLsb' 6 3 pte

def xwr : BitVec 3 := extractLsb' 9 3 pte

def ppn : BitVec 32 := (extractLsb' 12 20 pte).setWidth 32

/-- `(pte.xwr << 1) | pte.u`. -/
def xwru : BitVec 4 := pte.xwr ++ ofBool pte.u

/-- `pte.s = size`. -/
def setS (size : ℕ) : Pte := (pte &&& ~~~7#32) ||| BitVec.ofNat 32 (size % 8)

end Pte

/-- `H2K_pagewalk_update_translation`. -/
def pagewalkUpdateTranslation (t : Translation) (pte : Pte) : Translation where
  size := minSize t.size (BitVec.ofNat 4 pte.s)
  pn := (t.pn &&& ((1#32 <<< (2 * pte.s)) - 1)) ||| (pte.ppn &&& ((-1#32) <<< (2 * pte.s)))
  cccc := if t.weakCcc then pte.ccc else t.cccc
  xwru := t.xwru &&& pte.xwru
  weakCcc := false
  hsv39 := t.hsv39
  shared := pte.shared

namespace Maps

variable (k : Maps)

/-- The word of a table at an address of the VM, as the second level and the radix table are read:
none without read permission. -/
def tableWord (next : TransCalls) (b : VmMap) (addr : BitVec 64) : TableWalk (Option (BitVec 32)) :=
  if b.guestmap = noMap then do
    let raw ← k.physreadWord addr
    pure (some raw)
  else do
    match ← b.tablePage next (translateDefault addr) with
    | none => pure none
    | some tmp => do
      let raw ← k.physreadWord (insertPII addr (tmp.pn.setWidth 64) 24 12)
      pure (some raw)

/-- `H2K_mem_pagewalk_l2`. -/
def memPagewalkL2 (next : TransCalls) (b : VmMap) (pn l2addr : BitVec 32) (pagesize : ℕ) :
    TableWalk Pte := do
  let paddr := insertPP (l2addr.setWidth 64) ((pn >>> (2 * pagesize)).setWidth 64)
    (BitVec.ofNat 32 (2 * (5 - pagesize))) 2
  match ← k.tableWord next b paddr with
  | none => pure 0
  | some raw => pure (Pte.setS raw pagesize)

/-- `H2K_mem_pagewalk_l1`, once the page of the table is known. -/
def memPagewalkAt (next : TransCalls) (b : VmMap) (pn ppn : BitVec 32) : TableWalk Pte := do
  let raw ← k.physreadWord ((ppn.setWidth 64 <<< 12) ||| ((pn >>> 8) &&& 0xffc).setWidth 64)
  if Pte.s raw ≤ 4 then k.memPagewalkL2 next b pn (raw &&& -16) (Pte.s raw)
  else if Pte.s raw = 7 then pure 0
  else pure raw

/-- `H2K_mem_pagewalk_l1`. -/
def memPagewalkL1 (next : TransCalls) (b : VmMap) (pn ptb : BitVec 32) : TableWalk Pte := do
  let tmp := translateDefault (ptb.setWidth 64)
  if b.guestmap = noMap then k.memPagewalkAt next b pn tmp.pn
  else do
    match ← b.tablePage next tmp with
    | none => pure 0
    | some tmp => k.memPagewalkAt next b pn tmp.pn

/-- `H2K_pagewalk_translate`. -/
def pagewalkTranslate (next : TransCalls) (t : Translation) (info : AsidEntry) :
    TableWalk Translation := do
  let b ← k.vmblock info.vmid
  let pte ← k.memPagewalkL1 next b t.pn info.ptb
  note (.leaf (Pte.xwru pte))
  b.onward next (pagewalkUpdateTranslation t pte)

end Maps

/-! ## Tables of variable radix -/

/-- `VARADIX_PN_BITS`. -/
def varadixPnBits : BitVec 32 := 22

/-- `H2K_varadix_entry_size`. -/
def varadixEntrySize (val : BitVec 32) : BitVec 32 := BitVec.ofNat 32 (ct0 val)

/-- `H2K_varadix_update`. -/
def varadixUpdate (t new : Translation) : Translation :=
  if new = translateBad then new
  else
    { t with
      pn := new.pn
      xwru := t.xwru &&& new.xwru
      shared := new.shared
      cccc := if t.weakCcc then new.cccc else t.cccc
      size := if new.size < t.size then new.size else t.size
      weakCcc := new.weakCcc }

/-- `H2K_varadix_mktrans`. -/
def varadixMktrans (vpn entry size : BitVec 32) : Translation where
  xwru := entry.extractLsb' 28 4
  cccc := entry.extractLsb' 24 3
  weakCcc := entry.getLsbD 27
  pn := insertRP vpn
    (extractuRP (entry &&& (entry - 1)) (varadixPnBits - size) (1 + size))
    (varadixPnBits - size) size
  size := setWidth 4 ((if 12 < size then 12 else size) >>> 1)
  hsv39 := false
  shared := false

/-- Where the walk over a table of variable radix is. -/
structure RadixPos where
  tablebase : BitVec 32
  tablesize : BitVec 32
  startbit : BitVec 32
  deriving DecidableEq, Repr

/-- `tableaddr`: the address of the entry for a page. -/
def RadixPos.tableaddr (s : RadixPos) (vpn : BitVec 32) : BitVec 64 :=
  let index := extractuRP vpn s.tablesize s.startbit
  (insertRP s.tablebase index s.tablesize 0).setWidth 64 <<< 2

/-- Where an entry leads. -/
def RadixPos.advance (vpn : BitVec 32) (s : RadixPos) (entry : BitVec 32) :
    RadixPos ⊕ Translation :=
  let size := varadixEntrySize entry
  if s.startbit < size then .inr translateBad
  else if size = s.startbit then .inr (varadixMktrans vpn entry size)
  else .inl ⟨entry, size + 1, s.startbit - (size + 1)⟩

namespace Maps

variable (k : Maps)

/-- One round of the loop of `H2K_varadix_walk`. -/
def varadixStep (next : TransCalls) (b : VmMap) (vpn : BitVec 32) (s : RadixPos) :
    TableWalk (RadixPos ⊕ Translation) := do
  match ← k.tableWord next b (s.tableaddr vpn) with
  | none => pure (.inr translateBad)
  | some entry => pure (s.advance vpn entry)

/-- `H2K_varadix_walk`; in each round `startbit` gets smaller. -/
def varadixWalk (next : TransCalls) (b : VmMap) (vpn tablebase tablesize startbit : BitVec 32) :
    TableWalk Translation :=
  unroll (turn (k.varadixStep next b vpn)) (2 ^ 32) ⟨tablebase, tablesize, startbit⟩

/-- The translation `new` of `H2K_varadix_translate`. -/
def varadixNew (next : TransCalls) (b : VmMap) (vpn ptb vpnbits : BitVec 32) :
    TableWalk Translation :=
  let startsize := varadixEntrySize ptb
  if aslR 1 vpnbits ≤ vpn then pure translateBad
  else if vpnbits = startsize then pure (varadixMktrans vpn ptb startsize)
  else k.varadixWalk next b vpn ptb (startsize + 1) (vpnbits - (startsize + 1))

/-- `H2K_varadix_translate`. -/
def varadixTranslate (next : TransCalls) (t : Translation) (info : AsidEntry) :
    TableWalk Translation := do
  let b ← k.vmblock info.vmid
  let new ← k.varadixNew next b t.pn info.ptb (info.extra.setWidth 32)
  note (.leaf new.xwru)
  b.onward next (varadixUpdate t new)

end Maps

/-! ## Offsets -/

/-- `H2K_offset_t`. -/
abbrev OffsetFmt := BitVec 32

namespace OffsetFmt

variable (o : OffsetFmt)

/-! The fields. -/

def size : BitVec 4 := extractLsb' 0 4 o

def cccc : BitVec 3 := extractLsb' 4 3 o

def weakCcc : Bool := getLsbD o 7

def xwru : BitVec 4 := extractLsb' 8 4 o

def pages : BitVec 32 := (extractLsb' 12 20 o).setWidth 32

end OffsetFmt

/-- What `H2K_offset_translate` makes of its argument before it goes on. -/
def offsetUpdate (t : Translation) (o : OffsetFmt) : Translation where
  pn := t.pn + o.pages
  size := if o.size < t.size then o.size else t.size
  xwru := t.xwru &&& o.xwru
  cccc := if t.weakCcc then o.cccc else t.cccc
  weakCcc := o.weakCcc
  hsv39 := t.hsv39
  shared := t.shared

namespace Maps

variable (k : Maps)

/-- The page is in one of the two windows. -/
def inWindow (pn : BitVec 32) : Bool :=
  (k.tcmBase ≤ pn && pn < k.tcmBase + k.tcmSize) ||
    (k.vtcmBase ≤ pn && pn < k.vtcmBase + k.vtcmSize)

/-- The lowest level of `H2K_offset_translate`. -/
def offsetLowest (b : VmMap) (origIn : BitVec 32) (t : Translation) : Translation :=
  if k.inWindow origIn then { t with pn := origIn }
  else if t.pn < b.fenceLo ∨ b.fenceHi + (1#32 <<< (2 * t.size.toNat)) ≤ t.pn then translateBad
  else t

/-- `H2K_offset_translate`. -/
def offsetTranslate (next : TransCalls) (t : Translation) (info : AsidEntry) :
    TableWalk Translation := do
  note (.leaf (OffsetFmt.xwru info.ptb))
  let u := offsetUpdate t info.ptb
  let b ← k.vmblock info.vmid
  if u.shared = false ∧ b.guestmap ≠ noMap then next (u, b.guestmap)
  else pure (k.offsetLowest b t.pn u)

/-! ## All of them -/

/-- `H2K_translate`, with the calls it makes; `H2K_translate_funcs` has four entries. -/
def translateFuncs (next : TransCalls) (x : Translation × AsidEntry) : TableWalk Translation :=
  match x.2.type.toNat with
  | 0 => k.linearTranslate next x.1 x.2
  | 1 => k.pagewalkTranslate next x.1 x.2
  | 2 => k.offsetTranslate next x.1 x.2
  | 3 => k.varadixTranslate next x.1 x.2
  | _ => stuck

/-- `H2K_translate`, to a depth. -/
def translate (depth : ℕ) (t : Translation) (info : AsidEntry) : TableWalk Translation :=
  unroll k.translateFuncs depth (t, info)

/-- **A translation returns.** -/
def Translates (t : Translation) (info : AsidEntry) (out : Translation) (log : List WalkEvent) :
    Prop :=
  ∃ depth, (k.translate depth t info).Yields out log

end Maps

/-- `H2K_mem_tlbfmt_from_trans`: nothing without a permission to read, write or execute, or for a
page of the DMA where there is no TLB for it.  (`SIZE_MAX` is that of the C library, and larger than
any page.) -/
def memTlbfmtFromTrans (trans : Translation) (va : BitVec 32) (asid : BitVec 7)
    (tlbSizeDma : BitVec 32) : BitVec 64 :=
  if trans.xwru &&& 0xe = 0 ∨ (trans.hsv39 ∧ tlbSizeDma = 0) then 0
  else
    let sized : BitVec 32 := 1#32 <<< trans.size.toNat
    let ppd := ((trans.pn &&& -sized) <<< 1) ||| sized
    let low := trans.xwru ++ ofBool trans.hsv39 ++ trans.cccc ++ ppd.setWidth 24
    let high := 1#1 ++ 0#1 ++ trans.pn.extractLsb' 23 1 ++ trans.pn.extractLsb' 24 2 ++ asid ++
      (va >>> 12).setWidth 20
    high ++ low

/-! ## What a leaf of a radix table says -/

section Leaf

variable {vpn entry : BitVec 32} {s : ℕ}

theorem toNat_varadixEntrySize (hs : s < 32) (hct0 : ct0 entry = s) :
    (varadixEntrySize entry).toNat = s := by
  rw [varadixEntrySize, toNat_ofNat]
  omega

/-- **The page number of a leaf**: the entry's from its size on, the page's below — and from bit 22
on, where the field of the entry ends. -/
theorem getLsbD_varadixMktrans (hs : s ≤ 22) (hct0 : ct0 entry = s) {i : ℕ} (hi : i < 32) :
    (varadixMktrans vpn entry (varadixEntrySize entry)).pn.getLsbD i =
      if s ≤ i ∧ i < 22 then entry.getLsbD (i + 1) else vpn.getLsbD i := by
  obtain ⟨hbit, hlow⟩ := getLsbD_of_ct0 (by omega) hct0
  have hsize := toNat_varadixEntrySize (by omega) hct0
  have hwidth : (varadixPnBits - varadixEntrySize entry).toNat = 22 - s := by
    have hsub := BitVec.toNat_sub varadixPnBits (varadixEntrySize entry)
    rw [show varadixPnBits.toNat = 22 from rfl] at hsub
    omega
  have hoffset : (1 + varadixEntrySize entry).toNat = 1 + s := by
    rw [BitVec.toNat_add, show (1 : BitVec 32).toNat = 1 from rfl]
    omega
  have hend : s + (22 - s) = 22 := by omega
  rw [varadixMktrans, getLsbD_insertRP (by omega) (by omega) hi, hsize, hwidth, hend]
  split
  · next hin =>
    rw [getLsbD_extractuRP (by omega) (by omega) (by omega), hoffset, hwidth,
      getLsbD_and_pred hbit hlow]
    have hpos : 1 + s + (i - s) = i + 1 := by omega
    simp [hpos, show s < i + 1 by omega, show i - s < 22 - s by omega]
  · rfl

end Leaf

/-! ## What the walkers ask of the translations they call -/

/-- No entry is used. -/
abbrev NoLeaf {α : Type} (w : TableWalk α) : Prop := Logs (fun e => e.notLeaf = true) w

/-- **A lookup**: it returns more where the translations it calls do, and uses no entry. -/
structure Looks {α : Type} (w w' : TableWalk α) : Prop where
  le : w.Le w'
  noLeaf : NoLeaf w

section Looks

variable {α γ σ : Type} {w w' : TableWalk α}

theorem Looks.pure (a : α) : Looks (Pure.pure a) (Pure.pure a) := ⟨.refl _, .pure a⟩

theorem Looks.bind {f f' : α → TableWalk γ} (hw : Looks w w') (hf : ∀ a, Looks (f a) (f' a)) :
    Looks (w >>= f) (w' >>= f') :=
  ⟨.bind hw.le fun a => (hf a).le, .bind hw.noLeaf fun a => (hf a).noLeaf⟩

theorem Looks.loop {step step' : σ → TableWalk (σ ⊕ α)} (h : ∀ s, Looks (step s) (step' s)) (n : ℕ)
    (s : σ) : Looks (unroll (turn step) n s) (unroll (turn step') n s) :=
  ⟨loop_le (fun s => (h s).le) n s, .loop (fun s => (h s).noLeaf) n s⟩

theorem Maps.memwPhys_logs {k : Maps} {P : WalkEvent → Prop} (hread : ∀ pa, P (.read pa))
    (lower upper : BitVec 32) : Logs P (k.memwPhys lower upper) :=
  .bind (.note (hread _)) fun _ => .pure _

theorem Maps.physreadDword_logs {k : Maps} {P : WalkEvent → Prop} (hread : ∀ pa, P (.read pa))
    (pa : BitVec 64) : Logs P (k.physreadDword pa) :=
  .bind (memwPhys_logs hread _ _) fun _ => .bind (memwPhys_logs hread _ _) fun _ => .pure _

end Looks

section Mono

variable {k : Maps} {next next' : TransCalls} (h : ∀ x, (next x).Le (next' x))

include h

theorem VmMap.tablePage_looks (b : VmMap) (tmp : Translation) :
    Looks (b.tablePage next tmp) (b.tablePage next' tmp) :=
  .bind ⟨.refl _, .note rfl⟩ fun _ => .bind ⟨(h _).keeping, .keeping fun _ => id⟩ fun _ => .pure _

theorem VmMap.onward_le (b : VmMap) (t : Translation) :
    (b.onward next t).Le (b.onward next' t) := by
  unfold onward
  split
  · exact h _
  · exact .refl _

theorem VmMap.linearPage_looks (b : VmMap) (s : ListPos) :
    Looks (b.linearPage next s) (b.linearPage next' s) := by
  unfold linearPage
  split
  · exact .pure _
  split
  · exact .pure _
  · exact .bind (b.tablePage_looks h _) fun _ => .pure _

namespace Maps

theorem linearStep_looks (b : VmMap) (badvpn : BitVec 32) (s : ListPos) :
    Looks (k.linearStep next b badvpn s) (k.linearStep next' b badvpn s) :=
  .bind (b.linearPage_looks h s) fun
    | none => .pure _
    | some _ => .bind ⟨.refl _, physreadDword_logs (fun _ => rfl) _⟩ fun _ => .pure _

theorem linearTranslate_le (t : Translation) (info : AsidEntry) :
    (k.linearTranslate next t info).Le (k.linearTranslate next' t info) :=
  .bind (.refl _) fun b => .bind (Looks.loop (linearStep_looks h b t.pn) _ _).le fun
    | none => .refl _
    | some _ => .bind (.refl _) fun _ => b.onward_le h _

theorem tableWord_looks (b : VmMap) (addr : BitVec 64) :
    Looks (k.tableWord next b addr) (k.tableWord next' b addr) := by
  have hword (pa : BitVec 64) : Looks (k.physreadWord pa) (k.physreadWord pa) :=
    ⟨.refl _, memwPhys_logs (fun _ => rfl) _ _⟩
  unfold tableWord
  split
  · exact .bind (hword _) fun _ => .pure _
  · exact .bind (b.tablePage_looks h _) fun
      | none => .pure _
      | some _ => .bind (hword _) fun _ => .pure _

theorem memPagewalkL2_looks (b : VmMap) (pn l2addr : BitVec 32) (pagesize : ℕ) :
    Looks (k.memPagewalkL2 next b pn l2addr pagesize)
    (k.memPagewalkL2 next' b pn l2addr pagesize) :=
  .bind (tableWord_looks h b _) fun
    | none => .pure _
    | some _ => .pure _

theorem memPagewalkAt_looks (b : VmMap) (pn ppn : BitVec 32) :
    Looks (k.memPagewalkAt next b pn ppn) (k.memPagewalkAt next' b pn ppn) := by
  refine .bind ⟨.refl _, memwPhys_logs (fun _ => rfl) _ _⟩ fun raw => ?_
  split
  · exact memPagewalkL2_looks h b pn _ _
  split <;> exact .pure _

theorem memPagewalkL1_looks (b : VmMap) (pn ptb : BitVec 32) :
    Looks (k.memPagewalkL1 next b pn ptb) (k.memPagewalkL1 next' b pn ptb) := by
  unfold memPagewalkL1
  split
  · exact memPagewalkAt_looks h b pn _
  · exact .bind (b.tablePage_looks h _) fun
      | none => .pure _
      | some _ => memPagewalkAt_looks h b pn _

theorem pagewalkTranslate_le (t : Translation) (info : AsidEntry) :
    (k.pagewalkTranslate next t info).Le (k.pagewalkTranslate next' t info) :=
  .bind (.refl _) fun b => .bind (memPagewalkL1_looks h b _ _).le fun _ =>
    .bind (.refl _) fun _ => b.onward_le h _

theorem varadixStep_looks (b : VmMap) (vpn : BitVec 32) (s : RadixPos) :
    Looks (k.varadixStep next b vpn s) (k.varadixStep next' b vpn s) :=
  .bind (tableWord_looks h b _) fun
    | none => .pure _
    | some _ => .pure _

theorem varadixNew_looks (b : VmMap) (vpn ptb vpnbits : BitVec 32) :
    Looks (k.varadixNew next b vpn ptb vpnbits) (k.varadixNew next' b vpn ptb vpnbits) := by
  unfold varadixNew
  split
  · exact .pure _
  · simp only
    split
    · exact .pure _
    · exact .loop (varadixStep_looks h b vpn) _ _

theorem varadixTranslate_le (t : Translation) (info : AsidEntry) :
    (k.varadixTranslate next t info).Le (k.varadixTranslate next' t info) :=
  .bind (.refl _) fun b => .bind (varadixNew_looks h b _ _ _).le fun _ =>
    .bind (.refl _) fun _ => b.onward_le h _

theorem offsetTranslate_le (t : Translation) (info : AsidEntry) :
    (k.offsetTranslate next t info).Le (k.offsetTranslate next' t info) := by
  refine .bind (.refl _) fun _ => .bind (.refl _) fun b => ?_
  split
  · exact h _
  · exact .refl _

end Maps

end Mono

/-! ## What a walk has done, once it has returned -/

theorem ListPos.advance_eq_inr {badvpn : BitVec 32} {s : ListPos} {e : LinearFmt}
    {r : Option LinearFmt} (h : s.advance badvpn e = .inr r) :
    (e = 0 ∧ r = none) ∨ (e ≠ 0 ∧ e.chain = false ∧ e.Covers badvpn ∧ r = some e) := by
  unfold advance at h
  split at h
  · next hzero => exact .inl ⟨hzero, (Sum.inr.inj h).symm⟩
  split at h
  · cases h
  split at h
  · next hzero hchain hcovers =>
    exact .inr ⟨hzero, by simpa using hchain, hcovers, (Sum.inr.inj h).symm⟩
  · cases h

/-- The place after an entry that is not looked for. -/
def ListPos.follow (s : ListPos) (e : LinearFmt) : ListPos :=
  if e.chain then s.chainTo e else s.next

theorem ListPos.advance_eq_inl {badvpn : BitVec 32} {s s' : ListPos} {e : LinearFmt} :
    s.advance badvpn e = .inl s' ↔
      e ≠ 0 ∧ (e.chain = false → ¬e.Covers badvpn) ∧ s' = s.follow e := by
  unfold advance follow
  by_cases hzero : e = 0
  · rw [if_pos hzero]
    exact ⟨nofun, fun h => absurd hzero h.1⟩
  rw [if_neg hzero]
  by_cases hchain : e.chain = true
  · rw [if_pos hchain, if_pos hchain, Sum.inl.injEq]
    exact ⟨fun h => ⟨hzero, fun hc => by simp [hc] at hchain, h.symm⟩, fun h => h.2.2.symm⟩
  rw [if_neg hchain, if_neg hchain]
  by_cases hcovers : e.Covers badvpn
  · rw [if_pos hcovers]
    exact ⟨nofun, fun h => absurd hcovers (h.2.1 (by simpa using hchain))⟩
  · rw [if_neg hcovers, Sum.inl.injEq]
    exact ⟨fun h => ⟨hzero, fun _ => hcovers, h.symm⟩, fun h => h.2.2.symm⟩

/-- The walk goes on with what the last page was translated to. -/
theorem ListPos.follow_tmp (s : ListPos) (e : LinearFmt) : (s.follow e).tmp = s.tmp := by
  unfold follow
  split <;> rfl

section Yields

variable {k : Maps} {b : VmMap} {next : TransCalls} {t out : Translation} {info : AsidEntry}
  {log : List WalkEvent}

/-- **What a lookup of a page does.** -/
theorem VmMap.yields_tablePage {tmp : Translation} {r : Option Translation} :
    (b.tablePage next tmp).Yields r log ↔ ∃ out l, (next (tmp, b.guestmap)).Yields out l ∧
      r = (if out.xwru &&& 2 = 0 then none else some out) ∧
      log = .page tmp b.guestmap :: l.filter WalkEvent.notLeaf := by
  simp only [VmMap.tablePage, yields_bind, yields_note, yields_keeping, yields_pure]
  constructor
  · rintro ⟨_, _, _, rfl, ⟨out, _, _, ⟨l, h, rfl⟩, ⟨rfl, rfl⟩, rfl⟩, rfl⟩
    exact ⟨out, l, h, rfl, by simp⟩
  · rintro ⟨out, l, h, rfl, rfl⟩
    exact ⟨(), _, _, rfl, ⟨out, _, _, ⟨l, h, rfl⟩, ⟨rfl, rfl⟩, rfl⟩, by simp⟩

/-- **What finding the page of an entry does.** -/
theorem VmMap.yields_linearPage {s : ListPos} {r : Option ListPos}
    (h : (b.linearPage next s).Yields r log) : (s.list >>> 12 = s.lastGpn ∧ r = some s ∧ log = []) ∨
    (s.list >>> 12 ≠ s.lastGpn ∧ b.guestmap = noMap ∧ r = some (s.enter (s.list >>> 12) s.tmp) ∧
      log = []) ∨
    (s.list >>> 12 ≠ s.lastGpn ∧ b.guestmap ≠ noMap ∧
      ∃ tmp, (b.tablePage next { s.tmp with pn := s.list >>> 12 }).Yields tmp log ∧
        r = tmp.map fun tmp => s.enter tmp.pn tmp) := by
  unfold linearPage at h
  split at h
  · next hpage => exact .inl ⟨hpage, yields_pure.mp h⟩
  split at h
  · next hpage hmap => exact .inr (.inl ⟨hpage, hmap, yields_pure.mp h⟩)
  · next hpage hmap =>
    obtain ⟨tmp, l₁, l₂, h₁, h₂, rfl⟩ := yields_bind.mp h
    obtain ⟨rfl, rfl⟩ := yields_pure.mp h₂
    exact .inr (.inr ⟨hpage, hmap, tmp, by rwa [List.append_nil], rfl⟩)

/-- What a stage does last: the next one, or none. -/
theorem yields_ite_pure {w : TableWalk Translation} {shared : Bool} {p : Prop} [Decidable p]
    {u : Translation} : Walk.Yields (if shared = false ∧ ¬p then w else pure u) out log ↔
      (shared = false ∧ ¬p ∧ w.Yields out log) ∨ ((shared = true ∨ p) ∧ out = u ∧ log = []) := by
  split
  · next h => simp [h]
  · next h =>
    have h' : shared = true ∨ p := by
      by_cases hp : p
      · exact .inr hp
      · exact .inl (by simpa [hp] using h)
    rw [yields_pure]
    constructor
    · exact fun hout => .inr ⟨h', hout⟩
    · rintro (⟨hs, hmap, -⟩ | ⟨-, hout⟩)
      · exact absurd ⟨hs, hmap⟩ h
      · exact hout

/-- **What is left of a translation.** -/
theorem VmMap.yields_onward : (b.onward next t).Yields out log ↔
      (t.shared = false ∧ b.guestmap ≠ noMap ∧ (next (t, b.guestmap)).Yields out log) ∨
      ((t.shared = true ∨ b.guestmap = noMap) ∧ out = t ∧ log = []) :=
  yields_ite_pure

namespace Maps

theorem yields_vmblock {α : Type} {vmid : BitVec 6} {g : VmMap → TableWalk α} {a : α} :
    (k.vmblock vmid >>= g).Yields a log ↔ ∃ b, k.vmblocks vmid = some b ∧ (g b).Yields a log := by
  unfold vmblock
  rcases k.vmblocks vmid with _ | b <;> simp

/-- A stage that goes on with what it has found. -/
theorem yields_stage {α : Type} {vmid : BitVec 6} {find : VmMap → TableWalk α}
    {xwru : α → BitVec 4} {update : α → Translation} : Walk.Yields (do
      let b ← k.vmblock vmid
      let a ← find b
      note (.leaf (xwru a))
      b.onward next (update a)) out log ↔
    ∃ b a l₁ l₂, k.vmblocks vmid = some b ∧ (find b).Yields a l₁ ∧
      (b.onward next (update a)).Yields out l₂ ∧ log = l₁ ++ .leaf (xwru a) :: l₂ := by
  constructor
  · intro h
    obtain ⟨b, hvm, h⟩ := yields_vmblock.mp h
    obtain ⟨a, l₁, _, ha, hnote, rfl⟩ := yields_bind.mp h
    obtain ⟨l₂, honward, rfl⟩ := yields_note_bind.mp hnote
    exact ⟨b, a, l₁, l₂, hvm, ha, honward, rfl⟩
  · rintro ⟨b, a, l₁, l₂, hvm, ha, h, rfl⟩
    refine yields_vmblock.mpr ⟨b, hvm, yields_bind.mpr ⟨a, l₁, _, ha, ?_, rfl⟩⟩
    exact yields_note_bind.mpr ⟨l₂, h, rfl⟩

/-- The entry at an address. -/
def entryAt (k : Maps) (pa : BitVec 64) : LinearFmt :=
  let upper := ((pa >>> 11).setWidth 32).setWidth 64 <<< 11
  let lower := pa.setWidth 32 &&& 0x7fc
  k.mem (upper ||| ((lower + 4) &&& 0x7ff).setWidth 64) ++
    k.mem (upper ||| (lower &&& 0x7ff).setWidth 64)

theorem yields_physreadDword {pa : BitVec 64} {e : BitVec 64}
    (h : (k.physreadDword pa).Yields e log) : e = k.entryAt pa := by
  obtain ⟨_, _, _, ⟨_, _, _, -, ⟨rfl, -⟩, -⟩,
    ⟨_, _, _, ⟨_, _, _, -, ⟨rfl, -⟩, -⟩, ⟨rfl, -⟩, -⟩, -⟩ := h
  rfl

theorem physreadDword_yields (k : Maps) (pa : BitVec 64) :
    ∃ log, (k.physreadDword pa).Yields (k.entryAt pa) log := ⟨_, rfl⟩

/-- **What a round of the loop does.** -/
theorem yields_linearStep {badvpn : BitVec 32} {s : ListPos} {r : ListPos ⊕ Option LinearFmt} :
    (k.linearStep next b badvpn s).Yields r log ↔
    ((b.linearPage next s).Yields none log ∧ r = .inr none) ∨
    ∃ s' l₁ l₂, (b.linearPage next s).Yields (some s') l₁ ∧
      (k.physreadDword s'.listPa).Yields (k.entryAt s'.listPa) l₂ ∧
      r = s'.advance badvpn (k.entryAt s'.listPa) ∧ log = l₁ ++ l₂ := by
  constructor
  · intro h
    obtain ⟨_ | s', l₁, l₂, h₁, h₂, rfl⟩ := yields_bind.mp h
    · obtain ⟨rfl, rfl⟩ := yields_pure.mp h₂
      exact .inl ⟨by rwa [List.append_nil], rfl⟩
    · obtain ⟨e, l₃, l₄, h₃, h₄, rfl⟩ := yields_bind.mp h₂
      obtain ⟨rfl, rfl⟩ := yields_pure.mp h₄
      obtain rfl := yields_physreadDword h₃
      exact .inr ⟨s', l₁, l₃, h₁, h₃, rfl, by rw [List.append_nil]⟩
  · rintro (⟨h, rfl⟩ | ⟨s', l₁, l₂, h₁, h₂, rfl, rfl⟩)
    · exact yields_bind.mpr ⟨none, log, [], h, yields_pure.mpr ⟨rfl, rfl⟩, (List.append_nil _).symm⟩
    · refine yields_bind.mpr ⟨some s', l₁, l₂, h₁, ?_, rfl⟩
      exact yields_bind.mpr ⟨_, l₂, [], h₂, yields_pure.mpr ⟨rfl, rfl⟩, (List.append_nil _).symm⟩

/-- **What a walk over a list comes to.** -/
theorem yields_linearTranslate : (k.linearTranslate next t info).Yields out log ↔
    ∃ b r l₁ l₂, k.vmblocks info.vmid = some b ∧
      (unroll (turn (k.linearStep next b t.pn)) listPositions (.start info.ptb)).Yields r l₁ ∧
      log = l₁ ++ l₂ ∧
      ((r = none ∧ out = translateBad ∧ l₂ = []) ∨
        ∃ e l₃, r = some e ∧ (b.onward next (linearTranslateUpdate t e)).Yields out l₃ ∧
          l₂ = .leaf e.xwru :: l₃) := by
  constructor
  · intro h
    obtain ⟨b, hvm, h⟩ := yields_vmblock.mp h
    obtain ⟨_ | e, l₁, l₂, hloop, hend, rfl⟩ := yields_bind.mp h
    · obtain ⟨rfl, rfl⟩ := yields_pure.mp hend
      exact ⟨b, none, l₁, [], hvm, hloop, rfl, .inl ⟨rfl, rfl, rfl⟩⟩
    · obtain ⟨l₃, honward, rfl⟩ := yields_note_bind.mp hend
      exact ⟨b, some e, l₁, _, hvm, hloop, rfl, .inr ⟨e, l₃, rfl, honward, rfl⟩⟩
  · rintro ⟨b, r, l₁, l₂, hvm, hloop, rfl, hend⟩
    refine yields_vmblock.mpr ⟨b, hvm, yields_bind.mpr ⟨r, l₁, l₂, hloop, ?_, rfl⟩⟩
    rcases hend with ⟨rfl, rfl, rfl⟩ | ⟨e, l₃, rfl, h, rfl⟩
    · exact yields_pure.mpr ⟨rfl, rfl⟩
    · exact yields_note_bind.mpr ⟨l₃, h, rfl⟩

/-- **What a walk over a table of two levels comes to.** -/
theorem yields_pagewalkTranslate : (k.pagewalkTranslate next t info).Yields out log ↔
    ∃ b pte l₁ l₂, k.vmblocks info.vmid = some b ∧
      (k.memPagewalkL1 next b t.pn info.ptb).Yields pte l₁ ∧
      (b.onward next (pagewalkUpdateTranslation t pte)).Yields out l₂ ∧
      log = l₁ ++ .leaf (Pte.xwru pte) :: l₂ :=
  yields_stage

/-- **What a walk over a table of variable radix comes to.** -/
theorem yields_varadixTranslate : (k.varadixTranslate next t info).Yields out log ↔
    ∃ b new l₁ l₂, k.vmblocks info.vmid = some b ∧
      (k.varadixNew next b t.pn info.ptb (info.extra.setWidth 32)).Yields new l₁ ∧
      (b.onward next (varadixUpdate t new)).Yields out l₂ ∧
      log = l₁ ++ .leaf new.xwru :: l₂ :=
  yields_stage

/-- **What an offset comes to.** -/
theorem yields_offsetTranslate : (k.offsetTranslate next t info).Yields out log ↔
    ∃ b l, k.vmblocks info.vmid = some b ∧ log = .leaf (OffsetFmt.xwru info.ptb) :: l ∧
      (((offsetUpdate t info.ptb).shared = false ∧ b.guestmap ≠ noMap ∧
          (next (offsetUpdate t info.ptb, b.guestmap)).Yields out l) ∨
        (((offsetUpdate t info.ptb).shared = true ∨ b.guestmap = noMap) ∧
          out = k.offsetLowest b t.pn (offsetUpdate t info.ptb) ∧ l = [])) := by
  have hrest (b : VmMap) (l : List WalkEvent) :
      Walk.Yields (if (offsetUpdate t info.ptb).shared = false ∧ b.guestmap ≠ noMap then
        next (offsetUpdate t info.ptb, b.guestmap)
        else pure (k.offsetLowest b t.pn (offsetUpdate t info.ptb))) out l ↔ _ :=
    yields_ite_pure
  constructor
  · intro h
    obtain ⟨l, hvm, rfl⟩ := yields_note_bind.mp h
    obtain ⟨b, hvm, hend⟩ := yields_vmblock.mp hvm
    exact ⟨b, l, hvm, rfl, (hrest b l).mp hend⟩
  · rintro ⟨b, l, hvm, rfl, h⟩
    exact yields_note_bind.mpr ⟨l, yields_vmblock.mpr ⟨b, hvm, (hrest b l).mpr h⟩, rfl⟩

end Maps

end Yields

namespace Maps

variable {k : Maps}

theorem mono_translateFuncs (k : Maps) : Mono k.translateFuncs := by
  intro next next' h x
  unfold translateFuncs
  split
  · exact linearTranslate_le h _ _
  · exact pagewalkTranslate_le h _ _
  · exact offsetTranslate_le h _ _
  · exact varadixTranslate_le h _ _
  · exact .refl _

/-- **A translation has one result.** -/
theorem Translates.inj {t : Translation} {info : AsidEntry} {out out' : Translation}
    {log log' : List WalkEvent} (h : k.Translates t info out log)
    (h' : k.Translates t info out' log') : out = out' ∧ log = log' := by
  obtain ⟨m, h⟩ := h
  obtain ⟨n, h'⟩ := h'
  exact unroll_inj k.mono_translateFuncs h h'

end Maps

end H2
