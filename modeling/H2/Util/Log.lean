import Mathlib.Data.List.Induction
import Mathlib.Data.Nat.Digits.Defs

/-!
# Util/Log — the log of a hardware thread

A message is put together a character at a time in the ring of its hardware thread, numbers by way
of a small buffer, and then sent to the host from where it stands in the ring.

The ring does what it is for: whatever its position, a message that is short enough is sent as it
is, in one piece or in two (`emitString_streams`).  The buffer does not: the padding is the
difference of `width` and the digits, as unsigned numbers, and nothing bounds `width`
(`num_emits_iff`).
-/

namespace H2

open Function

/-! ## Numbers -/

/-- What `num` has done: `text` stands in `buf` from `p` to the terminator, at the end. -/
structure NumBuf where
  text : List Char
  len : BitVec 32
  deriving DecidableEq

namespace NumBuf

/-- `*(--p) = c` and `len++`: none before the start of `buf`, which is of `BUF_SIZE` characters. -/
def put (c : Char) (s : NumBuf) : Option NumBuf :=
  if s.text.length < 31 then some ⟨c :: s.text, s.len + 1⟩ else none

def digit (d : ℕ) : Char := .ofNat (if 10 ≤ d then 'a'.toNat + d - 10 else '0'.toNat + d)

/-- The loop for the digits. -/
def putDigits (base : ℕ) : ℕ → ℕ → NumBuf → Option NumBuf
  | 0, _, _ => none
  | fuel + 1, n, s => do
    let s ← s.put (digit (n % base))
    if 0 < n / base then putDigits base fuel (n / base) s else pure s

/-- The loop for the padding. -/
def putZeros : ℕ → NumBuf → Option NumBuf
  | 0, s => some s
  | zeros + 1, s => s.put '0' >>= putZeros zeros

/-- The padding: `zeros` is a difference of unsigned numbers. -/
def putPadding (width : BitVec 32) (s : NumBuf) : Option NumBuf :=
  if 0 < width then putZeros (width - s.len).toNat s else some s

def putSign (neg : Bool) (s : NumBuf) : Option NumBuf := if neg then s.put '-' else some s

end NumBuf

open NumBuf in
/-- `num`: the text it emits, and `len`.  The digits end within 32 rounds, or leave `buf`. -/
def num (n : BitVec 64) (base : ℕ) (width : BitVec 32) (neg : Bool) :
    Option (List Char × BitVec 32) := do
  let s ← putDigits base 32 n.toNat ⟨[], 0⟩
  let s ← putPadding width s
  let s ← putSign neg s
  pure (s.text, s.len)

/-- **What a number is to look like.** -/
def formatted (n base width : ℕ) (neg : Bool) : List Char :=
  (if neg then ['-'] else []) ++
    (List.replicate (width - (Nat.toDigits base n).length) '0' ++ Nat.toDigits base n)

namespace NumBuf

/-- The buffer with a text in it. -/
def holding (text : List Char) : NumBuf := ⟨text, BitVec.ofNat 32 text.length⟩

theorem digit_eq : ∀ d < 16, digit d = Nat.digitChar d := by decide

theorem put_holding (c : Char) (text : List Char) :
    (holding text).put c = if text.length < 31 then some (holding (c :: text)) else none := by
  unfold holding put
  rw [List.length_cons, BitVec.ofNat_add]
  rfl

theorem putZeros_holding (zeros : ℕ) {text : List Char} (h : text.length ≤ 31) :
    putZeros zeros (holding text) =
      if text.length + zeros ≤ 31 then some (holding (List.replicate zeros '0' ++ text))
      else none := by
  induction zeros generalizing text with
  | zero => simp [putZeros, h]
  | succ zeros ih =>
    rw [putZeros, put_holding]
    by_cases hroom : text.length < 31
    · have hcons : ('0' :: text).length ≤ 31 := hroom
      rw [if_pos hroom, Option.bind_eq_bind, Option.bind_some, ih hcons,
        List.length_cons, List.replicate_succ', List.append_assoc, List.singleton_append]
      simp only [Nat.add_right_comm _ 1 zeros, Nat.add_assoc]
    · rw [if_neg hroom, if_neg (by omega)]
      rfl

/-- The digits are put in front of what is there. -/
theorem putDigits_holding {base : ℕ} (hbase : 1 < base) (hle : base ≤ 16) (fuel n : ℕ)
    {text : List Char} (hfuel : (Nat.toDigits base n).length ≤ fuel)
    (hroom : (Nat.toDigits base n).length + text.length ≤ 31) :
    putDigits base fuel n (holding text) = some (holding (Nat.toDigits base n ++ text)) := by
  induction fuel generalizing n text with
  | zero => exact absurd hfuel (Nat.not_le.mpr Nat.length_toDigits_pos)
  | succ fuel ih =>
    have hpos : 0 < (Nat.toDigits base n).length := Nat.length_toDigits_pos
    have hmod := Nat.mod_lt n (Nat.zero_lt_of_lt hbase)
    rw [putDigits, put_holding, if_pos (by omega), digit_eq _ (hmod.trans_le hle)]
    rw [Nat.toDigits_eq_if hbase] at hfuel hroom ⊢
    rw [Option.bind_eq_bind, Option.bind_some]
    by_cases hlt : n < base
    · rw [if_neg (by simp [Nat.div_eq_of_lt hlt]), if_pos hlt, Nat.mod_eq_of_lt hlt]
      rfl
    · rw [if_neg hlt, List.length_append, List.length_singleton] at hfuel hroom
      rw [if_pos (Nat.div_pos (Nat.not_lt.mp hlt) (Nat.zero_lt_of_lt hbase)), if_neg hlt,
        ih _ (by omega) (by rw [List.length_cons]; omega), List.append_assoc,
        List.singleton_append]

theorem putPadding_holding (width : BitVec 32) {text : List Char} (h : text.length ≤ 31) :
    putPadding width (holding text) =
      if width.toNat = 0 ∨ text.length ≤ width.toNat ∧ width.toNat ≤ 31 then
        some (holding (List.replicate (width.toNat - text.length) '0' ++ text))
      else none := by
  unfold putPadding
  simp only [BitVec.lt_def, BitVec.ofNat_eq_ofNat, BitVec.toNat_zero]
  by_cases hzero : width.toNat = 0
  · rw [if_neg (Nat.not_lt.mpr hzero.le), hzero, Nat.zero_sub]
    rfl
  have hdiff : (width - (holding text).len).toNat =
      (2 ^ 32 - text.length + width.toNat) % 2 ^ 32 := by
    have hlt : text.length < 2 ^ 32 := by omega
    rw [BitVec.toNat_sub, holding, BitVec.toNat_ofNat, Nat.mod_eq_of_lt hlt]
  have := width.isLt
  rw [if_pos (Nat.pos_of_ne_zero hzero), putZeros_holding _ h, hdiff]
  by_cases hle : text.length ≤ width.toNat
  · rw [show (2 ^ 32 - text.length + width.toNat) % 2 ^ 32 = width.toNat - text.length by omega]
    congr 1
    simp only [hzero, hle, false_or, true_and, eq_iff_iff]
    omega
  · rw [if_neg (by omega), if_neg (by tauto)]

theorem putSign_holding (neg : Bool) {text : List Char} (h : text.length ≤ 31) :
    putSign neg (holding text) = if text.length + neg.toNat ≤ 31 then
        some (holding ((if neg then ['-'] else []) ++ text))
      else none := by
  cases neg with
  | false => simp [putSign, h]
  | true => exact put_holding '-' text

end NumBuf

open NumBuf in
/-- **A number is emitted right where no width is given, or one that is not below the digits and
fits into the buffer.** -/
theorem num_emits_iff (n : BitVec 64) {base : ℕ} (hbase : base = 10 ∨ base = 16) (width : BitVec 32)
    (neg : Bool) : num n base width neg = some (formatted n.toNat base width.toNat neg,
        BitVec.ofNat 32 (formatted n.toNat base width.toNat neg).length) ↔
      width.toNat = 0 ∨ (Nat.toDigits base n.toNat).length ≤ width.toNat ∧
        width.toNat + neg.toNat ≤ 31 := by
  have hone : 1 < base := by omega
  have hlen : (Nat.toDigits base n.toNat).length ≤ 20 := by
    rw [Nat.length_toDigits_le_iff hone (by decide)]
    have := n.isLt
    rcases hbase with rfl | rfl <;> omega
  have hdigits : putDigits base 32 n.toNat ⟨[], 0⟩ =
      some (holding (Nat.toDigits base n.toNat)) := by
    rw [← List.append_nil (Nat.toDigits base n.toNat)]
    exact putDigits_holding hone (by omega) 32 n.toNat (by omega) (by rw [List.length_nil]; omega)
  have hneg := Bool.toNat_le neg
  unfold num formatted
  rw [hdigits, Option.bind_eq_bind, Option.bind_some, putPadding_holding width (by omega)]
  generalize Nat.toDigits base n.toNat = digits at *
  by_cases hpad : width.toNat = 0 ∨ digits.length ≤ width.toNat ∧ width.toNat ≤ 31
  · have htotal : (List.replicate (width.toNat - digits.length) '0' ++ digits).length =
        max width.toNat digits.length := by
      rw [List.length_append, List.length_replicate]
      omega
    rw [if_pos hpad, Option.bind_some, putSign_holding neg (by omega)]
    split
    · next hfits =>
      refine iff_of_true rfl ?_
      omega
    · next hfull =>
      refine iff_of_false nofun ?_
      omega
  · rw [if_neg hpad]
    refine iff_of_false nofun ?_
    omega

/-- `%08x` is emitted right … -/
theorem num_emits_eight : num 0xbeef 16 8 false = some (formatted 0xbeef 16 8 false, 8) :=
  (num_emits_iff 0xbeef (.inr rfl) 8 false).mpr (.inr (by decide))

/-- … and `%01x` of two digits leaves the buffer. -/
theorem num_leaves : num 0x10 16 1 false = none := by decide +kernel

/-! ## The ring -/

/-- `LOGBUF_PER_HT_SIZE`. -/
def logbufPerHtSize : ℕ := 4 * 1024

/-- The ring of a hardware thread: `logbuf[htid]` and `logbuf_pos[htid]`. -/
structure LogRing where
  buf : ℕ → Char
  pos : ℕ

namespace LogRing

/-- `logbuf_space`. -/
def space (r : LogRing) : ℕ := logbufPerHtSize - r.pos - 1

/-- `H2K_logbuf_alloc`, with `logbuf_wrap`. -/
def alloc (r : LogRing) (count : ℕ) : ℕ × LogRing :=
  let pos := if r.space < count then 0 else r.pos
  (pos, { r with pos := pos + count })

/-- `emit_char`: none outside the ring. -/
def emitChar (r : LogRing) (c : Char) : Option LogRing :=
  let (ptr, r) := r.alloc 1
  if ptr + 1 < logbufPerHtSize then
    some { r with buf := update (update r.buf ptr c) (ptr + 1) '\x00' }
  else none

/-- `emit_string`, and any other sequence of characters. -/
def emitString (r : LogRing) (s : List Char) : Option LogRing := s.foldlM emitChar r

/-- What `H2K_write` is called with, for a message that began at `start`. -/
def ranges (r : LogRing) (start len : ℕ) : List (ℕ × ℕ) :=
  if r.pos < start then
    [(start, logbufPerHtSize - start - 1), (0, len - (logbufPerHtSize - start - 1))]
  else [(start, len)]

/-- The characters of a range. -/
def chars (r : LogRing) (range : ℕ × ℕ) : List Char := (List.range' range.1 range.2).map r.buf

/-- Where the `i`-th character of a message goes. -/
def slot (start i : ℕ) : ℕ :=
  if start + i < logbufPerHtSize - 1 then start + i else start + i - (logbufPerHtSize - 1)

theorem emitChar_eq {r : LogRing} (hpos : r.pos < logbufPerHtSize) (c : Char) : r.emitChar c = some
      { pos := slot r.pos 0 + 1
        buf := update (update r.buf (slot r.pos 0) c) (slot r.pos 0 + 1) '\x00' } := by
  have hsize : 1 < logbufPerHtSize := by decide
  have hptr : (if r.space < 1 then 0 else r.pos) = slot r.pos 0 := by
    unfold space slot
    split <;> split <;> omega
  have hlt : slot r.pos 0 + 1 < logbufPerHtSize := by
    unfold slot
    split <;> omega
  simp only [emitChar, alloc, hptr, if_pos hlt]

/-- **A message in the ring**: it starts where the ring was, and nothing of it is lost. -/
theorem emitString_spec {r : LogRing} (hpos : r.pos < logbufPerHtSize) (s : List Char)
    (hlen : s.length < logbufPerHtSize - 1) : ∃ r', r.emitString s = some r' ∧
      r'.pos = (if r.pos + s.length < logbufPerHtSize then r.pos + s.length
        else r.pos + s.length - (logbufPerHtSize - 1)) ∧
      ∀ i (h : i < s.length), r'.buf (slot r.pos i) = s[i] := by
  induction s using List.reverseRecOn with
  | nil => exact ⟨r, rfl, (if_pos hpos).symm, nofun⟩
  | append_singleton s c ih =>
    rw [List.length_append, List.length_singleton] at hlen
    obtain ⟨r', hr', hpos', hbuf⟩ := ih (by omega)
    have hlt : r'.pos < logbufPerHtSize := by
      rw [hpos']
      split <;> omega
    have hslot : slot r'.pos 0 = slot r.pos s.length := by
      unfold slot
      split at hpos' <;> split <;> split <;> omega
    have hput : r.emitString (s ++ [c]) = r'.emitChar c := by
      rw [emitString, List.foldlM_append, ← emitString, hr', Option.bind_eq_bind]
      exact bind_pure _
    rw [hput, emitChar_eq hlt, hslot]
    refine ⟨_, rfl, ?_, fun i hi => ?_⟩
    · simp only [slot, List.length_append, List.length_singleton]
      split <;> split <;> omega
    -- neither the character nor the terminator is on one before
    · dsimp only
      rw [List.length_append, List.length_singleton] at hi
      have hnext : slot r.pos i ≠ slot r.pos s.length + 1 := by
        unfold slot
        split <;> split <;> omega
      rw [update_of_ne hnext]
      rcases Nat.lt_succ_iff_lt_or_eq.mp hi with hlt | rfl
      · have hne : slot r.pos i ≠ slot r.pos s.length := by
          unfold slot
          split <;> split <;> omega
        rw [update_of_ne hne, hbuf i hlt, List.getElem_append_left]
      · rw [update_self, List.getElem_concat_length rfl]

theorem chars_eq {r : LogRing} {a : ℕ} {s : List Char}
    (h : ∀ i (h : i < s.length), r.buf (a + i) = s[i]) : r.chars (a, s.length) = s := by
  refine List.ext_getElem (by simp [chars]) fun i _ hi => ?_
  simp [chars, h i hi]

end LogRing

/-! ## The host -/

/-- The loop of `H2K_write`: what the host is sent, as it answers with the bytes that are left, and
what is returned, if it is. -/
def write (buf : List Char) : List ℤ → ℕ → List Char × Option ℤ
  | _, 0 => ([], some buf.length)
  | [], _ + 1 => ([], none)
  | ret :: rets, left + 1 =>
    let request := buf.drop (buf.length - (left + 1))
    if ret < 0 then ([], some ret)
    else
      let (sent, ret') := write buf rets ret.toNat
      (request.take (left + 1 - ret.toNat) ++ sent, ret')

/-- **Each byte once, and in order**: what has been sent, and then what is left, is the text, and
the call returns when nothing is left. -/
def SentInOrder (buf : List Char) (rets : List ℕ) (left : ℕ) : Prop :=
  (write buf (rets.map (↑)) left).1 ++ buf.drop (buf.length - (left :: rets).getLast (by simp)) =
      buf.drop (buf.length - left) ∧
    (write buf (rets.map (↑)) left).2 = if 0 ∈ left :: rets then some (buf.length : ℤ) else none

theorem sentInOrder (buf : List Char) {left : ℕ} (hleft : left ≤ buf.length) (rets : List ℕ)
    (hdec : (left :: rets).IsChain (· > ·)) : SentInOrder buf rets left := by
  induction rets generalizing left with
  | nil => cases left <;> simp [SentInOrder, write]
  | cons ret rets ih =>
    obtain ⟨hlt, hrets⟩ := List.isChain_cons_cons.mp hdec
    obtain ⟨left, rfl⟩ := Nat.exists_eq_add_one.mpr (Nat.zero_lt_of_lt hlt)
    obtain ⟨hsent, hret⟩ := ih (by omega) hrets
    have hrest : buf.drop (buf.length - ret) =
        (buf.drop (buf.length - (left + 1))).drop (left + 1 - ret) := by
      rw [List.drop_drop]
      congr 1
      omega
    simp only [SentInOrder, List.map_cons, write, Int.toNat_natCast,
      if_neg (Int.not_lt.mpr (Int.natCast_nonneg ret))]
    rw [List.getLast_cons (List.cons_ne_nil _ _), List.append_assoc, hsent, hrest,
      List.take_append_drop, hret]
    simp

open LogRing in
/-- **A message is streamed as it is**, from wherever the ring was: every write is inside the ring,
the ranges for `H2K_write` make up the text, and that sends whatever it is given, however little
the host takes at a time. -/
theorem emitString_streams {r : LogRing} (hpos : r.pos < logbufPerHtSize) {s : List Char}
    (hlen : s.length < logbufPerHtSize - 1) :
    (∃ r', r.emitString s = some r' ∧ r'.pos < logbufPerHtSize ∧
      (∀ range ∈ r'.ranges r.pos s.length, range.1 + range.2 < logbufPerHtSize) ∧
      (r'.ranges r.pos s.length).flatMap r'.chars = s) ∧
    ∀ (buf : List Char) (rets : List ℕ), (buf.length :: rets).IsChain (· > ·) →
      SentInOrder buf rets buf.length := by
  refine ⟨?_, fun buf rets hdec => sentInOrder buf le_rfl rets hdec⟩
  obtain ⟨r', hr', hpos', hbuf⟩ := emitString_spec hpos s hlen
  by_cases hend : r.pos + s.length < logbufPerHtSize
  · rw [if_pos hend] at hpos'
    have hranges : r'.ranges r.pos s.length = [(r.pos, s.length)] := if_neg (by omega)
    refine ⟨r', hr', by omega, ?_, ?_⟩
    · simpa [hranges] using hend
    · rw [hranges, List.flatMap_singleton]
      refine chars_eq fun i hi => ?_
      rw [← hbuf i hi, slot, if_pos (by omega)]
  · rw [if_neg hend] at hpos'
    have hranges : r'.ranges r.pos s.length = [(r.pos, logbufPerHtSize - r.pos - 1),
      (0, s.length - (logbufPerHtSize - r.pos - 1))] := if_pos (by omega)
    refine ⟨r', hr', by omega, ?_, ?_⟩
    · rw [hranges]
      simp only [List.forall_mem_cons, List.not_mem_nil, false_implies, implies_true, and_true]
      omega
    · have hfirst := chars_eq (s := s.take (logbufPerHtSize - r.pos - 1)) fun i hi => by
          rw [List.length_take] at hi
          rw [List.getElem_take, ← hbuf i (by omega), slot, if_pos (by omega)]
      have hsecond := chars_eq (r := r') (a := 0) (s := s.drop (logbufPerHtSize - r.pos - 1))
        fun i hi => by
          rw [List.length_drop] at hi
          rw [List.getElem_drop, ← hbuf _ (by omega), slot, if_neg (by omega)]
          exact congrArg r'.buf (by omega)
      rw [List.length_take, Nat.min_eq_left (by omega)] at hfirst
      rw [List.length_drop] at hsecond
      simp only [hranges, List.flatMap_cons, List.flatMap_nil, List.append_nil, hfirst, hsecond,
        List.take_append_drop]

/-- A message that goes round the end of the ring. -/
theorem emitString_streams_round : let r : LogRing := ⟨fun _ => 'a', 4094⟩
    let s := ['h', '2']
    ∃ r', r.emitString s = some r' ∧ (r'.ranges r.pos s.length).flatMap r'.chars = s := by
  obtain ⟨⟨r', hr', -, -, htext⟩, -⟩ := emitString_streams (r := ⟨fun _ => 'a', 4094⟩)
    (s := ['h', '2']) (by decide) (by decide)
  exact ⟨r', hr', htext⟩

end H2
