import H2.Hexagon.Reciprocal
import H2.Time.Ticks

/-!
# Time/TimerOpt — the optimised set-timeout and delta-timeout entries

`timer.v60opt.S` divides by 52 with a long multiplication by `0x4ec4ec4ec4ec4ec5`, packet by
packet, before it jumps to `H2K_timer_set_timeout_tick` with the tick in `r3:2`.  Both entries are
transcribed under the register aliases the source defines for them.

* `setTimeout_ticks` — set-timeout hands over the tick the reference computes, for every timeout;
* `deltaTimeout_v61` — delta-timeout on a core that reads the counter from `s57:56` multiplies
  the low cross product by the counter's low word instead of by one: the counter is read into the
  register that held the constant one packet before that constant is used;
* `deltaTimeout_preV61_ticks` — an older core reads the counter from the device, in the packet
  that uses the constant, and is exact.
-/

namespace H2.TimerOpt

open Hexagon Hexagon.Packet

open Cpu (pair pair_setPreds)

local instance someReg : NeZero 32 := ⟨by decide⟩

local instance someSysReg : NeZero 64 := ⟨by decide⟩

/-- The memory cells the two entries name: globals, and the counter words of the timer device. -/
inductive Cell where
  | timeDevptr
  | timeLastTicks
  | timeLastPcycles
  | hwCountHi
  | hwCountLo
  deriving DecidableEq, Repr

/-- `CORE_V61`. -/
def coreV61 : Word := 0x61

/-- `CORE_REV_ARCH_MASK`. -/
def coreRevArchMask : Word := 0xff

/-- `HW_COUNT_LO`. -/
def hwCountLoOffset : Word := 0x1000

/-- The upper word of the reciprocal of 52. -/
def magicHiWord : Word := 0x4ec4ec4e

/-- The lower word of the reciprocal of 52. -/
def magicLoWord : Word := 0xc4ec4ec5

/-- `H2K_TIME_FOREVER` in a register pair. -/
def foreverPair : Dword := -1

/-- The system registers the code reads: `rev`, the 64-bit timer `s57:56`, the cycle counter
`s31:30`. -/
def sysRev : Fin 64 := 29

def timerHiLo : Fin 64 := 56

def sysPcycle : Fin 64 := 30

/-! ## `H2K_timer_set_timeout` -/

namespace SetTimeout

@[simp] abbrev magicHi : Reg := 15
@[simp] abbrev magicLo : Reg := 14
@[simp] abbrev hl : Reg := 12
@[simp] abbrev hlL : Reg := 12
@[simp] abbrev lh : Reg := 10
@[simp] abbrev lhH : Reg := 11
@[simp] abbrev lhL : Reg := 10
@[simp] abbrev hh : Reg := 8
@[simp] abbrev forever : Reg := 6
@[simp] abbrev timeout : Reg := 2
@[simp] abbrev timeoutHi : Reg := 3
@[simp] abbrev timeoutLo : Reg := 2
@[simp] abbrev one : Reg := 1
@[simp] abbrev zero : Reg := 12
@[simp] abbrev timeoutTick : Reg := 2

/-- The body, up to the jump to `H2K_timer_set_timeout_tick`. -/
def body : List (Packet Cell) := [
  [ (Op.imm magicLo magicLoWord).always, (Op.imm magicHi magicHiWord).always ],
  [ (Op.mpyu hl timeoutHi magicLo).always, (Op.imm lhH 0).always,
    (Op.mpyuHigh lhL timeoutLo magicLo).always,
    (Op.imm one 1).always ],
  [ (Op.mpyuAcc lh timeoutLo magicHi).always, (Op.mpyu hh timeoutHi magicHi).always,
    (Op.immPair forever foreverPair).always ],
  [ (Op.lsrAcc hh hl 32).always, (Op.mpyuAcc lh hlL one).always ],
  [ (Op.lsrAcc hh lh 32).always, (Op.cmpEqPair 0 timeout forever).always ],
  [ (Op.lsr timeoutTick hh 4).always, (Op.immPair zero 0).always ],
  [ ⟨.ifTrue 0, .movePair timeoutTick zero⟩ ] ]

end SetTimeout

open SetTimeout in
/-- What reaches `H2K_timer_set_timeout_tick`, as a function of the timeout's two words. -/
theorem setTimeout_triple (hi lo : Word) :
    Triple (fun c : Cpu Cell => c.r timeoutHi = hi ∧ c.r timeoutLo = lo) body
      (fun c => c.pair timeoutTick = if join hi lo = foreverPair then (0 : Dword)
        else highHalf hi lo magicHiWord magicLoWord 1 >>> 4) := by
  refine .cons (R := fun c => c.r timeoutHi = hi ∧ c.r timeoutLo = lo ∧ c.r magicLo = magicLoWord
    ∧ c.r magicHi = magicHiWord) (fun c h => ?_) ?_
  · simp [exec, h]
  refine .cons (R := fun c => c.r timeoutHi = hi ∧ c.r timeoutLo = lo ∧ c.r magicHi = magicHiWord
    ∧ c.pair hl = wideMul hi magicLoWord ∧ c.pair lh = join 0 (upper (wideMul lo magicLoWord))
    ∧ c.r one = 1) (fun c h => ?_) ?_
  · simp [exec, preds, h]
  refine .cons (R := fun c => c.r timeoutHi = hi ∧ c.r timeoutLo = lo
    ∧ c.pair hl = wideMul hi magicLoWord
    ∧ c.pair lh = join 0 (upper (wideMul lo magicLoWord)) + wideMul lo magicHiWord
    ∧ c.pair hh = wideMul hi magicHiWord ∧ c.pair forever = foreverPair
    ∧ c.r one = 1) (fun c h => ?_) ?_
  · simp [exec, h]
  refine .cons (R := fun c => c.r timeoutHi = hi ∧ c.r timeoutLo = lo
    ∧ c.pair lh = middleColumn hi lo magicHiWord magicLoWord 1
    ∧ c.pair hh = wideMul hi magicHiWord + wideMul hi magicLoWord >>> 32
    ∧ c.pair forever = foreverPair) (fun c h => ?_) ?_
  · have hlow : c.r hlL = lower (wideMul hi magicLoWord) := by
      rw [← h.2.2.1, pair, lower_join]
    simp [exec, preds, middleColumn, hlow, h]
  refine .cons (R := fun c => c.pair hh = highHalf hi lo magicHiWord magicLoWord 1
    ∧ c.p 0 = decide (join hi lo = foreverPair)) (fun c h => ?_) ?_
  · have htimeout : c.pair timeout = join hi lo := by simp [pair, h]
    simp [exec, preds, highHalf, htimeout, h]
  refine .cons (R := fun c => c.pair timeoutTick = highHalf hi lo magicHiWord magicLoWord 1 >>> 4
    ∧ c.pair zero = 0 ∧ c.p 0 = decide (join hi lo = foreverPair)) (fun c h => ?_) ?_
  · simp [exec, preds, h]
  refine .cons (fun c h => ?_) (.nil fun c h => h)
  by_cases hf : join hi lo = foreverPair <;> simp [exec, h, hf]

/-! ## `H2K_timer_delta_timeout` -/

namespace DeltaTimeout

@[simp] abbrev magicLo : Reg := 15
@[simp] abbrev one : Reg := 14
@[simp] abbrev magicLoOne : Reg := 14
@[simp] abbrev hl : Reg := 12
@[simp] abbrev hlL : Reg := 12
@[simp] abbrev lh : Reg := 10
@[simp] abbrev lhH : Reg := 11
@[simp] abbrev lhL : Reg := 10
@[simp] abbrev hh : Reg := 8
@[simp] abbrev crev : Reg := 7
@[simp] abbrev v61 : Reg := 6
@[simp] abbrev devptr : Reg := 5
@[simp] abbrev timeout : Reg := 2
@[simp] abbrev timeoutHi : Reg := 3
@[simp] abbrev timeoutLo : Reg := 2
@[simp] abbrev magicHi : Reg := 0
@[simp] abbrev ticks : Reg := 14
@[simp] abbrev ticksHi : Reg := 15
@[simp] abbrev ticksLo : Reg := 14
@[simp] abbrev ticksHi2 : Reg := 0
@[simp] abbrev min : Reg := 12
@[simp] abbrev lastTicks : Reg := 10
@[simp] abbrev forever : Reg := 0
@[simp] abbrev pcycles : Reg := 8
@[simp] abbrev zero : Reg := 12
@[simp] abbrev timeoutTick : Reg := 6

/-- From the entry to the revision test; the jump to `2` is taken when it leaves `p0`. -/
def head : List (Packet Cell) := [
  [ (Op.sysReg crev sysRev).always, (Op.imm v61 coreV61).always ],
  [ (Op.combine magicLoOne magicLoWord 1).always, (Op.imm magicHi magicHiWord).always ],
  [ (Op.mpyu hl timeoutHi magicLo).always, (Op.imm lhH 0).always,
    (Op.mpyuHigh lhL timeoutLo magicLo).always,
    (Op.loadWord devptr .timeDevptr).always ],
  [ (Op.mpyuAcc lh timeoutLo magicHi).always, (Op.mpyu hh timeoutHi magicHi).always,
    (Op.addImm devptr devptr hwCountLoOffset).always,
    (Op.andImm crev crev coreRevArchMask).always ],
  [ (Op.cmpLtu 0 crev v61).always ] ]

/-- `TICKS = TIMERHILO`, skipped by the jump to `2`. -/
def readTimer : Packet Cell := [ (Op.sysPair ticks timerHiLo).always ]

/-- The packet at `2`: the carries out of the low columns, and the first device reads. -/
def carry : Packet Cell := [
  (Op.lsrAcc hh hl 32).always,
  (Op.mpyuAcc lh hlL one).always,
  ⟨.ifTrue 0, .loadWord ticksHi .hwCountHi⟩,
  ⟨.ifTrue 0, .loadWord ticksLo .hwCountLo⟩ ]

/-- The packet after it, with the second read of the upper word; the jump to `1` is taken when
`p0` is false. -/
def fold : Packet Cell := [
  (Op.lsrAcc hh lh 32).always,
  (Op.immPair min tickGranularity.toBitVec).always,
  ⟨.ifTrue 0, .loadWord ticksHi2 .hwCountHi⟩ ]

/-- The re-read test; the entry is retried when it leaves `p1` false. -/
def retest : Packet Cell := [ (Op.cmpEq 1 ticksHi2 ticksHi).always ]

/-- From `1` to the jump to `H2K_timer_set_timeout_tick`. -/
def tail : List (Packet Cell) := [
  [ (Op.loadPair lastTicks .timeLastTicks).always, (Op.lsr timeoutTick hh 4).always,
    (Op.immPair forever foreverPair).always ],
  [ (Op.sysPair pcycles sysPcycle).always, (Op.maxPair timeoutTick timeoutTick min).always,
    (Op.immPair zero 0).always ],
  [ (Op.cmpGtuPair 1 ticks lastTicks).always, (Op.addPair timeoutTick timeoutTick ticks).always,
    ⟨.ifNew 1, .storePair .timeLastTicks ticks⟩,
    ⟨.ifNew 1, .storePair .timeLastPcycles pcycles⟩ ],
  [ (Op.cmpEqPair 0 timeout forever).always, ⟨.ifNew 0, .movePair timeout zero⟩,
    ⟨.ifNotNew 0, .movePair timeout timeoutTick⟩ ] ]

end DeltaTimeout

open DeltaTimeout

/-- What one attempt reads from the counter of the timer device: upper word, lower word, and the
upper word again. -/
structure CounterRead where
  hi : Word
  lo : Word
  hi2 : Word

/-- The device counter words as the next loads see them. -/
def showCounter (hi lo : Word) (c : Cpu Cell) : Cpu Cell :=
  (c.setMem (join 0 hi) .hwCountHi).setMem (join 0 lo) .hwCountLo

section ShowCounter

variable (hi lo : Word) (c : Cpu Cell)

@[simp] theorem r_showCounter : (showCounter hi lo c).r = c.r := rfl

@[simp] theorem pair_showCounter (d : Reg) : (showCounter hi lo c).pair d = c.pair d := rfl

@[simp] theorem p_showCounter : (showCounter hi lo c).p = c.p := rfl

@[simp] theorem sys_showCounter : (showCounter hi lo c).sys = c.sys := rfl

@[simp] theorem mem_showCounter_hi : (showCounter hi lo c).mem .hwCountHi = join 0 hi := rfl

@[simp] theorem mem_showCounter_lo : (showCounter hi lo c).mem .hwCountLo = join 0 lo := rfl

@[simp] theorem mem_showCounter_lastTicks :
    (showCounter hi lo c).mem .timeLastTicks = c.mem .timeLastTicks := rfl

end ShowCounter

/-- `H2K_timer_delta_timeout`, up to the jump to `H2K_timer_set_timeout_tick`.  An attempt that
sees the upper counter word change starts over; `none` when `reads` runs out of attempts. -/
def deltaTimeout : List CounterRead → Cpu Cell → Option (Cpu Cell)
  | [], _ => none
  | rd :: reads, c =>
    let c := execAll head c
    let c := if c.p 0 then c else readTimer.exec c
    let c := carry.exec (showCounter rd.hi rd.lo c)
    let preV61 := c.p 0
    let c := fold.exec (showCounter rd.hi2 rd.lo c)
    if !preV61 then some (execAll tail c)
    else
      let c := retest.exec c
      if c.p 1 then some (execAll tail c) else deltaTimeout reads c

/-- Up to the revision test the four partial products are in place, the constant one is still in
its register, and nothing outside the scratch registers has changed. -/
theorem head_triple (hi lo : Word) (sys : Fin 64 → Word) (mem : Cell → Dword) :
    Triple (fun c : Cpu Cell => c.r timeoutHi = hi ∧ c.r timeoutLo = lo ∧ c.sys = sys
        ∧ c.mem = mem) head
      (fun c => c.r timeoutHi = hi ∧ c.r timeoutLo = lo ∧ c.sys = sys ∧ c.mem = mem
        ∧ c.pair hl = wideMul hi magicLoWord
        ∧ c.pair lh = join 0 (upper (wideMul lo magicLoWord)) + wideMul lo magicHiWord
        ∧ c.pair hh = wideMul hi magicHiWord
        ∧ c.r one = 1
        ∧ c.p 0 = decide (sys sysRev &&& coreRevArchMask < coreV61)) := by
  refine .cons (R := fun c => c.r timeoutHi = hi ∧ c.r timeoutLo = lo ∧ c.sys = sys ∧ c.mem = mem
    ∧ c.r crev = sys sysRev ∧ c.r v61 = coreV61) (fun c h => ?_) ?_
  · simp [exec, h]
  refine .cons (R := fun c => c.r timeoutHi = hi ∧ c.r timeoutLo = lo ∧ c.sys = sys ∧ c.mem = mem
    ∧ c.r crev = sys sysRev ∧ c.r v61 = coreV61 ∧ c.r magicLo = magicLoWord ∧ c.r one = 1
    ∧ c.r magicHi = magicHiWord) (fun c h => ?_) ?_
  · simp [exec, preds, h]
  refine .cons (R := fun c => c.r timeoutHi = hi ∧ c.r timeoutLo = lo ∧ c.sys = sys ∧ c.mem = mem
    ∧ c.r crev = sys sysRev ∧ c.r v61 = coreV61
    ∧ c.pair hl = wideMul hi magicLoWord ∧ c.pair lh = join 0 (upper (wideMul lo magicLoWord))
    ∧ c.r one = 1 ∧ c.r magicHi = magicHiWord) (fun c h => ?_) ?_
  · simp [exec, h]
  refine .cons (R := fun c => c.r timeoutHi = hi ∧ c.r timeoutLo = lo ∧ c.sys = sys ∧ c.mem = mem
    ∧ c.r crev = sys sysRev &&& coreRevArchMask ∧ c.r v61 = coreV61
    ∧ c.pair hl = wideMul hi magicLoWord
    ∧ c.pair lh = join 0 (upper (wideMul lo magicLoWord)) + wideMul lo magicHiWord
    ∧ c.pair hh = wideMul hi magicHiWord ∧ c.r one = 1) (fun c h => ?_) ?_
  · simp [exec, preds, h]
  refine .cons (fun c h => ?_) (.nil fun c h => h)
  simp [exec, preds, h]

variable {c : Cpu Cell}

/-- The packet at `2` adds the carries: the low cross product is widened by whatever is in the
register of `ONE`. -/
theorem carry_exec {hi lo unit : Word} (hhl : c.pair hl = wideMul hi magicLoWord)
    (hlh : c.pair lh = join 0 (upper (wideMul lo magicLoWord)) + wideMul lo magicHiWord)
    (hhh : c.pair hh = wideMul hi magicHiWord) (hone : c.r one = unit) :
    (carry.exec c).pair hh = wideMul hi magicHiWord + wideMul hi magicLoWord >>> 32
      ∧ (carry.exec c).pair lh = middleColumn hi lo magicHiWord magicLoWord unit
      ∧ (carry.exec c).pair ticks =
          (if c.p 0 then join (lower (c.mem .hwCountHi)) (lower (c.mem .hwCountLo))
           else c.pair ticks)
      ∧ (carry.exec c).pair timeout = c.pair timeout ∧ (carry.exec c).sys = c.sys
      ∧ (carry.exec c).mem = c.mem ∧ (carry.exec c).p 0 = c.p 0 := by
  have hlow : c.r hlL = lower (wideMul hi magicLoWord) := by rw [← hhl, pair, lower_join]
  cases hp : c.p 0 <;>
    simp [carry, exec, preds, middleColumn, hp, hhl, hlh, hhh, hone, hlow]

/-- The packet after it completes the high half and loads the granularity. -/
theorem fold_exec {hi lo unit : Word}
    (hhh : c.pair hh = wideMul hi magicHiWord + wideMul hi magicLoWord >>> 32)
    (hlh : c.pair lh = middleColumn hi lo magicHiWord magicLoWord unit) :
    (fold.exec c).pair hh = highHalf hi lo magicHiWord magicLoWord unit
      ∧ (fold.exec c).pair min = tickGranularity.toBitVec
      ∧ (fold.exec c).pair ticks = c.pair ticks ∧ (fold.exec c).pair timeout = c.pair timeout
      ∧ (fold.exec c).r ticksHi2 = (if c.p 0 then lower (c.mem .hwCountHi) else c.r ticksHi2)
      ∧ (fold.exec c).sys = c.sys ∧ (fold.exec c).mem = c.mem := by
  cases hp : c.p 0 <;> simp [fold, exec, highHalf, hp, hhh, hlh]

/-- The two packets together, with the device words an attempt sees. -/
theorem carry_fold {hi lo unit : Word} (rd : CounterRead)
    (hhl : c.pair hl = wideMul hi magicLoWord)
    (hlh : c.pair lh = join 0 (upper (wideMul lo magicLoWord)) + wideMul lo magicHiWord)
    (hhh : c.pair hh = wideMul hi magicHiWord) (hone : c.r one = unit) :
    ∃ c₁ c₂, carry.exec (showCounter rd.hi rd.lo c) = c₁
      ∧ fold.exec (showCounter rd.hi2 rd.lo c₁) = c₂ ∧ c₁.p 0 = c.p 0
      ∧ c₂.pair hh = highHalf hi lo magicHiWord magicLoWord unit
      ∧ c₂.pair min = tickGranularity.toBitVec
      ∧ c₂.pair ticks = (if c.p 0 then join rd.hi rd.lo else c.pair ticks)
      ∧ (c.p 0 → c₂.r ticksHi2 = rd.hi2)
      ∧ c₂.pair timeout = c.pair timeout ∧ c₂.sys = c.sys
      ∧ c₂.mem .timeLastTicks = c.mem .timeLastTicks := by
  obtain ⟨hh₁, lh₁, ticks₁, timeout₁, sys₁, mem₁, p₁⟩ :=
    carry_exec (c := showCounter rd.hi rd.lo c) (by simpa using hhl) (by simpa using hlh)
      (by simpa using hhh) (by simpa using hone)
  obtain ⟨hh₂, min₂, ticks₂, timeout₂, hi₂, sys₂, mem₂⟩ :=
    fold_exec (c := showCounter rd.hi2 rd.lo (carry.exec (showCounter rd.hi rd.lo c)))
      (by simpa using hh₁) (by simpa using lh₁)
  refine ⟨_, _, rfl, rfl, by simpa using p₁, hh₂, min₂, ?_, ?_, ?_, ?_, ?_⟩
  · simpa using ticks₂.trans (by simpa using ticks₁)
  · intro hp
    simpa [p₁, hp] using hi₂
  · simpa using timeout₂.trans (by simpa using timeout₁)
  · simpa using sys₂.trans (by simpa using sys₁)
  · simpa [mem₁] using congrFun mem₂ .timeLastTicks

/-- From `1` on: the quotient, at least the granularity, is added to the counter, and the counter
is recorded if it is news. -/
theorem tail_triple (delta high now last : Dword) :
    Triple (fun c : Cpu Cell => c.pair timeout = delta ∧ c.pair hh = high
        ∧ c.pair min = tickGranularity.toBitVec ∧ c.pair ticks = now
        ∧ c.mem .timeLastTicks = last) tail
      (fun c => c.pair timeout = (if delta = foreverPair then (0 : Dword)
          else (if (high >>> 4).slt tickGranularity.toBitVec then tickGranularity.toBitVec
            else high >>> 4) + now)
        ∧ c.mem .timeLastTicks = if last < now then now else last) := by
  refine .cons (R := fun c => c.pair timeout = delta ∧ c.pair timeoutTick = high >>> 4
    ∧ c.pair min = tickGranularity.toBitVec ∧ c.pair ticks = now ∧ c.mem .timeLastTicks = last
    ∧ c.pair lastTicks = last ∧ c.pair forever = foreverPair) (fun c h => ?_) ?_
  · simp [exec, h]
  refine .cons (R := fun c => c.pair timeout = delta
    ∧ c.pair timeoutTick = (if (high >>> 4).slt tickGranularity.toBitVec
        then tickGranularity.toBitVec else high >>> 4)
    ∧ c.pair ticks = now ∧ c.mem .timeLastTicks = last
    ∧ c.pair lastTicks = last ∧ c.pair forever = foreverPair ∧ c.pair zero = 0)
    (fun c h => ?_) ?_
  · simp [exec, preds, h]
  refine .cons (R := fun c => c.pair timeout = delta
    ∧ c.pair timeoutTick = (if (high >>> 4).slt tickGranularity.toBitVec
        then tickGranularity.toBitVec else high >>> 4) + now
    ∧ c.mem .timeLastTicks = (if last < now then now else last)
    ∧ c.pair forever = foreverPair ∧ c.pair zero = 0) (fun c h => ?_) ?_
  · by_cases hn : last < now <;> simp [exec, preds, h, hn]
  refine .cons (fun c h => ?_) (.nil fun c h => h)
  by_cases hf : delta = foreverPair <;> simp [exec, preds, h, hf]

/-! ## The ticks handed over

The long multiplication with a unit of one is the exact quotient by 52.  With another word in that
register the middle column is off by a multiple of the low cross product, and the quotient survives
only while that stays inside the sub-tick remainder (`DeltaExact`). -/

/-- The reciprocal of 52, scaled by `2 ^ 68` and rounded up. -/
def magic : ℕ := 0x4ec4ec4ec4ec4ec5

theorem toNat_join_magic : (join magicHiWord magicLoWord).toNat = magic := by decide

/-- The quotient the packets compute when the register of `ONE` holds `unit`. -/
def quotient (delta : Dword) (unit : Word) : Dword :=
  highHalf (upper delta) (lower delta) magicHiWord magicLoWord unit >>> 4

/-- **With a unit of one the quotient is exact**, for every 64-bit dividend. -/
theorem toNat_quotient_one (delta : Dword) : (quotient delta 1).toNat = delta.toNat / 52 := by
  have hdiv : delta.toNat * magic / 2 ^ 68 = delta.toNat / 52 :=
    mul_div_two_pow_eq_div (e := 4) (by norm_num) (by norm_num [magic]) (by omega)
  rw [quotient, BitVec.toNat_ushiftRight, Nat.shiftRight_eq_div_pow, highHalf_eq, toNat_join_magic,
    Nat.div_div_eq_div_mul, ← hdiv]
  norm_num

/-- The quotient for any unit, with the wrap of the middle column. -/
theorem toNat_quotient (delta : Dword) (unit : Word) : (quotient delta unit).toNat =
      (delta.toNat / 2 ^ 32 * magic / 2 ^ 32
        + (delta.toNat % 2 ^ 32 * magic / 2 ^ 32
          + delta.toNat / 2 ^ 32 * magic % 2 ^ 32 * unit.toNat) % 2 ^ 64 / 2 ^ 32) / 16 := by
  rw [quotient, BitVec.toNat_ushiftRight, Nat.shiftRight_eq_div_pow, toNat_highHalf,
    toNat_middleColumn, toNat_join_magic, toNat_upper, toNat_lower]

theorem toNat_quotient_lt (delta : Dword) (unit : Word) : (quotient delta unit).toNat < 2 ^ 60 := by
  rw [quotient, BitVec.toNat_ushiftRight]
  omega

theorem toNat_signedMax {x y : Dword} (hx : x.toNat < 2 ^ 63) (hy : y.toNat < 2 ^ 63) :
    (if x.slt y then y else x).toNat = max x.toNat y.toNat := by
  have hslt : x.slt y = decide (x.toNat < y.toNat) := by
    rw [BitVec.slt_eq_decide, BitVec.toInt_eq_toNat_of_lt (by omega),
      BitVec.toInt_eq_toNat_of_lt (by omega)]
    simp
  rw [hslt]
  by_cases h : x.toNat < y.toNat
  · simp [h, h.le]
  · simp [h, Nat.le_of_not_lt h]

/-- **Where the optimised delta-timeout is exact.**  With the counter's low word in the register of
`ONE`, the middle column is the second summand; the quotient is right when the column still ends
inside the tick `delta / 52`, counted in units of `2 ^ 36` to the tick. -/
def DeltaExact (delta now : ℕ) : Prop :=
  delta / 52 * 2 ^ 36 ≤ delta / 2 ^ 32 * magic / 2 ^ 32 * 2 ^ 32
      + (delta % 2 ^ 32 * magic / 2 ^ 32
        + delta / 2 ^ 32 * magic % 2 ^ 32 * (now % 2 ^ 32)) % 2 ^ 64
    ∧ delta / 2 ^ 32 * magic / 2 ^ 32 * 2 ^ 32
      + (delta % 2 ^ 32 * magic / 2 ^ 32
        + delta / 2 ^ 32 * magic % 2 ^ 32 * (now % 2 ^ 32)) % 2 ^ 64
      < (delta / 52 + 1) * 2 ^ 36

instance (delta now : ℕ) : Decidable (DeltaExact delta now) :=
  inferInstanceAs (Decidable (_ ∧ _))

/-- The condition says that the quotient is right. -/
theorem toNat_quotient_eq_iff (delta now : Dword) :
    (quotient delta (lower now)).toNat = delta.toNat / 52 ↔ DeltaExact delta.toNat now.toNat := by
  rw [toNat_quotient, toNat_lower, DeltaExact]
  omega

/-- Below `2 ^ 32` the low cross product is zero and its multiplier does not matter. -/
theorem quotient_eq_of_lt {delta : Dword} (h : delta.toNat < 2 ^ 32) (unit : Word) :
    quotient delta unit = quotient delta 1 := by
  have hupper : upper delta = 0 := by
    apply BitVec.eq_of_toNat_eq
    rw [toNat_upper, Nat.div_eq_of_lt h]
    rfl
  have hzero (w : Word) : wideMul 0 w = 0 := by simp [wideMul]
  have hlower : lower 0 = 0 := by decide
  simp only [quotient, highHalf, middleColumn, hupper, hzero, hlower]

/-- What delta-timeout hands over when the register of `ONE` holds `unit` at counter `now`. -/
def handedOver (delta now : Dword) (unit : Word) : Dword :=
  if delta = foreverPair then 0
  else (if (quotient delta unit).slt tickGranularity.toBitVec then tickGranularity.toBitVec
    else quotient delta unit) + now

theorem toNat_handedOver {delta now : Dword} (h : delta ≠ foreverPair) (unit : Word) :
    (handedOver delta now unit).toNat =
      (max (quotient delta unit).toNat 4 + now.toNat) % 2 ^ 64 := by
  have hlt := toNat_quotient_lt delta unit
  have hgran : tickGranularity.toBitVec.toNat = 4 := by decide
  rw [handedOver, if_neg h, BitVec.toNat_add, toNat_signedMax (by omega) (by omega), hgran]

/-- The counter a core of revision V61 or later reads, `s57:56`. -/
def timerReg (c : Cpu Cell) : Dword := join (c.sys (timerHiLo + 1)) (c.sys timerHiLo)

/-- The architecture revision as the code tests it. -/
def archRev (c : Cpu Cell) : Word := c.sys sysRev &&& coreRevArchMask

/-- `H2K_timer_update_time` on the recorded counter. -/
def updateTime (last now : Dword) : Dword := if last < now then now else last

/-- `TICKS = TIMERHILO` overwrites the register of `ONE` and nothing else that is live. -/
theorem readTimer_exec (c : Cpu Cell) :
    (readTimer.exec c).pair ticks = timerReg c ∧ (readTimer.exec c).pair hl = c.pair hl
      ∧ (readTimer.exec c).pair lh = c.pair lh ∧ (readTimer.exec c).pair hh = c.pair hh
      ∧ (readTimer.exec c).pair timeout = c.pair timeout ∧ (readTimer.exec c).sys = c.sys
      ∧ (readTimer.exec c).mem = c.mem ∧ (readTimer.exec c).p = c.p := by
  simp [readTimer, exec, preds, timerReg]

/-- The tail, started from a completed high half. -/
theorem tail_handedOver {delta now last : Dword} {unit : Word}
    (htimeout : c.pair timeout = delta)
    (hhh : c.pair hh = highHalf (upper delta) (lower delta) magicHiWord magicLoWord unit)
    (hmin : c.pair min = tickGranularity.toBitVec) (hticks : c.pair ticks = now)
    (hlast : c.mem .timeLastTicks = last) :
    (execAll tail c).pair timeout = handedOver delta now unit
      ∧ (execAll tail c).mem .timeLastTicks = updateTime last now :=
  tail_triple delta _ now last c ⟨htimeout, hhh, hmin, hticks, hlast⟩

/-- **A core of revision V61 or later has the counter in the register of `ONE`** by the time the
low cross product is widened. -/
theorem deltaTimeout_v61 (hrev : coreV61 ≤ archRev c) (rd : CounterRead)
    (reads : List CounterRead) : ∃ c', deltaTimeout (rd :: reads) c = some c'
      ∧ c'.pair timeout = handedOver (c.pair timeout) (timerReg c) (lower (timerReg c))
      ∧ c'.mem .timeLastTicks = updateTime (c.mem .timeLastTicks) (timerReg c) := by
  obtain ⟨hhi, hlo, hsys, hmem, hhl, hlh, hhh, -, hp⟩ :=
    head_triple (upper (c.pair timeout)) (lower (c.pair timeout)) c.sys c.mem c
      ⟨by simp [pair], by simp [pair], rfl, rfl⟩
  obtain ⟨rticks, rhl, rlh, rhh, rtimeout, -, rmem, rp⟩ := readTimer_exec (execAll head c)
  have hnew : (execAll head c).p 0 = false := by
    rw [hp, decide_eq_false_iff_not]
    exact BitVec.not_lt.mpr hrev
  have htimer : timerReg (execAll head c) = timerReg c := by rw [timerReg, hsys, timerReg]
  have hdelta : (execAll head c).pair timeout = c.pair timeout := by
    rw [← join_upper_lower (c.pair timeout), ← hhi, ← hlo]
    simp [pair]
  have hone : (readTimer.exec (execAll head c)).r one = lower (timerReg c) := by
    rw [← htimer, ← rticks, pair, lower_join]
  obtain ⟨c₁, c₂, hc₁, hc₂, hp₁, hh₂, min₂, ticks₂, -, timeout₂, -, last₂⟩ :=
    carry_fold rd (rhl.trans hhl) (rlh.trans hlh) (rhh.trans hhh) hone
  have hticks : c₂.pair ticks = timerReg c := by
    rw [ticks₂, rp, hnew, if_neg (by simp), rticks, htimer]
  obtain ⟨htail, hlast⟩ :=
    tail_handedOver (timeout₂.trans (rtimeout.trans hdelta)) hh₂ min₂ hticks rfl
  refine ⟨execAll tail c₂, ?_, htail, ?_⟩
  · simp [deltaTimeout, hnew, hc₁, hc₂, hp₁, rp]
  · rw [hlast, last₂, rmem, hmem]

/-- An attempt on an older core: the constant is still in its register, and the counter comes from
the device.  The attempt counts when the upper word did not change; otherwise the entry starts
over with the same argument. -/
theorem deltaTimeout_preV61_step (hrev : archRev c < coreV61) (rd : CounterRead)
    (reads : List CounterRead) : ∃ c', c'.pair timeout = c.pair timeout ∧ c'.sys = c.sys
      ∧ c'.mem .timeLastTicks = c.mem .timeLastTicks
      ∧ (rd.hi2 ≠ rd.hi → deltaTimeout (rd :: reads) c = deltaTimeout reads c')
      ∧ (rd.hi2 = rd.hi → ∃ c'', deltaTimeout (rd :: reads) c = some c''
          ∧ c''.pair timeout = handedOver (c.pair timeout) (join rd.hi rd.lo) 1
          ∧ c''.mem .timeLastTicks = updateTime (c.mem .timeLastTicks) (join rd.hi rd.lo)) := by
  obtain ⟨hhi, hlo, hsys, hmem, hhl, hlh, hhh, hone, hp⟩ :=
    head_triple (upper (c.pair timeout)) (lower (c.pair timeout)) c.sys c.mem c
      ⟨by simp [pair], by simp [pair], rfl, rfl⟩
  have hold : (execAll head c).p 0 = true := by
    rw [hp, decide_eq_true_iff]
    exact hrev
  have hdelta : (execAll head c).pair timeout = c.pair timeout := by
    rw [← join_upper_lower (c.pair timeout), ← hhi, ← hlo]
    simp [pair]
  obtain ⟨c₁, c₂, hc₁, hc₂, hp₁, hh₂, min₂, ticks₂, hi₂, timeout₂, sys₂, last₂⟩ :=
    carry_fold rd hhl hlh hhh hone
  rw [hold, if_pos rfl] at ticks₂
  have hre : retest.exec c₂ = c₂.setPreds (Function.update c₂.p 1 (decide (rd.hi2 = rd.hi))) := by
    have hticksHi : c₂.r ticksHi = rd.hi := by
      rw [← upper_join rd.hi rd.lo, ← ticks₂, pair, upper_join]
      rfl
    simp [retest, exec, preds, hi₂ hold, hticksHi]
  refine ⟨retest.exec c₂, ?_, ?_, ?_, ?_, ?_⟩
  · rw [hre, pair_setPreds, timeout₂, hdelta]
  · rw [hre, Cpu.sys_setPreds, sys₂, hsys]
  · rw [hre, Cpu.mem_setPreds, last₂, hmem]
  · intro hne
    simp [deltaTimeout, hold, hc₁, hc₂, hp₁, hre, hne]
  · intro hsame
    refine ⟨execAll tail (retest.exec c₂), ?_, ?_⟩
    · have htest : (retest.exec c₂).p 1 = true := by simp [hre, hsame]
      simp [deltaTimeout, hold, hc₁, hc₂, hp₁, htest]
    · apply tail_handedOver <;> rw [hre]
      · rw [pair_setPreds, timeout₂, hdelta]
      · rw [pair_setPreds, hh₂]
      · rw [pair_setPreds, min₂]
      · rw [pair_setPreds, ticks₂]
      · rw [Cpu.mem_setPreds, last₂, hmem]

/-- After any number of attempts that saw the upper counter word change, the first that did not
decides what is handed over. -/
theorem deltaTimeout_preV61 (hrev : archRev c < coreV61)
    {torn : List CounterRead} (htorn : ∀ rd ∈ torn, rd.hi2 ≠ rd.hi) {rd : CounterRead}
    (hrd : rd.hi2 = rd.hi) (reads : List CounterRead) :
    ∃ c', deltaTimeout (torn ++ rd :: reads) c = some c'
      ∧ c'.pair 2 = handedOver (c.pair 2) (join rd.hi rd.lo) 1
      ∧ c'.mem .timeLastTicks = updateTime (c.mem .timeLastTicks) (join rd.hi rd.lo) := by
  induction torn generalizing c with
  | nil =>
    obtain ⟨-, -, -, -, -, hdone⟩ := deltaTimeout_preV61_step hrev rd reads
    exact hdone hrd
  | cons t torn ih =>
    obtain ⟨c', htimeout, hsys, hlast, hretry, -⟩ :=
      deltaTimeout_preV61_step hrev t (torn ++ rd :: reads)
    have hrev' : archRev c' < coreV61 := by rwa [archRev, hsys]
    obtain ⟨c'', hc'', hpair, hmem⟩ := ih hrev' fun rd hrd => htorn rd (by simp [hrd])
    refine ⟨c'', ?_, ?_, ?_⟩
    · rw [List.cons_append, hretry (htorn t (by simp)), hc'']
    · rw [hpair, htimeout]
    · rw [hmem, hlast]

/-! ## Against the reference -/

theorem toNat_ns2ticks (x : UInt64) : (ns2ticks x).toNat = x.toNat / 52 := by
  simp [ns2ticks, nsecPerTick]

theorem toNat_max (x y : UInt64) : (max x y).toNat = max x.toNat y.toNat := by
  rcases le_total x y with h | h
  · rw [max_eq_right h, max_eq_right (UInt64.le_iff_toNat_le.mp h)]
  · rw [max_eq_left h, max_eq_left (UInt64.le_iff_toNat_le.mp h)]

theorem toNat_deltaTimeoutTicks {delta : UInt64} (h : delta ≠ timeForever) (now : UInt64) :
    (deltaTimeoutTicks now delta).toNat = (now.toNat + max (delta.toNat / 52) 4) % 2 ^ 64 := by
  have hgran : tickGranularity.toNat = 4 := by decide
  rw [deltaTimeoutTicks, if_neg h, UInt64.toNat_add, toNat_max, toNat_ns2ticks, hgran]

theorem handedOver_one (delta now : Dword) :
    handedOver delta now 1 = (deltaTimeoutTicks ⟨now⟩ ⟨delta⟩).toBitVec := by
  by_cases h : delta = foreverPair
  · subst h
    rfl
  · have h' : (⟨delta⟩ : UInt64) ≠ timeForever := fun e => h (congrArg UInt64.toBitVec e)
    apply BitVec.eq_of_toNat_eq
    rw [toNat_handedOver h, toNat_quotient_one, add_comm]
    exact (toNat_deltaTimeoutTicks h' ⟨now⟩).symm

/-- **An older core is exact**: delta-timeout hands over the reference's tick for the counter value
its last attempt read. -/
theorem deltaTimeout_preV61_ticks (hrev : archRev c < coreV61)
    {torn : List CounterRead} (htorn : ∀ rd ∈ torn, rd.hi2 ≠ rd.hi) {rd : CounterRead}
    (hrd : rd.hi2 = rd.hi) (reads : List CounterRead) :
    ∃ c', deltaTimeout (torn ++ rd :: reads) c = some c'
      ∧ c'.pair 2 = (deltaTimeoutTicks ⟨join rd.hi rd.lo⟩ ⟨c.pair 2⟩).toBitVec := by
  obtain ⟨c', hc', hpair, -⟩ := deltaTimeout_preV61 hrev htorn hrd reads
  exact ⟨c', hc', by rw [hpair, handedOver_one]⟩

/-- Set-timeout hands over the reference's tick, for every timeout. -/
theorem setTimeout_ticks (c : Cpu Cell) :
    (execAll SetTimeout.body c).pair 2 = (setTimeoutTicks ⟨c.pair 2⟩).toBitVec := by
  have h := setTimeout_triple (upper (c.pair 2)) (lower (c.pair 2)) c
    ⟨by simp [pair], by simp [pair]⟩
  rw [join_upper_lower] at h
  refine h.trans ?_
  by_cases hf : c.pair 2 = foreverPair
  · rw [hf]
    rfl
  · have hf' : (⟨c.pair 2⟩ : UInt64) ≠ timeForever := fun e => hf (congrArg UInt64.toBitVec e)
    apply BitVec.eq_of_toNat_eq
    rw [if_neg hf, setTimeoutTicks, if_neg hf']
    exact (toNat_quotient_one _).trans (toNat_ns2ticks ⟨c.pair 2⟩).symm

/-- Delta-timeout on a core of revision V61 or later is exact exactly where the condition holds. -/
theorem handedOver_eq_iff {delta now : Dword} (h : delta ≠ foreverPair)
    (hsum : now.toNat + max (delta.toNat / 52) 4 < 2 ^ 64) :
    (handedOver delta now (lower now)).toNat = now.toNat + max (delta.toNat / 52) 4 ↔
      DeltaExact delta.toNat now.toNat := by
  rw [toNat_handedOver h, ← toNat_quotient_eq_iff]
  constructor
  · intro heq
    by_cases hsmall : delta.toNat < 2 ^ 32
    · rw [quotient_eq_of_lt hsmall, toNat_quotient_one]
    · omega
  · intro heq
    omega

/-- **What the two entries hand to `H2K_timer_set_timeout_tick`.**  Set-timeout is exact for every
timeout but forever.  Delta-timeout, on a core of revision V61 or later and at every counter value,
is exact precisely where `DeltaExact` holds. -/
theorem timer_entries_exact_iff (c : Cpu Cell) (rd : CounterRead) (reads : List CounterRead)
    (hf : c.pair 2 ≠ foreverPair) :
    ((execAll SetTimeout.body c).pair 2).toNat = (c.pair 2).toNat / 52 ∧
    (coreV61 ≤ archRev c → (timerReg c).toNat + max ((c.pair 2).toNat / 52) 4 < 2 ^ 64 →
      (deltaTimeoutTicks ⟨timerReg c⟩ ⟨c.pair 2⟩).toNat =
          (timerReg c).toNat + max ((c.pair 2).toNat / 52) 4 ∧
        ((∃ c', deltaTimeout (rd :: reads) c = some c' ∧
            (c'.pair 2).toNat = (timerReg c).toNat + max ((c.pair 2).toNat / 52) 4) ↔
          DeltaExact (c.pair 2).toNat (timerReg c).toNat)) := by
  have hf' : (⟨c.pair 2⟩ : UInt64) ≠ timeForever := fun e => hf (congrArg UInt64.toBitVec e)
  refine ⟨?_, fun hrev hsum => ⟨?_, ?_⟩⟩
  · rw [setTimeout_ticks, setTimeoutTicks, if_neg hf']
    exact toNat_ns2ticks ⟨c.pair 2⟩
  · exact (toNat_deltaTimeoutTicks hf' _).trans (Nat.mod_eq_of_lt hsum)
  · obtain ⟨c', hc', hpair, -⟩ := deltaTimeout_v61 hrev rd reads
    rw [← handedOver_eq_iff hf hsum, ← hpair]
    constructor
    · rintro ⟨c'', hc'', heq⟩
      obtain rfl : c' = c'' := Option.some.inj (hc'.symm.trans hc'')
      exact heq
    · exact fun heq => ⟨c', hc', heq⟩

/-- The registers at the entry: the argument in `r3:2`, the counter in `s57:56`, on a core of
revision `rev`. -/
def entry (delta now : Dword) (rev : Word) : Cpu Cell where
  r i := if i = 3 then upper delta else if i = 2 then lower delta else 0
  p _ := false
  sys i := if i = sysRev then rev else if i = timerHiLo + 1 then upper now
    else if i = timerHiLo then lower now else 0
  mem _ := 0

/-- One second is converted exactly at the counter value of one second. -/
theorem timer_entries_exact_one_second :
    ((execAll SetTimeout.body (entry 1000000000 19200000 0x68)).pair 2).toNat = 19230769 ∧
    ∃ c', deltaTimeout [⟨0, 0, 0⟩] (entry 1000000000 19200000 0x68) = some c' ∧
      (c'.pair 2).toNat = 19200000 + 19230769 := by
  obtain ⟨hset, hdelta⟩ :=
    timer_entries_exact_iff (entry 1000000000 19200000 0x68) ⟨0, 0, 0⟩ [] (by decide)
  exact ⟨hset, (hdelta (by decide) (by decide)).2.mpr (by decide)⟩

/-- A V60 core reads the counter again when the upper word has changed. -/
theorem deltaTimeout_preV61_ticks_torn : ∃ c',
    deltaTimeout [⟨0, 0xffffffff, 1⟩, ⟨1, 2, 1⟩] (entry 1000000000 0 0x60) = some c' ∧
      c'.pair 2 = 0x100000002 + 19230769 := by
  have htorn : ∀ rd ∈ [(⟨0, 0xffffffff, 1⟩ : CounterRead)], rd.hi2 ≠ rd.hi := by decide
  have hrd : (⟨1, 2, 1⟩ : CounterRead).hi2 = 1 := rfl
  exact deltaTimeout_preV61_ticks (by decide) htorn hrd []

/-- A delta of `2 ^ 32` nsecs, some 4.3 seconds, asked for one second after boot on a V68 core:
the packets hand over 923077 ticks more than the reference. -/
theorem deltaTimeout_late :
    (deltaTimeout [⟨0, 0, 0⟩] (entry 0x100000000 19200000 0x68)).map (fun c => (c.pair 2).toNat) =
      some 102718601 ∧
    (deltaTimeoutTicks 19200000 0x100000000).toNat = 101795524 ∧
    19200000 + max (0x100000000 / 52) 4 = 101795524 := by
  decide +kernel

end H2.TimerOpt
