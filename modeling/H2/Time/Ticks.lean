import Mathlib.Order.Defs.LinearOrder

/-!
# Time/Ticks — tick counts and their conversion

Times are 64-bit tick counts; the guest sees "nsecs", 52 to the tick.  Two values are special:
`timeBigbang` says a timer is not armed, `timeForever` that there is nothing to wait for.
-/

namespace H2

/-- Tick counts are ordered as unsigned numbers. -/
instance tickOrder : LinearOrder UInt64 where
  le_refl := UInt64.le_refl
  le_trans _ _ _ := UInt64.le_trans
  lt_iff_le_not_ge a b := by
    rw [UInt64.lt_iff_toNat_lt, UInt64.le_iff_toNat_le, UInt64.le_iff_toNat_le]
    omega
  le_antisymm _ _ := UInt64.le_antisymm
  le_total a b := UInt64.le_total a b
  toDecidableLE := inferInstance
  toDecidableLT := inferInstance
  toMin := inferInstance
  toMax := inferInstance

/-- `ticks_t`. -/
abbrev Ticks := UInt64

/-- `H2K_TIME_BIGBANG`. -/
def timeBigbang : Ticks := 0

/-- `H2K_TIME_FOREVER`. -/
def timeForever : Ticks := 0xffffffffffffffff

/-- `TICK_GRANULARITY`. -/
def tickGranularity : Ticks := 4

/-- `TIMERHW_NSEC_PER_TICK`. -/
def nsecPerTick : UInt64 := 52

/-- `TIMERHW_NS2TICKS`. -/
def ns2ticks (x : UInt64) : Ticks := x / nsecPerTick

/-- The tick `H2K_timer_set_timeout` hands to `H2K_timer_set_timeout_tick`: asking for forever
disarms the timer. -/
def setTimeoutTicks (timeout : UInt64) : Ticks :=
  if timeout = timeForever then timeBigbang else ns2ticks timeout

/-- The tick `H2K_timer_delta_timeout` hands to `H2K_timer_set_timeout_tick`, at counter `now`. -/
def deltaTimeoutTicks (now : Ticks) (delta : UInt64) : Ticks :=
  if delta = timeForever then timeBigbang else now + max (ns2ticks delta) tickGranularity

end H2
