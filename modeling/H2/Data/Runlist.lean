import H2.Data.Globals

/-!
# Data/Runlist — who runs on which hardware thread

A slot per hardware thread, with the priority of its occupant beside it (`-1` for none) so that the
worst running priority is found without touching a context.
-/

namespace H2

open Function

variable {ι β : Type} [DecidableEq ι]

namespace Sched

/-- `H2K_runlist_push`. -/
@[simps] def runlistPush (t : ι) (s : Sched ι β) : Sched ι β :=
  { s with
    status := update s.status t .running
    runlist := update s.runlist (s.hthread t) (some t)
    runlistPrios := update s.runlistPrios (s.hthread t) (s.prio t) }

/-- `H2K_runlist_remove`. -/
@[simps] def runlistRemove (t : ι) (s : Sched ι β) : Sched ι β :=
  { s with
    runlist := update s.runlist (s.hthread t) none
    runlistPrios := update s.runlistPrios (s.hthread t) (-1) }

/-- `H2K_runlist_set_thread_prio`. -/
@[simps] def runlistSetThreadPrio (t : ι) (prio : ℕ) (s : Sched ι β) : Sched ι β :=
  { s with
    prio := update s.prio t (prio % 256)
    runlistPrios := update s.runlistPrios (s.hthread t) prio }

end Sched

/-! ## The worst running thread -/

/-- The loop of `H2K_runlist_worst_prio` and `H2K_runlist_worst_prio_hthread`: the worst priority
among the first `hthreads` slots and where it was first seen, `-1` and `-1` if all are empty. -/
def worstScan (prios : ℕ → ℤ) (hthreads : ℕ) : ℤ × ℤ :=
  (List.range hthreads).foldl (fun acc i => if acc.1 < prios i then (prios i, (i : ℤ)) else acc)
    (-1, -1)

/-- `H2K_runlist_worst_prio`. -/
def runlistWorstPrio (hthreads : ℕ) (s : Sched ι β) : ℕ :=
  if (worstScan s.runlistPrios hthreads).2 = -1 then maxPrios
  else (worstScan s.runlistPrios hthreads).1.toNat

/-- `H2K_runlist_worst_prio_hthread`, a `u32_t`. -/
def runlistWorstPrioHthread (hthreads : ℕ) (s : Sched ι β) : ℕ :=
  ((worstScan s.runlistPrios hthreads).2 % 2 ^ 32).toNat

theorem worstScan_succ (prios : ℕ → ℤ) (n : ℕ) : worstScan prios (n + 1) =
      if (worstScan prios n).1 < prios n then (prios n, (n : ℤ)) else worstScan prios n := by
  rw [worstScan, List.range_succ, List.foldl_append]
  rfl

/-- What the loop leaves: nothing seen, or the worst of the slots it looked at. -/
theorem worstScan_spec (prios : ℕ → ℤ) (n : ℕ) :
    (worstScan prios n = (-1, -1) ∧ ∀ i < n, prios i ≤ -1) ∨
      ∃ i < n, worstScan prios n = (prios i, (i : ℤ)) ∧ -1 < prios i ∧
        ∀ j < n, prios j ≤ prios i := by
  induction n with
  | zero => exact .inl ⟨rfl, by simp⟩
  | succ n ih =>
    rw [worstScan_succ]
    rcases ih with ⟨hscan, hle⟩ | ⟨i, hi, hscan, hpos, hle⟩ <;> rw [hscan]
    · by_cases h : (-1 : ℤ) < prios n
      · exact .inr ⟨n, n.lt_succ_self, if_pos h, h,
          Nat.forall_lt_succ_right.mpr ⟨fun j hj => (hle j hj).trans h.le, le_rfl⟩⟩
      · exact .inl ⟨if_neg h, Nat.forall_lt_succ_right.mpr ⟨hle, Int.not_lt.mp h⟩⟩
    · by_cases h : prios i < prios n
      · exact .inr ⟨n, n.lt_succ_self, if_pos h, hpos.trans h,
          Nat.forall_lt_succ_right.mpr ⟨fun j hj => (hle j hj).trans h.le, le_rfl⟩⟩
      · exact .inr ⟨i, hi.trans n.lt_succ_self, if_neg h, hpos,
          Nat.forall_lt_succ_right.mpr ⟨hle, Int.not_lt.mp h⟩⟩

end H2
