import H2.Data.Runlist

/-!
# Data/Readylist — the ready rings and their bitmap

A ring per priority, and a bitmap of the rings that are not empty from which the best priority is
found by counting trailing zeros, a half word at a time.
-/

namespace H2

open Function

variable {ι β : Type} [dι : DecidableEq ι] [dβ : DecidableEq β]

/-- `Q6_R_ct0_R`: trailing zeros, 32 for zero. -/
def ct0 (w : BitVec 32) : ℕ := (List.range 32).findIdx w.getLsbD

namespace Sched

/-- The loop of `H2K_ready_best_prio`, with `n` words to go from word `i` on. -/
def bestPrioLoop (valids : ℕ → BitVec 64) : ℕ → ℕ → ℕ → ℕ
  | 0, _, prio => prio
  | n + 1, i, prio =>
    let lo := ct0 ((valids i).extractLsb' 0 32)
    if lo < 32 then prio + lo
    else
      let hi := ct0 ((valids i).extractLsb' 32 32)
      if hi < 32 then prio + lo + hi
      else bestPrioLoop valids n (i + 1) (prio + lo + hi)

/-- `H2K_ready_best_prio`. -/
def readyBestPrio (s : Sched ι β) : ℕ := bestPrioLoop s.readyValids (maxPrios / 64) 0 0

/-- `H2K_ready_any_valid`. -/
def readyAnyValid (s : Sched ι β) : Bool := s.readyBestPrio < maxPrios

/-- The bit of `ready_valids` that stands for a priority. -/
def validBit (valids : ℕ → BitVec 64) (prio : ℕ) : Bool :=
  (valids (prio / 64)).getLsbD (prio % 64)

/-- `H2K_ready_set_prio`. -/
def readySetPrio (prio : ℕ) (valids : ℕ → BitVec 64) : ℕ → BitVec 64 :=
  update valids (prio / 64) (valids (prio / 64) ||| (1#64 <<< (prio % 64)))

/-- `H2K_ready_clear_prio`. -/
def readyClearPrio (prio : ℕ) (valids : ℕ → BitVec 64) : ℕ → BitVec 64 :=
  update valids (prio / 64) (valids (prio / 64) &&& ~~~(1#64 <<< (prio % 64)))

/-- `H2K_ready_append`. -/
@[simps] def readyAppend (t : ι) (s : Sched ι β) : Sched ι β :=
  { s with
    status := update s.status t .ready
    rings := s.rings.append (.ready (s.prio t)) t
    readyValids := readySetPrio (s.prio t) s.readyValids }

/-- `H2K_ready_insert`. -/
@[simps] def readyInsert (t : ι) (s : Sched ι β) : Sched ι β :=
  { s with
    status := update s.status t .ready
    rings := s.rings.insert (.ready (s.prio t)) t
    readyValids := readySetPrio (s.prio t) s.readyValids }

/-- `H2K_ready_remove`. -/
@[simps] def readyRemove (t : ι) (s : Sched ι β) : Sched ι β :=
  { s with
    rings := s.rings.remove (.ready (s.prio t)) t
    readyValids :=
      if (s.rings.remove (.ready (s.prio t)) t).head (.ready (s.prio t)) = none then
        readyClearPrio (s.prio t) s.readyValids
      else s.readyValids }

end Sched

/-! ## The bitmap -/

/-- `r` is the first index in `[lo, hi)` where `p` holds, or `hi` if there is none. -/
def FirstIn (p : ℕ → Bool) (lo hi r : ℕ) : Prop :=
  (∀ q, lo ≤ q → q < r → p q = false) ∧ (r = hi ∨ lo ≤ r ∧ r < hi ∧ p r = true)

theorem firstIn_findIdx (p : ℕ → Bool) (n : ℕ) : FirstIn p 0 n ((List.range n).findIdx p) := by
  have hle : (List.range n).findIdx p ≤ n := by
    have : (List.range n).findIdx p ≤ (List.range n).length := List.findIdx_le_length
    simpa using this
  refine ⟨fun q _ hq => ?_, ?_⟩
  · have := List.not_of_lt_findIdx hq
    simpa using this
  · rcases hle.lt_or_eq with h | h
    · have hlen : (List.range n).findIdx p < (List.range n).length := by simpa using h
      have := List.findIdx_getElem (w := hlen)
      exact .inr ⟨Nat.zero_le _, h, by simpa using this⟩
    · exact .inl h

theorem FirstIn.trans {p : ℕ → Bool} {lo mid hi r : ℕ} (h₁ : FirstIn p lo mid mid)
    (hlm : lo ≤ mid) (h₂ : FirstIn p mid hi r) : FirstIn p lo hi r := by
  refine ⟨fun q hq hqr => ?_, ?_⟩
  · rcases Nat.lt_or_ge q mid with h | h
    · exact h₁.1 q hq h
    · exact h₂.1 q h hqr
  · rcases h₂.2 with h | ⟨h, h', hp⟩
    · exact .inl h
    · exact .inr ⟨hlm.trans h, h', hp⟩

theorem firstIn_ct0 (w : BitVec 32) : FirstIn w.getLsbD 0 32 (ct0 w) := firstIn_findIdx ..

namespace Sched

/-- Half a word of the bitmap, from bit `c` on. -/
theorem firstIn_half (valids : ℕ → BitVec 64) (i : ℕ) {c : ℕ} (hc : c = 0 ∨ c = 32) :
    FirstIn (validBit valids) (64 * i + c) (64 * i + c + 32)
      (64 * i + c + ct0 ((valids i).extractLsb' c 32)) := by
  have hbit {q : ℕ} (hq : q < 32) :
      validBit valids (64 * i + c + q) = ((valids i).extractLsb' c 32).getLsbD q := by
    have hdiv : (64 * i + c + q) / 64 = i := by omega
    have hmod : (64 * i + c + q) % 64 = c + q := by omega
    rw [validBit, hdiv, hmod, BitVec.getLsbD_extractLsb']
    simp [hq]
  obtain ⟨hbefore, hend⟩ := firstIn_ct0 ((valids i).extractLsb' c 32)
  refine ⟨fun q hq hlt => ?_, ?_⟩
  · obtain ⟨d, rfl⟩ := Nat.exists_eq_add_of_le hq
    have hd : d < ct0 ((valids i).extractLsb' c 32) := by omega
    have hd32 : d < 32 := by
      rcases hend with h | ⟨-, h, -⟩ <;> omega
    rw [hbit hd32]
    exact hbefore d (Nat.zero_le d) hd
  · rcases hend with h | ⟨-, hlt, hp⟩
    · exact .inl (by rw [h])
    · exact .inr ⟨by omega, by omega, by rw [hbit hlt, hp]⟩

/-- The loop finds the first valid priority from word `i` on. -/
theorem firstIn_bestPrioLoop (valids : ℕ → BitVec 64) :
    ∀ n i : ℕ, FirstIn (validBit valids) (64 * i) (64 * (i + n)) (bestPrioLoop valids n i (64 * i))
  | 0, i => ⟨fun q hq hlt => absurd hlt (by simp [bestPrioLoop]; omega), .inl rfl⟩
  | n + 1, i => by
      have hlo := firstIn_half valids i (.inl rfl)
      have hhi := firstIn_half valids i (.inr rfl)
      rw [Nat.add_zero] at hlo
      rw [bestPrioLoop]
      split
      · next h =>
        refine ⟨hlo.1, .inr ?_⟩
        rcases hlo.2 with h' | ⟨-, -, hp⟩
        · omega
        · exact ⟨by omega, by omega, hp⟩
      · next h =>
        have hlo32 : ct0 ((valids i).extractLsb' 0 32) = 32 := by
          rcases hlo.2 with h' | ⟨-, h', -⟩ <;> omega
        rw [hlo32] at hlo ⊢
        simp only
        split
        · next h =>
          refine (FirstIn.trans hlo (by omega) ⟨hhi.1, .inr ?_⟩ :
            FirstIn _ _ (64 * (i + (n + 1))) _)
          rcases hhi.2 with h' | ⟨-, -, hp⟩
          · omega
          · exact ⟨by omega, by omega, hp⟩
        · next h =>
          have hhi32 : ct0 ((valids i).extractLsb' 32 32) = 32 := by
            rcases hhi.2 with h' | ⟨-, h', -⟩ <;> omega
          rw [hhi32] at hhi ⊢
          have hrest := firstIn_bestPrioLoop valids n (i + 1)
          have hnext : 64 * (i + 1) = 64 * i + 32 + 32 := by omega
          have hall : 64 * (i + 1 + n) = 64 * (i + (n + 1)) := by omega
          rw [hall, hnext] at hrest
          exact hlo.trans (by omega) (hhi.trans (by omega) hrest)

omit dι dβ in
/-- **The best priority** is the first valid one, `MAX_PRIOS` if there is none. -/
theorem firstIn_readyBestPrio (s : Sched ι β) :
    FirstIn (validBit s.readyValids) 0 maxPrios s.readyBestPrio :=
  firstIn_bestPrioLoop s.readyValids 4 0

theorem getLsbD_prioBit {p q : ℕ} (h : q / 64 = p / 64) :
    (1#64 <<< (p % 64)).getLsbD (q % 64) = decide (q = p) := by
  have hq : q % 64 < 64 := Nat.mod_lt _ (by decide)
  rw [BitVec.getLsbD_shiftLeft]
  by_cases hqp : q = p
  · subst hqp
    simp [hq]
  · simp [hqp, hq]
    omega

theorem validBit_readySetPrio (valids : ℕ → BitVec 64) (p q : ℕ) :
    validBit (readySetPrio p valids) q = (decide (q = p) || validBit valids q) := by
  rw [validBit, readySetPrio, update_apply, validBit]
  split
  · next h => rw [BitVec.getLsbD_or, getLsbD_prioBit h, h, Bool.or_comm]
  · next h =>
    have hqp : q ≠ p := fun e => h (by rw [e])
    simp [hqp]

theorem validBit_readyClearPrio (valids : ℕ → BitVec 64) (p q : ℕ) :
    validBit (readyClearPrio p valids) q = (!decide (q = p) && validBit valids q) := by
  rw [validBit, readyClearPrio, update_apply, validBit]
  split
  · next h =>
    have hq : q % 64 < 64 := Nat.mod_lt _ (by decide)
    rw [BitVec.getLsbD_and, BitVec.getLsbD_not, getLsbD_prioBit h, h, Bool.and_comm]
    simp [hq]
  · next h =>
    have hqp : q ≠ p := fun e => h (by rw [e])
    simp [hqp]

end Sched

end H2
