import H2.Data.Readylist
import H2.Hexagon.Packet
import H2.Machinery.Leads

/-!
# Locks/Picolibc — the pool of dynamic locks of the C library

The library takes its locks from an array of 64, with a mask of the slots in use.  A slot is looked
for in the mask, claimed by a compare-and-swap of the whole mask, and given back by clearing its bit
in one of the two words of the mask.

The search counts the zeros below the lowest *one*, and of the lower word only: in an empty pool it
finds slot 32, and as that bit is in the upper word, it finds slot 32 again.  The claim then swaps
the mask for itself and succeeds.  Clearing takes bit 32 for a bit of the lower word, which it is
not, and clears nothing (`getLsbD_atomicClrbit64`).  So every thread gets the same lock, and the
pool is sound along a run exactly if no second lock is asked for and none is closed
(`pool_sound_iff`).
-/

namespace H2.Picolibc

open Function

open Hexagon (lower upper join clrbit getLsbD_bit getLsbD_join getLsbD_lower getLsbD_upper)

variable {ι : Type} [dι : DecidableEq ι]

/-! ## The functions -/

/-- `MAX_LOCKS`. -/
def maxLocks : ℕ := 64

/-- `h2_atomic_clrbit64`: on the half that is taken to hold the bit. -/
def atomicClrbit64 (word : BitVec 64) (bit : ℕ) : BitVec 64 :=
  if 32 < bit then join (clrbit (upper word) (bit - 32)) (lower word)
  else join (upper word) (clrbit (lower word) bit)

/-- The slot `__retarget_lock_init` goes for: `Q6_R_ct0_R(old_in_use)`, whose argument is a word. -/
def lockId (oldInUse : BitVec 64) : ℕ := ct0 (lower oldInUse)

/-- Where a thread is. -/
inductive Pc where
  /-- In none of the functions. -/
  | idle
  /-- In `__retarget_lock_init`, at the top of the loop. -/
  | loop
  /-- With what it has read of `in_use`, before the compare-and-swap. -/
  | claim (oldInUse : BitVec 64)
  deriving DecidableEq

/-- The pool and its threads.  A lock is the number of its slot. -/
structure State (ι : Type) where
  inUse : BitVec 64
  pc : ι → Pc
  /-- The locks handed out and not yet closed. -/
  held : List ℕ
  /-- What was held whenever `NULL` was the answer. -/
  nulls : List (List ℕ)
  /-- The slots closed and not handed out since. -/
  freed : List ℕ
  /-- How many locks have been handed out, … -/
  inits : ℕ
  /-- … and how many closed. -/
  closes : ℕ

namespace State

@[simps] def goto (t : ι) (c : Pc) (s : State ι) : State ι := { s with pc := update s.pc t c }

/-- `__retarget_lock_init`, up to the compare-and-swap. -/
def look (t : ι) (s : State ι) : State ι :=
  if maxLocks ≤ lockId s.inUse then { s with nulls := s.held :: s.nulls }.goto t .idle
  else s.goto t (.claim s.inUse)

/-- A claim that has succeeded. -/
@[simps] def hand (oldInUse : BitVec 64) (s : State ι) : State ι :=
  { s with
    inUse := oldInUse ||| 1#64 <<< lockId oldInUse
    held := lockId oldInUse :: s.held
    freed := s.freed.filter (· ≠ lockId oldInUse)
    inits := s.inits + 1 }

/-- `h2_atomic_compare_swap64`, and the return or the next round. -/
def compareSwap (t : ι) (oldInUse : BitVec 64) (s : State ι) : State ι :=
  if s.inUse = oldInUse then (s.hand oldInUse).goto t .idle else s.goto t .loop

/-- `__retarget_lock_close`, of a lock that is held. -/
@[simps] def close (lock : ℕ) (s : State ι) : State ι :=
  { s with
    inUse := atomicClrbit64 s.inUse lock
    held := s.held.erase lock
    freed := lock :: s.freed
    closes := s.closes + 1 }

end State

inductive Act (ι : Type) where
  | look (t : ι)
  | compareSwap (t : ι)
  | close (t : ι) (lock : ℕ)

def step : Act ι → State ι → Option (State ι)
  | .look t, s => if s.pc t = .idle ∨ s.pc t = .loop then some (s.look t) else none
  | .compareSwap t, s =>
    match s.pc t with
    | .claim oldInUse => some (s.compareSwap t oldInUse)
    | _ => none
  | .close t lock, s => if s.pc t = .idle ∧ lock ∈ s.held then some (s.close lock) else none

/-- The pool at the start. -/
def init : State ι where
  inUse := 0
  pc _ := .idle
  held := []
  nulls := []
  freed := []
  inits := 0
  closes := 0

/-! ## What the pool promises -/

/-- **The pool is sound.** -/
structure Sound (s : State ι) : Prop where
  /-- No lock is handed out twice. -/
  distinct : s.held.Nodup
  /-- The mask tells what is held. -/
  mask : ∀ i < maxLocks, s.inUse.getLsbD i = true ↔ i ∈ s.held
  /-- `NULL` is the answer only if all are held. -/
  null : ∀ held ∈ s.nulls, ∀ i < maxLocks, i ∈ held
  /-- What is closed can be claimed again. -/
  freed : ∀ i ∈ s.freed, s.inUse.getLsbD i = false

/-! ## The search and the release -/

/-- The search never fails, for want of a 64 to answer. -/
theorem lockId_lt (oldInUse : BitVec 64) : lockId oldInUse < maxLocks := by
  have hle : ct0 (lower oldInUse) ≤ (List.range 32).length := List.findIdx_le_length
  exact hle.trans_lt (by decide)

/-- **Clearing a bit** clears that bit and no other, unless it is bit 32: that one stays. -/
theorem getLsbD_atomicClrbit64 (word : BitVec 64) {bit i : ℕ} (hi : i < 64) :
    (atomicClrbit64 word bit).getLsbD i =
      (word.getLsbD i && !(decide (i = bit) && decide (bit ≠ 32))) := by
  have hclr (w : BitVec 32) (n j : ℕ) (hj : j < 32) :
      (clrbit w n).getLsbD j = (w.getLsbD j && !decide (j = n)) := by
    rw [clrbit, BitVec.getLsbD_and, BitVec.getLsbD_not, getLsbD_bit hj, decide_eq_true hj,
      Bool.true_and]
  unfold atomicClrbit64
  split
  · next hbit =>
    rw [getLsbD_join]
    split
    · next hlo =>
      have hne : i ≠ bit := by omega
      rw [getLsbD_lower _ hlo]
      simp [hne]
    · next hhi =>
      have hpos : i - 32 = bit - 32 ↔ i = bit := by omega
      have hne : bit ≠ 32 := by omega
      rw [hclr _ _ _ (by omega), getLsbD_upper _ (by omega), Nat.add_sub_cancel' (by omega)]
      simp [hpos, hne]
  · next hbit =>
    rw [getLsbD_join]
    split
    · next hlo =>
      have hsame : i = bit → bit ≠ 32 := by omega
      rw [hclr _ _ _ hlo, getLsbD_lower _ hlo]
      by_cases h : i = bit <;> simp [h, hsame]
    · next hhi =>
      have hno : ¬(i = bit ∧ bit ≠ 32) := by omega
      rw [getLsbD_upper _ (by omega)]
      by_cases h : i = bit <;> simp_all

theorem atomicClrbit64_stuck (word : BitVec 64) : atomicClrbit64 word 32 = word :=
  BitVec.eq_of_getLsbD_eq fun i hi => by rw [getLsbD_atomicClrbit64 word hi]; simp

/-! ## What becomes of the pool -/

/-- The mask with slot 32 in use, which is as full as it gets. -/
def stuck : BitVec 64 := 1#64 <<< 32

/-- What holds between the steps. -/
structure Inv (s : State ι) : Prop where
  inUse : s.inUse = if s.inits = 0 then 0 else stuck
  claim : ∀ t oldInUse, s.pc t = .claim oldInUse → oldInUse = 0 ∨ oldInUse = stuck
  held : s.held = List.replicate (s.inits - s.closes) 32
  closes : s.closes ≤ s.inits
  nulls : s.nulls = []
  freed : s.closes = 0 → s.freed = []

omit dι in
theorem inv_init : Inv (init : State ι) where
  inUse := rfl
  claim _ _ h := by cases h
  held := rfl
  closes := le_rfl
  nulls := rfl
  freed _ := rfl

section Steps

variable {s s' : State ι} {t : ι}

omit dι in
theorem Inv.inUse_cases (hs : Inv s) : s.inUse = 0 ∨ s.inUse = stuck := by
  rw [hs.inUse]
  split
  · exact .inl rfl
  · exact .inr rfl

theorem Inv.goto (hs : Inv s) {c : Pc}
    (hc : ∀ oldInUse, c = .claim oldInUse → oldInUse = 0 ∨ oldInUse = stuck) :
    Inv (s.goto t c) := by
  refine ⟨hs.inUse, fun u oldInUse hu => ?_, hs.held, hs.closes, hs.nulls, hs.freed⟩
  rw [State.goto_pc] at hu
  by_cases hut : u = t
  · rw [hut, update_self] at hu
    exact hc oldInUse hu
  · rw [update_of_ne hut] at hu
    exact hs.claim u oldInUse hu

/-- What is found is slot 32, and claiming it leaves it in use. -/
theorem lockId_claim {oldInUse : BitVec 64} (h : oldInUse = 0 ∨ oldInUse = stuck) :
    lockId oldInUse = 32 ∧ oldInUse ||| 1#64 <<< lockId oldInUse = stuck := by
  rcases h with rfl | rfl <;> decide

omit dι in
theorem Inv.hand (hs : Inv s) : Inv (s.hand s.inUse) := by
  obtain ⟨hid, hclaimed⟩ := lockId_claim hs.inUse_cases
  refine ⟨?_, hs.claim, ?_, hs.closes.trans (Nat.le_succ _), hs.nulls, fun h => ?_⟩
  · rw [State.hand_inUse, hclaimed, State.hand_inits, if_neg (Nat.succ_ne_zero _)]
  · have hsucc : s.inits + 1 - s.closes = s.inits - s.closes + 1 := Nat.succ_sub hs.closes
    rw [State.hand_held, hid, hs.held, State.hand_inits, State.hand_closes, hsucc,
      List.replicate_succ]
  · rw [State.hand_freed, hs.freed h, List.filter_nil]

omit dι in
theorem Inv.close (hs : Inv s) {lock : ℕ} (hlock : lock ∈ s.held) : Inv (s.close lock) := by
  rw [hs.held, List.mem_replicate] at hlock
  obtain ⟨hpos, rfl⟩ := hlock
  refine ⟨?_, hs.claim, ?_, by rw [State.close_closes, State.close_inits]; omega, hs.nulls,
    fun h => absurd h (Nat.succ_ne_zero _)⟩
  · rw [State.close_inUse, atomicClrbit64_stuck]
    exact hs.inUse
  · have hpred : s.inits - s.closes = s.inits - (s.closes + 1) + 1 := by omega
    rw [State.close_held, hs.held, State.close_inits, State.close_closes, hpred,
      List.replicate_succ, List.erase_cons_head]

/-- **What a step does** to the pool: nothing but move a thread, hand out a lock, or close one. -/
theorem step_cases {a : Act ι} (hs : Inv s) (hstep : step a s = some s') : (∃ t c, s' = s.goto t c ∧
      ∀ oldInUse, c = .claim oldInUse → oldInUse = 0 ∨ oldInUse = stuck) ∨
    (∃ t, s' = (s.hand s.inUse).goto t .idle) ∨ ∃ lock ∈ s.held, s' = s.close lock := by
  cases a with
  | look t =>
    rw [step] at hstep
    split at hstep
    · cases hstep
      rw [State.look, if_neg (Nat.not_le.mpr (lockId_lt _))]
      refine .inl ⟨t, _, rfl, fun oldInUse h => ?_⟩
      rw [← Pc.claim.inj h]
      exact hs.inUse_cases
    · cases hstep
  | compareSwap t =>
    rw [step] at hstep
    split at hstep
    · next oldInUse hc =>
      cases hstep
      rw [State.compareSwap]
      split
      · next heq =>
        rw [← heq]
        exact .inr (.inl ⟨t, rfl⟩)
      · exact .inl ⟨t, .loop, rfl, by simp⟩
    · cases hstep
  | close t lock =>
    rw [step] at hstep
    split at hstep
    · next hc =>
      cases hstep
      exact .inr (.inr ⟨lock, hc.2, rfl⟩)
    · cases hstep

theorem Inv.step {a : Act ι} (hs : Inv s) (hstep : Picolibc.step a s = some s') : Inv s' := by
  rcases step_cases hs hstep with ⟨t, c, rfl, hc⟩ | ⟨t, rfl⟩ | ⟨lock, hlock, rfl⟩
  · exact hs.goto hc
  · exact hs.hand.goto (by simp)
  · exact hs.close hlock

omit dι in
/-- **When a state is sound**: at most one lock has been handed out and none closed, … -/
theorem Inv.sound_of (hs : Inv s) (h : s.inits ≤ 1 ∧ s.closes = 0) : Sound s := by
  obtain ⟨hinits, hcloses⟩ := h
  refine ⟨?_, fun i hi => ?_, fun held hheld => ?_, fun i hi => ?_⟩
  · rw [hs.held]
    exact List.nodup_replicate.mpr (by omega)
  · rw [hs.inUse, hs.held, List.mem_replicate]
    split
    · next hzero => simp [hzero]
    · have hbit : stuck.getLsbD i = decide (i = 32) := by
        revert i
        decide
      rw [hbit, decide_eq_true_iff]
      exact ⟨fun h => ⟨by omega, h⟩, fun h => h.2⟩
  · rw [hs.nulls] at hheld
    cases hheld
  · rw [hs.freed hcloses] at hi
    cases hi

omit dι in
/-- … and if it is, nothing has been handed out or exactly one lock is held. -/
theorem Inv.of_sound (hs : Inv s) (h : Sound s) : s.inits = 0 ∨ s.inits = s.closes + 1 := by
  by_cases hzero : s.inits = 0
  · exact .inl hzero
  · right
    have hbit : 32 ∈ s.held := by
      rw [← h.mask 32 (by decide), hs.inUse, if_neg hzero]
      decide
    have hone : s.inits - s.closes ≤ 1 := by
      have := h.distinct
      rwa [hs.held, List.nodup_replicate] at this
    rw [hs.held, List.mem_replicate] at hbit
    omega

/-- A sound pool with at most one lock handed out and none closed stays like that, if it stays
sound. -/
theorem counts_step {a : Act ι} (hs : Inv s) (hstep : step a s = some s')
    (h : s.inits ≤ 1 ∧ s.closes = 0) (hsound : Sound s') : s'.inits ≤ 1 ∧ s'.closes = 0 := by
  have hafter := (hs.step hstep).of_sound hsound
  rcases step_cases hs hstep with ⟨t, c, rfl, -⟩ | ⟨t, rfl⟩ | ⟨lock, hlock, rfl⟩
  · exact h
  · simp only [State.goto_closes, State.hand_closes] at hafter ⊢
    omega
  · rw [hs.held, List.mem_replicate] at hlock
    simp only [State.close_inits, State.close_closes] at hafter
    omega

end Steps

/-- **The pool is sound along a run exactly if no second lock is handed out and none is closed.** -/
theorem pool_sound_iff {σ : ℕ → State ι} (hσ : Path step (fun _ _ => True) σ) (h₀ : σ 0 = init) :
    (∀ n, Sound (σ n)) ↔ ∀ n, (σ n).inits ≤ 1 ∧ (σ n).closes = 0 := by
  have hinv : ∀ n, Inv (σ n) :=
    hσ.invariant (h₀ ▸ inv_init) fun hi _ hstep => hi.step hstep
  refine ⟨fun h n => ?_, fun h n => (hinv n).sound_of (h n)⟩
  induction n with
  | zero =>
    rw [h₀]
    exact ⟨Nat.zero_le _, rfl⟩
  | succ n ih =>
    rcases hσ n with heq | ⟨a, -, hstep⟩
    · rwa [heq]
    · exact counts_step (hinv n) hstep ih (h (n + 1))

/-- One lock, asked for and kept. -/
def initOnce : List (Act (Fin 2)) := [.look 0, .compareSwap 0]

theorem pool_sound_iff_initOnce : Path step (fun _ _ => True) (trace step initOnce init) ∧
      ∀ n, Sound (trace step initOnce (init : State (Fin 2)) n) := by
  have hrun : ∃ s ∈ runIf step (fun _ _ => true) initOnce init, s.inits = 1 ∧ s.closes = 0 := by
    decide
  obtain ⟨s, hs, hinits, hcloses⟩ := hrun
  obtain ⟨hpath, hend⟩ := Path.trace (fun _ _ _ => trivial) hs
  refine ⟨hpath, (pool_sound_iff hpath rfl).mpr fun n => ?_⟩
  match n with
  | 0 | 1 => exact ⟨by decide, by decide⟩
  | n + 2 =>
    rw [hend (n + 2) (Nat.le_add_left _ _)]
    exact ⟨hinits.le, hcloses⟩

/-- Two threads ask for a lock, one after the other. -/
def initTwice : List (Act (Fin 2)) := [.look 0, .compareSwap 0, .look 1, .compareSwap 1]

/-- They are handed the same one. -/
theorem initTwice_same_lock : ∃ s : State (Fin 2),
    Leads step (fun _ _ => True) init s ∧ s.held = [32, 32] ∧ s.inUse = 1#64 <<< 32 ∧ ¬Sound s := by
  have hrun : ∃ s ∈ runIf step (fun _ _ => true) initTwice init,
      s.held = [32, 32] ∧ s.inUse = 1#64 <<< 32 := by decide +kernel
  obtain ⟨s, hs, hheld, hmask⟩ := hrun
  refine ⟨s, Leads.of_runIf (fun _ _ _ => trivial) .init hs, hheld, hmask, fun hsound => ?_⟩
  have := hsound.distinct
  rw [hheld] at this
  revert this
  decide

end H2.Picolibc
