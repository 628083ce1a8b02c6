import H2.Futex.Waiters
import H2.Hexagon.Packet
import H2.Machinery.Leads
import Mathlib.Algebra.Order.BigOperators.Group.Finset
import Mathlib.Algebra.Module.NatInt
import Mathlib.Data.Fintype.BigOperators

/-!
# Posix/Sem — the semaphore

A semaphore is a word of two halves: its value below, and above it the number of threads that have
announced that they wait.  A thread that finds the value positive takes one off and is through; one
that finds it zero announces itself and goes to sleep in the kernel, if the word is still what it
has seen.  Who adds to a semaphore with announced threads has the kernel wake as many as the amount.
A woken thread has no claim on the value: it looks at the word again, and may have to go back to
sleep.

Each function is cut at its atomic changes of the word and at its traps, and the threads take these
pieces in any order.  The halves count what they are meant to count, and no wake-up is lost
(`sem_correct`): as long as somebody sleeps, there are at least as many threads up and wake-ups
under way as the value says.  What a post returns is the number of threads it woke, unless it fails
(`semAdd_result`).  The traps are taken as the kernel makes them (`futexResume_rouses`,
`futexWait_sleeps`).
-/

namespace H2.Sem

open Function Finset BitVec

open Hexagon (bitsclr)

variable {ι : Type} [dι : DecidableEq ι] [fι : Fintype ι]

/-! ## The word -/

/-- The value of the semaphore. -/
def low (w : BitVec 32) : ℕ := w.toNat % 0x10000

/-- The number of threads waiting. -/
def high (w : BitVec 32) : ℕ := w.toNat / 0x10000

/-- A word from its halves. -/
def halves (hi lo : ℕ) : BitVec 32 := BitVec.ofNat 32 (hi * 0x10000 + lo)

/-- `vadduh(Rs,Rt):sat`. -/
def vadduh (x y : BitVec 32) : BitVec 32 :=
  halves (min (high x + high y) 0xffff) (min (low x + low y) 0xffff)

/-- `vsubuh(Rs,Rt):sat`. -/
def vsubuh (x y : BitVec 32) : BitVec 32 := halves (high x - high y) (low x - low y)

/-! ## The functions, up to a trap or the return -/

/-- Where a thread is. -/
inductive Pc where
  /-- In none of the functions. -/
  | idle
  /-- At `.Ldo_block` with `SEMVAL`, on its way to the kernel. -/
  | block (semval : BitVec 32)
  /-- In the futex queue. -/
  | asleep
  /-- At `.Ldo_block_atomic`, back from the kernel. -/
  | awake
  /-- At `.Ldo_trap` with `AMOUNT`, on its way to the kernel. -/
  | wake (amount : ℕ)
  deriving DecidableEq

/-- The thread is in the trap that waits, or about to be. -/
def Pc.waits : Pc → Bool
  | .block _ | .asleep => true
  | _ => false

/-- A semaphore and its threads, with what has been added to it and how many have been let
through. -/
structure State (ι : Type) where
  word : BitVec 32
  pc : ι → Pc
  added : ℕ
  waited : ℕ

namespace State

@[simps] def goto (t : ι) (c : Pc) (s : State ι) : State ι := { s with pc := update s.pc t c }

@[simps] def complete (w : BitVec 32) (s : State ι) : State ι :=
  { s with word := w, waited := s.waited + 1 }

/-- `pthread_sem_wait_np`, up to its trap. -/
def semWait (t : ι) (s : State ι) : State ι :=
  if low s.word = 0 then
    let semvalNew := 0x10000 + s.word
    { s with word := semvalNew }.goto t (.block semvalNew)
  else s.complete (s.word - 1)

/-- `pthread_sem_wait_np`, from `.Ldo_block_atomic` on. -/
def blockAtomic (t : ι) (s : State ι) : State ι :=
  if low s.word = 0 then s.goto t (.block s.word)
  else (s.complete (vsubuh s.word 0x10001)).goto t .idle

/-- `pthread_sem_trywait_np`. -/
def semTrywait (s : State ι) : State ι :=
  if low s.word = 0 then s else s.complete (s.word - 1)

/-- `pthread_sem_add_np`, up to its trap. -/
def semAdd (t : ι) (amount : ℕ) (s : State ι) : State ι :=
  let maxsemval := 0x7fff - amount
  if maxsemval < low s.word then s
  else
    let s' := { s with
      word := vadduh s.word (BitVec.ofNat 32 amount)
      added := s.added + amount }
    if bitsclr s.word 0xffff8000 then s' else s'.goto t (.wake amount)

def sleepers (s : State ι) : Finset ι := {t | s.pc t = .asleep}

/-- `H2_TRAP_FUTEX_WAKE`, when it makes the threads of `W` ready. -/
def rouse (t : ι) (W : Finset ι) (s : State ι) : State ι :=
  { s with pc := fun u => if u ∈ W then .awake else s.pc u }.goto t .idle

end State

open State

inductive Act (ι : Type) where
  | wait (t : ι)
  | trywait (t : ι)
  | add (t : ι) (amount : ℕ)
  /-- `H2_TRAP_FUTEX_WAIT`. -/
  | futexWait (t : ι)
  /-- The trap comes back for another reason, with or without having slept. -/
  | spurious (t : ι)
  /-- `H2_TRAP_FUTEX_WAKE`; a trap that fails changes nothing, and is taken again. -/
  | futexWake (t : ι) (W : Finset ι)
  | retry (t : ι)

def step : Act ι → State ι → Option (State ι)
  | .wait t, s => if s.pc t = .idle then some (s.semWait t) else none
  | .trywait t, s => if s.pc t = .idle then some s.semTrywait else none
  | .add t amount, s =>
    if s.pc t = .idle ∧ 1 ≤ amount ∧ amount ≤ 0x7fff then some (s.semAdd t amount) else none
  | .futexWait t, s =>
    match s.pc t with
    | .block semval => some (s.goto t (if s.word = semval then .asleep else .awake))
    | _ => none
  | .spurious t, s => if (s.pc t).waits then some (s.goto t .awake) else none
  | .futexWake t W, s =>
    match s.pc t with
    | .wake amount =>
      if W ⊆ s.sleepers ∧ W.card = min amount s.sleepers.card then some (s.rouse t W) else none
    | _ => none
  | .retry t, s => if s.pc t = .awake then some (s.blockAtomic t) else none

/-- A new semaphore. -/
def init (value : BitVec 16) : State ι where
  word := value.setWidth 32
  pc _ := .idle
  added := 0
  waited := 0

/-! ## Arithmetic of the halves -/

section Halves

variable {w : BitVec 32} {hi lo k : ℕ}

theorem low_halves (hlo : lo < 0x10000) : low (halves hi lo) = lo := by
  simp only [low, halves, toNat_ofNat]
  omega

theorem high_halves (hhi : hi < 0x10000) (hlo : lo < 0x10000) : high (halves hi lo) = hi := by
  simp only [high, halves, toNat_ofNat]
  omega

theorem high_lt (w : BitVec 32) : high w < 0x10000 := by
  have := w.isLt
  unfold high
  omega

theorem low_lt (w : BitVec 32) : low w < 0x10000 := by
  unfold low
  omega

theorem sub_one (h : low w ≠ 0) : low (w - 1) = low w - 1 ∧ high (w - 1) = high w := by
  have hsub : (w - 1).toNat = w.toNat - 1 := by
    have hone : (1 : BitVec 32).toNat = 1 := rfl
    rw [toNat_sub]
    unfold low at h
    omega
  unfold low at h ⊢
  unfold high
  omega

theorem add_waiter (h : high w < 0xffff) :
    low (0x10000 + w) = low w ∧ high (0x10000 + w) = high w + 1 := by
  have hadd : (0x10000 + w).toNat = w.toNat + 0x10000 := by
    have hunit : (0x10000 : BitVec 32).toNat = 0x10000 := rfl
    rw [toNat_add]
    unfold high at h
    omega
  unfold low high
  omega

theorem sub_both : low (vsubuh w 0x10001) = low w - 1 ∧ high (vsubuh w 0x10001) = high w - 1 := by
  have hhi := high_lt w
  have hlo := low_lt w
  have hone : high 0x10001 = 1 ∧ low 0x10001 = 1 := by decide
  exact ⟨low_halves (by omega), high_halves (by omega) (by omega)⟩

theorem add_value (hk : k ≤ 0x7fff) (h : low w ≤ 0x7fff - k) :
    low (vadduh w (BitVec.ofNat 32 k)) = low w + k ∧
      high (vadduh w (BitVec.ofNat 32 k)) = high w := by
  have hhi := high_lt w
  have hk' : high (BitVec.ofNat 32 k) = 0 ∧ low (BitVec.ofNat 32 k) = k := by
    simp only [high, low, toNat_ofNat]
    omega
  have hmin : min (high w + 0) 0xffff = high w ∧ min (low w + k) 0xffff = low w + k := by omega
  rw [vadduh, hk'.1, hk'.2, hmin.1, hmin.2]
  exact ⟨low_halves (by omega), high_halves (by omega) (by omega)⟩

/-- The test for nobody waiting looks at one bit too many, which is not set. -/
theorem bitsclr_iff (h : low w ≤ 0x7fff) : bitsclr w 0xffff8000 = true ↔ high w = 0 := by
  have hmask (i : ℕ) (hi : i < 32) : getLsbD (0xffff8000 : BitVec 32) i = decide (15 ≤ i) := by
    have hshift : (0xffff8000 : BitVec 32) = allOnes 32 <<< 15 := by decide
    have hi' : i - 15 < 32 := by omega
    rw [hshift, getLsbD_shiftLeft, getLsbD_allOnes]
    by_cases h15 : 15 ≤ i
    · simp [hi, hi', h15]
    · simp [h15]
  have hsmall : high w = 0 ↔ w.toNat < 2 ^ 15 := by
    unfold low at h
    unfold high
    omega
  rw [bitsclr, decide_eq_true_iff, hsmall]
  constructor
  · intro hclr
    by_contra hge
    obtain ⟨i, hi, hbit⟩ := Nat.exists_ge_and_testBit_of_ge_two_pow (Nat.le_of_not_lt hge)
    have hi32 : i < 32 := lt_of_getLsbD hbit
    have hboth : (w &&& 0xffff8000).getLsbD i = true := by
      rw [getLsbD_and, hmask i hi32, decide_eq_true hi, Bool.and_true]
      exact hbit
    rw [hclr] at hboth
    simp at hboth
  · intro hlt
    refine eq_of_getLsbD_eq fun i hi => ?_
    rw [getLsbD_and, hmask i hi]
    by_cases h15 : 15 ≤ i
    · have hbit : w.getLsbD i = false :=
        Nat.testBit_lt_two_pow (hlt.trans_le (Nat.pow_le_pow_right (by decide) h15))
      simp [hbit]
    · simp [h15]

end Halves

/-! ## Counting threads -/

/-- A quantity summed over the threads. -/
def total (f : Pc → ℕ) (pc : ι → Pc) : ℕ := ∑ t, f (pc t)

theorem total_update (f : Pc → ℕ) (pc : ι → Pc) (t : ι) (c : Pc) :
    total f (update pc t c) + f (pc t) = total f pc + f c := by
  have hrest : ∑ u ∈ univ.erase t, f (update pc t c u) = ∑ u ∈ univ.erase t, f (pc u) :=
    sum_congr rfl fun u hu => by rw [update_of_ne (ne_of_mem_erase hu)]
  have hnew := sum_erase_add univ (fun u => f (update pc t c u)) (mem_univ t)
  have hold := sum_erase_add univ (fun u => f (pc u)) (mem_univ t)
  simp only [update_self] at hnew
  unfold total
  omega

/-- Some threads, all of them at `c`, go to `c'`. -/
theorem total_ite (f : Pc → ℕ) (pc : ι → Pc) (W : Finset ι) {c c' : Pc} (hW : ∀ u ∈ W, pc u = c) :
    total f (fun u => if u ∈ W then c' else pc u) + W.card * f c = total f pc + W.card * f c' := by
  have hin : ∑ u ∈ W, f (if u ∈ W then c' else pc u) = W.card * f c' := by
    rw [sum_congr rfl fun u hu => by rw [if_pos hu], sum_const, smul_eq_mul]
  have hold : ∑ u ∈ W, f (pc u) = W.card * f c := by
    rw [sum_congr rfl fun u hu => by rw [hW u hu], sum_const, smul_eq_mul]
  have hout : ∑ u ∈ Wᶜ, f (if u ∈ W then c' else pc u) = ∑ u ∈ Wᶜ, f (pc u) :=
    sum_congr rfl fun u hu => by rw [if_neg (mem_compl.mp hu)]
  have hnew := sum_add_sum_compl W fun u => f (if u ∈ W then c' else pc u)
  have hall := sum_add_sum_compl W fun u => f (pc u)
  simp only [total]
  omega

/-- The thread has announced that it waits, and is not through. -/
def Pc.announced : Pc → Bool
  | .block _ | .asleep | .awake => true
  | .idle | .wake _ => false

/-- 1 for a thread that is announced, … -/
def announced (c : Pc) : ℕ := c.announced.toNat

/-- … for one that sleeps, … -/
def sleeping : Pc → ℕ
  | .asleep => 1
  | _ => 0

/-- … for one that is back from the kernel, … -/
def up : Pc → ℕ
  | .awake => 1
  | _ => 0

/-- … and what one that is on its way to wake others will ask for. -/
def owed : Pc → ℕ
  | .wake amount => amount
  | _ => 0

omit dι in
theorem card_sleepers (s : State ι) : s.sleepers.card = total sleeping s.pc := by
  rw [sleepers, card_filter]
  refine sum_congr rfl fun t _ => ?_
  cases s.pc t <;> simp [sleeping]

/-! ## The invariant -/

/-- What holds between the steps. -/
structure Inv (value : BitVec 16) (s : State ι) : Prop where
  low : low s.word + s.waited = value.toNat + s.added
  high : high s.word = total announced s.pc
  /-- Threads go to sleep on a value of zero. -/
  block : ∀ t semval, s.pc t = .block semval → Sem.low semval = 0
  /-- The value is covered while somebody sleeps. -/
  covered : 0 < total sleeping s.pc → Sem.low s.word ≤ total owed s.pc + total up s.pc

omit dι in
theorem inv_init (value : BitVec 16) : Inv value (init value : State ι) where
  low := by
    have := value.isLt
    simp only [low, init, toNat_setWidth]
    omega
  high := by
    have := value.isLt
    simp only [high, init, toNat_setWidth, total]
    rw [sum_eq_zero fun t _ => by decide]
    omega
  block t semval h := by cases h
  covered h := by
    simp only [total, init] at h
    rw [sum_eq_zero fun t _ => by decide] at h
    omega

section Steps

variable {value : BitVec 16} {s : State ι} {t : ι} {c c' : Pc}

theorem total_goto (hc : s.pc t = c) (c' : Pc) (f : Pc → ℕ) :
    total f (s.goto t c').pc + f c = total f s.pc + f c' := by
  rw [← hc]
  exact total_update f s.pc t c'

omit fι in
theorem block_goto (hs : ∀ u semval, s.pc u = .block semval → low semval = 0)
    (hc' : ∀ semval, c' = .block semval → low semval = 0) (u : ι) (semval : BitVec 32)
    (hu : (s.goto t c').pc u = .block semval) : low semval = 0 := by
  rw [goto_pc] at hu
  grind

/-- **A change of place that leaves the word alone.** Nobody who counts as up is lost while the
value is positive, and nobody goes to sleep then. -/
theorem Inv.goto (hs : Inv value s) (hc : s.pc t = c) (hann : announced c' = announced c)
    (howed : owed c' = owed c) (hblock : ∀ semval, c' = .block semval → Sem.low semval = 0)
    (hup : Sem.low s.word = 0 ∨ up c ≤ up c' ∧ sleeping c' ≤ sleeping c) :
    Inv value (s.goto t c') := by
  have hsum := total_goto hc c'
  have h₁ := hsum announced
  have h₂ := hsum sleeping
  have h₃ := hsum up
  have h₄ := hsum owed
  obtain ⟨hlow, hhigh, hblocks, hcovered⟩ := hs
  refine ⟨hlow, ?_, block_goto hblocks hblock, fun hsleep => ?_⟩ <;> rw [goto_word] <;> omega

omit dι in
theorem Inv.take (hs : Inv value s) (hpos : Sem.low s.word ≠ 0) :
    Inv value (s.complete (s.word - 1)) := by
  obtain ⟨hlow, hhigh⟩ := sub_one hpos
  obtain ⟨hlow', hhigh', hblocks, hcovered⟩ := hs
  refine ⟨?_, hhigh.trans hhigh', hblocks, fun hsleep => ?_⟩ <;> simp only [complete]
  · omega
  · have := hcovered hsleep
    omega

omit dι in
theorem total_announced_lt (hc : s.pc t = .idle) : total announced s.pc < Fintype.card ι := by
  have hle : ∀ u ∈ univ, announced (s.pc u) ≤ 1 := fun u _ => by
    exact Bool.toNat_le _
  have hlt : total announced s.pc < ∑ _ : ι, 1 :=
    sum_lt_sum hle ⟨t, mem_univ t, by rw [hc]; decide⟩
  simpa using hlt

theorem Inv.announce (hcard : Fintype.card ι < 0x10000) (hs : Inv value s) (hc : s.pc t = .idle)
    (hzero : Sem.low s.word = 0) :
    Inv value ({ s with word := 0x10000 + s.word }.goto t (.block (0x10000 + s.word))) := by
  have hlt := total_announced_lt hc
  have hroom : Sem.high s.word < 0xffff := by
    rw [hs.high]
    omega
  obtain ⟨hlow, hhigh⟩ := add_waiter hroom
  refine ⟨?_, ?_, block_goto hs.block fun semval hsemval => ?_, fun _ => ?_⟩
  · have := hs.low
    rw [goto_word, hlow]
    exact this
  · have hsum := total_goto hc (.block (0x10000 + s.word)) announced
    rw [goto_word, hhigh, hs.high]
    exact hsum.symm
  · rw [← Pc.block.inj hsemval, hlow, hzero]
  · rw [goto_word, hlow, hzero]
    exact Nat.zero_le _

omit fι in
theorem pc_goto_complete (s : State ι) (t : ι) (c : Pc) (w : BitVec 32) :
    ((s.complete w).goto t c).pc = (s.goto t c).pc := rfl

theorem Inv.finish (hs : Inv value s) (hc : s.pc t = .awake) (hpos : Sem.low s.word ≠ 0) :
    Inv value ((s.complete (vsubuh s.word 0x10001)).goto t .idle) := by
  obtain ⟨hlow, hhigh⟩ := sub_both (w := s.word)
  have hsum := total_goto hc .idle
  have h₁ : _ + 1 = _ + 0 := hsum announced
  have h₂ : _ + 0 = _ + 0 := hsum sleeping
  have h₃ : _ + 1 = _ + 0 := hsum up
  have h₄ : _ + 0 = _ + 0 := hsum owed
  have hpc := pc_goto_complete s t .idle (vsubuh s.word 0x10001)
  obtain ⟨⟩ := hs
  constructor
  case block => exact block_goto ‹_› (by simp)
  all_goals simp only [goto_word, complete_word, goto_waited, complete_waited, goto_added,
    complete_added, hpc]
  all_goals omega

/-- **Adding to the value**: nobody is announced, or the wake-ups are under way. -/
theorem Inv.add (hs : Inv value s) (hc : s.pc t = .idle) {amount : ℕ} (hamount : amount ≤ 0x7fff) :
    Inv value (s.semAdd t amount) := by
  unfold semAdd
  simp only
  split
  · exact hs
  next hroom =>
  obtain ⟨hlow, hhigh⟩ := add_value hamount (Nat.le_of_not_lt hroom)
  have hadded := hs.low
  split
  · next hclr =>
    -- nobody is announced, so nobody sleeps
    have hnone : total announced s.pc = 0 := by
      rw [← hs.high]
      exact (bitsclr_iff (by omega)).mp hclr
    have hle : total sleeping s.pc ≤ total announced s.pc :=
      sum_le_sum fun u _ => by
        cases s.pc u <;> simp [sleeping, announced, Pc.announced]
    refine ⟨by simp only [hlow]; omega, hhigh.trans hs.high, hs.block, fun hsleep => ?_⟩
    simp only at hsleep
    omega
  · have hsum := total_goto hc (.wake amount)
    have h₁ : _ + 0 = _ + 0 := hsum announced
    have h₂ : _ + 0 = _ + 0 := hsum sleeping
    have h₃ : _ + 0 = _ + 0 := hsum up
    have h₄ : _ + 0 = _ + amount := hsum owed
    refine ⟨?_, ?_, block_goto hs.block (by simp), fun hsleep => ?_⟩
    · rw [goto_word]
      simp only [goto_waited, goto_added]
      omega
    · rw [goto_word, hhigh, hs.high]
      exact h₁.symm
    · have hpc : ({ s with
          word := vadduh s.word (BitVec.ofNat 32 amount)
          added := s.added + amount }.goto t (.wake amount)).pc =
            (s.goto t (.wake amount)).pc := rfl
      rw [hpc] at hsleep ⊢
      have := hs.covered (by omega)
      rw [goto_word, hlow]
      omega

/-- **A wake-up**: as many as are asked for are up, or nobody sleeps any more. -/
theorem Inv.rouse (hs : Inv value s) {amount : ℕ} (hc : s.pc t = .wake amount) {W : Finset ι}
    (hW : W ⊆ s.sleepers) (hcard : W.card = min amount s.sleepers.card) :
    Inv value (s.rouse t W) := by
  have hasleep : ∀ u ∈ W, s.pc u = .asleep := fun u hu => by
    simpa [sleepers] using hW hu
  have htW : t ∉ W := fun ht => by
    rw [hasleep t ht] at hc
    cases hc
  set s₁ : State ι := { s with pc := fun u => if u ∈ W then .awake else s.pc u } with hs₁
  have hc₁ : s₁.pc t = .wake amount := by simp [hs₁, htW, hc]
  have hsum (f : Pc → ℕ) : total f (s₁.goto t .idle).pc + f (.wake amount) + W.card * f .asleep =
      total f s.pc + f .idle + W.card * f .awake := by
    have h := total_goto hc₁ .idle f
    have h' : total f s₁.pc + _ = _ := total_ite f s.pc W hasleep
    omega
  have h₁ : _ + 0 + W.card * 1 = _ + 0 + W.card * 1 := hsum announced
  have h₂ : _ + 0 + W.card * 1 = _ + 0 + W.card * 0 := hsum sleeping
  have h₃ : _ + 0 + W.card * 0 = _ + 0 + W.card * 1 := hsum up
  have h₄ : _ + amount + W.card * 0 = _ + 0 + W.card * 0 := hsum owed
  rw [card_sleepers] at hcard
  have hrouse : s.rouse t W = s₁.goto t .idle := rfl
  rw [hrouse]
  refine ⟨hs.low, ?_, block_goto (fun u semval hu => ?_) (by simp), fun hsleep => ?_⟩
  · have := hs.high
    rw [goto_word]
    simp only [hs₁] at h₁ ⊢
    omega
  · by_cases huW : u ∈ W
    · simp [hs₁, huW] at hu
    · simp only [hs₁, huW] at hu
      exact hs.block u semval hu
  · have := hs.covered (by omega)
    have hword : (s₁.goto t .idle).word = s.word := rfl
    rw [hword]
    omega

theorem Inv.step (hcard : Fintype.card ι < 0x10000) (hs : Inv value s) {a : Act ι} {s' : State ι}
    (hstep : Sem.step a s = some s') : Inv value s' := by
  cases a with
  | wait t =>
    obtain ⟨hc, rfl⟩ : s.pc t = .idle ∧ s.semWait t = s' := by simpa [Sem.step] using hstep
    unfold semWait
    split
    · next hzero => exact hs.announce hcard hc hzero
    · next hpos => exact hs.take hpos
  | trywait t =>
    obtain ⟨-, rfl⟩ : s.pc t = .idle ∧ s.semTrywait = s' := by simpa [Sem.step] using hstep
    unfold semTrywait
    split
    · exact hs
    · next hpos => exact hs.take hpos
  | add t amount =>
    obtain ⟨hc, ⟨⟩⟩ := Option.ite_none_right_eq_some.mp hstep
    exact hs.add hc.1 hc.2.2
  | futexWait t =>
    cases hc : s.pc t <;> rw [Sem.step, hc] at hstep <;> cases hstep
    split
    · next hword => exact hs.goto hc rfl rfl (by simp) (.inl (hword ▸ hs.block t _ hc))
    · exact hs.goto hc rfl rfl (by simp) (.inr ⟨Nat.zero_le _, le_rfl⟩)
  | spurious t =>
    obtain ⟨hwaits, ⟨⟩⟩ := Option.ite_none_right_eq_some.mp hstep
    cases hc : s.pc t <;> rw [hc] at hwaits <;> cases hwaits <;>
      exact hs.goto hc rfl rfl (by simp) (.inr ⟨Nat.zero_le _, Nat.zero_le _⟩)
  | futexWake t W =>
    cases hc : s.pc t <;> rw [Sem.step, hc] at hstep <;> try cases hstep
    obtain ⟨hW, ⟨⟩⟩ := Option.ite_none_right_eq_some.mp hstep
    exact hs.rouse hc hW.1 hW.2
  | retry t =>
    obtain ⟨hc, rfl⟩ : s.pc t = .awake ∧ s.blockAtomic t = s' := by simpa [Sem.step] using hstep
    unfold blockAtomic
    split
    · next hzero =>
      refine hs.goto hc rfl rfl (fun semval hsemval => ?_) (.inl hzero)
      rw [← Pc.block.inj hsemval, hzero]
    · next hpos => exact hs.finish hc hpos

end Steps

/-- **The semaphore is correct**, for fewer threads than the upper half can count and in any
interleaving.  The lower half is what the semaphore started with and all that has been added, less
one for every wait that is over; the upper half is the number of threads that have announced
themselves and are not through.  And no wake-up is lost: if the value is positive and no wake-up is
under way, nobody sleeps or somebody who is up has yet to look. -/
theorem sem_correct (value : BitVec 16) (hcard : Fintype.card ι < 0x10000) {s : State ι}
    (hs : Leads step (fun _ _ => True) (init value) s) :
    low s.word + s.waited = value.toNat + s.added ∧
      high s.word = ({t | (s.pc t).announced} : Finset ι).card ∧
      ¬(0 < low s.word ∧ (∀ t amount, s.pc t ≠ .wake amount) ∧ (∃ t, s.pc t = .asleep) ∧
        ∀ t, s.pc t ≠ .awake) := by
  have hinv : Inv value s := hs.invariant (inv_init value) fun hi _ hstep => hi.step hcard hstep
  refine ⟨hinv.low, ?_, ?_⟩
  · rw [hinv.high, card_filter]
    refine sum_congr rfl fun t _ => ?_
    unfold announced
    cases (s.pc t).announced <;> rfl
  · rintro ⟨hpos, hquiet, ⟨t, ht⟩, hdown⟩
    have howed : total owed s.pc = 0 := sum_eq_zero fun u _ => by
      have := hquiet u
      cases hu : s.pc u <;> simp_all [owed]
    have hup : total up s.pc = 0 := sum_eq_zero fun u _ => by
      have := hdown u
      cases hu : s.pc u <;> simp_all [up]
    have hsleep : 0 < total sleeping s.pc :=
      sum_pos' (fun _ _ => Nat.zero_le _) ⟨t, mem_univ t, by rw [ht]; decide⟩
    have := hinv.covered hsleep
    omega

open scoped Numerals

/-- One thread sleeps on a semaphore of value 0, and another adds 1. -/
def sleepThenAdd : List (Act (Fin 2)) := [.wait 0, .futexWait 0, .add 1 1]

/-- The sleeper is announced, the value is positive, and the wake-up is under way. -/
theorem sem_correct_sleepThenAdd : ∃ s : State (Fin 2),
    Leads step (fun _ _ => True) (init 0) s ∧ s.word = 0x10001 ∧ s.pc 0 = .asleep ∧
      s.pc 1 = .wake 1 ∧ low s.word + s.waited = (0 : BitVec 16).toNat + s.added ∧
      high s.word = ({t | (s.pc t).announced} : Finset (Fin 2)).card := by
  have hrun : ∃ s ∈ runIf step (fun _ _ => true) sleepThenAdd (init 0),
      s.word = 0x10001 ∧ s.pc 0 = .asleep ∧ s.pc 1 = .wake 1 := by decide +kernel
  obtain ⟨s, hs, hword, h₀, h₁⟩ := hrun
  have hleads := Leads.of_runIf (fun _ _ _ => trivial) .init hs
  obtain ⟨hlow, hhigh, -⟩ := sem_correct 0 (by decide) hleads
  exact ⟨s, hleads, hword, h₀, h₁, hlow, hhigh⟩

/-! ## The kernel's side

The threads in the futex queue are those the kernel keeps for the word's address, and its traps are
the steps above. -/

section Traps

variable {β : Type} [DecidableEq β] {M : Machine ι β} {k : Kernel ι β} {s : State ι} {t : ι} {a : ℕ}

omit dι in
theorem sleepers_eq (s : State ι) :
    s.sleepers = threadsAt (fun c => decide (c = .asleep)) s.pc := by
  simp [sleepers, threadsAt]

/-- **The wake-up trap** is the step: it makes as many of the sleepers ready as it is asked for. -/
theorem futexResume_rouses (ha : Wakeable M k a) (hk : s.sleepers = k.sleepers a) {amount : ℕ}
    (hc : s.pc t = .wake amount) :
    ∃ W k', k.futexResume (some a) amount = some (.returned (W.card : ℕ), k') ∧
      step (.futexWake t W) s = some (s.rouse t W) ∧ (s.rouse t W).sleepers = k'.sleepers a := by
  rw [sleepers_eq] at hk
  obtain ⟨W, k', hk', hW, hleft⟩ := futexResume_threadsAt (t := t) ha hk amount (fun _ => .awake)
    .idle (by simp) (by simp [hc]) (by simp)
  rw [← sleepers_eq] at hW
  refine ⟨W, k', hk', ?_, (sleepers_eq _).trans hleft⟩
  rw [step, hc]
  exact if_pos hW

/-- **The waiting trap** is the step: it compares, and the thread joins the sleepers or comes
back. -/
theorem futexWait_sleeps {h : ℕ} {semval : BitVec 32} (ha : MayWait M k h t a)
    (hk : s.sleepers = k.sleepers a) (hc : s.pc t = .block semval) :
    ∃ s', step (.futexWait t) s = some s' ∧ k.WaitLeaves M h t a s.word semval s'.sleepers := by
  refine ⟨_, by rw [step, hc], ?_⟩
  rw [sleepers_eq] at hk ⊢
  exact futexWait_threadsAt ha hk (by simp [hc]) (by simp) (by simp)

end Traps

/-! ## What adding returns -/

section Result

variable {β : Type} [DecidableEq β]

/-- `.Ldo_trap`, with what the lookup of the word finds and the kernel there is, each time the trap
is taken.  One that fails is taken again. -/
def doTrap (amount : ℕ) : List (Option ℕ × Kernel ι β) → Option ℤ
  | [] => none
  | (pa, k) :: rounds =>
    match k.futexResume pa amount with
    | some (.returned r, _) => if -1 < r then some r else doTrap amount rounds
    | _ => none

/-- `r0` at the end of `pthread_sem_add_np`. -/
def semAddResult (amount : ℕ) (rounds : List (Option ℕ × Kernel ι β)) (w : BitVec 32) : Option ℤ :=
  let maxsemval := 0x7fff - amount
  -- `EOVERFLOW`
  if maxsemval < low w then some 1
  else if bitsclr w 0xffff8000 then some 0
  -- the trap's result is left where it is
  else doTrap amount rounds

/-- **The loop** ends with the first trap that finds the word, and returns what it does. -/
theorem doTrap_eq {amount : ℕ} (hpos : 1 ≤ amount) {k k' : Kernel ι β} {a n : ℕ}
    (hk' : k.futexResume (some a) amount = some (.returned n, k')) : ∀ misses : List (Kernel ι β),
      doTrap amount (misses.map (Prod.mk none) ++ [(some a, k)]) = some (n : ℤ)
  | [] => by
      rw [List.map_nil, List.nil_append, doTrap, hk']
      exact if_pos (by omega)
  | miss :: misses => by
      have hmiss : miss.futexResume none amount = some (.returned (-1), miss) :=
        if_neg (Nat.ne_of_gt hpos)
      rw [List.map_cons, List.cons_append, doTrap, hmiss]
      exact doTrap_eq hpos hk' misses

/-- **What adding returns**: an error if the value would be too large, which then stays; 0 if nobody
is announced; and otherwise the number of threads that its trap wakes, of those that sleep when the
lookup finds the word. -/
theorem semAdd_result (t : ι) (s : State ι) {amount : ℕ} (hpos : 1 ≤ amount)
    (hamount : amount ≤ 0x7fff) (misses : List (Kernel ι β)) {M : Machine ι β} {k : Kernel ι β}
    {a : ℕ} (ha : Wakeable M k a) {s' : State ι} (hk : s'.sleepers = k.sleepers a)
    (hc : s'.pc t = .wake amount) : (0x7fff < low s.word + amount → s.semAdd t amount = s ∧
      semAddResult amount (misses.map (Prod.mk none) ++ [(some a, k)]) s.word = some 1) ∧
    (low s.word + amount ≤ 0x7fff →
      low (s.semAdd t amount).word = low s.word + amount ∧
      high (s.semAdd t amount).word = high s.word ∧
      (high s.word = 0 → (s.semAdd t amount).pc = s.pc ∧
        ∀ rounds : List (Option ℕ × Kernel ι β), semAddResult amount rounds s.word = some 0) ∧
      (high s.word ≠ 0 → (s.semAdd t amount).pc t = .wake amount ∧
        ∃ W k', k.futexResume (some a) amount = some (.returned (W.card : ℕ), k') ∧
          W.card = min amount s'.sleepers.card ∧
          step (.futexWake t W) s' = some (s'.rouse t W) ∧
          (s'.rouse t W).sleepers = k'.sleepers a ∧
          semAddResult amount (misses.map (Prod.mk none) ++ [(some a, k)]) s.word =
            some (W.card : ℤ))) := by
  refine ⟨fun hover => ?_, fun hroom => ?_⟩
  · have hlt : 0x7fff - amount < low s.word := by omega
    exact ⟨if_pos hlt, if_pos hlt⟩
  have hle : ¬0x7fff - amount < low s.word := by omega
  have hword : (s.semAdd t amount).word = vadduh s.word (BitVec.ofNat 32 amount) := by
    simp only [semAdd, if_neg hle]
    split <;> rfl
  obtain ⟨hlow, hhigh⟩ := add_value hamount (Nat.le_of_not_lt hle)
  have hclr : bitsclr s.word 0xffff8000 ↔ high s.word = 0 := bitsclr_iff (by omega)
  rw [hword]
  refine ⟨hlow, hhigh, fun hzero => ⟨?_, fun rounds => ?_⟩, fun hne => ⟨?_, ?_⟩⟩
  · simp only [semAdd, if_neg hle, if_pos (hclr.mpr hzero)]
  · simp only [semAddResult, if_neg hle, if_pos (hclr.mpr hzero)]
  · simp only [semAdd, if_neg hle, if_neg (mt hclr.mp hne), goto_pc, update_self]
  · obtain ⟨W, k', hk', hstep, hleft⟩ := futexResume_rouses ha hk hc
    have hW : W ⊆ s'.sleepers ∧ W.card = min amount s'.sleepers.card := by
      rw [step, hc] at hstep
      exact (Option.ite_none_right_eq_some.mp hstep).1
    refine ⟨W, k', hk', hW.2, hstep, hleft, ?_⟩
    simp only [semAddResult, if_neg hle, if_neg (mt hclr.mp hne)]
    exact doTrap_eq hpos hk' misses

end Result

/-- One of two threads waits on the word at 0x1000. -/
def firstWaits : List (ℕ × Op (Fin 2) Unit) :=
  [(0, .trap (.create 0 0 0 0 true)), (0, .trap (.futexWait (identityAccess 0x1000) 0 0))]

/-- The other adds to the semaphore; the lookup of the word fails once: … -/
theorem semAdd_result_asleep : ∃ (s : State (Fin 2)) (k : Kernel (Fin 2) Unit),
    runIf step (fun _ _ => true) [.wait 1, .futexWait 1] (init 0) = some s ∧
    bootRun 1 1#32 firstWaits = some k ∧ s.sleepers = k.sleepers 0x1000 ∧
    low (s.semAdd 0 1).word = 1 ∧ ∃ W k', k.futexResume (some 0x1000) 1 = some (.returned 1, k') ∧
    step (.futexWake 0 W) (s.semAdd 0 1) = some ((s.semAdd 0 1).rouse 0 W) ∧
    semAddResult 1 [(none, k), (some 0x1000, k)] s.word = some 1 := by
  have hsem : ∃ s ∈ runIf step (fun _ _ => true) [.wait 1, .futexWait 1] (init 0 : State (Fin 2)),
      s.sleepers = {1} ∧ (s.semAdd 0 1).sleepers = {1} ∧ (s.semAdd 0 1).pc 0 = .wake 1 ∧
        low s.word = 0 ∧ high s.word = 1 := by decide +kernel
  obtain ⟨s, hs, hsleep, hsleep', hpc, hlow, hhigh⟩ := hsem
  obtain ⟨e, k₀, k, hboot, hk, hrun, hqueue, hptr⟩ := exists_reached_of_bootRun 1#32 firstWaits
    (C := Safe (oneVm 1)) (by simp [firstWaits, Safe, Trap.Safe])
    (fun k => k.sleepers 0x1000 = {1} ∧ ∀ t, k.sched.futexPtr t < 0x400000000) (by decide +kernel)
  have hc : Coherent (oneVm 1) k := hk.coherent (fun _ _ _ => id) (coherent_boot (by decide) hboot)
  obtain ⟨hvalue, -, -, hwake⟩ := (semAdd_result 0 s (by decide) (by decide) [k]
    ⟨hc.placed, fun t _ => hptr t, by decide⟩ (hsleep'.trans hqueue.symm) hpc).2 (by omega)
  obtain ⟨-, W, k', hk', hcard, hstep, -, hresult⟩ := hwake (by omega)
  have hone : W.card = 1 := by rw [hcard, hsleep', card_singleton, min_self]
  rw [hone] at hk' hresult
  exact ⟨s, k, hs, hrun, hsleep.trans hqueue.symm, by rw [hvalue, hlow], W, k', hk', hstep, hresult⟩

/-- … one is added, the sleeper is woken, and what is returned is not 0. -/
theorem semAdd_result_ne_zero :
    ∃ s ∈ runIf step (fun _ _ => true) [.wait 1, .futexWait 1] (init 0 : State (Fin 2)),
    ∃ s' ∈ runIf step (fun _ _ => true) [.add 0 1, .futexWake 0 {1}] s,
    ∃ k ∈ bootRun 1 1#32 firstWaits, s.sleepers = k.sleepers 0x1000 ∧
      low s'.word = low s.word + 1 ∧ semAddResult 1 [(some 0x1000, k)] s.word = some 1 := by
  decide +kernel

end H2.Sem
