import H2.Posix.Sem

/-!
# Posix/Barrier — the barrier

The first word of a barrier has the number of threads still to come in its lower half, and a version
in its upper half.  The last thread to come sets the number back and the version on, in one step,
and has the kernel wake all the others; these look at the version, and go to sleep as long as it is
what it was when they came.

While some have yet to notice that their phase is over, others may have come for the next one
already: what sets them apart is the version alone, which goes round after 65536 phases.  It is
enough, as no phase is over without every thread: nobody is ever more than one phase behind
(`Place`).  So nobody passes early, one thread of each phase is told apart, and nobody sleeps on
(`barrier_correct`).
-/

namespace H2.Barrier

open Function

open Sem (low high halves low_halves high_halves high_lt low_lt sub_one)

open Fintype (card)

variable {ι : Type} [dι : DecidableEq ι] [Fintype ι]

/-! ## The functions, up to a trap or the return -/

/-- What `pthread_barrier_wait` returns: `PTHREAD_BARRIER_SERIAL_THREAD`, or 0. -/
inductive Ret where
  | serial
  | zero
  deriving DecidableEq

/-- Where a thread is. -/
inductive Pc where
  /-- Not in `pthread_barrier_wait`. -/
  | idle
  /-- At `.Latomic_retry`. -/
  | enter
  /-- At `.Lspin_again`, with `BARRIER_LO`, `NEW_BARRIER_LO` and `BARRIER_HI`. -/
  | spin (barrierLo newBarrierLo barrierHi : BitVec 32)
  /-- At `.Lblock_again`, with `FUTEX_TRAP_ARG` and `BARRIER_LO_SAV`. -/
  | block (arg barrierLoSav : BitVec 32)
  /-- In the futex queue. -/
  | asleep (barrierLoSav : BitVec 32)
  /-- Back from the kernel. -/
  | awake (barrierLoSav : BitVec 32)
  /-- At `.Lfutex_wake_again`, with `FUTEX_TRAP_ARG`. -/
  | wake (arg : ℕ)
  deriving DecidableEq

/-- The word a thread has left behind when it came, and whose version it waits to see change. -/
@[grind =] def Pc.saved : Pc → Option (BitVec 32)
  | .spin _ newBarrierLo _ => some newBarrierLo
  | .block _ sav | .asleep sav | .awake sav => some sav
  | .idle | .enter | .wake _ => none

@[grind =] def Pc.sleeps : Pc → Bool
  | .asleep _ => true
  | _ => false

/-- Where a sleeper goes on. -/
@[grind =] def Pc.back : Pc → Pc
  | .block _ sav | .asleep sav => .awake sav
  | c => c

/-- A barrier and its threads. -/
structure State (ι : Type) where
  word : BitVec 32
  pc : ι → Pc
  /-- How often a thread has called `pthread_barrier_wait`, … -/
  calls : ι → ℕ
  /-- … and what has been returned to it, in order. -/
  returned : ι → List Ret
  /-- How many phases are over, … -/
  phase : ℕ
  /-- … and who has come for the next. -/
  arrived : Finset ι

namespace State

@[simps] def goto (t : ι) (c : Pc) (s : State ι) : State ι := { s with pc := update s.pc t c }

/-- A call begins, … -/
@[simps] def call (t : ι) (s : State ι) : State ι :=
  { s with
    pc := update s.pc t .enter
    calls := update s.calls t (s.calls t + 1) }

/-- … and returns. -/
@[simps] def finish (t : ι) (r : Ret) (s : State ι) : State ι :=
  { s with
    pc := update s.pc t .idle
    returned := update s.returned t (s.returned t ++ [r]) }

/-- From `.Latomic_retry` up to the spinning or the wake-up. -/
def arrive (barrierHi : BitVec 32) (t : ι) (s : State ι) : State ι :=
  if low s.word = 1 then
    { s with
      word := halves (high (0x10000 + s.word)) (low barrierHi)
      phase := s.phase + 1
      arrived := ∅ }.goto t (.wake (low barrierHi))
  else
    { s with
      word := s.word - 1
      arrived := insert t s.arrived }.goto t (.spin s.word (s.word - 1) barrierHi)

/-- From `.Lspin_again` up to the next round, the blocking or the return. -/
def spinAgain (t : ι) (barrierLo newBarrierLo barrierHi : BitVec 32) (s : State ι) : State ι :=
  if high s.word ≠ high newBarrierLo then s.finish t .zero
  else if barrierHi < 0x10000 then s.goto t (.block barrierLo newBarrierLo)
  else s.goto t (.spin barrierLo newBarrierLo (barrierHi - 0x10000))

/-- From behind the trap of `.Lblock_again` up to the trap or the return. -/
def reread (t : ι) (barrierLoSav : BitVec 32) (s : State ι) : State ι :=
  if high s.word = high barrierLoSav then s.goto t (.block s.word barrierLoSav)
  else s.finish t .zero

def sleepers (s : State ι) : Finset ι := threadsAt Pc.sleeps s.pc

/-- `H2_TRAP_FUTEX_WAKE`, when it makes the threads of `W` ready. -/
@[simps] def rouse (W : Finset ι) (s : State ι) : State ι :=
  { s with pc := fun u => if u ∈ W then (s.pc u).back else s.pc u }

end State

open State

inductive Act (ι : Type) where
  | call (t : ι)
  | arrive (t : ι)
  | spinAgain (t : ι)
  /-- `H2_TRAP_FUTEX_WAIT`. -/
  | futexWait (t : ι)
  /-- The trap comes back for another reason, with or without having slept. -/
  | spurious (t : ι)
  | reread (t : ι)
  /-- `H2_TRAP_FUTEX_WAKE`. -/
  | futexWake (t : ι) (W : Finset ι)

/-- **One atomic step**, with the second word of the barrier. -/
def step (barrierHi : BitVec 32) : Act ι → State ι → Option (State ι)
  | .call t, s => if s.pc t = .idle then some (s.call t) else none
  | .arrive t, s => if s.pc t = .enter then some (s.arrive barrierHi t) else none
  | .spinAgain t, s =>
    match s.pc t with
    | .spin barrierLo newBarrierLo hi => some (s.spinAgain t barrierLo newBarrierLo hi)
    | _ => none
  | .futexWait t, s =>
    match s.pc t with
    | .block arg sav => some (s.goto t (if s.word = arg then .asleep sav else .awake sav))
    | _ => none
  | .spurious t, s =>
    match s.pc t with
    | .block _ sav | .asleep sav => some (s.goto t (.awake sav))
    | _ => none
  | .reread t, s =>
    match s.pc t with
    | .awake sav => some (s.reread t sav)
    | _ => none
  | .futexWake t W, s =>
    match s.pc t with
    | .wake arg =>
      if W ⊆ s.sleepers ∧ W.card = min arg s.sleepers.card then some ((s.rouse W).finish t .serial)
      else none
    | _ => none

/-- `pthread_barrier_init_spin_np`: the first word, with nobody there, … -/
def init (count : BitVec 16) : State ι where
  word := halves 0 count.toNat
  pc _ := .idle
  calls _ := 0
  returned _ := []
  phase := 0
  arrived := ∅

/-- … and the second. -/
def secondWord (count spins : BitVec 16) : BitVec 32 := halves spins.toNat count.toNat

/-! ## The invariant -/

/-- Where a thread may be that has called so often and been returned to so often, when so many
phases are over.  Who has come is in the phase that is on, or in the one before it. -/
@[grind =] def Place (threads phase calls returned : ℕ) : Pc → Prop
  | .idle => calls = phase ∧ returned = phase
  | .enter => calls = phase + 1 ∧ returned = phase
  | .wake arg => calls = phase ∧ returned + 1 = phase ∧ arg = threads
  | .spin barrierLo newBarrierLo _ =>
    (calls = phase ∨ calls = phase + 1) ∧ returned + 1 = calls ∧
      high newBarrierLo = returned % 0x10000 ∧ high barrierLo = high newBarrierLo
  | .block arg sav =>
    (calls = phase ∨ calls = phase + 1) ∧ returned + 1 = calls ∧ high sav = returned % 0x10000 ∧
      high arg = high sav
  | .asleep sav | .awake sav =>
    (calls = phase ∨ calls = phase + 1) ∧ returned + 1 = calls ∧ high sav = returned % 0x10000

/-- Thread `t` is the serial thread of phase `k`, or will be when it is back from the kernel. -/
def Serves (s : State ι) (t : ι) (k : ℕ) : Prop :=
  (s.returned t)[k]? = some .serial ∨ (∃ arg, s.pc t = .wake arg) ∧ (s.returned t).length = k

/-- What holds between the steps. -/
structure Inv (s : State ι) : Prop where
  version : high s.word = s.phase % 0x10000
  left : low s.word + s.arrived.card = card ι
  more : low s.word ≠ 0
  arrived : ∀ t, t ∈ s.arrived ↔ (s.pc t).saved ≠ none ∧ s.calls t = s.phase + 1
  place : ∀ t, Place (card ι) s.phase (s.calls t) (s.returned t).length (s.pc t)
  serves : ∀ k < s.phase, ∃! t, Serves s t k
  /-- Who sleeps in a phase that is over is about to be woken. -/
  asleep : ∀ t, (s.pc t).sleeps → s.calls t = s.phase → ∃ u arg, s.pc u = .wake arg

omit dι in
theorem inv_init {count : BitVec 16} (hcount : count.toNat = card ι) (hpos : count ≠ 0) :
    Inv (init count : State ι) := by
  have hlow : low (halves 0 count.toNat) = count.toNat := low_halves count.isLt
  have hne : count.toNat ≠ 0 := fun h => hpos (BitVec.eq_of_toNat_eq h)
  have hversion : high (halves 0 count.toNat) = 0 := high_halves (by decide) count.isLt
  constructor <;> grind [init]

section Steps

variable {s s' : State ι} {t u : ι} {c : Pc} {sav : BitVec 32} {threads phase calls returned : ℕ}

/-- Who has come has come once, and has the version of its phase. -/
theorem Place.of_saved (h : Place threads phase calls returned c) (hc : c.saved = some sav) :
    (calls = phase ∨ calls = phase + 1) ∧ returned + 1 = calls ∧ high sav = returned % 0x10000 := by
  cases c <;> grind

theorem version_ne (n : ℕ) : n % 0x10000 ≠ (n + 1) % 0x10000 := by omega

omit dι in
/-- **One thread does something of its own**: the version and the phase stay, and so does who is
serial and who is about to wake the others. -/
theorem Inv.of_one (hs : Inv s) (hversion : high s'.word = high s.word)
    (hleft : low s'.word + s'.arrived.card = card ι) (hmore : low s'.word ≠ 0)
    (hphase : s'.phase = s.phase)
    (hothers : ∀ u, u ≠ t → s'.pc u = s.pc u ∧ s'.calls u = s.calls u ∧
      s'.returned u = s.returned u ∧ (u ∈ s'.arrived ↔ u ∈ s.arrived))
    (hcome : t ∈ s'.arrived ↔ (s'.pc t).saved ≠ none ∧ s'.calls t = s.phase + 1)
    (hplace : Place (card ι) s.phase (s'.calls t) (s'.returned t).length (s'.pc t))
    (hserves : ∀ k : ℕ, (s'.returned t)[k]? = some Ret.serial ↔
      (s.returned t)[k]? = some Ret.serial)
    (hwake : ∀ arg, s.pc t ≠ .wake arg ∧ s'.pc t ≠ .wake arg)
    (hsleeps : (s'.pc t).sleeps → s'.calls t ≠ s.phase) : Inv s' := by
  have hothers' (u : ι) := or_iff_not_imp_left.mpr (hothers u)
  have hserves' (k : ℕ) (u : ι) : Serves s' u k ↔ Serves s u k := by
    unfold Serves
    rcases hothers' u with rfl | h <;> grind
  obtain ⟨⟩ := hs
  constructor
  case serves => simpa only [hserves', hphase]
  all_goals grind

theorem Pc.ne_wake_of_saved (hc : c.saved = some sav) (arg : ℕ) : c ≠ .wake arg := by
  grind

/-- **A thread that has come goes on**; it goes to sleep only in the phase that is on. -/
theorem Inv.goto (hs : Inv s) (hsav : (s.pc t).saved = some sav) (hsav' : c.saved = some sav)
    (hplace : Place (card ι) s.phase (s.calls t) (s.returned t).length c)
    (hsleeps : c.sleeps → s.calls t ≠ s.phase) : Inv (s.goto t c) := by
  have hcome := hs.arrived t
  refine hs.of_one (t := t) rfl hs.left hs.more rfl ?_ ?_ ?_ (fun _ => Iff.rfl) ?_ ?_ <;>
    grind [goto_pc, goto_calls, goto_returned, goto_arrived]

theorem Inv.call (hs : Inv s) (hc : s.pc t = .idle) : Inv (s.call t) := by
  have hcome := hs.arrived t
  have hplace := hs.place t
  refine hs.of_one (t := t) rfl hs.left hs.more rfl ?_ ?_ ?_ (fun _ => Iff.rfl) ?_ ?_ <;>
    grind [call_pc, call_calls, call_returned, call_arrived]

/-- **A thread sees that its phase is over.** -/
theorem Inv.finish (hs : Inv s) (hsav : (s.pc t).saved = some sav) (hne : high s.word ≠ high sav) :
    Inv (s.finish t .zero) := by
  obtain ⟨hcalls, hlen, hhigh⟩ := (hs.place t).of_saved hsav
  -- the version of the phase that is on is that of the word
  have hold : s.calls t = s.phase := by grind [hs.version]
  have hcome := hs.arrived t
  refine hs.of_one (t := t) rfl hs.left hs.more rfl ?_ ?_ ?_ (fun k => ?_) ?_ ?_
  case refine_4 =>
    rw [finish_returned, update_self, List.getElem?_append]
    grind
  all_goals grind [finish_pc, finish_calls, finish_returned, finish_arrived]

/-- **A thread comes** that is not the last, … -/
theorem Inv.arrive_early (hs : Inv s) (hc : s.pc t = .enter) (hmore : low s.word ≠ 1)
    (barrierHi : BitVec 32) :
    Inv ({ s with word := s.word - 1, arrived := insert t s.arrived }.goto t
      (.spin s.word (s.word - 1) barrierHi)) := by
  obtain ⟨hlow, hhigh⟩ := sub_one hs.more
  have hplace := hs.place t
  have hcome := hs.arrived t
  have hout : t ∉ s.arrived := by grind
  obtain ⟨⟩ := hs
  refine Inv.of_one (t := t) ⟨‹_›, ‹_›, ‹_›, ‹_›, ‹_›, ‹_›, ‹_›⟩ hhigh ?_ ?_ rfl ?_ ?_ ?_
    (fun _ => Iff.rfl) ?_ ?_
  case refine_1 =>
    simp only [goto_word, goto_arrived]
    rw [hlow, Finset.card_insert_of_notMem hout]
    omega
  all_goals grind [goto_pc, goto_calls, goto_returned, goto_arrived, goto_word]

theorem Place.calls_le (h : Place threads phase calls returned c) : calls ≤ phase + 1 := by
  cases c <;> grind

theorem Place.returned_le (h : Place threads phase calls returned c) : returned ≤ phase := by
  cases c <;> grind

/-- … and every thread has called for those. -/
theorem Place.phase_le (h : Place threads phase calls returned c) : phase ≤ calls := by
  cases c <;> grind

/-- Who has come for the phase that is on will be in the one before. -/
theorem Place.next (h : Place threads phase calls returned c) (hc : c.saved ≠ none)
    (hcalls : calls = phase + 1) : Place threads (phase + 1) calls returned c := by
  cases c <;> grind

theorem high_next (w : BitVec 32) : high (0x10000 + w) = (high w + 1) % 0x10000 := by
  have hw := w.isLt
  have hunit : (0x10000 : BitVec 32).toNat = 0x10000 := rfl
  unfold high
  rw [BitVec.toNat_add, hunit]
  omega

/-- When one thread is still to come, all the others are there. -/
theorem Inv.all_arrived (hs : Inv s) (hc : s.pc t = .enter) (hlast : low s.word = 1) (hut : u ≠ t) :
    u ∈ s.arrived := by
  have hout : t ∉ s.arrived := by grind [hs.arrived t]
  have hall : insert t s.arrived = Finset.univ := by
    rw [← Finset.card_eq_iff_eq_univ, Finset.card_insert_of_notMem hout]
    have := hs.left
    omega
  have hu : u ∈ insert t s.arrived := hall ▸ Finset.mem_univ u
  exact (Finset.mem_insert.mp hu).resolve_left hut

/-- … and the last: the phase is over, and it is the serial thread. -/
theorem Inv.arrive_last (hs : Inv s) (hc : s.pc t = .enter) (hlast : low s.word = 1)
    {barrierHi : BitVec 32} (hhi : low barrierHi = card ι) : Inv ({ s with
      word := halves (high (0x10000 + s.word)) (low barrierHi)
      phase := s.phase + 1
      arrived := ∅ }.goto t (.wake (low barrierHi))) := by
  obtain ⟨hcalls, hlen⟩ : s.calls t = s.phase + 1 ∧ (s.returned t).length = s.phase := by
    have hplace := hs.place t
    rw [hc] at hplace
    exact hplace
  have hothers (u : ι) (hut : u ≠ t) : (s.pc u).saved ≠ none ∧ s.calls u = s.phase + 1 :=
    (hs.arrived u).mp (hs.all_arrived hc hlast hut)
  have hlow : low (halves (high (0x10000 + s.word)) (low barrierHi)) = card ι := by
    rw [low_halves (low_lt _), hhi]
  refine ⟨?_, ?_, ?_, fun u => ?_, fun u => ?_, fun k hk => ?_, fun _ _ _ => ⟨t, _, by simp; rfl⟩⟩
  · simp only [goto_word, goto_phase]
    rw [high_halves (high_lt _) (low_lt _), high_next, hs.version]
    omega
  · simp only [goto_word, goto_arrived]
    rw [hlow, Finset.card_empty, Nat.add_zero]
  · simp only [goto_word]
    rw [hlow]
    exact (Fintype.card_pos_iff.mpr ⟨t⟩).ne'
  · have := (hs.place u).calls_le
    simp only [goto_arrived, Finset.notMem_empty, goto_calls, goto_phase, false_iff]
    omega
  · by_cases hut : u = t
    · subst hut
      simp [Place, hcalls, hlen, hhi]
    · obtain ⟨hsav, hcalls'⟩ := hothers u hut
      simpa [hut] using (hs.place u).next hsav hcalls'
  · rcases Nat.lt_succ_iff_lt_or_eq.mp hk with hbefore | rfl
    · -- a phase that was over before
      have hsame (u : ι) : Serves ({ s with
          word := halves (high (0x10000 + s.word)) (low barrierHi)
          phase := s.phase + 1
          arrived := ∅ }.goto t (.wake (low barrierHi))) u k ↔ Serves s u k := by
        unfold Serves
        by_cases hut : u = t
        · subst hut
          simp [hc, hlen, hbefore.ne']
        · simp [hut]
      simp only [hsame]
      exact hs.serves k hbefore
    · refine ⟨t, .inr ⟨⟨_, by simp; rfl⟩, hlen⟩, fun u hu => ?_⟩
      by_contra hut
      obtain ⟨hsav, hcalls'⟩ := hothers u hut
      obtain ⟨sav, hsav⟩ := Option.ne_none_iff_exists'.mp hsav
      obtain ⟨-, hlen', -⟩ := (hs.place u).of_saved hsav
      rcases hu with hu | ⟨⟨arg, hu⟩, -⟩
      · have hnone : (s.returned u)[s.phase]? = none := List.getElem?_eq_none (by omega)
        rw [goto_returned, hnone] at hu
        cases hu
      · rw [goto_pc, update_of_ne hut] at hu
        exact Pc.ne_wake_of_saved hsav arg hu

/-- **The wake-up** is for all that sleep. -/
theorem Inv.rouse (hs : Inv s) {arg : ℕ} (hc : s.pc t = .wake arg) {W : Finset ι}
    (hW : W ⊆ s.sleepers) (hcard : W.card = min arg s.sleepers.card) :
    Inv ((s.rouse W).finish t .serial) := by
  have hplace (u : ι) := hs.place u
  obtain ⟨hcalls, hlen, rfl⟩ : s.calls t = s.phase ∧ (s.returned t).length + 1 = s.phase ∧
      arg = card ι := by grind
  have hfew : s.sleepers.card ≤ card ι := Finset.card_le_univ _
  obtain rfl : W = s.sleepers := Finset.eq_of_subset_of_card_le hW (by omega)
  have hpc (u : ι) : ((s.rouse s.sleepers).finish t .serial).pc u =
      if u = t then .idle else if (s.pc u).sleeps then (s.pc u).back else s.pc u := by
    by_cases hut : u = t <;> simp [hut, sleepers]
  have hret (u : ι) : ((s.rouse s.sleepers).finish t .serial).returned u =
      if u = t then s.returned t ++ [.serial] else s.returned u := by
    by_cases hut : u = t <;> simp [hut]
  have hserves (k : ℕ) (u : ι) : Serves ((s.rouse s.sleepers).finish t .serial) u k ↔
      Serves s u k := by
    unfold Serves
    rw [hpc, hret]
    by_cases hut : u = t
    · rw [hut, hc, if_pos rfl, if_pos rfl, List.getElem?_append]
      grind
    · cases hu : s.pc u <;> grind
  obtain ⟨⟩ := hs
  constructor
  case serves => simpa only [hserves]
  all_goals simp only [finish_word, rouse_word, finish_arrived, rouse_arrived, finish_phase,
    rouse_phase, finish_calls, rouse_calls, hpc, hret]
  all_goals try assumption
  all_goals
    intro u
    cases hu : s.pc u <;> grind

theorem Inv.step {barrierHi : BitVec 32} (hhi : low barrierHi = card ι) (hs : Inv s)
    {a : Act ι} (hstep : Barrier.step barrierHi a s = some s') : Inv s' := by
  have hplace (t : ι) := hs.place t
  cases a with
  | call t =>
    obtain ⟨hc, rfl⟩ : s.pc t = .idle ∧ s.call t = s' := by simpa [Barrier.step] using hstep
    exact hs.call hc
  | arrive t =>
    obtain ⟨hc, rfl⟩ : s.pc t = .enter ∧ s.arrive barrierHi t = s' := by
      simpa [Barrier.step] using hstep
    unfold arrive
    split
    · next hlast => exact hs.arrive_last hc hlast hhi
    · next hmore => exact hs.arrive_early hc hmore barrierHi
  | spinAgain t =>
    cases hc : s.pc t <;> rw [Barrier.step, hc] at hstep <;> cases hstep
    unfold spinAgain
    split
    · next hne => exact hs.finish (by rw [hc]; rfl) hne
    · split <;> exact hs.goto (by rw [hc]; rfl) rfl (by grind) (by grind)
  | futexWait t =>
    cases hc : s.pc t <;> rw [Barrier.step, hc] at hstep <;> cases hstep
    obtain ⟨hcalls, hlen, hhigh, harg⟩ := hc ▸ hs.place t
    split
    · next heq =>
      refine hs.goto (by rw [hc]; rfl) rfl ⟨hcalls, hlen, hhigh⟩ fun _ hold => ?_
      -- the version of a phase that is over is not that of the word
      have hversion := hs.version
      rw [heq, harg, hhigh, ← hold, ← hlen] at hversion
      exact version_ne _ hversion
    · exact hs.goto (by rw [hc]; rfl) rfl ⟨hcalls, hlen, hhigh⟩ (by grind)
  | spurious t =>
    cases hc : s.pc t <;> rw [Barrier.step, hc] at hstep <;> cases hstep <;>
      exact hs.goto (by rw [hc]; rfl) rfl (by grind) (by grind)
  | reread t =>
    cases hc : s.pc t <;> rw [Barrier.step, hc] at hstep <;> cases hstep
    unfold reread
    split
    · next heq => exact hs.goto (by rw [hc]; rfl) rfl (by grind) (by grind)
    · next hne => exact hs.finish (by rw [hc]; rfl) hne
  | futexWake t W =>
    cases hc : s.pc t <;> rw [Barrier.step, hc] at hstep <;> try cases hstep
    obtain ⟨hW, ⟨⟩⟩ := Option.ite_none_right_eq_some.mp hstep
    exact hs.rouse hc hW.1 hW.2

end Steps

section Runs

variable {s : State ι} {t u : ι}

omit dι in
theorem Inv.lt_phase (hs : Inv s) {k : ℕ} (hserial : (s.returned u)[k]? = some .serial) :
    k < (s.returned u).length ∧ k < s.phase := by
  have hle := (hs.place u).returned_le
  grind

omit dι in
/-- When its serial thread has returned, a phase has nobody sleeping, and its version is gone. -/
theorem Inv.released (hs : Inv s) {sav : BitVec 32} (hsav : (s.pc t).saved = some sav)
    (hserial : (s.returned u)[s.calls t - 1]? = some .serial) :
    (s.pc t).sleeps = false ∧ high s.word ≠ high sav := by
  obtain ⟨hcalls, hlen, hhigh⟩ := (hs.place t).of_saved hsav
  obtain ⟨hreturned, hlt⟩ := hs.lt_phase hserial
  have hover : s.calls t = s.phase := by omega
  refine ⟨Bool.eq_false_iff.mpr fun hsleeps => ?_, by grind [hs.version]⟩
  -- the one that is about to wake it would be the serial thread, too
  obtain ⟨v, arg, hv⟩ := hs.asleep t hsleeps hover
  have hplace := hs.place v
  rw [hv] at hplace
  obtain ⟨-, hlen', -⟩ := hplace
  obtain rfl : u = v := (hs.serves _ hlt).unique (.inl hserial) (.inr ⟨⟨arg, hv⟩, by omega⟩)
  omega

end Runs

/-- **The barrier is correct**, for as many threads as its count, whatever they do and however often
they come back.  No call of a phase returns before all threads have called for that phase; of the
calls of a phase that have all returned, exactly one has returned as the serial thread, and never
has more than one; and when the serial thread of a phase has returned, no thread of that phase
sleeps or will see its version again. -/
theorem barrier_correct {count spins : BitVec 16} (hcount : count.toNat = card ι)
    (hpos : count ≠ 0) {s : State ι}
    (hs : Leads (step (secondWord count spins)) (fun _ _ => True) (init count) s) :
    (∀ t u k, k < (s.returned t).length → k < s.calls u) ∧
      (∀ k : ℕ, (∀ t, k < (s.returned t).length) → ∃! t, (s.returned t)[k]? = some Ret.serial) ∧
      (∀ t u, ∀ k : ℕ, (s.returned t)[k]? = some Ret.serial → (s.returned u)[k]? = some Ret.serial →
        t = u) ∧
      ∀ t u sav, (s.pc t).saved = some sav → (s.returned u)[s.calls t - 1]? = some .serial →
        (s.pc t).sleeps = false ∧ high s.word ≠ high sav := by
  have hhi : low (secondWord count spins) = card ι := (low_halves count.isLt).trans hcount
  have hinv : Inv s := hs.invariant (inv_init hcount hpos) fun hi _ hstep => hi.step hhi hstep
  refine ⟨fun t u k hk => ?_, fun k hk => ?_, fun t u k ht hu => ?_,
    fun t u sav hsav hserial => hinv.released hsav hserial⟩
  · exact (hk.trans_le (hinv.place t).returned_le).trans_le (hinv.place u).phase_le
  · obtain ⟨t₀⟩ : Nonempty ι := Fintype.card_pos_iff.mp <| by
      rw [← hcount]
      exact Nat.pos_of_ne_zero fun h => hpos (BitVec.eq_of_toNat_eq h)
    have hserves (t : ι) : Serves s t k ↔ (s.returned t)[k]? = some .serial :=
      or_iff_left fun h => (hk t).ne' h.2
    simp only [← hserves]
    exact hinv.serves k ((hk t₀).trans_le (hinv.place t₀).returned_le)
  · exact (hinv.serves k (hinv.lt_phase ht).2).unique (.inl ht) (.inl hu)

open scoped Numerals

/-- One of two threads comes first, is turned back by the kernel once, and sleeps. -/
def sleepThenPass : List (Act (Fin 2)) :=
  [.call 0, .arrive 0, .spinAgain 0, .futexWait 0, .reread 0, .futexWait 0, .call 1, .arrive 1,
    .futexWake 1 {0}, .reread 0]

/-- Both pass, and the second is the serial thread. -/
theorem barrier_correct_sleepThenPass : ∃ s : State (Fin 2),
    Leads (step (secondWord 2 0)) (fun _ _ => True) (init 2) s ∧ s.returned 0 = [.zero] ∧
      s.returned 1 = [.serial] ∧ ∃! t, (s.returned t)[0]? = some Ret.serial := by
  have hrun : ∃ s ∈ runIf (step (secondWord 2 0)) (fun _ _ => true) sleepThenPass (init 2),
      s.returned 0 = [.zero] ∧ s.returned 1 = [.serial] := by decide +kernel
  obtain ⟨s, hs, h₀, h₁⟩ := hrun
  have hleads := Leads.of_runIf (fun _ _ _ => trivial) .init hs
  obtain ⟨-, hone, -⟩ := barrier_correct (by decide) (by decide) hleads
  refine ⟨s, hleads, h₀, h₁, hone 0 fun t => ?_⟩
  match t with
  | 0 => rw [h₀]; decide
  | 1 => rw [h₁]; decide

/-! ## The kernel's side -/

section Traps

variable {β : Type} [DecidableEq β] {M : Machine ι β} {k : Kernel ι β} {s : State ι} {t : ι} {a : ℕ}
variable {barrierHi : BitVec 32}

/-- **The wake-up trap** is the step, for a kernel that keeps the sleepers at the first word. -/
theorem futexResume_rouses (ha : Wakeable M k a) (hk : s.sleepers = k.sleepers a) {arg : ℕ}
    (hc : s.pc t = .wake arg) :
    ∃ W k', k.futexResume (some a) arg = some (.returned (W.card : ℕ), k') ∧
      step barrierHi (.futexWake t W) s = some ((s.rouse W).finish t .serial) ∧
      ((s.rouse W).finish t .serial).sleepers = k'.sleepers a := by
  obtain ⟨W, k', hk', hW, hleft⟩ := futexResume_threadsAt ha hk arg Pc.back .idle
    (fun d _ => by cases d <;> rfl) (by rw [hc]; rfl) rfl
  refine ⟨W, k', hk', ?_, hleft⟩
  rw [step, hc]
  exact if_pos hW

theorem futexWait_sleeps {h : ℕ} {arg sav : BitVec 32} (ha : MayWait M k h t a)
    (hk : s.sleepers = k.sleepers a) (hc : s.pc t = .block arg sav) :
    ∃ s', step barrierHi (.futexWait t) s = some s' ∧
      k.WaitLeaves M h t a s.word arg s'.sleepers := by
  exact ⟨_, by rw [step, hc], futexWait_threadsAt ha hk (by rw [hc]; rfl) rfl rfl⟩

end Traps

end H2.Barrier
