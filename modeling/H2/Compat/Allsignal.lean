import H2.Futex.Waiters
import H2.Hexagon.Packet
import H2.Machinery.Progress

/-!
# Compat/Allsignal — a waiter for all the bits of a mask

An all-signal is two words: the bits the waiter is short of, and the signals that came in while
nobody waited.  The waiter announces its mask, takes what has come in, and leaves what it took out
of the mask, in three atomic steps.  Who signals looks at the mask: if it is not zero, its bits go
out of it, and who takes out the last one wakes the waiter; if it is zero, its bits go to the
signals that came in — with another atomic step.

Between these two steps the waiter may announce itself and take what has come in.  The bits then
come in too late: nobody looks at them before the next wait, and the waiter sleeps on.  `Timely`
says that this does not happen.

The words are set against the books: which bits have been signalled, and to which wait each is
credited (`Balanced`).  They balance in every interleaving (`Inv.step`).
-/

namespace H2.Allsignal

open Function

open Hexagon (Word)

variable {ι : Type} [dι : DecidableEq ι]

/-- Where a thread is. -/
inductive Pc where
  /-- In neither of the functions. -/
  | idle
  /-- At the top of a wait. -/
  | announce (mask : Word)
  /-- Its mask is written, and what has come in is still to be taken. -/
  | take (mask : Word)
  /-- With `r3`, what had come in, which is to go out of the mask. -/
  | settle (mask r3 : Word)
  /-- With `r1`, the bits it is short of, on its way to the kernel. -/
  | block (mask r1 : Word)
  /-- In the futex queue. -/
  | asleep (mask : Word)
  /-- Back from the kernel. -/
  | check (mask : Word)
  /-- At the top of a signal. -/
  | signal (mask : Word)
  /-- Has found nobody waiting. -/
  | store (mask : Word)
  /-- Has taken the last bit out, and is on its way to the kernel. -/
  | wake (mask : Word)
  deriving DecidableEq

/-- The mask of a wait. -/
@[grind =] def Pc.waitsFor : Pc → Option Word
  | .announce m | .take m | .settle m _ | .block m _ | .asleep m | .check m => some m
  | .idle | .signal _ | .store _ | .wake _ => none

/-- The thread waits, and has written its mask. -/
@[grind =] def Pc.announced : Pc → Bool
  | .take _ | .settle .. | .block .. | .asleep _ | .check _ => true
  | .idle | .announce _ | .signal _ | .store _ | .wake _ => false

@[grind =] def Pc.sleeps : Pc → Bool
  | .asleep _ => true
  | _ => false

/-- Where a wait goes on when the kernel comes back. -/
@[grind =] def Pc.back : Pc → Pc
  | .block m _ | .asleep m => .check m
  | c => c

/-- An all-signal and its threads.  A bit counts as signalled with the step that puts it in one of
the words. -/
structure State (ι : Type) where
  waiting : Word
  signalsIn : Word
  pc : ι → Pc
  /-- The mask that is announced, and … -/
  mask : Word
  /-- … what its waiter has taken and not yet left out of `waiting`. -/
  held : Word
  /-- The bits that were signalled during this wait, or before it and since the last wait for them
  that they were credited to. -/
  credited : Word
  /-- The bits that were signalled and are not credited to a wait. -/
  fresh : Word
  /-- How many waits have returned. -/
  epoch : ℕ
  /-- When the thread's last signal began. -/
  began : ι → ℕ
  /-- The bits of the signals that began since the last wait returned: those that count as
  signalled, … -/
  recorded : Word
  /-- … and those whose calls are complete. -/
  done : Word
  /-- The masks of the waits that have returned, and what was credited to them. -/
  returned : List (Word × Word)

namespace State

@[simps] def goto (t : ι) (c : Pc) (s : State ι) : State ι := { s with pc := update s.pc t c }

omit dι in
/-- The bits of `m` are signalled, by a call of `t`: they are credited to the wait that is short of
them. -/
@[simps] def record (t : ι) (m : Word) (s : State ι) : State ι :=
  { s with
    credited := s.credited ||| (m &&& s.mask)
    fresh := s.fresh ||| (m &&& ~~~(s.mask &&& ~~~s.credited))
    recorded := if s.began t = s.epoch then s.recorded ||| m else s.recorded }

@[simps] def complete (t : ι) (m : Word) (s : State ι) : State ι :=
  { s with
    done := if s.began t = s.epoch then s.done ||| m else s.done
    pc := update s.pc t .idle }

@[simps] def ret (t : ι) (m : Word) (s : State ι) : State ι :=
  { s with
    pc := update s.pc t .idle
    mask := 0
    held := 0
    epoch := s.epoch + 1
    recorded := 0
    done := 0
    returned := (m, s.credited) :: s.returned }

/-- `h2_allsignal_wait`: the mask is written. -/
@[simps] def announce (t : ι) (m : Word) (s : State ι) : State ι :=
  { s with
    waiting := m
    mask := m
    credited := s.fresh &&& m
    fresh := s.fresh &&& ~~~m
    pc := update s.pc t (.take m) }

/-- What has come in is taken. -/
@[simps] def take (t : ι) (m : Word) (s : State ι) : State ι :=
  { s with
    signalsIn := s.signalsIn &&& ~~~m
    held := s.signalsIn
    pc := update s.pc t (.settle m s.signalsIn) }

/-- What was taken goes out of the mask. -/
def settle (t : ι) (m r3 : Word) (s : State ι) : State ι :=
  let r2 := ~~~r3 &&& s.waiting
  let s := { s with waiting := r2, held := 0 }
  if r2 = 0 then s.ret t m else s.goto t (.block m r2)

def check (t : ι) (m : Word) (s : State ι) : State ι :=
  if s.waiting = 0 then s.ret t m else s.goto t (.block m s.waiting)

/-- `h2_allsignal_signal` begins. -/
@[simps] def call (t : ι) (m : Word) (s : State ι) : State ι :=
  { s with pc := update s.pc t (.signal m), began := update s.began t s.epoch }

/-- Its bits go out of the mask, if there is one. -/
def signal (t : ι) (m : Word) (s : State ι) : State ι :=
  if s.waiting = 0 then s.goto t (.store m)
  else
    let r3 := s.waiting &&& ~~~m
    let s := { s with waiting := r3 }.record t m
    if r3 = 0 then s.goto t (.wake m) else s.complete t m

def store (t : ι) (m : Word) (s : State ι) : State ι :=
  ({ s with signalsIn := s.signalsIn ||| m }.record t m).complete t m

/-- `H2_TRAP_FUTEX_WAKE`, when it makes the threads of `W` ready. -/
def rouse (t : ι) (m : Word) (W : Finset ι) (s : State ι) : State ι :=
  { s with pc := fun u => if u ∈ W then (s.pc u).back else s.pc u }.complete t m

def sleepers [Fintype ι] (s : State ι) : Finset ι := threadsAt Pc.sleeps s.pc

attribute [grind =] goto_pc record_pc complete_pc ret_pc announce_pc take_pc call_pc

end State

open State

inductive Act (ι : Type) where
  /-- A wait begins. -/
  | wait (t : ι) (mask : Word)
  | announce (t : ι)
  | take (t : ι)
  | settle (t : ι)
  /-- `H2_TRAP_FUTEX_WAIT`. -/
  | futexWait (t : ι)
  /-- The trap comes back for another reason, with or without having slept. -/
  | spurious (t : ι)
  | check (t : ι)
  /-- A signal begins. -/
  | call (t : ι) (mask : Word)
  | signal (t : ι)
  | store (t : ι)
  /-- The store is not conditional to the load, and the signal starts over. -/
  | retry (t : ι)
  /-- `H2_TRAP_FUTEX_WAKE` for one. -/
  | futexWake (t : ι) (W : Finset ι)

def Act.thread : Act ι → ι
  | .wait t _ | .announce t | .take t | .settle t | .futexWait t | .spurious t | .check t
  | .call t _ | .signal t | .store t | .retry t | .futexWake t _ => t

variable [fι : Fintype ι]

def step : Act ι → State ι → Option (State ι)
  | .wait t m, s => if s.pc t = .idle then some (s.goto t (.announce m)) else none
  | .announce t, s =>
    match s.pc t with
    | .announce m => some (s.announce t m)
    | _ => none
  | .take t, s =>
    match s.pc t with
    | .take m => some (s.take t m)
    | _ => none
  | .settle t, s =>
    match s.pc t with
    | .settle m r3 => some (s.settle t m r3)
    | _ => none
  | .futexWait t, s =>
    match s.pc t with
    | .block m r1 => some (s.goto t (if s.waiting = r1 then .asleep m else .check m))
    | _ => none
  | .spurious t, s =>
    match s.pc t with
    | .block m _ | .asleep m => some (s.goto t (.check m))
    | _ => none
  | .check t, s =>
    match s.pc t with
    | .check m => some (s.check t m)
    | _ => none
  | .call t m, s => if s.pc t = .idle then some (s.call t m) else none
  | .signal t, s =>
    match s.pc t with
    | .signal m => some (s.signal t m)
    | _ => none
  | .store t, s =>
    match s.pc t with
    | .store m => some (s.store t m)
    | _ => none
  | .retry t, s =>
    match s.pc t with
    | .store m => some (s.goto t (.signal m))
    | _ => none
  | .futexWake t W, s =>
    match s.pc t with
    | .wake m =>
      if W ⊆ s.sleepers ∧ W.card = min 1 s.sleepers.card then some (s.rouse t m W) else none
    | _ => none

/-- Where a step leads. -/
inductive Goes (s : State ι) : Act ι → State ι → Prop
  | wait {t : ι} {m : Word} (ht : s.pc t = .idle) : Goes s (.wait t m) (s.goto t (.announce m))
  | announce {t : ι} {m : Word} (ht : s.pc t = .announce m) : Goes s (.announce t) (s.announce t m)
  | take {t : ι} {m : Word} (ht : s.pc t = .take m) : Goes s (.take t) (s.take t m)
  | settle {t : ι} {m r3 : Word} (ht : s.pc t = .settle m r3) : Goes s (.settle t) (s.settle t m r3)
  | futexWait {t : ι} {m r1 : Word} (ht : s.pc t = .block m r1) :
      Goes s (.futexWait t) (s.goto t (if s.waiting = r1 then .asleep m else .check m))
  | spurious {t : ι} {m : Word} (ht : (∃ r1, s.pc t = .block m r1) ∨ s.pc t = .asleep m) :
      Goes s (.spurious t) (s.goto t (.check m))
  | check {t : ι} {m : Word} (ht : s.pc t = .check m) : Goes s (.check t) (s.check t m)
  | call {t : ι} {m : Word} (ht : s.pc t = .idle) : Goes s (.call t m) (s.call t m)
  | signal {t : ι} {m : Word} (ht : s.pc t = .signal m) : Goes s (.signal t) (s.signal t m)
  | store {t : ι} {m : Word} (ht : s.pc t = .store m) : Goes s (.store t) (s.store t m)
  | retry {t : ι} {m : Word} (ht : s.pc t = .store m) : Goes s (.retry t) (s.goto t (.signal m))
  | futexWake {t : ι} {m : Word} {W : Finset ι} (ht : s.pc t = .wake m) (hW : W ⊆ s.sleepers)
      (hcard : W.card = min 1 s.sleepers.card) : Goes s (.futexWake t W) (s.rouse t m W)

theorem goes_of_step {a : Act ι} {s s' : State ι} (hstep : step a s = some s') : Goes s a s' := by
  cases a <;> rw [step] at hstep <;> grind [Goes]

/-- At most one thread waits at a time. -/
def OneWaiter (a : Act ι) (s : State ι) : Prop :=
  ∀ t m, a = .wait t m → ∀ u, (s.pc u).waitsFor = none

/-- **Nobody comes in too late**: when the waiter takes what has come in, no signal of this epoch
has found nobody waiting and is still to store a bit the waiter is short of. -/
def Timely (a : Act ι) (s : State ι) : Prop :=
  ∀ t, a = .take t → ∀ u m, s.pc u = .store m → s.began u = s.epoch →
    m &&& s.waiting &&& ~~~s.signalsIn = 0

/-- `h2_allsignal_init`. -/
def init : State ι where
  waiting := 0
  signalsIn := 0
  pc _ := .idle
  mask := 0
  held := 0
  credited := 0
  fresh := 0
  epoch := 0
  began _ := 0
  recorded := 0
  done := 0
  returned := []

/-! ## Bits -/

/-- Bit `i` of a word. -/
def bit (x : Word) (i : Fin 32) : Bool := x.getLsbD i

section Bits

variable (x y : Word) (i : Fin 32)

@[simp, grind =] theorem bit_zero : bit 0#32 i = false := BitVec.getLsbD_zero

@[simp, grind =] theorem bit_and : bit (x &&& y) i = (bit x i && bit y i) := BitVec.getLsbD_and ..

@[simp, grind =] theorem bit_or : bit (x ||| y) i = (bit x i || bit y i) := BitVec.getLsbD_or ..

@[simp, grind =] theorem bit_not : bit (~~~x) i = !bit x i := by simp [bit]

variable {x y}

theorem eq_zero_of_bits (h : ∀ i, bit x i = false) : x = 0 :=
  BitVec.eq_of_getLsbD_eq fun i hi => (h ⟨i, hi⟩).trans BitVec.getLsbD_zero.symm

end Bits

/-! ## The accounts -/

/-- The bits the waiter is short of. -/
@[grind =] def State.short (s : State ι) : Word := s.waiting &&& ~~~s.held

omit fι dι in
theorem State.short_of_held {s : State ι} (h : s.held = 0) : s.short = s.waiting := by
  rw [short, h]
  exact BitVec.and_allOnes

/-- **The books balance.** Of the bits that are signalled, those the waiter is short of are among
what has come in; it is credited with those it is not short of; and what has come in is not
credited, or to a waiter that is short of it.  A waiter that is still to take what has come in is
credited with that. -/
structure Balanced (taking : Prop) (s : State ι) : Prop where
  within : ∀ i, bit s.waiting i → bit s.mask i
  kept : ∀ i, bit s.recorded i → bit s.short i → bit s.signalsIn i
  credit : ∀ i, bit s.mask i → bit s.short i = false → bit s.credited i
  stored : ∀ i, bit s.signalsIn i → ¬(taking ∧ bit s.mask i) →
    bit s.fresh i ∨ bit s.credited i ∧ bit s.short i
  taken : taking → ∀ i, bit s.mask i → bit s.signalsIn i → bit s.credited i

section Balance

omit fι

variable {s : State ι} {t : ι} {m : Word} {taking : Prop}

theorem Balanced.goto {c : Pc} (h : Balanced taking s) : Balanced taking (s.goto t c) :=
  ⟨h.within, h.kept, h.credit, h.stored, h.taken⟩

theorem Balanced.call (h : Balanced taking s) : Balanced taking (s.call t m) :=
  ⟨h.within, h.kept, h.credit, h.stored, h.taken⟩

theorem Balanced.complete (h : Balanced taking s) : Balanced taking (s.complete t m) :=
  ⟨h.within, h.kept, h.credit, h.stored, h.taken⟩

theorem Balanced.announce (h : Balanced taking s) (hwaiting : s.waiting = 0)
    (hmask : s.mask = 0) (hrecorded : ∀ i, bit s.recorded i → bit s.signalsIn i)
    (hheld : s.held = 0) : Balanced True (s.announce t m) := by
  have hfresh (i : Fin 32) (hi : bit s.signalsIn i) : bit s.fresh i := by
    have := h.stored i hi
    grind
  constructor <;> simp only [State.announce] at * <;> grind

theorem Balanced.take (h : Balanced True s) (hmask : s.mask = m) (hheld : s.held = 0) :
    Balanced False (s.take t m) := by
  obtain ⟨⟩ := h
  constructor <;> simp only [State.take] at * <;> grind

section

omit dι

/-- What the waiter is short of stays when what it took goes out of the mask. -/
theorem Balanced.settle (h : Balanced taking s) {r3 : Word} (hheld : s.held = r3) :
    Balanced taking { s with waiting := ~~~r3 &&& s.waiting, held := 0 } := by
  have hshort (i : Fin 32) : bit ({ s with
      waiting := ~~~r3 &&& s.waiting, held := 0 } : State ι).short i = bit s.short i := by
    rw [short_of_held rfl]
    simp [short, hheld, Bool.and_comm]
  obtain ⟨⟩ := h
  constructor <;> simp only [hshort] at * <;> grind

theorem Balanced.clear (h : Balanced taking s) :
    Balanced taking ({ s with waiting := s.waiting &&& ~~~m }.record t m) := by
  obtain ⟨⟩ := h
  constructor <;> simp only [record] at * <;> grind

theorem Balanced.store (h : Balanced taking s) :
    Balanced taking ({ s with signalsIn := s.signalsIn ||| m }.record t m) := by
  obtain ⟨⟩ := h
  constructor <;> simp only [record] at * <;> grind

end

end Balance

/-! ## The invariant -/

/-- The thread is still to take what has come in. -/
@[grind =] def Pc.takes : Pc → Bool
  | .take _ => true
  | _ => false

/-- The waiter is still to take what has come in. -/
def State.taking (s : State ι) : Prop := ∃ t, (s.pc t).takes

/-- What is known of a thread at its place.  A waiter sleeps only if it is short of something, or a
wake-up is under way. -/
@[grind =] def State.At (s : State ι) : Pc → Prop
  | .take m | .check m => s.mask = m ∧ s.held = 0
  | .settle m r3 => s.mask = m ∧ s.held = r3
  | .block m r1 => s.mask = m ∧ s.held = 0 ∧ r1 ≠ 0
  | .asleep m => s.mask = m ∧ s.held = 0 ∧ (s.waiting ≠ 0 ∨ ∃ u m', s.pc u = .wake m')
  | .idle | .announce _ | .signal _ | .store _ | .wake _ => True

/-- **The invariant.** -/
structure Inv (s : State ι) : Prop where
  single : ∀ t u, (s.pc t).waitsFor ≠ none → (s.pc u).waitsFor ≠ none → t = u
  place : ∀ t, s.At (s.pc t)
  calm : (∀ t, (s.pc t).announced = false) → s.waiting = 0 ∧ s.mask = 0 ∧ s.held = 0 ∧
    ∀ i, bit s.recorded i → bit s.signalsIn i
  balanced : Balanced s.taking s
  began : ∀ t, s.began t ≤ s.epoch
  done : ∀ i, bit s.done i → bit s.recorded i
  wake : ∀ t m, s.pc t = .wake m → s.began t = s.epoch → ∀ i, bit m i → bit s.recorded i
  returned : ∀ r ∈ s.returned, ∀ i, bit r.1 i → bit r.2 i

theorem Pc.waitsFor_of_announced {c : Pc} (hc : c.announced) : c.waitsFor ≠ none := by
  cases c <;> simp_all [Pc.announced, Pc.waitsFor]

theorem Pc.announced_of_takes {c : Pc} (hc : c.takes) : c.announced := by
  cases c <;> simp_all [Pc.announced, Pc.takes]

theorem Pc.announced_of_waitsFor {c : Pc} (hc : c.waitsFor = none) : c.announced = false := by
  cases c <;> simp_all [Pc.announced, Pc.waitsFor]

theorem Pc.eq_asleep_of_sleeps {c : Pc} (hc : c.sleeps) : ∃ m, c = .asleep m := by
  cases c with
  | asleep m => exact ⟨m, rfl⟩
  | _ => cases hc

section Steps

omit fι

variable {s s' : State ι} {t : ι} {c : Pc} {m : Word}

omit dι in
theorem State.at_of_not_announced (hc : c.announced = false) : s.At c := by
  cases c <;> simp_all [Pc.announced, At]

omit dι in
theorem inv_init : Inv (init : State ι) where
  single t u h := absurd rfl h
  place t := trivial
  calm _ := ⟨rfl, rfl, rfl, fun i hi => hi⟩
  balanced := by
    refine ⟨fun i hi => hi, fun i hi => ?_, fun i hi => ?_, fun i hi => ?_, fun _ i hi => ?_⟩ <;>
      simp [init] at hi
  began t := Nat.le_refl _
  done i hi := hi
  wake t m h := by cases h
  returned r hr := by cases hr

theorem Inv.of_waiter (hother : ∀ u, u ≠ t → (s.pc u).waitsFor = none)
    (hpc : s'.pc = update s.pc t c) (hwake : ∀ m, c ≠ .wake m) (hat : s'.At c)
    (hcalm : c.announced = false → s'.waiting = 0 ∧ s'.mask = 0 ∧ s'.held = 0 ∧
      ∀ i, bit s'.recorded i → bit s'.signalsIn i)
    {p : Prop} (hp : c.takes = true ↔ p) (hbalanced : Balanced p s')
    (hbegan : ∀ u, s'.began u ≤ s'.epoch) (hdone : ∀ i, bit s'.done i → bit s'.recorded i)
    (hrecorded : ∀ u m, s.pc u = .wake m → s'.began u = s'.epoch → ∀ i, bit m i → bit s'.recorded i)
    (hreturned : ∀ r ∈ s'.returned, ∀ i, bit r.1 i → bit r.2 i) : Inv s' := by
  have hpc (u : ι) : s'.pc u = if u = t then c else s.pc u := by rw [hpc, update_apply]
  have htaking : s'.taking = p := by
    refine propext ⟨fun ⟨u, hu⟩ => ?_, fun h => ⟨t, by grind⟩⟩
    have := hother u
    cases hcu : s.pc u <;> grind
  refine ⟨?_, fun u => ?_, fun hnone => hcalm ?_, htaking ▸ hbalanced, hbegan, hdone, ?_, hreturned⟩
  · grind
  · by_cases hut : u = t
    · grind
    · exact at_of_not_announced (Pc.announced_of_waitsFor (by grind))
  · have := hnone t
    grind
  · grind

theorem Inv.of_signaller (h : Inv s) (hpc : s'.pc = update s.pc t c)
    (ht : (s.pc t).waitsFor = none) (hc : c.waitsFor = none) (hmask : s'.mask = s.mask)
    (hheld : s'.held = s.held)
    (hsleep : ∀ u, (s.pc u).sleeps → (s.waiting ≠ 0 ∨ ∃ u m, s.pc u = .wake m) →
      s'.waiting ≠ 0 ∨ ∃ u m, s'.pc u = .wake m)
    (hcalm : s.waiting = 0 → (∀ i, bit s.recorded i → bit s.signalsIn i) →
      s'.waiting = 0 ∧ ∀ i, bit s'.recorded i → bit s'.signalsIn i)
    (hbalanced : Balanced s.taking s') (hbegan : ∀ u, s'.began u ≤ s'.epoch)
    (hdone : ∀ i, bit s'.done i → bit s'.recorded i)
    (hrecorded : ∀ u m, s'.pc u = .wake m → s'.began u = s'.epoch → ∀ i, bit m i →
      bit s'.recorded i)
    (hreturned : s'.returned = s.returned) : Inv s' := by
  have hpc (u : ι) : s'.pc u = if u = t then c else s.pc u := by rw [hpc, update_apply]
  have htaking : s'.taking = s.taking := by
    refine propext ⟨fun ⟨u, hu⟩ => ⟨u, ?_⟩, fun ⟨u, hu⟩ => ⟨u, ?_⟩⟩ <;>
      grind [Pc.waitsFor_of_announced, Pc.announced_of_takes]
  refine ⟨fun u v hu hv => ?_, fun u => ?_, fun hnone => ?_, htaking ▸ hbalanced, hbegan, hdone,
    hrecorded, hreturned ▸ h.returned⟩
  · exact h.single u v (by grind) (by grind)
  · by_cases hut : u = t
    · exact at_of_not_announced (Pc.announced_of_waitsFor (by grind))
    · have hat := h.place u
      cases hcu : s.pc u <;> grind
  · have hann (u : ι) : (s.pc u).announced = false := by
      have := hnone u
      grind [Pc.announced_of_waitsFor]
    have := h.calm hann
    grind

omit dι in
theorem Inv.other (h : Inv s) (ht : (s.pc t).waitsFor ≠ none) (u : ι) (hu : u ≠ t) :
    (s.pc u).waitsFor = none := by
  by_contra hne
  exact hu (h.single u t hne ht)

omit dι in
/-- Only the waiter can be about to take what has come in. -/
theorem Inv.taking_iff (h : Inv s) (ht : (s.pc t).waitsFor ≠ none) :
    s.taking ↔ (s.pc t).takes = true := by
  refine ⟨fun ⟨u, hu⟩ => ?_, fun ht => ⟨t, ht⟩⟩
  rwa [← h.single u t (Pc.waitsFor_of_announced (Pc.announced_of_takes hu)) ht]

theorem Inv.wait (h : Inv s) (hnone : ∀ u, (s.pc u).waitsFor = none) :
    Inv (s.goto t (.announce m)) := by
  have hfalse : ¬s.taking := fun ⟨u, hu⟩ =>
    Pc.waitsFor_of_announced (Pc.announced_of_takes hu) (hnone u)
  exact .of_waiter (fun u _ => hnone u) rfl nofun trivial
    (fun _ => h.calm fun u => Pc.announced_of_waitsFor (hnone u)) (by simp [Pc.takes])
    (eq_false hfalse ▸ h.balanced : Balanced False s).goto h.began h.done h.wake h.returned

/-- It announces its mask, … -/
theorem Inv.announce (h : Inv s) (ht : s.pc t = .announce m) : Inv (s.announce t m) := by
  have hother := h.other (by rw [ht]; nofun)
  obtain ⟨hwaiting, hmask, hheld, hrecorded⟩ := h.calm fun u => by
    by_cases hut : u = t
    · rw [hut, ht]
      rfl
    · exact Pc.announced_of_waitsFor (hother u hut)
  exact .of_waiter hother rfl nofun ⟨rfl, hheld⟩ nofun (by simp [Pc.takes])
    (h.balanced.announce hwaiting hmask hrecorded hheld) h.began h.done h.wake h.returned

/-- … takes what has come in, … -/
theorem Inv.take (h : Inv s) (ht : s.pc t = .take m) : Inv (s.take t m) := by
  have hother := h.other (by rw [ht]; nofun)
  have hat := h.place t
  rw [ht] at hat
  obtain ⟨hmask, hheld⟩ := hat
  have hbalanced : Balanced True s := (eq_true ⟨t, by rw [ht]; rfl⟩ : s.taking = True) ▸ h.balanced
  exact .of_waiter hother rfl nofun ⟨hmask, rfl⟩ nofun (by simp [Pc.takes])
    (hbalanced.take hmask hheld) h.began h.done h.wake h.returned

theorem Inv.ret (h : Balanced False s) (hother : ∀ u, u ≠ t → (s.pc u).waitsFor = none)
    (hwaiting : s.waiting = 0) (hmask : s.mask = m) (hbegan : ∀ u, s.began u ≤ s.epoch)
    (hreturned : ∀ r ∈ s.returned, ∀ i, bit r.1 i → bit r.2 i) : Inv (s.ret t m) := by
  refine .of_waiter hother rfl nofun trivial (fun _ => ⟨hwaiting, rfl, rfl, by simp⟩)
    (by simp [Pc.takes]) ⟨?_, ?_, ?_, fun i hi _ => ?_, False.elim⟩
    (fun u => Nat.le_succ_of_le (hbegan u)) (by simp) (fun u m _ hu => ?_) fun r hr => ?_
  · simp [hwaiting]
  · simp
  · simp
  · have := h.stored i hi
    grind [ret_fresh]
  · have := hbegan u
    grind [ret_began, ret_epoch]
  · have := h.credit
    grind [ret_returned]

/-- … leaves what it took out of its mask, … -/
theorem Inv.settle (h : Inv s) {r3 : Word} (ht : s.pc t = .settle m r3) :
    Inv (s.settle t m r3) := by
  have hne : (s.pc t).waitsFor ≠ none := by rw [ht]; nofun
  have hat := h.place t
  rw [ht] at hat
  obtain ⟨hmask, hheld⟩ := hat
  have htaking : s.taking = False := by
    rw [propext (h.taking_iff hne), ht]
    simp [Pc.takes]
  have hbalanced := (htaking ▸ h.balanced).settle hheld
  unfold State.settle
  simp only
  split
  · next hzero => exact .ret hbalanced (h.other hne) hzero hmask h.began h.returned
  · next hsome =>
    exact .of_waiter (h.other hne) rfl nofun ⟨hmask, rfl, hsome⟩ nofun
      (by simp [Pc.takes]) hbalanced.goto h.began h.done h.wake h.returned

/-- A waiter that has taken what had come in goes on. -/
theorem Inv.goto (h : Inv s) (hne : (s.pc t).waitsFor ≠ none) (ht : (s.pc t).takes = false)
    (hc : c.announced = true) (hc' : c.takes = false) (hat : (s.goto t c).At c) :
    Inv (s.goto t c) := by
  have htaking : s.taking = False := by
    rw [propext (h.taking_iff hne), ht]
    simp
  refine .of_waiter (h.other hne) rfl (fun m hcm => ?_) hat (fun h => ?_)
    (by simp [hc']) (htaking ▸ h.balanced : Balanced False s).goto h.began h.done h.wake h.returned
  · rw [hcm] at hc
    cases hc
  · rw [hc] at h
    cases h

/-- … goes to sleep on what it is short of, … -/
theorem Inv.futexWait (h : Inv s) {r1 : Word} (ht : s.pc t = .block m r1) :
    Inv (s.goto t (if s.waiting = r1 then .asleep m else .check m)) := by
  have hat := h.place t
  rw [ht] at hat
  obtain ⟨hmask, hheld, hr1⟩ := hat
  split
  · next heq =>
    exact h.goto (by rw [ht]; nofun) (by rw [ht]; rfl) rfl rfl ⟨hmask, hheld, .inl (heq ▸ hr1)⟩
  · exact h.goto (by rw [ht]; nofun) (by rw [ht]; rfl) rfl rfl ⟨hmask, hheld⟩

/-- … and looks again when the kernel comes back. -/
theorem Inv.check (h : Inv s) (ht : s.pc t = .check m) : Inv (s.check t m) := by
  have hne : (s.pc t).waitsFor ≠ none := by rw [ht]; nofun
  have hat := h.place t
  rw [ht] at hat
  obtain ⟨hmask, hheld⟩ := hat
  have htaking : s.taking = False := by
    rw [propext (h.taking_iff hne), ht]
    simp [Pc.takes]
  unfold State.check
  split
  · next hzero => exact .ret (htaking ▸ h.balanced) (h.other hne) hzero hmask h.began h.returned
  · next hsome => exact h.goto hne (by rw [ht]; rfl) rfl rfl ⟨hmask, hheld, hsome⟩

theorem wake_stays (hpc : s'.pc = update s.pc t c) (ht : ∀ m, s.pc t ≠ .wake m)
    (hs : ∃ u m, s.pc u = .wake m) : ∃ u m, s'.pc u = .wake m := by
  obtain ⟨u, m, hu⟩ := hs
  exact ⟨u, m, by rw [hpc]; grind⟩

/-- What was known of wake-ups is known still if no call is forgotten. -/
theorem Inv.wake_mono (h : Inv s) (hpc : s'.pc = update s.pc t c)
    (hc : ∀ m, c ≠ .wake m) (hbegan : s'.began = s.began) (hepoch : s'.epoch = s.epoch)
    (hrecorded : ∀ i, bit s.recorded i → bit s'.recorded i) (u : ι) (m : Word)
    (hu : s'.pc u = .wake m) (hu' : s'.began u = s'.epoch) (i : Fin 32) (hi : bit m i) :
    bit s'.recorded i := by
  have := h.wake u m
  rw [hpc] at hu
  grind

omit dι in
theorem record_mono {i : Fin 32} (hi : bit s.recorded i) : bit (s.record t m).recorded i := by
  grind [record_recorded]

omit dι in
theorem record_self (ht : s.began t = s.epoch) {i : Fin 32} (hi : bit m i) :
    bit (s.record t m).recorded i := by
  rw [record_recorded, if_pos ht, bit_or, hi, Bool.or_true]

theorem Inv.done_complete (hdone : ∀ i, bit s.done i → bit s.recorded i)
    (hm : s.began t = s.epoch → ∀ i, bit m i → bit s.recorded i) (i : Fin 32)
    (hi : bit (s.complete t m).done i) : bit (s.complete t m).recorded i := by
  have := hdone i
  grind [complete_done, complete_recorded]

theorem Inv.call (h : Inv s) (ht : s.pc t = .idle) : Inv (s.call t m) := by
  refine h.of_signaller rfl (by rw [ht]; rfl) rfl rfl rfl
    (fun _ _ hs => hs.imp_right (wake_stays rfl (by rw [ht]; nofun))) (fun hw hr => ⟨hw, hr⟩)
    h.balanced.call (fun u => ?_) h.done (fun u m' hu => ?_) rfl
  · have := h.began u
    grind [call_began, call_epoch]
  · have := h.wake u m'
    grind [call_began, call_epoch, call_recorded]

theorem Inv.goto_signaller (h : Inv s) (ht : (s.pc t).waitsFor = none) (ht' : ∀ m, s.pc t ≠ .wake m)
    (hc : c.waitsFor = none) (hc' : ∀ m, c ≠ .wake m) : Inv (s.goto t c) :=
  h.of_signaller rfl ht hc rfl rfl (fun _ _ hs => hs.imp_right (wake_stays rfl ht'))
    (fun hw hr => ⟨hw, hr⟩) h.balanced.goto h.began h.done
    (h.wake_mono rfl hc' rfl rfl fun _ hi => hi) rfl

/-- **A signal looks at the mask.** -/
theorem Inv.signal (h : Inv s) (ht : s.pc t = .signal m) : Inv (s.signal t m) := by
  have hwaits : (s.pc t).waitsFor = none := by rw [ht]; rfl
  have hwake : ∀ m, s.pc t ≠ .wake m := by rw [ht]; nofun
  have hdone (i : Fin 32) (hi : bit s.done i) :
      bit (({ s with waiting := s.waiting &&& ~~~m } : State ι).record t m).recorded i :=
    record_mono (h.done i hi)
  unfold State.signal
  split
  · exact h.goto_signaller hwaits hwake rfl nofun
  · next hwaiting =>
    simp only
    split
    · -- the last bit
      refine h.of_signaller rfl hwaits rfl rfl rfl (fun _ _ _ => .inr ⟨t, m, by simp⟩)
        (fun hw => absurd hw hwaiting) h.balanced.clear.goto h.began hdone
        (fun u m' hu hu' i hi => ?_)
        rfl
      by_cases hut : u = t
      · subst hut
        rw [goto_pc, update_self] at hu
        obtain rfl := Pc.wake.inj hu
        exact record_self (by exact hu') hi
      · rw [goto_pc, update_of_ne hut] at hu
        exact record_mono (h.wake u m' hu hu' i hi)
    · next hr3 =>
      exact h.of_signaller rfl hwaits rfl rfl rfl (fun _ _ _ => .inl hr3)
        (fun hw => absurd hw hwaiting) h.balanced.clear.complete h.began
        (Inv.done_complete hdone fun ht i hi => by exact record_self (by exact ht) hi)
        (h.wake_mono rfl nofun rfl rfl fun i hi => record_mono hi) rfl

theorem Inv.store (h : Inv s) (ht : s.pc t = .store m) : Inv (s.store t m) := by
  have hwaits : (s.pc t).waitsFor = none := by rw [ht]; rfl
  have hwake : ∀ m, s.pc t ≠ .wake m := by rw [ht]; nofun
  refine h.of_signaller rfl hwaits rfl rfl rfl (fun _ _ hs => hs.imp_right (wake_stays rfl hwake))
    (fun hw hr => ⟨hw, fun i hi => ?_⟩) h.balanced.store.complete h.began
    (Inv.done_complete (fun i hi => record_mono (h.done i hi)) fun ht i hi => by
      exact record_self (by exact ht) hi)
    (h.wake_mono rfl nofun rfl rfl fun i hi => record_mono hi) rfl
  simp only [State.store, State.complete_recorded, State.complete_signalsIn, State.record_recorded,
    record_signalsIn] at hi ⊢
  split at hi <;> grind

end Steps

section Wakeup

variable {s : State ι} {t : ι} {m : Word}

/-- **A wake-up** is for all that sleep, as that is one at most. -/
theorem Inv.rouse (h : Inv s) (ht : s.pc t = .wake m) {W : Finset ι} (hW : W ⊆ s.sleepers)
    (hcard : W.card = min 1 s.sleepers.card) : Inv (s.rouse t m W) := by
  have hwaits {u : ι} (hu : (s.pc u).sleeps) : (s.pc u).waitsFor ≠ none := by
    cases hc : s.pc u <;> simp_all [Pc.sleeps, Pc.waitsFor]
  have hone : s.sleepers.card ≤ 1 := Finset.card_le_one.mpr fun u hu v hv =>
    h.single u v (hwaits (mem_threadsAt.mp hu)) (hwaits (mem_threadsAt.mp hv))
  obtain rfl : W = s.sleepers := Finset.eq_of_subset_of_card_le hW (by omega)
  -- the sleeper is up
  obtain ⟨s₁, hs₁⟩ : ∃ s₁, s₁ = { s with
    pc := fun u => if u ∈ s.sleepers then (s.pc u).back else s.pc u } := ⟨_, rfl⟩
  have hpc (u : ι) : s₁.pc u = if (s.pc u).sleeps then (s.pc u).back else s.pc u := by
    simp [hs₁, sleepers]
  have hup (u : ι) : (s₁.pc u).sleeps = false := by
    rw [hpc]
    cases s.pc u <;> rfl
  have hinv : Inv s₁ := by
    by_cases hnone : ∃ u, (s.pc u).sleeps
    · obtain ⟨u, hu⟩ := hnone
      obtain ⟨m', hu'⟩ := Pc.eq_asleep_of_sleeps hu
      have hat := h.place u
      rw [hu'] at hat
      have heq : s₁ = s.goto u (.check m') := by
        have hfun : s₁.pc = update s.pc u (.check m') := by
          funext v
          have := h.single v u
          grind
        rw [State.goto, ← hfun, hs₁]
      rw [heq]
      exact h.goto (hwaits hu) (by rw [hu']; rfl) rfl rfl ⟨hat.1, hat.2.1⟩
    · have heq : s₁ = s := by
        rw [hs₁]
        congr
        grind [sleepers]
      rwa [heq]
  have ht₁ : s₁.pc t = .wake m := by rw [hpc, ht]; rfl
  have hrouse : s.rouse t m s.sleepers = s₁.complete t m := by rw [hs₁]; rfl
  rw [hrouse]
  exact hinv.of_signaller rfl (by rw [ht₁]; rfl) rfl rfl rfl
    (fun u hu => absurd hu (by simp [hup u])) (fun hw hr => ⟨hw, hr⟩) hinv.balanced.complete
    hinv.began (Inv.done_complete hinv.done (hinv.wake t m ht₁))
    (hinv.wake_mono rfl nofun rfl rfl fun i hi => hi) rfl

variable {s' : State ι} {a : Act ι}

theorem Inv.step (h : Inv s) (hone : OneWaiter a s) (hstep : step a s = some s') : Inv s' := by
  cases goes_of_step hstep with
  | wait _ => exact h.wait (hone _ _ rfl)
  | announce ht => exact h.announce ht
  | take ht => exact h.take ht
  | settle ht => exact h.settle ht
  | futexWait ht => exact h.futexWait ht
  | @spurious t m ht =>
    have hat := h.place t
    rcases ht with ⟨r1, ht⟩ | ht <;> rw [ht] at hat
    all_goals exact h.goto (by rw [ht]; nofun) (by rw [ht]; rfl) rfl rfl ⟨hat.1, hat.2.1⟩
  | check ht => exact h.check ht
  | call ht => exact h.call ht
  | signal ht => exact h.signal ht
  | store ht => exact h.store ht
  | retry ht => exact h.goto_signaller (by rw [ht]; rfl) (by rw [ht]; nofun) rfl nofun
  | futexWake ht hW hcard => exact h.rouse ht hW hcard

end Wakeup

end H2.Allsignal
