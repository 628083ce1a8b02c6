import H2.Futex.Waiters
import H2.Hexagon.Packet
import H2.Machinery.Leads

/-!
# Compat/Signal — a word of signals and the mask of its waiter

A signal is a double word: the bits that are set, and a mask of the bits the waiter is short of.
The waiter looks at both in one atomic step; if what it waits for is not there, it publishes its
mask and sleeps on the bits as it has seen them.  Who sets bits wakes the waiter only if one of them
is in the mask, and clearing bits touches the mask not at all.

For a wait for *all* bits the mask leaves out those that were set when the waiter looked, and those
may be cleared in the meantime.  That does no harm: the mask has a bit without which the waiter
cannot go on (`Needs`), so as long as no bit of it has been set since, there is nothing to wake up
for (`signal_correct`).
-/

namespace H2.Signal

open Function

open Hexagon (Word bitsclr bitsset)

variable {ι : Type} [dι : DecidableEq ι] [fι : Fintype ι]

/-! ## The functions, up to a trap or the return -/

/-- `h2_signal_wait_any` with `MASK`, when `SIGVAL` are the signals: what it stores in the mask, and
what it returns if it does not go to sleep. -/
def waitAny (mask sigval : Word) : Word × Option Word :=
  let p0 := bitsclr sigval mask
  (if p0 then mask else 0, if p0 then none else some sigval)

/-- `h2_signal_wait_all`. -/
def waitAll (mask sigval : Word) : Word × Option Word :=
  let p0 := bitsset sigval mask
  (if p0 then 0 else mask &&& ~~~sigval, if p0 then some sigval else none)

/-- `H2_SIGNAL_WAIT_ANY` and `H2_SIGNAL_WAIT_ALL`. -/
inductive Kind where
  | any
  | all
  deriving DecidableEq

/-- `h2_signal_wait`. -/
def Kind.wait : Kind → Word → Word → Word × Option Word
  | .any => waitAny
  | .all => waitAll

/-- What a wait is for. -/
def Kind.Met : Kind → Word → Word → Prop
  | .any, mask, sigval => sigval &&& mask ≠ 0
  | .all, mask, sigval => sigval &&& mask = mask

/-- Where a thread is. -/
inductive Pc where
  /-- In none of the functions. -/
  | idle
  /-- At the top of a wait. -/
  | enter (kind : Kind) (mask : Word)
  /-- In a wait with `SIGVAL`, on its way to the kernel. -/
  | block (kind : Kind) (mask sigval : Word)
  /-- In the futex queue. -/
  | asleep (kind : Kind) (mask : Word)
  /-- In `h2_signal_set` at `.Ldo_trap`, on its way to the kernel. -/
  | wake
  deriving DecidableEq

/-- The thread is in a wait. -/
@[grind =] def Pc.waits : Pc → Bool
  | .enter .. | .block .. | .asleep .. => true
  | .idle | .wake => false

@[grind =] def Pc.sleeps : Pc → Bool
  | .asleep .. => true
  | _ => false

/-- Where a wait goes on when the kernel comes back. -/
@[grind =] def Pc.back : Pc → Pc
  | .block kind mask _ | .asleep kind mask => .enter kind mask
  | c => c

/-- A wait that is over: what it was for, what it has returned, and what the signals have been since
it began. -/
structure Return where
  kind : Kind
  mask : Word
  value : Word
  during : List Word
  deriving DecidableEq

/-- A signal and its threads. -/
structure State (ι : Type) where
  signals : Word
  mask : Word
  pc : ι → Pc
  /-- What the signals have been since the thread's last wait began. -/
  during : ι → List Word
  returned : List Return

namespace State

@[simps] def goto (t : ι) (c : Pc) (s : State ι) : State ι := { s with pc := update s.pc t c }

@[simps] def store (v : Word) (s : State ι) : State ι :=
  { s with signals := v, during := fun t => v :: s.during t }

@[simps] def call (t : ι) (kind : Kind) (mask : Word) (s : State ι) : State ι :=
  { s with
    pc := update s.pc t (.enter kind mask)
    during := update s.during t [s.signals] }

/-- A wait, up to its trap or its return. -/
def wait (t : ι) (kind : Kind) (mask : Word) (s : State ι) : State ι :=
  match kind.wait mask s.signals with
  | (maskval, some value) =>
    { s with
      mask := maskval
      returned := ⟨kind, mask, value, s.during t⟩ :: s.returned }.goto t .idle
  | (maskval, none) => { s with mask := maskval }.goto t (.block kind mask s.signals)

/-- `h2_signal_set`, up to its trap. -/
def signalSet (t : ι) (mask : Word) (s : State ι) : State ι :=
  if bitsclr s.mask mask then s.store (s.signals ||| mask)
  else (s.store (s.signals ||| mask)).goto t .wake

/-- `h2_signal_clear`. -/
def signalClear (mask : Word) (s : State ι) : State ι := s.store (s.signals &&& ~~~mask)

def sleepers (s : State ι) : Finset ι := threadsAt Pc.sleeps s.pc

/-- `H2_TRAP_FUTEX_WAKE`, when it makes the threads of `W` ready. -/
@[simps] def rouse (t : ι) (W : Finset ι) (s : State ι) : State ι :=
  { s with pc := update (fun u => if u ∈ W then (s.pc u).back else s.pc u) t .idle }

end State

open State

inductive Act (ι : Type) where
  | call (t : ι) (kind : Kind) (mask : Word)
  | wait (t : ι)
  | set (t : ι) (mask : Word)
  | clear (t : ι) (mask : Word)
  /-- `H2_TRAP_FUTEX_WAIT`. -/
  | futexWait (t : ι)
  /-- The trap comes back for another reason, with or without having slept. -/
  | spurious (t : ι)
  /-- `H2_TRAP_FUTEX_WAKE` for 99; a trap that fails changes nothing, and is taken again. -/
  | futexWake (t : ι) (W : Finset ι)

def step : Act ι → State ι → Option (State ι)
  | .call t kind mask, s => if s.pc t = .idle then some (s.call t kind mask) else none
  | .wait t, s =>
    match s.pc t with
    | .enter kind mask => some (s.wait t kind mask)
    | _ => none
  | .set t mask, s => if s.pc t = .idle then some (s.signalSet t mask) else none
  | .clear t mask, s => if s.pc t = .idle then some (s.signalClear mask) else none
  | .futexWait t, s =>
    match s.pc t with
    | .block kind mask sigval =>
      some (s.goto t (if s.signals = sigval then .asleep kind mask else .enter kind mask))
    | _ => none
  | .spurious t, s => if (s.pc t).waits then some (s.goto t (s.pc t).back) else none
  | .futexWake t W, s =>
    if s.pc t = .wake ∧ W ⊆ s.sleepers ∧ W.card = min 99 s.sleepers.card then some (s.rouse t W)
    else none

/-- At most one thread waits at a time. -/
def OneWaiter (a : Act ι) (s : State ι) : Prop :=
  ∀ t kind mask, a = .call t kind mask → ∀ u, (s.pc u).waits = false

/-- The same, as a test. -/
def oneWaiterTest (a : Act ι) (s : State ι) : Bool :=
  match a with
  | .call .. => decide (∀ u, (s.pc u).waits = false)
  | _ => true

omit dι in
theorem oneWaiter_of_test (a : Act ι) (s : State ι) (h : oneWaiterTest a s = true) :
    OneWaiter a s := by
  rintro t kind mask rfl
  exact of_decide_eq_true h

/-- `h2_signal_init`. -/
def init : State ι where
  signals := 0
  mask := 0
  pc _ := .idle
  during _ := []
  returned := []

/-! ## What the mask is for -/

/-- Without a bit of `maskval` the wait cannot go on. -/
def Needs (kind : Kind) (mask maskval : Word) : Prop :=
  ∀ v, v &&& maskval = 0 → ¬kind.Met mask v

/-- **A look at the signals** returns them if they are what is waited for, and else publishes bits
that are needed and not set. -/
theorem wait_spec (kind : Kind) (mask sigval : Word) :
    (∃ maskval, kind.wait mask sigval = (maskval, some sigval) ∧ kind.Met mask sigval) ∨
      ∃ maskval, kind.wait mask sigval = (maskval, none) ∧ sigval &&& maskval = 0 ∧
        Needs kind mask maskval := by
  cases kind with
  | any =>
    by_cases hclr : sigval &&& mask = 0
    · exact .inr ⟨mask, by simp [Kind.wait, waitAny, bitsclr, hclr], hclr, fun v hv hmet => hmet hv⟩
    · exact .inl ⟨0, by simp only [Kind.wait, waitAny, bitsclr, hclr]; rfl, hclr⟩
  | all =>
    by_cases hset : sigval &&& mask = mask
    · exact .inl ⟨0, by simp [Kind.wait, waitAll, bitsset, hset], hset⟩
    · refine .inr ⟨mask &&& ~~~sigval, by simp [Kind.wait, waitAll, bitsset, hset], ?_, ?_⟩
      · rw [BitVec.and_comm mask, ← BitVec.and_assoc, BitVec.and_not_self]
        exact BitVec.zero_and
      · intro v hv hmet
        -- all the bits are set in `v`, so those that are missing in `sigval` are none
        have hnone : mask &&& ~~~sigval = 0 := by
          rw [← hv, ← BitVec.and_assoc, hmet]
        refine hset (BitVec.eq_of_getLsbD_eq fun i hi => ?_)
        have hbit := congrArg (BitVec.getLsbD · i) hnone
        simp only [BitVec.getLsbD_and] at hbit ⊢
        cases hm : mask.getLsbD i <;> simp_all

/-! ## The invariant -/

/-- What holds between the steps. -/
structure Inv (s : State ι) : Prop where
  single : ∀ t u, (s.pc t).waits → (s.pc u).waits → t = u
  during : ∀ t, (s.pc t).waits → s.signals ∈ s.during t
  returned : ∀ r ∈ s.returned, r.value ∈ r.during ∧ r.kind.Met r.mask r.value
  /-- On the way to sleep, … -/
  block : ∀ t kind mask sigval, s.pc t = .block kind mask sigval →
    sigval &&& s.mask = 0 ∧ Needs kind mask s.mask
  /-- … and asleep. -/
  asleep : ∀ t kind mask, s.pc t = .asleep kind mask →
    Needs kind mask s.mask ∧ (s.signals &&& s.mask = 0 ∨ ∃ u, s.pc u = .wake)

omit dι fι in
theorem inv_init : Inv (init : State ι) where
  single t u h := by cases h
  during t h := by cases h
  returned r h := by cases h
  block t kind mask sigval h := by cases h
  asleep t kind mask h := by cases h

section Steps

theorem Pc.back_of_sleeps {c : Pc} (hc : c.sleeps) : ∃ kind mask, c.back = .enter kind mask := by
  cases c with
  | asleep kind mask => exact ⟨kind, mask, rfl⟩
  | idle | enter _ _ | block _ _ _ | wake => cases hc

variable {s s' : State ι} {t : ι} {c : Pc}

omit fι

omit dι in
/-- Where one thread waits at most, it is enough to look at that one. -/
theorem Inv.of_only (honly : ∀ u, (s.pc u).waits → u = t) (hduring : s.signals ∈ s.during t)
    (hreturned : ∀ r ∈ s.returned, r.value ∈ r.during ∧ r.kind.Met r.mask r.value)
    (hblock : ∀ kind mask sigval, s.pc t = .block kind mask sigval →
      sigval &&& s.mask = 0 ∧ Needs kind mask s.mask)
    (hup : (s.pc t).sleeps = false) : Inv s := by
  constructor <;> grind

theorem Inv.call (hs : Inv s) (hnone : ∀ u, (s.pc u).waits = false) (kind : Kind) (mask : Word) :
    Inv (s.call t kind mask) := by
  exact .of_only (t := t) (by grind [call_pc]) (by simp) hs.returned (by simp) (by simp [Pc.sleeps])

theorem Inv.wait (hs : Inv s) {kind : Kind} {mask : Word} (hc : s.pc t = .enter kind mask) :
    Inv (s.wait t kind mask) := by
  have hwaits : (s.pc t).waits := by rw [hc]; rfl
  have honly (c : Pc) (m : Word) (R : List Return) (u : ι)
      (hu : (({ s with mask := m, returned := R }.goto t c).pc u).waits) : u = t := by
    grind [goto_pc, hs.single u t]
  unfold State.wait
  rcases wait_spec kind mask s.signals with ⟨maskval, hwait, hmet⟩ |
      ⟨maskval, hwait, hclr, hneeds⟩ <;>
    rw [hwait]
  · refine .of_only (honly _ _ _) (hs.during t hwaits) ?_ (by simp) (by simp [Pc.sleeps])
    exact List.forall_mem_cons.mpr ⟨⟨hs.during t hwaits, hmet⟩, hs.returned⟩
  · refine .of_only (honly _ _ _) (hs.during t hwaits) hs.returned ?_ (by simp [Pc.sleeps])
    rintro kind' mask' sigval h
    rw [goto_pc, update_self] at h
    obtain ⟨rfl, rfl, rfl⟩ := Pc.block.inj h
    exact ⟨hclr, hneeds⟩

theorem Inv.goto (hs : Inv s) (hc : (s.pc t).waits)
    (hblock : ∀ kind mask sigval, c ≠ .block kind mask sigval)
    (hasleep : ∀ kind mask, c = .asleep kind mask →
      Needs kind mask s.mask ∧ s.signals &&& s.mask = 0) : Inv (s.goto t c) := by
  obtain ⟨⟩ := hs
  constructor <;> grind [goto_pc, goto_signals, goto_mask, goto_during, goto_returned]

omit dι in
/-- **The signals change** without a bit of the mask being set. -/
theorem Inv.store (hs : Inv s) {v : Word} (hv : s.signals &&& s.mask = 0 → v &&& s.mask = 0) :
    Inv (s.store v) := by
  refine ⟨hs.single, fun t _ => List.mem_cons_self .., hs.returned, hs.block,
    fun t kind mask ht => ?_⟩
  obtain ⟨hneeds, hclr⟩ := hs.asleep t kind mask ht
  exact ⟨hneeds, hclr.imp_left hv⟩

/-- **Bits of the mask are set**, and somebody goes to wake. -/
theorem Inv.contribute (hs : Inv s) (t : ι) (v : Word) : Inv ((s.store v).goto t .wake) := by
  have hwake : ((s.store v).goto t .wake).pc t = .wake := update_self ..
  obtain ⟨⟩ := hs
  constructor <;> grind [goto_pc, goto_signals, goto_mask, goto_during, goto_returned, store_pc,
    store_signals, store_mask, store_during, store_returned]

theorem Inv.signalSet (hs : Inv s) (t : ι) (mask : Word) : Inv (s.signalSet t mask) := by
  unfold State.signalSet
  split
  · next hclr =>
    have hmask : mask &&& s.mask = 0 := by
      rw [BitVec.and_comm]
      exact of_decide_eq_true hclr
    refine hs.store fun h => ?_
    have hor : (s.signals ||| mask) &&& s.mask = s.signals &&& s.mask ||| mask &&& s.mask := by
      ext i
      simp [Bool.and_or_distrib_right]
    rw [hor, h, hmask]
    rfl
  · exact hs.contribute t _

omit dι in
theorem Inv.signalClear (hs : Inv s) (mask : Word) : Inv (s.signalClear mask) := by
  refine hs.store fun h => ?_
  have hand : s.signals &&& ~~~mask &&& s.mask = s.signals &&& s.mask &&& ~~~mask := by
    rw [BitVec.and_assoc, BitVec.and_comm (~~~mask), ← BitVec.and_assoc]
  rw [hand, h]
  exact BitVec.zero_and

/-- **A wake-up** is for all that sleep, as that is one at most. -/
theorem Inv.rouse [Fintype ι] (hs : Inv s) {W : Finset ι} (hW : W ⊆ s.sleepers)
    (hcard : W.card = min 99 s.sleepers.card) : Inv (s.rouse t W) := by
  have hsleeps (u : ι) (hu : (s.pc u).sleeps) : (s.pc u).waits := by
    cases h : s.pc u <;> simp_all [Pc.sleeps, Pc.waits]
  have hone : s.sleepers.card ≤ 1 := Finset.card_le_one.mpr fun u hu v hv => by
    rw [sleepers, mem_threadsAt] at hu hv
    exact hs.single u v (hsleeps u hu) (hsleeps v hv)
  obtain rfl : W = s.sleepers := Finset.eq_of_subset_of_card_le hW (by omega)
  have hpc (u : ι) : (s.rouse t s.sleepers).pc u =
      if u = t then .idle else if (s.pc u).sleeps then (s.pc u).back else s.pc u := by
    simp [update_apply, sleepers]
  have hwaits (u : ι) (hu : ((s.rouse t s.sleepers).pc u).waits) : (s.pc u).waits := by
    rw [hpc u] at hu
    split at hu
    · cases hu
    · split at hu
      · next hu' => exact hsleeps u hu'
      · exact hu
  refine ⟨fun u v hu hv => hs.single u v (hwaits u hu) (hwaits v hv),
    fun u hu => hs.during u (hwaits u hu), hs.returned, fun u kind mask sigval hu => ?_,
    fun u kind mask hu => ?_⟩
  · rw [hpc u] at hu
    split at hu
    · cases hu
    · split at hu
      · next hu' =>
        obtain ⟨_, _, hback⟩ := Pc.back_of_sleeps hu'
        rw [hback] at hu
        cases hu
      · exact hs.block u kind mask sigval hu
  · rw [hpc u] at hu
    split at hu
    · cases hu
    · split at hu
      · next hu' =>
        obtain ⟨_, _, hback⟩ := Pc.back_of_sleeps hu'
        rw [hback] at hu
        cases hu
      · next hup =>
        rw [hu] at hup
        exact absurd rfl hup

theorem Inv.step [Fintype ι] (hs : Inv s) {a : Act ι} (hone : OneWaiter a s)
    (hstep : Signal.step a s = some s') : Inv s' := by
  cases a with
  | call t kind mask =>
    obtain ⟨-, ⟨⟩⟩ := Option.ite_none_right_eq_some.mp hstep
    exact hs.call (hone t kind mask rfl) kind mask
  | wait t =>
    cases hc : s.pc t <;> rw [Signal.step, hc] at hstep <;> cases hstep
    exact hs.wait hc
  | set t mask =>
    obtain ⟨-, ⟨⟩⟩ := Option.ite_none_right_eq_some.mp hstep
    exact hs.signalSet t mask
  | clear t mask =>
    obtain ⟨-, ⟨⟩⟩ := Option.ite_none_right_eq_some.mp hstep
    exact hs.signalClear mask
  | futexWait t =>
    cases hc : s.pc t <;> rw [Signal.step, hc] at hstep <;> cases hstep
    have hblock := hs.block t _ _ _ hc
    split <;> exact hs.goto (by rw [hc]; rfl) (by simp) (by grind)
  | spurious t =>
    obtain ⟨hwaits, ⟨⟩⟩ := Option.ite_none_right_eq_some.mp hstep
    cases hc : s.pc t <;> rw [hc] at hwaits <;> cases hwaits <;>
      exact hs.goto (by rw [hc]; rfl) (by simp [Pc.back]) (by simp [Pc.back])
  | futexWake t W =>
    obtain ⟨hW, ⟨⟩⟩ := Option.ite_none_right_eq_some.mp hstep
    exact hs.rouse hW.2.1 hW.2.2

end Steps

/-- **Signals are waited for and set correctly**, in any interleaving with one waiter at a time.  A
wait returns signals that were set at one instant since it began, and among them what it was for.
And no wake-up is lost: nobody sleeps through signals that are what it waits for, unless somebody
who has set them is on the way to the kernel. -/
theorem signal_correct {s : State ι} (hs : Leads step OneWaiter init s) :
    (∀ r ∈ s.returned, r.value ∈ r.during ∧ r.kind.Met r.mask r.value) ∧
      ¬∃ t kind mask, mask ≠ 0 ∧ s.pc t = .asleep kind mask ∧ kind.Met mask s.signals ∧
        ∀ u, s.pc u ≠ .wake := by
  have hinv : Inv s := hs.invariant inv_init fun hi hone hstep => hi.step hone hstep
  refine ⟨hinv.returned, ?_⟩
  rintro ⟨t, kind, mask, -, ht, hmet, hquiet⟩
  obtain ⟨hneeds, hclr | ⟨u, hu⟩⟩ := hinv.asleep t kind mask ht
  · exact hneeds _ hclr hmet
  · exact hquiet u hu

open scoped Numerals

/-- A wait for bits 0 and 1 sleeps with bit 0 set, which is cleared and set again after bit 1. -/
def clearedMeanwhile : List (Act (Fin 2)) :=
  [.set 1 1, .call 0 .all 3, .wait 0, .futexWait 0, .clear 1 1, .set 1 2,
    .futexWake 1 {0}, .set 1 1, .wait 0]

/-- It is woken by bit 1, and returns with both. -/
theorem signal_correct_clearedMeanwhile : ∃ s : State (Fin 2),
    Leads step OneWaiter init s ∧
      s.returned = [⟨.all, 3, 3, [3, 2, 0, 1]⟩] ∧
      ∀ r ∈ s.returned, r.value ∈ r.during ∧ r.kind.Met r.mask r.value := by
  have hrun : ∃ s ∈ runIf step oneWaiterTest clearedMeanwhile init,
      s.returned = [⟨.all, 3, 3, [3, 2, 0, 1]⟩] := by decide +kernel
  obtain ⟨s, hs, hreturned⟩ := hrun
  have hleads := Leads.of_runIf oneWaiter_of_test .init hs
  exact ⟨s, hleads, hreturned, (signal_correct hleads).1⟩

/-! ## The kernel's side -/

section Traps

variable {β : Type} [DecidableEq β] {M : Machine ι β} {k : Kernel ι β} {s : State ι} {t : ι} {a : ℕ}

/-- **The wake-up trap** is the step, for a kernel that keeps the sleepers at the word of the
signals. -/
theorem futexResume_rouses (ha : Wakeable M k a) (hk : s.sleepers = k.sleepers a)
    (hc : s.pc t = .wake) : ∃ W k', k.futexResume (some a) 99 = some (.returned (W.card : ℕ), k') ∧
      step (.futexWake t W) s = some (s.rouse t W) ∧ (s.rouse t W).sleepers = k'.sleepers a := by
  obtain ⟨W, k', hk', hW, hleft⟩ := futexResume_threadsAt ha hk 99 Pc.back .idle
    (fun d _ => by cases d <;> rfl) (by rw [hc]; rfl) rfl
  exact ⟨W, k', hk', if_pos ⟨hc, hW⟩, hleft⟩

theorem futexWait_sleeps {h : ℕ} {kind : Kind} {mask sigval : Word} (ha : MayWait M k h t a)
    (hk : s.sleepers = k.sleepers a) (hc : s.pc t = .block kind mask sigval) :
    ∃ s', step (.futexWait t) s = some s' ∧ k.WaitLeaves M h t a s.signals sigval s'.sleepers := by
  exact ⟨_, by rw [step, hc], futexWait_threadsAt ha hk (by rw [hc]; rfl) rfl rfl⟩

end Traps

end H2.Signal
