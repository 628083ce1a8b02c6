import Mathlib.Data.Nat.Notation

/-!
# Machinery/Leads — what actions lead to

A partial function `step` says what an action does in a state.  `Leads` are the states reached by
actions that each meet a condition where they are taken; an invariant of those steps holds in all of
them, and so does what a run of tested actions ends in.  A `Path` is such a run seen in time.
-/

namespace H2

variable {A S : Type}

/-- The states that actions lead to, each of which meets a condition. -/
inductive Leads (step : A → S → Option S) (C : A → S → Prop) (s₀ : S) : S → Prop
  | init : Leads step C s₀ s₀
  | step {s s' : S} {a : A} (hs : Leads step C s₀ s) (hC : C a s) (hstep : step a s = some s') :
      Leads step C s₀ s'

/-- A sequence of actions, each taken in a state that passes a test. -/
def runIf (step : A → S → Option S) (test : A → S → Bool) : List A → S → Option S
  | [], s => some s
  | a :: as, s => if test a s then (step a s).bind (runIf step test as) else none

variable {step : A → S → Option S} {C : A → S → Prop} {s₀ : S}

theorem Leads.invariant {I : S → Prop} (h₀ : I s₀)
    (hI : ∀ {a s s'}, I s → C a s → step a s = some s' → I s') {s : S} (hs : Leads step C s₀ s) :
    I s := by
  induction hs with
  | init => exact h₀
  | step _ hC hstep ih => exact hI ih hC hstep

/-- A run whose tests imply the condition. -/
theorem Leads.of_runIf {test : A → S → Bool} (htest : ∀ a s, test a s = true → C a s) :
    ∀ {as : List A} {s s' : S}, Leads step C s₀ s → runIf step test as s = some s' →
    Leads step C s₀ s'
  | [], _, _, hs, hrun => Option.some.inj hrun ▸ hs
  | a :: as, s, s', hs, hrun => by
      rw [runIf] at hrun
      split at hrun
      · next hpass =>
        obtain ⟨s₁, hstep, hrun'⟩ := Option.bind_eq_some_iff.mp hrun
        exact of_runIf htest (hs.step (htest a s hpass) hstep) hrun'
      · simp at hrun

/-! ## Time -/

/-- A run, as the states at successive times.  It may stand still. -/
def Path (step : A → S → Option S) (C : A → S → Prop) (σ : ℕ → S) : Prop :=
  ∀ n, σ (n + 1) = σ n ∨ ∃ a, C a (σ n) ∧ step a (σ n) = some (σ (n + 1))

theorem Path.invariant {I : S → Prop} {σ : ℕ → S} (hσ : Path step C σ) (h₀ : I (σ 0))
    (hI : ∀ {a s s'}, I s → C a s → step a s = some s' → I s') : ∀ n, I (σ n)
  | 0 => h₀
  | n + 1 => by
      have ih := hσ.invariant h₀ hI n
      rcases hσ n with heq | ⟨a, hC, hstep⟩
      · rwa [heq]
      · exact hI ih hC hstep

/-- The states a sequence of actions goes through, the last of them for ever. -/
def trace (step : A → S → Option S) : List A → S → ℕ → S
  | [], s, _ => s
  | _ :: _, s, 0 => s
  | a :: as, s, n + 1 =>
    match step a s with
    | some s' => trace step as s' n
    | none => s

theorem trace_zero (step : A → S → Option S) (as : List A) (s : S) : trace step as s 0 = s := by
  cases as <;> rfl

theorem trace_succ {a : A} {as : List A} {s s' : S} (hstep : step a s = some s') (n : ℕ) :
    trace step (a :: as) s (n + 1) = trace step as s' n := by
  rw [trace, hstep]

/-- A run whose tests imply the condition is a path, and ends where the run does. -/
theorem Path.trace {test : A → S → Bool} (htest : ∀ a s, test a s = true → C a s) :
    ∀ {as : List A} {s s' : S}, runIf step test as s = some s' →
    Path step C (H2.trace step as s) ∧ ∀ n ≥ as.length, H2.trace step as s n = s'
  | [], s, s', hrun => ⟨fun _ => .inl rfl, fun _ _ => Option.some.inj hrun⟩
  | a :: as, s, s', hrun => by
      rw [runIf] at hrun
      split at hrun
      · next hpass =>
        obtain ⟨s₁, hstep, hrun'⟩ := Option.bind_eq_some_iff.mp hrun
        obtain ⟨hpath, hend⟩ := Path.trace htest hrun'
        refine ⟨fun n => ?_, fun n hn => ?_⟩
        · cases n with
          | zero =>
            refine .inr ⟨a, htest a s hpass, ?_⟩
            rw [trace_succ hstep, trace_zero, trace_zero]
            exact hstep
          | succ n =>
            rw [trace_succ hstep, trace_succ hstep]
            exact hpath n
        · cases n with
          | zero => simp at hn
          | succ n =>
            rw [trace_succ hstep]
            exact hend n (by simpa using hn)
      · simp at hrun

end H2
