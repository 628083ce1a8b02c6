import H2.Machinery.Leads
import Mathlib.Order.Basic

/-!
# Machinery/Progress — what happens eventually

Actions are taken by threads, and a thread that is ready keeps running (`Runs`): it takes a step at
some later time.  Something then happens eventually if every step keeps what it takes to get there,
and the steps of one thread, which stays ready, bring it nearer (`Path.leads_to`).

Conversely it may never happen: a run in which nobody is ready stands still, and steps of those that
are may lead there (`Stays`).
-/

namespace H2

variable {A S T : Type} (step : A → S → Option S) (C : A → S → Prop) (owner : A → T)
  (ready : T → S → Prop)

/-- **Thread `t` keeps running** as long as it is ready. -/
def Runs (σ : ℕ → S) (t : T) : Prop :=
  ∀ n, ready t (σ n) → ∃ m ≥ n, ∃ a, owner a = t ∧ C a (σ m) ∧ step a (σ m) = some (σ (m + 1))

/-- From `s`, something need not happen, although everybody keeps running. -/
def Stays (Q : S → Prop) (s : S) : Prop :=
  ∃ σ : ℕ → S, σ 0 = s ∧ Path step C σ ∧ (∀ t, Runs step C owner ready σ t) ∧ ∀ n, ¬Q (σ n)

variable {step C owner ready} {P Q : S → Prop} {σ : ℕ → S} {s s' : S} {a : A} {t : T}

/-- **Progress**: what brings `t` nearer is kept by all steps, and `t` takes some. -/
theorem Path.leads_to (hσ : Path step C σ) (hruns : Runs step C owner ready σ t) (rank : S → ℕ)
    (hready : ∀ s, P s → ready t s) (hstep : ∀ {a s s'}, P s → C a s → step a s = some s' →
      Q s' ∨ P s' ∧ rank s' ≤ rank s ∧ (owner a = t → rank s' < rank s))
    {n : ℕ} (hn : P (σ n)) : ∃ m ≥ n, Q (σ m) := by
  -- by induction on the rank: until it happens the rank does not go up, and it goes down with the
  -- next step of `t`
  induction hk : rank (σ n) using Nat.strongRecOn generalizing n with
  | _ k ih =>
    by_contra hno
    have hnot (m : ℕ) (hm : n ≤ m) : ¬Q (σ m) := fun hQ => hno ⟨m, hm, hQ⟩
    have hkeep (m : ℕ) (hm : n ≤ m) : P (σ m) ∧ rank (σ m) ≤ rank (σ n) := by
      induction hm with
      | refl => exact ⟨hn, Nat.le_refl _⟩
      | @step m hm ihm =>
        rcases hσ m with heq | ⟨a, hC, hm'⟩
        · rwa [heq]
        · rcases hstep ihm.1 hC hm' with hQ | ⟨hP, hle, -⟩
          · exact absurd hQ (hnot (m + 1) (Nat.le_succ_of_le hm))
          · exact ⟨hP, Nat.le_trans hle ihm.2⟩
    obtain ⟨m, hm, a, ha, hC, hm'⟩ := hruns n (hready _ hn)
    obtain ⟨hPm, hle⟩ := hkeep m hm
    rcases hstep hPm hC hm' with hQ | ⟨hP, -, hlt⟩
    · exact hnot (m + 1) (Nat.le_succ_of_le hm) hQ
    · obtain ⟨m', hm₁, hQ⟩ := ih _ (hk ▸ Nat.lt_of_lt_of_le (hlt ha) hle) hP rfl
      exact hnot m' (Nat.le_trans (Nat.le_succ_of_le hm) hm₁) hQ

/-- Nobody is ready. -/
theorem Stays.rest (hready : ∀ t, ¬ready t s) (hQ : ¬Q s) : Stays step C owner ready Q s :=
  ⟨fun _ => s, rfl, fun _ => .inl rfl, fun t _ h => absurd h (hready t), fun _ => hQ⟩

/-- A step is taken, after which the other threads are as ready as before. -/
theorem Stays.of_step (h : Stays step C owner ready Q s') (hC : C a s) (hstep : step a s = some s')
    (hready : ∀ t, ready t s → owner a = t ∨ ready t s') (hQ : ¬Q s) :
    Stays step C owner ready Q s := by
  obtain ⟨σ, rfl, hσ, hruns, hnot⟩ := h
  have hlater {t : T} {n : ℕ} (hn : ready t (σ n)) : ∃ m ≥ n + 1, ∃ b, owner b = t ∧
      C b (m.casesOn s σ) ∧ step b (m.casesOn s σ) = some (σ m) := by
    obtain ⟨m, hm, hm'⟩ := hruns t n hn
    exact ⟨m + 1, Nat.succ_le_succ hm, hm'⟩
  refine ⟨fun n => n.casesOn s σ, rfl, fun n => ?_, fun t n hn => ?_, fun n => ?_⟩
  · cases n with
    | zero => exact .inr ⟨a, hC, hstep⟩
    | succ n => exact hσ n
  · cases n with
    | zero =>
      rcases hready t hn with ht | ht
      · exact ⟨0, Nat.le_refl _, a, ht, hC, hstep⟩
      · obtain ⟨m, -, hm⟩ := hlater ht
        exact ⟨m, Nat.zero_le m, hm⟩
    | succ n => exact hlater hn
  · cases n with
    | zero => exact hQ
    | succ n => exact hnot n

end H2
