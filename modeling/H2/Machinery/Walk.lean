import Mathlib.Order.Interval.Finset.Nat
import Mathlib.SetTheory.Cardinal.Finite

/-!
# Machinery/Walk — computations that log what they do, and may not return

A `Walk` returns a value and the log of what was done on the way, or it does not return.  A
recursion `F` is given by its **unrollings** `unroll F n`, that call `F` to the depth `n` and no
deeper.  If `F` calls what it is given in no other way than by its answers (`Mono`), then more depth
changes no answer, and on finitely many arguments a finite depth, which depends on nothing else, is
enough: `unroll_card`.

A loop is the recursion `turn step`.
-/

namespace H2

/-- A computation that returns a value and a log, or does not return. -/
def Walk (ε α : Type) : Type := Option (α × List ε)

namespace Walk

variable {ε α β σ : Type} {step : σ → Walk ε (σ ⊕ α)}

/-- **The computation returns** this value, with this log. -/
def Yields (w : Walk ε α) (a : α) (l : List ε) : Prop := @Eq (Option (α × List ε)) w (some (a, l))

instance [DecidableEq α] [DecidableEq ε] (w : Walk ε α) (a : α) (l : List ε) :
    Decidable (w.Yields a l) :=
  (inferInstance : DecidableEq (Option (α × List ε))) w (some (a, l))

/-- One computation after the other. -/
def andThen (w : Walk ε α) (f : α → Walk ε β) : Walk ε β :=
  match w with
  | none => none
  | some (a, l) =>
    match f a with
    | none => none
    | some (b, l') => some (b, l ++ l')

instance : Monad (Walk ε) where
  pure a := some (a, [])
  bind := andThen

/-- It does not return. -/
def stuck : Walk ε α := none

/-- Something to note in the log. -/
def note (e : ε) : Walk ε Unit := some ((), [e])

/-- Some of the log is not kept. -/
def keeping (p : ε → Bool) (w : Walk ε α) : Walk ε α :=
  match w with
  | none => none
  | some (a, l) => some (a, l.filter p)

variable {w w' : Walk ε α} {f f' : α → Walk ε β} {a a' : α} {b : β} {l l' : List ε}

theorem Yields.inj (h : w.Yields a l) (h' : w.Yields a' l') : a = a' ∧ l = l' := by
  unfold Yields at h h'
  simpa [h] using h'

@[simp] theorem yields_pure : (pure a : Walk ε α).Yields a' l ↔ a' = a ∧ l = [] := by
  change @Eq (Option (α × List ε)) (some (a, [])) (some (a', l)) ↔ _
  simp [eq_comm]

@[simp] theorem yields_bind :
    (w >>= f).Yields b l ↔ ∃ a l₁ l₂, w.Yields a l₁ ∧ (f a).Yields b l₂ ∧ l = l₁ ++ l₂ := by
  change @Eq (Option (β × List ε)) (w.andThen f) (some (b, l)) ↔ _
  unfold andThen Yields
  constructor
  · rcases w with _ | ⟨a, l₁⟩
    · simp
    · rcases hf : f a with _ | ⟨b', l₂⟩
      · simp [hf]
      · simp only [hf, Option.some.injEq, Prod.mk.injEq]
        rintro ⟨rfl, rfl⟩
        exact ⟨a, l₁, l₂, ⟨rfl, rfl⟩, hf, rfl⟩
  · rintro ⟨a, l₁, l₂, rfl, hf, rfl⟩
    simp [hf]

@[simp] theorem yields_note {e : ε} {u : Unit} : (note e).Yields u l ↔ l = [e] := by
  change @Eq (Option (Unit × List ε)) (some ((), [e])) (some (u, l)) ↔ _
  simp [eq_comm]

theorem yields_note_bind {e : ε} {g : Unit → Walk ε β} :
    (note e >>= g).Yields b l ↔ ∃ l₁, (g ()).Yields b l₁ ∧ l = e :: l₁ := by
  constructor
  · intro h
    obtain ⟨_, _, l₁, hnote, hg, rfl⟩ := yields_bind.mp h
    obtain rfl := yields_note.mp hnote
    exact ⟨l₁, hg, rfl⟩
  · rintro ⟨l₁, hg, rfl⟩
    exact yields_bind.mpr ⟨(), [e], l₁, yields_note.mpr rfl, hg, rfl⟩

@[simp] theorem not_yields_stuck : ¬(stuck : Walk ε α).Yields a l := nofun

@[simp] theorem yields_keeping {p : ε → Bool} :
    (keeping p w).Yields a l ↔ ∃ l₁, w.Yields a l₁ ∧ l = l₁.filter p := by
  unfold keeping Yields
  rcases w with _ | ⟨a', l₁⟩
  · simp
  · simp [eq_comm]

/-! ## More and less defined -/

/-- **What the one returns, the other returns too.** -/
def Le (w w' : Walk ε α) : Prop := ∀ a l, w.Yields a l → w'.Yields a l

@[refl] theorem Le.refl (w : Walk ε α) : w.Le w := fun _ _ => id

theorem Le.bind (hw : w.Le w') (hf : ∀ a, (f a).Le (f' a)) : (w >>= f).Le (w' >>= f') := by
  intro b l h
  obtain ⟨a, l₁, l₂, h₁, h₂, rfl⟩ := yields_bind.mp h
  exact yields_bind.mpr ⟨a, l₁, l₂, hw a l₁ h₁, hf a b l₂ h₂, rfl⟩

theorem Le.keeping {p : ε → Bool} (hw : w.Le w') : (keeping p w).Le (keeping p w') := by
  intro a l h
  obtain ⟨l₁, h₁, rfl⟩ := yields_keeping.mp h
  exact yields_keeping.mpr ⟨l₁, hw a l₁ h₁, rfl⟩

/-! ## What is in the log -/

/-- **Every note in the log is such.** -/
def Logs (P : ε → Prop) (w : Walk ε α) : Prop := ∀ a l, w.Yields a l → ∀ e ∈ l, P e

namespace Logs

variable {P : ε → Prop}

theorem pure (a : α) : Logs P (Pure.pure a : Walk ε α) := by
  intro b l h
  obtain ⟨-, rfl⟩ := yields_pure.mp h
  exact nofun

theorem bind (hw : Logs P w) (hf : ∀ a, Logs P (f a)) : Logs P (w >>= f) := by
  intro b l h
  obtain ⟨a, l₁, l₂, h₁, h₂, rfl⟩ := yields_bind.mp h
  exact List.forall_mem_append.mpr ⟨hw a l₁ h₁, hf a b l₂ h₂⟩

theorem note {e : ε} (he : P e) : Logs P (Walk.note e) := by
  intro _ l h
  obtain rfl := yields_note.mp h
  exact List.forall_mem_singleton.mpr he

theorem keeping {p : ε → Bool} (hp : ∀ e, p e = true → P e) : Logs P (Walk.keeping p w) := by
  intro a l h
  obtain ⟨l₁, -, rfl⟩ := yields_keeping.mp h
  exact fun e he => hp e (List.mem_filter.mp he).2

end Logs

/-- **A note of one kind in the log decides the value.** -/
def Decides (B : ε → Prop) (P : α → Prop) (w : Walk ε α) : Prop :=
  ∀ a l, w.Yields a l → (∃ e ∈ l, B e) → P a

namespace Decides

variable {B : ε → Prop} {P : α → Prop} {Q : β → Prop}

theorem of_logs (h : Logs (fun e => ¬B e) w) : Decides B P w :=
  fun a l hl ⟨e, he, hB⟩ => absurd hB (h a l hl e he)

theorem pure (a : α) : Decides B P (Pure.pure a : Walk ε α) := of_logs (.pure a)

theorem bind (hw : Decides B P w) (hP : ∀ a, P a → ∀ b l, (f a).Yields b l → Q b)
    (hf : ∀ a, Decides B Q (f a)) : Decides B Q (w >>= f) := by
  intro b l h ⟨e, he, hB⟩
  obtain ⟨a, l₁, l₂, h₁, h₂, rfl⟩ := yields_bind.mp h
  rcases List.mem_append.mp he with he | he
  · exact hP a (hw a l₁ h₁ ⟨e, he, hB⟩) b l₂ h₂
  · exact hf a b l₂ h₂ ⟨e, he, hB⟩

end Decides

/-! ## Recursions -/

/-- The recursion `F`, to this depth. -/
def unroll (F : (σ → Walk ε α) → σ → Walk ε α) : ℕ → σ → Walk ε α
  | 0, _ => stuck
  | n + 1, s => F (unroll F n) s

/-- Where its calls return more, so does the recursion. -/
def Mono (F : (σ → Walk ε α) → σ → Walk ε α) : Prop :=
  ∀ ⦃g h⦄, (∀ s, (g s).Le (h s)) → ∀ s, (F g s).Le (F h s)

variable {F : (σ → Walk ε α) → σ → Walk ε α} {s : σ} {m n : ℕ}

theorem unroll_le_succ (hF : Mono F) : ∀ n s, (unroll F n s).Le (unroll F (n + 1) s)
  | 0, _ => nofun
  | n + 1, s => hF (unroll_le_succ hF n) s

/-- **More depth changes no answer.** -/
theorem unroll_le (hF : Mono F) (hmn : m ≤ n) (s : σ) : (unroll F m s).Le (unroll F n s) := by
  induction hmn with
  | refl => exact .refl _
  | step _ ih => exact fun a l h => unroll_le_succ hF _ s a l (ih a l h)

theorem unroll_inj (hF : Mono F) (h : (unroll F m s).Yields a l)
    (h' : (unroll F n s).Yields a' l') : a = a' ∧ l = l' :=
  (unroll_le hF (le_max_left m n) s a l h).inj (unroll_le hF (le_max_right m n) s a' l' h')

/-- The arguments that need this depth. -/
def Needs (F : (σ → Walk ε α) → σ → Walk ε α) (n : ℕ) (s : σ) : Prop :=
  unroll F n s = stuck ∧ unroll F (n + 1) s ≠ stuck

theorem exists_yields_of_ne_stuck (h : w ≠ stuck) : ∃ a l, w.Yields a l := by
  rcases w with _ | ⟨a, l⟩
  · exact absurd rfl h
  · exact ⟨a, l, rfl⟩

/-- Less depth is not enough. -/
theorem unroll_eq_stuck (hF : Mono F) (hmn : m ≤ n) (h : unroll F n s = stuck) :
    unroll F m s = stuck := by
  by_contra hne
  obtain ⟨a, l, hyields⟩ := exists_yields_of_ne_stuck hne
  have hn := unroll_le hF hmn s a l hyields
  rw [h] at hn
  exact not_yields_stuck hn

/-- If one more round is of use to no argument, then no more rounds are. -/
theorem unroll_succ_eq (hF : Mono F) (hn : ∀ s, ¬Needs F n s) : unroll F (n + 1) = unroll F n := by
  funext s
  rcases hs : unroll F n s with _ | ⟨a, l⟩
  · by_contra hne
    exact hn s ⟨hs, hne⟩
  · exact unroll_le_succ hF n s a l hs

/-- **Every depth below the one an argument needs is needed by some argument.** -/
theorem exists_needs (hF : Mono F) (hs : Needs F n s) (hm : m ≤ n) : ∃ s, Needs F m s := by
  by_contra hnone
  push Not at hnone
  have hstable (d : ℕ) : unroll F (m + d) = unroll F m := by
    induction d with
    | zero => rfl
    | succ d ih =>
      calc unroll F (m + d + 1) = unroll F (m + 1) := by funext s; simp only [unroll, ih]
        _ = unroll F m := unroll_succ_eq hF hnone
  obtain ⟨d, rfl⟩ := Nat.exists_eq_add_of_le hm
  refine hs.2 ?_
  rw [Nat.add_assoc, hstable, ← hstable d]
  exact hs.1

theorem Needs.unique (hF : Mono F) (h : Needs F m s) (h' : Needs F n s) : m = n := by
  rcases Nat.lt_trichotomy m n with hlt | heq | hgt
  · exact absurd (unroll_eq_stuck hF hlt h'.1) h.2
  · exact heq
  · exact absurd (unroll_eq_stuck hF hgt h.1) h'.2

/-- **On finitely many arguments a fixed depth is enough** — one for each argument, whatever the
recursion. -/
theorem unroll_card [Finite σ] (hF : Mono F) (h : (unroll F n s).Yields a l) {bound : ℕ}
    (hbound : Nat.card σ ≤ bound) : (unroll F bound s).Yields a l := by
  by_cases hstuck : unroll F bound s = stuck
  · -- then every depth up to the bound is needed, each by an argument of its own
    have hne : unroll F n s ≠ stuck := fun h0 => not_yields_stuck (h0 ▸ h)
    have hlast : ∃ d, bound ≤ d ∧ Needs F d s := by
      by_contra hnone
      push Not at hnone
      have hall (d : ℕ) : unroll F (bound + d) s = stuck := by
        induction d with
        | zero => exact hstuck
        | succ d ih => exact by_contra fun hd => hnone (bound + d) (by omega) ⟨ih, hd⟩
      exact hne (unroll_eq_stuck hF (Nat.le_add_left n bound) (hall n))
    obtain ⟨d, hd, hneeds⟩ := hlast
    choose arg harg using fun m : Fin (d + 1) => exists_needs hF hneeds (Nat.lt_succ_iff.mp m.isLt)
    have hinj : Function.Injective arg := fun i j hij =>
      Fin.ext ((harg i).unique hF (hij ▸ harg j))
    have hcard := Nat.card_le_card_of_injective arg hinj
    rw [Nat.card_eq_fintype_card, Fintype.card_fin] at hcard
    omega
  · obtain ⟨a', l', h'⟩ := exists_yields_of_ne_stuck hstuck
    obtain ⟨rfl, rfl⟩ := unroll_inj hF h h'
    exact h'

/-! ## Loops -/

/-- One round of a loop: `step` goes on from a new state, or ends with a value. -/
def turn (step : σ → Walk ε (σ ⊕ α)) (again : σ → Walk ε α) (s : σ) : Walk ε α :=
  step s >>= fun
    | .inl s' => again s'
    | .inr a => pure a

theorem turn_le {step step' : σ → Walk ε (σ ⊕ α)} {g h : σ → Walk ε α}
    (hstep : ∀ s, (step s).Le (step' s)) (hgh : ∀ s, (g s).Le (h s)) (s : σ) :
    (turn step g s).Le (turn step' h s) :=
  Le.bind (hstep s) fun
    | .inl s' => hgh s'
    | .inr _ => .refl _

theorem mono_turn (step : σ → Walk ε (σ ⊕ α)) : Mono (turn step) :=
  fun _ _ hgh s => turn_le (fun _ => .refl _) hgh s

/-- A loop of steps that return more returns more. -/
theorem loop_le {step step' : σ → Walk ε (σ ⊕ α)} (hstep : ∀ s, (step s).Le (step' s)) :
    ∀ n s, (unroll (turn step) n s).Le (unroll (turn step') n s)
  | 0, _ => .refl _
  | n + 1, s => turn_le hstep (loop_le hstep n) s

/-- **The rule for loops**, from the last round back to the first. -/
theorem loop_rule {P : σ → α → List ε → Prop}
    (hlast : ∀ s a l, (step s).Yields (.inr a) l → P s a l)
    (hround : ∀ s s' a l l', (step s).Yields (.inl s') l → P s' a l' → P s a (l ++ l')) :
    ∀ n s a l, (unroll (turn step) n s).Yields a l → P s a l
  | n + 1, s, a, l, h => by
    obtain ⟨r, l₁, l₂, hr, hrest, rfl⟩ := yields_bind.mp h
    rcases r with s' | a'
    · exact hround s s' a l₁ l₂ hr (loop_rule hlast hround n s' a l₂ hrest)
    · obtain ⟨rfl, rfl⟩ := yields_pure.mp hrest
      rw [List.append_nil]
      exact hlast s a l₁ hr

theorem Logs.loop {P : ε → Prop} (h : ∀ s, Logs P (step s)) (n : ℕ)
    (s : σ) : Logs P (unroll (turn step) n s) :=
  loop_rule (fun s _ l hl => h s _ l hl)
    (fun s _ _ l _ hl hl' => List.forall_mem_append.mpr ⟨h s _ l hl, hl'⟩) n s

/-- A loop whose state keeps `I`. -/
theorem Decides.loop {B : ε → Prop} {P : α → Prop} {I : σ → Prop}
    (hI : ∀ s s' l, I s → (step s).Yields (.inl s') l → I s')
    (h : ∀ s, I s → Decides B (fun r => ∃ a, r = .inr a ∧ P a) (step s)) :
    ∀ n s, I s → Decides B P (unroll (turn step) n s)
  | 0, _, _ => nofun
  | n + 1, s, hs => by
    intro a l hl ⟨e, he, hB⟩
    obtain ⟨r, l₁, l₂, hr, hrest, rfl⟩ := yields_bind.mp hl
    rcases List.mem_append.mp he with he | he
    · obtain ⟨a', rfl, ha'⟩ := h s hs r l₁ hr ⟨e, he, hB⟩
      obtain ⟨rfl, -⟩ := yields_pure.mp hrest
      exact ha'
    · rcases r with s' | a'
      · exact Decides.loop hI h n s' (hI s s' l₁ hs hr) a l₂ hrest ⟨e, he, hB⟩
      · obtain ⟨-, rfl⟩ := yields_pure.mp hrest
        cases he

end Walk

end H2
