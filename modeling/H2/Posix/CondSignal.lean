import H2.Kernel.Order
import H2.Posix.Cond

/-!
# Posix/CondSignal — when a signal is lost

A signal is for the threads that are counted when it is made.  One of them leaves its wait in any
case, if it is awake once the wake-up trap is done: the count it has read is an old one, so its own
steps lead out (`leaves_of_awake`).  The trap wakes the first in the queue.  If all that were
counted sleep, that is one of them, unless somebody who has begun to wait since is better than all
of them (`Overtaken`); that one then sleeps again, and the others never wake.

With the mutex held over the signal nobody begins to wait in between (`Locked`), and among threads
of one priority nobody is better.
-/

namespace H2.Cond

open Function

open Hexagon (Word)

variable {ι : Type} [dι : DecidableEq ι] [fι : Fintype ι]

/-- The thread is in one of the functions, and not asleep. -/
def State.ready (t : ι) (s : State ι) : Prop := s.pc t ≠ .out ∧ (s.pc t).sleeps = false

/-- There is no further signal. -/
def NoSignal (a : Act ι) (_ : State ι) : Prop := ∀ t b, a ≠ .signal t b

/-- **One of the threads the last signal of `u` has seen leaves its wait**, without a further
signal, if all that are ready keep running. -/
def State.Leaves (prio : ι → ℕ) (u : ι) (s : State ι) : Prop :=
  ∀ σ : ℕ → State ι, σ 0 = s → Path (step prio) NoSignal σ →
    (∀ t, Runs (step prio) NoSignal Act.thread State.ready σ t) → ∃ n, (σ n).served u

/-- **Those the signal of `u` has seen are overtaken**: all of them sleep, and so does somebody
better who was not seen. -/
def State.Overtaken (prio : ι → ℕ) (u : ι) (s : State ι) : Prop :=
  (∀ w ∈ s.seen u, (s.pc w).sleeps) ∧
    ∃ x, (s.pc x).sleeps ∧ x ∉ s.seen u ∧ ∀ w ∈ s.seen u, prio x < prio w

/-- No broadcast is on its way to the kernel. -/
def State.OnlySignals (s : State ι) : Prop := ∀ v n, s.pc v = .wake n → n = 1

/-- Nobody begins to wait while a signal is on its way to the kernel, as when signals are made with
the mutex held. -/
def Locked (a : Act ι) (s : State ι) : Prop := ∀ t, a = .wait t → ∀ u n, s.pc u ≠ .wake n

section Leaving

variable {prio : ι → ℕ} {s s' : State ι} {t u w : ι} {a : Act ι} {n : ℕ}

/-! ## The way out -/

/-- How far a thread is from leaving. -/
def Pc.rank : Pc → ℕ
  | .block .. => 2
  | _ => 1

/-- The steps of the others leave a thread that is awake where it is, … -/
theorem Goes.pc_other (h : Goes prio s a s') (hinv : Inv prio s) (ha : a.thread ≠ w)
    (hup : (s.pc w).sleeps = false) : s'.pc w = s.pc w := by
  have hqueue := hinv.queue w
  cases h <;> grind [Act.thread, State.enter, State.look]

/-- … and still seen. -/
theorem Goes.seen_other (h : Goes prio s a s') (ha : a.thread ≠ w) (hno : NoSignal a s)
    (hw : w ∈ s.seen u) : w ∈ s'.seen u := by
  cases h <;> grind [Act.thread, State.enter, State.look, NoSignal, State.goto_seen,
    State.wait_seen, State.leave_seen, State.sleep_seen, State.rouse_seen, State.futexWake_seen]

/-- Its own steps lead out. -/
theorem Goes.leads_out (h : Goes prio s a s') (hinv : Inv prio s) (ha : a.thread = w)
    (hw : w ∈ s.seen u) (hup : (s.pc w).sleeps = false) :
    s'.served u ∨ w ∈ s'.seen u ∧ (s'.pc w).sleeps = false ∧ (s'.pc w).rank < (s.pc w).rank := by
  obtain ⟨hcounted, hlt⟩ := hinv.seen u w hw
  have hold : s.stamp w ≠ s.bumps := (hlt.trans_le (hinv.since u)).ne
  have hlow := hinv.low
  have hsaved := hinv.saved w
  cases h with
  | @sleep v c hv =>
    obtain rfl : v = w := ha
    exact absurd (hinv.fresh hv) hold
  | _ =>
    grind [Act.thread, Pc.rank, State.look, cmph, State.goto_seen, State.rouse_seen,
      State.leave_served]

omit dι fι in
theorem NoSignal.few (h : NoSignal a s) : Few a s := fun t b ha => absurd ha (h t b)

/-- **A thread the signal has seen, and that is awake, leaves.** -/
theorem leaves_of_awake (hinv : Inv prio s) (hw : w ∈ s.seen u) (hup : (s.pc w).sleeps = false) :
    s.Leaves prio u := by
  intro σ h₀ hσ hruns
  have hmain : ∃ n ≥ 0, (σ n).served u := by
    refine hσ.leads_to (P := fun s => Inv prio s ∧ w ∈ s.seen u ∧ (s.pc w).sleeps = false)
      (Q := fun s => s.served u) (hruns w) (fun s => (s.pc w).rank) (fun s h => ?_) ?_
      (h₀ ▸ ⟨hinv, hw, hup⟩)
    · obtain ⟨hinv, hw, hup⟩ := h
      refine ⟨fun hout => ?_, hup⟩
      have hcounted := (hinv.seen u w hw).1
      rw [hout] at hcounted
      cases hcounted
    · rintro a s s' ⟨hinv, hw, hup⟩ hno hstep
      have hgoes := goes_of_step hstep
      have hinv' := hinv.step hno.few hstep
      by_cases ha : a.thread = w
      · rcases hgoes.leads_out hinv ha hw hup with hserved | ⟨hw', hup', hlt⟩
        · exact .inl hserved
        · exact .inr ⟨⟨hinv', hw', hup'⟩, hlt.le, fun _ => hlt⟩
      · have hpc := hgoes.pc_other hinv ha hup
        exact .inr ⟨⟨hinv', hgoes.seen_other ha hno hw, hpc ▸ hup⟩, (congrArg Pc.rank hpc).le,
          fun h => absurd h ha⟩
  obtain ⟨n, -, hn⟩ := hmain
  exact ⟨n, hn⟩

/-! ## Who is woken -/

/-- A thread that is not overtaken wakes, or is awake. -/
theorem Inv.awake_of_not_overtaken (h : Inv prio s) (hu : s.pc u = .wake n) (hn : 0 < n)
    (hserved : s.served u = false) (hnot : ¬s.Overtaken prio u) :
    ∃ w ∈ s.seen u, (s.pc w).sleeps = false ∨ w ∈ s.queue.take n := by
  by_contra hnone
  have hasleep (w : ι) (hw : w ∈ s.seen u) : (s.pc w).sleeps := by
    by_contra hup
    exact hnone ⟨w, hw, .inl (by simpa using hup)⟩
  obtain ⟨w₀, hw₀⟩ := h.left u n hu hserved
  have hmem (w : ι) (hw : w ∈ s.seen u) : w ∈ s.queue := (h.queue w).mpr (hasleep w hw)
  obtain ⟨x, q, hq⟩ : ∃ x q, s.queue = x :: q :=
    List.exists_cons_of_ne_nil (List.ne_nil_of_mem (hmem w₀ hw₀))
  have hxq : x ∈ s.queue := hq ▸ List.mem_cons_self ..
  have hx : x ∉ s.seen u := fun hx => hnone ⟨x, hx, .inr (by
    obtain ⟨m, rfl⟩ := Nat.exists_eq_succ_of_ne_zero hn.ne'
    rw [hq]
    exact List.mem_cons_self ..)⟩
  refine hnot ⟨hasleep, x, (h.queue x).mp hxq, hx, fun w hw => ?_⟩
  by_contra hle
  have hsub := h.ahead u w x hw hx (hmem w hw) hxq (Nat.not_lt.mp hle)
  rw [hq] at hsub
  exact not_sublist_head (hq ▸ h.nodup) hsub

omit fι in
/-- Who is woken is awake, and who was awake still is. -/
theorem up_of_futexWake (hw : (s.pc w).sleeps = false ∨ w ∈ s.queue.take n) :
    ((s.futexWake u n).pc w).sleeps = false := by
  cases hc : s.pc w <;> grind

/-- **Unless they are overtaken**, one of those the signal has seen leaves. -/
theorem Inv.leaves (h : Inv prio s) (hu : s.pc u = .wake n) (hn : 0 < n)
    (hcase : s.served u ∨ ¬s.Overtaken prio u) : (s.futexWake u n).Leaves prio u := by
  cases hserved : s.served u with
  | true => exact fun σ h₀ _ _ => ⟨0, by rw [h₀]; exact hserved⟩
  | false =>
    have hnot := hcase.resolve_left (by rw [hserved]; nofun)
    obtain ⟨w, hw, hup⟩ := h.awake_of_not_overtaken hu hn hserved hnot
    exact leaves_of_awake (h.futexWake hu) hw (up_of_futexWake hup)

/-! ## Back to sleep

Somebody who was not seen may always go to sleep again: if there was a signal since it began to
wait, it leaves and waits anew. -/

/-- It need not happen that one of those the signal has seen leaves. -/
abbrev Lost (prio : ι → ℕ) (u : ι) : State ι → Prop :=
  Stays (step prio) NoSignal Act.thread State.ready fun s => s.served u

/-- A thread takes a step. -/
theorem Lost.of_step {c : Pc} (h : Lost prio u s') (hstep : step prio a s = some s')
    (hpc : s'.pc = update s.pc a.thread c) (hno : NoSignal a s)
    (hserved : s.served u = false) : Lost prio u s := by
  refine Stays.of_step h hno hstep (fun v hv => ?_) (by rw [hserved]; nofun)
  by_cases hva : a.thread = v
  · exact .inl hva
  · right
    rw [State.ready, hpc, update_of_ne (Ne.symm hva)]
    exact hv

/-- The signal of `u` is lost from wherever `t` sleeps and all else is as in `s`. -/
def LostAsleep (prio : ι → ℕ) (u t : ι) (s : State ι) : Prop :=
  ∀ s' c, Inv prio s' → s'.pc = update s.pc t (.asleep c) → s'.seen u = s.seen u →
    s'.served u = false → Lost prio u s'

theorem LostAsleep.congr {c : Pc} (h : LostAsleep prio u t s)
    (hpc : s'.pc = update s.pc t c) (hseen : s'.seen u = s.seen u) :
    LostAsleep prio u t s' := fun s'' c' hinv hpc' hseen' hserved =>
  h s'' c' hinv (by rw [hpc', hpc, update_idem]) (hseen'.trans hseen) hserved

/-- From before the trap, … -/
theorem LostAsleep.of_block {c : Word} (h : LostAsleep prio u t s) (hinv : Inv prio s)
    (ht : s.pc t = .block c s.word) (hserved : s.served u = false) : Lost prio u s := by
  have hstep : step prio (.futexWait t) s = some (s.sleep prio t c) := by
    simp only [step, ht, if_true]
  exact (h _ c (hinv.sleep ht) rfl rfl hserved).of_step hstep rfl (by simp [NoSignal]) hserved

/-- … from the entry, with the count as it is, … -/
theorem LostAsleep.of_fresh {c : Word} (h : LostAsleep prio u t s) (hinv : Inv prio s)
    (ht : s.pc t = .enter c) (hcmp : cmph c s.word) (hserved : s.served u = false) :
    Lost prio u s := by
  have hstep : step prio (.enter t) s = some (s.enter t c) := by rw [step, ht]
  have hinv' := hinv.enter ht
  unfold State.enter at hstep hinv'
  rw [if_pos hcmp] at hstep hinv'
  refine (LostAsleep.of_block (t := t) (c := c) ?_ hinv' ?_ hserved).of_step hstep rfl
    (by simp [NoSignal]) hserved
  · exact h.congr rfl rfl
  · exact update_self ..

/-- … from outside, … -/
theorem LostAsleep.of_out (h : LostAsleep prio u t s) (hinv : Inv prio s) (ht : s.pc t = .out)
    (hserved : s.served u = false) : Lost prio u s := by
  have hstep : step prio (.wait t) s = some (s.wait t) := by rw [step, if_pos ht]
  refine (LostAsleep.of_fresh (t := t) (c := s.word) ?_ (hinv.wait ht) ?_ ?_ hserved).of_step hstep
    rfl (by simp [NoSignal]) hserved
  · exact h.congr rfl rfl
  · exact update_self ..
  · exact decide_eq_true rfl

/-- … from the entry, whatever has happened, … -/
theorem LostAsleep.of_enter {c : Word} (h : LostAsleep prio u t s) (hinv : Inv prio s)
    (ht : s.pc t = .enter c) (hserved : s.served u = false) : Lost prio u s := by
  by_cases hcmp : cmph c s.word
  · exact h.of_fresh hinv ht hcmp hserved
  · have hstep : step prio (.enter t) s = some (s.goto t .out) := by
      simp only [step, ht, State.enter, if_neg hcmp]
    have hinv' : Inv prio (s.goto t .out) := by
      have := hinv.enter ht
      rwa [State.enter, if_neg hcmp] at this
    refine (LostAsleep.of_out (t := t) ?_ hinv' ?_ hserved).of_step hstep rfl
      (by simp [NoSignal]) hserved
    · exact h.congr rfl rfl
    · exact update_self ..

/-- … from after the trap, … -/
theorem LostAsleep.of_look {c : Word} (h : LostAsleep prio u t s) (hinv : Inv prio s)
    (ht : s.pc t = .look c) (hunseen : t ∉ s.seen u) (hserved : s.served u = false) :
    Lost prio u s := by
  have hstep : step prio (.look t) s = some (s.look t c) := by rw [step, ht]
  have hinv' := hinv.look ht
  unfold State.look at hstep hinv'
  by_cases hcmp : cmph s.word c
  · rw [if_pos hcmp] at hstep hinv'
    refine (LostAsleep.of_block (t := t) (c := c) ?_ hinv' ?_ hserved).of_step hstep rfl
      (by simp [NoSignal]) hserved
    · exact h.congr rfl rfl
    · exact update_self ..
  · rw [if_neg hcmp] at hstep hinv'
    have hserved' : (s.leave t).served u = false := by simp [hserved, hunseen]
    refine (LostAsleep.of_out (t := t) ?_ hinv' ?_ hserved').of_step hstep rfl
      (by simp [NoSignal]) hserved
    · exact h.congr rfl (Finset.erase_eq_of_notMem hunseen)
    · exact update_self ..

/-- … and from anywhere on the way to it. -/
theorem LostAsleep.lost (h : LostAsleep prio u t s) (hinv : Inv prio s)
    (hup : (s.pc t).sleeps = false) (hwake : ∀ n, s.pc t ≠ .wake n) (hunseen : t ∉ s.seen u)
    (hserved : s.served u = false) : Lost prio u s := by
  cases hc : s.pc t with
  | out => exact h.of_out hinv hc hserved
  | enter c => exact h.of_enter hinv hc hserved
  | look c => exact h.of_look hinv hc hunseen hserved
  | block c r1 =>
    by_cases heq : s.word = r1
    · exact h.of_block hinv (heq ▸ hc) hserved
    · have hstep : step prio (.futexWait t) s = some (s.goto t (.look c)) := by
        simp only [step, hc, if_neg heq]
      have hinv' : Inv prio (s.goto t (.look c)) :=
        hinv.step (a := .futexWait t) (NoSignal.few (by simp [NoSignal])) hstep
      refine (LostAsleep.of_look (c := c) ?_ hinv' ?_ hunseen hserved).of_step hstep rfl
        (by simp [NoSignal]) hserved
      · exact h.congr rfl rfl
      · exact update_self ..
  | asleep c =>
    rw [hc] at hup
    cases hup
  | wake n => exact absurd hc (hwake n)

/-! ## Overtaken -/

/-- The threads that are ready. -/
def State.readies (s : State ι) : Finset ι := threadsAt (fun c => c != .out && !c.sleeps) s.pc

omit dι in
theorem mem_readies : t ∈ s.readies ↔ s.ready t := by
  simp [State.readies, State.ready]

omit dι fι in
/-- Who is overtaken stays so, … -/
theorem State.Overtaken.of_pc (h : s.Overtaken prio u) (hseen : s'.seen u = s.seen u)
    (hpc : ∀ v, (s.pc v).sleeps → (s'.pc v).sleeps) : s'.Overtaken prio u := by
  obtain ⟨hasleep, x, hx, hunseen, hbetter⟩ := h
  rw [State.Overtaken, hseen]
  exact ⟨fun w hw => hpc w (hasleep w hw), x, hpc x hx, hunseen, hbetter⟩

omit dι in
/-- … and the first in the queue is somebody else. -/
theorem Inv.head_of_overtaken (h : Inv prio s) (hover : s.Overtaken prio u) :
    ∃ x q, s.queue = x :: q ∧ x ∉ s.seen u := by
  obtain ⟨-, x, hx, -, hbetter⟩ := hover
  have hxq := (h.queue x).mpr hx
  obtain ⟨y, q, hq⟩ : ∃ y q, s.queue = y :: q := List.exists_cons_of_ne_nil (List.ne_nil_of_mem hxq)
  refine ⟨y, q, hq, fun hy => ?_⟩
  have hlt := hbetter y hy
  have hsorted := h.sorted
  rw [hq] at hsorted hxq
  rcases List.mem_cons.mp hxq with rfl | hxq
  · exact Nat.lt_irrefl _ hlt
  · exact absurd ((List.pairwise_cons.mp hsorted).1 x hxq) (Nat.not_le.mpr hlt)

/-- **A signal wakes somebody else**, who goes back to sleep. -/
theorem Inv.lost_of_futexWake {v : ι} (h : Inv prio s) (hv : s.pc v = .wake 1)
    (hover : s.Overtaken prio u) (hserved : s.served u = false) (honly : s.OnlySignals)
    (hless : ∀ s', Inv prio s' → s'.Overtaken prio u → s'.served u = false → s'.OnlySignals →
      s'.readies = s.readies.erase v → Lost prio u s') : Lost prio u (s.futexWake v 1) := by
  obtain ⟨x, q, hq, hunseen⟩ := h.head_of_overtaken hover
  have hx : (s.pc x).sleeps := (h.queue x).mp (hq ▸ List.mem_cons_self ..)
  obtain ⟨c, hc⟩ : ∃ c, s.pc x = .asleep c := by
    cases hc : s.pc x <;> rw [hc] at hx <;> cases hx
    exact ⟨_, rfl⟩
  have hpc (w : ι) : (s.futexWake v 1).pc w =
      if w = v then .out else if w = x then .look c else s.pc w := by
    grind
  have hback : LostAsleep prio u x (s.futexWake v 1) := by
    intro s' c' hinv' hpc' hseen' hserved'
    have hw' (w : ι) : s'.pc w = if w = x then .asleep c' else if w = v then .out else s.pc w := by
      rw [hpc', update_apply]
      grind
    refine hless s' hinv' (hover.of_pc hseen' fun w hw => ?_) hserved' (fun w n hw => ?_) ?_
    · grind
    · have := honly w n
      grind
    · ext w
      rw [Finset.mem_erase, mem_readies, mem_readies, State.ready, State.ready]
      grind
  exact hback.of_look (c := c) (h.futexWake hv) (by grind) hunseen hserved

/-- **Overtaken, a signal is lost**, without a broadcast on its way. -/
theorem Inv.lost (h : Inv prio s) (hover : s.Overtaken prio u) (hserved : s.served u = false)
    (honly : s.OnlySignals) : Lost prio u s := by
  -- by induction on how many are ready: each goes to sleep, or wakes somebody who does
  induction hk : s.readies.card using Nat.strongRecOn generalizing s with
  | _ k ih =>
    have hless {v : ι} (hv : v ∈ s.readies) (s' : State ι) (hinv' : Inv prio s')
        (hover' : s'.Overtaken prio u) (hserved' : s'.served u = false) (honly' : s'.OnlySignals)
        (hready : s'.readies = s.readies.erase v) : Lost prio u s' :=
      ih _ (by rw [hready, ← hk]; exact Finset.card_erase_lt_of_mem hv) hinv' hover' hserved' honly'
        rfl
    rcases s.readies.eq_empty_or_nonempty with hnone | ⟨v, hv⟩
    · refine .rest (fun t ht => ?_) (by rw [hserved]; simp)
      exact Finset.notMem_empty t (hnone ▸ mem_readies.mpr ht)
    have hready := mem_readies.mp hv
    by_cases hwake : ∃ n, s.pc v = .wake n
    · obtain ⟨n, hn⟩ := hwake
      obtain rfl := honly v n hn
      have hstep : Cond.step prio (.futexWake v) s = some (s.futexWake v 1) := by rw [Cond.step, hn]
      have hlost := h.lost_of_futexWake hn hover hserved honly (hless hv)
      refine Stays.of_step (a := .futexWake v) hlost (by simp [NoSignal]) hstep (fun t ht => ?_)
        (by rw [hserved]; simp)
      by_cases htv : v = t
      · exact .inl htv
      · right
        rw [State.ready, (Goes.futexWake hn).pc_other h htv ht.2]
        exact ht
    · have hunseen : v ∉ s.seen u := fun hmem => by
        have := hover.1 v hmem
        rw [hready.2] at this
        cases this
      refine LostAsleep.lost ?_ h hready.2 (fun n hn => hwake ⟨n, hn⟩) hunseen hserved
      intro s' c hinv' hpc' hseen' hserved'
      have hw' (w : ι) : s'.pc w = if w = v then .asleep c else s.pc w := by
        rw [hpc', update_apply]
      refine hless hv s' hinv' (hover.of_pc hseen' (by grind)) hserved' (fun w n hw => ?_) ?_
      · have := honly w n
        grind
      · rw [State.readies, hpc']
        exact threadsAt_update_of_neg rfl

/-- The trap wakes somebody else: the signal is lost. -/
theorem Inv.not_leaves (h : Inv prio s) (hu : s.pc u = .wake 1) (hover : s.Overtaken prio u)
    (hserved : s.served u = false) (honly : s.OnlySignals) : ¬(s.futexWake u 1).Leaves prio u := by
  intro hleaves
  have hlost : Lost prio u (s.futexWake u 1) :=
    h.lost_of_futexWake hu hover hserved honly fun s' hinv' hover' hserved' honly' _ =>
      hinv'.lost hover' hserved' honly'
  obtain ⟨σ, h₀, hσ, hruns, hnot⟩ := hlost
  obtain ⟨n, hn⟩ := hleaves σ h₀ hσ hruns
  exact hnot n hn

/-! ## With the mutex held -/

/-- Everybody in a wait has read the count before the signals that are on their way to the
kernel. -/
def State.Before (s : State ι) : Prop :=
  ∀ u n, s.pc u = .wake n → ∀ x, (s.pc x).saved ≠ none → s.stamp x < s.since u

omit dι fι in
theorem State.Before.mono (h : s.Before) (hstamp : s'.stamp = s.stamp) (hsince : s'.since = s.since)
    (hwake : ∀ v n, s'.pc v = .wake n → s.pc v = .wake n)
    (hsaved : ∀ v, (s'.pc v).saved ≠ none → (s.pc v).saved ≠ none) : s'.Before := by
  intro u n hu x hx
  rw [hstamp, hsince]
  exact h u n (hwake u n hu) x (hsaved x hx)

omit fι in
/-- A thread goes on in its wait, or out of what it was in. -/
theorem State.Before.of_update {c : Pc} (h : s.Before) (hstamp : s'.stamp = s.stamp)
    (hsince : s'.since = s.since) (hpc : s'.pc = update s.pc t c)
    (hwake : ∀ n, c ≠ .wake n) (hsaved : c.saved ≠ none → (s.pc t).saved ≠ none) : s'.Before := by
  refine h.mono hstamp hsince (fun v n hv => ?_) fun v hv => ?_ <;> rw [hpc] at hv <;> grind

/-- **With the mutex held**, that stays so. -/
theorem State.Before.step (h : s.Before) (hinv : Inv prio s) (hlocked : Locked a s)
    (hgoes : Goes prio s a s') : s'.Before := by
  have hstamp := hinv.stamp
  cases hgoes with
  | @wait t ht =>
    have := hlocked t rfl
    unfold State.Before
    grind
  | @signal t b ht =>
    unfold State.Before at *
    grind [State.signal_since, State.signal_stamp]
  | @futexWake t n ht =>
    refine h.mono rfl rfl (fun v m hv => ?_) fun v hv => ?_ <;> cases hc : s.pc v <;> grind
  | @enter t c ht =>
    unfold State.enter
    split <;> exact h.of_update rfl rfl rfl nofun fun _ => by rw [ht]; nofun
  | @look t c ht =>
    unfold State.look
    split <;> exact h.of_update rfl rfl rfl nofun fun _ => by rw [ht]; nofun
  | sleep ht | fail ht _ => exact h.of_update rfl rfl rfl nofun fun _ => by rw [ht]; nofun
  | @spurious t ht =>
    refine h.of_update rfl rfl rfl (fun n => ?_) fun _ => ?_ <;>
      rcases ht with ⟨c, r1, ht⟩ | ⟨c, ht⟩ <;> rw [ht] <;> nofun

omit dι in
/-- Nobody is there to overtake. -/
theorem State.Before.not_overtaken (h : s.Before) (hinv : Inv prio s) (hu : s.pc u = .wake n) :
    ¬s.Overtaken prio u := by
  rintro ⟨-, x, hx, hunseen, -⟩
  obtain ⟨c, hc⟩ : ∃ c, s.pc x = .asleep c := by
    cases hc : s.pc x <;> rw [hc] at hx <;> cases hx
    exact ⟨_, rfl⟩
  have hlt := h u n hu x (by rw [hc]; nofun)
  exact absurd (hinv.unseen u x (by rw [hc]; rfl) hunseen) (Nat.not_le.mpr hlt)

end Leaving

/-! ## The signal -/

/-- **A signal is made** for those that are counted, if they fit into the upper half of the word. -/
theorem Inv.signal_wakes {prio : ι → ℕ} {s : State ι} {u : ι} (h : Inv prio s) (hu : s.pc u = .out)
    (hcard : Fintype.card ι ≤ 0x10000) (hsome : s.counted.Nonempty) (n : ℕ) :
    (s.signal u n).pc u = .wake n := by
  have hnot : u ∉ s.counted := by simp [State.counted, hu, Pc.counted]
  have hlt : s.counted.card < Fintype.card ι := Finset.card_lt_univ_of_notMem hnot
  have hne : ¬s.word >>> 16 = 0 := by
    rw [shift_eq_zero_iff, h.high, Nat.mod_eq_of_lt (hlt.trans_le hcard)]
    exact hsome.card_pos.ne'
  rw [State.signal_pc, update_self, if_neg hne]

/-- **A signal is not lost** unless it is overtaken: those that are counted when it counts up are
seen, and if there are any, it traps; and once the trap is done, one of them leaves, or has left,
unless all of them sleep behind somebody better who has begun to wait since.  Then it is lost
indeed, if no broadcast is on its way; and if signals are made with the mutex held, it is never
lost. -/
theorem cond_signal_correct {prio : ι → ℕ} {s : State ι} (hs : Leads (step prio) Few init s)
    (u : ι) : (∀ s₁, step prio (.signal u false) s = some s₁ →
      s₁.seen u = s.counted ∧ s₁.served u = false ∧
        (Fintype.card ι ≤ 0x10000 → s.counted.Nonempty → s₁.pc u = .wake 1)) ∧
      ∀ s', s.pc u = .wake 1 → step prio (.futexWake u) s = some s' →
        (s.served u ∨ ¬s.Overtaken prio u → s'.Leaves prio u) ∧
        (s.OnlySignals → s'.Leaves prio u → s.served u ∨ ¬s.Overtaken prio u) ∧
        (Leads (step prio) (fun a s => Few a s ∧ Locked a s) init s → s'.Leaves prio u) := by
  have hinv : Inv prio s := hs.invariant inv_init fun hi hfew hstep => hi.step hfew hstep
  refine ⟨fun s₁ hsignal => ?_, fun s' hu hwake => ?_⟩
  · cases goes_of_step hsignal with
    | signal hu =>
      refine ⟨by simp, by simp, fun hcard hsome => ?_⟩
      exact hinv.signal_wakes hu hcard hsome 1
  · obtain rfl : s.futexWake u 1 = s' := by
      rw [step, hu] at hwake
      exact Option.some.inj hwake
    refine ⟨hinv.leaves hu Nat.one_pos, fun honly hleaves => ?_, fun hlocked => ?_⟩
    · cases hserved : s.served u with
      | true => exact .inl rfl
      | false => exact .inr fun hover => hinv.not_leaves hu hover hserved honly hleaves
    · have hbefore : Inv prio s ∧ s.Before := by
        refine hlocked.invariant (I := fun s => Inv prio s ∧ s.Before)
          ⟨inv_init, by simp [State.Before, init]⟩ ?_
        rintro a s s' ⟨hi, hb⟩ ⟨hfew, hlocked⟩ hstep
        exact ⟨hi.step hfew hstep, hb.step hi hlocked (goes_of_step hstep)⟩
      exact hinv.leaves hu Nat.one_pos (.inr (hbefore.2.not_overtaken hinv hu))

/-- Fewer than 65536 signals, as a test, … -/
def fewTest (a : Act ι) (s : State ι) : Bool :=
  match a with
  | .signal .. => decide (s.bumps + 1 < 0x10000)
  | _ => true

omit dι fι in
theorem few_of_test (a : Act ι) (s : State ι) (h : fewTest a s = true) : Few a s := by
  rintro t b rfl
  exact of_decide_eq_true h

open scoped Numerals

/-- A thread sleeps, another signals, and a third goes to sleep before the trap. -/
def overtaking : List (Act (Fin 3)) :=
  [.wait 0, .enter 0, .futexWait 0, .signal 1 false, .wait 2, .enter 2, .futexWait 2]

/-- If the third is not better, the first leaves. -/
theorem cond_signal_correct_equals : ∃ s s' : State (Fin 3),
    Leads (step fun _ => 0) Few init s ∧ s.pc 1 = .wake 1 ∧ s.seen 1 = {0} ∧ s.queue = [0, 2] ∧
      step (fun _ => 0) (.futexWake 1) s = some s' ∧ s'.Leaves (fun _ => 0) 1 := by
  have hrun : ∃ s ∈ runIf (step fun _ => 0) fewTest overtaking init,
      s.pc 1 = .wake 1 ∧ s.seen 1 = {0} ∧ s.queue = [0, 2] := by decide +kernel
  obtain ⟨s, hs, hpc, hseen, hqueue⟩ := hrun
  have hstep : step (fun _ => 0) (.futexWake 1) s = some (s.futexWake 1 1) := by rw [step, hpc]
  have hnot : ¬s.Overtaken (fun _ => 0) 1 := by
    rintro ⟨-, x, -, -, hbetter⟩
    exact Nat.lt_irrefl 0 (hbetter 0 (by rw [hseen]; exact Finset.mem_singleton_self 0))
  have hleads := Leads.of_runIf few_of_test .init hs
  exact ⟨s, _, hleads, hpc, hseen, hqueue, hstep,
    ((cond_signal_correct hleads 1).2 _ hpc hstep).1 (.inr hnot)⟩

/-- The first thread is worse than the others. -/
def firstWorse (t : Fin 3) : ℕ := if t = 0 then 1 else 0

/-- If the third is better, it is woken, and both sleep for ever. -/
theorem overtaking_not_leaves : ∃ s s' : State (Fin 3),
    Leads (step firstWorse) Few init s ∧ s.pc 1 = .wake 1 ∧ s.seen 1 = {0} ∧ s.queue = [2, 0] ∧
      step firstWorse (.futexWake 1) s = some s' ∧ ¬s'.Leaves firstWorse 1 := by
  have hrun : ∃ s ∈ runIf (step firstWorse) fewTest overtaking init,
      (s.pc 0 = .asleep 0 ∧ s.pc 1 = .wake 1 ∧ s.pc 2 = .asleep 0x10001) ∧ s.seen 1 = {0} ∧
        s.served 1 = false ∧ s.queue = [2, 0] := by decide +kernel
  obtain ⟨s, hs, ⟨h₀, hpc, h₂⟩, hseen, hserved, hqueue⟩ := hrun
  have hstep : step firstWorse (.futexWake 1) s = some (s.futexWake 1 1) := by rw [step, hpc]
  have hleads := Leads.of_runIf few_of_test .init hs
  have hinv : Inv firstWorse s := hleads.invariant inv_init fun hi hfew hstep => hi.step hfew hstep
  refine ⟨s, _, hleads, hpc, hseen, hqueue, hstep,
    hinv.not_leaves hpc ⟨?_, 2, ?_, ?_, ?_⟩ hserved ?_⟩
  · intro w hw
    rw [hseen, Finset.mem_singleton] at hw
    rw [hw, h₀]
    rfl
  · rw [h₂]
    rfl
  · rw [hseen]
    decide
  · intro w hw
    rw [hseen, Finset.mem_singleton] at hw
    rw [hw]
    decide
  · intro v n hv
    have hall : ∀ v : Fin 3, v = 0 ∨ v = 1 ∨ v = 2 := by decide
    rcases hall v with rfl | rfl | rfl
    · rw [h₀] at hv; cases hv
    · exact (Pc.wake.inj (hpc.symm.trans hv)).symm
    · rw [h₂] at hv; cases hv

/-! ## The kernel's side -/

section Traps

variable {β : Type} [DecidableEq β] {M : Machine ι β} {k : Kernel ι β} {s : State ι} {t : ι}
  {a n : ℕ}

/-- **The wake-up trap** is the step, for a kernel that keeps the queue at the word. -/
theorem futexResume_wakes (ha : Wakeable M k a) (hk : s.queue = k.sched.waiters (a / 4))
    (hc : s.pc t = .wake n) :
    ∃ k', k.futexResume (some a) n = some (.returned (min n s.queue.length : ℕ), k') ∧
      step k.sched.prio (.futexWake t) s = some (s.futexWake t n) ∧
      (s.futexWake t n).queue = k'.sched.waiters (a / 4) := by
  obtain ⟨k', hk', hdrop, -⟩ := futexResume_waiters ha n
  refine ⟨k', by rw [hk', hk], by rw [step, hc], ?_⟩
  rw [hdrop, ← hk]
  rfl

/-- **The waiting trap** is the step. -/
theorem futexWait_joins {h : ℕ} {c r1 : Word} (ha : MayWait M k h t a) (hord : InOrder k)
    (hk : s.queue = k.sched.waiters (a / 4)) (hc : s.pc t = .block c r1) :
    ∃ s', step k.sched.prio (.futexWait t) s = some s' ∧
      (k.futexWait M (some a) s.word.toNat r1.toNat t h = some (.returned (-1), k) ∧
          s'.queue = k.sched.waiters (a / 4) ∨
        ∃ k' : Kernel ι β, k.futexWait M (some a) s.word.toNat r1.toNat t h = k'.dosched M h ∧
          s'.queue = k'.sched.waiters (a / 4)) := by
  have hstep : step k.sched.prio (.futexWait t) s =
      some (if s.word = r1 then s.sleep k.sched.prio t c else s.goto t (.look c)) := by
    rw [step, hc]
  refine ⟨_, hstep, ?_⟩
  rcases futexWait_waiters ha with ⟨hne, hret⟩ | ⟨heq, k', hk', -, -, hins⟩
  · refine .inl ⟨hret, ?_⟩
    rw [if_neg fun h => hne (congrArg BitVec.toNat h)]
    exact hk
  · refine .inr ⟨k', hk', ?_⟩
    rw [if_pos (BitVec.eq_of_toNat_eq heq), enqueue_of_inserts (hins hord), ← hk]
    rfl

/-- The boot thread waits on the word at 0x1000 with priority 9, … -/
def worseWaits : List (ℕ × Op (Fin 2) Unit) :=
  [(0, .trap (.prioSet 9)), (0, .trap (.futexUnlockPi (identityAccess 0x2000))),
    (0, .trap (.create 0 0 0 5 true)), (0, .trap (.futexWait (identityAccess 0x1000) 0 0))]

/-- … and another is about to. -/
def bothCounted : List (Act (Fin 2)) := [.wait 1, .enter 1, .futexWait 1, .wait 0, .enter 0]

/-- That one is better, and takes its place before it. -/
theorem futexWait_joins_before : ∃ (k k' : Kernel (Fin 2) Unit) (s s' : State (Fin 2)),
    bootRun 1 1#32 worseWaits = some k ∧
    runIf (step k.sched.prio) fewTest bothCounted init = some s ∧ s.queue = [1] ∧
    step k.sched.prio (.futexWait 0) s = some s' ∧
    k.futexWait (oneVm 1) (some 0x1000) s.word.toNat 0x20000 0 0 = k'.dosched (oneVm 1) 0 ∧
    s'.queue = [0, 1] ∧ k'.sched.waiters 0x400 = [0, 1] := by
  obtain ⟨e, k₀, k, hboot, hk, hrun, s, hs, s', hs', q, hq, hqueue, hwaiters, hpc, hqueue', hexit,
    hme, hwork, honly⟩ := exists_reached_of_bootRun 1#32 worseWaits (C := Safe (oneVm 1))
      (by simp [worseWaits, Safe, Trap.Safe])
      (fun k => ∃ s ∈ runIf (step k.sched.prio) fewTest bothCounted init,
        ∃ s' ∈ step k.sched.prio (.futexWait 0) s,
        ∃ q ∈ k.futexWait (oneVm 1) (some 0x1000) s.word.toNat 0x20000 0 0,
          s.queue = [1] ∧ k.sched.waiters 0x400 = [1] ∧ s.pc 0 = .block 0x10000 0x20000 ∧
          s'.queue = [0, 1] ∧ q.1 ≠ .returned (-1) ∧ k.hw.sgp 0 = some 0 ∧
          k.threads.vmwork 0 = false ∧ ∀ t, k.sched.status t = .blocked → t = 1)
      (by set_option synthInstance.maxSize 512 in decide +kernel)
  have hc : Coherent (oneVm 1) k := hk.coherent (fun _ _ _ => id) (coherent_boot (by decide) hboot)
  -- nobody else waits
  have hord : InOrder k := fun v => (hc.placed.nodup_queue _).imp_of_mem fun hx hy hne =>
    absurd ((honly _ (hc.placed.mem_bucket.mp hx).1).trans
      (honly _ (hc.placed.mem_bucket.mp hy).1).symm) hne
  obtain ⟨s₁, hs₁, hjoins⟩ := futexWait_joins (a := 0x1000) ⟨hc, hme, hwork, by decide⟩ hord
    (hqueue.trans hwaiters.symm) hpc
  obtain rfl : s₁ = s' := Option.some.inj (hs₁.symm.trans hs')
  rcases hjoins with ⟨hback, -⟩ | ⟨k', hk', hwaiters'⟩
  · exact absurd (congrArg Prod.fst (Option.some.inj (hq.symm.trans hback))) hexit
  · exact ⟨k, k', s, s₁, hrun, hs, hqueue, hs', hk', hqueue', hwaiters'.symm.trans hqueue'⟩

end Traps

end H2.Cond
