import H2.Compat.Allsignal

/-!
# Compat/AllsignalReturn — whether a waiter for all bits returns

A waiter returns if nothing it is short of has come in since it took what had come in
(`State.late`): it then is short of nothing all of whose bits are signalled, whoever signals what
else, and its own steps lead to the return.  If something has come in late and everybody else is
done, the waiter sleeps for ever.
-/

namespace H2.Allsignal

open Function

open Hexagon (Word)

variable {ι : Type} [dι : DecidableEq ι] [fι : Fintype ι]

/-- **What has come in too late** for the waiter `t`: bits it is short of, after it took what had
come in. -/
def State.late (s : State ι) (t : ι) : Word :=
  match s.pc t with
  | .settle .. | .block .. | .asleep _ | .check _ => s.short &&& s.signalsIn
  | .idle | .announce _ | .take _ | .signal _ | .store _ | .wake _ => 0

open State

/-- The thread is in one of the functions, and not asleep. -/
def State.ready (t : ι) (s : State ι) : Prop := s.pc t ≠ .idle ∧ (s.pc t).sleeps = false

/-- **The wait of `t` returns**, if all that are ready keep running. -/
def State.Returns (t : ι) (s : State ι) : Prop :=
  ∀ σ : ℕ → State ι, σ 0 = s → Path step OneWaiter σ →
    (∀ u, Runs step OneWaiter Act.thread ready σ u) → ∃ n, (σ n).pc t = .idle

section Bound

variable {s s' : State ι} {t : ι} {a : Act ι} {c : Pc} {m : Word}

/-! ## The way to the return -/

/-- Nothing keeps a waiter at `c` from returning. -/
def State.Bound (s : State ι) : Pc → Prop
  | .announce m => ∀ i, bit m i → bit s.signalsIn i
  | .take _ => ∀ i, bit s.waiting i → bit s.signalsIn i
  | .settle _ r3 => ∀ i, bit s.waiting i → bit r3 i
  | .block _ r1 => r1 ≠ 0 ∧ ∀ i, bit s.waiting i = false
  | .check _ => ∀ i, bit s.waiting i = false
  | .idle | .asleep _ | .signal _ | .store _ | .wake _ => False

/-- How far it is. -/
def Pc.rank : Pc → ℕ
  | .announce _ => 5
  | .take _ => 4
  | .settle .. => 3
  | .block .. => 2
  | _ => 1

section

omit dι fι

theorem State.Bound.ready (h : s.Bound (s.pc t)) : s.ready t := by
  unfold State.ready
  cases hc : s.pc t <;> rw [hc] at h <;> first | exact h.elim | exact ⟨nofun, rfl⟩

theorem State.Bound.waits (h : s.Bound (s.pc t)) : (s.pc t).waitsFor ≠ none := by
  cases hc : s.pc t <;> rw [hc] at h <;> first | exact h.elim | nofun

/-- It stays so if bits go out of the mask and come in. -/
theorem State.Bound.mono (h : s.Bound c) (hwaiting : ∀ i, bit s'.waiting i → bit s.waiting i)
    (hin : ∀ i, bit s.signalsIn i → bit s'.signalsIn i) : s'.Bound c := by
  cases c <;> grind [Bound]

end

/-- The steps of the others leave the waiter where it is, … -/
theorem Goes.pc_other (h : Goes s a s') (ha : a.thread ≠ t) (hup : (s.pc t).sleeps = false) :
    s'.pc t = s.pc t := by
  cases h <;> grind [Act.thread, State.settle, State.check, State.signal, State.store, State.rouse,
    sleepers]

/-- … and do not keep it from returning. -/
theorem Goes.bound_other (h : Goes s a s') (hinv : Inv s) (ha : a.thread ≠ t)
    (ht : (s.pc t).waitsFor ≠ none) (hbound : s.Bound c) : s'.Bound c := by
  have hother {u : ι} {d : Pc} (hu : s.pc u = d) (hne : u ≠ t) : d.waitsFor = none :=
    hu ▸ hinv.other ht u hne
  cases h with
  | wait _ | call _ | retry _ => exact hbound.mono (fun _ hi => hi) fun _ hi => hi
  | futexWake _ _ _ => exact hbound.mono (fun _ hi => hi) fun _ hi => hi
  | announce hu | take hu | settle hu | futexWait hu | check hu => exact nomatch hother hu ha
  | spurious hu =>
    rcases hu with ⟨r1, hu⟩ | hu <;> exact nomatch hother hu ha
  | signal _ | store _ =>
    refine hbound.mono (fun i => ?_) fun i => ?_ <;>
      grind [State.signal, State.store, State.goto, State.record, State.complete]

/-- Its own steps lead to the return. -/
theorem Goes.bound_self (h : Goes s a s') (ha : a.thread = t) (hbound : s.Bound (s.pc t)) :
    s'.pc t = .idle ∨ s'.Bound (s'.pc t) ∧ (s'.pc t).rank < (s.pc t).rank := by
  have hzero (x : Word) : (∀ i, bit x i = false) → x = 0 := eq_zero_of_bits
  cases h with
  | @settle u m r3 hu =>
    have := hzero (~~~r3 &&& s.waiting)
    grind [State.Bound, State.settle, Act.thread]
  | _ =>
    have := hzero s.waiting
    grind [State.Bound, Pc.rank, State.announce, State.take, State.check, State.goto_waiting,
      Act.thread]

/-- **A waiter that nothing keeps from returning returns.** -/
theorem State.Bound.returns (hinv : Inv s) (hbound : s.Bound (s.pc t)) : s.Returns t := by
  intro σ h₀ hσ hruns
  have hmain : ∃ n ≥ 0, (σ n).pc t = .idle := by
    refine hσ.leads_to (P := fun s => Inv s ∧ s.Bound (s.pc t)) (Q := fun s => s.pc t = .idle)
      (hruns t) (fun s => (s.pc t).rank) (fun s h => h.2.ready) ?_ (h₀ ▸ ⟨hinv, hbound⟩)
    rintro a s s' ⟨hinv, hbound⟩ hone hstep
    have hgoes := goes_of_step hstep
    by_cases ha : a.thread = t
    · rcases hgoes.bound_self ha hbound with hidle | ⟨hbound', hlt⟩
      · exact .inl hidle
      · exact .inr ⟨⟨hinv.step hone hstep, hbound'⟩, hlt.le, fun _ => hlt⟩
    · have hpc := hgoes.pc_other ha hbound.ready.2
      have hbound' := hgoes.bound_other hinv ha hbound.waits hbound
      exact .inr ⟨⟨hinv.step hone hstep, hpc ▸ hbound'⟩, (congrArg Pc.rank hpc).le,
        fun h => absurd h ha⟩
  obtain ⟨n, -, hn⟩ := hmain
  exact ⟨n, hn⟩

omit fι in
/-- **Nothing has come in too late**, and what is waited for has been signalled: nothing keeps the
waiter from returning. -/
theorem Inv.bound (h : Inv s) (ht : (s.pc t).waitsFor = some m) (hdone : m &&& s.done = m)
    (hquiet : ∀ u m', s.pc u ≠ .wake m') (hlate : s.late t = 0) : s.Bound (s.pc t) := by
  have hrec (i : Fin 32) (hi : bit m i) : bit s.recorded i := by
    rw [← hdone, bit_and, Bool.and_eq_true] at hi
    exact h.done i hi.2
  have hwaits : (s.pc t).waitsFor ≠ none := by rw [ht]; nofun
  have hat := h.place t
  -- past the taking, the waiter is short of nothing
  have hshort (hmask : s.mask = m) (hl : s.late t = s.short &&& s.signalsIn) (i : Fin 32) :
      bit s.short i = false := by
    have hz : bit (s.late t) i = false := by rw [hlate]; exact bit_zero i
    have := h.balanced.within i
    have := h.balanced.kept i
    grind
  cases hc : s.pc t with
  | announce m' =>
    have hcalm := h.calm fun u => by
      by_cases hut : u = t
      · rw [hut, hc]
        rfl
      · exact Pc.announced_of_waitsFor (h.other hwaits u hut)
    grind [Bound]
  | take m' =>
    have := h.balanced.within
    have := h.balanced.kept
    grind [Bound]
  | asleep m' =>
    rw [hc] at ht hat
    obtain ⟨hmask, hheld, hwaiting | ⟨u, m', hu⟩⟩ := hat
    · refine absurd (eq_zero_of_bits fun i => ?_) hwaiting
      rw [← short_of_held hheld]
      exact hshort (hmask.trans (Option.some.inj ht)) (by rw [late, hc]) i
    · exact absurd hu (hquiet u m')
  | settle _ _ | block _ _ | check _ =>
    have := hshort (by grind) (by rw [late, hc])
    simp only [short, bit_and] at this
    grind [Bound]
  | _ => grind

/-! ## Without return -/

/-- The thread is the only one that is not idle. -/
def State.Alone (t : ι) (s : State ι) : Prop := ∀ u, u ≠ t → s.pc u = .idle

omit fι in
theorem State.Alone.goto (h : s.Alone t) : (s.goto t c).Alone t := fun u hu => by
  rw [goto_pc, update_of_ne hu, h u hu]

theorem stays_of_alone (hstep : step a s = some s') (halone : s.Alone t) (ha : a.thread = t)
    (hone : ∀ u m, a ≠ .wait u m) (hup : s.pc t ≠ .idle)
    (h : Stays step OneWaiter Act.thread ready (fun s => s.pc t = .idle) s') :
    Stays step OneWaiter Act.thread ready (fun s => s.pc t = .idle) s := by
  refine h.of_step (fun u m hu => absurd hu (hone u m)) hstep (fun u hu => .inl ?_) hup
  by_contra hut
  exact hu.1 (halone u fun heq => hut (ha.trans heq.symm))

/-- Asleep, … -/
theorem stays_asleep (halone : s.Alone t) (ht : s.pc t = .asleep m) :
    Stays step OneWaiter Act.thread ready (fun s => s.pc t = .idle) s := by
  refine .rest (fun u hu => ?_) (by rw [ht]; nofun)
  by_cases hut : u = t
  · rw [ready, hut, ht] at hu
    cases hu.2
  · exact hu.1 (halone u hut)

/-- … and on the way there. -/
theorem stays_block (halone : s.Alone t) (ht : s.pc t = .block m s.waiting) :
    Stays step OneWaiter Act.thread ready (fun s => s.pc t = .idle) s := by
  have hstep : step (.futexWait t) s = some (s.goto t (.asleep m)) := by
    simp only [step, ht, if_true]
  refine stays_of_alone hstep halone rfl (by simp) (by simp [ht])
    (stays_asleep (m := m) halone.goto ?_)
  rw [goto_pc, update_self]

theorem stays_check (halone : s.Alone t) (ht : s.pc t = .check m) (hwaiting : s.waiting ≠ 0) :
    Stays step OneWaiter Act.thread ready (fun s => s.pc t = .idle) s := by
  have hstep : step (.check t) s = some (s.goto t (.block m s.waiting)) := by
    rw [step, ht]
    simp only [check, if_neg hwaiting]
  refine stays_of_alone hstep halone rfl (by simp) (by simp [ht])
    (stays_block (m := m) halone.goto ?_)
  rw [goto_pc, update_self]
  rfl

/-- **Something has come in too late**, and everybody else is done: the waiter goes to sleep. -/
theorem Inv.stays (h : Inv s) (hlate : s.late t ≠ 0) (halone : s.Alone t) :
    Stays Allsignal.step OneWaiter Act.thread ready (fun s => s.pc t = .idle) s := by
  have hat := h.place t
  have hshort (hl : s.late t = s.short &&& s.signalsIn) : s.short ≠ 0 := fun hzero =>
    hlate (by rw [hl, hzero]; exact BitVec.zero_and)
  cases hc : s.pc t with
  | settle m r3 =>
    rw [hc] at hat
    have hne : ~~~r3 &&& s.waiting ≠ 0 := by
      have := hshort (by rw [late, hc])
      rwa [short, hat.2, BitVec.and_comm] at this
    have hstep : Allsignal.step (.settle t) s = some (s.settle t m r3) := by rw [Allsignal.step, hc]
    refine stays_of_alone hstep halone rfl (by simp) (by simp [hc]) ?_
    unfold State.settle
    simp only [if_neg hne]
    refine stays_block (m := m) (Alone.goto halone) ?_
    rw [goto_pc, update_self]
    rfl
  | block m r1 =>
    rw [hc] at hat
    have hwaiting : s.waiting ≠ 0 := short_of_held hat.2.1 ▸ hshort (by rw [late, hc])
    by_cases heq : s.waiting = r1
    · exact stays_block halone (by rw [hc, heq])
    · have hstep : Allsignal.step (.futexWait t) s = some (s.goto t (.check m)) := by
        simp only [Allsignal.step, hc, if_neg heq]
      refine stays_of_alone hstep halone rfl (by simp) (by simp [hc])
        (stays_check (m := m) halone.goto ?_ hwaiting)
      rw [goto_pc, update_self]
  | asleep m => exact stays_asleep halone hc
  | check m =>
    rw [hc] at hat
    exact stays_check halone hc (short_of_held hat.2 ▸ hshort (by rw [late, hc]))
  | idle | announce _ | take _ | signal _ | store _ | wake _ =>
    rw [late, hc] at hlate
    exact absurd rfl hlate

/-! ## In time -/

/-- The waiter has taken what had come in. -/
def State.Past (s : State ι) : Prop := ∃ t, (s.pc t).announced ∧ (s.pc t).takes = false

/-- **The signals of this epoch are in time**: the waiter is short of none of those that are
recorded, and of none that are still to be stored. -/
def State.Prompt (s : State ι) : Prop :=
  s.Past → ∀ i, bit s.short i → bit s.recorded i = false ∧
    ∀ u m, s.pc u = .store m → s.began u = s.epoch → bit m i = false

omit dι fι in
theorem State.Prompt.mono (h : s.Prompt) (hpast : s'.Past → s.Past)
    (hshort : ∀ i, bit s'.short i → bit s.short i)
    (hrecorded : ∀ i, bit s'.short i → bit s'.recorded i → bit s.recorded i ∨
      ∃ u m, s.pc u = .store m ∧ s.began u = s.epoch ∧ bit m i)
    (hstore : ∀ i, bit s'.short i → ∀ u m, s'.pc u = .store m → s'.began u = s'.epoch →
      s.pc u = .store m ∧ s.began u = s.epoch) : s'.Prompt := by
  intro hp i hi
  have := h (hpast hp) i (hshort i hi)
  have := hrecorded i hi
  have := hstore i hi
  grind

section

omit fι

theorem past_of_update (hpc : s'.pc = update s.pc t c) (hc : c.announced = false)
    (h : s'.Past) : s.Past := by
  obtain ⟨u, hu, hu'⟩ := h
  rw [hpc] at hu hu'
  exact ⟨u, by grind, by grind⟩

theorem store_of_update (hpc : s'.pc = update s.pc t c) (hc : ∀ m, c ≠ .store m)
    (hbegan : s'.began = s.began) (hepoch : s'.epoch = s.epoch) (u : ι) (m : Word)
    (hu : s'.pc u = .store m) (hu' : s'.began u = s'.epoch) :
    s.pc u = .store m ∧ s.began u = s.epoch := by
  rw [hpc] at hu
  grind

/-- Nobody has taken anything if the waiter has not, or has returned. -/
theorem not_past (h : Inv s) (ht : (s.pc t).waitsFor ≠ none)
    (hpc : s'.pc = update s.pc t c) (hc : c.announced = false ∨ c.takes) : ¬s'.Past := by
  rintro ⟨u, hu, hu'⟩
  rw [hpc] at hu hu'
  have := Pc.announced_of_waitsFor (h.other ht u (by grind))
  grind

theorem State.Prompt.goto (h : s.Prompt) (ht : (s.pc t).announced) (ht' : (s.pc t).takes = false)
    (hc : ∀ m, c ≠ .store m) : (s.goto t c).Prompt :=
  h.mono (fun _ => ⟨t, ht, ht'⟩) (fun _ hi => hi) (fun _ _ hi => .inl hi)
    fun _ _ => store_of_update rfl hc rfl rfl

theorem State.Prompt.settle (h : s.Prompt) (hinv : Inv s) {r3 : Word} (ht : s.pc t = .settle m r3) :
    (s.settle t m r3).Prompt := by
  have hat := hinv.place t
  unfold State.settle
  simp only
  split
  · exact fun hp => absurd hp (not_past hinv (by rw [ht]; nofun) rfl (.inl rfl))
  · refine h.mono (fun _ => ⟨t, by rw [ht]; rfl, by rw [ht]; rfl⟩) (fun i hi => ?_)
      (fun _ _ hi => .inl hi) fun _ _ => store_of_update rfl nofun rfl rfl
    grind [goto_waiting]

theorem State.Prompt.check (h : s.Prompt) (hinv : Inv s) (ht : s.pc t = .check m) :
    (s.check t m).Prompt := by
  unfold State.check
  split
  · exact fun hp => absurd hp (not_past hinv (by rw [ht]; nofun) rfl (.inl rfl))
  · exact h.goto (by rw [ht]; rfl) (by rw [ht]; rfl) nofun

end

omit dι fι in
theorem short_clear (i : Fin 32)
    (hi : bit (({ s with waiting := s.waiting &&& ~~~m } : State ι).record t m).short i) :
    bit s.short i ∧ bit m i = false := by
  simp only [short, record_waiting, record_held] at hi ⊢
  grind

section

omit fι

theorem State.Prompt.signal (h : s.Prompt) : (s.signal t m).Prompt := by
  unfold State.signal
  split
  · next hzero =>
    have hnone (i : Fin 32) : ¬bit s.short i := by simp [short, hzero]
    exact fun _ i hi => absurd hi (hnone i)
  · have hrecorded (i : Fin 32)
        (hi : bit (({ s with waiting := s.waiting &&& ~~~m } : State ι).record t m).short i)
        (hr : bit (({ s with waiting := s.waiting &&& ~~~m } : State ι).record t m).recorded i) :
        bit s.recorded i ∨ ∃ u m, s.pc u = .store m ∧ s.began u = s.epoch ∧ bit m i := by
      have hm := (short_clear i hi).2
      grind [record_recorded]
    simp only
    split <;> exact h.mono (past_of_update rfl rfl) (fun i hi => (short_clear (t := t) i hi).1)
      hrecorded fun _ _ => store_of_update rfl nofun rfl rfl

theorem State.Prompt.store (h : s.Prompt) (ht : s.pc t = .store m) : (s.store t m).Prompt := by
  refine h.mono (past_of_update rfl rfl) (fun i hi => hi) (fun i _ hr => ?_)
    fun _ _ => store_of_update rfl nofun rfl rfl
  grind [store, complete_recorded, record_recorded]

/-- **The taking**, when nobody is late. -/
theorem State.Prompt.take (hinv : Inv s) (ht : s.pc t = .take m)
    (htimely : ∀ u m, s.pc u = .store m → s.began u = s.epoch →
      m &&& s.waiting &&& ~~~s.signalsIn = 0) : (s.take t m).Prompt := by
  have hat := hinv.place t
  intro _ i hi
  obtain ⟨hw, hin⟩ : bit s.waiting i ∧ bit s.signalsIn i = false := by
    grind [take_waiting, take_held]
  refine ⟨?_, fun u m' hu hu' => ?_⟩
  · have := hinv.balanced.kept i
    grind [take_recorded]
  · obtain ⟨hu, hu'⟩ := store_of_update (show (s.take t m).pc = update s.pc t _ from rfl)
      nofun rfl rfl u m' hu hu'
    have hzero := congrArg (bit · i) (htimely u m' hu hu')
    simpa [hw, hin] using hzero

end

/-- **Every step in time keeps the signals in time.** -/
theorem State.Prompt.step (h : s.Prompt) (hinv : Inv s) (htimely : Timely a s)
    (hgoes : Goes s a s') : s'.Prompt := by
  cases hgoes with
  | wait | retry =>
    exact h.mono (past_of_update rfl rfl) (fun _ hi => hi) (fun _ _ hi => .inl hi)
      fun _ _ => store_of_update rfl nofun rfl rfl
  | announce ht => exact fun hp => absurd hp (not_past hinv (by rw [ht]; nofun) rfl (.inr rfl))
  | take ht => exact .take hinv ht (htimely _ rfl)
  | settle ht => exact h.settle hinv ht
  | futexWait ht => split <;> exact h.goto (by rw [ht]; rfl) (by rw [ht]; rfl) nofun
  | spurious ht =>
    rcases ht with ⟨r1, ht⟩ | ht <;> exact h.goto (by rw [ht]; rfl) (by rw [ht]; rfl) nofun
  | check ht => exact h.check hinv ht
  | call ht =>
    exact h.mono (past_of_update rfl rfl) (fun _ hi => hi) (fun _ _ hi => .inl hi) (by
      grind [call_began, call_epoch])
  | signal _ => exact h.signal
  | store ht => exact h.store ht
  | @futexWake t m W ht hW _ =>
    have hpc (u : ι) : (s.rouse t m W).pc u =
        if u = t then .idle else if u ∈ W then (s.pc u).back else s.pc u :=
      update_apply ..
    have hasleep (u : ι) (hu : u ∈ W) : ∃ m', s.pc u = .asleep m' :=
      Pc.eq_asleep_of_sleeps (mem_threadsAt.mp (hW hu))
    refine h.mono (fun ⟨u, hu, hu'⟩ => ⟨u, ?_⟩) (fun _ hi => hi) (fun _ _ hi => .inl hi)
      fun _ _ u m' hu hu' => ⟨?_, hu'⟩ <;> grind

omit dι fι in
/-- Nothing that has been signalled in time comes too late. -/
theorem State.Prompt.late (h : s.Prompt) (hinv : Inv s) (ht : (s.pc t).waitsFor = some m)
    (hdone : m &&& s.done = m) : s.late t = 0 := by
  have hat := hinv.place t
  have hnone (hmask : s.mask = m) (hpast : s.Past) : s.short &&& s.signalsIn = 0 := by
    refine eq_zero_of_bits fun i => ?_
    have := hinv.balanced.within i
    have := hinv.done i
    have := h hpast i
    grind
  unfold State.late
  cases hc : s.pc t with
  | settle m' r3 | block m' r1 | asleep m' | check m' =>
    rw [hc] at ht hat
    cases ht
    exact hnone hat.1 ⟨t, by rw [hc]; rfl, by rw [hc]; rfl⟩
  | idle | announce _ | take _ | signal _ | store _ | wake _ => rfl

end Bound

/-! ## The theorem -/

/-- **Who waits for all bits.** In any interleaving with one waiter at a time, a wait returns only
if it is credited with each of its bits: the bit has been signalled since the wait it was last
credited to.  When each of its bits has been passed to a call that began since the last wait
returned and is complete, and no wake-up is under way, the waiter returns if nothing it is short of
has come in too late; and if something has, it may sleep for ever, everybody else being done.  If at
each taking nobody is late, it returns. -/
theorem allsignal_correct {s : State ι} (hs : Leads step OneWaiter init s) :
    (∀ r ∈ s.returned, r.1 &&& r.2 = r.1) ∧
      ∀ t m, (s.pc t).waitsFor = some m → m &&& s.done = m → (∀ u m', s.pc u ≠ .wake m') →
        (s.late t = 0 → s.Returns t) ∧ (s.late t ≠ 0 → s.Alone t → ¬s.Returns t) ∧
          (Leads step (fun a s => OneWaiter a s ∧ Timely a s) init s → s.Returns t) := by
  have hinv : Inv s := hs.invariant inv_init fun hi hone hstep => hi.step hone hstep
  refine ⟨fun r hr => BitVec.eq_of_getLsbD_eq fun i hi => ?_,
    fun t m ht hdone hquiet => ⟨?_, ?_, ?_⟩⟩
  · have hbit := hinv.returned r hr ⟨i, hi⟩
    change bit (r.1 &&& r.2) ⟨i, hi⟩ = bit r.1 ⟨i, hi⟩
    grind
  · exact fun hlate => (hinv.bound ht hdone hquiet hlate).returns hinv
  · intro hlate halone hreturns
    obtain ⟨σ, h₀, hσ, hruns, hnot⟩ := hinv.stays hlate halone
    obtain ⟨n, hn⟩ := hreturns σ h₀ hσ hruns
    exact hnot n hn
  · intro htimely
    have hprompt : Inv s ∧ s.Prompt := by
      refine htimely.invariant (I := fun s => Inv s ∧ s.Prompt) ⟨inv_init, fun hp => ?_⟩ ?_
      · obtain ⟨t, ht, -⟩ := hp
        cases ht
      · rintro a s s' ⟨hi, hp⟩ ⟨hone, htimely⟩ hstep
        exact ⟨hi.step hone hstep, hp.step hi htimely (goes_of_step hstep)⟩
    exact (hinv.bound ht hdone hquiet (hprompt.2.late hinv ht hdone)).returns hinv

/-- A thread at `c` is not late for the taking. -/
def State.inTime (s : State ι) (u : ι) : Bool :=
  match s.pc u with
  | .store m => decide (s.began u = s.epoch → m &&& s.waiting &&& ~~~s.signalsIn = 0)
  | _ => true

/-- At most one thread waits, as a test, … -/
def oneWaiterTest (a : Act ι) (s : State ι) : Bool :=
  match a with
  | .wait .. => decide (∀ u, (s.pc u).waitsFor = none)
  | _ => true

/-- … and nobody comes in too late. -/
def timelyTest (a : Act ι) (s : State ι) : Bool :=
  match a with
  | .take _ => decide (∀ u, s.inTime u)
  | a => oneWaiterTest a s

omit dι in
theorem oneWaiter_of_test (a : Act ι) (s : State ι) (h : oneWaiterTest a s = true) :
    OneWaiter a s := by
  rintro t m rfl
  exact of_decide_eq_true h

omit dι in
theorem timely_of_test (a : Act ι) (s : State ι) (h : timelyTest a s = true) :
    OneWaiter a s ∧ Timely a s := by
  refine ⟨?_, ?_⟩
  · rintro t m rfl
    exact of_decide_eq_true h
  · rintro t rfl u m hu hbegan
    have hu' := of_decide_eq_true h u
    rw [inTime, hu] at hu'
    exact of_decide_eq_true hu' hbegan

open scoped Numerals

/-- Bit 0 comes in before the wait for bits 0 and 1, and bit 1 goes out of the mask. -/
def oneBefore : List (Act (Fin 2)) :=
  [.call 1 1, .signal 1, .store 1, .wait 0 3, .announce 0, .take 0, .settle 0, .futexWait 0,
    .call 1 2, .signal 1, .futexWake 1 {0}]

/-- The waiter is back from the kernel, and returns. -/
theorem allsignal_correct_oneBefore : ∃ s : State (Fin 2),
    Leads step (fun a s => OneWaiter a s ∧ Timely a s) init s ∧ s.pc 0 = .check 3 ∧ s.done = 3 ∧
      s.Returns 0 := by
  have hrun : ∃ s ∈ runIf step timelyTest oneBefore init,
      s.pc 0 = .check 3 ∧ s.pc 1 = .idle ∧ s.done = 3 := by decide +kernel
  obtain ⟨s, hs, h₀, h₁, hdone⟩ := hrun
  have htimely := Leads.of_runIf timely_of_test .init hs
  have hleads := Leads.of_runIf (fun a s h => (timely_of_test a s h).1) .init hs
  refine ⟨s, htimely, h₀, hdone, ((allsignal_correct hleads).2 0 3 ?_ ?_ ?_).2.2 htimely⟩
  · rw [h₀]
    rfl
  · rw [hdone]
    rfl
  · exact Fin.forall_fin_two.mpr ⟨by simp [h₀], by simp [h₁]⟩

/-- Bit 0 is to come in, and the wait for it begins. -/
def oneLate : List (Act (Fin 2)) :=
  [.call 1 1, .signal 1, .wait 0 1, .announce 0, .take 0, .settle 0, .futexWait 0, .store 1]

/-- The signal is complete, and the waiter sleeps for ever. -/
theorem oneLate_not_returns : ∃ s : State (Fin 2),
    Leads step OneWaiter init s ∧ (s.pc 0).waitsFor = some 1 ∧ s.done = 1 ∧
      (∀ u m, s.pc u ≠ .wake m) ∧ s.Alone 0 ∧ ¬s.Returns 0 := by
  have hrun : ∃ s ∈ runIf step oneWaiterTest oneLate init,
      s.pc 0 = .asleep 1 ∧ s.pc 1 = .idle ∧ s.done = 1 := by decide +kernel
  obtain ⟨s, hs, h₀, h₁, hdone⟩ := hrun
  have halone : s.Alone 0 := Fin.forall_fin_two.mpr ⟨fun h => absurd rfl h, fun _ => h₁⟩
  refine ⟨s, Leads.of_runIf oneWaiter_of_test .init hs, by rw [h₀]; rfl, hdone,
    Fin.forall_fin_two.mpr ⟨by simp [h₀], by simp [h₁]⟩, halone, fun hreturns => ?_⟩
  obtain ⟨σ, hσ₀, hσ, hruns, hnot⟩ := stays_asleep halone h₀
  obtain ⟨n, hn⟩ := hreturns σ hσ₀ hσ hruns
  exact hnot n hn

/-! ## The kernel's side -/

section Traps

variable {β : Type} [DecidableEq β] {M : Machine ι β} {k : Kernel ι β} {s : State ι} {t : ι} {a : ℕ}
  {m : Word}

/-- **The wake-up trap** is the step, for a kernel that keeps the sleepers at the word of the
mask. -/
theorem futexResume_rouses (ha : Wakeable M k a) (hk : s.sleepers = k.sleepers a)
    (hc : s.pc t = .wake m) : ∃ W k', k.futexResume (some a) 1 = some (.returned (W.card : ℕ), k') ∧
      step (.futexWake t W) s = some (s.rouse t m W) ∧
      (s.rouse t m W).sleepers = k'.sleepers a := by
  obtain ⟨W, k', hk', hW, hleft⟩ := futexResume_threadsAt ha hk 1 Pc.back .idle
    (fun d _ => by cases d <;> rfl) (by rw [hc]; rfl) rfl
  exact ⟨W, k', hk', by rw [step, hc]; exact if_pos hW, hleft⟩

theorem futexWait_sleeps {h : ℕ} {r1 : Word} (ha : MayWait M k h t a)
    (hk : s.sleepers = k.sleepers a) (hc : s.pc t = .block m r1) :
    ∃ s', step (.futexWait t) s = some s' ∧ k.WaitLeaves M h t a s.waiting r1 s'.sleepers := by
  exact ⟨_, by rw [step, hc], futexWait_threadsAt ha hk (by rw [hc]; rfl) rfl rfl⟩

end Traps

end H2.Allsignal
