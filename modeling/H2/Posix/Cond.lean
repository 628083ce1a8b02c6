import H2.Machinery.Progress
import H2.Posix.Sem

/-!
# Posix/Cond — the condition variable

The word of a condition variable has a count in its lower half and the number of waiters in its
upper half.  A waiter reads the count before it gives the mutex back, adds itself to the waiters if
the count is still the same, and sleeps on the word; woken, it sleeps again unless the count has
changed.  A signal counts up in one step and, if there are waiters, has the kernel wake one in
another.

The kernel wakes who is first in the queue, and that is by priority.  Whoever begins to wait between
the two steps of a signal, and is better than those that waited before, is woken in their place —
and goes back to sleep, for the count it has read is the new one (`Overtaken`).  The signal then is
lost; and only then (`cond_signal_correct`).
-/

namespace H2.Cond

open Function

open Sem (low high halves low_halves high_halves high_lt low_lt)
open Hexagon (Word)

variable {ι : Type} [dι : DecidableEq ι]

/-! ## The functions, up to a trap or the return -/

/-- `vaddh(Rs,Rt)`. -/
def vaddh (x y : Word) : Word :=
  halves ((high x + high y) % 0x10000) ((low x + low y) % 0x10000)

/-- `cmph.eq(Rs,Rt)`, on the lower halves. -/
def cmph (x y : Word) : Bool := low x = low y

/-- `ADDVAL_SAV`. -/
def addval : Word := 0x00010000

/-- Where a thread is. -/
inductive Pc where
  /-- In none of the functions, or past its wait and on its way to the mutex. -/
  | out
  /-- In a wait with `CONDVAL_SAV`, up to the first store. -/
  | enter (condval : Word)
  /-- At label 2, on its way to the kernel with `r1`. -/
  | block (condval r1 : Word)
  /-- In the futex queue. -/
  | asleep (condval : Word)
  /-- Back from the kernel. -/
  | look (condval : Word)
  /-- In a signal at `.Ldo_trap`, for so many. -/
  | wake (n : ℕ)
  deriving DecidableEq

/-- The thread is counted among the waiters. -/
@[grind =] def Pc.counted : Pc → Bool
  | .block .. | .asleep _ | .look _ => true
  | .out | .enter _ | .wake _ => false

@[grind =] def Pc.sleeps : Pc → Bool
  | .asleep _ => true
  | _ => false

/-- `CONDVAL_SAV`. -/
@[grind =] def Pc.saved : Pc → Option Word
  | .enter c | .block c _ | .asleep c | .look c => some c
  | .out | .wake _ => none

/-- Where a sleeper goes on. -/
@[grind =] def Pc.back : Pc → Pc
  | .block c _ | .asleep c => .look c
  | c => c

/-- A condition variable and its threads. -/
structure State (ι : Type) where
  pc : ι → Pc
  /-- The futex queue, in the order in which it is woken. -/
  queue : List ι
  word : Word
  /-- How many signals there have been, … -/
  bumps : ℕ
  /-- … and how many when the thread's last wait began. -/
  stamp : ι → ℕ
  /-- For the thread's last signal: how many signals there were with it, … -/
  since : ι → ℕ
  /-- … who was counted then and has not left its wait, … -/
  seen : ι → Finset ι
  /-- … and whether one of these has. -/
  served : ι → Bool

/-- `H2K_futex_hash_add_ring`, on the queue of the word: behind those that are as good. -/
def enqueue (prio : ι → ℕ) (t : ι) (q : List ι) : List ι :=
  q.takeWhile (fun u => prio u ≤ prio t) ++ t :: q.dropWhile fun u => prio u ≤ prio t

namespace State

@[simps] def goto (t : ι) (c : Pc) (s : State ι) : State ι :=
  { s with pc := update s.pc t c }

/-- A wait begins: the count is read, with the mutex held. -/
@[simps] def wait (t : ι) (s : State ι) : State ι :=
  { s with
    pc := update s.pc t (.enter s.word)
    stamp := update s.stamp t s.bumps }

/-- The thread is counted, if no signal has been made while it gave the mutex back. -/
def enter (t : ι) (condvalSav : Word) (s : State ι) : State ι :=
  if cmph condvalSav s.word then
    { s with word := s.word + addval }.goto t (.block condvalSav (s.word + addval))
  else s.goto t .out

@[simps] def leave (t : ι) (s : State ι) : State ι :=
  { s with
    word := s.word - addval
    pc := update s.pc t .out
    seen := fun u => (s.seen u).erase t
    served := fun u => s.served u || decide (t ∈ s.seen u) }

/-- After the trap; the packet compares the word as it was loaded, and keeps that for another
wait. -/
def look (t : ι) (condvalSav : Word) (s : State ι) : State ι :=
  if cmph s.word condvalSav then s.goto t (.block condvalSav s.word) else s.leave t

@[simps] def sleep (prio : ι → ℕ) (t : ι) (condvalSav : Word) (s : State ι) : State ι :=
  { s with
    queue := enqueue prio t s.queue
    pc := update s.pc t (.asleep condvalSav) }

/-- The waiting trap comes back for another reason. -/
@[simps] def rouse (t : ι) (s : State ι) : State ι :=
  { s with
    queue := s.queue.erase t
    pc := update s.pc t (s.pc t).back }

/-- `H2_TRAP_FUTEX_WAKE` for the first `n`. -/
@[simps] def futexWake (t : ι) (n : ℕ) (s : State ι) : State ι :=
  { s with
    queue := s.queue.drop n
    pc := update (fun u => if u ∈ s.queue.take n then (s.pc u).back else s.pc u) t .out }

variable [fι : Fintype ι]

/-- The waiters that are counted. -/
def counted (s : State ι) : Finset ι := threadsAt Pc.counted s.pc

/-- `.Lpthread_cond_signal_n`, up to the trap. -/
@[simps] def signal (t : ι) (n : ℕ) (s : State ι) : State ι :=
  { s with
    word := vaddh 1 s.word
    pc := update s.pc t (if s.word >>> 16 = 0 then .out else .wake n)
    bumps := s.bumps + 1
    since := update s.since t (s.bumps + 1)
    seen := update s.seen t s.counted
    served := update s.served t false }

attribute [grind =] goto_pc wait_pc leave_pc sleep_pc rouse_pc futexWake_pc signal_pc

end State

inductive Act (ι : Type) where
  | wait (t : ι)
  | enter (t : ι)
  /-- `H2_TRAP_FUTEX_WAIT`. -/
  | futexWait (t : ι)
  /-- The trap comes back for another reason, with or without having slept. -/
  | spurious (t : ι)
  | look (t : ι)
  /-- `pthread_cond_broadcast` or `pthread_cond_signal`. -/
  | signal (t : ι) (broadcast : Bool)
  /-- `H2_TRAP_FUTEX_WAKE`; a trap that fails changes nothing, and is taken again. -/
  | futexWake (t : ι)

def Act.thread : Act ι → ι
  | .wait t | .enter t | .futexWait t | .spurious t | .look t | .signal t _ | .futexWake t => t

variable [fι : Fintype ι]

def step (prio : ι → ℕ) : Act ι → State ι → Option (State ι)
  | .wait t, s => if s.pc t = .out then some (s.wait t) else none
  | .enter t, s =>
    match s.pc t with
    | .enter c => some (s.enter t c)
    | _ => none
  | .futexWait t, s =>
    match s.pc t with
    | .block c r1 => some (if s.word = r1 then s.sleep prio t c else s.goto t (.look c))
    | _ => none
  | .spurious t, s =>
    match s.pc t with
    | .block .. | .asleep _ => some (s.rouse t)
    | _ => none
  | .look t, s =>
    match s.pc t with
    | .look c => some (s.look t c)
    | _ => none
  | .signal t broadcast, s =>
    if s.pc t = .out then some (s.signal t (if broadcast then 0x7fff else 1)) else none
  | .futexWake t, s =>
    match s.pc t with
    | .wake n => some (s.futexWake t n)
    | _ => none

/-- Where a step leads. -/
inductive Goes (prio : ι → ℕ) (s : State ι) : Act ι → State ι → Prop
  | wait {t : ι} (ht : s.pc t = .out) : Goes prio s (.wait t) (s.wait t)
  | enter {t : ι} {c : Word} (ht : s.pc t = .enter c) : Goes prio s (.enter t) (s.enter t c)
  | sleep {t : ι} {c : Word} (ht : s.pc t = .block c s.word) :
      Goes prio s (.futexWait t) (s.sleep prio t c)
  | fail {t : ι} {c r1 : Word} (ht : s.pc t = .block c r1) (hne : s.word ≠ r1) :
      Goes prio s (.futexWait t) (s.goto t (.look c))
  | spurious {t : ι} (ht : (∃ c r1, s.pc t = .block c r1) ∨ ∃ c, s.pc t = .asleep c) :
      Goes prio s (.spurious t) (s.rouse t)
  | look {t : ι} {c : Word} (ht : s.pc t = .look c) : Goes prio s (.look t) (s.look t c)
  | signal {t : ι} {b : Bool} (ht : s.pc t = .out) :
      Goes prio s (.signal t b) (s.signal t (if b then 0x7fff else 1))
  | futexWake {t : ι} {n : ℕ} (ht : s.pc t = .wake n) :
      Goes prio s (.futexWake t) (s.futexWake t n)

theorem goes_of_step {prio : ι → ℕ} {a : Act ι} {s s' : State ι} (hstep : step prio a s = some s') :
    Goes prio s a s' := by
  cases a <;> rw [step] at hstep <;> grind [Goes]

/-- Fewer than 65536 signals. -/
def Few (a : Act ι) (s : State ι) : Prop := ∀ t b, a = .signal t b → s.bumps + 1 < 0x10000

/-- `pthread_cond_init`. -/
def init : State ι where
  word := 0
  queue := []
  pc _ := .out
  bumps := 0
  stamp _ := 0
  since _ := 0
  seen _ := ∅
  served _ := false

/-! ## The halves of the word -/

section Halves

variable (w : Word)

theorem halves_add : low (w + addval) = low w ∧ high (w + addval) = (high w + 1) % 0x10000 := by
  have hw := w.isLt
  have hadd : (w + addval).toNat = (w.toNat + 0x10000) % 2 ^ 32 := BitVec.toNat_add ..
  unfold low high
  omega

theorem halves_sub :
    low (w - addval) = low w ∧ high (w - addval) = (high w + 0xffff) % 0x10000 := by
  have hw := w.isLt
  have hsub : (w - addval).toNat = (2 ^ 32 - 0x10000 + w.toNat) % 2 ^ 32 := BitVec.toNat_sub ..
  unfold low high
  omega

theorem halves_vaddh : low (vaddh 1 w) = (low w + 1) % 0x10000 ∧ high (vaddh 1 w) = high w := by
  have hlow : low (1 : Word) = 1 := rfl
  have hhigh : high (1 : Word) = 0 := rfl
  have hw := high_lt w
  unfold vaddh
  rw [low_halves (Nat.mod_lt _ (by decide)),
    high_halves (Nat.mod_lt _ (by decide)) (Nat.mod_lt _ (by decide)), hlow, hhigh]
  omega

theorem shift_eq_zero_iff : w >>> 16 = 0 ↔ high w = 0 := by
  have hshift : (w >>> 16).toNat = w.toNat / 2 ^ 16 := by
    rw [BitVec.toNat_ushiftRight, Nat.shiftRight_eq_div_pow]
  rw [← BitVec.toNat_inj, hshift]
  rfl

end Halves

/-! ## The queue -/

section Queue

omit dι fι

variable {prio : ι → ℕ} {t : ι} {q q' : List ι}

theorem enqueue_cons_of_le {u : ι} (h : prio u ≤ prio t) :
    enqueue prio t (u :: q) = u :: enqueue prio t q := by simp [enqueue, h]

theorem enqueue_cons_of_lt {u : ι} (h : prio t < prio u) :
    enqueue prio t (u :: q) = t :: u :: q := by simp [enqueue, Nat.not_le.mpr h]

/-- **Joining the queue.** -/
theorem enqueue_inserts : ∀ {q : List ι}, q.Pairwise (prio · ≤ prio ·) →
    Inserts prio t q (enqueue prio t q)
  | [], _ => ⟨[], [], rfl, rfl, nofun, nofun⟩
  | u :: q, hq => by
      obtain ⟨hu, hq⟩ := List.pairwise_cons.mp hq
      rcases Nat.lt_or_ge (prio t) (prio u) with hlt | hle
      · refine ⟨[], u :: q, rfl, enqueue_cons_of_lt hlt, nofun, fun b hb => ?_⟩
        rcases List.mem_cons.mp hb with rfl | hb
        · exact hlt
        · exact hlt.trans_le (hu b hb)
      · obtain ⟨A, B, hAB, henq, hA, hB⟩ := enqueue_inserts hq
        refine ⟨u :: A, B, by rw [hAB]; rfl, by rw [enqueue_cons_of_le hle, henq]; rfl,
          fun a ha => ?_, hB⟩
        rcases List.mem_cons.mp ha with rfl | ha
        · exact hle
        · exact hA a ha

/-- … in the one place there is for it. -/
theorem enqueue_of_inserts (h : Inserts prio t q q') : q' = enqueue prio t q := by
  obtain ⟨A, B, rfl, rfl, hA, hB⟩ := h
  induction A with
  | nil =>
    cases B with
    | nil => rfl
    | cons b B => exact (enqueue_cons_of_lt (hB b (List.mem_cons_self ..))).symm
  | cons a A ih =>
    rw [List.cons_append, List.cons_append, enqueue_cons_of_le (hA a (List.mem_cons_self ..)),
      ← ih fun x hx => hA x (List.mem_cons_of_mem _ hx)]

end Queue

/-! ## The invariant -/

/-- **What holds between the steps.** -/
structure Inv (prio : ι → ℕ) (s : State ι) : Prop where
  nodup : s.queue.Nodup
  sorted : s.queue.Pairwise (prio · ≤ prio ·)
  queue : ∀ t, t ∈ s.queue ↔ (s.pc t).sleeps
  few : s.bumps < 0x10000
  low : low s.word = s.bumps
  high : high s.word = s.counted.card % 0x10000
  saved : ∀ t c, (s.pc t).saved = some c → Sem.low c = s.stamp t
  stamp : ∀ t, s.stamp t ≤ s.bumps
  block : ∀ t c r1, s.pc t = .block c r1 → Sem.low r1 = Sem.low c
  since : ∀ u, s.since u ≤ s.bumps
  /-- Those a signal has seen are counted, and have read an older count; … -/
  seen : ∀ u, ∀ w ∈ s.seen u, (s.pc w).counted ∧ s.stamp w < s.since u
  /-- … all others that are counted have read a newer one, … -/
  unseen : ∀ u x, (s.pc x).counted → x ∉ s.seen u → s.since u ≤ s.stamp x
  /-- … and are behind those in the queue, unless they are better. -/
  ahead : ∀ u w x, w ∈ s.seen u → x ∉ s.seen u → w ∈ s.queue → x ∈ s.queue → prio w ≤ prio x →
    [w, x].Sublist s.queue
  /-- A signal on its way to the kernel has seen somebody, who waits unless one has left. -/
  left : ∀ u n, s.pc u = .wake n → s.served u = false → (s.seen u).Nonempty

section Steps

variable {prio : ι → ℕ} {s s' : State ι} {t : ι} {c : Pc} {condvalSav r1 : Word} {n : ℕ}

section

omit dι

theorem inv_init : Inv prio (init : State ι) where
  nodup := .nil
  sorted := .nil
  queue t := by simp [init, Pc.sleeps]
  few := by simp [init]
  low := rfl
  high := by
    have : (init : State ι).counted = ∅ := by
      ext t
      simp [State.counted, init, Pc.counted]
    rw [this, Finset.card_empty]
    exact (rfl : Sem.high (0 : Word) = 0)
  saved t c h := by cases h
  stamp t := Nat.le_refl _
  block t c r1 h := by cases h
  since u := Nat.le_refl _
  seen u w h := absurd h (Finset.notMem_empty w)
  unseen u x h := by cases h
  ahead u w x h := absurd h (Finset.notMem_empty w)
  left u n h := by cases h

/-- A thread that has not seen the last signal does not go to sleep. -/
theorem Inv.fresh (h : Inv prio s) (ht : s.pc t = .block condvalSav s.word) :
    s.stamp t = s.bumps := by
  rw [← h.saved t condvalSav (by rw [ht]; rfl), ← h.block t condvalSav s.word ht, h.low]

theorem counted_congr (h : ∀ u, (s'.pc u).counted = (s.pc u).counted) : s'.counted = s.counted := by
  ext u
  rw [State.counted, State.counted, mem_threadsAt, mem_threadsAt, h u]

end

theorem Inv.goto (h : Inv prio s) (hcounted : c.counted = (s.pc t).counted)
    (hup : (s.pc t).sleeps = false) (hup' : c.sleeps = false)
    (hsaved : ∀ c', c.saved = some c' → Sem.low c' = s.stamp t)
    (hblock : ∀ c' r1, c = .block c' r1 → Sem.low r1 = Sem.low c') (hwake : ∀ n, c ≠ .wake n) :
    Inv prio (s.goto t c) := by
  have hcnt : (s.goto t c).counted = s.counted := threadsAt_update_of_eq hcounted
  obtain ⟨⟩ := h
  constructor <;> simp only [State.goto] at * <;> grind

theorem Inv.wait (h : Inv prio s) (ht : s.pc t = .out) : Inv prio (s.wait t) := by
  have hcnt : (s.wait t).counted = s.counted := threadsAt_update_of_eq (by rw [ht]; rfl)
  obtain ⟨⟩ := h
  constructor <;> simp only [State.wait] at * <;> grind

theorem Inv.enter (h : Inv prio s) (ht : s.pc t = .enter condvalSav) :
    Inv prio (s.enter t condvalSav) := by
  have hsaved := h.saved t condvalSav (by rw [ht]; rfl)
  obtain ⟨hlow, hhigh⟩ := halves_add s.word
  unfold State.enter
  split
  · next hcmp =>
    have hfresh : Sem.low condvalSav = Sem.low s.word := of_decide_eq_true hcmp
    generalize s.word + addval = w at hlow hhigh ⊢
    have hnew : t ∉ s.counted := by simp [State.counted, ht, Pc.counted]
    have hcnt : ({ s with word := w }.goto t (.block condvalSav w)).counted = insert t s.counted :=
      threadsAt_update_of_pos rfl
    have hcard := Finset.card_insert_of_notMem hnew
    obtain ⟨⟩ := h
    constructor <;> simp only [State.goto] at * <;> grind
  · exact h.goto (by rw [ht]; rfl) (by rw [ht]; rfl) rfl nofun nofun nofun

theorem Inv.sleep (h : Inv prio s) (ht : s.pc t = .block condvalSav s.word) :
    Inv prio (s.sleep prio t condvalSav) := by
  have hout : t ∉ s.queue := by
    rw [h.queue t, ht]
    nofun
  have hins := enqueue_inserts (t := t) h.sorted
  have hfresh := h.fresh ht
  have hcnt : (s.sleep prio t condvalSav).counted = s.counted :=
    threadsAt_update_of_eq (by rw [ht]; rfl)
  constructor <;> simp only [State.sleep] at *
  case nodup =>
    obtain ⟨A, B, hAB, henq, -⟩ := hins
    rw [henq, List.nodup_middle, ← hAB]
    exact List.nodup_cons.mpr ⟨hout, h.nodup⟩
  case sorted => exact hins.sorted h.sorted
  all_goals
    obtain ⟨⟩ := h
    grind [hins.mem_iff, hins.before, hins.sublist, List.Sublist.trans]

/-- **Threads leave the queue**, and are awake. -/
theorem Inv.shorten (h : Inv prio s) {q : List ι} (hq : q.Sublist s.queue) {pc' : ι → Pc}
    (hback : ∀ u, u ∈ s.queue → u ∉ q → pc' u = (s.pc u).back)
    (hsame : ∀ u, u ∉ s.queue ∨ u ∈ q → pc' u = s.pc u) :
    Inv prio { s with queue := q, pc := pc' } := by
  have hpc (u : ι) : pc' u = s.pc u ∧ (u ∈ q ↔ u ∈ s.queue) ∨
      ∃ c, s.pc u = .asleep c ∧ pc' u = .look c ∧ u ∉ q := by
    have hqueue := h.queue u
    have := hq.subset
    cases hc : s.pc u <;> grind
  have hcnt : State.counted { s with queue := q, pc := pc' } = s.counted := by
    refine counted_congr fun u => ?_
    grind
  constructor <;> simp only at *
  case nodup => exact h.nodup.sublist hq
  case sorted => exact h.sorted.sublist hq
  case ahead =>
    exact fun u w x hw hx hwq hxq hle => sublist_pair_of_sublist h.nodup hq
      (h.ahead u w x hw hx (hq.subset hwq) (hq.subset hxq) hle) hwq hxq
  all_goals
    obtain ⟨⟩ := h
    grind

theorem Inv.rouse (h : Inv prio s)
    (ht : (∃ c r1, s.pc t = .block c r1) ∨ ∃ c, s.pc t = .asleep c) : Inv prio (s.rouse t) := by
  rcases ht with ⟨c, r1, ht⟩ | ⟨c, ht⟩
  · have hout : t ∉ s.queue := by
      rw [h.queue t, ht]
      nofun
    have heq : s.rouse t = s.goto t (.look c) := by
      rw [State.rouse, State.goto, List.erase_of_not_mem hout, ht]
      rfl
    rw [heq]
    exact h.goto (by rw [ht]; rfl) (by rw [ht]; rfl) rfl
      (fun c' hc => h.saved t c' (by rw [ht]; exact hc)) nofun nofun
  · have hin : t ∈ s.queue := (h.queue t).mpr (by rw [ht]; rfl)
    have herase (u : ι) : u ∈ s.queue.erase t ↔ u ≠ t ∧ u ∈ s.queue := h.nodup.mem_erase_iff
    exact h.shorten List.erase_sublist (by grind) (by grind)

theorem Inv.futexWake (h : Inv prio s) (ht : s.pc t = .wake n) : Inv prio (s.futexWake t n) := by
  have hsplit (u : ι) : u ∈ s.queue.take n ↔ u ∈ s.queue ∧ u ∉ s.queue.drop n := by
    have hdisj := List.disjoint_take_drop h.nodup (Nat.le_refl n)
    have hmem : u ∈ s.queue ↔ u ∈ s.queue.take n ∨ u ∈ s.queue.drop n := by
      rw [← List.mem_append, List.take_append_drop]
    exact ⟨fun hu => ⟨hmem.mpr (.inl hu), fun hu' => hdisj hu hu'⟩, fun ⟨hu, hu'⟩ =>
      (hmem.mp hu).resolve_right hu'⟩
  have h₁ : Inv prio { s with
      queue := s.queue.drop n
      pc := fun u => if u ∈ s.queue.take n then (s.pc u).back else s.pc u } :=
    h.shorten (List.drop_sublist ..) (by grind) (by grind)
  have hqueue := h.queue t
  exact h₁.goto (by grind) (by grind) rfl nofun nofun nofun

theorem Inv.leave (h : Inv prio s) (ht : s.pc t = .look condvalSav) : Inv prio (s.leave t) := by
  obtain ⟨hlow, hhigh⟩ := halves_sub s.word
  unfold State.leave
  generalize s.word - addval = w at hlow hhigh ⊢
  have hin : t ∈ s.counted := mem_threadsAt.mpr (by rw [ht]; rfl)
  have hcard := Finset.card_erase_add_one hin
  rw [State.counted, ← threadsAt_update_of_neg (c := .out) rfl] at hcard
  obtain ⟨⟩ := h
  constructor <;> simp only [State.counted] at * <;> grind [Finset.erase_eq_of_notMem]

theorem Inv.look (h : Inv prio s) (ht : s.pc t = .look condvalSav) :
    Inv prio (s.look t condvalSav) := by
  unfold State.look
  split
  · next hcmp =>
    have hsaved : ∀ c', (Pc.block condvalSav s.word).saved = some c' → Sem.low c' = s.stamp t :=
      fun c' hc => h.saved t c' (by rw [ht]; exact hc)
    refine h.goto (by rw [ht]; rfl) (by rw [ht]; rfl) rfl hsaved (fun c' r1 hc => ?_) nofun
    obtain ⟨rfl, rfl⟩ := Pc.block.inj hc
    exact of_decide_eq_true hcmp
  · exact h.leave ht

theorem Inv.signal (h : Inv prio s) (ht : s.pc t = .out) (hfew : s.bumps + 1 < 0x10000) :
    Inv prio (s.signal t n) := by
  obtain ⟨hlow, hhigh⟩ := halves_vaddh s.word
  have hsome (hne : s.word >>> 16 ≠ 0) : s.counted.Nonempty := by
    rw [ne_eq, shift_eq_zero_iff, h.high] at hne
    refine Finset.nonempty_iff_ne_empty.mpr fun hempty => hne ?_
    rw [hempty]
    rfl
  unfold State.signal
  generalize vaddh 1 s.word = w at hlow hhigh ⊢
  have hcnt (c : Pc) (hc : c.counted = false) :
      threadsAt Pc.counted (update s.pc t c) = s.counted :=
    threadsAt_update_of_eq (by rw [hc, ht]; rfl)
  have hsleeps (c : Pc) (hc : c.sleeps) : c.counted := by
    cases c <;> simp_all [Pc.sleeps, Pc.counted]
  obtain ⟨⟩ := h
  constructor <;> simp only [State.counted] at * <;> grind

variable {a : Act ι}

theorem Inv.step (h : Inv prio s) (hfew : Few a s) (hstep : step prio a s = some s') :
    Inv prio s' := by
  cases goes_of_step hstep with
  | wait ht => exact h.wait ht
  | enter ht => exact h.enter ht
  | sleep ht => exact h.sleep ht
  | @fail t c r1 ht _ =>
    exact h.goto (by rw [ht]; rfl) (by rw [ht]; rfl) rfl
      (fun c' hc => h.saved t c' (by rw [ht]; exact hc)) nofun nofun
  | spurious ht => exact h.rouse ht
  | look ht => exact h.look ht
  | signal ht => exact h.signal ht (hfew _ _ rfl)
  | futexWake ht => exact h.futexWake ht

end Steps

end H2.Cond
