import H2.Posix.Sem

/-!
# Compat/Pipe — a bounded queue of double words

A pipe is an array with an index to store at and one to read at, and two semaphores: how many
elements are filled, and how many are empty.  Senders take an empty element and store under a mutex;
receivers take a filled one, and read and move the index on in one atomic step.

An element taken is not an element stored or read yet, and senders may announce theirs in another
order than they have stored them.  The semaphores only count; but counted with the threads that are
between two steps, what is stored is never more than the size ahead of what is read, and never
behind (`Inv.howempty`, `Inv.howfull`).  So the two indices do not cross, and what is read is what
was stored next (`pipe_in_order`).
-/

namespace H2.Pipe

open Function

variable {ι : Type} [dι : DecidableEq ι] [Fintype ι] {size : ℕ}

/-! ## The semaphores, by their values -/

/-- `h2_sem_up`, which fails if the value does not fit. -/
def semUp (value : ℕ) : ℕ := if 0x7ffe < value then value else value + 1

/-! ## The functions, up to a semaphore, the mutex or the index -/

/-- Where a thread is. -/
inductive Pc where
  /-- In none of the functions. -/
  | idle
  /-- In `h2_pipe_send`, before the mutex. -/
  | send (data : BitVec 64)
  /-- In `h2_pipe_send` or `h2_pipe_trysend`, after the mutex. -/
  | sent
  /-- In `h2_pipe_recv` or `h2_pipe_tryrecv`, before `get_recv_data`. -/
  | recv
  /-- After `get_recv_data`. -/
  | received
  deriving DecidableEq

/-- A pipe and its threads, with all that has been stored and read, in order. -/
structure State (ι : Type) where
  howfull : ℕ
  howempty : ℕ
  sendidx : ℕ
  recvidx : ℕ
  data : ℕ → BitVec 64
  pc : ι → Pc
  stored : List (BitVec 64)
  read : List (BitVec 64)

namespace State

@[simps] def goto (t : ι) (c : Pc) (s : State ι) : State ι := { s with pc := update s.pc t c }

/-- What is done under the mutex. -/
@[simps] def store (size : ℕ) (v : BitVec 64) (s : State ι) : State ι :=
  { s with
    sendidx := if s.sendidx = size - 1 then 0 else s.sendidx + 1
    data := update s.data s.sendidx v
    stored := s.stored ++ [v] }

/-- `get_recv_data`.  The address is formed with the index as it was before the packet. -/
@[simps] def getRecvData (size : ℕ) (s : State ι) : State ι :=
  { s with
    recvidx := if s.recvidx < size - 1 then s.recvidx + 1 else 0
    read := s.read ++ [s.data s.recvidx] }

end State

open State

inductive Act (ι : Type) where
  /-- `h2_sem_down(&pipe->howempty)` of `h2_pipe_send`. -/
  | send (t : ι) (data : BitVec 64)
  /-- The mutex section of `h2_pipe_send`. -/
  | store (t : ι)
  /-- The mutex section of `h2_pipe_trysend`. -/
  | trysend (t : ι) (data : BitVec 64)
  /-- `h2_sem_up(&pipe->howfull)`. -/
  | filled (t : ι)
  /-- `h2_sem_down(&pipe->howfull)` of `h2_pipe_recv`, … -/
  | recv (t : ι)
  /-- … and `h2_sem_trydown` of `h2_pipe_tryrecv`. -/
  | tryrecv (t : ι)
  /-- `get_recv_data`. -/
  | read (t : ι)
  /-- `h2_sem_up(&pipe->howempty)`. -/
  | emptied (t : ι)

/-- **One atomic step.**  A `h2_pipe_trysend` or `h2_pipe_tryrecv` that fails changes nothing. -/
def step (size : ℕ) : Act ι → State ι → Option (State ι)
  | .send t data, s =>
    if s.pc t = .idle ∧ s.howempty ≠ 0 then
      some ({ s with howempty := s.howempty - 1 }.goto t (.send data))
    else none
  | .store t, s =>
    match s.pc t with
    | .send data => some ((s.store size data).goto t .sent)
    | _ => none
  | .trysend t data, s =>
    if s.pc t ≠ .idle then none
    else if s.howempty = 0 then some s
    else some (({ s with howempty := s.howempty - 1 }.store size data).goto t .sent)
  | .filled t, s =>
    if s.pc t = .sent then some ({ s with howfull := semUp s.howfull }.goto t .idle) else none
  | .recv t, s =>
    if s.pc t = .idle ∧ s.howfull ≠ 0 then
      some ({ s with howfull := s.howfull - 1 }.goto t .recv)
    else none
  | .tryrecv t, s =>
    if s.pc t ≠ .idle then none
    else if s.howfull = 0 then some s
    else some ({ s with howfull := s.howfull - 1 }.goto t .recv)
  | .read t, s => if s.pc t = .recv then some ((s.getRecvData size).goto t .received) else none
  | .emptied t, s =>
    if s.pc t = .received then some ({ s with howempty := semUp s.howempty }.goto t .idle) else none

/-- `h2_pipe_create`. -/
def create (size : ℕ) (data : ℕ → BitVec 64) : State ι where
  howfull := 0
  howempty := size
  sendidx := 0
  recvidx := 0
  data := data
  pc _ := .idle
  stored := []
  read := []

/-! ## Counting -/

/-- The thread has an empty element to fill, … -/
def Pc.isSend : Pc → Bool
  | .send _ => true
  | _ => false

/-- … or is at `d`: it has filled an element or read one and not said so, or has one to read. -/
def Pc.is (d c : Pc) : Bool := decide (c = d)

/-- How many threads are at a place. -/
def count (p : Pc → Bool) (s : State ι) : ℕ := (threadsAt p s.pc).card

/-- What holds between the steps. -/
structure Inv (size : ℕ) (s : State ι) : Prop where
  sendidx : s.sendidx = s.stored.length % size
  recvidx : s.recvidx = s.read.length % size
  /-- Every element is empty, about to be filled, in flight, or about to be empty. -/
  howempty : s.howempty + s.stored.length + count Pc.isSend s + count (Pc.is .received) s =
    size + s.read.length
  /-- What is in flight has been announced or is about to be, and not been taken. -/
  howfull : s.howfull + s.read.length + count (Pc.is .recv) s + count (Pc.is .sent) s =
    s.stored.length
  /-- What has been read is what was stored, in order, … -/
  read : s.read <+: s.stored
  /-- … and what has not been read is in the array. -/
  data : ∀ i v, s.read.length ≤ i → s.stored[i]? = some v → s.data (i % size) = v

omit dι in
theorem inv_create (size : ℕ) (data : ℕ → BitVec 64) : Inv size (create size data : State ι) := by
  constructor <;> simp [count, threadsAt, create, Pc.isSend, Pc.is]

/-! ## The indices -/

theorem next_mod (hsize : 1 ≤ size) (n : ℕ) :
    (n + 1) % size = if n % size = size - 1 then 0 else n % size + 1 := by
  have hlt := Nat.mod_lt n hsize
  rw [← Nat.mod_add_mod]
  split
  · rw [show n % size + 1 = size by omega, Nat.mod_self]
  · exact Nat.mod_eq_of_lt (by omega)

theorem mod_ne {i j : ℕ} (hij : i < j) (hnear : j < i + size) : i % size ≠ j % size := by
  intro heq
  have hzero := Nat.sub_mod_eq_zero_of_mod_eq heq.symm
  rw [Nat.mod_eq_of_lt (by omega)] at hzero
  omega

section Steps

variable {s s' : State ι} {t : ι} {c : Pc}

theorem count_goto (hc : s.pc t = c) (c' : Pc) (p : Pc → Bool) :
    count p (s.goto t c') + (p c).toNat = count p s + (p c').toNat := by
  rw [← hc]
  exact card_threadsAt_update p s.pc t c'

omit dι in
theorem count_pos {p : Pc → Bool} (hc : s.pc t = c) (hp : p c = true) : 0 < count p s :=
  Finset.card_pos.mpr ⟨t, mem_threadsAt.mpr (hc ▸ hp)⟩

theorem semUp_of_lt {value : ℕ} (h : value < 0x7fff) : semUp value = value + 1 :=
  if_neg (by omega)

/-- **Semaphores go up and down** with the places of the threads. -/
theorem Inv.tokens (hs : Inv size s) (hc : s.pc t = c) {c' : Pc} {howempty howfull : ℕ}
    (hempty : howempty + (Pc.isSend c').toNat + (Pc.is .received c').toNat =
      s.howempty + (Pc.isSend c).toNat + (Pc.is .received c).toNat)
    (hfull : howfull + (Pc.is .recv c').toNat + (Pc.is .sent c').toNat =
      s.howfull + (Pc.is .recv c).toNat + (Pc.is .sent c).toNat) :
    Inv size ({ s with howempty := howempty, howfull := howfull }.goto t c') := by
  have hcount (p : Pc → Bool) :
      count p ({ s with howempty := howempty, howfull := howfull }.goto t c') + (p c).toNat =
        count p s + (p c').toNat := count_goto hc c' p
  have h₁ := hcount Pc.isSend
  have h₂ := hcount (Pc.is .sent)
  have h₃ := hcount (Pc.is .recv)
  have h₄ := hcount (Pc.is .received)
  have he := hs.howempty
  have hf := hs.howfull
  exact ⟨hs.sendidx, hs.recvidx, by simp only [goto] at *; omega,
    by simp only [goto] at *; omega, hs.read, hs.data⟩

/-- **A store**, by a thread that has an empty element or takes one. -/
theorem Inv.store (hsize : 1 ≤ size) (hs : Inv size s) (hc : s.pc t = c) {howempty : ℕ}
    (hempty : howempty + 1 = s.howempty + (Pc.isSend c).toNat)
    (hother : Pc.is .sent c = false ∧ Pc.is .recv c = false ∧ Pc.is .received c = false)
    (v : BitVec 64) : Inv size (({ s with howempty := howempty }.store size v).goto t .sent) := by
  have hcount (p : Pc → Bool) :
      count p (({ s with howempty := howempty }.store size v).goto t .sent) + (p c).toNat =
        count p s + (p .sent).toNat := count_goto hc .sent p
  have h₁ : _ + _ = _ + 0 := hcount Pc.isSend
  have h₂ : _ + _ = _ + 1 := hcount (Pc.is .sent)
  have h₃ : _ + _ = _ + 0 := hcount (Pc.is .recv)
  have h₄ : _ + _ = _ + 0 := hcount (Pc.is .received)
  rw [hother.1] at h₂
  rw [hother.2.1] at h₃
  rw [hother.2.2] at h₄
  simp only [Bool.toNat_false] at h₂ h₃ h₄
  have he := hs.howempty
  have hf := hs.howfull
  -- the element it stores in is not in flight
  refine ⟨?_, hs.recvidx, ?_, ?_, hs.read.trans (List.prefix_append ..), fun i w hi hw => ?_⟩
  · simp only [goto_sendidx, store_sendidx, goto_stored, store_stored,
      List.length_append, List.length_singleton]
    rw [next_mod hsize, hs.sendidx]
  · simp only [goto_howempty, store_howempty, goto_stored, store_stored,
      goto_read, store_read, List.length_append, List.length_singleton]
    omega
  · simp only [goto_howfull, store_howfull, goto_stored, store_stored,
      goto_read, store_read, List.length_append, List.length_singleton]
    omega
  · simp only [goto_stored, store_stored, goto_read, store_read, goto_data, store_data] at hi hw ⊢
    rw [hs.sendidx]
    rcases Nat.lt_trichotomy i s.stored.length with hlt | rfl | hgt
    · rw [List.getElem?_append_left hlt] at hw
      rw [update_of_ne (mod_ne hlt (by omega))]
      exact hs.data i w hi hw
    · rw [List.getElem?_concat_length] at hw
      rw [update_self]
      exact Option.some.inj hw
    · rw [List.getElem?_eq_none (by rw [List.length_append]; exact hgt)] at hw
      cases hw

/-- **A read** gets what was stored next. -/
theorem Inv.getRecvData (hsize : 1 ≤ size) (hs : Inv size s) (hc : s.pc t = .recv) :
    Inv size ((s.getRecvData size).goto t .received) := by
  have hcount (p : Pc → Bool) : count p ((s.getRecvData size).goto t .received) + (p .recv).toNat =
      count p s + (p .received).toNat := count_goto hc .received p
  have h₁ : _ + 0 = _ + 0 := hcount Pc.isSend
  have h₂ : _ + 0 = _ + 0 := hcount (Pc.is .sent)
  have h₃ : _ + 1 = _ + 0 := hcount (Pc.is .recv)
  have h₄ : _ + 0 = _ + 1 := hcount (Pc.is .received)
  have he := hs.howempty
  have hf := hs.howfull
  have hlt : s.read.length < s.stored.length := by omega
  have hnext : s.data s.recvidx = s.stored[s.read.length] := by
    rw [hs.recvidx]
    exact hs.data _ _ le_rfl (List.getElem?_eq_getElem hlt)
  refine ⟨hs.sendidx, ?_, ?_, ?_, ?_, fun i w hi hw => hs.data i w ?_ hw⟩
  · simp only [goto_recvidx, getRecvData_recvidx, goto_read, getRecvData_read,
      List.length_append, List.length_singleton]
    have hidx := Nat.mod_lt s.read.length hsize
    rw [next_mod hsize, hs.recvidx]
    split <;> split <;> omega
  · simp only [goto_howempty, getRecvData_howempty, goto_stored,
      getRecvData_stored, goto_read, getRecvData_read, List.length_append,
      List.length_singleton]
    omega
  · simp only [goto_howfull, getRecvData_howfull, goto_stored,
      getRecvData_stored, goto_read, getRecvData_read, List.length_append,
      List.length_singleton]
    omega
  · have htake := List.prefix_iff_eq_take.mp hs.read
    simp only [goto_read, getRecvData_read, goto_stored]
    have hread := congrArg (· ++ [s.stored[s.read.length]]) htake
    rw [List.take_concat_get' _ _ hlt] at hread
    rw [hnext, hread]
    exact List.take_prefix ..
  · simp only [goto_read, getRecvData_read, List.length_append] at hi
    omega

theorem Inv.step (hsize : 1 ≤ size) (hmax : size ≤ 0x7fff) (hs : Inv size s) {a : Act ι}
    (hstep : Pipe.step size a s = some s') : Inv size s' := by
  have he := hs.howempty
  have hf := hs.howfull
  cases a with
  | send t data =>
    obtain ⟨hc, ⟨⟩⟩ := Option.ite_none_right_eq_some.mp hstep
    have hdown : s.howempty - 1 + 1 + 0 = s.howempty + 0 + 0 := by have := hc.2; omega
    exact hs.tokens hc.1 hdown rfl
  | store t =>
    cases hc : s.pc t <;> rw [Pipe.step, hc] at hstep <;> cases hstep
    exact hs.store hsize hc rfl ⟨rfl, rfl, rfl⟩ _
  | trysend t data =>
    obtain ⟨hc, hstep⟩ := Option.ite_none_left_eq_some.mp hstep
    split at hstep <;> cases hstep
    · exact hs
    · next hempty =>
      exact hs.store hsize (not_not.mp hc) (Nat.sub_add_cancel (Nat.pos_of_ne_zero hempty))
        ⟨rfl, rfl, rfl⟩ data
  | filled t =>
    obtain ⟨hc, ⟨⟩⟩ := Option.ite_none_right_eq_some.mp hstep
    have hpos : 0 < count (Pc.is .sent) s := count_pos hc rfl
    rw [semUp_of_lt (by omega)]
    exact hs.tokens hc rfl rfl
  | recv t =>
    obtain ⟨hc, ⟨⟩⟩ := Option.ite_none_right_eq_some.mp hstep
    have hdown : s.howfull - 1 + 1 + 0 = s.howfull + 0 + 0 := by have := hc.2; omega
    exact hs.tokens hc.1 rfl hdown
  | tryrecv t =>
    obtain ⟨hc, hstep⟩ := Option.ite_none_left_eq_some.mp hstep
    split at hstep <;> cases hstep
    · exact hs
    · have hdown : s.howfull - 1 + 1 + 0 = s.howfull + 0 + 0 := by omega
      exact hs.tokens (not_not.mp hc) rfl hdown
  | read t =>
    obtain ⟨hc, ⟨⟩⟩ := Option.ite_none_right_eq_some.mp hstep
    exact hs.getRecvData hsize hc
  | emptied t =>
    obtain ⟨hc, ⟨⟩⟩ := Option.ite_none_right_eq_some.mp hstep
    have hpos : 0 < count (Pc.is .received) s := count_pos hc rfl
    rw [semUp_of_lt (by omega)]
    exact hs.tokens hc rfl rfl

end Steps

/-- **A pipe delivers in order, and once**, whatever its size and its threads do.  What has been
read is the beginning of what has been stored; no more than the size is in flight; and all that is
in flight is in the array, where nothing has been stored over it. -/
theorem pipe_in_order (hsize : 1 ≤ size) (hmax : size ≤ 32767) (data : ℕ → BitVec 64) {s : State ι}
    (hs : Leads (step size) (fun _ _ => True) (create size data) s) :
    s.read <+: s.stored ∧ s.stored.length ≤ s.read.length + size ∧
      ∀ i v, s.read.length ≤ i → s.stored[i]? = some v → s.data (i % size) = v := by
  have hinv : Inv size s :=
    hs.invariant (inv_create size data) fun hi _ hstep => hi.step hsize hmax hstep
  have := hinv.howempty
  exact ⟨hinv.read, by omega, hinv.data⟩

open scoped Numerals

/-- Two senders fill a pipe of two, the second announces first, and a receiver reads. -/
def announcedLate : List (Act (Fin 3)) :=
  [.send 0 7, .send 1 8, .store 0, .store 1, .filled 1, .recv 2, .read 2, .emptied 2, .trysend 2 9]

/-- What is read is what was stored first, and the pipe goes round. -/
theorem pipe_in_order_announcedLate : ∃ s : State (Fin 3),
    Leads (step 2) (fun _ _ => True) (create 2 fun _ => 0) s ∧ s.read = [7] ∧
      s.stored = [7, 8, 9] ∧ s.read <+: s.stored ∧ s.data (2 % 2) = 9 := by
  have hrun : ∃ s ∈ runIf (step 2) (fun _ _ => true) announcedLate (create 2 fun _ => 0),
      s.read = [7] ∧ s.stored = [7, 8, 9] := by decide +kernel
  obtain ⟨s, hs, hread, hstored⟩ := hrun
  have hleads := Leads.of_runIf (fun _ _ _ => trivial) .init hs
  obtain ⟨hstarts, -, hdata⟩ := pipe_in_order (by decide) (by decide) _ hleads
  exact ⟨s, hleads, hread, hstored, hstarts, hdata 2 9 (by simp [hread]) (by simp [hstored])⟩

end H2.Pipe
