import H2.Futex.Resume
import H2.Kernel.Order

/-!
# Kernel/Mutex — the lock that passes on priority

A mutex is a word.  It is 0, or it holds the id of its owner, and bit 0 is set when somebody may be
waiting in the kernel.  A thread takes a free mutex and gives up one that nobody waits for without
the kernel's help, by an atomic change of the word; otherwise it asks the kernel, which writes the
word too.  Who owns the mutex is not written down anywhere else: it is for the threads to know, each
from what its own operation came back with.

Here ownership is kept beside the word, as each thread would know it, and the two are shown to agree
in any interleaving.
-/

namespace H2

open Kernel Option

variable {ι β : Type} [dι : DecidableEq ι] [dβ : DecidableEq β] [fι : Fintype ι]

/-- The bits of an `H2K_id_t`. -/
def Machine.idWord (M : Machine ι β) (t : ι) : ℕ :=
  (M.vmidx (M.vmblock t) * 0x4000000 + M.cpuidx t * 0x400) % 0x100000000

/-- A mutex and the kernel: the word, and the threads that believe they own it. -/
structure Mutex (ι β : Type) where
  kernel : Kernel ι β
  word : ℕ
  owners : Finset ι

/-- What the thread on a hardware thread does about the mutex, or any other step. -/
inductive MutexOp (ι β : Type) where
  /-- The fast paths. -/
  | lock
  | unlock
  /-- The traps, with the translation of the word's address that is found. -/
  | lockPi (lock : Access)
  | unlockPi (lock : Access)
  | other (op : Op ι β)

namespace Mutex

/-- `pthread_plainmutex_lock_id_canfail_np`, up to its trap. -/
def plainmutexLock (M : Machine ι β) (me : ι) (m : Mutex ι β) : Mutex ι β :=
  if m.word = 0 then { m with word := M.idWord me, owners := insert me m.owners } else m

/-- `pthread_plainmutex_unlock_id_canfail_np`, up to its trap. -/
def plainmutexUnlock (M : Machine ι β) (me : ι) (m : Mutex ι β) : Mutex ι β :=
  if m.word = M.idWord me then { m with word := 0, owners := m.owners.erase me } else m

/-- `H2K_futex_lock_pi`, with what it writes to the word.  A thread to which it returns 0 owns the
mutex. -/
def lockPi (M : Machine ι β) (lock : Access) (h : ℕ) (me : ι) (m : Mutex ι β) :
    Option (Mutex ι β) :=
  (m.kernel.exec M h (.trap (.futexLockPi lock m.word))).map fun p =>
    { kernel := p.2
      word :=
        if m.kernel.threads.vmwork me = true ∨ lock.safemem safememRw = none then m.word
        else if m.word ||| 1 = 1 then M.idWord me
        else m.word ||| 1
      owners := if p.1 = .returned 0 then insert me m.owners else m.owners }

/-- `H2K_futex_unlock_pi`, with what it writes to the word.  The thread it makes ready owns the
mutex. -/
def unlockPi (M : Machine ι β) (lock : Access) (h : ℕ) (me : ι) (m : Mutex ι β) :
    Option (Mutex ι β) :=
  (m.kernel.exec M h (.trap (.futexUnlockPi lock))).bind fun p =>
    match lock.safemem safememRw with
    | none => some { m with kernel := p.2 }
    | some a =>
      (m.kernel.sched.futexHashRemoveOne (a / 4 % 0x100000000) (futexHashval (a / 4))
        (m.kernel.sched.rings.head (.futex (futexHashval (a / 4))))).map fun r =>
          match r.1 with
          | none => { kernel := p.2, word := 0, owners := m.owners.erase me }
          | some ret =>
            { kernel := p.2
              word := (M.idWord ret + 1) % 0x100000000
              owners := insert ret (m.owners.erase me) }

def exec (M : Machine ι β) (h : ℕ) (op : MutexOp ι β) (m : Mutex ι β) : Option (Mutex ι β) :=
  match op with
  | .other op => (m.kernel.exec M h op).map fun p => { m with kernel := p.2 }
  | .lock =>
    if m.kernel.enabled h (.trap .yield) then
      (m.kernel.hw.sgp h).map fun me => m.plainmutexLock M me
    else none
  | .unlock =>
    if m.kernel.enabled h (.trap .yield) then
      (m.kernel.hw.sgp h).map fun me => m.plainmutexUnlock M me
    else none
  | .lockPi lock => (m.kernel.hw.sgp h).bind fun me => m.lockPi M lock h me
  | .unlockPi lock => (m.kernel.hw.sgp h).bind fun me => m.unlockPi M lock h me

end Mutex

/-- A futex operation on the word at word address `pa`. -/
def Op.OnWord (pa : ℕ) : Op ι β → Prop
  | .trap (.futexWait lock _ _) | .trap (.futexResume lock _) =>
    ∃ a, lock.safemem safememR = some a ∧ a / 4 = pa
  | .trap (.futexLockPi lock _) | .trap (.futexUnlockPi lock) =>
    ∃ a, lock.safemem safememRw = some a ∧ a / 4 = pa
  | _ => False

/-- The protocol for the mutex at `pa`: its traps are made with its address, it is unlocked by an
owner, and no other futex operation is made on it. -/
def Mutex.Follows (M : Machine ι β) (pa h : ℕ) (op : MutexOp ι β) (m : Mutex ι β) : Prop :=
  match op with
  | .lock => True
  | .unlock => ∀ me, m.kernel.hw.sgp h = some me → me ∈ m.owners
  | .lockPi lock => ∀ a, lock.safemem safememRw = some a → a / 4 = pa
  | .unlockPi lock => (∀ a, lock.safemem safememRw = some a → a / 4 = pa) ∧
      ∀ me, m.kernel.hw.sgp h = some me → me ∈ m.owners
  | .other op => Safe M h op m.kernel ∧ ¬op.OnWord pa

/-- The thread waits in the kernel for the word. -/
def Mutex.Waiting (pa : ℕ) (t : ι) (m : Mutex ι β) : Prop :=
  m.kernel.sched.status t = .blocked ∧ m.kernel.sched.futexPtr t = pa

/-- What holds of a mutex: it is free and nobody waits, or it has one owner, whose id is in the
word, and bit 0 is set if somebody waits. -/
structure Mutex.Sound (M : Machine ι β) (pa : ℕ) (m : Mutex ι β) : Prop where
  coherent : Coherent M m.kernel
  ptr : ∀ t, m.kernel.sched.status t = .blocked → m.kernel.sched.futexPtr t < 0x400000000
  held : (m.word = 0 ∧ m.owners = ∅ ∧ ∀ t, ¬m.Waiting pa t) ∨
    ∃ o, m.owners = {o} ∧ (m.word = M.idWord o ∧ (∀ t, ¬m.Waiting pa t) ∨ m.word = M.idWord o + 1)

section Words

theorem or_one_eq (n : ℕ) : n ||| 1 = 2 * (n / 2) + 1 := by
  have hdiv : (n ||| 1) / 2 = n / 2 := by simp [Nat.or_div_two]
  have hmod : (n ||| 1) % 2 = 1 := by simp [Nat.or_mod_two_eq_one]
  omega

variable {M : Machine ι β}

/-- The VMs are in the slots from 1, and cpu indices have 16 bits. -/
def Machine.IdsFit (M : Machine ι β) : Prop :=
  ∀ t, 0 < M.vmidx (M.vmblock t) ∧ M.vmidx (M.vmblock t) < 64 ∧ M.cpuidx t < 0x10000

omit dι dβ fι in
theorem Machine.IdsFit.idWord (hid : M.IdsFit) (t : ι) :
    0 < M.idWord t ∧ M.idWord t % 1024 = 0 ∧ M.idWord t + 1 < 0x100000000 := by
  obtain ⟨hpos, hlt, hcpu⟩ := hid t
  unfold Machine.idWord
  omega

end Words

section Steps

variable {M : Machine ι β} {pa h : ℕ} {m m' : Mutex ι β} {me : ι}

omit dβ in
theorem Mutex.Sound.mem_waiters (hm : m.Sound M pa) {t : ι} :
    t ∈ m.kernel.sched.waiters pa ↔ m.Waiting pa t := by
  unfold Sched.waiters Mutex.Waiting
  rw [List.mem_filter, hm.coherent.placed.mem_bucket, decide_eq_true_eq]
  exact ⟨fun ht => ⟨ht.1.1, ht.2⟩, fun ht => ⟨⟨ht.1, by rw [ht.2]⟩, ht.2⟩⟩

section

omit dι dβ fι

theorem Op.blocksOn_lt {op : Op ι β} {a : ℕ} (hop : op.blocksOn = some a) : a < 0x400000000 := by
  unfold Op.blocksOn at hop
  split at hop
  · obtain ⟨x, hx, rfl⟩ := map_eq_some_iff.mp hop
    have := safemem_lt hx
    omega
  · obtain ⟨x, hx, rfl⟩ := map_eq_some_iff.mp hop
    have := safemem_lt hx
    omega
  · simp at hop

/-- Nothing has happened to the mutex but that waits have ended. -/
theorem Mutex.Sound.of_fewer (hm : m.Sound M pa) {k' : Kernel ι β} (hc : Coherent M k')
    (hptr : ∀ t, k'.sched.status t = .blocked → k'.sched.futexPtr t < 0x400000000)
    (hwait : ∀ t, k'.sched.status t = .blocked ∧ k'.sched.futexPtr t = pa → m.Waiting pa t) :
    Mutex.Sound M pa { m with kernel := k' } := by
  refine ⟨hc, hptr, ?_⟩
  rcases hm.held with ⟨hword, howners, hnone⟩ | ⟨o, howners, ⟨hword, hnone⟩ | hword⟩
  · exact .inl ⟨hword, howners, fun t ht => hnone t (hwait t ht)⟩
  · exact .inr ⟨o, howners, .inl ⟨hword, fun t ht => hnone t (hwait t ht)⟩⟩
  · exact .inr ⟨o, howners, .inr hword⟩

end

theorem Mutex.Sound.kernel (hm : m.Sound M pa) {op : Op ι β} (hsafe : Safe M h op m.kernel)
    {e : Exit} {k' : Kernel ι β} (hexec : m.kernel.exec M h op = some (e, k')) : Coherent M k' ∧
      (∀ t, k'.sched.status t = .blocked → k'.sched.futexPtr t < 0x400000000) ∧
      (op.blocksOn ≠ some pa → ∀ t, k'.sched.status t = .blocked ∧ k'.sched.futexPtr t = pa →
        m.Waiting pa t) := by
  have hmoves := exec_moves hm.coherent hsafe hexec
  refine ⟨(stepTo_of_exec hm.coherent hsafe hexec).coherent, fun t ht => ?_, fun hop t ht => ?_⟩
  · rcases hmoves.blocked ht with ⟨hold, hptr⟩ | ⟨-, hblocks⟩
    · rw [hptr]
      exact hm.ptr t hold
    · exact Op.blocksOn_lt hblocks
  · rcases hmoves.blocked ht.1 with ⟨hold, hptr⟩ | ⟨-, hblocks⟩
    · exact ⟨hold, hptr.symm.trans ht.2⟩
    · exact absurd (ht.2 ▸ hblocks) hop

/-- How `H2K_futex_lock_pi` ends: it has had work to do, or may not access the word, or the mutex
was free, or the thread blocks. -/
theorem futexLockPi_cases {k k' : Kernel ι β} (hc : Coherent M k) (hme : k.hw.sgp h = some me)
    {lock : Access} {word : ℕ} {e : Exit}
    (hexec : k.exec M h (.trap (.futexLockPi lock word)) = some (e, k')) :
    ((k.threads.vmwork me = true ∨ lock.safemem safememRw = none) ∧ e ≠ .returned 0 ∧
      Passage M nobody k k') ∨
    (¬(k.threads.vmwork me = true ∨ lock.safemem safememRw = none) ∧
      (word ||| 1 = 1 ∧ e = .returned 0 ∧ k' = k ∨ word ||| 1 ≠ 1 ∧ e ≠ .returned 0)) := by
  have hen := enabled_of_exec hexec
  rw [exec, if_pos hen, perform, hme, bind_some, trap] at hexec
  unfold futexLockPi at hexec
  split at hexec
  · next hw =>
    obtain ⟨⟨e', k₁⟩, hwork, hmk⟩ := map_eq_some_iff.mp hexec
    obtain ⟨rfl, rfl⟩ := Prod.mk.inj hmk
    refine .inl ⟨.inl hw, ?_, ((vmDoWorkWithlock_passage hc hme).of_some hwork).1⟩
    cases e' <;> simp [Exit.andReturn]
  next hw =>
  split at hexec
  · next hnone =>
    obtain ⟨rfl, rfl⟩ := Prod.mk.inj (some.inj hexec)
    exact .inl ⟨.inr hnone, by simp, .refl M nobody k⟩
  next a ha =>
  have hcond : ¬(k.threads.vmwork me = true ∨ lock.safemem safememRw = none) := by
    simp only [ha, not_or]
    exact ⟨hw, by simp⟩
  split at hexec
  · next hfree =>
    obtain ⟨rfl, rfl⟩ := Prod.mk.inj (some.inj hexec)
    exact .inr ⟨hcond, .inl ⟨hfree, rfl, rfl⟩⟩
  · next hheld =>
    refine .inr ⟨hcond, .inr ⟨hheld, ?_⟩⟩
    rintro rfl
    obtain ⟨k₁, -, hblock⟩ := bind_eq_some_iff.mp hexec
    obtain ⟨k₂, -, hsched⟩ := bind_eq_some_iff.mp hblock
    exact dosched_not_returned 0 k' hsched

/-- **Asking for the mutex** in the kernel. -/
theorem Mutex.Sound.lockPi (hm : m.Sound M pa) (hid : M.IdsFit) (hme : m.kernel.hw.sgp h = some me)
    {lock : Access} (hlock : m.lockPi M lock h me = some m') : m'.Sound M pa := by
  obtain ⟨⟨e, k'⟩, hexec, rfl⟩ := map_eq_some_iff.mp hlock
  have hsafe : Safe M h (.trap (.futexLockPi lock m.word)) m.kernel := fun _ _ => trivial
  obtain ⟨hc', hptr', -⟩ := hm.kernel hsafe hexec
  rcases futexLockPi_cases hm.coherent hme hexec with ⟨hcond, he, hpass⟩ | ⟨hcond, hcases⟩
  · simp only [if_pos hcond, if_neg he]
    refine hm.of_fewer hc' hptr' fun t ht => ?_
    obtain ⟨hst, hptr⟩ := hpass.blocked_of ht.1
    exact ⟨hst, hptr.symm.trans ht.2⟩
  · refine ⟨hc', hptr', ?_⟩
    simp only [if_neg hcond]
    rw [or_one_eq] at hcases ⊢
    rcases hm.held with ⟨hword, howners, hnone⟩ | ⟨o, howners, hword⟩
    · -- it was free
      rcases hcases with ⟨hfree, rfl, rfl⟩ | ⟨hheld, -⟩
      · refine .inr ⟨me, by simp [howners], .inl ⟨?_, hnone⟩⟩
        rw [if_pos hfree]
      · simp [hword] at hheld
    · -- it is held, and the thread waits
      obtain ⟨hpos, heven, -⟩ := hid.idWord o
      have hheld : 2 * (m.word / 2) + 1 = M.idWord o + 1 := by
        rcases hword with ⟨hword, -⟩ | hword <;> omega
      rcases hcases with ⟨hfree, -⟩ | ⟨hne, he⟩
      · omega
      · refine .inr ⟨o, by rw [if_neg he, howners], .inr ?_⟩
        rw [if_neg hne, hheld]

/-- **Giving it up** in the kernel: the first waiter gets it, or it is free. -/
theorem Mutex.Sound.unlockPi_cases (hm : m.Sound M pa) (hid : M.IdsFit) {lock : Access} {a : ℕ}
    (ha : lock.safemem safememRw = some a) (hpa : a / 4 = pa)
    (hunlock : m.unlockPi M lock h me = some m') :
    (m.kernel.sched.waiters pa = [] ∧ m'.word = 0 ∧ m'.owners = m.owners.erase me) ∨
      ∃ t rest, m.kernel.sched.waiters pa = t :: rest ∧ m'.word = M.idWord t + 1 ∧
        m'.owners = insert t (m.owners.erase me) := by
  obtain ⟨p, -, hunlock⟩ := bind_eq_some_iff.mp hunlock
  simp only [ha] at hunlock
  have hlt := safemem_lt ha
  have hfirst := hm.coherent.placed.firstWaiters_eq hm.ptr (a := a / 4) (by omega) 1
  obtain ⟨pos, s, hremove, -⟩ :=
    hm.coherent.placed.futexHashRemoveOne_head (a / 4 % 0x100000000) (futexHashval (a / 4))
  rw [hremove, map_some, some.injEq] at hunlock
  rw [← hpa]
  unfold Sched.firstWaiters at hfirst
  rcases hw : m.kernel.sched.waiters (a / 4) with - | ⟨t, rest⟩
  · left
    rw [hw, List.take_nil, List.take_eq_nil_iff] at hfirst
    rw [hfirst.resolve_left (by simp)] at hunlock
    subst hunlock
    exact ⟨rfl, rfl, rfl⟩
  · right
    have hhead : ((m.kernel.sched.queue (.futex (futexHashval (a / 4)))).filter
        (m.kernel.sched.waitsOn (a / 4 % 0x100000000))).head? = some t := by
      have := congrArg List.head? hfirst
      rwa [hw, List.head?_take, if_neg (by simp), List.take_succ_cons, List.head?_cons] at this
    rw [hhead] at hunlock
    subst hunlock
    exact ⟨t, rest, rfl, Nat.mod_eq_of_lt (hid.idWord t).2.2, rfl⟩

theorem Mutex.Sound.unlockPi (hm : m.Sound M pa) (hid : M.IdsFit) (hme : me ∈ m.owners)
    {lock : Access} (hlock : ∀ a, lock.safemem safememRw = some a → a / 4 = pa)
    (hunlock : m.unlockPi M lock h me = some m') : m'.Sound M pa := by
  have hunlock' := hunlock
  obtain ⟨⟨e, k'⟩, hexec, hunlock⟩ := bind_eq_some_iff.mp hunlock
  have hsafe : Safe M h (.trap (.futexUnlockPi lock)) m.kernel := fun _ _ => trivial
  obtain ⟨hc', hptr', hwait⟩ := hm.kernel hsafe hexec
  have hwait := hwait (by simp [Op.blocksOn])
  split at hunlock
  · cases hunlock
    exact hm.of_fewer hc' hptr' hwait
  · next a ha =>
    obtain ⟨r, -, hr⟩ := map_eq_some_iff.mp hunlock
    have hkernel : m'.kernel = k' := by
      rw [← hr]
      cases r.1 <;> rfl
    have hempty : m.owners.erase me = ∅ := by
      rcases hm.held with ⟨-, howners, -⟩ | ⟨o, howners, -⟩
      · simp [howners]
      · rw [howners, Finset.mem_singleton] at hme
        simp [howners, hme]
    refine ⟨hkernel ▸ hc', hkernel ▸ hptr', ?_⟩
    rcases hm.unlockPi_cases hid ha (hlock a ha) hunlock' with
      ⟨hnil, hword, howners⟩ | ⟨t, -, -, hword, howners⟩
    · refine .inl ⟨hword, howners.trans hempty, fun t ht => ?_⟩
      rw [Mutex.Waiting, hkernel] at ht
      have hmem := hm.mem_waiters.mpr (hwait t ht)
      simp [hnil] at hmem
    · refine .inr ⟨t, ?_, .inr hword⟩
      rw [howners, hempty]
      rfl

section

omit dβ fι

/-- **Taking a free mutex.** -/
theorem Mutex.Sound.plainmutexLock (hm : m.Sound M pa) (hid : M.IdsFit) (me : ι) :
    (m.plainmutexLock M me).Sound M pa := by
  unfold Mutex.plainmutexLock
  split
  · next hfree =>
    refine ⟨hm.coherent, hm.ptr, ?_⟩
    rcases hm.held with ⟨-, howners, hnone⟩ | ⟨o, -, ⟨hword, -⟩ | hword⟩
    · exact .inr ⟨me, by simp [howners], .inl ⟨rfl, fun t ht => hnone t ⟨ht.1, ht.2⟩⟩⟩
    · exact absurd (hword.symm.trans hfree) (hid.idWord o).1.ne'
    · exact absurd (hword.symm.trans hfree) (Nat.add_one_ne_zero _)
  · exact hm

/-- **Giving up one that nobody waits for.** -/
theorem Mutex.Sound.plainmutexUnlock (hm : m.Sound M pa) (hme : me ∈ m.owners) :
    (m.plainmutexUnlock M me).Sound M pa := by
  unfold Mutex.plainmutexUnlock
  split
  · next hmine =>
    refine ⟨hm.coherent, hm.ptr, ?_⟩
    rcases hm.held with ⟨-, howners, -⟩ | ⟨o, howners, hword⟩
    · simp [howners] at hme
    · obtain rfl : me = o := by simpa [howners] using hme
      refine .inl ⟨rfl, by simp [howners], (hword.resolve_right fun hword => ?_).2⟩
      omega
  · exact hm

end

omit dι dβ fι in
theorem Op.onWord_of_blocksOn {op : Op ι β} (hop : op.blocksOn = some pa) : op.OnWord pa := by
  unfold Op.blocksOn at hop
  split at hop
  · exact map_eq_some_iff.mp hop
  · exact map_eq_some_iff.mp hop
  · simp at hop

theorem Mutex.Sound.step (hm : m.Sound M pa) (hid : M.IdsFit) {op : MutexOp ι β}
    (hop : m.Follows M pa h op) (hexec : m.exec M h op = some m') : m'.Sound M pa := by
  cases op with
  | other op =>
    obtain ⟨⟨e, k'⟩, hk', rfl⟩ := map_eq_some_iff.mp hexec
    obtain ⟨hc', hptr', hwait⟩ := hm.kernel hop.1 hk'
    exact hm.of_fewer hc' hptr' (hwait fun hblocks => hop.2 (Op.onWord_of_blocksOn hblocks))
  | lock =>
    rw [Mutex.exec] at hexec
    split at hexec
    · obtain ⟨me, -, rfl⟩ := map_eq_some_iff.mp hexec
      exact hm.plainmutexLock hid me
    · simp at hexec
  | unlock =>
    rw [Mutex.exec] at hexec
    split at hexec
    · obtain ⟨me, hme, rfl⟩ := map_eq_some_iff.mp hexec
      exact hm.plainmutexUnlock (hop me hme)
    · simp at hexec
  | lockPi lock =>
    obtain ⟨me, hme, hlock⟩ := bind_eq_some_iff.mp hexec
    exact hm.lockPi hid hme hlock
  | unlockPi lock =>
    obtain ⟨me, hme, hunlock⟩ := bind_eq_some_iff.mp hexec
    exact hm.unlockPi hid (hop.2 me hme) hop.1 hunlock

end Steps

/-! ## Runs -/

def Mutex.Run (M : Machine ι β) (pa : ℕ) (τ : ℕ → Mutex ι β) : Prop :=
  Path (fun (a : ℕ × MutexOp ι β) m => m.exec M a.1 a.2) (fun a m => m.Follows M pa a.1 a.2) τ

theorem Mutex.Run.sound {M : Machine ι β} {pa : ℕ} {τ : ℕ → Mutex ι β} (hτ : Mutex.Run M pa τ)
    (hid : M.IdsFit) (h₀ : (τ 0).Sound M pa) : ∀ n, (τ n).Sound M pa :=
  Path.invariant hτ h₀ fun hm hop hexec => hm.step hid hop hexec

section Projection

variable {M : Machine ι β} {pa h : ℕ} {m m' : Mutex ι β}

/-- A step of the protocol is one of the kernel, or none. -/
theorem Mutex.kernel_step {op : MutexOp ι β} (hop : m.Follows M pa h op)
    (hexec : m.exec M h op = some m') : m'.kernel = m.kernel ∨
      ∃ op e, Safe M h op m.kernel ∧ m.kernel.exec M h op = some (e, m'.kernel) := by
  cases op with
  | other op =>
    obtain ⟨⟨e, k'⟩, hk', rfl⟩ := map_eq_some_iff.mp hexec
    exact .inr ⟨op, e, hop.1, hk'⟩
  | lock | unlock =>
    rw [Mutex.exec] at hexec
    split at hexec
    · obtain ⟨me, -, rfl⟩ := map_eq_some_iff.mp hexec
      simp only [Mutex.plainmutexLock, Mutex.plainmutexUnlock]
      split <;> exact .inl rfl
    · simp at hexec
  | lockPi lock =>
    obtain ⟨me, -, hlock⟩ := bind_eq_some_iff.mp hexec
    obtain ⟨⟨e, k'⟩, hk', rfl⟩ := map_eq_some_iff.mp hlock
    exact .inr ⟨.trap (.futexLockPi lock m.word), e, fun _ _ => trivial, hk'⟩
  | unlockPi lock =>
    obtain ⟨me, -, hunlock⟩ := bind_eq_some_iff.mp hexec
    obtain ⟨⟨e, k'⟩, hk', hunlock⟩ := bind_eq_some_iff.mp hunlock
    have hkernel : m'.kernel = k' := by
      split at hunlock
      · rw [← some.inj hunlock]
      · obtain ⟨r, -, hr⟩ := map_eq_some_iff.mp hunlock
        rw [← hr]
        cases r.1 <;> rfl
    exact .inr ⟨.trap (.futexUnlockPi lock), e, fun _ _ => trivial, hkernel ▸ hk'⟩

theorem Mutex.Run.kernel {τ : ℕ → Mutex ι β} (hτ : Mutex.Run M pa τ) :
    H2.Run M (Safe M) fun n => (τ n).kernel := by
  intro n
  rcases hτ n with heq | ⟨⟨h, op⟩, hop, hexec⟩
  · exact .inl (by simp only [heq])
  · rcases Mutex.kernel_step hop hexec with heq | ⟨op, e, hsafe, hk⟩
    · exact .inl heq
    · exact .inr ⟨h, op, e, hsafe, hk⟩

end Projection

/-- The mutex passes on: the best of those that wait gets it, and of those that are as good the one
that has been in the bucket longest; if nobody waits it is free. -/
structure Mutex.PassesOn (M : Machine ι β) (pa : ℕ) (τ : ℕ → Mutex ι β) (n : ℕ) (m' : Mutex ι β) :
    Prop where
  free : (∀ t, ¬(τ n).Waiting pa t) → m'.word = 0 ∧ m'.owners = ∅
  held : ∀ t, (τ n).Waiting pa t → ∃ o, (τ n).Waiting pa o ∧ m'.word = M.idWord o + 1 ∧
    m'.owners = {o} ∧ (τ n).kernel.sched.prio o ≤ (τ n).kernel.sched.prio t ∧
    ∀ p i, i < n → t ∈ (τ i).kernel.sched.queue (.futex (futexHashval pa)) →
      o ∉ (τ i).kernel.sched.queue (.futex (futexHashval pa)) →
      ¬Together (fun n => (τ n).kernel) (futexHashval pa) t o p i n

section Order

variable {M : Machine ι β} {pa : ℕ} {τ : ℕ → Mutex ι β} {n : ℕ}

omit dβ in
/-- The first waiter is as good as any, … -/
theorem Mutex.first_best (hord : InOrder (τ n).kernel) {o : ι} {rest : List ι}
    (hwaiters : (τ n).kernel.sched.waiters pa = o :: rest) {t : ι} (ht : t ∈ o :: rest) :
    (τ n).kernel.sched.prio o ≤ (τ n).kernel.sched.prio t := by
  have hsorted : (o :: rest).Pairwise ((τ n).kernel.sched.prio · ≤ (τ n).kernel.sched.prio ·) := by
    rw [← hwaiters]
    exact (hord (futexHashval pa)).sublist List.filter_sublist
  rcases List.mem_cons.mp ht with rfl | ht
  · exact le_rfl
  · exact (List.pairwise_cons.mp hsorted).1 t ht

omit dβ in
/-- … and none that is as good was there before it. -/
theorem Mutex.Sound.first_longest (hm : (τ n).Sound M pa)
    (hsteady : ∀ n, Steady (τ n).kernel (τ (n + 1)).kernel) {o : ι} {rest : List ι}
    (hwaiters : (τ n).kernel.sched.waiters pa = o :: rest) {t : ι} (ht : t ∈ o :: rest) {p i : ℕ}
    (hi : i < n) (hti : t ∈ (τ i).kernel.sched.queue (.futex (futexHashval pa)))
    (hoi : o ∉ (τ i).kernel.sched.queue (.futex (futexHashval pa))) :
    ¬Together (fun n => (τ n).kernel) (futexHashval pa) t o p i n := by
  intro htogether
  have hbefore := htogether.before hsteady hti hoi hi
  have hwait {u : ι} (hu : u ∈ o :: rest) : (τ n).kernel.sched.futexPtr u = pa :=
    (hm.mem_waiters.mp (hwaiters ▸ hu)).2
  have hfilter := hbefore.filter ((τ n).kernel.sched.futexPtr · = pa)
  have hnd : (o :: rest).Nodup := by
    rw [← hwaiters]
    exact (hm.coherent.placed.nodup_queue _).filter _
  have hpair : [t, o].filter ((τ n).kernel.sched.futexPtr · = pa) = [t, o] := by
    simp [hwait ht, hwait List.mem_cons_self]
  have hfirst : [t, o].Sublist ((τ n).kernel.sched.waiters pa) := hpair ▸ hfilter
  rw [hwaiters] at hfirst
  exact not_sublist_head hnd hfirst

end Order

/-- **The protocol of the mutex.**  In every state of every run: at most one thread owns the mutex,
and its id is in the word; while a thread waits the word is not 0 and its bit 0 is set; nobody waits
while it is 0; and an owner that gives it up in the kernel passes it on. -/
theorem mutex_protocol (M : Machine ι β) (timerIntnum : ℕ) (mask : BitVec 32) (cluster : Cluster ι)
    (bootvm : β) (hmask : mask.getLsbD 0 = true) (hid : M.IdsFit) (pa : ℕ) {e : Exit}
    {τ : ℕ → Mutex ι β} (hboot : boot M timerIntnum mask cluster bootvm = some (e, (τ 0).kernel))
    (hword : (τ 0).word = 0) (howners : (τ 0).owners = ∅) (hτ : Mutex.Run M pa τ) (n : ℕ) :
    ((τ n).owners.card ≤ 1 ∧ ∀ o ∈ (τ n).owners, 2 * ((τ n).word / 2) = M.idWord o) ∧
    (∀ t, (τ n).Waiting pa t → (τ n).word ≠ 0 ∧ (τ n).word % 2 = 1) ∧
    ((τ n).word = 0 → ∀ t, ¬(τ n).Waiting pa t) ∧
    ∀ h me lock a m', (τ n).kernel.hw.sgp h = some me → me ∈ (τ n).owners →
      lock.safemem safememRw = some a → a / 4 = pa →
      (τ n).exec M h (.unlockPi lock) = some m' → Mutex.PassesOn M pa τ n m' := by
  have hc := coherent_boot hmask hboot
  have h₀ : (τ 0).Sound M pa := by
    have hnone := not_blocked_boot hmask hboot
    exact ⟨hc, fun t ht => absurd ht (hnone t), .inl ⟨hword, howners, fun t ht => hnone t ht.1⟩⟩
  have hm := hτ.sound hid h₀ n
  have hsteady := hτ.kernel.steady (fun _ _ _ => id) hc (inOrder_boot hmask hboot)
  refine ⟨?_, fun t ht => ?_, fun hzero t ht => ?_,
    fun h me lock a m' hme howner ha hpa hexec => ?_⟩
  · rcases hm.held with ⟨-, howners, -⟩ | ⟨o, howners, hword⟩
    · simp [howners]
    · obtain ⟨-, heven, -⟩ := hid.idWord o
      rw [howners]
      refine ⟨by simp, fun o' ho' => ?_⟩
      rw [Finset.mem_singleton.mp ho']
      rcases hword with ⟨hword, -⟩ | hword <;> omega
  · rcases hm.held with ⟨-, -, hnone⟩ | ⟨o, -, ⟨-, hnone⟩ | hword⟩
    · exact absurd ht (hnone t)
    · exact absurd ht (hnone t)
    · obtain ⟨-, heven, -⟩ := hid.idWord o
      omega
  · rcases hm.held with ⟨-, -, hnone⟩ | ⟨o, -, ⟨-, hnone⟩ | hword⟩
    · exact hnone t ht
    · exact hnone t ht
    · omega
  · obtain ⟨me', hme', hunlock⟩ := bind_eq_some_iff.mp hexec
    obtain rfl := some.inj (hme.symm.trans hme')
    have hempty : (τ n).owners.erase me = ∅ := by
      rcases hm.held with ⟨-, howners, -⟩ | ⟨o, howners, -⟩
      · simp [howners]
      · rw [howners, Finset.mem_singleton] at howner
        simp [howners, howner]
    rcases hm.unlockPi_cases hid ha hpa hunlock with
      ⟨hnil, hword, howners⟩ | ⟨o, rest, hwaiters, hword, howners⟩
    · refine ⟨fun _ => ⟨hword, howners.trans hempty⟩, fun t ht => ?_⟩
      have hmem := hm.mem_waiters.mpr ht
      simp [hnil] at hmem
    · have ho := hm.mem_waiters.mp (hwaiters ▸ List.mem_cons_self)
      refine ⟨fun hnone => absurd ho (hnone o), fun t ht => ?_⟩
      have hmem : t ∈ o :: rest := hwaiters ▸ hm.mem_waiters.mpr ht
      refine ⟨o, ho, hword, ?_, Mutex.first_best (hsteady n).1 hwaiters hmem,
        fun p i hi hti hoi => hm.first_longest (fun n => (hsteady n).2.1) hwaiters hmem hi hti hoi⟩
      rw [howners, hempty]
      rfl

/-- A test that a step follows the protocol. -/
def Mutex.followsTest (pa : ℕ) (a : ℕ × MutexOp ι β) (_ : Mutex ι β) : Bool :=
  match a.2 with
  | .lock => true
  | .lockPi lock => (lock.safemem safememRw).all (· / 4 == pa)
  | .other (.trap (.create ..)) | .other (.trap .yield) => true
  | _ => false

omit dι dβ fι in
theorem Mutex.follows_of_followsTest (M : Machine ι β) (pa : ℕ) (a : ℕ × MutexOp ι β)
    (m : Mutex ι β) (htest : Mutex.followsTest pa a m = true) : m.Follows M pa a.1 a.2 := by
  obtain ⟨h, op⟩ := a
  unfold Mutex.followsTest at htest
  split at htest
  · next heq => exact heq ▸ trivial
  · next lock heq =>
    subst heq
    exact fun a ha => by simpa [ha] using htest
  · next heq => exact heq ▸ ⟨fun _ _ => trivial, id⟩
  · next heq => exact heq ▸ ⟨fun _ _ => trivial, id⟩
  · simp at htest

/-- A thread takes the mutex, makes another and lets it run, and that one asks for the mutex. -/
def oneWaits : List (ℕ × MutexOp (Fin 2) Unit) :=
  [(0, .lock), (0, .other (.trap (.create 0 0 0 0 true))), (0, .other (.trap .yield)),
    (0, .lockPi (identityAccess 0x1000))]

/-- It is passed on. -/
theorem mutex_protocol_oneWaits : ∃ e τ m',
    boot (oneVm 1) 3 1#32 .off () = some (e, (τ 0).kernel) ∧ Mutex.Run (oneVm 1) 0x400 τ ∧
    (τ 4).Waiting 0x400 0 ∧ (τ 4).exec (oneVm 1) 0 (.unlockPi (identityAccess 0x1000)) = some m' ∧
    ∃ o, (τ 4).Waiting 0x400 o ∧ m'.word = (oneVm 1).idWord o + 1 ∧ m'.owners = {o} := by
  have hrun : ∃ p ∈ boot (oneVm 1) 3 1#32 .off (),
      ∃ m ∈ runIf (fun (a : ℕ × MutexOp (Fin 2) Unit) m => m.exec (oneVm 1) a.1 a.2)
        (Mutex.followsTest 0x400) oneWaits ⟨p.2, 0, ∅⟩,
      ∃ m' ∈ m.exec (oneVm 1) 0 (.unlockPi (identityAccess 0x1000)),
        m.kernel.sched.status 0 = .blocked ∧ m.kernel.sched.futexPtr 0 = 0x400 ∧
          m.kernel.hw.sgp 0 = some 1 ∧ 1 ∈ m.owners := by decide +kernel
  obtain ⟨⟨e, k₀⟩, hboot, m, hm, m', hm', hst, hptr, hme, howner⟩ := hrun
  obtain ⟨hτ, hend⟩ := Path.trace (Mutex.follows_of_followsTest (oneVm 1) 0x400) hm
  set τ := trace (fun (a : ℕ × MutexOp (Fin 2) Unit) (m : Mutex (Fin 2) Unit) =>
    m.exec (oneVm 1) a.1 a.2) oneWaits ⟨k₀, 0, ∅⟩
  have hzero : τ 0 = ⟨k₀, 0, ∅⟩ := trace_zero ..
  have hfour : τ 4 = m := hend 4 le_rfl
  have hwait : (τ 4).Waiting 0x400 0 := by
    rw [hfour]
    exact ⟨hst, hptr⟩
  have hid : (oneVm 1).IdsFit := fun t => ⟨Nat.one_pos, Nat.lt_of_sub_eq_succ rfl, by
    simp only [oneVm]
    omega⟩
  have ha : (identityAccess 0x1000).safemem safememRw = some 0x1000 := by decide +kernel
  obtain ⟨-, -, -, hpass⟩ := mutex_protocol (oneVm 1) 3 1#32 .off () (by decide) hid 0x400
    (by rw [hzero]; exact hboot) (by rw [hzero]) (by rw [hzero]) hτ 4
  rw [hfour] at hpass
  obtain ⟨o, ho, hword, howners, -⟩ :=
    (hpass 0 1 (identityAccess 0x1000) 0x1000 m' hme howner ha rfl hm').held 0 hwait
  refine ⟨e, τ, m', by rw [hzero]; exact hboot, hτ, hwait, by rw [hfour]; exact hm', o, ho, hword,
    howners⟩

end H2
