import H2.Kernel.Coherence
import Mathlib.Data.Nat.Bitwise

/-!
# Futex/Resume — whom a wake-up is for

A wake-up compares the low 32 bits of addresses.  That is enough in a bucket: the two bits above go
into the hash value, so addresses that agree below are in one bucket only if they are the same.
The addresses are what the safe-memory lookup finds, though, to which two words are one whose
entries in the TLB differ in the upper word only (`futexResume_other_word`).
-/

namespace H2

/-- Addresses with the same low bits and the same hash value are the same. -/
theorem eq_of_futexHashval {a b : ℕ} (ha : a < 2 ^ 36) (hb : b < 2 ^ 36)
    (hlo : a % 0x100000000 = b % 0x100000000) (hhash : futexHashval a = futexHashval b) :
    a = b := by
  unfold futexHashval at hhash
  rw [hlo] at hhash
  have hhi := Nat.xor_right_injective hhash
  omega

variable {ι β : Type} [DecidableEq ι] [dβ : DecidableEq β] [Fintype ι]

/-- The threads that wait on a word address. -/
def Sched.waiters (s : Sched ι β) (a : ℕ) : List ι :=
  (s.queue (.futex (futexHashval a))).filter (s.futexPtr · = a)

omit dβ in
theorem Placed.firstWaiters_eq {M : Machine ι β} {s : Sched ι β} (hs : Placed M s)
    (hptr : ∀ t, s.status t = .blocked → s.futexPtr t < 0x400000000) {a : ℕ}
    (ha : a < 0x400000000) (n : ℕ) : s.firstWaiters a n = (s.waiters a).take n := by
  unfold Sched.firstWaiters Sched.waiters
  congr 1
  refine List.filter_congr fun t ht => ?_
  obtain ⟨hblocked, hhash⟩ := hs.mem_bucket.mp ht
  unfold Sched.waitsOn
  rw [Bool.beq_eq_decide_eq]
  congr 1
  exact propext ⟨fun hlo => eq_of_futexHashval ((hptr t hblocked).trans (by decide))
    (ha.trans (by decide)) hlo hhash, fun heq => by rw [heq]⟩

/-- The first are taken off the queue; the preemption test does not touch the structures. -/
theorem futexResume_woken {M : Machine ι β} {k : Kernel ι β} (hs : Placed M k.sched)
    (hptr : ∀ t, k.sched.status t = .blocked → k.sched.futexPtr t < 0x400000000) {a : ℕ}
    (ha : a < 0x1000000000) (nToWake : ℕ) : ∃ k', k.futexResume (some a) nToWake =
        some (.returned (min nToWake (k.sched.waiters (a / 4)).length : ℕ), k') ∧
      Woken M (futexHashval (a / 4)) ((k.sched.waiters (a / 4)).take nToWake) k.sched k'.sched := by
  obtain ⟨s, hwoken, hresume⟩ := futexResume_eq hs a nToWake
  rw [hs.firstWaiters_eq hptr (by omega)] at hwoken hresume
  rw [List.length_take] at hresume
  rcases hresume with heq | ⟨rfl, heq⟩
  · exact ⟨_, heq, hwoken⟩
  · exact ⟨k, heq, hwoken⟩

/-- **Resuming** wakes exactly the first threads that wait on the lock, as many as there are or are
asked for.  They become ready, each at the end of the ring of its priority, and their number is
returned; the other threads of the bucket stay where they are. -/
theorem futexResume_wakes_first (M : Machine ι β) (k : Kernel ι β) (hs : Placed M k.sched)
    (hptr : ∀ t, k.sched.status t = .blocked → k.sched.futexPtr t < 0x400000000) (lock : Access)
    {a : ℕ} (ha : lock.safemem safememR = some a) (nToWake : ℕ) :
    ∃ k', k.futexResume (lock.safemem safememR) nToWake =
        some (.returned (min nToWake (k.sched.waiters (a / 4)).length : ℕ), k') ∧
      let woken := (k.sched.waiters (a / 4)).take nToWake
      let bucket := RingRef.futex (futexHashval (a / 4))
      (∀ t, k'.sched.status t = if t ∈ woken then .ready else k.sched.status t) ∧
      (∀ p, k'.sched.queue (.ready p) =
        k.sched.queue (.ready p) ++ woken.filter (k.sched.prio · = p)) ∧
      k'.sched.queue bucket = (k.sched.queue bucket).filter (· ∉ woken) ∧
      (∀ t ∈ k'.sched.queue bucket, k'.sched.status t = .blocked) ∧
      (∀ r, r ≠ bucket → (∀ p, r ≠ .ready p) → k'.sched.queue r = k.sched.queue r) ∧
      Placed M k'.sched := by
  obtain ⟨k', hk', hwoken⟩ := futexResume_woken hs hptr (safemem_lt ha) nToWake
  rw [ha]
  exact ⟨k', hk', hwoken.status, hwoken.ready, hwoken.bucket,
    fun t ht => (hwoken.placed.mem_bucket.mp ht).1, hwoken.others, hwoken.placed⟩

/-- Two of three threads wait on one word. -/
def twoWait : List (ℕ × Op (Fin 3) Unit) :=
  [(0, .trap (.create 0 0 0 0 true)), (0, .trap (.create 0 0 0 0 true)),
    (0, .trap (.futexWait (identityAccess 0x1000) 0 0)),
    (0, .trap (.futexWait (identityAccess 0x1000) 0 0))]

/-- The first of them is woken. -/
theorem futexResume_twoWait : ∃ k k' : Kernel (Fin 3) Unit, bootRun 2 1#32 twoWait = some k ∧
    k.sched.waiters 0x400 = [2, 1] ∧
    k.futexResume ((identityAccess 0x1000).safemem safememR) 1 = some (.returned 1, k') ∧
    k'.sched.status 2 = .ready ∧ k'.sched.status 1 = .blocked := by
  obtain ⟨e, k₀, k, hboot, hk, hrun, hwaiters, hblocked, hptr⟩ :=
    exists_reached_of_bootRun 1#32 twoWait
    (C := Safe (oneVm 2)) (by simp [twoWait, Safe, Trap.Safe])
    (fun k => k.sched.waiters 0x400 = [2, 1] ∧ k.sched.status 1 = .blocked ∧
      ∀ t, k.sched.futexPtr t < 0x400000000) (by decide +kernel)
  have hc : Coherent (oneVm 2) k := hk.coherent (fun _ _ _ => id) (coherent_boot (by decide) hboot)
  have ha : (identityAccess 0x1000).safemem safememR = some 0x1000 := by decide +kernel
  obtain ⟨k', hk', hstatus, -⟩ :=
    futexResume_wakes_first (oneVm 2) k hc.placed (fun t _ => hptr t)
      (identityAccess 0x1000) ha 1
  have hword : 0x1000 / 4 = 0x400 := rfl
  rw [hword, hwaiters] at hk' hstatus
  exact ⟨k, k', hrun, hwaiters, hk', by simp [hstatus], by simp [hstatus, hblocked]⟩

/-! ## Buckets and addresses -/

theorem futexHashval_lt {a : ℕ} (ha : a < 2 ^ 36) : futexHashval a < 64 :=
  Nat.xor_lt_two_pow (n := 6) (by omega) (by omega)

/-- **One bucket for an address, and one address for a bucket.**  Buckets are below 64, and words
that agree where waiters are compared are in different ones.  Raising and cancelling compute the
bucket from `futex_ptr`, the others from the address: it is the same.  A thread that waits is found
just for the address that it was found to wait on, and that is the word itself as long as the
entries of the TLB keep all of the address in their lower word. -/
theorem futex_separation {k k' : Kernel ι β} {me : ι} {a : Access} {perms : BitVec 32} {pa : ℕ}
    (hpa : a.safemem perms = some pa) (hadd : k.futexEnqueue (pa / 4) me = some k') :
    (∀ x < 2 ^ 36, futexHashval x < 64 ∧ ∀ y < 2 ^ 36, x % 2 ^ 32 = y % 2 ^ 32 →
      futexHashval x = futexHashval y → x = y) ∧
    futexHashval (k'.sched.futexPtr me) = futexHashval (pa / 4) ∧
    ∀ a' perms' pa', Access.safemem perms' a' = some pa' →
      (futexHashval (pa' / 4) = futexHashval (pa / 4) ∧
        k'.sched.waitsOn (pa' / 4 % 0x100000000) me = true ↔ pa' / 4 = pa / 4) ∧
      (a.Low → a'.Low → (pa' / 4 = pa / 4 ↔ a'.physical.map (· / 4) = a.physical.map (· / 4))) := by
  obtain ⟨s, hs, rfl⟩ := Option.map_eq_some_iff.mp hadd
  obtain ⟨R, rfl⟩ := futexHashAddRing_fields hs
  have hlt := safemem_lt hpa
  -- the field keeps 34 bits, which is all there are
  have hptr : ((((k.sched.setFutexPtr me (pa / 4)).runlistRemove me).setR00 me 0).setStatus me
      .blocked).futexPtr me = pa / 4 := by
    simp only [Sched.setStatus_futexPtr, Sched.setR00_futexPtr, Sched.runlistRemove_futexPtr,
      Sched.setFutexPtr_futexPtr, Function.update_self]
    omega
  refine ⟨fun x hx => ⟨futexHashval_lt hx, fun y hy => eq_of_futexHashval hx hy⟩,
    congrArg futexHashval hptr, fun a' perms' pa' hpa' => ⟨?_, fun hlow hlow' => ?_⟩⟩
  · have hlt' := safemem_lt hpa'
    simp only [Sched.waitsOn, hptr, beq_iff_eq]
    constructor
    · rintro ⟨hhash, hlo⟩
      exact eq_of_futexHashval (by omega) (by omega) hlo.symm hhash
    · intro heq
      rw [heq]
      exact ⟨rfl, rfl⟩
  · rw [physical_of_low hlow hpa, physical_of_low hlow' hpa', Option.map_some, Option.map_some,
      Option.some.injEq]

/-- The same address by another entry of the TLB, with all permissions. -/
def pageAccess (address : BitVec 64) : Access :=
  { identityAccess 0x1000 with probe := some (0xf0000001#64 ||| address) }

/-- One of two threads waits on the word at 0x400001000. -/
def farWait : List (ℕ × Op (Fin 2) Unit) :=
  [(0, .trap (.create 0 0 0 0 true)), (0, .trap (.futexWait (pageAccess 0x800002) 0 0))]

/-- The other waits on the word at 0x1000, and a wake-up for one is none for the other. -/
theorem futex_separation_twoWords : ∃ k k' : Kernel (Fin 2) Unit, bootRun 1 1#32 farWait = some k ∧
    k.futexEnqueue (0x1000 / 4) 0 = some k' ∧ k'.sched.waiters 0x100000400 = [1] ∧
    k'.sched.waiters 0x400 = [0] ∧ (0x400001000 / 4) % 2 ^ 32 = (0x1000 / 4) % 2 ^ 32 ∧
    ¬(futexHashval (0x400001000 / 4) = futexHashval (0x1000 / 4) ∧
      k'.sched.waitsOn (0x400001000 / 4 % 0x100000000) 0 = true) := by
  have hrun : ∃ k ∈ bootRun 1 1#32 farWait, ∃ k' ∈ k.futexEnqueue (0x1000 / 4) 0,
      k'.sched.waiters 0x100000400 = [1] ∧ k'.sched.waiters 0x400 = [0] := by decide +kernel
  obtain ⟨k, hk, k', hadd, hfar, hnear⟩ := hrun
  have hpage : (pageAccess 2).safemem safememR = some 0x1000 := by decide +kernel
  have hsep := (futex_separation hpage hadd).2.2 (pageAccess 0x800002) safememR 0x400001000
    (by decide +kernel)
  exact ⟨k, k', hk, hadd, hfar, hnear, by decide, fun h => absurd (hsep.1.mp h) (by decide)⟩

/-- **A wake-up for another word**: one thread waits on the word at 0x1000, and a wake-up for the
one at 0x800001000 finds it. -/
theorem futexResume_other_word : ∃ k ∈ bootRun 1 1#32 [(0, .trap (.create 0 0 0 0 true)),
      (0, .trap (.futexWait (pageAccess 2) 0 0))], k.sched.status 1 = .blocked ∧
    ∃ q ∈ k.futexResume ((pageAccess 0x2000000000000002).safemem safememR) 1, q.1 = .returned 1 ∧
      q.2.sched.status 1 = .ready ∧ (pageAccess 2).physical = some 0x1000 ∧
      (pageAccess 0x2000000000000002).physical = some 0x800001000 := by
  decide +kernel

end H2
