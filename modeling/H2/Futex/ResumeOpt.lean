import H2.Futex.CommonOpt
import H2.Futex.Resume
import Mathlib.Data.BitVec
import Mathlib.Tactic.Abel

/-!
# Futex/ResumeOpt — the optimised wake-up

The loop of `futex_classic.v4opt.S` counts `N_TO_WAKE` down in the packet that tests it, once more
than threads are woken if it ends for want of a waiter.  The packet after the loop is to make up for
this; it tests the last thread removed, and adds 1 when there *is* one.

The threads woken are those of the reference.  The number returned is one too small if enough were
woken and one too large if not, and right only when no bucket is looked at or the bucket is empty
(`futexResume_agrees_iff`).
-/

namespace H2

open FutexOpt

open Hexagon (Word lower)

open BitVec (ofNat)

open Option (map_some some)

variable {ι β : Type} [DecidableEq ι] [DecidableEq β] [Fintype ι]

namespace FutexOpt

/-- From `.Lresume_next` to the end of the loop: what the last call returned, and `N_TO_WAKE`. -/
def resumeNext (paLo hashval : ℕ) :
    ℕ → Word → Option ι → Sched ι β → Option (Option ι × Word × Sched ι β)
  | 0, _, _, _ => none
  | fuel + 1, nToWake, pos, s => do
    let (r0, pos, s) ← futexHashRemoveOne paLo hashval pos s
    -- one packet: the compare reads the count that the addition reads
    if nToWake ≠ 1 ∧ r0 ≠ none then resumeNext paLo hashval fuel (nToWake - 1) pos s
    else some (r0, nToWake - 1, s)

/-- The two packets after the loop, where `orig` is loaded over the `r0` that is compared. -/
def numberWoken (orig : Word) (r0 : Option ι) (nToWake : Word) : Word :=
  orig - if r0 = none then nToWake else nToWake + 1

/-- `H2K_futex_resume`. -/
def futexResume (pa : Option ℕ) (nToWake : Word) (k : Kernel ι β) : Option (Exit × Kernel ι β) :=
  if nToWake = 0 then some (.returned 0, k)
  else
    match pa with
    | none => some (.returned (-1), k)
    | some pa =>
      let pa := ofNat 64 pa >>> 2
      let tmp := k.sched.rings.head (.futex (bucket pa))
      if tmp = none then some (.returned 0, k)
      else
        (resumeNext (lower pa).toNat (bucket pa) (Fintype.card ι + 1) nToWake tmp k.sched).map
          fun p => (.returned (numberWoken nToWake p.1 p.2.1).toInt,
            { k with sched := p.2.2 }.checkSanity)

/-! ## The bucket -/

theorem toNat_word {a : ℕ} (ha : a < 0x1000000000) : (ofNat 64 a >>> 2).toNat = a / 4 := by
  rw [BitVec.toNat_ushiftRight, BitVec.toNat_ofNat]
  omega

theorem bucket_word {a : ℕ} (ha : a < 0x1000000000) :
    bucket (ofNat 64 a >>> 2) = futexHashval (a / 4) := by
  have hword := toNat_word ha
  rw [bucket_eq (by omega), hword]

/-! ## The loop -/

/-- What the reference counts, as it is returned. -/
def miscount (nToWake : Word) (nWoken : ℕ) : Word :=
  if nWoken = nToWake.toNat then ofNat 32 nWoken - 1 else ofNat 32 nWoken + 1

/-- No count comes out right. -/
theorem miscount_ne (nToWake : Word) (nWoken : ℕ) : (miscount nToWake nWoken).toInt ≠ nWoken := by
  intro h
  have hword : miscount nToWake nWoken = ofNat 32 nWoken := by
    rw [← BitVec.ofInt_toInt (x := miscount nToWake nWoken), h, BitVec.ofInt_natCast]
  unfold miscount at hword
  split at hword
  · exact absurd (sub_eq_self.mp hword) (by decide : (1 : Word) ≠ 0)
  · exact absurd (add_eq_left.mp hword) (by decide : (1 : Word) ≠ 0)

theorem sub_eq_one_iff {nToWake : Word} {nWoken : ℕ} (hlt : nWoken < nToWake.toNat) :
    nToWake - ofNat 32 nWoken = 1 ↔ ¬nWoken + 1 < nToWake.toNat := by
  have hone : (1 : Word).toNat = 1 := rfl
  rw [← BitVec.toNat_inj, BitVec.toNat_sub, BitVec.toNat_ofNat]
  omega

/-- **The loops agree** on what they leave behind, not on the count. -/
theorem resumeNext_eq (paLo hashval : ℕ) (nToWake : Word) :
    ∀ (fuel : ℕ) {nWoken : ℕ} (pos : Option ι) (s : Sched ι β), nWoken < nToWake.toNat →
      (resumeNext paLo hashval fuel (nToWake - ofNat 32 nWoken) pos s).map
          (fun p => (numberWoken nToWake p.1 p.2.1, p.2.2)) =
        (s.futexResumeLoop paLo hashval nToWake.toNat fuel nWoken pos).map
          fun p => (miscount nToWake p.1, p.2)
  | 0, _, _, _, _ => rfl
  | fuel + 1, nWoken, pos, s, hlt => by
      rw [resumeNext, Sched.futexResumeLoop, ← futexHashRemoveOne_eq]
      rcases futexHashRemoveOne paLo hashval pos s with - | ⟨r0, pos', s'⟩
      · rfl
      rcases r0 with - | cur
      · have hne : nWoken ≠ nToWake.toNat := hlt.ne
        simp only [Option.bind_eq_bind, Option.bind_some, map_some, ne_eq, not_true_eq_false,
          and_false, ↓reduceIte, numberWoken, miscount, if_neg hne]
        congr 2
        abel
      simp only [Option.bind_eq_bind, Option.bind_some, map_some, reduceCtorEq, ↓reduceIte,
        ne_eq, not_false_eq_true, and_true, sub_eq_one_iff hlt, not_not]
      have hstep : nToWake - ofNat 32 nWoken - 1 = nToWake - ofNat 32 (nWoken + 1) := by
        rw [BitVec.ofNat_add]
        abel
      split
      · next hmore => rw [hstep, resumeNext_eq paLo hashval nToWake fuel pos' s' hmore]
      · next hdone =>
        have heq : nWoken + 1 = nToWake.toNat := by omega
        have hcount : numberWoken nToWake (some cur) (nToWake - ofNat 32 nWoken - 1) =
            miscount nToWake (nWoken + 1) := by
          rw [numberWoken, miscount, if_neg (by simp), if_pos heq, BitVec.ofNat_add]
          abel
        rw [map_some, map_some, hcount]

/-! ## The wake-up -/

variable {M : Machine ι β} {k : Kernel ι β} {nToWake : Word} {a : ℕ}

/-- **A bucket with threads in it** loses the same threads, and they are counted wrong. -/
theorem futexResume_miscounts (hs : Placed M k.sched) (ha : a < 0x1000000000) (hn : nToWake ≠ 0)
    (hq : k.sched.queue (.futex (futexHashval (a / 4))) ≠ []) : ∃ (nWoken : ℕ) (k' : Kernel ι β),
      k.futexResume (some a) nToWake.toNat = some (.returned nWoken, k') ∧
      futexResume (some a) nToWake k = some (.returned (miscount nToWake nWoken).toInt, k') := by
  have hlo : (lower (ofNat 64 a >>> 2)).toNat = a / 4 % 0x100000000 := by
    rw [Hexagon.toNat_lower, toNat_word ha]
    rfl
  have hhead := hq ∘ hs.holds.rep.head_eq_none.mp
  have hn' : nToWake.toNat ≠ 0 := fun e => hn (BitVec.eq_of_toNat_eq e)
  -- the reference comes back
  obtain ⟨p, href⟩ : ∃ p, k.futexResume (some a) nToWake.toNat = some p := by
    obtain ⟨_, -, heq | ⟨-, heq⟩⟩ := futexResume_eq hs a nToWake.toNat <;> exact ⟨_, heq⟩
  simp only [Kernel.futexResume, if_neg hn', if_neg hhead] at href ⊢
  obtain ⟨⟨nWoken, s⟩, hloop, -⟩ := Option.map_eq_some_iff.mp href
  have hopt := resumeNext_eq (a / 4 % 0x100000000) (futexHashval (a / 4)) nToWake
    (Fintype.card ι + 1) (k.sched.rings.head (.futex (futexHashval (a / 4)))) k.sched
    (Nat.pos_of_ne_zero hn')
  rw [hloop, BitVec.sub_zero] at hopt
  obtain ⟨q, hq, hcount⟩ := Option.map_eq_some_iff.mp hopt
  obtain ⟨hcount, hsched⟩ := Prod.mk.inj hcount
  refine ⟨nWoken, { k with sched := s }.checkSanity, by rw [hloop]; rfl, ?_⟩
  simp only [futexResume, if_neg hn, bucket_word ha, hlo, if_neg hhead, hq, map_some,
    hcount, hsched]

end FutexOpt

/-- **The optimised wake-up** leaves the kernel as the reference does; the values returned agree
just when no thread is asked for, the access is refused, or the bucket is empty. -/
theorem futexResume_agrees_iff (M : Machine ι β) (k : Kernel ι β) (hs : Placed M k.sched)
    (lock : Access) (nToWake : Word) :
    ∃ e e' k', futexResume (lock.safemem safememR) nToWake k = some (e, k') ∧
      k.futexResume (lock.safemem safememR) nToWake.toNat = some (e', k') ∧
      (e = e' ↔ nToWake = 0 ∨ ∀ a, lock.safemem safememR = some a →
        k.sched.queue (.futex (futexHashval (a / 4))) = []) := by
  by_cases hn : nToWake = 0
  · subst hn
    exact ⟨_, _, k, rfl, rfl, by simp⟩
  have hn' : nToWake.toNat ≠ 0 := fun e => hn (BitVec.eq_of_toNat_eq e)
  rcases ha : lock.safemem safememR with - | a
  · refine ⟨.returned (-1), .returned (-1), k, ?_, ?_, by simp⟩
    · rw [futexResume, if_neg hn]
    · rw [Kernel.futexResume, if_neg hn']
  by_cases hq : k.sched.queue (.futex (futexHashval (a / 4))) = []
  · have hhead : k.sched.rings.head (.futex (futexHashval (a / 4))) = none :=
      hs.holds.rep.head_eq_none.mpr hq
    refine ⟨.returned 0, .returned 0, k, ?_, ?_, by simp [hq]⟩
    · simp only [futexResume, if_neg hn, bucket_word (safemem_lt ha), hhead, ↓reduceIte]
    · simp only [Kernel.futexResume, if_neg hn', hhead, ↓reduceIte]
  · obtain ⟨nWoken, k', href, hopt⟩ :=
      futexResume_miscounts hs (safemem_lt ha) hn hq
    refine ⟨_, _, k', hopt, href, iff_of_false ?_ ?_⟩
    · intro he
      exact miscount_ne nToWake nWoken (Exit.returned.inj he)
    · rintro (h | h)
      · exact hn h
      · exact hq (h a rfl)

/-- Two waiters in one bucket, and what the reference returns to whom wakes one of them or three. -/
theorem twoWait_bucket : ∃ k : Kernel (Fin 3) Unit, bootRun 2 1#32 twoWait = some k ∧
    Placed (oneVm 2) k.sched ∧ k.sched.queue (.futex (futexHashval (0x1000 / 4))) ≠ [] ∧
    (k.futexResume (some 0x1000) 1).map (·.1) = some (.returned 1) ∧
    (k.futexResume (some 0x1000) 3).map (·.1) = some (.returned 2) := by
  obtain ⟨e, k₀, k, hboot, hk, hrun, hP⟩ := exists_reached_of_bootRun 1#32 twoWait
    (C := Safe (oneVm 2)) (by simp [twoWait, Safe, Trap.Safe])
    (fun k => k.sched.queue (.futex (futexHashval (0x1000 / 4))) ≠ [] ∧
      (k.futexResume (some 0x1000) 1).map (·.1) = some (.returned 1) ∧
      (k.futexResume (some 0x1000) 3).map (·.1) = some (.returned 2)) (by decide +kernel)
  have hc : Coherent (oneVm 2) k := hk.coherent (fun _ _ _ => id) (coherent_boot (by decide) hboot)
  exact ⟨k, hrun, hc.placed, hP⟩

/-- Of two waiters, waking one is reported as none, and waking both for want of a third as three. -/
theorem futexResume_twoWait_miscounted : ∃ k k₁ k₃ : Kernel (Fin 3) Unit,
    bootRun 2 1#32 twoWait = some k ∧
    k.futexResume (some 0x1000) 1 = some (.returned 1, k₁) ∧
    futexResume (some 0x1000) 1 k = some (.returned 0, k₁) ∧
    k.futexResume (some 0x1000) 3 = some (.returned 2, k₃) ∧
    futexResume (some 0x1000) 3 k = some (.returned 3, k₃) := by
  obtain ⟨k, hrun, hs, hq, h₁, h₃⟩ := twoWait_bucket
  obtain ⟨n₁, k₁, href₁, hopt₁⟩ :=
    futexResume_miscounts hs (by decide) (by decide : (1 : Word) ≠ 0) hq
  obtain ⟨n₃, k₃, href₃, hopt₃⟩ :=
    futexResume_miscounts hs (by decide) (by decide : (3 : Word) ≠ 0) hq
  change k.futexResume (some 0x1000) 1 = _ at href₁
  change k.futexResume (some 0x1000) 3 = _ at href₃
  rw [href₁, map_some, some.injEq, Exit.returned.injEq] at h₁
  rw [href₃, map_some, some.injEq, Exit.returned.injEq] at h₃
  obtain rfl : n₁ = 1 := Int.natCast_inj.mp h₁
  obtain rfl : n₃ = 2 := Int.natCast_inj.mp h₃
  exact ⟨k, k₁, k₃, hrun, href₁, hopt₁, href₃, hopt₃⟩

/-- There a thread is asked for, the access is allowed and the bucket is not empty. -/
theorem futexResume_agrees_iff_twoWait : ∃ (k k' : Kernel (Fin 3) Unit) (e e' : Exit),
    bootRun 2 1#32 twoWait = some k ∧
    futexResume ((identityAccess 0x1000).safemem safememR) 1 k = some (e, k') ∧
    k.futexResume ((identityAccess 0x1000).safemem safememR) 1 = some (e', k') ∧ e ≠ e' := by
  obtain ⟨k, hrun, hs, hq, -, -⟩ := twoWait_bucket
  have ha : (identityAccess 0x1000).safemem safememR = some 0x1000 := by decide +kernel
  obtain ⟨e, e', k', hopt, href, hiff⟩ :=
    futexResume_agrees_iff (oneVm 2) k hs (identityAccess 0x1000) 1
  refine ⟨k, k', e, e', hrun, hopt, href, fun he => ?_⟩
  rcases hiff.mp he with h | h
  · exact absurd h (by decide)
  · exact hq (h _ ha)

end H2
