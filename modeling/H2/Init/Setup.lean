import H2.Sched.CheckSanity
import Mathlib.Data.Finset.Max

/-!
# Init/Setup — the hardware threads the kernel starts

`H2K_thread_boot` starts the hardware threads of a mask, reads back which ones are on, and keeps
the mask and its population count.  Hardware thread numbers index the runlist, but its loops run up
to the count — so a mask with a gap hides a running thread from them.
-/

namespace H2

open Finset

/-- `MODECTL_E_MASK`. -/
def modectlEMask : BitVec 32 := 0xffff#32

/-- `Q6_R_popcount_P`. -/
def popcount (w : BitVec 32) : ℕ := ((range 32).filter fun h => w.getLsbD h = true).card

/-- Which of `HTHREADS_MASK` and `NUM_HTHREADS` a build defines. -/
inductive HthreadsConfig where
  | hthreadsMask (mask : BitVec 32)
  | numHthreads (requested : ℕ)
  /-- Neither: the boot VM starts the rest. -/
  | bootVm

/-- What the boot code reads of the hardware it runs on. -/
structure BootHw where
  maxHthreads : ℕ
  arch : ℕ
  /-- `H2K_cfg_table(CFG_TABLE_HTHREADS_MASK)`. -/
  cfgTableMask : BitVec 32
  /-- `H2K_gp->hthreads` before the boot thread sets it. -/
  hthreads : ℕ

/-- The loop that keeps the first `requested` bits of a mask, over the bit numbers from `i` on. -/
def pickHthreads (mask : BitVec 32) (requested : ℕ) : ℕ → ℕ → ℕ → BitVec 32 → BitVec 32
  | 0, _, _, newMask => newMask
  | n + 1, i, nthreads, newMask =>
    if nthreads < requested then
      if mask.getLsbD i then pickHthreads mask requested n (i + 1) (nthreads + 1)
        (newMask ||| 1#32 <<< i)
      else pickHthreads mask requested n (i + 1) nthreads newMask
    else newMask

/-- `MAX_HTHREADS_MASK`. -/
def BootHw.maxHthreadsMask (hw : BootHw) : BitVec 32 := (1#32 <<< hw.maxHthreads) - 1

/-- `modectl` after `H2K_start_threads(mask)`: thread 0, which executes this, is on already. -/
def modectl (mask : BitVec 32) : BitVec 32 := (mask ||| 1#32) &&& modectlEMask

/-- `hthreads_mask` at the end of `H2K_thread_boot`. -/
def BootHw.hthreadsMask (hw : BootHw) : HthreadsConfig → BitVec 32
  | .hthreadsMask mask => modectl ((mask &&& hw.maxHthreadsMask) ||| 1#32)
  | .numHthreads requested =>
    let mask :=
      if 0x65 < hw.arch then
        if popcount hw.cfgTableMask < requested then hw.cfgTableMask
        else pickHthreads hw.cfgTableMask requested 32 0 0 0
      else (1#32 <<< hw.hthreads) - 1
    modectl (mask &&& hw.maxHthreadsMask)
  | .bootVm => 1#32

/-! ## Masks and counts -/

/-- No gaps: a hardware thread is on only if all below it are. -/
def Dense (mask : BitVec 32) : Prop :=
  ∀ h h', h < h' → mask.getLsbD h' = true → mask.getLsbD h = true

theorem popcount_le (mask : BitVec 32) : popcount mask ≤ 32 := by
  simpa [popcount] using card_filter_le (range 32) fun h => mask.getLsbD h = true

variable {mask : BitVec 32}

theorem Dense.lt_popcount (hd : Dense mask) {h : ℕ}
    (hh : mask.getLsbD h = true) : h < popcount mask := by
  have hsub : range (h + 1) ⊆ (range 32).filter fun h => mask.getLsbD h = true := by
    intro i hi
    have hbit : mask.getLsbD i = true := by
      rcases Nat.lt_succ_iff_lt_or_eq.mp (mem_range.mp hi) with hlt | rfl
      · exact hd i h hlt hh
      · exact hh
    exact mem_filter.mpr ⟨mem_range.mpr (BitVec.lt_of_getLsbD hbit), hbit⟩
  simpa [popcount, Nat.succ_le_iff] using card_le_card hsub

/-- A mask with a gap has a bit at or above its population count. -/
theorem exists_popcount_le (hd : ¬Dense mask) :
    ∃ h, mask.getLsbD h = true ∧ popcount mask ≤ h := by
  simp only [Dense, not_forall] at hd
  obtain ⟨g, h, hgh, hh, hg⟩ := hd
  set S := (range 32).filter fun h => mask.getLsbD h = true
  have hS : S.Nonempty :=
    ⟨h, mem_filter.mpr ⟨mem_range.mpr (BitVec.lt_of_getLsbD hh), hh⟩⟩
  -- the topmost bit: all others are below it, and the gap is too
  have hmax := mem_filter.mp (S.max'_mem hS)
  refine ⟨S.max' hS, hmax.2, ?_⟩
  have hgmax : g < S.max' hS := hgh.trans_le (S.le_max' h
    (mem_filter.mpr ⟨mem_range.mpr (BitVec.lt_of_getLsbD hh), hh⟩))
  have hsub : S ⊆ (range (S.max' hS + 1)).erase g := by
    intro i hi
    refine mem_erase.mpr ⟨?_, mem_range.mpr (Nat.lt_succ_of_le (S.le_max' i hi))⟩
    rintro rfl
    exact hg (mem_filter.mp hi).2
  have hcard := card_le_card hsub
  rw [card_erase_of_mem (mem_range.mpr (by omega)), card_range] at hcard
  exact hcard

/-! ## One thread running -/

section OneRunning

variable {ι β : Type} [dι : DecidableEq ι]

/-- The structures after `H2K_runlist_init` and its siblings: nothing is anywhere. -/
def Sched.init : Sched ι β where
  rings := ⟨⟨fun _ => none, fun _ => none⟩, fun _ => none⟩
  status _ := .dead
  prio _ := 0
  hthread _ := 0
  futexPtr _ := 0
  r00 _ := 0
  runlist _ := none
  runlistPrios _ := -1
  readyValids _ := 0
  freeThreads _ := none
  inthandlers _ := .null
  outOfBounds := false

/-- The hardware threads of a mask just started. -/
def Hw.init (mask : BitVec 32) : Hw ι β where
  waitMask := 0
  priomask := 0
  maskForIpi := 0
  hthreads := popcount mask
  hthreadsMask := mask
  sgp _ := none
  latched _ := none
  imask _ := 0
  reschedInt := false
  hung := false

omit dι in
theorem assigned_init {s : Sched ι β} (hrun : s.runlist = fun _ => none)
    (hprios : s.runlistPrios = fun _ => -1) (hstatus : ∀ t, s.status t ≠ .running)
    (hprio : ∀ t, s.prio t ≤ maxPrio) : Assigned mask s where
  running := by simp [hrun, hstatus]
  slot := by simp [hrun]
  prios := by simp [hrun]
  empty := by simp [hprios]
  prio_le := hprio

/-- A push onto a free hardware thread of the mask. -/
theorem Assigned.runlistPush {s : Sched ι β} (ha : Assigned mask s) {t : ι}
    (hfree : s.runlist (s.hthread t) = none) (hmask : mask.getLsbD (s.hthread t) = true) :
    Assigned mask (s.runlistPush t) where
  running {u} := by
    by_cases hu : u = t
    · simp [hu]
    · by_cases hh : s.hthread u = s.hthread t
      · have hnot : ¬s.status u = .running := fun h => by
          have := ha.running.mp h
          rw [hh, hfree] at this
          exact absurd this (by simp)
        simp [hu, hh, hnot, Ne.symm hu]
      · simp [hu, hh, ha.running]
  slot {h u} hslot := by
    by_cases hh : h = s.hthread t
    · simp [hh] at hslot ⊢
      exact hslot ▸ ⟨rfl, hmask⟩
    · simp [hh] at hslot ⊢
      exact ha.slot hslot
  prios {h u} hslot := by
    by_cases hh : h = s.hthread t
    · simp [hh] at hslot ⊢
      rw [hslot]
    · simp [hh] at hslot ⊢
      exact ha.prios hslot
  empty {h} hnone := by
    by_cases hh : h = s.hthread t
    · simp [hh] at hnone
    · simp [hh] at hnone ⊢
      exact ha.empty hnone
  prio_le := ha.prio_le

/-- `t` alone runs, on hardware thread `h`. -/
def oneRunning (t : ι) (h : ℕ) : Sched ι β :=
  { (Sched.init : Sched ι β) with hthread := fun _ => h }.runlistPush t

theorem assigned_oneRunning {t : ι} {h : ℕ} (hh : mask.getLsbD h = true) :
    Assigned mask (oneRunning t h : Sched ι β) :=
  (assigned_init rfl rfl (by simp [Sched.init]) (by simp [Sched.init])).runlistPush rfl hh

/-- A thread above the count is not seen. -/
theorem runlistWorstPrio_oneRunning {t : ι} {h n : ℕ} (hn : n ≤ h) :
    runlistWorstPrio n (oneRunning t h : Sched ι β) = maxPrios := by
  have hprios : ∀ i < n, (oneRunning t h : Sched ι β).runlistPrios i = -1 :=
    fun i hi => Function.update_of_ne (show i ≠ h by omega) ..
  rcases worstScan_spec (oneRunning t h : Sched ι β).runlistPrios n with
    ⟨hscan, -⟩ | ⟨i, hi, -, hpos, -⟩
  · rw [runlistWorstPrio, hscan, if_pos rfl]
  · rw [hprios i hi] at hpos
    omega

end OneRunning

/-- **The running threads are all considered exactly when the mask has no gap** — for every way the
boot code chooses the mask, and every assignment of running threads to its hardware threads. -/
theorem worst_running_iff_dense {ι β : Type} [DecidableEq ι] [Inhabited ι] (boot : BootHw)
    (cfg : HthreadsConfig) :
    (∀ (s : Sched ι β) (hw : Hw ι β), hw.hthreadsMask = boot.hthreadsMask cfg →
      hw.hthreads = popcount hw.hthreadsMask → Assigned hw.hthreadsMask s →
      (∃ t, s.status t = .running) → WorstRunning s hw) ↔ Dense (boot.hthreadsMask cfg) := by
  refine ⟨fun hall => ?_, fun hdense s hw hmask hcount ha ⟨t₀, ht₀⟩ => ?_⟩
  · by_contra hgap
    obtain ⟨h, hh, hle⟩ := exists_popcount_le hgap
    have hrunning : (oneRunning (default : ι) h : Sched ι β).status default = .running :=
      Function.update_self ..
    obtain ⟨⟨t, -, ht⟩, -⟩ := hall (oneRunning default h) (Hw.init (boot.hthreadsMask cfg)) rfl rfl
      (assigned_oneRunning hh) ⟨default, hrunning⟩
    rw [show (Hw.init (boot.hthreadsMask cfg) : Hw ι β).hthreads = popcount (boot.hthreadsMask cfg)
      from rfl, runlistWorstPrio_oneRunning hle] at ht
    exact absurd ht (by simp [oneRunning, Sched.init, maxPrios])
  · refine ha.worstRunning (fun h hh => ?_) ?_ ht₀
    · rw [hmask] at hcount hh
      exact hcount ▸ hdense.lt_popcount hh
    · rw [hcount]
      exact (popcount_le _).trans (by decide)

/-- Two threads on hardware threads 0 and 2, of priorities 10 and 200. -/
def gapSched : Sched Bool Unit :=
  { (Sched.init : Sched Bool Unit) with
    hthread := fun t => if t then 2 else 0
    prio := fun t => if t then 200 else 10 }.runlistPush false |>.runlistPush true

/-- With `HTHREADS_MASK` 5 the loops stop before hardware thread 2: the thread of priority 200 is
running, and the worst priority is said to be 10. -/
theorem worst_running_misses_gap :
    BootHw.hthreadsMask ⟨8, 0x73, 0xff#32, 1⟩ (.hthreadsMask 5#32) = 5#32 ∧ popcount 5#32 = 2 ∧
      Assigned 5#32 gapSched ∧ gapSched.status true = .running ∧ gapSched.prio true = 200 ∧
      runlistWorstPrio (popcount 5#32) gapSched = 10 ∧
      runlistWorstPrioHthread (popcount 5#32) gapSched = 0 := by
  refine ⟨by decide, by decide, ?_, rfl, rfl, by decide, by decide⟩
  refine ((assigned_init rfl rfl (by simp [Sched.init]) ?_).runlistPush rfl rfl).runlistPush rfl rfl
  intro t
  cases t <;> decide

end H2
