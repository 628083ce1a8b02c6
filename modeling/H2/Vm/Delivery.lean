import H2.Kernel.Calm
import H2.Vm.Intop
import Mathlib.Algebra.GroupWithZero.Nat

/-!
# Vm/Delivery — who takes a shared interrupt

`H2K_vm_shint_deliver` asks the cpus that wait first, as far as `waiting_cpus` knows of them, and
then all cpus from the one that posted on.  A cpu that is enabled for the interrupt is given work to
do and takes the interrupt unless it is dead.

Both loops are one search along a list (`vmShintDeliver_eq`), and what a search does depends on the
cpu that it finds and nothing else (`shintTry_spec`).
-/

namespace H2

open Kernel List

variable {ι β : Type} [dι : DecidableEq ι] [dβ : DecidableEq β]

namespace Kernel

/-- One cpu after the other, until one takes the interrupt. -/
def shintTry (M : Machine ι β) (intno : ℕ) : List ι → Kernel ι β → Option ι × Kernel ι β
  | [], k => (none, k)
  | dest :: rest, k =>
    let (took, k) := k.vmShintDeliverCpu M dest intno
    if took then (some dest, k) else shintTry M intno rest k

/-- The cpus that wait, as far as `waiting_cpus` has a bit for them. -/
def shintWaiters (M : Machine ι β) (b : β) (k : Kernel ι β) (is : List ℕ) : List ι :=
  is.filterMap fun i => if (k.vms.waitingCpus b).getLsbD i then M.context b i else none

/-- All cpus, in the order in which they are asked. -/
def shintCandidates (M : Machine ι β) (me : ι) (k : Kernel ι β) : List ι :=
  k.shintWaiters M (M.vmblock me) (range (min 64 (M.maxCpus (M.vmblock me)))) ++
    (M.contexts (M.vmblock me)).rotate (M.cpuidx me)

/-- A cpu that takes the interrupt when it is asked. -/
def takes (intno : ℕ) (k : Kernel ι β) (t : ι) : Bool :=
  k.ints.percpuMask t intno && k.sched.status t != .dead

/-- `VMWORK` of all cpus. -/
def setWork (v : ι → Bool) (k : Kernel ι β) : Kernel ι β :=
  { k with threads := { k.threads with vmwork := v } }

/-- Those of the cpus that are enabled for the interrupt have been given work. -/
def markWork (intno : ℕ) (ts : List ι) (k : Kernel ι β) : Kernel ι β :=
  k.setWork fun t => k.threads.vmwork t || (decide (t ∈ ts) && k.ints.percpuMask t intno)

end Kernel

section Search

variable {M : Machine ι β} {k : Kernel ι β} {intno : ℕ} {t : ι}

section

omit dβ

theorem markWork_eq {v : ι → Bool} {ts : List ι}
    (hv : ∀ u, v u = (k.threads.vmwork u || (decide (u ∈ ts) && k.ints.percpuMask u intno))) :
    k.markWork intno ts = k.setWork v := by
  rw [markWork, ← funext hv]

theorem markWork_cons (ts : List ι) :
    (k.markWork intno [t]).markWork intno ts = k.markWork intno (t :: ts) := by
  refine (markWork_eq (k := k) fun u => ?_).symm
  by_cases hu : u = t
  · simpa [markWork, setWork, hu] using fun _ => Or.inr
  · simp [markWork, setWork, hu]

@[simp] theorem takes_markWork (ts : List ι) : (k.markWork intno ts).takes intno = k.takes intno :=
    rfl

end

/-- Only the dead refuse, and nothing is done to them. -/
theorem vmIntDeliverLocked_eq_neg (t : ι) : (k.vmIntDeliverLocked M t intno).1 ≠ -1 ↔
    k.sched.status t ≠ .dead := by
  unfold vmIntDeliverLocked
  split <;> simp_all

theorem vmIntDeliverLocked_threads (M : Machine ι β) (t : ι) (intno : ℕ) (k : Kernel ι β) :
    (k.vmIntDeliverLocked M t intno).2.threads = k.threads := by
  rcases vmIntDeliverLocked_cases M t intno k with ⟨-, heq | heq⟩ | ⟨s, v, -, -, heq⟩ <;> rw [heq]
  · obtain ⟨m, hm⟩ := vmIpiSendWithlock_eq t k
    rw [hm]
  · rfl

/-- **The interrupt is delivered**: the cpu has work to do.  Out of VMWAIT it is ready, with the
number of the interrupt as its result; and if its interrupts are enabled, it is interrupted where it
runs, and ready where it waits for something else. -/
structure Delivered (intno : ℕ) (t : ι) (k k' : Kernel ι β) : Prop where
  vmwork : k'.threads.vmwork t = true
  vmwait : k.sched.status t = .vmwait → k'.sched.status t = .ready ∧ k'.sched.r00 t = intno
  running : k.sched.status t = .running → k.threads.ie t = true →
    k'.hw.maskForIpi = k.hw.maskForIpi ||| (1#32 <<< k.sched.hthread t)
  blocked : k.sched.status t = .blocked ∨ k.sched.status t = .intblocked → k.threads.ie t = true →
    k'.sched.status t = .ready

theorem vmIntDeliverLocked_delivered (M : Machine ι β) (hwork : k.threads.vmwork t = true) :
    Delivered intno t k (k.vmIntDeliverLocked M t intno).2 where
  vmwork := by rwa [vmIntDeliverLocked_threads]
  vmwait hst := by simp [vmIntDeliverLocked, hst]
  running hst hie := by simp [vmIntDeliverLocked, vmIpiSendWithlock, hst, hie]
  blocked hst hie := by rcases hst with hst | hst <;> simp [vmIntDeliverLocked, hst, hie]

/-- **One cpu is asked.** -/
theorem vmShintDeliverCpu_eq (t : ι) : k.vmShintDeliverCpu M t intno =
    if k.takes intno t then (true, ((k.markWork intno [t]).vmIntDeliverLocked M t intno).2)
    else (false, k.markWork intno [t]) := by
  unfold vmShintDeliverCpu takes
  split
  · next hmask =>
    have hmark : k.markWork intno [t] = k.setWork (Function.update k.threads.vmwork t true) :=
      markWork_eq fun u => by by_cases hu : u = t <;> simp [hu, hmask]
    set k₁ := k.setWork (Function.update k.threads.vmwork t true)
    have hne : (k₁.vmIntDeliverLocked M t intno).1 ≠ -1 ↔ k.sched.status t ≠ .dead :=
      vmIntDeliverLocked_eq_neg t
    rw [hmark]
    change (decide ((k₁.vmIntDeliverLocked M t intno).1 ≠ -1),
      (k₁.vmIntDeliverLocked M t intno).2) = _
    by_cases hdead : k.sched.status t = .dead
    · have hstatus : k₁.sched.status t = .dead := hdead
      simp [vmIntDeliverLocked, hstatus, hdead]
    · simp [hdead, hmask, hne.mpr hdead]
  · next hmask =>
    have hmark : k.markWork intno [t] = k :=
      markWork_eq fun u => by by_cases hu : u = t <;> simp [hu, hmask]
    simp [hmask, hmark]

/-- **The search**: the first that takes the interrupt has it delivered, and those asked before have
been given work. -/
theorem shintTry_spec (M : Machine ι β) (intno : ℕ) (ts : List ι) (k : Kernel ι β) :
    ∃ tried ⊆ ts, (∀ t ∈ ts.find? (k.takes intno), t ∈ tried) ∧
      k.shintTry M intno ts = (ts.find? (k.takes intno),
      match ts.find? (k.takes intno) with
      | none => k.markWork intno tried
      | some t => ((k.markWork intno tried).vmIntDeliverLocked M t intno).2) := by
  induction ts generalizing k with
  | nil => exact ⟨[], Subset.refl _, by simp, by simp [shintTry, markWork, setWork]⟩
  | cons t ts ih =>
    rw [shintTry, vmShintDeliverCpu_eq, find?_cons]
    cases htakes : k.takes intno t with
    | true => exact ⟨[t], by simp, by simp, by simp⟩
    | false =>
      obtain ⟨tried, hsub, hfound, htry⟩ := ih (k.markWork intno [t])
      rw [takes_markWork] at hfound htry
      refine ⟨t :: tried, cons_subset_cons t hsub, fun u hu => mem_cons_of_mem t (hfound u hu), ?_⟩
      simp only [Bool.false_eq_true, if_false, htry, markWork_cons]

theorem shintTry_append (ts us : List ι) : k.shintTry M intno (ts ++ us) =
    match k.shintTry M intno ts with
    | (none, k) => k.shintTry M intno us
    | p => p := by
  induction ts generalizing k with
  | nil => rfl
  | cons t ts ih =>
    rw [cons_append, shintTry, shintTry]
    rcases k.vmShintDeliverCpu M t intno with ⟨- | -, k'⟩
    · exact ih
    · rfl

/-- The first loop is such a search; a cpu that does not take the interrupt leaves `waiting_cpus`
alone. -/
theorem shintWaiting_eq (b : β) (is : List ℕ) :
    k.shintWaiting M b intno is = ((k.shintTry M intno (k.shintWaiters M b is)).1.isSome,
      (k.shintTry M intno (k.shintWaiters M b is)).2) := by
  induction is generalizing k with
  | nil => rfl
  | cons i is ih =>
    rw [shintWaiting, shintWaiters, filterMap_cons]
    rcases (if (k.vms.waitingCpus b).getLsbD i then M.context b i else none) with - | dest
    · exact ih
    · simp only [shintTry, vmShintDeliverCpu_eq]
      cases k.takes intno dest with
      | true => rfl
      | false => exact ih

theorem shintAny_eq (ts : List ι) : k.shintAny M intno ts = (k.shintTry M intno ts).2 := by
  induction ts generalizing k with
  | nil => rfl
  | cons t ts ih =>
    rw [shintAny, shintTry]
    rcases k.vmShintDeliverCpu M t intno with ⟨- | -, k'⟩
    · exact ih
    · rfl

omit dι dβ in
/-- No cpu below the first bit waits. -/
theorem shintWaiters_drop (b : β) (n : ℕ) :
    k.shintWaiters M b ((range n).drop (ct0P (k.vms.waitingCpus b))) =
      k.shintWaiters M b (range n) := by
  have hnone : k.shintWaiters M b ((range n).take (ct0P (k.vms.waitingCpus b))) = [] := by
    refine filterMap_eq_nil_iff.mpr fun i hi => if_neg fun hbit => ?_
    have hlt : i < ct0P (k.vms.waitingCpus b) := by
      rw [take_range, mem_range] at hi
      omega
    rw [ct0P] at hlt
    rcases hfind : (range 64).find? (k.vms.waitingCpus b).getLsbD with - | j
    · have := find?_eq_none.mp hfind i (mem_range.mpr (by simpa [hfind] using hlt))
      exact this hbit
    · rw [hfind] at hlt
      have := (find?_range_eq_some.mp hfind).2.2 i hlt
      simp [hbit] at this
  have happend : ∀ is js, k.shintWaiters M b (is ++ js) =
      k.shintWaiters M b is ++ k.shintWaiters M b js := fun _ _ => filterMap_append
  rw [← nil_append (k.shintWaiters M b (drop _ _)), ← hnone, ← happend, take_append_drop]

/-- **Delivery is one search.** -/
theorem vmShintDeliver_eq (me : ι) (k : Kernel ι β) :
    k.vmShintDeliver M me intno = (k.shintTry M intno (k.shintCandidates M me)).2 := by
  unfold vmShintDeliver shintCandidates
  simp only
  rw [shintWaiting_eq, shintWaiters_drop, shintTry_append]
  rcases k.shintTry M intno (k.shintWaiters M _ _) with ⟨- | t, k'⟩
  · exact shintAny_eq _
  · rfl

section

omit dι dβ

theorem length_shintCandidates (me : ι) (k : Kernel ι β) :
    (k.shintCandidates M me).length ≤ 64 + M.maxCpus (M.vmblock me) := by
  have hwaiters := length_filterMap_le
    (fun i => if (k.vms.waitingCpus (M.vmblock me)).getLsbD i then M.context (M.vmblock me) i else
      none)
    (range (min 64 (M.maxCpus (M.vmblock me))))
  have hall := length_filterMap_le (M.context (M.vmblock me)) (range (M.maxCpus (M.vmblock me)))
  rw [length_range] at hwaiters hall
  rw [shintCandidates, length_append, length_rotate]
  exact Nat.add_le_add (hwaiters.trans (Nat.min_le_left ..)) hall

theorem mem_shintCandidates {me : ι} : t ∈ k.shintCandidates M me ↔ M.vmblock t = M.vmblock me := by
  rw [shintCandidates, mem_append, mem_rotate, Machine.mem_contexts, or_iff_right_iff_imp,
    shintWaiters, mem_filterMap]
  rintro ⟨i, -, hi⟩
  split at hi
  · exact (M.context_eq_some.mp hi).1
  · cases hi

end

end Search

/-- `waiting_cpus` is the mask of the cpus in VMWAIT, as far as it goes. -/
def WaitingExact (M : Machine ι β) (b : β) (k : Kernel ι β) : Prop :=
  ∀ i < 64, (k.vms.waitingCpus b).getLsbD i = true ↔
    ∃ t, M.context b i = some t ∧ k.sched.status t = .vmwait

/-- **A shared interrupt finds a taker**, and is delivered to it: a cpu in VMWAIT that is enabled
for it, one of the first 64, if there is one, and another one that is not dead otherwise.  Nobody
takes it if all that are enabled are dead. -/
theorem vmShintPost_taker (M : Machine ι β) (k : Kernel ι β) (me : ι) (intno : ℕ)
    (hwaiting : WaitingExact M (M.vmblock me) k)
    (hpend : k.ints.pending (M.vmblock me) intno = false)
    (hen : k.ints.enable (M.vmblock me) intno = true) : ∃ (taker : Option ι) (k' : Kernel ι β),
      (k.shintCandidates M me).length ≤ 64 + M.maxCpus (M.vmblock me) ∧
      (k.setPending (M.vmblock me) intno true).shintTry M intno (k.shintCandidates M me) =
        (taker, k') ∧
      k.vmShintPost M me intno = k' ∧
      (∀ t, k'.threads.vmwork t = true → k.threads.vmwork t = true ∨
        M.vmblock t = M.vmblock me ∧ k.ints.percpuMask t intno = true) ∧
      match taker with
      | some t => M.vmblock t = M.vmblock me ∧ k.ints.percpuMask t intno = true ∧
          k.sched.status t ≠ .dead ∧ Delivered intno t k k' ∧
          ((∃ u, M.vmblock u = M.vmblock me ∧ M.cpuidx u < 64 ∧ k.sched.status u = .vmwait ∧
              k.ints.percpuMask u intno = true) → k.sched.status t = .vmwait ∧ M.cpuidx t < 64)
      | none => ∀ t, M.vmblock t = M.vmblock me → k.ints.percpuMask t intno = true →
          k.sched.status t = .dead := by
  set k₁ := k.setPending (M.vmblock me) intno true with hk₁
  have htakes (t : ι) : k₁.takes intno t = true ↔
      k.ints.percpuMask t intno = true ∧ k.sched.status t ≠ .dead := by
    rw [takes, Bool.and_eq_true, bne_iff_ne]
    rfl
  obtain ⟨tried, hsub, hfound, htry⟩ := shintTry_spec M intno (k₁.shintCandidates M me) k₁
  have hpost : k.vmShintPost M me intno = (k₁.shintTry M intno (k₁.shintCandidates M me)).2 := by
    rw [← vmShintDeliver_eq, vmShintPost, if_neg (by simp [hpend]), if_pos hen]
  refine ⟨_, _, length_shintCandidates me k₁, htry, by rw [hpost, htry], fun t ht => ?_, ?_⟩
  · have hmark : (k₁.markWork intno tried).threads.vmwork t = true := by
      split at ht
      · exact ht
      · rwa [vmIntDeliverLocked_threads] at ht
    simp only [markWork, setWork, Bool.or_eq_true, Bool.and_eq_true, decide_eq_true_eq] at hmark
    exact hmark.imp id fun h => ⟨mem_shintCandidates.mp (hsub h.1), h.2⟩
  · rcases hfind : (k₁.shintCandidates M me).find? (k₁.takes intno) with - | t
    · intro t ht hmask
      by_contra hdead
      exact find?_eq_none.mp hfind t (mem_shintCandidates.mpr ht) ((htakes t).mpr ⟨hmask, hdead⟩)
    · obtain ⟨hmask, hlive⟩ := (htakes t).mp (find?_some hfind)
      have hwork : (k₁.markWork intno tried).threads.vmwork t = true := by
        have hmask₁ : k₁.ints.percpuMask t intno = true := hmask
        simp [markWork, setWork, hfound t hfind, hmask₁]
      -- what was done before the taker was asked matters to none of this
      have hdelivered : Delivered intno t k _ :=
        { vmIntDeliverLocked_delivered M hwork with }
      refine ⟨mem_shintCandidates.mp (mem_of_find?_eq_some hfind), hmask, hlive, hdelivered, ?_⟩
      rintro ⟨u, hu, hidx, hst, humask⟩
      -- `u` is among the waiters, so one of them is found
      have hui : M.context (M.vmblock me) (M.cpuidx u) = some u := M.context_eq_some.mpr ⟨hu, rfl⟩
      have hmem : u ∈ k₁.shintWaiters M (M.vmblock me)
          (range (min 64 (M.maxCpus (M.vmblock me)))) := by
        have hlt : M.cpuidx u < M.maxCpus (M.vmblock me) := M.context_isSome.mp (by simp [hui])
        refine mem_filterMap.mpr ⟨M.cpuidx u, mem_range.mpr (by omega), ?_⟩
        exact (if_pos ((hwaiting _ hidx).mpr ⟨u, hui, hst⟩)).trans hui
      rw [shintCandidates, find?_append] at hfind
      rcases hfirst : (k₁.shintWaiters M (M.vmblock me) (range (min 64 (M.maxCpus _)))).find?
        (k₁.takes intno) with - | v
      · exact absurd ((htakes u).mpr ⟨humask, by simp [hst]⟩) (find?_eq_none.mp hfirst u hmem)
      · rw [hfirst] at hfind
        cases hfind
        obtain ⟨i, hi, hctx⟩ := mem_filterMap.mp (mem_of_find?_eq_some hfirst)
        rw [mem_range] at hi
        split at hctx
        · next hbit =>
          obtain ⟨w, hw, hwait⟩ := (hwaiting i (by omega)).mp hbit
          obtain rfl := Option.some.inj (hctx.symm.trans hw)
          exact ⟨hwait, by rw [(M.context_eq_some.mp hw).2]; omega⟩
        · cases hctx

open scoped Numerals

/-- The first of two cpus is ready and the second in VMWAIT, both enabled for interrupt 3. -/
def secondWaits : Kernel (Fin 2) Unit :=
  let k := reset (oneVm 1) 3 1#32 .off
  { k with
    sched := { k.sched with status := fun t => if t = 1 then .vmwait else .ready }
    vms := { k.vms with waitingCpus := fun _ => 2 }
    ints := { k.ints with enable := fun _ i => i = 3, percpuMask := fun _ i => i = 3 } }

/-- The second cpu takes the interrupt, and is ready. -/
theorem vmShintPost_secondWaits : ∃ k', secondWaits.vmShintPost (oneVm 1) 0 3 = k' ∧
    k'.threads.vmwork 1 = true ∧ k'.sched.status 1 = .ready ∧ k'.sched.r00 1 = 3 := by
  obtain ⟨taker, k', -, -, hpost, -, htaker⟩ :=
    vmShintPost_taker (oneVm 1) secondWaits 0 3 (by unfold WaitingExact; decide +kernel) rfl rfl
  cases taker with
  | none => exact absurd (htaker 1 rfl rfl) (by decide)
  | some t =>
    obtain ⟨-, -, -, hdelivered, hfirst⟩ := htaker
    have ht := (hfirst ⟨1, rfl, by decide, rfl, rfl⟩).1
    obtain rfl : t = 1 := by
      by_contra hne
      simp [secondWaits, hne] at ht
    exact ⟨k', hpost, hdelivered.vmwork, hdelivered.vmwait rfl⟩

end H2
