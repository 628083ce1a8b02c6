import H2.Hexagon.Marker
import H2.Kernel.Run

/-!
# Sched/HandOff — when a thread is left to another cluster

What a hand-off is for: where the head of the ready ring does not fit into this cluster any more,
and the least loaded cluster with a waiting hardware thread has room for some thread of the ring,
that hardware thread is signalled and this one goes to sleep (`HandsOff`).

The head is handed off like this.  A thread behind it has the load of the other cluster counted
twice: once in `need_tmp`, and again where that is compared with the limit.  So the decision is
right where no thread fits, or the head does, or one fits even so (`readyHead_handsOff_iff`).
-/

namespace H2

open Cluster

variable {ι β : Type}

/-- A cluster with hardware threads in wait mode. -/
def Waiting (k : Kernel ι β) (i : ℕ) : Prop :=
  i < k.cluster.clusters ∧ k.hw.waitMask &&& k.cluster.mask i ≠ 0

/-- **The least loaded** of them. -/
def LeastLoaded (k : Kernel ι β) (i : ℕ) : Prop :=
  Waiting k i ∧ ∀ j, Waiting k j → k.cluster.coprocCount i ≤ k.cluster.coprocCount j

/-- A cluster has room for a thread. -/
def Room (k : Kernel ι β) (i : ℕ) (t : ι) : Prop :=
  k.cluster.coprocCount i + coprocs (k.cluster.ctx t) ≤ k.cluster.coprocMax

/-- **What `H2K_ready_head` is to return**, when the head of a ring is too much for this cluster. -/
structure HandsOff (k : Kernel ι β) (head : ι) (rest : List ι) (out : Option ι × Cluster ι) :
    Prop where
  sleeps : out.1 = none ↔ ∃ i, LeastLoaded k i ∧ ∃ t ∈ head :: rest, Room k i t
  signals : out.1 = none → out.2.raised = true ∧ ∃ i v, LeastLoaded k i ∧ v < 32 ∧
    (k.hw.waitMask &&& k.cluster.mask i).getLsbD v = true ∧ out.2.steer = ~~~(1#32 <<< v)
  takes : out.1 ≠ none → out.1 = some head

section Search

variable {k : Kernel ι β}

theorem exists_ct0 {w : BitVec 32} (h : w ≠ 0) : ct0 w < 32 ∧ w.getLsbD (ct0 w) = true := by
  obtain ⟨hbefore, hend⟩ := firstIn_ct0 w
  rcases hend with hend | ⟨-, hlt, hbit⟩
  · refine absurd (BitVec.eq_of_getLsbD_eq fun i hi => ?_) h
    rw [hbefore i i.zero_le (hend ▸ hi), BitVec.ofNat_eq_ofNat, BitVec.getLsbD_zero]
  · exact ⟨hlt, hbit⟩

/-- What the loop over the clusters has found, of the first `n`. -/
theorem minCluster_fold (c : Cluster ι) (w : BitVec 32) (n : ℕ) :
    let acc := (List.range n).foldl (fun acc i =>
      if w &&& c.mask i ≠ 0 ∧ c.coprocCount i < acc.1 then (c.coprocCount i, w &&& c.mask i)
      else acc) ((-1, 0) : BitVec 32 × BitVec 32)
    (∀ i < n, w &&& c.mask i ≠ 0 → acc.1 ≤ c.coprocCount i) ∧
      (acc = (-1, 0) ∨ ∃ i < n, w &&& c.mask i ≠ 0 ∧ c.coprocCount i ≠ -1 ∧
        acc = (c.coprocCount i, w &&& c.mask i)) := by
  induction n with
  | zero => exact ⟨nofun, .inl rfl⟩
  | succ n ih =>
    rw [List.range_succ, List.foldl_append]
    obtain ⟨hle, hacc⟩ := ih
    simp only [List.foldl_cons]
    split
    · next hnew =>
      refine ⟨fun i hi hwait => ?_, .inr ⟨n, n.lt_succ_self, hnew.1, fun h => ?_, rfl⟩⟩
      · rcases Nat.lt_succ_iff_lt_or_eq.mp hi with hlt | rfl
        · exact BitVec.le_trans (BitVec.le_of_lt hnew.2) (hle i hlt hwait)
        · exact BitVec.le_refl _
      · have hlt := hnew.2
        rw [h] at hlt
        exact absurd hlt (Nat.not_lt.mpr (Nat.le_of_lt_succ (BitVec.isLt _)))
    · next hold =>
      refine ⟨fun i hi hwait => ?_, hacc.imp_right fun ⟨i, hi, h⟩ => ⟨i, Nat.lt_succ_of_lt hi, h⟩⟩
      rcases Nat.lt_succ_iff_lt_or_eq.mp hi with hlt | rfl
      · exact hle i hlt hwait
      · exact BitVec.not_lt.mp fun h => hold ⟨hwait, h⟩

/-- **The search for a cluster** finds the least loaded one, unless its load is `-1`. -/
theorem minCluster_spec (h : ∃ i, Waiting k i) :
    ∃ i, LeastLoaded k i ∧ (k.cluster.minCluster k.hw.waitMask).1 = k.cluster.coprocCount i ∧
      (k.cluster.minCluster k.hw.waitMask).2 =
        if k.cluster.coprocCount i = -1 then 0 else k.hw.waitMask &&& k.cluster.mask i := by
  obtain ⟨hle, hacc⟩ := minCluster_fold k.cluster k.hw.waitMask k.cluster.clusters
  change k.cluster.minCluster k.hw.waitMask = _ ∨ ∃ i < _, _ ∧ _ ∧
    k.cluster.minCluster k.hw.waitMask = _ at hacc
  change (∀ i < _, _ → (k.cluster.minCluster k.hw.waitMask).1 ≤ _) at hle
  rcases hacc with hacc | ⟨i, hi, hwait, hne, hacc⟩
  · have hall (j : ℕ) (hj : Waiting k j) : k.cluster.coprocCount j = -1 := by
      have := hle j hj.1 hj.2
      rw [hacc] at this
      exact BitVec.eq_of_toNat_eq (Nat.le_antisymm (Nat.le_of_lt_succ (BitVec.isLt _)) this)
    obtain ⟨i, hi⟩ := h
    refine ⟨i, ⟨hi, fun j hj => ?_⟩, ?_⟩
    · rw [hall i hi, hall j hj]
      exact BitVec.le_refl _
    · rw [hacc, hall i hi]
      exact ⟨rfl, rfl⟩
  · rw [hacc] at hle ⊢
    exact ⟨i, ⟨⟨hi, hwait⟩, fun j hj => hle j hj.1 hj.2⟩, rfl, (if_neg hne).symm⟩

theorem LeastLoaded.count_eq {i j : ℕ} (hi : LeastLoaded k i) (hj : LeastLoaded k j) :
    k.cluster.coprocCount j = k.cluster.coprocCount i :=
  BitVec.le_antisymm (hj.2 i hi.1) (hi.2 j hj.1)

end Search

/-! ## The decision -/

variable [DecidableEq ι] [Fintype ι]

/-- **The decision is right where no thread fits, or the head does, or one behind it does with the
load counted twice.** -/
theorem readyHead_handsOff_iff {k : Kernel ι β} (prio h : ℕ) {head : ι} {rest : List ι}
    (hring : IsRing k.sched.rings.links (some head) (head :: rest))
    (hhead : k.sched.rings.head (.ready prio) = some head) (hon : k.cluster.sched = true)
    (hmax : k.cluster.coprocMax ≠ -1)
    (hover : k.cluster.coprocMax < k.cluster.coprocCount (h / k.cluster.hthreads) +
      (coprocs (k.cluster.ctx head) - coprocs (k.cluster.hw h)))
    (hwait : k.hw.waitMask ≠ 0 → ∃ i, Waiting k i) :
    ∃ out, k.readyHead prio h = some out ∧ (HandsOff k head rest out ↔
      ∀ i, LeastLoaded k i → ∀ t ∈ head :: rest, Room k i t → k.cluster.coprocCount i ≠ -1 ∧
        (Room k i head ∨ ∃ u ∈ rest, Room k i u ∧ k.cluster.coprocCount i +
          (k.cluster.coprocCount i + coprocs (k.cluster.ctx u)) ≤ k.cluster.coprocMax)) := by
  unfold Kernel.readyHead
  rw [hhead]
  simp only [hon, Bool.not_true, Bool.false_or, decide_eq_true_eq, if_neg hmax,
    if_neg (BitVec.not_le.mpr hover)]
  by_cases hmask : k.hw.waitMask = 0
  · have hnone (i : ℕ) : ¬LeastLoaded k i := fun hi => hi.1.2 (by simp [hmask])
    rw [if_pos hmask]
    refine ⟨_, rfl, fun _ i hi => absurd hi (hnone i),
      fun _ => ⟨⟨by simp, ?_⟩, by simp, fun _ => rfl⟩⟩
    rintro ⟨i, hi, -⟩
    exact absurd hi (hnone i)
  obtain ⟨i, hleast, hmin, hvictims⟩ := minCluster_spec (hwait hmask)
  have hcard : rest.length < Fintype.card ι := hring.nodup.length_le_card
  rw [if_neg hmask, hmin, hvictims, handOff_eq k.cluster _ (Fintype.card ι) _ (A := []) hring hcard,
    Option.bind_eq_bind, Option.bind_some]
  simp only [decide_eq_true_eq, BitVec.add_comm (coprocs _) (k.cluster.coprocCount i)]
  split
  · next hgo =>
    refine ⟨_, rfl, fun hoff j hj t ht hroom => ?_, fun hright => ?_⟩
    · have hcount := hleast.count_eq hj
      simp only [Room, hcount]
      refine ⟨fun hfull => ?_, hgo⟩
      -- with a load of `-1` no cluster was found, and there is nobody to signal
      obtain ⟨-, -, v, -, hv, -, hsteer⟩ := hoff.signals rfl
      have hbit : (1#32 <<< ct0 0).getLsbD v = (1#32 <<< v).getLsbD v := by
        rw [if_pos hfull] at hsteer
        exact congrArg (BitVec.getLsbD · v) (BitVec.not_inj.mp hsteer)
      simp [hv, ct0] at hbit
    · obtain ⟨t, ht, hroom⟩ : ∃ t ∈ head :: rest, Room k i t := by
        rcases hgo with hroom | ⟨u, hu, hroom, -⟩
        · exact ⟨head, List.mem_cons_self, hroom⟩
        · exact ⟨u, List.mem_cons_of_mem _ hu, hroom⟩
      obtain ⟨hlt, hbit⟩ := exists_ct0 hleast.1.2
      refine ⟨⟨fun _ => ⟨i, hleast, t, ht, hroom⟩, fun _ => rfl⟩,
        fun _ => ⟨rfl, i, _, hleast, hlt, hbit, ?_⟩, fun h => absurd rfl h⟩
      rw [if_neg (hright i hleast t ht hroom).1]
      rfl
  · next hstay =>
    refine ⟨_, rfl, fun hoff j hj t ht hroom => ?_,
      fun hright => ⟨⟨by simp, ?_⟩, by simp, fun _ => rfl⟩⟩
    · exact absurd (hoff.sleeps.mpr ⟨j, hj, t, ht, hroom⟩) (Option.some_ne_none _)
    · rintro ⟨j, hj, t, ht, hroom⟩
      have hgo := (hright j hj t ht hroom).2
      simp only [Room, hleast.count_eq hj] at hgo
      exact absurd hgo hstay

open scoped Numerals

/-- Two hardware threads, each a cluster; the second waits.  Of two ready threads the first needs
both coprocessors and the second one. -/
def crowded (count : ℕ → BitVec 32) : Kernel (Fin 2) Unit :=
  let k := Kernel.reset (oneVm 1) 3 0
    { (Cluster.off : Cluster (Fin 2)) with
      sched := true, clusters := 2, hthreads := 1, mask := fun i => 1#32 <<< i
      coprocMax := 3, coprocCount := count, ctx := fun t => (true, t == (0 : Fin 2), false) }
  { k with
    sched := (k.sched.readyAppend (0 : Fin 2)).readyAppend 1
    hw := { k.hw with waitMask := 2 } }

section Crowded

variable (count : ℕ → BitVec 32)

theorem isRing_crowded : IsRing (crowded count).sched.rings.links (some 0) [0, 1] where
  head := rfl
  nodup := by decide
  chain := by
    simp only [Cycle.chain_coe_cons, List.cons_append, List.nil_append, List.isChain_cons_cons,
      List.isChain_singleton, and_true]
    exact ⟨⟨rfl, rfl⟩, rfl, rfl⟩

theorem leastLoaded_crowded {i : ℕ} : LeastLoaded (crowded count) i ↔ i = 1 := by
  have hwaits {j : ℕ} : Waiting (crowded count) j ↔ j = 1 := by
    constructor
    · rintro ⟨hlt, hbit⟩
      match j, hlt with
      | 0, _ => exact absurd (show (2 : BitVec 32) &&& 1#32 <<< 0 = 0 by decide) hbit
      | 1, _ => rfl
    · rintro rfl
      exact ⟨Nat.one_lt_two, show (2 : BitVec 32) &&& 1#32 <<< 1 ≠ 0 by decide⟩
  constructor
  · rintro ⟨hi, -⟩
    exact hwaits.mp hi
  · rintro rfl
    refine ⟨hwaits.mpr rfl, fun j hj => ?_⟩
    rw [hwaits.mp hj]
    exact BitVec.le_refl _

end Crowded

/-- One that has room for the head gets it. -/
theorem crowded_handsOff :
    ∃ out, (crowded fun i => if i = 0 then 3 else 1).readyHead 0 0 = some out ∧
      HandsOff (crowded fun i => if i = 0 then 3 else 1) 0 [1] out := by
  obtain ⟨out, hout, hiff⟩ := readyHead_handsOff_iff 0 0
    (isRing_crowded fun i => if i = 0 then 3 else 1) rfl rfl (by decide) (by decide)
    fun _ => ⟨1, ((leastLoaded_crowded _).mpr rfl).1⟩
  refine ⟨out, hout, hiff.mpr fun i hi t ht hroom => ?_⟩
  obtain rfl := (leastLoaded_crowded _).mp hi
  exact ⟨by decide, .inl (show (1 : BitVec 32) + 2 ≤ 3 by decide)⟩

/-- … and one that only has room for the second thread gets none. -/
theorem crowded_keeps : LeastLoaded (crowded fun _ => 2) 1 ∧ Room (crowded fun _ => 2) 1 1 ∧
      ∃ out, (crowded fun _ => 2).readyHead 0 0 = some out ∧ out.1 = some 0 := by
  refine ⟨(leastLoaded_crowded _).mpr rfl, ?_, _, rfl, rfl⟩
  exact show (2 : BitVec 32) + 1 ≤ 3 by decide

end H2
