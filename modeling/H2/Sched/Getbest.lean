import H2.Data.Coherent

/-!
# Sched/Getbest — handing out the best ready thread

With cluster scheduling each cluster of hardware threads has a budget of coprocessors.  A hardware
thread whose cluster is over budget looks for a waiting one in another cluster that could take the
head of the ready ring, or something behind it, and if it finds one interrupts it and goes to sleep
itself.
-/

namespace H2

variable {ι β : Type} [DecidableEq ι] [dβ : DecidableEq β] [Fintype ι]

namespace Cluster

/-- Coprocessors in use: HVX and HLX share one. -/
def coprocs (xe : Bool × Bool × Bool) : BitVec 32 :=
  (if xe.1 || xe.2.2 then 1 else 0) + (if xe.2.1 then 1 else 0)

/-- `xex`. -/
def xex (hthread : ℕ) (new cur : Bool × Bool × Bool) (c : Cluster ι) : Cluster ι :=
  { c with
    coprocCount := Function.update c.coprocCount (hthread / c.hthreads)
      (c.coprocCount (hthread / c.hthreads) + (coprocs new - coprocs cur)) }

/-- A hardware thread that goes to sleep uses no coprocessor. -/
def sleep (hthread : ℕ) (c : Cluster ι) : Cluster ι :=
  { c with hw := Function.update c.hw hthread (false, false, false) }.xex hthread
    (false, false, false) (c.hw hthread)

/-- The least loaded cluster with hardware threads in wait mode: its load, and those threads.  With
none the load is `-1` and the threads are not initialised. -/
def minCluster (waitMask : BitVec 32) (c : Cluster ι) : BitVec 32 × BitVec 32 :=
  (List.range c.clusters).foldl (fun acc i =>
    if waitMask &&& c.mask i ≠ 0 ∧ c.coprocCount i < acc.1 then
      (c.coprocCount i, waitMask &&& c.mask i)
    else acc) (-1, 0)

/-- The loop that looks for a thread the other cluster has room for, starting with `ret`. -/
def handOff (links : Links ι) (c : Cluster ι) (head : ι) (minCoprocs : BitVec 32) :
    ℕ → ι → BitVec 32 → Option Bool
  | 0, _, _ => none
  | fuel + 1, ret, need =>
    if minCoprocs + need ≤ c.coprocMax then some true
    else do
      let next ← links.next ret
      if next = head then some false
      else
        match ← links.seek (some head)
            (fun x => decide (coprocs (c.ctx x) + minCoprocs ≤ c.coprocMax)) (Fintype.card ι)
            next with
        | none => some false
        | some ret => handOff links c head minCoprocs fuel ret (coprocs (c.ctx ret) + minCoprocs)

end Cluster

namespace Kernel

/-- `H2K_ready_head`: the thread to run, if this hardware thread is to run one, and the cluster
bookkeeping. -/
def readyHead (prio hthread : ℕ) (k : Kernel ι β) : Option (Option ι × Cluster ι) :=
  let c := k.cluster
  match k.sched.rings.head (.ready prio) with
  | none => some (none, c)
  | some head =>
    if !c.sched || c.coprocMax = -1 then some (some head, c)
    else
      let cur := c.hw hthread
      let need := c.ctx head
      let taken := some (some head, c.xex hthread need cur)
      if c.coprocCount (hthread / c.hthreads) + (Cluster.coprocs need - Cluster.coprocs cur) ≤
          c.coprocMax then taken
      else if k.hw.waitMask = 0 then taken
      else do
        let (minCoprocs, victims) := c.minCluster k.hw.waitMask
        if ← c.handOff k.sched.rings.links head minCoprocs (Fintype.card ι) head
            (Cluster.coprocs need) then
          some (none, { c with steer := ~~~(1#32 <<< ct0 victims), raised := true }.sleep hthread)
        else taken

/-- `H2K_ready_getbest`. -/
def readyGetbest (hthread : ℕ) (k : Kernel ι β) : Option (Option ι × Kernel ι β) :=
  let prio := k.sched.readyBestPrio
  if maxPrios ≤ prio then
    some (none, if k.cluster.sched then { k with cluster := k.cluster.sleep hthread } else k)
  else do
    match ← k.readyHead prio hthread with
    | (none, c) => some (none, { k with cluster := c })
    | (some ret, c) => some (some ret, { k with cluster := c, sched := k.sched.readyRemove ret })

end Kernel

/-! ## The search ends -/

/-- **The search for a thread to hand off** visits each member of the ring once at most, and finds
one that has room when the load is counted twice. -/
theorem handOff_eq {links : Links ι} (c : Cluster ι) {head : ι} (minCoprocs : BitVec 32) :
    ∀ (fuel : ℕ) (need : BitVec 32) {A B : List ι} {ret : ι},
      IsRing links (some head) (A ++ ret :: B) → B.length < fuel →
      c.handOff links head minCoprocs fuel ret need =
        some (decide (minCoprocs + need ≤ c.coprocMax ∨
          ∃ x ∈ B, Cluster.coprocs (c.ctx x) + minCoprocs ≤ c.coprocMax ∧
            minCoprocs + (Cluster.coprocs (c.ctx x) + minCoprocs) ≤ c.coprocMax))
  | fuel + 1, need, A, B, ret, hr, hfuel => by
      rw [Cluster.handOff]
      split
      · next hfits => simp [hfits]
      next hfits =>
      rcases B with - | ⟨b, B⟩
      · rw [(hr.linked_last hr.head.symm).1]
        simp [hfits]
      have hr' : IsRing links (some head) (A ++ [ret] ++ b :: B) := by simpa using hr
      have hlen : (b :: B).length ≤ Fintype.card ι := by
        have := hr'.nodup.length_le_card
        rw [List.length_append] at this
        omega
      have hb : b ≠ head := by
        rintro rfl
        have hmem : b ∈ A ++ [ret] := List.mem_of_head? (by simpa using hr.head.symm)
        exact (List.nodup_append.mp hr'.nodup).2.2 b hmem b List.mem_cons_self rfl
      rw [hr.linked.1, Option.bind_eq_bind, Option.bind_some, if_neg hb, hr'.seek hlen,
        Option.bind_eq_bind, Option.bind_some]
      rcases hfind : (b :: B).find? fun x =>
        decide (Cluster.coprocs (c.ctx x) + minCoprocs ≤ c.coprocMax) with - | ret'
      · have hnone := List.find?_eq_none.mp hfind
        simp only [decide_eq_true_eq] at hnone
        refine congrArg some (decide_eq_false ?_).symm
        rintro (hroom | ⟨x, hx, hroom, -⟩)
        · exact hfits hroom
        · exact hnone x hx hroom
      obtain ⟨hret, C, D, hCD, hC⟩ := List.find?_eq_some_iff_append.mp hfind
      simp only [decide_eq_true_eq, Bool.not_eq_true', decide_eq_false_iff_not] at hret hC
      have hD : D.length < fuel := by
        have := congrArg List.length hCD
        simp only [List.length_append, List.length_cons] at this hfuel
        omega
      rw [hCD] at hr' ⊢
      rw [← List.append_assoc (A ++ [ret])] at hr'
      refine (handOff_eq c minCoprocs fuel _ hr' hD).trans ?_
      refine congrArg some (decide_eq_decide.mpr ⟨?_, ?_⟩)
      · rintro (htwice | ⟨x, hx, hroom⟩)
        · exact .inr ⟨ret', by simp, hret, htwice⟩
        · exact .inr ⟨x, by simp [hx], hroom⟩
      · rintro (hroom | ⟨x, hx, hroom, htwice⟩)
        · exact absurd hroom hfits
        · rcases List.mem_append.mp hx with hx | hx
          · exact absurd hroom (hC x hx)
          · rcases List.mem_cons.mp hx with rfl | hx
            · exact .inl htwice
            · exact .inr ⟨x, hx, hroom, htwice⟩

/-! ## What is handed out -/

section Getbest

variable {M : Machine ι β} {k : Kernel ι β} {h : ℕ}

omit dβ in
/-- Either the head of a ready ring, or — with clusters only — nothing. -/
theorem readyHead_spec (hs : Placed M k.sched) {prio : ℕ} {head : ι}
    (hhead : k.sched.rings.head (.ready prio) = some head) :
    ∃ r c, k.readyHead prio h = some (r, c) ∧ c.sched = k.cluster.sched ∧
      (r = some head ∨ r = none ∧ k.cluster.sched = true) := by
  unfold Kernel.readyHead
  rw [hhead]
  simp only
  split
  · exact ⟨_, _, rfl, rfl, .inl rfl⟩
  next hsched =>
  have hsched : k.cluster.sched = true := by
    simp only [Bool.or_eq_true, Bool.not_eq_true', decide_eq_true_eq, not_or] at hsched
    simpa using hsched.1
  split
  · exact ⟨_, _, rfl, rfl, .inl rfl⟩
  split
  · exact ⟨_, _, rfl, rfl, .inl rfl⟩
  obtain ⟨L, hL, -⟩ := hs.holds.rings
  have hring := hL.ring (.ready prio)
  obtain ⟨m, hm⟩ : ∃ m, L (.ready prio) = head :: m :=
    List.head?_eq_some_iff.mp (hring.head.symm.trans hhead)
  rw [hhead, hm] at hring
  have hlen : m.length < Fintype.card ι := by
    have := hring.nodup.length_le_card
    rwa [List.length_cons, Nat.succ_le_iff] at this
  rw [handOff_eq k.cluster (k.cluster.minCluster k.hw.waitMask).1 (Fintype.card ι)
    (Cluster.coprocs (k.cluster.ctx head)) (A := []) hring hlen, Option.bind_eq_bind,
    Option.bind_some]
  split
  · exact ⟨_, _, rfl, rfl, .inr ⟨rfl, hsched⟩⟩
  · exact ⟨_, _, rfl, rfl, .inl rfl⟩

/-- What `H2K_ready_getbest` leaves. -/
inductive Getbest (k : Kernel ι β) : Option ι → Kernel ι β → Prop
  /-- Nothing to run, and without clusters that means that nothing is ready. -/
  | sleep {c : Cluster ι} (hc : c.sched = k.cluster.sched)
      (hready : k.cluster.sched = false → ∀ t, k.sched.status t ≠ .ready) :
      Getbest k none { k with cluster := c }
  /-- A ready thread, taken out of its ring. -/
  | best {c : Cluster ι} {t : ι} (hc : c.sched = k.cluster.sched)
      (ht : k.sched.status t = .ready) :
      Getbest k (some t) { k with cluster := c, sched := k.sched.readyRemove t }

theorem readyGetbest_spec (hs : Placed M k.sched) :
    ∃ r k', k.readyGetbest h = some (r, k') ∧ Getbest k r k' := by
  unfold Kernel.readyGetbest
  simp only
  split
  · next hbest =>
    have hready := hs.not_ready_of_best hbest
    split
    · exact ⟨none, _, rfl, .sleep rfl fun _ => hready⟩
    · exact ⟨none, k, rfl, .sleep rfl fun _ => hready⟩
  · next hbest =>
    have hlt : k.sched.readyBestPrio ≤ maxPrio := by
      simp only [maxPrios, maxPrio] at hbest ⊢
      omega
    have hvalid : Sched.validBit k.sched.readyValids k.sched.readyBestPrio = true := by
      rcases (Sched.firstIn_readyBestPrio k.sched).2 with he | ⟨-, -, hv⟩
      · exact absurd he.ge hbest
      · exact hv
    obtain ⟨head, hhead⟩ :=
      Option.ne_none_iff_exists'.mp ((hs.holds.valids _ hlt).mp hvalid)
    obtain ⟨r, c, hr, hc, hcases⟩ := readyHead_spec hs hhead
    rw [hr, Option.bind_eq_bind, Option.bind_some]
    rcases hcases with rfl | ⟨rfl, hsched⟩
    · exact ⟨_, _, rfl, .best hc (place_eq_ready.mp (hs.holds.of_head hhead)).1⟩
    · exact ⟨_, _, rfl, .sleep hc fun hoff => by simp [hsched] at hoff⟩

end Getbest

end H2
