import H2.Sched.Dosched

/-!
# Sched/Resched — giving the processor away

By choice, to a thread of the same priority (`H2K_sched_yield`), or because the preemption test has
raised `RESCHED_INT` (`H2K_resched`).  Both end in `H2K_dosched`.
-/

namespace H2

variable {ι β : Type} [DecidableEq ι] [DecidableEq β] [fι : Fintype ι]

namespace Kernel

/-- `H2K_sched_yield`. -/
def schedYield (M : Machine ι β) (me : ι) (k : Kernel ι β) : Option (Exit × Kernel ι β) :=
  if Sched.validBit k.sched.readyValids (k.sched.prio me) then
    { k with sched := (k.sched.runlistRemove me).readyAppend me }.dosched M (k.sched.hthread me)
  else some (.returned 0, k)

/-- `H2K_resched` with the lock held; `RESCHED_INT` has been acknowledged before. -/
def resched (M : Machine ι β) (h : ℕ) (k : Kernel ι β) : Option (Exit × Kernel ι β) :=
  (k.makeWay h).dosched M h

/-- `H2K_resched_cluster` with the lock held: no hardware thread is to take `CLUSTER_RESCHED_INT`
until it is steered again. -/
def reschedCluster (M : Machine ι β) (h : ℕ) (k : Kernel ι β) : Option (Exit × Kernel ι β) :=
  { k with cluster := { k.cluster with steer := -1 } }.resched M h

end Kernel

variable {M : Machine ι β} {k : Kernel ι β} {h : ℕ} {me : ι}

omit fι in
/-- The running thread goes to the end of its ready ring. -/
theorem schedYield_leaves (hc : Coherent M k) (hme : k.hw.sgp h = some me) :
    Leaves M h k { k with sched := (k.sched.runlistRemove me).readyAppend me } := by
  have hrunning := (hc.running hme).1
  refine hc.block hme (hc.placed.runlistRemove hrunning).readyAppend ?_ rfl rfl rfl rfl
    fun _ _ hpool => ?_
  · exact { AgreeOff.refl me k.sched with status := fun u hu => by simp [hu] }
  · simp [PoolBlocked] at hpool

theorem schedYield_ends (hc : Coherent M k) (hme : k.hw.sgp h = some me) :
    Ends (After M h k) (k.schedYield M me) := by
  unfold Kernel.schedYield
  split
  · rw [(hc.running hme).2]
    exact (schedYield_leaves hc hme).dosched.after
  · exact .some (.refl hc)

/-- **Rescheduling** settles everything, whatever was missed before. -/
theorem resched_ends (hc : Coherent M k) (hon : k.hw.hthreadsMask.getLsbD h = true) :
    Ends (Settled M h k) (k.resched M h) := by
  obtain ⟨hb, hcfg, helse⟩ := makeWay_between hc hon
  exact (dosched_ends hb).mono fun k' hk' => hk'.of_config hcfg helse

theorem reschedCluster_ends (hc : Coherent M k) (hon : k.hw.hthreadsMask.getLsbD h = true) :
    Ends (Settled M h k) (k.reschedCluster M h) := by
  set k₁ : Kernel ι β := { k with cluster := { k.cluster with steer := -1 } }
  have hk₁ : SameConfig k k₁ := ⟨rfl, rfl, rfl, rfl, id⟩
  have hc₁ : Coherent M k₁ := hc.congr hc.placed rfl rfl hk₁ hc.parents
  exact (resched_ends hc₁ hon).mono fun k' hk' => hk'.of_config hk₁ (.of_eq rfl rfl)

end H2
