import H2.Event.Popup
import Mathlib.Algebra.BigOperators.Group.Finset.Piecewise
import Mathlib.Data.BitVec

/-!
# Sched/Coprocs — counting the coprocessors of a cluster

With cluster scheduling `coproc_count` is to be the number of coprocessors in use on the hardware
threads of each cluster.  It is not computed but kept up to date: `H2K_dosched` adds what the thread
it chose asks for and takes off what the registers of the hardware thread say, and the calls that
turn an extension off take off what they free.

The popup and intpool handlers switch threads without counting; with no limit configured
`H2K_dosched` does not count either, unless it goes to sleep; and a call that frees a coprocessor
counts that and lets go of the lock before it clears the bit.  `coproc_accounting` says that there
is nothing else: the count is right along a run exactly where each of its steps is even.
-/

namespace H2

open Kernel Function

variable {ι β : Type}

/-- The enables of the coprocessors: HVX, HMX and HLX. -/
abbrev Enables := Bool × Bool × Bool

/-- None of them. -/
def Enables.off : Enables := (false, false, false)

/-! ## What is not about coprocessors -/

/-- A priority that is marked in `ready_valids` has a thread in its ring. -/
def Sched.ReadyHeads (s : Sched ι β) : Prop :=
  ∀ p, Sched.validBit s.readyValids p = true → s.rings.head (.ready p) ≠ none

/-- Nothing changed for the coprocessors, nor which thread each hardware thread runs. -/
structure SameCoprocs (k k' : Kernel ι β) : Prop where
  sched : k'.cluster.sched = k.cluster.sched
  hthreads : k'.cluster.hthreads = k.cluster.hthreads
  coprocMax : k'.cluster.coprocMax = k.cluster.coprocMax
  count : k'.cluster.coprocCount = k.cluster.coprocCount
  hw : k'.cluster.hw = k.cluster.hw
  sgp : k'.hw.sgp = k.hw.sgp
  heads : k.sched.ReadyHeads → k'.sched.ReadyHeads

/-- Hardware thread `h` has turned to `new`, and the count of its cluster has changed by `d`. -/
structure Turns (h : ℕ) (new : Enables) (d : BitVec 32) (k k' : Kernel ι β) : Prop where
  sched : k'.cluster.sched = k.cluster.sched
  hthreads : k'.cluster.hthreads = k.cluster.hthreads
  coprocMax : k'.cluster.coprocMax = k.cluster.coprocMax
  count : k'.cluster.coprocCount = update k.cluster.coprocCount (h / k.cluster.hthreads)
    (k.cluster.coprocCount (h / k.cluster.hthreads) + d)
  hw : k'.cluster.hw = update k.cluster.hw h new
  sgp : ∀ h', h' ≠ h → k'.hw.sgp h' = k.hw.sgp h'
  heads : k.sched.ReadyHeads → k'.sched.ReadyHeads

section Frames

variable {k k' k'' : Kernel ι β} {h : ℕ} {new new' : Enables} {d d' : BitVec 32}

theorem SameCoprocs.refl (k : Kernel ι β) : SameCoprocs k k := ⟨rfl, rfl, rfl, rfl, rfl, rfl, id⟩

theorem SameCoprocs.trans (hk : SameCoprocs k k') (hk' : SameCoprocs k' k'') :
    SameCoprocs k k'' where
  sched := hk'.sched.trans hk.sched
  hthreads := hk'.hthreads.trans hk.hthreads
  coprocMax := hk'.coprocMax.trans hk.coprocMax
  count := hk'.count.trans hk.count
  hw := hk'.hw.trans hk.hw
  sgp := hk'.sgp.trans hk.sgp
  heads := fun hs => hk'.heads (hk.heads hs)

theorem SameCoprocs.of_eq (hcluster : k'.cluster = k.cluster) (hsgp : k'.hw.sgp = k.hw.sgp)
    (hheads : k.sched.ReadyHeads → k'.sched.ReadyHeads) : SameCoprocs k k' :=
  ⟨by rw [hcluster], by rw [hcluster], by rw [hcluster], by rw [hcluster], by rw [hcluster], hsgp,
    hheads⟩

theorem SameCoprocs.turns (hk : SameCoprocs k k') (h : ℕ) : Turns h (k.cluster.hw h) 0 k k' where
  sched := hk.sched
  hthreads := hk.hthreads
  coprocMax := hk.coprocMax
  count := by rw [hk.count, add_zero, update_eq_self]
  hw := by rw [hk.hw, update_eq_self]
  sgp := fun h' _ => by rw [hk.sgp]
  heads := hk.heads

theorem Turns.trans (hk : Turns h new d k k') (hk' : Turns h new' d' k' k'') :
    Turns h new' (d + d') k k'' where
  sched := hk'.sched.trans hk.sched
  hthreads := hk'.hthreads.trans hk.hthreads
  coprocMax := hk'.coprocMax.trans hk.coprocMax
  count := by
    rw [hk'.count, hk.hthreads, hk.count, update_self, update_idem, add_assoc]
  hw := by rw [hk'.hw, hk.hw, update_idem]
  sgp := fun h' hne => (hk'.sgp h' hne).trans (hk.sgp h' hne)
  heads := fun hs => hk'.heads (hk.heads hs)

theorem Turns.then (hk : Turns h new d k k') (hk' : SameCoprocs k' k'') : Turns h new d k k'' := by
  have hnew : k'.cluster.hw h = new := by rw [hk.hw, update_self]
  have htrans := hk.trans (hk'.turns h)
  rwa [hnew, add_zero] at htrans

theorem SameCoprocs.then (hk : SameCoprocs k k') (hk' : Turns h new d k' k'') :
    Turns h new d k k'' := by
  have htrans := (hk.turns h).trans hk'
  rwa [zero_add] at htrans

/-- The registers after a turn. -/
theorem Turns.hw_self (hk : Turns h new d k k') : k'.cluster.hw h = new := by
  rw [hk.hw, update_self]

end Frames

/-! ## Heads of the ready rings -/

section Heads

variable {s s' : Sched ι β}

theorem Sched.ReadyHeads.congr (hs : s.ReadyHeads) (hvalids : s'.readyValids = s.readyValids)
    (hheads : ∀ p, s'.rings.head (.ready p) = s.rings.head (.ready p)) : s'.ReadyHeads := by
  intro p hp
  rw [hheads]
  exact hs p (hvalids ▸ hp)

variable [dι : DecidableEq ι] [dβ : DecidableEq β]

theorem Sched.ReadyHeads.readyAppend (hs : s.ReadyHeads) (t : ι) :
    (s.readyAppend t).ReadyHeads := by
  intro p hp
  have hvalids : (s.readyAppend t).readyValids = Sched.readySetPrio (s.prio t) s.readyValids := rfl
  have hrings : (s.readyAppend t).rings = s.rings.append (.ready (s.prio t)) t := rfl
  rw [hvalids, Sched.validBit_readySetPrio] at hp
  rw [hrings]
  by_cases hprio : p = s.prio t
  · rw [← hprio, Rings.append]
    split
    · simp
    · next hhead => simp [hhead]
  · rw [Rings.head_append_of_ne (by simpa using hprio)]
    exact hs p (by simpa [hprio] using hp)

theorem Sched.ReadyHeads.readyRemove (hs : s.ReadyHeads) (t : ι) :
    (s.readyRemove t).ReadyHeads := by
  intro p hp
  have hrings : (s.readyRemove t).rings = s.rings.remove (.ready (s.prio t)) t := rfl
  have hvalids : (s.readyRemove t).readyValids =
      if (s.rings.remove (.ready (s.prio t)) t).head (.ready (s.prio t)) = none then
        Sched.readyClearPrio (s.prio t) s.readyValids
      else s.readyValids := rfl
  rw [hvalids] at hp
  rw [hrings]
  by_cases hprio : p = s.prio t
  · subst hprio
    split at hp
    · simp [Sched.validBit_readyClearPrio] at hp
    · next hhead => exact hhead
  · rw [Rings.head_remove_of_ne (by simpa using hprio)]
    refine hs p ?_
    split at hp
    · simpa [Sched.validBit_readyClearPrio, hprio] using hp
    · exact hp

omit dι dβ in
/-- The best priority is one of a ring with a head. -/
theorem Sched.ReadyHeads.best (hs : s.ReadyHeads) (hbest : ¬ maxPrios ≤ s.readyBestPrio) :
    ∃ head, s.rings.head (.ready s.readyBestPrio) = some head := by
  rcases (Sched.firstIn_readyBestPrio s).2 with he | ⟨-, -, hvalid⟩
  · exact absurd he.ge hbest
  · exact Option.ne_none_iff_exists'.mp (hs _ hvalid)

end Heads

/-! ## What is quiet -/

section Same

variable [dι : DecidableEq ι] [dβ : DecidableEq β] {M : Machine ι β} {k : Kernel ι β}

section

omit dι dβ

theorem checkSanity_sameCoprocs (k : Kernel ι β) : SameCoprocs k k.checkSanity := by
  refine .of_eq rfl ?_ id
  have hsgp : k.checkSanity.hw.sgp = (k.hw.checkSanity k.sched).sgp := rfl
  rw [hsgp, Hw.checkSanity_eq]

theorem wake_sameCoprocs {s : Sched ι β} {v : Vms β} (hs : k.sched.ReadyHeads → s.ReadyHeads) :
    SameCoprocs k ({ k with sched := s, vms := v } : Kernel ι β).checkSanity := by
  have hwoken : SameCoprocs k { k with sched := s, vms := v } := .of_eq rfl rfl hs
  exact hwoken.trans (checkSanity_sameCoprocs _)

end

theorem Sched.ReadyHeads.futexCancel {s : Sched ι β} (hs : s.ReadyHeads) (t : ι) :
    (s.futexCancel t).ReadyHeads := by
  have hheads : ∀ p, (s.futexCancel t).rings.head (.ready p) = s.rings.head (.ready p) :=
    fun p => Rings.head_remove_of_ne (by simp) ..
  exact hs.congr rfl hheads

omit dι dβ in
theorem vmIpiSendWithlock_sameCoprocs (t : ι) (k : Kernel ι β) :
    SameCoprocs k (k.vmIpiSendWithlock t) := by
  obtain ⟨m, hm⟩ := vmIpiSendWithlock_eq t k
  rw [hm]
  exact .of_eq rfl rfl id

theorem Rouses.readyHeads {t : ι} {s : Sched ι β} {v : Vms β} (hr : Rouses M t k s v)
    (hs : k.sched.ReadyHeads) : s.ReadyHeads := by
  cases hr with
  | vmwait => exact hs.congr rfl fun _ => rfl
  | popup =>
    obtain ⟨handlers, oob, hw⟩ := writeHandler_sched k.sched (k.sched.r00 t) .null
    rw [Sched.popupCancel, hw]
    exact hs.congr rfl fun _ => rfl
  | futex => exact hs.futexCancel t

theorem vmIntDeliverLocked_sameCoprocs (t : ι) (intno : ℕ) (k : Kernel ι β) :
    SameCoprocs k (k.vmIntDeliverLocked M t intno).2 := by
  rcases vmIntDeliverLocked_cases M t intno k with ⟨-, heq | heq⟩ | ⟨s, v, hr, -, heq⟩ <;> rw [heq]
  · exact .refl k
  · exact vmIpiSendWithlock_sameCoprocs t k
  · exact wake_sameCoprocs fun hs => (hr.readyHeads hs).readyAppend t

theorem vmCpuintPostLocked_sameCoprocs (t : ι) (intno : ℕ) (k : Kernel ι β) :
    SameCoprocs k (k.vmCpuintPostLocked M t intno) := by
  have hset : SameCoprocs k (k.cpuintSetPending t intno) := .of_eq rfl rfl id
  unfold vmCpuintPostLocked
  simp only
  split
  · exact hset.trans (vmIntDeliverLocked_sameCoprocs t intno _)
  · exact hset

theorem signalParent_sameCoprocs (b : β) (status : ℤ) (k : Kernel ι β) :
    SameCoprocs k (k.signalParent M b status) := by
  rcases signalParent_cases M b status k with heq | ⟨p, -, heq⟩ | ⟨-, -, heq⟩ <;> rw [heq]
  · exact .refl k
  · exact vmCpuintPostLocked_sameCoprocs ..
  · exact .of_eq rfl rfl id

theorem stop_sameCoprocs (status : ℤ) (t : ι) (k : Kernel ι β) :
    SameCoprocs k (k.stop M status t) := by
  have hretire : SameCoprocs k (k.retire M status t) :=
    ⟨rfl, rfl, rfl, rfl, rfl, rfl, fun hs => hs.congr rfl fun _ => rfl⟩
  exact hretire.trans (signalParent_sameCoprocs ..)

omit dι dβ in
theorem Works.sameCoprocs {me : ι} {k' : Kernel ι β} (hw : Works me k k') : SameCoprocs k k' := by
  have hhw := hw.hw
  exact .of_eq hw.cluster (by rw [hhw]) (by rw [hw.sched]; exact id)

theorem work_sameCoprocs {me : ι} {k' : Kernel ι β} {e : Exit} (hk' : (match k.vmWork M me with
      | (.hung, k) => some (Exit.hung, k)
      | (_, k) => some (Exit.switched, k.checkSanity)) = some (e, k')) : SameCoprocs k k' := by
  revert hk'
  refine work_elim (Q := fun o => o = some (e, k') → SameCoprocs k k') M me k ?_ ?_
  · rintro k₁ hw - ⟨⟩
    exact hw.sameCoprocs
  · rintro k₁ hw ⟨⟩
    exact hw.sameCoprocs.trans (checkSanity_sameCoprocs k₁)

omit dβ in
theorem dispatch_sameCoprocs (new : ι) (h : ℕ) (k : Kernel ι β) :
    SameCoprocs k (k.dispatch new h) := by
  refine .of_eq rfl ?_ fun hs => hs.congr rfl fun _ => rfl
  have hsgp : (k.dispatch new h).hw.sgp = (k.hw.dispatch k.sched (k.sched.prio new) h).sgp := rfl
  rw [hsgp, Hw.dispatch_eq]

theorem makeWay_sameCoprocs (h : ℕ) (k : Kernel ι β) : SameCoprocs k (k.makeWay h) := by
  unfold makeWay
  split
  · exact .of_eq rfl rfl fun hs => (hs.congr rfl fun _ => rfl).readyAppend _
  · exact .of_eq rfl rfl id

end Same

/-! ## What `H2K_dosched` counts -/

section Dosched

open Cluster (coprocs)

variable [dι : DecidableEq ι] [dβ : DecidableEq β] [fι : Fintype ι] {M : Machine ι β}
  {k k' : Kernel ι β} {h : ℕ}

omit dβ in
/-- The head of the ring, if it is chosen, is counted where there is a limit; if it is handed over,
this hardware thread goes to sleep. -/
theorem readyHead_count {p : ℕ} {head : ι} {r : Option ι} {c : Cluster ι}
    (hhead : k.sched.rings.head (.ready p) = some head) (hsched : k.cluster.sched = true)
    (hget : k.readyHead p h = some (r, c)) :
    (r = some head ∧ c = if k.cluster.coprocMax = -1 then k.cluster
      else k.cluster.xex h (k.cluster.ctx head) (k.cluster.hw h)) ∨
    (r = none ∧ ∃ steer, c = { k.cluster with steer := steer, raised := true }.sleep h) := by
  unfold readyHead at hget
  rw [hhead] at hget
  dsimp only at hget
  split at hget
  · next hlimit =>
    obtain ⟨rfl, rfl⟩ := Prod.mk.inj (Option.some.inj hget)
    refine .inl ⟨rfl, (if_pos ?_).symm⟩
    simpa [hsched] using hlimit
  next hlimit =>
  have hmax : k.cluster.coprocMax ≠ -1 := by
    intro hmax
    simp [hmax] at hlimit
  have taken : ∀ {r c}, some (some head, k.cluster.xex h (k.cluster.ctx head) (k.cluster.hw h)) =
      some (r, c) → r = some head ∧ c = if k.cluster.coprocMax = -1 then k.cluster
        else k.cluster.xex h (k.cluster.ctx head) (k.cluster.hw h) := by
    intro r c hrc
    obtain ⟨rfl, rfl⟩ := Prod.mk.inj (Option.some.inj hrc)
    exact ⟨rfl, (if_neg hmax).symm⟩
  split at hget
  · exact .inl (taken hget)
  split at hget
  · exact .inl (taken hget)
  obtain ⟨found, -, hfound⟩ := Option.bind_eq_some_iff.mp hget
  split at hfound
  · obtain ⟨rfl, rfl⟩ := Prod.mk.inj (Option.some.inj hfound)
    exact .inr ⟨rfl, _, rfl⟩
  · exact .inl (taken hfound)

/-- What the last thread that `H2K_dosched` switches to asks for; if it switches to none, what is in
use. -/
def Kernel.doschedLast (M : Machine ι β) (h : ℕ) : ℕ → Kernel ι β → Enables
  | 0, k => k.cluster.hw h
  | fuel + 1, k =>
    match k.readyGetbest h with
    | some (some new, k₁) =>
      let k₂ := (k₁.dispatch new h).switchTo new h
      if k₂.threads.kill new then
        doschedLast M h fuel (k₂.stop M (k₂.vms.status (M.vmblock new)) new)
      else k₂.cluster.hw h
    | _ => k.cluster.hw h

/-- What `H2K_dosched` takes off the count. -/
def Kernel.doschedBase (M : Machine ι β) (h fuel : ℕ) (k : Kernel ι β) : Enables :=
  if k.cluster.coprocMax = -1 then k.doschedLast M h fuel else k.cluster.hw h

omit dι dβ fι in
theorem sleep_turns {c : Cluster ι} (hc : c = k.cluster.sleep h ∨
      ∃ steer, c = { k.cluster with steer := steer, raised := true }.sleep h) :
    Turns h .off (coprocs Enables.off - coprocs (k.cluster.hw h)) k { k with cluster := c } := by
  rcases hc with rfl | ⟨steer, rfl⟩ <;> exact ⟨rfl, rfl, rfl, rfl, rfl, fun _ _ => rfl, id⟩

/-- **`H2K_ready_getbest`**: nothing, and the hardware thread uses nothing any more, or a thread,
and what it asks for is counted if there is a limit. -/
theorem readyGetbest_turns {r : Option ι} (hsched : k.cluster.sched = true)
    (hheads : k.sched.ReadyHeads) (hget : k.readyGetbest h = some (r, k')) :
    (r = none ∧ Turns h .off (coprocs Enables.off - coprocs (k.cluster.hw h)) k k') ∨
    ∃ t, r = some t ∧ Turns h (k.cluster.hw h) (if k.cluster.coprocMax = -1 then 0
      else coprocs (k.cluster.ctx t) - coprocs (k.cluster.hw h)) k k' ∧
      k'.cluster.ctx = k.cluster.ctx := by
  unfold readyGetbest at hget
  dsimp only at hget
  split at hget
  · obtain ⟨rfl, rfl⟩ := Prod.mk.inj (Option.some.inj hget)
    exact .inl ⟨rfl, sleep_turns (.inl rfl)⟩
  next hbest =>
  obtain ⟨head, hhead⟩ := hheads.best hbest
  obtain ⟨⟨r', c⟩, hr', hk'⟩ := Option.bind_eq_some_iff.mp hget
  rcases readyHead_count hhead hsched hr' with ⟨rfl, hc⟩ | ⟨rfl, hc⟩
  · obtain ⟨rfl, rfl⟩ := Prod.mk.inj (Option.some.inj hk')
    refine .inr ⟨head, rfl, ?_⟩
    split at hc
    · next hmax =>
      rw [if_pos hmax, hc]
      have hquiet : SameCoprocs k { k with sched := k.sched.readyRemove head } :=
        .of_eq rfl rfl fun hs => hs.readyRemove head
      exact ⟨hquiet.turns h, rfl⟩
    · next hmax =>
      rw [if_neg hmax, hc]
      exact ⟨⟨rfl, rfl, rfl, rfl, (update_eq_self ..).symm, fun _ _ => rfl,
        fun hs => hs.readyRemove head⟩, rfl⟩
  · obtain ⟨rfl, rfl⟩ := Prod.mk.inj (Option.some.inj hk')
    exact .inl ⟨rfl, sleep_turns (.inr hc)⟩

section

omit dι dβ fι

theorem switchTo_turns (new : ι) (h : ℕ) (k : Kernel ι β) :
    Turns h (k.cluster.ctx new) 0 k (k.switchTo new h) where
  sched := rfl
  hthreads := rfl
  coprocMax := rfl
  count := by rw [add_zero, update_eq_self]; rfl
  hw := rfl
  sgp := fun _ hne => update_of_ne hne _ _
  heads := id

theorem switchNull_turns (h : ℕ) (k : Kernel ι β) :
    Turns h (k.cluster.hw h) 0 k ({ k with hw := k.hw.raiseLowprio }.switchNull h) where
  sched := rfl
  hthreads := rfl
  coprocMax := rfl
  count := by rw [add_zero, update_eq_self]; rfl
  hw := by rw [update_eq_self]; rfl
  sgp := fun h' hne => by
    have hsgp : ({ k with hw := k.hw.raiseLowprio }.switchNull h).hw.sgp =
        update k.hw.raiseLowprio.sgp h none := rfl
    rw [hsgp, update_of_ne hne, Hw.raiseLowprio_eq]
  heads := id

end

omit fι dβ in
theorem choose_turns {new : ι} {d : BitVec 32} (hturn : Turns h (k.cluster.hw h) d k k')
    (hctx : k'.cluster.ctx = k.cluster.ctx) :
    Turns h (k.cluster.ctx new) d k ((k'.dispatch new h).switchTo new h) := by
  have hswitch := (hturn.then (dispatch_sameCoprocs new h k')).trans (switchTo_turns new h _)
  have hnew : (k'.dispatch new h).cluster.ctx new = k.cluster.ctx new := by
    rw [← hctx]
    rfl
  rwa [hnew, add_zero] at hswitch

/-- **The loop of `H2K_dosched`** takes what it ends with and gives back what it began with. -/
theorem doschedLoop_turns (fuel : ℕ) {e : Exit} (hsched : k.cluster.sched = true)
    (hheads : k.sched.ReadyHeads) (hloop : k.doschedLoop M h fuel = some (e, k')) :
    ∃ new, Turns h new (coprocs new - coprocs (k.doschedBase M h fuel)) k k' ∧
      (k'.hw.sgp h = none → new = Enables.off) := by
  induction fuel generalizing k with
  | zero => simp [doschedLoop] at hloop
  | succ fuel ih =>
    obtain ⟨⟨r, k₁⟩, hget, hrest⟩ := Option.bind_eq_some_iff.mp hloop
    unfold doschedBase doschedLast
    rw [hget]
    rcases readyGetbest_turns hsched hheads hget with ⟨rfl, hturn⟩ | ⟨new, rfl, hturn, hctx⟩
    · cases hrest
      have hsleep := hturn.trans (switchNull_turns h k₁)
      rw [hturn.hw_self, add_zero] at hsleep
      refine ⟨Enables.off, ?_, fun _ => rfl⟩
      rwa [ite_self]
    dsimp only at hrest ⊢
    set k₂ := (k₁.dispatch new h).switchTo new h
    have hto : Turns h (k.cluster.ctx new) _ k k₂ := choose_turns hturn hctx
    split at hrest
    · next hkill =>
      -- killed: it stops, and the loop goes on
      have hstop := hto.then (stop_sameCoprocs (M := M) (k₂.vms.status (M.vmblock new)) new k₂)
      obtain ⟨last, hlast, hidle⟩ := ih (hstop.sched.trans hsched) (hstop.heads hheads) hrest
      refine ⟨last, ?_, hidle⟩
      have htotal := hstop.trans hlast
      unfold doschedBase at htotal
      rw [hstop.coprocMax, hstop.hw_self] at htotal
      split
      · next hmax => rwa [if_pos hmax, if_pos hmax, zero_add] at htotal
      · next hmax =>
        rwa [if_neg hmax, if_neg hmax, sub_add_sub_cancel'] at htotal
    · next hkill =>
      rw [hto.hw_self]
      have hwork := work_sameCoprocs hrest
      refine ⟨k.cluster.ctx new, ?_, fun hnone => ?_⟩
      · have hdone := hto.then hwork
        split
        · next hmax => rwa [if_pos hmax, ← sub_self (coprocs (k.cluster.ctx new))] at hdone
        · next hmax => rwa [if_neg hmax] at hdone
      · have hnew : k₂.hw.sgp h = some new := update_self ..
        rw [hwork.sgp, hnew] at hnone
        simp at hnone

theorem dosched_turns {e : Exit} (hsched : k.cluster.sched = true) (hheads : k.sched.ReadyHeads)
    (hk' : k.dosched M h = some (e, k')) :
    ∃ new, Turns h new (coprocs new - coprocs (k.doschedBase M h (Fintype.card ι + 1))) k k' ∧
      (k'.hw.sgp h = none → new = Enables.off) :=
  doschedLoop_turns _ hsched hheads hk'

/-- What a switch to a thread, which may be killed, takes off the count: nothing, as if what the
thread asks for had been in use. -/
def Kernel.switchBase (M : Machine ι β) (new : ι) (h : ℕ) (k : Kernel ι β) : Enables :=
  let k₁ := k.switchTo new h
  if k₁.threads.kill new then
    (k₁.stop M (k₁.vms.status (M.vmblock new)) new).doschedBase M h (Fintype.card ι + 1)
  else k.cluster.ctx new

/-- **`H2K_switch`**, which the popup and intpool handlers call themselves. -/
theorem switch_turns {new : ι} {e : Exit} (hsched : k.cluster.sched = true)
    (hheads : k.sched.ReadyHeads) (hk' : k.switch M new h = some (e, k')) :
    ∃ last, Turns h last (coprocs last - coprocs (k.switchBase M new h)) k k' ∧
      (k'.hw.sgp h = none → last = Enables.off) := by
  have hto := switchTo_turns new h k
  unfold switch at hk'
  unfold switchBase
  dsimp only at hk' ⊢
  split at hk'
  · next hkill =>
    rw [if_pos hkill]
    have hstop := hto.then (stop_sameCoprocs (M := M)
      ((k.switchTo new h).vms.status (M.vmblock new)) new (k.switchTo new h))
    obtain ⟨last, hlast, hidle⟩ := dosched_turns (hstop.sched.trans hsched) (hstop.heads hheads) hk'
    have htotal := hstop.trans hlast
    rw [zero_add] at htotal
    exact ⟨last, htotal, hidle⟩
  · next hkill =>
    rw [if_neg hkill]
    have hwork := work_sameCoprocs hk'
    refine ⟨k.cluster.ctx new, ?_, fun hnone => ?_⟩
    · rw [sub_self]
      exact hto.then hwork
    · have hnew : (k.switchTo new h).hw.sgp h = some new := update_self ..
      rw [hwork.sgp, hnew] at hnone
      simp at hnone

/-- The kernel of `H2K_popup_int` and `H2K_intpool_int` before the switch. -/
def Kernel.madeWay (h : ℕ) (woken : ι) (k : Kernel ι β) : Kernel ι β :=
  { k.makeWay h with
    hw := { (k.makeWay h).hw with
      priomask := (k.makeWay h).hw.priomask &&& ~~~(1#32 <<< h) }.changeImask h (-1)
    sched := (k.makeWay h).sched.runlistPush woken }

omit fι in
theorem madeWay_sameCoprocs (h : ℕ) (woken : ι) (k : Kernel ι β) :
    SameCoprocs k (k.madeWay h woken) :=
  (makeWay_sameCoprocs h k).trans (.of_eq rfl rfl fun hs => hs.congr rfl fun _ => rfl)

/-- What a takeover takes off the count. -/
def Kernel.takeOverBase (M : Machine ι β) (h : ℕ) (woken : ι) (k : Kernel ι β) : Enables :=
  (k.madeWay h woken).switchBase M woken h

theorem takeOver_turns {woken : ι} {e : Exit} (hsched : k.cluster.sched = true)
    (hheads : k.sched.ReadyHeads) (hk' : k.takeOver M h woken = some (e, k')) :
    ∃ last, Turns h last (coprocs last - coprocs (k.takeOverBase M h woken)) k k' ∧
      (k'.hw.sgp h = none → last = Enables.off) := by
  have hmade := madeWay_sameCoprocs h woken k
  obtain ⟨last, hlast, hidle⟩ :=
    switch_turns (hmade.sched.trans hsched) (hmade.heads hheads) hk'
  exact ⟨last, hmade.then hlast, hidle⟩

end Dosched

end H2
