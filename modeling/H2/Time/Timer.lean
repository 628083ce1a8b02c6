import H2.Time.Ticks
import H2.Util.Tree

/-!
# Time/Timer — the timeouts tree and the hardware comparator

`timer.ref.c`: every thread with an armed timer is a node of the `timeouts` tree, keyed by its
timeout; `next_ticks` is what the comparator was last programmed with.  The timer interrupt splits
off the expired part of the tree and walks it.

The posting of the guest interrupt is a parameter, a change `post` to some other state `σ`.
-/

namespace H2

open Function

variable {ι σ : Type} [dι : DecidableEq ι] [fι : Fintype ι]

/-- The root variables: the global one, and `timedout` of `H2K_timer_int`. -/
inductive TimeRoot where
  | timeouts
  | timedout
  deriving DecidableEq

/-- `H2K_gp->time` but for the tree, the comparator registers, and the timeout of each thread —
which the context overlays on its tree node's key. -/
@[ext]
structure Timeinfo (ι : Type) where
  timeout : ι → Ticks
  lastTicks : Ticks
  nextTicks : Ticks
  matchHi : UInt32
  matchLo : UInt32

/-- The links of all tree nodes, and the rest. -/
abbrev TimerCells (ι : Type) := Cells TimeRoot ι

/-- Enough rounds for a search in a tree of threads. -/
def treeFuel (ι : Type) [Fintype ι] : ℕ := Fintype.card ι + 1

namespace Timeinfo

/-- `H2K_timer_hw_set_timeout`. -/
def hwSetTimeout (nextticks : Ticks) (ti : Timeinfo ι) : Timeinfo ι :=
  let ti := { ti with nextTicks := nextticks }
  let ti := { ti with matchHi := ~~~0 }
  let ti := { ti with matchLo := nextticks.toUInt32 }
  { ti with matchHi := (nextticks >>> 32).toUInt32 }

/-- `H2K_timer_update_time`. -/
def updateTime (nowticks : Ticks) (ti : Timeinfo ι) : Timeinfo ι :=
  if ti.lastTicks < nowticks then { ti with lastTicks := nowticks } else ti

/-- `H2K_timer_update_timeout`. -/
def updateTimeout (nextticks : Ticks) (ti : Timeinfo ι) : Timeinfo ι :=
  if nextticks < ti.nextTicks then ti.hwSetTimeout nextticks else ti

/-- `t->timeout = v`. -/
def setTimeout (t : ι) (v : Ticks) (ti : Timeinfo ι) : Timeinfo ι :=
  { ti with timeout := update ti.timeout t v }

/-- The comparator's match value. -/
def matchTicks (ti : Timeinfo ι) : Ticks := (ti.matchHi.toUInt64 <<< 32) ||| ti.matchLo.toUInt64

/-- `H2K_timer_init`, with the counter's first reading. -/
def init (now : Ticks) : Timeinfo ι :=
  (hwSetTimeout timeForever ⟨fun _ => timeBigbang, timeBigbang, 0, 0, 0⟩).updateTime now

end Timeinfo

/-- `me->tree.rightleft = 0`. -/
def clearLinks (me : ι) (c : TimerCells ι) : TimerCells ι :=
  Tree.store (.right me) none (Tree.store (.left me) none c)

/-- `H2K_timer_cancel_withlock`. -/
def timerCancelWithlock (me : ι) (c : TimerCells ι) (ti : Timeinfo ι) : Option (TimerCells ι) :=
  if ti.timeout me ≠ timeBigbang then
    Tree.remove ti.timeout (treeFuel ι) (.root .timeouts) me c
  else some c

/-- `H2K_timer_set_timeout_tick`. -/
def timerSetTimeoutTick (timeoutTick : Ticks) (me : ι) (c : TimerCells ι) (ti : Timeinfo ι) :
    Option (TimerCells ι × Timeinfo ι) := do
  let timeoutTick := if timeoutTick ≤ ti.lastTicks then timeBigbang else timeoutTick
  let c ← timerCancelWithlock me c ti
  let ti := ti.setTimeout me timeoutTick
  let c := clearLinks me c
  let c ←
    if timeoutTick ≠ timeBigbang then Tree.add ti.timeout (treeFuel ι) (.root .timeouts) me c
    else some c
  some (c, ti.updateTimeout timeoutTick)

/-- `H2K_timer_set_timeout`. -/
def timerSetTimeout (timeout : UInt64) (me : ι) (c : TimerCells ι) (ti : Timeinfo ι) :
    Option (TimerCells ι × Timeinfo ι) :=
  timerSetTimeoutTick (setTimeoutTicks timeout) me c ti

/-- `H2K_timer_delta_timeout`, at counter `now`. -/
def timerDeltaTimeout (now : Ticks) (delta : UInt64) (me : ι) (c : TimerCells ι)
    (ti : Timeinfo ι) : Option (TimerCells ι × Timeinfo ι) :=
  timerSetTimeoutTick (deltaTimeoutTicks now delta) me c (ti.updateTime now)

/-- What `H2K_thread_stop_withlock` does to the timer: cancel it, and clear the context. -/
def timerStop (me : ι) (c : TimerCells ι) (ti : Timeinfo ι) :
    Option (TimerCells ι × Timeinfo ι) := do
  let c ← timerCancelWithlock me c ti
  some (clearLinks me c, ti.setTimeout me timeBigbang)

/-- `H2K_timer_dotimeout`. -/
def timerDotimeout (post : ι → σ → σ) (dest : ι) (st : TimerCells ι × (Timeinfo ι × σ)) :
    TimerCells ι × (Timeinfo ι × σ) :=
  (st.1, st.2.1.setTimeout dest timeBigbang, post dest st.2.2)

/-- `H2K_timer_int` up to the walk: split the tree, program the comparator. -/
def timerSplit (now : Ticks) (c : TimerCells ι) (ti : Timeinfo ι) :
    Option (TimerCells ι × Timeinfo ι) := do
  let ti := ti.updateTime now
  let ticks := now + tickGranularity
  let c := Tree.store (.root .timedout) none c
  let c ← Tree.bisect ti.timeout (treeFuel ι) (.root .timedout) (.root .timeouts)
    (c (.root .timeouts)) ticks c
  let newtimeout ← Tree.min (treeFuel ι) (c (.root .timeouts)) c
  some (c, ti.hwSetTimeout (newtimeout.elim timeForever ti.timeout))

/-- `H2K_timer_int`, at counter `now`; the callback is a parameter here. -/
def timerIntWith (func : ι → TimerCells ι × (Timeinfo ι × σ) → TimerCells ι × (Timeinfo ι × σ))
    (now : Ticks) (c : TimerCells ι) (ti : Timeinfo ι) (s : σ) :
    Option (TimerCells ι × (Timeinfo ι × σ)) := do
  let (c, ti) ← timerSplit now c ti
  Tree.destructiveIterate func (2 * treeFuel ι) (c (.root .timedout)) (c, ti, s)

/-- `H2K_timer_int`. -/
def timerInt (post : ι → σ → σ) (now : Ticks) (c : TimerCells ι) (ti : Timeinfo ι) (s : σ) :
    Option (TimerCells ι × (Timeinfo ι × σ)) :=
  timerIntWith (timerDotimeout post) now c ti s

/-! ## Armed timers

While the interrupt walks the expired timers, the armed ones are in two trees.  `Armed c ti xs T`
speaks of the global one: it is `T`, and its nodes are the armed threads not in `xs`. -/

/-- The `timeouts` tree is `T`, a search tree without repetitions. -/
structure TreeAt (c : TimerCells ι) (timeout : ι → Ticks) (T : BinaryTree ι) : Prop where
  points : Points c (c (.root .timeouts)) T
  search : IsSearch timeout T
  nodup : (inorder T).Nodup

/-- Its nodes are exactly the armed threads outside `xs`. -/
structure Armed (c : TimerCells ι) (ti : Timeinfo ι) (xs : List ι) (T : BinaryTree ι) : Prop
    extends TreeAt c ti.timeout T where
  mem : ∀ {x}, x ∈ inorder T ↔ ti.timeout x ≠ timeBigbang ∧ x ∉ xs

namespace Timeinfo

variable (ti : Timeinfo ι)

omit dι fι

@[simp] theorem hwSetTimeout_timeout (v : Ticks) : (ti.hwSetTimeout v).timeout = ti.timeout := rfl

@[simp] theorem hwSetTimeout_nextTicks (v : Ticks) : (ti.hwSetTimeout v).nextTicks = v := rfl

@[simp] theorem updateTime_timeout (v : Ticks) : (ti.updateTime v).timeout = ti.timeout := by
  rw [updateTime]
  split <;> rfl

@[simp] theorem updateTime_nextTicks (v : Ticks) : (ti.updateTime v).nextTicks = ti.nextTicks := by
  rw [updateTime]
  split <;> rfl

@[simp] theorem updateTime_matchTicks (v : Ticks) :
    (ti.updateTime v).matchTicks = ti.matchTicks := by
  rw [updateTime]
  split <;> rfl

@[simp] theorem updateTimeout_timeout (v : Ticks) : (ti.updateTimeout v).timeout = ti.timeout := by
  rw [updateTimeout]
  split <;> rfl

@[simp] theorem setTimeout_nextTicks [DecidableEq ι] (t : ι) (v : Ticks) :
    (ti.setTimeout t v).nextTicks = ti.nextTicks := rfl

@[simp] theorem setTimeout_matchTicks [DecidableEq ι] (t : ι) (v : Ticks) :
    (ti.setTimeout t v).matchTicks = ti.matchTicks := rfl

theorem setTimeout_timeout_self [DecidableEq ι] (ti : Timeinfo ι) (t : ι) (v : Ticks) :
    (ti.setTimeout t v).timeout t = v :=
  update_self ..

theorem setTimeout_timeout_of_ne [DecidableEq ι] {ti : Timeinfo ι} {t x : ι} (h : x ≠ t)
    {v : Ticks} : (ti.setTimeout t v).timeout x = ti.timeout x :=
  update_of_ne h ..

theorem updateTimeout_nextTicks (v : Ticks) :
    (ti.updateTimeout v).nextTicks ≤ v ∧ (ti.updateTimeout v).nextTicks ≤ ti.nextTicks := by
  rw [updateTimeout]
  split
  · next h => exact ⟨le_rfl, h.le⟩
  · next h => exact ⟨not_lt.mp h, le_rfl⟩

theorem hwSetTimeout_matchTicks (v : Ticks) : (ti.hwSetTimeout v).matchTicks = v := by
  have hv : v.toNat < 18446744073709551616 := v.toNat_lt
  have hhi : v.toNat / 4294967296 < 4294967296 := by omega
  have hlo : v.toNat % 4294967296 < 2 ^ 32 := by omega
  have hor := Nat.shiftLeft_add_eq_or_of_lt hlo (v.toNat / 4294967296)
  have hmatch : (ti.hwSetTimeout v).matchTicks =
      ((v >>> 32).toUInt32.toUInt64 <<< 32) ||| v.toUInt32.toUInt64 := rfl
  rw [hmatch, ← UInt64.toNat_inj]
  simp only [UInt64.toUInt64_toUInt32, UInt64.toNat_or, UInt64.toNat_shiftLeft, UInt64.toNat_mod,
    UInt64.toNat_shiftRight, UInt64.reduceToNat, Nat.reduceMod, Nat.shiftRight_eq_div_pow] at hor ⊢
  rw [Nat.mod_eq_of_lt hhi, Nat.mod_eq_of_lt (by omega)]
  omega

end Timeinfo

omit fι in
theorem clearLinks_of_ne {me : ι} {s : Slot TimeRoot ι} (h : s.owner ≠ some me)
    (c : TimerCells ι) : clearLinks me c s = c s := by
  have hl : s ≠ .left me := fun e => h (e ▸ rfl)
  have hr : s ≠ .right me := fun e => h (e ▸ rfl)
  rw [clearLinks, Tree.store_of_ne hr, Tree.store_of_ne hl]

/-- The links of some nodes are as they were. -/
def SameLinks (c c' : TimerCells ι) (xs : List ι) : Prop :=
  ∀ y ∈ xs, c' (.left y) = c (.left y) ∧ c' (.right y) = c (.right y)

section Ops

variable {c : TimerCells ι} {ti : Timeinfo ι} {xs : List ι} {T : BinaryTree ι} {me : ι}

omit dι fι in
theorem Armed.of_timeout (h : Armed c ti xs T) {ti' : Timeinfo ι} (ht : ti'.timeout = ti.timeout) :
    Armed c ti' xs T :=
  ⟨⟨h.points, ht ▸ h.search, h.nodup⟩, fun {x} => by rw [ht]; exact h.mem⟩

omit dι in
theorem TreeAt.numNodes_lt {timeout : ι → Ticks} (h : TreeAt c timeout T) :
    T.numNodes < treeFuel ι :=
  Nat.lt_succ_of_le (numNodes_le_card h.nodup)

omit dι fι in
/-- Links change only at the root, in the tree and at `me`: those of `xs` do not. -/
theorem Armed.sameLinks (h : Armed c ti xs T) (hme : me ∉ xs) {c' : TimerCells ι}
    (hframe : ∀ s, s ≠ .root .timeouts → s.Outside (me :: inorder T) → c' s = c s) :
    SameLinks c c' xs := by
  intro y hy
  have hyT : y ∉ me :: inorder T := by
    rw [List.mem_cons, not_or]
    exact ⟨fun e => hme (e ▸ hy), fun hyT => (h.mem.mp hyT).2 hy⟩
  exact ⟨hframe _ (by simp) (Slot.outside_left.mpr hyT), hframe _ (by simp)
    (Slot.outside_right.mpr hyT)⟩

/-- **Cancelling** takes the thread out of the tree, if it was there. -/
theorem timerCancelWithlock_spec (h : Armed c ti xs T) (hme : me ∉ xs) :
    ∃ c' T', timerCancelWithlock me c ti = some c' ∧ Points c' (c' (.root .timeouts)) T' ∧
      inorder T' = (inorder T).erase me ∧ IsSearch ti.timeout T' ∧
      ∀ s, s ≠ .root .timeouts → s.Outside (inorder T) → c' s = c s := by
  rw [timerCancelWithlock]
  split
  · next harmed =>
    obtain ⟨c', hrem, hT', hframe⟩ := Tree.removeKey_spec (k := ti.timeout me) h.points
      h.numNodes_lt h.nodup (Slot.outside_root _)
    exact ⟨c', _, hrem, hT', inorder_prune h.search h.nodup (h.mem.mpr ⟨harmed, hme⟩),
      h.search.prune, hframe⟩
  · next hidle =>
    have hnot : me ∉ inorder T := fun hmem => hidle (h.mem.mp hmem).1
    exact ⟨c, T, rfl, h.points, (List.erase_of_not_mem hnot).symm, h.search, fun _ _ _ => rfl⟩

omit fι in
theorem Armed.disarm (h : Armed c ti xs T) {c' : TimerCells ι} {T' : BinaryTree ι}
    (hT' : Points c' (c' (.root .timeouts)) T') (hin : inorder T' = (inorder T).erase me)
    (hs : IsSearch ti.timeout T') :
    Armed (clearLinks me c') (ti.setTimeout me timeBigbang) xs T' := by
  have hmem : ∀ {x}, x ∈ inorder T' ↔ x ≠ me ∧ x ∈ inorder T := by
    rw [hin]
    exact h.nodup.mem_erase_iff
  have hroot : clearLinks me c' (.root .timeouts) = c' (.root .timeouts) :=
    clearLinks_of_ne (by simp) c'
  refine ⟨⟨?_, ?_, ?_⟩, fun {x} => ?_⟩
  · rw [hroot]
    refine hT'.congr fun x hx => ?_
    have hne := (hmem.mp hx).1
    exact ⟨clearLinks_of_ne (by simpa using hne) c', clearLinks_of_ne (by simpa using hne) c'⟩
  · exact hs.congr fun x hx => update_of_ne (hmem.mp hx).1 ..
  · rw [hin]
    exact h.nodup.erase me
  · rw [hmem, h.mem, Timeinfo.setTimeout]
    by_cases hx : x = me <;> simp [hx]

/-- **Stopping** a thread disarms its timer. -/
theorem timerStop_spec (h : Armed c ti xs T) (hme : me ∉ xs) :
    ∃ c' T', timerStop me c ti = some (c', ti.setTimeout me timeBigbang) ∧
      Armed c' (ti.setTimeout me timeBigbang) xs T' ∧ SameLinks c c' xs := by
  obtain ⟨c', T', hcancel, hT', hin, hs, hframe⟩ := timerCancelWithlock_spec h hme
  refine ⟨clearLinks me c', T', by rw [timerStop, hcancel]; rfl, h.disarm hT' hin hs,
    h.sameLinks hme fun s hs' hout => ?_⟩
  rw [Slot.outside_cons] at hout
  rw [clearLinks_of_ne hout.1, hframe s hs' hout.2]

/-- Arming an idle thread whose node is clear. -/
theorem Armed.arm {tick : Ticks} (h : Armed c ti xs T) (hme : me ∉ xs)
    (hidle : ti.timeout me = timeBigbang) (hlinks : c (.left me) = none ∧ c (.right me) = none)
    (htick : tick ≠ timeBigbang) :
    ∃ c' T', Tree.add (ti.setTimeout me tick).timeout (treeFuel ι) (.root .timeouts) me c =
        some c' ∧ Armed c' (ti.setTimeout me tick) xs T' ∧
      ∀ s, s ≠ .root .timeouts → s.Outside (inorder T) → c' s = c s := by
  have hnot : me ∉ inorder T := fun hmem => (h.mem.mp hmem).1 hidle
  have hsearch : IsSearch (ti.setTimeout me tick).timeout T :=
    h.search.congr fun x hx => update_of_ne (fun e => hnot (by rwa [e] at hx)) ..
  have hN : Points c (some me) (.node me .nil .nil) := ⟨rfl, hlinks.1, hlinks.2⟩
  have hdisj : (inorder T).Disjoint (inorder (.node me .nil .nil)) := by simpa using hnot
  obtain ⟨c', hadd, hT', hframe⟩ := Tree.addKey_spec (k := (ti.setTimeout me tick).timeout me)
    h.points hN h.numNodes_lt h.nodup hdisj (Slot.outside_root _) (Slot.outside_root _)
  refine ⟨c', _, hadd, ⟨⟨hT', hsearch.graft (by simp [IsSearch]) (by simp), ?_⟩, fun {x} => ?_⟩,
    hframe⟩
  · exact nodup_inorder_graft h.nodup (by simp) hdisj
  · rw [mem_inorder_graft, h.mem, Timeinfo.setTimeout]
    by_cases hx : x = me
    · simp [hx, hme, htick]
    · simp [hx]

/-- What setting a timeout of `tick` arms: nothing, if that is in the past. -/
def armedTick (tick : Ticks) (ti : Timeinfo ι) : Ticks :=
  if tick ≤ ti.lastTicks then timeBigbang else tick

/-- **Setting a timeout** moves the thread to its new place in the tree, or out of it. -/
theorem timerSetTimeoutTick_spec (tick : Ticks) (h : Armed c ti xs T) (hme : me ∉ xs) :
    ∃ c' T', timerSetTimeoutTick tick me c ti =
        some (c', (ti.setTimeout me (armedTick tick ti)).updateTimeout (armedTick tick ti)) ∧
      Armed c' (ti.setTimeout me (armedTick tick ti)) xs T' ∧ SameLinks c c' xs := by
  obtain ⟨c₁, T₁, hcancel, hT₁, hin, hs, hframe⟩ := timerCancelWithlock_spec h hme
  have hdis := h.disarm hT₁ hin hs
  have hclear : ∀ s, s ≠ .root .timeouts → s.Outside (me :: inorder T) →
      clearLinks me c₁ s = c s := fun s hs' hout => by
    rw [Slot.outside_cons] at hout
    rw [clearLinks_of_ne hout.1, hframe s hs' hout.2]
  have hsame : (ti.setTimeout me timeBigbang).setTimeout me (armedTick tick ti) =
      ti.setTimeout me (armedTick tick ti) := by simp [Timeinfo.setTimeout]
  have hstep : timerSetTimeoutTick tick me c ti = (do
      let c ← if armedTick tick ti ≠ timeBigbang then
          Tree.add (ti.setTimeout me (armedTick tick ti)).timeout (treeFuel ι) (.root .timeouts) me
            (clearLinks me c₁)
        else some (clearLinks me c₁)
      some (c, (ti.setTimeout me (armedTick tick ti)).updateTimeout (armedTick tick ti))) := by
    rw [timerSetTimeoutTick, hcancel]
    rfl
  rw [hstep]
  by_cases htick : armedTick tick ti = timeBigbang
  · rw [htick] at *
    exact ⟨_, T₁, rfl, hdis, h.sameLinks hme hclear⟩
  · obtain ⟨c₂, T₂, hadd, harm, hframe₂⟩ := hdis.arm hme (update_self ..)
      ⟨by simp [clearLinks], by simp [clearLinks]⟩ htick
    rw [hsame] at hadd harm
    refine ⟨c₂, T₂, by rw [if_pos htick, hadd]; rfl, harm, h.sameLinks hme fun s hs' hout => ?_⟩
    have hsub : inorder T₁ ⊆ inorder T := by
      rw [hin]
      exact List.erase_subset
    rw [hframe₂ s hs' ((Slot.outside_cons.mp hout).2.mono hsub), hclear s hs' hout]

end Ops

/-! ## The interrupt -/

section Interrupt

variable {c : TimerCells ι} {ti : Timeinfo ι} {T : BinaryTree ι}

/-- The threads whose timers expire by `ticks`, in order. -/
def expired (timeout : ι → Ticks) (ticks : Ticks) (T : BinaryTree ι) : List ι :=
  (inorder T).filter (timeout · ≤ ticks)

/-- Those that remain. -/
def remaining (timeout : ι → Ticks) (ticks : Ticks) (T : BinaryTree ι) : List ι :=
  (inorder T).filter (ticks < timeout ·)

/-- What the comparator is set to for the threads that remain. -/
def nextTimeout (timeout : ι → Ticks) (xs : List ι) : Ticks := xs.head?.elim timeForever timeout

section

omit dι fι

theorem disjoint_expired_remaining (timeout : ι → Ticks) (ticks : Ticks) (T : BinaryTree ι) :
    (expired timeout ticks T).Disjoint (remaining timeout ticks T) := by
  intro x hx hx'
  simp only [expired, remaining, List.mem_filter, decide_eq_true_eq] at hx hx'
  exact absurd hx.2 (not_le.mpr hx'.2)

theorem nextTimeout_spec {timeout : ι → Ticks} {xs : List ι}
    (h : xs.Pairwise (timeout · ≤ timeout ·)) : (xs = [] ∧ nextTimeout timeout xs = timeForever) ∨
      ∃ m ∈ xs, nextTimeout timeout xs = timeout m ∧ ∀ y ∈ xs, timeout m ≤ timeout y := by
  cases xs with
  | nil => exact .inl ⟨rfl, rfl⟩
  | cons m xs =>
    refine .inr ⟨m, List.mem_cons_self, rfl, fun y hy => ?_⟩
    rcases List.mem_cons.mp hy with rfl | hy
    · exact le_rfl
    · exact (List.pairwise_cons.mp h).1 y hy

end

/-- **The split**: the expired timers hang from `timedout`, the others stay, and the comparator is
set for the first of them. -/
theorem timerSplit_spec (now : Ticks) (h : TreeAt c ti.timeout T) :
    ∃ c' D T', timerSplit now c ti = some (c', (ti.updateTime now).hwSetTimeout
        (nextTimeout ti.timeout (remaining ti.timeout (now + tickGranularity) T))) ∧
      Points c' (c' (.root .timedout)) D ∧
      inorder D = expired ti.timeout (now + tickGranularity) T ∧
      TreeAt c' ti.timeout T' ∧ inorder T' = remaining ti.timeout (now + tickGranularity) T := by
  have hroot : Tree.store (.root .timedout) none c (.root .timeouts) = c (.root .timeouts) :=
    Tree.store_of_ne (by simp) ..
  have hT : Points (Tree.store (.root .timedout) none c) (c (.root .timeouts)) T :=
    h.points.congr fun x _ => ⟨Tree.store_of_ne (by simp) .., Tree.store_of_ne (by simp) ..⟩
  obtain ⟨c', hbis, hfst, hsnd, -⟩ := Tree.bisect_spec ti.timeout
    (now + tickGranularity) hT h.numNodes_lt.le h.nodup
    (show Slot.root TimeRoot.timedout ≠ .root .timeouts by simp) (Slot.outside_root _)
    (Slot.outside_root _) fun hnone => ⟨Tree.store_self .., hroot.trans hnone⟩
  obtain ⟨hin₁, hin₂⟩ := inorder_bisect h.search
  have htree : TreeAt c' ti.timeout (bisect ti.timeout (now + tickGranularity) T).2 :=
    ⟨hsnd, h.search.bisect.2, hin₂ ▸ h.nodup.filter _⟩
  have hmin := Tree.min_spec (n := treeFuel ι) hsnd htree.numNodes_lt.le
  refine ⟨c', _, _, ?_, hfst, hin₁, htree, hin₂⟩
  simp only [timerSplit, Timeinfo.updateTime_timeout, hroot, hbis, Option.bind_eq_bind,
    Option.bind_some, hmin, hin₂]
  rfl

omit fι in
/-- Where all armed threads are in the tree, those that remain are the others. -/
theorem Armed.mem_remaining (h : Armed c ti [] T) (ticks : Ticks) {x : ι} :
    x ∈ remaining ti.timeout ticks T ↔
      ti.timeout x ≠ timeBigbang ∧ x ∉ expired ti.timeout ticks T := by
  have := h.mem (x := x)
  simp only [remaining, expired, List.mem_filter, decide_eq_true_eq, not_and, not_le]
  tauto

/-- The state of the walk after the visits `vs`. -/
def afterVisits (post : ι → σ → σ) (ti : Timeinfo ι) (s : σ) (vs : List ι) : Timeinfo ι × σ :=
  ({ ti with timeout := fun x => if x ∈ vs then timeBigbang else ti.timeout x },
    vs.foldl (fun s x => post x s) s)

/-- What holds along the walk: nothing but the visited threads' timeouts has changed. -/
def WalkInv (post : ι → σ → σ) (ti : Timeinfo ι) (s : σ) (T : BinaryTree ι) (all xs : List ι)
    (st : TimerCells ι × (Timeinfo ι × σ)) : Prop :=
  Points st.1 (st.1 (.root .timeouts)) T ∧ ∃ vs, vs ++ xs = all ∧ st.2 = afterVisits post ti s vs

omit fι in
theorem keeps_walkInv (post : ι → σ → σ) (ti : Timeinfo ι) (s : σ) {T : BinaryTree ι}
    {all : List ι} (hdisj : all.Disjoint (inorder T)) :
    Tree.Keeps (timerDotimeout post) (WalkInv post ti s T all) where
  rotate {xs f f' s'} := by
    rintro ⟨hT, vs, rfl, hst⟩ hf
    refine ⟨?_, vs, rfl, hst⟩
    have hroot : f' (.root .timeouts) = f (.root .timeouts) := hf _ (Slot.outside_root _)
    show Points f' (f' (.root .timeouts)) T
    rw [hroot]
    refine hT.congr fun x hx => ?_
    have hx' : x ∉ xs := fun h => hdisj (List.mem_append_right vs h) hx
    exact ⟨hf _ (Slot.outside_left.mpr hx'), hf _ (Slot.outside_right.mpr hx')⟩
  visit {x xs st} := by
    rintro - ⟨hT, vs, rfl, hst⟩
    refine ⟨⟨hT, vs ++ [x], by simp, ?_⟩, fun y _ => ⟨rfl, rfl⟩⟩
    rw [timerDotimeout, hst, afterVisits, afterVisits, List.foldl_append]
    refine Prod.ext (Timeinfo.ext ?_ rfl rfl rfl rfl) rfl
    funext y
    by_cases hy : y = x <;> simp [Timeinfo.setTimeout, hy]

/-- **The timer interrupt**, from any search tree. -/
theorem timerInt_spec (post : ι → σ → σ) (now : Ticks) (h : TreeAt c ti.timeout T) (s : σ) :
    ∃ c' T', timerInt post now c ti s = some (c', afterVisits post ((ti.updateTime now).hwSetTimeout
        (nextTimeout ti.timeout (remaining ti.timeout (now + tickGranularity) T))) s
        (expired ti.timeout (now + tickGranularity) T)) ∧
      TreeAt c' ti.timeout T' ∧ inorder T' = remaining ti.timeout (now + tickGranularity) T := by
  obtain ⟨c₁, D, T', hsplit, hD, hinD, hT', hinT'⟩ := timerSplit_spec now h
  have hndD : (inorder D).Nodup := hinD ▸ h.nodup.filter _
  have hdisj : (inorder D).Disjoint (inorder T') := by
    rw [hinD, hinT']
    exact disjoint_expired_remaining ..
  have hfuel : 2 * D.numNodes ≤ 2 * treeFuel ι := by
    have := numNodes_le_card hndD
    rw [treeFuel]
    omega
  set ti₁ := (ti.updateTime now).hwSetTimeout
    (nextTimeout ti.timeout (remaining ti.timeout (now + tickGranularity) T))
  obtain ⟨⟨c', st'⟩, hiter, hwalk, vs, hvs, hst⟩ := Tree.destructiveIterate_spec
    (keeps_walkInv post ti₁ s hdisj) (c₁, ti₁, s) hD hndD
    ⟨hT'.points, [], by simp, by simp [afterVisits]⟩ hfuel
  refine ⟨c', T', ?_, ⟨hwalk, hT'.search, hT'.nodup⟩, hinT'⟩
  have hst' : st' = afterVisits post ti₁ s vs := hst
  rw [timerInt, timerIntWith, hsplit, ← hinD, ← hvs, List.append_nil, ← hst']
  exact hiter

/-- **What one timer interrupt does**: it clears the timeout of, and posts to, exactly the threads
of the tree whose key is at most `now + 4`, each once and in key order; the others keep their
timeouts and their order in the tree, and the comparator is set for the first of them. -/
theorem timer_int_effect (post : ι → σ → σ) (now : Ticks) (c : TimerCells ι) (ti : Timeinfo ι)
    (T : BinaryTree ι) (h : TreeAt c ti.timeout T) (s : σ) :
    ∃ c' ti' T', ∃ fired : List ι, timerInt post now c ti s =
        some (c', ti', fired.foldl (fun s x => post x s) s) ∧
      (∀ x, x ∈ fired ↔ x ∈ inorder T ∧ ti.timeout x ≤ now + tickGranularity) ∧
      fired.Nodup ∧ fired.Pairwise (ti.timeout · ≤ ti.timeout ·) ∧
      (∀ x, ti'.timeout x = if x ∈ fired then timeBigbang else ti.timeout x) ∧
      TreeAt c' ti'.timeout T' ∧ inorder T' = (inorder T).filter (· ∉ fired) ∧
      ((inorder T' = [] ∧ ti'.nextTicks = timeForever) ∨ ∃ m ∈ inorder T',
        ti'.nextTicks = ti.timeout m ∧ ∀ y ∈ inorder T', ti.timeout m ≤ ti.timeout y) ∧
      ti'.matchTicks = ti'.nextTicks := by
  obtain ⟨c', T', hint, hT', hinT'⟩ := timerInt_spec post now h s
  have hsorted : (inorder T').Pairwise (ti.timeout · ≤ ti.timeout ·) := hT'.search.pairwise
  have hmem : ∀ x, x ∈ expired ti.timeout (now + tickGranularity) T ↔
      x ∈ inorder T ∧ ti.timeout x ≤ now + tickGranularity := by simp [expired]
  refine ⟨c', _, T', expired ti.timeout (now + tickGranularity) T, hint, hmem, h.nodup.filter _,
    h.search.pairwise.filter _, fun x => ?_, ?_, ?_, ?_, ?_⟩
  · simp
  · refine ⟨hT'.points, hT'.search.congr fun x hx => ?_, hT'.nodup⟩
    have hx' : x ∉ expired ti.timeout (now + tickGranularity) T := fun he =>
      disjoint_expired_remaining _ _ _ he (hinT' ▸ hx)
    simp [hx']
  · rw [hinT']
    refine List.filter_congr fun x hx => ?_
    simp [hmem, hx]
  · have hnext := nextTimeout_spec hsorted
    rw [hinT'] at hnext ⊢
    exact hnext
  · exact (ti.updateTime now).hwSetTimeout_matchTicks _

/-- Two armed timers: thread `true` at tick 9 in the root, thread `false` at tick 5 to its left. -/
def twoTimers : TimerCells Bool
  | .root .timeouts => some true
  | .left true => some false
  | _ => none

/-- At counter 3 one of them has expired. -/
theorem timer_int_effect_two : ∃ c' ti' s', timerInt (fun t log => log ++ [t]) 3 twoTimers
        ⟨fun t => if t then 9 else 5, 0, 5, 0, 5⟩ [] = some (c', ti', s') ∧
      ti'.timeout false = timeBigbang ∧ ti'.timeout true = 9 := by
  have h : TreeAt twoTimers (fun t => if t then 9 else 5)
      (.node true (.node false .nil .nil) .nil) := by
    refine ⟨⟨rfl, ⟨rfl, rfl, rfl⟩, rfl⟩, ?_, by decide⟩
    simp [IsSearch]
  obtain ⟨c', ti', -, fired, hint, hmem, -, -, htimeout, -⟩ :=
    timer_int_effect (fun t log => log ++ [t]) 3 twoTimers
      ⟨fun t => if t then 9 else 5, 0, 5, 0, 5⟩ _ h []
  have hfalse : false ∈ fired := (hmem false).mpr ⟨by simp, by decide⟩
  have htrue : true ∉ fired := fun ht => absurd ((hmem true).mp ht).2 (by decide)
  exact ⟨c', ti', _, hint, by simp [htimeout, hfalse], by simp [htimeout, htrue]⟩

end Interrupt

/-! ## Runs -/

/-- What a thread does to its own timer. -/
inductive ThreadOp (ι : Type) where
  | setTimeout (me : ι) (timeout : UInt64)
  | deltaTimeout (me : ι) (delta : UInt64) (now : Ticks)
  | stop (me : ι)
  deriving DecidableEq

def ThreadOp.me : ThreadOp ι → ι
  | .setTimeout me _ => me
  | .deltaTimeout me _ _ => me
  | .stop me => me

def ThreadOp.exec (c : TimerCells ι) (ti : Timeinfo ι) :
    ThreadOp ι → Option (TimerCells ι × Timeinfo ι)
  | .setTimeout me timeout => timerSetTimeout timeout me c ti
  | .deltaTimeout me delta now => timerDeltaTimeout now delta me c ti
  | .stop me => timerStop me c ti

/-- The timer operations. -/
inductive TimerOp (ι : Type) where
  | thread (op : ThreadOp ι)
  | interrupt (now : Ticks)

/-- The cells, the timer globals and the state guest interrupts are posted to. -/
abbrev TimerState (ι σ : Type) := TimerCells ι × (Timeinfo ι × σ)

def TimerOp.exec (post : ι → σ → σ) : TimerOp ι → TimerState ι σ → Option (TimerState ι σ)
  | .thread op, (c, ti, s) => (op.exec c ti).map fun (c, ti) => (c, ti, s)
  | .interrupt now, (c, ti, s) => timerInt post now c ti s

def timerRun (post : ι → σ → σ) (ops : List (TimerOp ι)) (st : TimerState ι σ) :
    Option (TimerState ι σ) :=
  ops.foldlM (fun st op => op.exec post st) st

/-- The tree holds exactly the armed threads, and the comparator is not late for any of them. -/
structure TimerInv (c : TimerCells ι) (ti : Timeinfo ι) : Prop where
  armed : ∃ T, Armed c ti [] T
  next_le : ∀ x, ti.timeout x ≠ timeBigbang → ti.nextTicks ≤ ti.timeout x
  comparator : ti.matchTicks = ti.nextTicks

namespace TimerInv

variable {c : TimerCells ι} {ti : Timeinfo ι}

section

omit dι fι

theorem updateTime (h : TimerInv c ti) (now : Ticks) : TimerInv c (ti.updateTime now) := by
  obtain ⟨T, hT⟩ := h.armed
  refine ⟨⟨T, hT.of_timeout (by simp)⟩, fun x hx => ?_, ?_⟩
  · rw [Timeinfo.updateTime_timeout] at hx ⊢
    rw [Timeinfo.updateTime_nextTicks]
    exact h.next_le x hx
  · rw [Timeinfo.updateTime_matchTicks, Timeinfo.updateTime_nextTicks, h.comparator]

theorem matchTicks_updateTimeout (h : ti.matchTicks = ti.nextTicks) (v : Ticks) :
    (ti.updateTimeout v).matchTicks = (ti.updateTimeout v).nextTicks := by
  rw [Timeinfo.updateTimeout]
  split
  · rw [Timeinfo.hwSetTimeout_matchTicks, Timeinfo.hwSetTimeout_nextTicks]
  · exact h

end

theorem setTimeoutTick (h : TimerInv c ti) (tick : Ticks) (me : ι) :
    ∃ c' ti', timerSetTimeoutTick tick me c ti = some (c', ti') ∧ TimerInv c' ti' := by
  obtain ⟨T, hT⟩ := h.armed
  obtain ⟨c', T', hset, hT', -⟩ := timerSetTimeoutTick_spec tick hT (List.not_mem_nil)
  set tick' := armedTick tick ti
  obtain ⟨hle, hle'⟩ := (ti.setTimeout me tick').updateTimeout_nextTicks tick'
  refine ⟨c', _, hset, ⟨⟨T', hT'.of_timeout (by simp)⟩, fun x hx => ?_, ?_⟩⟩
  · rw [Timeinfo.updateTimeout_timeout] at hx ⊢
    by_cases hxme : x = me
    · rw [hxme, Timeinfo.setTimeout_timeout_self]
      exact hle
    · rw [Timeinfo.setTimeout_timeout_of_ne hxme] at hx ⊢
      exact hle'.trans (h.next_le x hx)
  · refine matchTicks_updateTimeout ?_ tick'
    rw [Timeinfo.setTimeout_matchTicks, Timeinfo.setTimeout_nextTicks, h.comparator]

theorem stop (h : TimerInv c ti) (me : ι) :
    ∃ c' ti', timerStop me c ti = some (c', ti') ∧ TimerInv c' ti' := by
  obtain ⟨T, hT⟩ := h.armed
  obtain ⟨c', T', hstop, hT', -⟩ := timerStop_spec hT (List.not_mem_nil)
  refine ⟨c', _, hstop, ⟨⟨T', hT'⟩, fun x hx => ?_, h.comparator⟩⟩
  by_cases hxme : x = me
  · rw [hxme, Timeinfo.setTimeout_timeout_self] at hx
    exact absurd rfl hx
  · rw [Timeinfo.setTimeout_timeout_of_ne hxme] at hx ⊢
    exact h.next_le x hx

theorem interrupt (h : TimerInv c ti) (post : ι → σ → σ) (now : Ticks) (s : σ) :
    ∃ c' ti' s', timerInt post now c ti s = some (c', ti', s') ∧ TimerInv c' ti' := by
  obtain ⟨T, hT⟩ := h.armed
  obtain ⟨c', T', hint, hT', hinT'⟩ := timerInt_spec post now hT.toTreeAt s
  set ticks := now + tickGranularity
  have hmem : ∀ x, x ∈ inorder T' ↔ ti.timeout x ≠ timeBigbang ∧ x ∉ expired ti.timeout ticks T :=
    fun x => hinT' ▸ hT.mem_remaining ticks
  refine ⟨c', _, _, hint, ⟨⟨T', ⟨⟨hT'.points, hT'.search.congr fun x hx => ?_, hT'.nodup⟩,
    fun {x} => ?_⟩⟩, fun x hx => ?_,
    (ti.updateTime now).hwSetTimeout_matchTicks _⟩⟩
  · simp [((hmem x).mp hx).2]
  · rw [hmem]
    by_cases hx : x ∈ expired ti.timeout ticks T <;> simp [hx]
  · -- an armed thread is still in the tree, and the comparator is set for the first of them
    have hx' : x ∉ expired ti.timeout ticks T := fun he => hx (by simp [he])
    have hx'' : x ∈ inorder T' := (hmem x).mpr ⟨by simpa [hx'] using hx, hx'⟩
    have hle : nextTimeout ti.timeout (inorder T') ≤ ti.timeout x := by
      rcases nextTimeout_spec hT'.search.pairwise with ⟨hnil, -⟩ | ⟨m, -, hm, hle⟩
      · rw [hnil] at hx''
        exact absurd hx'' (by simp)
      · exact hm ▸ hle x hx''
    rw [hinT'] at hle
    simpa [afterVisits, hx'] using hle

theorem threadOp (h : TimerInv c ti) (op : ThreadOp ι) :
    ∃ c' ti', op.exec c ti = some (c', ti') ∧ TimerInv c' ti' := by
  cases op with
  | setTimeout me timeout => exact h.setTimeoutTick (setTimeoutTicks timeout) me
  | deltaTimeout me delta now =>
    exact (h.updateTime now).setTimeoutTick (deltaTimeoutTicks now delta) me
  | stop me => exact h.stop me

theorem exec {s : σ} (h : TimerInv c ti) (post : ι → σ → σ) (op : TimerOp ι) :
    ∃ c' ti' s', op.exec post (c, ti, s) = some (c', ti', s') ∧ TimerInv c' ti' := by
  cases op with
  | thread op =>
    obtain ⟨c', ti', hop, h'⟩ := h.threadOp op
    exact ⟨c', ti', s, by rw [TimerOp.exec, hop]; rfl, h'⟩
  | interrupt now => exact h.interrupt post now s

theorem run (post : ι → σ → σ) : ∀ (ops : List (TimerOp ι)) {c : TimerCells ι} {ti : Timeinfo ι}
    {s : σ}, TimerInv c ti →
    ∃ c' ti' s', timerRun post ops (c, ti, s) = some (c', ti', s') ∧ TimerInv c' ti'
  | [], c, ti, s, h => ⟨c, ti, s, rfl, h⟩
  | op :: ops, c, ti, s, h => by
      obtain ⟨c₁, ti₁, s₁, hexec, h₁⟩ := h.exec post op
      obtain ⟨c', ti', s', hrun, h'⟩ := run post ops h₁
      exact ⟨c', ti', s', by rw [timerRun, List.foldlM_cons, hexec]; exact hrun, h'⟩

omit dι fι in
theorem init (now : Ticks) : TimerInv (fun _ => none) (Timeinfo.init now : Timeinfo ι) := by
  refine TimerInv.updateTime ⟨⟨.nil, ⟨⟨?_, trivial, List.nodup_nil⟩, ?_⟩⟩, ?_, ?_⟩ now
  · exact (rfl : (none : Option ι) = none)
  · simp
  · simp
  · rw [Timeinfo.hwSetTimeout_matchTicks, Timeinfo.hwSetTimeout_nextTicks]

end TimerInv

/-- **The timer state invariant**: no operation of any run fails to return, and in the state after
it the tree is a search tree of exactly the threads with a timeout, each once, and the comparator
is programmed for no later than the earliest of them. -/
theorem timer_state_invariant (post : ι → σ → σ) (now : Ticks) (s : σ) (ops : List (TimerOp ι)) :
    ∃ c ti s', timerRun post ops (fun _ => none, Timeinfo.init now, s) = some (c, ti, s') ∧
      (∃ T, Points c (c (.root .timeouts)) T ∧ IsSearch ti.timeout T ∧ (inorder T).Nodup ∧
        ∀ x, x ∈ inorder T ↔ ti.timeout x ≠ timeBigbang) ∧
      ∀ x, ti.timeout x ≠ timeBigbang →
        ti.nextTicks ≤ ti.timeout x ∧ ti.matchTicks ≤ ti.timeout x := by
  obtain ⟨c, ti, s', hrun, hinv⟩ := TimerInv.run post ops (TimerInv.init now)
  obtain ⟨T, hT⟩ := hinv.armed
  refine ⟨c, ti, s', hrun, ⟨T, hT.points, hT.search, hT.nodup, fun x => ?_⟩, fun x hx => ?_⟩
  · simpa using hT.mem
  · have := hinv.next_le x hx
    exact ⟨this, hinv.comparator ▸ this⟩

end H2
