import H2.Time.Timer
import Mathlib.Algebra.GroupWithZero.Nat

/-!
# Time/TimerHandover — the timer interrupt when its callback lets go of the lock

In the v68 and v81 builds `H2K_check_sanity` unlocks and locks again, so posting the timer
interrupt to one thread lets other hardware threads in while the walk over the expired timers is
under way.  What they do to their own timers is harmless — unless the timer is one that the walk
still has to visit: setting it clears the node's links, which are the walk's.
-/

namespace H2

variable {ι : Type} [dι : DecidableEq ι] [fι : Fintype ι]

/-- What is recorded of the walk: the threads posted to, and whether an operation failed to
return. -/
structure Handover (ι : Type) where
  posts : List ι
  stuck : Bool

/-- Operations of other hardware threads, each complete. -/
def release : List (ThreadOp ι) → TimerState ι (Handover ι) → TimerState ι (Handover ι)
  | [], st => st
  | op :: ops, (c, ti, log) =>
    match op.exec c ti with
    | some (c, ti) => release ops (c, ti, log)
    | none => (c, ti, { log with stuck := true })

/-- `H2K_timer_dotimeout`, where the post releases the lock: the operations `env n` come in at the
release number `n`. -/
def timerDotimeoutHandover (env : ℕ → List (ThreadOp ι)) (dest : ι)
    (st : TimerState ι (Handover ι)) : TimerState ι (Handover ι) :=
  release (env st.2.2.posts.length)
    (timerDotimeout (fun t log => { log with posts := log.posts ++ [t] }) dest st)

/-- `H2K_timer_int` with such a callback. -/
def timerIntHandover (env : ℕ → List (ThreadOp ι)) (now : Ticks) (c : TimerCells ι)
    (ti : Timeinfo ι) : Option (TimerState ι (Handover ι)) :=
  timerIntWith (timerDotimeoutHandover env) now c ti ⟨[], false⟩

/-- The walk after `n` rounds: its cursor and the state. -/
def handoverWalk (env : ℕ → List (ThreadOp ι)) (now : Ticks) (c : TimerCells ι) (ti : Timeinfo ι)
    (n : ℕ) : Option (Option ι × TimerState ι (Handover ι)) :=
  (timerSplit now c ti).map fun (c, ti) =>
    (Tree.walkStep (timerDotimeoutHandover env))^[n] (c (.root .timedout), c, ti, ⟨[], false⟩)

/-! ## What a release keeps -/

/-- During the walk, with `xs` to come: those and the tree's nodes are the armed threads. -/
structure Midway (all xs : List ι) (st : TimerState ι (Handover ι)) : Prop where
  tree : ∃ T, Armed st.1 st.2.1 xs T
  armed : ∀ x ∈ xs, st.2.1.timeout x ≠ timeBigbang
  posts : st.2.2.posts ++ xs = all
  returned : st.2.2.stuck = false

section Release

variable {all xs : List ι} {c : TimerCells ι} {ti : Timeinfo ι} {log : Handover ι}

omit fι in
/-- Setting the timeout of a thread not to come leaves those that are armed. -/
theorem armed_setTimeout (harmed : ∀ x ∈ xs, ti.timeout x ≠ timeBigbang) {me : ι} (hme : me ∉ xs)
    (v : Ticks) : ∀ x ∈ xs, (ti.setTimeout me v).timeout x ≠ timeBigbang := fun x hx => by
  have hne : x ≠ me := fun e => hme (e ▸ hx)
  rw [Timeinfo.setTimeout_timeout_of_ne hne]
  exact harmed x hx

theorem Midway.setTimeoutTick (h : Midway all xs (c, ti, log)) {me : ι} (hme : me ∉ xs)
    (tick : Ticks) : ∃ c' ti', timerSetTimeoutTick tick me c ti = some (c', ti') ∧
      Midway all xs (c', ti', log) ∧ SameLinks c c' xs := by
  obtain ⟨T, hT⟩ := h.tree
  obtain ⟨c', T', hset, hT', hsame⟩ := timerSetTimeoutTick_spec tick hT hme
  refine ⟨c', _, hset, ⟨⟨T', hT'.of_timeout (by simp)⟩, ?_, h.posts, h.returned⟩, hsame⟩
  simpa using armed_setTimeout h.armed hme (armedTick tick ti)

omit dι fι in
theorem Midway.updateTime (h : Midway all xs (c, ti, log)) (now : Ticks) :
    Midway all xs (c, ti.updateTime now, log) := by
  obtain ⟨T, hT⟩ := h.tree
  exact ⟨⟨T, hT.of_timeout (by simp)⟩, by simpa using h.armed, h.posts, h.returned⟩

theorem Midway.exec (h : Midway all xs (c, ti, log)) {op : ThreadOp ι} (hme : op.me ∉ xs) :
    ∃ c' ti', op.exec c ti = some (c', ti') ∧ Midway all xs (c', ti', log) ∧ SameLinks c c' xs := by
  cases op with
  | setTimeout me timeout => exact h.setTimeoutTick hme _
  | deltaTimeout me delta now => exact (h.updateTime now).setTimeoutTick hme _
  | stop me =>
    obtain ⟨T, hT⟩ := h.tree
    obtain ⟨c', T', hstop, hT', hsame⟩ := timerStop_spec hT hme
    exact ⟨c', _, hstop, ⟨⟨T', hT'⟩, armed_setTimeout h.armed hme _, h.posts, h.returned⟩, hsame⟩

theorem Midway.release : ∀ {ops : List (ThreadOp ι)} {c : TimerCells ι} {ti : Timeinfo ι},
    Midway all xs (c, ti, log) → (∀ op ∈ ops, op.me ∉ xs) →
    Midway all xs (release ops (c, ti, log)) ∧ SameLinks c (release ops (c, ti, log)).1 xs ∧
      (H2.release ops (c, ti, log)).2.2 = log
  | [], c, ti, h, _ => ⟨h, fun _ _ => ⟨rfl, rfl⟩, rfl⟩
  | op :: ops, c, ti, h, hops => by
      obtain ⟨c₁, ti₁, hexec, h₁, hsame₁⟩ := h.exec (hops op List.mem_cons_self)
      obtain ⟨h', hsame', hlog⟩ := h₁.release fun op' hop' => hops op' (List.mem_cons_of_mem _ hop')
      have hrel : H2.release (op :: ops) (c, ti, log) = H2.release ops (c₁, ti₁, log) := by
        rw [H2.release, hexec]
      rw [hrel]
      refine ⟨h', fun y hy => ?_, hlog⟩
      exact ⟨(hsame' y hy).1.trans (hsame₁ y hy).1, (hsame' y hy).2.trans (hsame₁ y hy).2⟩

omit fι in
/-- The visit itself: its thread's timer is no longer armed, and it has been posted to. -/
theorem Midway.visit {x : ι} (hnd : (x :: xs).Nodup) (h : Midway all (x :: xs) (c, ti, log)) :
    Midway all xs (timerDotimeout (fun t log => { log with posts := log.posts ++ [t] }) x
      (c, ti, log)) := by
  obtain ⟨T, hT⟩ := h.tree
  obtain ⟨hx, -⟩ := List.nodup_cons.mp hnd
  have hxT : x ∉ inorder T := fun hmem => (hT.mem.mp hmem).2 List.mem_cons_self
  refine ⟨⟨T, ⟨⟨hT.points, hT.search.congr fun y hy => ?_, hT.nodup⟩, fun {y} => ?_⟩⟩, ?_, ?_,
    h.returned⟩
  · exact Timeinfo.setTimeout_timeout_of_ne fun e => hxT (by rwa [e] at hy)
  · rw [hT.mem]
    by_cases hy : y = x
    · simp [timerDotimeout, hy, Timeinfo.setTimeout_timeout_self]
    · simp [timerDotimeout, hy, Timeinfo.setTimeout_timeout_of_ne hy]
  · exact armed_setTimeout (fun y hy => h.armed y (List.mem_cons_of_mem _ hy)) hx _
  · simpa [timerDotimeout] using h.posts

end Release

/-- No thread whose timer is still to be visited touches it while the lock is released. -/
def Undisturbed (env : ℕ → List (ThreadOp ι)) (all : List ι) : Prop :=
  ∀ n, ∀ op ∈ env n, op.me ∉ all.drop (n + 1)

theorem keeps_midway {env : ℕ → List (ThreadOp ι)} {all : List ι} (henv : Undisturbed env all) :
    Tree.Keeps (timerDotimeoutHandover env) (Midway all) where
  rotate {xs f f' s} h hf := by
    obtain ⟨T, hT⟩ := h.tree
    have hroot : f' (.root .timeouts) = f (.root .timeouts) := hf _ (Slot.outside_root _)
    refine ⟨⟨T, ⟨⟨?_, hT.search, hT.nodup⟩, hT.mem⟩⟩, h.armed, h.posts, h.returned⟩
    show Points f' (f' (.root .timeouts)) T
    rw [hroot]
    refine hT.points.congr fun x hx => ?_
    have hx' : x ∉ xs := (hT.mem.mp hx).2
    exact ⟨hf _ (Slot.outside_left.mpr hx'), hf _ (Slot.outside_right.mpr hx')⟩
  visit {x xs st} hnd h := by
    obtain ⟨c, ti, log⟩ := st
    have hdrop : xs = all.drop (log.posts.length + 1) := by
      have hposts : log.posts ++ x :: xs = all := h.posts
      rw [← hposts]
      simp
    obtain ⟨h', hsame, -⟩ := (h.visit hnd).release
      fun op hop => hdrop ▸ henv log.posts.length op hop
    exact ⟨h', hsame⟩

/-! ## The whole interrupt -/

section Interrupt

variable {env : ℕ → List (ThreadOp ι)} {now : Ticks} {c : TimerCells ι} {ti : Timeinfo ι}
  {T : BinaryTree ι}

/-- The walk starts with all expired threads to come. -/
theorem handoverWalk_spec (h : Armed c ti [] T)
    (henv : Undisturbed env (expired ti.timeout (now + tickGranularity) T)) :
    ∃ c₁ ti₁, timerSplit now c ti = some (c₁, ti₁) ∧
      ∃ w ≤ 2 * treeFuel ι, ∀ n,
        Tree.Walking (Midway (expired ti.timeout (now + tickGranularity) T)) (w - n)
          ((Tree.walkStep (timerDotimeoutHandover env))^[n]
            (c₁ (.root .timedout), c₁, ti₁, ⟨[], false⟩)) := by
  obtain ⟨c₁, D, T', hsplit, hD, hinD, hT', hinT'⟩ := timerSplit_spec now h.toTreeAt
  have hndD : (inorder D).Nodup := hinD ▸ h.nodup.filter _
  have hw : Tree.weight D ≤ 2 * treeFuel ι := by
    have h₁ := Tree.weight_le D
    have h₂ := numNodes_le_card hndD
    rw [treeFuel]
    omega
  refine ⟨c₁, _, hsplit, _, hw, fun n => Tree.Walking.iterate (keeps_midway henv) n ?_⟩
  refine ⟨D, hD, hndD, rfl, ⟨T', ⟨⟨hT'.points, ?_, hT'.nodup⟩, fun {x} => ?_⟩⟩,
    fun x hx => ?_, hinD, rfl⟩
  · simpa using hT'.search
  · rw [hinT', hinD]
    simpa using h.mem_remaining (now + tickGranularity)
  · rw [hinD] at hx
    simpa using (h.mem.mp (List.mem_filter.mp hx).1).1

/-- **The timer interrupt under lock hand-over**: if no thread whose timer is still to be visited
touches it during a release, then after every round of the walk the armed threads are those of the
two trees, which have no node in common, and the walk ends, having posted to each expired thread
exactly once. -/
theorem timer_handover_safe (env : ℕ → List (ThreadOp ι)) (now : Ticks) (c : TimerCells ι)
    (ti : Timeinfo ι) (T : BinaryTree ι) (h : Armed c ti [] T)
    (henv : Undisturbed env (expired ti.timeout (now + tickGranularity) T)) :
    (∀ n, ∃ cursor st T' D, handoverWalk env now c ti n = some (cursor, st) ∧
      Points st.1 (st.1 (.root .timeouts)) T' ∧ Points st.1 cursor D ∧
      (inorder T' ++ inorder D).Nodup ∧
      (∀ x, st.2.1.timeout x ≠ timeBigbang ↔ x ∈ inorder T' ++ inorder D) ∧
      st.2.2.posts ++ inorder D = expired ti.timeout (now + tickGranularity) T) ∧
    (∃ c' ti', timerIntHandover env now c ti =
      some (c', ti', ⟨expired ti.timeout (now + tickGranularity) T, false⟩)) ∧
    (expired ti.timeout (now + tickGranularity) T).Nodup := by
  obtain ⟨c₁, ti₁, hsplit, w, hw, hwalk⟩ := handoverWalk_spec h henv
  refine ⟨fun n => ?_, ?_, h.nodup.filter _⟩
  · obtain ⟨D, hD, hnd, -, ⟨T', hT'⟩, harmed, hposts, -⟩ := hwalk n
    refine ⟨_, _, T', D, by rw [handoverWalk, hsplit]; rfl, hT'.points, hD, ?_, fun x => ?_, hposts⟩
    · exact List.nodup_append'.mpr ⟨hT'.nodup, hnd, fun x hx hxD => (hT'.mem.mp hx).2 hxD⟩
    · rw [List.mem_append, hT'.mem]
      by_cases hx : x ∈ inorder D
      · simpa [hx] using harmed x hx
      · simp [hx]
  · have hend := hwalk (2 * treeFuel ι)
    rw [Nat.sub_eq_zero_of_le hw] at hend
    obtain ⟨hnone, hmid⟩ := hend.finished
    set r := (Tree.walkStep (timerDotimeoutHandover env))^[2 * treeFuel ι]
      (c₁ (.root .timedout), c₁, ti₁, ⟨[], false⟩)
    have hlog : r.2.2.2 = ⟨expired ti.timeout (now + tickGranularity) T, false⟩ := by
      have hposts := hmid.posts
      have hret := hmid.returned
      cases hr : r.2.2.2
      simp_all
    refine ⟨r.2.1, r.2.2.1, ?_⟩
    rw [timerIntHandover, timerIntWith, hsplit]
    exact Tree.destructiveIterate_eq_some _ (Prod.ext hnone (Prod.ext rfl (Prod.ext rfl hlog)))

local instance rearmedThread : NeZero 3 := ⟨by decide⟩

/-- Three timers at ticks 10, 5 and 20, set at counter 0, have expired by counter 100.  While thread
1 is posted to, thread 0 sets its timer again. -/
def rearmed : Option (TimerState (Fin 3) (Handover (Fin 3))) := do
  let (c, ti, _) ← timerRun (fun _ u => u)
    [.thread (.setTimeout 0 520), .thread (.setTimeout 1 260), .thread (.setTimeout 2 1040)]
    (fun _ => none, Timeinfo.init 0, ())
  timerIntHandover (fun n => if n = 0 then [.setTimeout 0 52000] else []) 100 c ti

/-- The walk goes on at thread 0, whose links are gone: thread 2 is not posted to, although its
timer is armed, and it is in no tree any more; and thread 0 is posted to, its new timeout cleared,
while it stays in the `timeouts` tree. -/
theorem handover_loses_timer :
    rearmed.map (fun st => (st.2.2.posts, st.2.1.timeout 2, st.2.1.timeout 0)) =
        some ([1, 0], 20, 0) ∧
      rearmed.map (fun st => (st.1 (.root .timeouts), st.1 (.left 0), st.1 (.right 0))) =
        some (some 0, none, none) := by
  decide +kernel

/-- A thread that has been posted to may set its timer again. -/
theorem timer_handover_safe_rearm :
    ∃ c' ti', timerIntHandover (fun n => if n = 0 then [.setTimeout false 5200] else []) 10
      twoTimers ⟨fun t => if t then 9 else 5, 0, 5, 0, 5⟩ =
        some (c', ti', ⟨[false, true], false⟩) := by
  have h : Armed twoTimers ⟨fun t => if t then 9 else 5, 0, 5, 0, 5⟩ []
      (.node true (.node false .nil .nil) .nil) := by
    refine ⟨⟨⟨rfl, ⟨rfl, rfl, rfl⟩, rfl⟩, by simp [IsSearch], by decide⟩, fun {x} => ?_⟩
    cases x <;> simp [timeBigbang]
  refine (timer_handover_safe (fun n => if n = 0 then [.setTimeout false 5200] else []) 10 twoTimers
    _ _ h ?_).2.1
  intro n op hop
  have hexp : expired (fun t : Bool => if t then (9 : Ticks) else 5) (10 + tickGranularity)
      (.node true (.node false .nil .nil) .nil) = [false, true] := by decide
  simp only at hop
  split at hop
  · next hn =>
    subst hn
    obtain rfl := List.mem_singleton.mp hop
    decide
  · exact absurd hop (by simp)

end Interrupt

end H2
