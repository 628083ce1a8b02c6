import Mathlib.Data.List.Nodup
import Mathlib.Order.Lattice

/-!
# Machinery/Stable — queues in order of a key

A queue is sorted by a key, best first; who joins goes behind those that are as good, so among
equals the order is that of joining.  `Inserts` is joining, and `Stable` is what joining, leaving
and re-filing keep: the queue stays sorted, members with equal keys that have not changed stay in
their order, and a newcomer is behind its equals.

That `x` is before `y` in `l` is written as `[x, y]` being a sublist of `l`.
-/

namespace H2

open List

variable {α κ : Type} [LinearOrder κ] {key key' key'' : α → κ} {l l' l'' : List α} {x y z : α}

section Order

/-- Of two members one is before the other. -/
theorem sublist_pair_or (hx : x ∈ l) (hy : y ∈ l) (hne : x ≠ y) :
    [x, y].Sublist l ∨ [y, x].Sublist l := by
  obtain ⟨A, B, rfl⟩ := append_of_mem hx
  rcases mem_append.mp hy with hA | hB
  · right
    exact (singleton_sublist.mpr hA).append (singleton_sublist.mpr mem_cons_self)
  · left
    have hyB : y ∈ B := (mem_cons.mp hB).resolve_left (Ne.symm hne)
    exact ((singleton_sublist.mpr hyB).cons_cons x).trans (sublist_append_right A _)

/-- Without repetitions, only one. -/
theorem not_sublist_swap (hnd : l.Nodup) (hxy : [x, y].Sublist l) : ¬[y, x].Sublist l := by
  induction l with
  | nil => simp at hxy
  | cons a l ih =>
    rw [nodup_cons] at hnd
    intro hyx
    rcases cons_sublist_cons'.mp hxy with h | ⟨rfl, hy⟩
    · rcases cons_sublist_cons'.mp hyx with h' | ⟨rfl, -⟩
      · exact ih hnd.2 h h'
      · exact hnd.1 (h.subset (by simp))
    · rcases cons_sublist_cons'.mp hyx with h' | ⟨rfl, -⟩
      · exact hnd.1 (h'.subset (by simp))
      · exact hnd.1 (singleton_sublist.mp hy)

theorem not_sublist_head (hnd : (y :: l).Nodup) : ¬[x, y].Sublist (y :: l) := by
  intro hxy
  rcases cons_sublist_cons'.mp hxy with h | ⟨-, h⟩
  all_goals exact (nodup_cons.mp hnd).1 (h.subset (by simp))

/-- Those that stay are in the order they were in. -/
theorem sublist_pair_of_sublist (hnd : l.Nodup) (hl : l'.Sublist l) (hxy : [x, y].Sublist l)
    (hx : x ∈ l') (hy : y ∈ l') : [x, y].Sublist l' := by
  have hne : x ≠ y := by
    rintro rfl
    exact not_sublist_swap hnd hxy hxy
  exact (sublist_pair_or hx hy hne).resolve_right fun hyx => not_sublist_swap hnd hxy (hyx.trans hl)

end Order

/-- `z` joins: behind those that are as good, before those that are worse. -/
def Inserts (key : α → κ) (z : α) (l l' : List α) : Prop :=
  ∃ A B, l = A ++ B ∧ l' = A ++ z :: B ∧ (∀ a ∈ A, key a ≤ key z) ∧ ∀ b ∈ B, key z < key b

/-- A queue in order becomes another. -/
structure Stable (key : α → κ) (l : List α) (key' : α → κ) (l' : List α) : Prop where
  sorted : l'.Pairwise (key' · ≤ key' ·)
  /-- Equals stay in order, … -/
  stays : ∀ {x y}, [x, y].Sublist l → x ∈ l' → y ∈ l' → key' x = key x → key' y = key y →
    key x = key y → [x, y].Sublist l'
  /-- … and who joins is behind them. -/
  joins : ∀ {x y}, x ∈ l → y ∉ l → x ∈ l' → y ∈ l' → key' x = key' y → [x, y].Sublist l'

/-- A queue stays sorted when the keys of its members stay. -/
theorem sorted_congr (hkey : ∀ a ∈ l, key' a = key a) (hl : l.Pairwise (key · ≤ key ·)) :
    l.Pairwise (key' · ≤ key' ·) :=
  hl.imp_of_mem fun ha hb hab => by rwa [hkey _ ha, hkey _ hb]

theorem Stable.of_sublist (hl : l.Pairwise (key · ≤ key ·)) (hnd : l.Nodup) (hsub : l'.Sublist l)
    (hkey : ∀ a ∈ l', key' a = key a) : Stable key l key' l' where
  sorted := sorted_congr hkey (hl.sublist hsub)
  stays hxy hx hy _ _ _ := sublist_pair_of_sublist hnd hsub hxy hx hy
  joins _ hy _ hy' _ := absurd (hsub.subset hy') hy

/-- In a sorted queue it is enough to compare with the neighbours. -/
theorem Inserts.of_between {A B : List α} (hl : (A ++ B).Pairwise (key · ≤ key ·))
    (hA : ∀ a ∈ A.getLast?, key a ≤ key z) (hB : ∀ b ∈ B.head?, key z < key b) :
    Inserts key z (A ++ B) (A ++ z :: B) := by
  rw [pairwise_append] at hl
  refine ⟨A, B, rfl, rfl, fun a ha => ?_, fun b hb => ?_⟩
  · obtain rfl | ⟨A, c, rfl⟩ := eq_nil_or_concat' A
    · simp at ha
    · have hc : key c ≤ key z := hA c (by simp)
      rcases mem_append.mp ha with ha | ha
      · exact ((pairwise_append.mp hl.1).2.2 a ha c (by simp)).trans hc
      · exact (mem_singleton.mp ha) ▸ hc
  · cases B with
    | nil => simp at hb
    | cons c B =>
      have hc : key z < key c := hB c (by simp)
      rcases mem_cons.mp hb with rfl | hb
      · exact hc
      · exact hc.trans_le ((pairwise_cons.mp hl.2.1).1 b hb)

theorem Inserts.mem_iff (h : Inserts key z l l') : x ∈ l' ↔ x = z ∨ x ∈ l := by
  obtain ⟨A, B, rfl, rfl, -⟩ := h
  simp only [mem_append, mem_cons]
  tauto

theorem Inserts.sorted (h : Inserts key z l l') (hl : l.Pairwise (key · ≤ key ·)) :
    l'.Pairwise (key · ≤ key ·) := by
  obtain ⟨A, B, rfl, rfl, hA, hB⟩ := h
  rw [pairwise_append] at hl ⊢
  refine ⟨hl.1, pairwise_cons.mpr ⟨fun b hb => (hB b hb).le, hl.2.1⟩, fun a ha b hb => ?_⟩
  rcases mem_cons.mp hb with rfl | hb
  · exact hA a ha
  · exact hl.2.2 a ha b hb

theorem Inserts.filter_of_pos (h : Inserts key z l l') {p : α → Bool} (hz : p z = true) :
    Inserts key z (l.filter p) (l'.filter p) := by
  obtain ⟨A, B, rfl, rfl, hA, hB⟩ := h
  refine ⟨A.filter p, B.filter p, filter_append .., ?_,
    fun x hx => hA x (mem_of_mem_filter hx), fun x hx => hB x (mem_of_mem_filter hx)⟩
  rw [filter_append, filter_cons_of_pos hz]

theorem Inserts.sublist (h : Inserts key z l l') : l.Sublist l' := by
  obtain ⟨A, B, rfl, rfl, -⟩ := h
  exact (sublist_cons_self z B).append_left A

/-- Those that are as good are before. -/
theorem Inserts.before (h : Inserts key z l l') (hx : x ∈ l) (hle : key x ≤ key z) :
    [x, z].Sublist l' := by
  obtain ⟨A, B, rfl, rfl, -, hB⟩ := h
  have hxA : x ∈ A := (mem_append.mp hx).resolve_right fun hxB => not_lt.mpr hle (hB x hxB)
  exact (singleton_sublist.mpr hxA).append (singleton_sublist.mpr mem_cons_self)

theorem Inserts.stable (h : Inserts key z l l') (hl : l.Pairwise (key · ≤ key ·)) :
    Stable key l key l' where
  sorted := h.sorted hl
  stays hxy _ _ _ _ _ := hxy.trans h.sublist
  joins {x y} hx hy _ hy' heq := by
    obtain rfl : y = z := (h.mem_iff.mp hy').resolve_right hy
    exact h.before hx heq.le

/-- **Re-filing** a member whose key has changed, and no other. -/
theorem Inserts.stable_erase [DecidableEq α] (h : Inserts key' z (l.erase z) l') (hz : z ∈ l)
    (hnd : l.Nodup) (hl : l.Pairwise (key · ≤ key ·)) (hkey : ∀ a, a ≠ z → key' a = key a)
    (hne : key' z ≠ key z) : Stable key l key' l' where
  sorted := by
    refine h.sorted (sorted_congr (fun a ha => hkey a ?_) (hl.sublist erase_sublist))
    exact (hnd.mem_erase_iff.mp ha).1
  stays {x y} hxy hx hy hkx hky _ := by
    have hxz : x ≠ z := fun e => hne (e ▸ hkx)
    have hyz : y ≠ z := fun e => hne (e ▸ hky)
    have hmem {a : α} (ha : a ∈ l) (haz : a ≠ z) : a ∈ l.erase z := hnd.mem_erase_iff.mpr ⟨haz, ha⟩
    exact (sublist_pair_of_sublist hnd erase_sublist hxy
      (hmem (hxy.subset (by simp)) hxz) (hmem (hxy.subset (by simp)) hyz)).trans h.sublist
  joins {x y} _ hy _ hy' _ := by
    rcases h.mem_iff.mp hy' with rfl | hy'
    · exact absurd hz hy
    · exact absurd (mem_of_mem_erase hy') hy

/-- One after the other: those that the first took out do not come back, and the second changes no
keys. -/
theorem Stable.trans (h : Stable key l key' l') (h' : Stable key' l' key'' l'')
    (hkey : ∀ a ∈ l'', key'' a = key' a) (hback : ∀ a ∈ l'', a ∈ l → a ∈ l') :
    Stable key l key'' l'' where
  sorted := h'.sorted
  stays {x y} hxy hx hy hkx hky heq := by
    have hx' := hback x hx (hxy.subset (by simp))
    have hy' := hback y hy (hxy.subset (by simp))
    have hkx' : key' x = key x := (hkey x hx).symm.trans hkx
    have hky' : key' y = key y := (hkey y hy).symm.trans hky
    exact h'.stays (h.stays hxy hx' hy' hkx' hky' heq) hx hy (hkey x hx) (hkey y hy)
      (by rw [hkx', hky', heq])
  joins {x y} hx hy hx'' hy'' heq := by
    have hx' := hback x hx'' hx
    have heq' : key' x = key' y := by rw [← hkey x hx'', ← hkey y hy'', heq]
    by_cases hy' : y ∈ l'
    · exact h'.stays (h.joins hx hy hx' hy' heq') hx'' hy'' (hkey x hx'') (hkey y hy'') heq'
    · exact h'.joins hx' hy' hx'' hy'' heq

end H2
