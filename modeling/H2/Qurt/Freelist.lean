import Mathlib.Data.List.Basic

/-!
# Qurt/Freelist — free pages, as ranges

A list of ranges keeps a set of free pages.  It is *canonical* if its ranges are not empty and stand
in order with pages between them that are not free: then there is one list for every set, and a run
of free pages is never spread over two ranges.

Taking pages out of a range leaves what is on either side (`Allocates`); giving pages back extends
the range that ends where they begin, or the one that begins where they end, or both, which then
become one, or makes a range of its own (`Frees`).  Both keep the list canonical, and change the set
by exactly the pages concerned.
-/

namespace H2.Qurt

open List

/-- A range of pages. -/
structure Node where
  base : ℕ
  size : ℕ
  deriving DecidableEq

namespace Node

/-- The first page behind the range. -/
def limit (n : Node) : ℕ := n.base + n.size

/-- Page `p` is in the range. -/
def Has (n : Node) (p : ℕ) : Prop := n.base ≤ p ∧ p < n.limit

/-- The range can hold a request for so many pages, at an address if one is given. -/
def Holds (n : Node) (addr size : ℕ) : Prop :=
  size ≤ n.size ∧ (addr ≠ 0 → n.base ≤ addr ∧ addr + size ≤ n.limit)

/-- What is left of the range when pages are taken out. -/
def carve (n : Node) (start size : ℕ) : List Node :=
  (if start = n.base then [] else [⟨n.base, start - n.base⟩]) ++
    if start + size < n.limit then [⟨start + size, n.limit - (start + size)⟩] else []

theorem carve_add (n : Node) (offset size : ℕ) : n.carve (n.base + offset) size =
    (if offset = 0 then [] else [⟨n.base, offset⟩]) ++
      if offset + size < n.size then [⟨n.base + offset + size, n.size - (offset + size)⟩]
      else [] := by
  have hleft : n.base + offset = n.base ↔ offset = 0 := by omega
  have hright : n.base + offset + size < n.limit ↔ offset + size < n.size := by
    unfold limit
    omega
  have hrest : n.limit - (n.base + offset + size) = n.size - (offset + size) := by
    unfold limit
    omega
  simp only [carve, hleft, hright, hrest, Nat.add_sub_cancel_left]

end Node

/-- Page `p` is free. -/
def Free (l : List Node) (p : ℕ) : Prop := ∃ n ∈ l, n.Has p

/-- **The list is canonical.** -/
structure Canonical (l : List Node) : Prop where
  nonempty : ∀ n ∈ l, 0 < n.size
  apart : l.Pairwise fun m n => m.limit < n.base

/-- **An allocation**: the pages are taken out of a range that has them, at the address that is
asked for if one is; or there is no range that could hold them. -/
inductive Allocates (addr size : ℕ) : List Node → ℕ → List Node → Prop
  | fails {l : List Node} (hnone : ∀ n ∈ l, ¬n.Holds addr size) : Allocates addr size l 0 l
  | takes {A B : List Node} {n : Node} {ret : ℕ} (hbase : n.base ≤ ret)
      (hlimit : ret + size ≤ n.limit) (haddr : addr ≠ 0 → ret = addr) :
      Allocates addr size (A ++ n :: B) ret (A ++ n.carve ret size ++ B)

/-- **A release** of pages that are not free, behind ranges `A` that end before them. -/
inductive Frees (addr size : ℕ) : List Node → List Node → Prop
  | joins {A B : List Node} {m n : Node} (hm : m.limit = addr) (hn : addr + size = n.base) :
      Frees addr size (A ++ m :: n :: B) (A ++ ⟨m.base, m.size + size + n.size⟩ :: B)
  | follows {A B : List Node} {m : Node} (hm : m.limit = addr)
      (hB : ∀ n ∈ B.head?, m.limit + size ≠ n.base) :
      Frees addr size (A ++ m :: B) (A ++ ⟨m.base, m.size + size⟩ :: B)
  | precedes {A B : List Node} {n : Node} (hA : ∀ m ∈ A, m.limit < addr)
      (hn : addr + size = n.base) :
      Frees addr size (A ++ n :: B) (A ++ ⟨addr, n.size + size⟩ :: B)
  | fresh {A B : List Node} (hA : ∀ m ∈ A, m.limit < addr)
      (hB : ∀ n ∈ B.head?, addr < n.limit ∧ addr + size ≠ n.base) :
      Frees addr size (A ++ B) (A ++ ⟨addr, size⟩ :: B)

/-! ## What is free -/

section Lists

variable {A B l : List Node} {n : Node} {p start size : ℕ}

@[simp] theorem free_nil : ¬Free [] p := by simp [Free]

@[simp] theorem free_cons : Free (n :: l) p ↔ n.Has p ∨ Free l p := by simp [Free]

@[simp] theorem free_append : Free (A ++ B) p ↔ Free A p ∨ Free B p := by
  simp [Free, or_and_right, exists_or]

theorem canonical_nil : Canonical [] := ⟨by simp, .nil⟩

theorem canonical_append : Canonical (A ++ B) ↔
    Canonical A ∧ Canonical B ∧ ∀ m ∈ A, ∀ n ∈ B, m.limit < n.base := by
  constructor
  · rintro ⟨hne, hap⟩
    obtain ⟨hA, hB, hAB⟩ := pairwise_append.mp hap
    exact ⟨⟨fun n hn => hne n (mem_append_left _ hn), hA⟩,
      ⟨fun n hn => hne n (mem_append_right _ hn), hB⟩, hAB⟩
  · rintro ⟨hA, hB, hAB⟩
    refine ⟨fun n hn => ?_, pairwise_append.mpr ⟨hA.apart, hB.apart, hAB⟩⟩
    exact (mem_append.mp hn).elim (hA.nonempty n) (hB.nonempty n)

theorem canonical_cons : Canonical (n :: B) ↔
    0 < n.size ∧ Canonical B ∧ ∀ m ∈ B, n.limit < m.base := by
  constructor
  · rintro ⟨hne, hap⟩
    obtain ⟨hn, hB⟩ := pairwise_cons.mp hap
    exact ⟨hne n (mem_cons_self ..), ⟨fun m hm => hne m (mem_cons_of_mem _ hm), hB⟩, hn⟩
  · rintro ⟨hn, hB, hnB⟩
    refine ⟨fun m hm => ?_, pairwise_cons.mpr ⟨hnB, hB.apart⟩⟩
    rcases mem_cons.mp hm with rfl | hm
    · exact hn
    · exact hB.nonempty m hm

theorem canonical_middle : Canonical (A ++ n :: B) ↔ 0 < n.size ∧ Canonical A ∧ Canonical B ∧
    (∀ m ∈ A, m.limit < n.base) ∧ ∀ m ∈ B, n.limit < m.base := by
  rw [canonical_append, canonical_cons]
  constructor
  · rintro ⟨hA, ⟨hn, hB, hnB⟩, hAn⟩
    exact ⟨hn, hA, hB, fun m hm => hAn m hm n (mem_cons_self ..), hnB⟩
  · rintro ⟨hn, hA, hB, hAn, hnB⟩
    refine ⟨hA, ⟨hn, hB, hnB⟩, fun a ha b hb => ?_⟩
    have hlt := hAn a ha
    rcases mem_cons.mp hb with rfl | hb
    · exact hlt
    · have := hnB b hb
      unfold Node.limit at *
      omega

/-- The ranges behind one in a canonical list are beyond it. -/
theorem Canonical.lt_of_head (hl : Canonical l) {q : ℕ} (hhead : ∀ n ∈ l.head?, q < n.base) :
    ∀ n ∈ l, q < n.base := by
  cases l with
  | nil => simp
  | cons m B =>
    obtain ⟨-, -, hB⟩ := canonical_cons.mp hl
    have hm : q < m.base := hhead m rfl
    intro n hn
    rcases mem_cons.mp hn with rfl | hn
    · exact hm
    · have := hB n hn
      unfold Node.limit at this
      omega

/-! ## Allocation -/

/-- What is left of a range is in it, apart, and all but what is taken. -/
theorem mem_carve {m : Node} (hm : m ∈ n.carve start size) (hbase : n.base ≤ start)
    (hlimit : start + size ≤ n.limit) : n.base ≤ m.base ∧ m.limit ≤ n.limit ∧ 0 < m.size := by
  unfold Node.carve at hm
  unfold Node.limit at *
  rcases mem_append.mp hm with hm | hm
  · split at hm
    · cases hm
    · obtain rfl := mem_singleton.mp hm
      simp only
      omega
  · split at hm
    · obtain rfl := mem_singleton.mp hm
      simp only
      omega
    · cases hm

theorem canonical_carve (hbase : n.base ≤ start) (hlimit : start + size ≤ n.limit)
    (hsize : 0 < size) : Canonical (n.carve start size) := by
  refine ⟨fun m hm => (mem_carve hm hbase hlimit).2.2, ?_⟩
  unfold Node.carve
  split <;> split <;> simp [Node.limit]
  omega

theorem free_carve (hbase : n.base ≤ start) (hlimit : start + size ≤ n.limit) :
    Free (n.carve start size) p ↔ n.Has p ∧ ¬(start ≤ p ∧ p < start + size) := by
  unfold Node.carve Node.Has Node.limit at *
  split <;> split <;> simp [Node.Has, Node.limit] <;> omega

variable {addr ret : ℕ} {l' : List Node}

/-- **Allocation keeps the list canonical**, … -/
theorem Allocates.canonical (h : Allocates addr size l ret l') (hl : Canonical l)
    (hsize : 0 < size) : Canonical l' := by
  cases h with
  | fails => exact hl
  | @takes A B n ret hbase hlimit _ =>
    obtain ⟨-, hA, hB, hAn, hn⟩ := canonical_middle.mp hl
    refine canonical_append.mpr ⟨canonical_append.mpr ⟨hA, canonical_carve hbase hlimit hsize,
      fun a ha m hm => ?_⟩, hB, fun a ha b hb => ?_⟩
    · have := hAn a ha
      have := mem_carve hm hbase hlimit
      omega
    · have := hn b hb
      rcases mem_append.mp ha with ha | ha
      · have := hAn a ha
        omega
      · have := mem_carve ha hbase hlimit
        omega

/-- … what it returns was free, … -/
theorem Allocates.taken (h : Allocates addr size l ret l') (hret : ret ≠ 0) (hp : ret ≤ p)
    (hp' : p < ret + size) : Free l p := by
  cases h with
  | fails => exact absurd rfl hret
  | @takes A B n ret hbase hlimit _ =>
    have hhas : n.Has p := ⟨Nat.le_trans hbase hp, Nat.lt_of_lt_of_le hp' hlimit⟩
    simp [hhas]

/-- … at the address asked for, … -/
theorem Allocates.at_addr (h : Allocates addr size l ret l') (hret : ret ≠ 0) (haddr : addr ≠ 0) :
    ret = addr := by
  cases h with
  | fails => exact absurd rfl hret
  | takes _ _ hat => exact hat haddr

/-- (It is not page zero, which is never free.) -/
theorem Node.ne_zero_of_not_free (hzero : ¬Free (A ++ n :: B) 0) (hbase : n.base ≤ ret)
    (hlimit : ret + size ≤ n.limit) (hsize : 0 < size) : ret ≠ 0 := by
  rintro rfl
  have hhas : n.Has 0 := ⟨hbase, by omega⟩
  exact hzero (by simp [hhas])

/-- … or nothing could be returned, … -/
theorem Allocates.not_holds (h : Allocates addr size l ret l') (hzero : ¬Free l 0)
    (hsize : 0 < size) (hret : ret = 0) : ∀ n ∈ l, ¬n.Holds addr size := by
  cases h with
  | fails hnone => exact hnone
  | takes hbase hlimit _ => exact absurd hret (Node.ne_zero_of_not_free hzero hbase hlimit hsize)

/-- … and exactly that is not free any more. -/
theorem Allocates.free_iff (h : Allocates addr size l ret l') (hl : Canonical l) (hzero : ¬Free l 0)
    (hsize : 0 < size) : Free l' p ↔ Free l p ∧ (ret ≠ 0 → ¬(ret ≤ p ∧ p < ret + size)) := by
  cases h with
  | fails => simp
  | @takes A B n ret hbase hlimit _ =>
    obtain ⟨-, -, -, hAn, hn⟩ := canonical_middle.mp hl
    have hret := Node.ne_zero_of_not_free hzero hbase hlimit hsize
    -- the other ranges have none of the pages
    have hA : Free A p → ¬(ret ≤ p ∧ p < ret + size) := by
      rintro ⟨a, ha, -, hpa⟩
      have := hAn a ha
      omega
    have hB : Free B p → ¬(ret ≤ p ∧ p < ret + size) := by
      rintro ⟨b, hb, hpb, -⟩
      have := hn b hb
      omega
    simp only [free_append, free_cons, free_carve hbase hlimit]
    constructor
    · rintro ((h | ⟨h, hout⟩) | h)
      · exact ⟨.inl h, fun _ => hA h⟩
      · exact ⟨.inr (.inl h), fun _ => hout⟩
      · exact ⟨.inr (.inr h), fun _ => hB h⟩
    · rintro ⟨h | h | h, hout⟩
      · exact .inl (.inl h)
      · exact .inl (.inr ⟨h, hout hret⟩)
      · exact .inr h

/-! ## Release -/

theorem Canonical.base_ge (hl : Canonical l) (hout : ∀ p, addr ≤ p → p < addr + size → ¬Free l p)
    (hsize : 0 < size) (hn : n ∈ l) (hlimit : addr < n.limit) : addr + size ≤ n.base := by
  by_contra hlt
  have hpos := hl.nonempty n hn
  have hhas : n.Has (max addr n.base) := by
    unfold Node.Has Node.limit at *
    omega
  exact hout (max addr n.base) (Nat.le_max_left ..) (by omega) ⟨n, hn, hhas⟩

/-- **A release keeps the list canonical**, … -/
theorem Frees.canonical (h : Frees addr size l l') (hl : Canonical l)
    (hout : ∀ p, addr ≤ p → p < addr + size → ¬Free l p) (hsize : 0 < size) : Canonical l' := by
  cases h with
  | @joins A B m n hm hn =>
    obtain ⟨hpos, hA, hnB, hAm, -⟩ := canonical_middle.mp hl
    obtain ⟨-, hB, hnB⟩ := canonical_cons.mp hnB
    refine canonical_middle.mpr ⟨by simp; omega, hA, hB, hAm, fun b hb => ?_⟩
    have := hnB b hb
    unfold Node.limit at *
    simp only
    omega
  | @follows A B m hm hB' =>
    obtain ⟨hpos, hA, hB, hAm, hmB⟩ := canonical_middle.mp hl
    have hbeyond : ∀ b ∈ B, addr + size < b.base := hB.lt_of_head fun b hb => by
      have hmem := mem_of_mem_head? hb
      have hlt := hmB b hmem
      have hge := hl.base_ge hout hsize (n := b) (by simp [hmem]) (by unfold Node.limit at *; omega)
      have := hB' b hb
      omega
    refine canonical_middle.mpr ⟨by simp; omega, hA, hB, hAm, fun b hb => ?_⟩
    have := hbeyond b hb
    unfold Node.limit at *
    simp only
    omega
  | @precedes A B n hA' hn =>
    obtain ⟨hpos, hA, hB, -, hnB⟩ := canonical_middle.mp hl
    refine canonical_middle.mpr ⟨by simp; omega, hA, hB, hA', fun b hb => ?_⟩
    have := hnB b hb
    unfold Node.limit at *
    simp only
    omega
  | @fresh A B hA' hB' =>
    obtain ⟨hA, hB, -⟩ := canonical_append.mp hl
    refine canonical_middle.mpr ⟨hsize, hA, hB, hA', hB.lt_of_head fun b hb => ?_⟩
    obtain ⟨hlimit, hne⟩ := hB' b hb
    have hge := hl.base_ge hout hsize (by simp [mem_of_mem_head? hb]) hlimit
    unfold Node.limit
    simp only
    omega

/-- … and exactly the pages are free in addition. -/
theorem Frees.free_iff (h : Frees addr size l l') :
    Free l' p ↔ Free l p ∨ addr ≤ p ∧ p < addr + size := by
  cases h with
  | @joins A B m n hm hn =>
    have hhas : Node.Has ⟨m.base, m.size + size + n.size⟩ p ↔
        m.Has p ∨ n.Has p ∨ addr ≤ p ∧ p < addr + size := by
      unfold Node.Has Node.limit at *
      simp only
      omega
    simp only [free_append, free_cons, hhas, or_comm, or_left_comm]
  | @follows A B m hm _ =>
    have hhas : Node.Has ⟨m.base, m.size + size⟩ p ↔ m.Has p ∨ addr ≤ p ∧ p < addr + size := by
      unfold Node.Has Node.limit at *
      simp only
      omega
    simp only [free_append, free_cons, hhas, or_comm, or_left_comm]
  | @precedes A B n _ hn =>
    have hhas : Node.Has ⟨addr, n.size + size⟩ p ↔ n.Has p ∨ addr ≤ p ∧ p < addr + size := by
      unfold Node.Has Node.limit at *
      simp only
      omega
    simp only [free_append, free_cons, hhas, or_comm, or_left_comm]
  | @fresh A B _ _ =>
    have hhas : Node.Has ⟨addr, size⟩ p ↔ addr ≤ p ∧ p < addr + size := Iff.rfl
    simp only [free_append, free_cons, hhas, or_comm, or_left_comm]

end Lists

end H2.Qurt
