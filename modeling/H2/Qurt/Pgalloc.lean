import H2.Qurt.S5alloc
import Mathlib.Data.Fintype.Card
import Mathlib.Data.Nat.Bitwise

/-!
# Qurt/Pgalloc — the page allocator

`qurt_pgalloc` takes pages out of the first range of a list that can hold them, at the address asked
for or, without one, where the hint is met for as large a power of two as the range allows;
`qurt_pgfree` gives pages back.  Both walk the list with a pointer to a pointer.  The arithmetic is
that of `unsigned int`.

`Arena.Shows` reads ranges off the arena: on them, an allocation is one of `Allocates` and a release
one of `Frees` (`Shows.pgalloc`, `Shows.pgfree`), and neither fails unless the storage runs out.
-/

namespace H2.Qurt

open Hook Function List

/-- Addition of `unsigned int`s. -/
def uadd (x y : ℕ) : ℕ := (x + y) % 2 ^ 32

/-- Subtraction of `unsigned int`s. -/
def usub (x y : ℕ) : ℕ := (x + (2 ^ 32 - y)) % 2 ^ 32

theorem uadd_of_lt {x y : ℕ} (h : x + y < 2 ^ 32) : uadd x y = x + y := Nat.mod_eq_of_lt h

theorem usub_of_le {x y : ℕ} (h : y ≤ x) (hx : x < 2 ^ 32) : usub x y = x - y := by
  unfold usub
  omega

/-- `log2_rounddown`. -/
def log2Rounddown (x : ℕ) : ℕ := (x ||| 1).log2

/-- How far behind `oldbase` the hint is met modulo `2 ^ maxAlign`. -/
def hintOffset (oldbase maxAlign alignhint : ℕ) : ℕ :=
  let alignbase := oldbase &&& (2 ^ maxAlign - 1)
  if alignbase ≤ alignhint then alignhint - alignbase else 2 ^ maxAlign + alignhint - alignbase

/-- The loop that places a request in a range without a mandated address: where the hint is met
modulo `2 ^ maxAlign`, or modulo the next smaller power if that is too far right.  There is no
result if `maxAlign` would go below zero. -/
def alignOffset (oldbase oldsize size : ℕ) : ℕ → ℕ → Option ℕ
  | maxAlign, alignhint =>
    let alignhint := alignhint &&& (2 ^ maxAlign - 1)
    let offset := hintOffset oldbase maxAlign alignhint
    if oldsize < uadd offset size then
      match maxAlign with
      | 0 => none
      | maxAlign + 1 => alignOffset oldbase oldsize size maxAlign alignhint
    else some offset

namespace Arena

variable {ρ ι : Type} [dρ : DecidableEq ρ] [dι : DecidableEq ι]

/-- The first half of `rechunk`: where in the range the pages are to be. -/
def place (addr size alignhint : ℕ) (tmp : ι) (a : Arena ρ ι) : Option ℕ :=
  if addr ≠ 0 then some (usub addr (a.base tmp))
  else alignOffset (a.base tmp) (a.size tmp) size (log2Rounddown size) alignhint

/-- The second half of `rechunk`: what is left of the range stays in the node on its left side, with
a node of its own for the right side if there are two. -/
def carve (c : Hook (Option ρ) ι) (tmp : ι) (offset size : ℕ) (a : Arena ρ ι) :
    Option (Arena ρ ι) :=
  let oldbase := a.base tmp
  let oldsize := a.size tmp
  let rightBase := uadd (uadd oldbase offset) size
  let rightSize := usub oldsize (uadd offset size)
  if offset ≠ 0 then
    let a := a.setSize tmp offset
    if uadd offset size < oldsize then do
      let (right, a) ← a.s5Alloc
      let a := (a.setPtr (.next right) (a.ptr (.next tmp))).setPtr (.next tmp) (some right)
      some ((a.setBase right rightBase).setSize right rightSize)
    else some a
  else if uadd offset size < oldsize then
    some ((a.setBase tmp rightBase).setSize tmp rightSize)
  else
    some ((a.setPtr c (a.ptr (.next tmp))).s5Free tmp)

/-- `rechunk`. -/
def rechunk (c : Hook (Option ρ) ι) (addr size alignhint : ℕ) (a : Arena ρ ι) :
    Option (ℕ × Arena ρ ι) := do
  let tmp ← a.ptr c
  let offset ← a.place addr size alignhint tmp
  let a' ← a.carve c tmp offset size
  some (uadd (a.base tmp) offset, a')

/-- The walk of `qurt_pgalloc`. -/
def pgallocFrom (addr size alignhint : ℕ) :
    ℕ → Hook (Option ρ) ι → Arena ρ ι → Option (ℕ × Arena ρ ι)
  | 0, _, _ => none
  | fuel + 1, c, a =>
    match a.ptr c with
    | none => some (0, a)
    | some tmp =>
      if a.size tmp < size then pgallocFrom addr size alignhint fuel (.next tmp) a
      else if addr ≠ 0 ∧ addr < a.base tmp then pgallocFrom addr size alignhint fuel (.next tmp) a
      else if addr ≠ 0 ∧ uadd (a.base tmp) (a.size tmp) < uadd addr size then
        pgallocFrom addr size alignhint fuel (.next tmp) a
      else a.rechunk c addr size alignhint

/-- `try_coalesce`. -/
def tryCoalesce (a : Arena ρ ι) (left : ι) : Arena ρ ι :=
  match a.ptr (.next left) with
  | none => a
  | some right =>
    if uadd (a.base left) (a.size left) = a.base right then
      ((a.setSize left (uadd (a.size left) (a.size right))).setPtr (.next left)
        (a.ptr (.next right))).s5Free right
    else a

/-- The end of `qurt_pgfree`: a node of its own. -/
def newNode (c : Hook (Option ρ) ι) (addr size : ℕ) (a : Arena ρ ι) : Option (Arena ρ ι) := do
  let (newnode, a) ← a.s5Alloc
  let a := (a.setBase newnode addr).setSize newnode size
  some ((a.setPtr (.next newnode) (a.ptr c)).setPtr c (some newnode))

/-- The walk of `qurt_pgfree`. -/
def pgfreeFrom (addr size : ℕ) : ℕ → Hook (Option ρ) ι → Arena ρ ι → Option (Arena ρ ι)
  | 0, _, _ => none
  | fuel + 1, c, a =>
    match a.ptr c with
    | none => a.newNode c addr size
    | some tmp =>
      if uadd (a.base tmp) (a.size tmp) < addr then pgfreeFrom addr size fuel (.next tmp) a
      else if uadd (a.base tmp) (a.size tmp) = addr then
        some ((a.setSize tmp (uadd (a.size tmp) size)).tryCoalesce tmp)
      else if uadd addr size = a.base tmp then
        some ((a.setBase tmp addr).setSize tmp (uadd (a.size tmp) size))
      else a.newNode c addr size

variable [Fintype ι]

/-- `qurt_pgalloc`.  There is no result if it stops with a fatal error. -/
def pgalloc (r : ρ) (addr size alignhint : ℕ) (a : Arena ρ ι) : Option (ℕ × Arena ρ ι) :=
  pgallocFrom addr size alignhint (Fintype.card ι + 1) (.head (some r)) a

/-- `qurt_pgfree`.  There is no result if it stops with a fatal error. -/
def pgfree (r : ρ) (addr size : ℕ) (a : Arena ρ ι) : Option (Arena ρ ι) :=
  pgfreeFrom addr size (Fintype.card ι + 1) (.head (some r)) a

end Arena

/-! ## Placing a request -/

variable {oldbase oldsize size : ℕ}

theorem log2Rounddown_lt {k : ℕ} (h : size < 2 ^ k) (hk : 0 < k) : log2Rounddown size < k := by
  have hone : 1 < 2 ^ k := Nat.one_lt_two_pow hk.ne'
  have hne : size ||| 1 ≠ 0 := by
    intro h0
    exact absurd (Nat.or_eq_zero_iff.mp h0).2 (by decide)
  exact (Nat.log2_lt hne).mpr (Nat.or_lt_two_pow h hone)

theorem hintOffset_lt (oldbase maxAlign alignhint : ℕ) :
    hintOffset oldbase maxAlign (alignhint &&& (2 ^ maxAlign - 1)) < 2 ^ maxAlign := by
  unfold hintOffset
  simp only [Nat.and_two_pow_sub_one_eq_mod]
  split <;> omega

/-- The loop ends, with a place in the range. -/
theorem alignOffset_spec (hfits : size ≤ oldsize) (hsize : size < 2 ^ 31) :
    ∀ {maxAlign : ℕ} (alignhint : ℕ), maxAlign < 31 →
    ∃ offset, alignOffset oldbase oldsize size maxAlign alignhint = some offset ∧
      offset + size ≤ oldsize := by
  intro maxAlign
  induction maxAlign with
  | zero =>
    intro alignhint _
    have hzero : hintOffset oldbase 0 (alignhint &&& (2 ^ 0 - 1)) = 0 :=
      Nat.lt_one_iff.mp (hintOffset_lt oldbase 0 alignhint)
    refine ⟨0, ?_, by omega⟩
    rw [alignOffset, hzero, uadd_of_lt (by omega), if_neg (by omega)]
  | succ maxAlign ih =>
    intro alignhint hlt
    rw [alignOffset]
    split
    · exact ih _ (by omega)
    · next hnot =>
      have hpow : 2 ^ maxAlign.succ ≤ 2 ^ 30 := Nat.pow_le_pow_right (by decide) (by omega)
      have hoffset := hintOffset_lt oldbase maxAlign.succ alignhint
      rw [uadd_of_lt (by omega)] at hnot
      exact ⟨_, rfl, by omega⟩

namespace Arena

/-! ## The ranges of an arena -/

variable {ρ ι : Type} [dρ : DecidableEq ρ] [dι : DecidableEq ι] {a a' : Arena ρ ι}
  {K K' : Option ρ → List ι}
  {l : ρ → List Node} {r : ρ} {xs ys : List ι} {tmp : ι} {addr alignhint : ℕ}

/-- **The arena shows the lists** `l` of ranges. -/
def Shows (a : Arena ρ ι) (l : ρ → List Node) : Prop :=
  ∃ K, a.Keeps K ∧ ∀ r, a.nodes (K (some r)) = l r

section

omit dρ dι

@[simp] theorem nodes_append : a.nodes (xs ++ ys) = a.nodes xs ++ a.nodes ys := map_append ..

@[simp] theorem nodes_cons : a.nodes (tmp :: ys) = ⟨a.base tmp, a.size tmp⟩ :: a.nodes ys := rfl

theorem nodes_congr (h : ∀ x ∈ xs, a'.base x = a.base x ∧ a'.size x = a.size x) :
    a'.nodes xs = a.nodes xs :=
  map_congr_left fun x hx => by rw [(h x hx).1, (h x hx).2]

end

omit dι in
/-- What shows when one list changes: the data of the others, and so their ranges, do not. -/
theorem Keeps.shows (h' : a'.Keeps K') (hl : ∀ j, a.nodes (K (some j)) = l j)
    (hother : ∀ j, j ≠ r → K' (some j) = K (some j))
    (hdata : ∀ j, j ≠ r → ∀ x ∈ K (some j), a'.base x = a.base x ∧ a'.size x = a.size x)
    {l' : List Node} (hr : a'.nodes (K' (some r)) = l') : a'.Shows (update l r l') := by
  refine ⟨K', h', fun j => ?_⟩
  by_cases hj : j = r
  · subst hj
    rw [update_self, hr]
  · rw [update_of_ne hj, hother j hj, ← hl j]
    exact nodes_congr (hdata j hj)

section

omit dρ dι

/-- A node in the middle of a list is nowhere else. -/
theorem Keeps.ne_of_middle (h : a.Keeps K) (hk : K (some r) = xs ++ tmp :: ys) :
    (∀ x ∈ xs, x ≠ tmp) ∧ (∀ y ∈ ys, y ≠ tmp) ∧ ∀ j, j ≠ r → ∀ x ∈ K (some j), x ≠ tmp := by
  have hnd : (xs ++ tmp :: ys).Nodup := hk ▸ h.chains.nodup (some r)
  have htmp : tmp ∈ K (some r) := hk ▸ mem_append_right _ (mem_cons_self ..)
  refine ⟨fun x hx heq => ?_, fun y hy heq => ?_, fun j hj x hx heq => hj ?_⟩
  · exact disjoint_of_nodup_append hnd hx (heq ▸ mem_cons_self ..)
  · exact (nodup_cons.mp hnd.of_append_right).1 (heq ▸ hy)
  · exact Option.some.inj (h.chains.disjoint hx (heq ▸ htmp))

theorem place_spec (alignhint : ℕ) {n : Node} (hn : n = ⟨a.base tmp, a.size tmp⟩)
    (hholds : n.Holds addr size) (hsize : size < 2 ^ 31) (hlimit : n.limit < 2 ^ 32) :
    ∃ offset, a.place addr size alignhint tmp = some offset ∧ offset + size ≤ n.size ∧
      (addr ≠ 0 → n.base + offset = addr) := by
  subst hn
  obtain ⟨hfits, haddr⟩ := hholds
  unfold Node.limit at haddr hlimit
  simp only at hfits haddr hlimit ⊢
  unfold place
  by_cases hzero : addr = 0
  · obtain ⟨offset, hoffset, hle⟩ := alignOffset_spec hfits hsize alignhint
      (log2Rounddown_lt hsize (by decide))
    exact ⟨offset, by rw [if_neg (not_not.mpr hzero), hoffset], hle, fun h => absurd hzero h⟩
  · obtain ⟨hbase, -⟩ := haddr hzero
    refine ⟨addr - a.base tmp, ?_, by omega, fun _ => by omega⟩
    rw [if_pos hzero, usub_of_le hbase (by omega)]

end

section List

variable (h : a.Keeps K) (hl : ∀ j, a.nodes (K (some j)) = l j)

section

omit dρ dι

include h in
/-- The cell behind some nodes of a list points to the next one. -/
theorem Keeps.ptr_after (hk : K (some r) = xs ++ ys) :
    a.ptr ((head (some r)).after xs) = ys.head? :=
  ((hk ▸ h.chains.strung (some r)).drop : Strung a.ptr _ ys).head?

include hl in
theorem ranges_eq (hk : K (some r) = xs ++ tmp :: ys) :
    l r = a.nodes xs ++ ⟨a.base tmp, a.size tmp⟩ :: a.nodes ys := by
  rw [← hl r, hk, nodes_append, nodes_cons]

end

include h hl

omit dι in
/-- **New data for one node** of a list. -/
theorem Keeps.nodes_data (hk : K (some r) = xs ++ tmp :: ys)
    (hdata : ∀ x, x ≠ tmp → a'.base x = a.base x ∧ a'.size x = a.size x) {n : Node}
    (hn : n = ⟨a'.base tmp, a'.size tmp⟩) (j : ρ) :
    a'.nodes (K (some j)) = update l r (a.nodes xs ++ n :: a.nodes ys) j := by
  obtain ⟨hxs, hys, hother⟩ := h.ne_of_middle hk
  by_cases hj : j = r
  · subst hj
    rw [update_self, hk, nodes_append, nodes_cons,
      nodes_congr fun x hx => hdata x (hxs x hx), nodes_congr fun y hy => hdata y (hys y hy), hn]
  · rw [update_of_ne hj, ← hl j]
    exact nodes_congr fun x hx => hdata x (hother j hj x hx)

omit dι in
theorem Keeps.shows_data (hk : K (some r) = xs ++ tmp :: ys) (hptr : a'.ptr = a.ptr)
    (hheap : a'.heap = a.heap)
    (hdata : ∀ x, x ≠ tmp → a'.base x = a.base x ∧ a'.size x = a.size x) {n : Node}
    (hn : n = ⟨a'.base tmp, a'.size tmp⟩) : a'.Shows (update l r (a.nodes xs ++ n :: a.nodes ys)) :=
  ⟨K, h.congr hptr hheap, h.nodes_data hl hk hdata hn⟩

/-- **A node leaves the list** for the stream. -/
theorem Keeps.shows_drop (hk : K (some r) = xs ++ tmp :: ys) :
    ((a.setPtr ((head (some r)).after xs) (a.ptr (.next tmp))).s5Free tmp).Shows
      (update l r (a.nodes xs ++ a.nodes ys)) := by
  have htmp : tmp ∈ K (some r) := hk ▸ mem_append_right _ (mem_cons_self ..)
  obtain ⟨hout, htmp'⟩ := h.unlink hk
  have hfree := hout.s5Free htmp' fun hheap => h.fresh tmp hheap (some r) htmp
  refine hfree.shows hl (fun j hj => ?_) (fun _ _ _ _ => ⟨rfl, rfl⟩) ?_
  · rw [update_of_ne (Option.some_ne_none j), update_of_ne fun heq => hj (Option.some.inj heq)]
  · rw [update_of_ne (Option.some_ne_none r), update_self, nodes_append]
    rfl

/-- **A node comes into the list** from the stream, unless the storage has run out. -/
theorem Keeps.shows_link (hk : K (some r) = xs ++ ys) (n : Node) :
    a.s5Alloc = none ∧ a.Dry ∨ ∃ x b, a.s5Alloc = some (x, b) ∧
      ((((b.setPtr (.next x) (b.ptr ((head (some r)).after xs))).setPtr ((head (some r)).after xs)
        (some x)).setBase x n.base).setSize x n.size).Shows
          (update l r (a.nodes xs ++ n :: a.nodes ys)) := by
  rcases h.s5Alloc with hdry | ⟨x, S, b, hsome, hb, hx, hheap, hbase, hsize⟩
  · exact .inl hdry
  have hne {j : ρ} {y : ι} (hy : y ∈ K (some j)) : y ≠ x := by
    rintro rfl
    exact hx (some j) (by rwa [update_of_ne (Option.some_ne_none j)])
  have hk' : update K none S (some r) = xs ++ ys := by
    rw [update_of_ne (Option.some_ne_none r), hk]
  refine .inr ⟨x, b, hsome, ((hb.link hk' hx hheap).congr ?_ ?_).shows hl (fun j hj => ?_)
    (fun j _ y hy => ?_) ?_⟩
  · rfl
  · rfl
  · rw [update_of_ne fun heq => hj (Option.some.inj heq), update_of_ne (Option.some_ne_none j)]
  · simp [hbase, hsize, hne hy]
  · have hxs (y : ι) (hy : y ∈ xs) : y ≠ x := hne (hk ▸ mem_append_left _ hy)
    have hys (y : ι) (hy : y ∈ ys) : y ≠ x := hne (hk ▸ mem_append_right _ hy)
    rw [update_self, nodes_append, nodes_cons,
      nodes_congr (a := a) fun y (hy : y ∈ xs) => by simp [hbase, hsize, hxs y hy],
      nodes_congr (a := a) fun y (hy : y ∈ ys) => by simp [hbase, hsize, hys y hy]]
    simp

/-! ## Allocation -/

/-- **Carving** a range up leaves in the list what is left of it. -/
theorem Keeps.carve (hk : K (some r) = xs ++ tmp :: ys) {n : Node}
    (hn : n = ⟨a.base tmp, a.size tmp⟩) {offset : ℕ} (hfits : offset + size ≤ n.size)
    (hlimit : n.limit < 2 ^ 32) :
    a.carve ((head (some r)).after xs) tmp offset size = none ∧ a.Dry ∨
    ∃ a' : Arena ρ ι, a.carve ((head (some r)).after xs) tmp offset size = some a' ∧
      a'.Shows (update l r
        (a.nodes xs ++ n.carve (n.base + offset) size ++ a.nodes ys)) := by
  subst hn
  unfold Node.limit at hlimit
  simp only at hfits hlimit
  have hoffset : uadd offset size = offset + size := uadd_of_lt (by omega)
  have hbase : uadd (a.base tmp) offset = a.base tmp + offset := uadd_of_lt (by omega)
  have hright : uadd (a.base tmp + offset) size = a.base tmp + offset + size :=
    uadd_of_lt (by omega)
  have hrest : usub (a.size tmp) (offset + size) = a.size tmp - (offset + size) :=
    usub_of_le hfits (by omega)
  unfold Arena.carve
  rw [Node.carve_add]
  simp only [hoffset, hbase, hright, hrest]
  by_cases hleft : offset = 0
  · subst hleft
    simp only [ne_eq, not_true_eq_false, if_false, if_true, nil_append]
    right
    split
    · refine ⟨_, rfl, ?_⟩
      rw [append_assoc]
      refine h.shows_data hl hk ?_ ?_ (fun x hx => ?_) ?_ <;> simp [*]
    · refine ⟨_, rfl, ?_⟩
      rw [append_nil]
      exact h.shows_drop hl hk
  · rw [if_pos hleft]
    have hdata (x : ι) (hx : x ≠ tmp) :
        (a.setSize tmp offset).base x = a.base x ∧ (a.setSize tmp offset).size x = a.size x := by
      simp [hx]
    split
    · -- two sides: the right one goes behind the node
      have hstay : (a.setSize tmp offset).Keeps K := h.congr rfl rfl
      have hk' : K (some r) = (xs ++ [tmp]) ++ ys := by rw [hk, append_assoc]; rfl
      obtain ⟨hxs, hys, -⟩ := h.ne_of_middle hk
      rcases hstay.shows_link (h.nodes_data hl hk hdata rfl) hk'
        ⟨a.base tmp + offset + size, a.size tmp - (offset + size)⟩ with
        ⟨hnone, hdry⟩ | ⟨x, b, hsome, hshows⟩
      · exact .inl ⟨by rw [hnone]; rfl, hdry⟩
      · refine .inr ⟨_, by rw [hsome]; rfl, ?_⟩
        rw [after_concat, nodes_append, nodes_congr fun x hx => hdata x (hxs x hx),
          nodes_congr fun y hy => hdata y (hys y hy)] at hshows
        simpa [nodes] using hshows
    · refine .inr ⟨_, rfl, ?_⟩
      rw [append_assoc]
      refine h.shows_data hl hk ?_ ?_ hdata ?_ <;> simp

/-- **What an allocation comes to**: pages of the list, or the end of the storage. -/
def Allocated (a : Arena ρ ι) (l : ρ → List Node) (r : ρ) (addr size : ℕ)
    (res : Option (ℕ × Arena ρ ι)) : Prop :=
  res = none ∧ a.Dry ∨ ∃ ret l', ∃ a' : Arena ρ ι, res = some (ret, a') ∧
    Allocates addr size (l r) ret l' ∧ a'.Shows (update l r l')

theorem Keeps.rechunk (hk : K (some r) = xs ++ tmp :: ys) {n : Node}
    (hn : n = ⟨a.base tmp, a.size tmp⟩) (hholds : n.Holds addr size) (hsize : size < 2 ^ 31)
    (hlimit : n.limit < 2 ^ 32) : a.Allocated l r addr size
      (a.rechunk ((head (some r)).after xs) addr size alignhint) := by
  obtain ⟨offset, hplace, hle, hat⟩ := place_spec alignhint hn hholds hsize hlimit
  have hret : uadd (a.base tmp) offset = n.base + offset := by
    subst hn
    unfold Node.limit at hlimit
    simp only at hle hlimit ⊢
    exact uadd_of_lt (by omega)
  unfold Arena.rechunk
  simp only [h.ptr_after hk, head?_cons, hplace, hret, Option.bind_eq_bind, Option.bind_some]
  rcases h.carve hl hk hn hle hlimit with ⟨hnone, hdry⟩ | ⟨a', hsome, hshows⟩
  · exact .inl ⟨by rw [hnone]; rfl, hdry⟩
  · refine .inr ⟨n.base + offset, _, a', by rw [hsome]; rfl, ?_, hshows⟩
    rw [ranges_eq hl hk, ← hn]
    exact .takes (Nat.le_add_right ..) (by unfold Node.limit; omega) hat

/-- The walk passes the ranges that cannot hold the request. -/
theorem Keeps.pgallocFrom (hsize : size < 2 ^ 31) (hreq : addr + size < 2 ^ 32)
    (hbound : ∀ n ∈ l r, n.limit < 2 ^ 32) :
    ∀ {ys xs : List ι} {fuel : ℕ}, K (some r) = xs ++ ys → ys.length < fuel →
    (∀ n ∈ a.nodes xs, ¬n.Holds addr size) →
    a.Allocated l r addr size
      (pgallocFrom addr size alignhint fuel ((head (some r)).after xs) a)
  | _, _, 0, _, hfuel, _ => absurd hfuel (Nat.not_lt_zero _)
  | [], xs, fuel + 1, hk, _, hnone => by
      rw [Arena.pgallocFrom, h.ptr_after hk]
      rw [append_nil] at hk
      refine .inr ⟨0, l r, a, rfl, .fails ?_, K, h, fun j => ?_⟩
      · rw [← hl r, hk]
        exact hnone
      · rw [update_eq_self, hl]
  | tmp :: ys, xs, fuel + 1, hk, hfuel, hnone => by
      have hlimit := hbound ⟨a.base tmp, a.size tmp⟩ (by rw [ranges_eq hl hk]; simp)
      have hcur : uadd (a.base tmp) (a.size tmp) = a.base tmp + a.size tmp := uadd_of_lt hlimit
      -- passing the range
      have hnext (hnot : ¬(⟨a.base tmp, a.size tmp⟩ : Node).Holds addr size) :
          a.Allocated l r addr size (Arena.pgallocFrom addr size alignhint fuel (.next tmp) a) := by
        rw [← after_concat (.head (some r)) xs tmp]
        refine Keeps.pgallocFrom hsize hreq hbound (by rw [hk, append_assoc]; rfl)
          (Nat.lt_of_succ_lt_succ hfuel) fun n hn => ?_
        rw [nodes_append, mem_append] at hn
        rcases hn with hn | hn
        · exact hnone n hn
        · rwa [mem_singleton.mp hn]
      rw [Arena.pgallocFrom, h.ptr_after hk, head?_cons]
      simp only [hcur, uadd_of_lt hreq]
      split
      · next hlt => exact hnext fun hholds => absurd hholds.1 (Nat.not_le.mpr hlt)
      split
      · next hlt => exact hnext fun hholds => absurd (hholds.2 hlt.1).1 (Nat.not_le.mpr hlt.2)
      split
      · next hlt => exact hnext fun hholds => absurd (hholds.2 hlt.1).2 (Nat.not_le.mpr hlt.2)
      · next hsz hlow hhigh =>
        refine h.rechunk hl hk rfl ⟨Nat.not_lt.mp hsz, fun haddr => ⟨?_, ?_⟩⟩ hsize hlimit
        · exact Nat.not_lt.mp fun hlt => hlow ⟨haddr, hlt⟩
        · exact Nat.not_lt.mp fun hlt => hhigh ⟨haddr, hlt⟩

/-! ## Release -/

/-- **What a release comes to.** -/
def Released (a : Arena ρ ι) (l : ρ → List Node) (r : ρ) (addr size : ℕ)
    (res : Option (Arena ρ ι)) : Prop :=
  res = none ∧ a.Dry ∨ ∃ l', ∃ a' : Arena ρ ι, res = some a' ∧ Frees addr size (l r) l' ∧
    a'.Shows (update l r l')

theorem Keeps.newNode (hk : K (some r) = xs ++ ys) (hA : ∀ m ∈ a.nodes xs, m.limit < addr)
    (hB : ∀ n ∈ (a.nodes ys).head?, addr < n.limit ∧ addr + size ≠ n.base) :
    a.Released l r addr size (a.newNode ((head (some r)).after xs) addr size) := by
  unfold Arena.newNode
  rcases h.shows_link hl hk ⟨addr, size⟩ with ⟨hnone, hdry⟩ | ⟨x, b, hsome, hshows⟩
  · exact .inl ⟨by rw [hnone]; rfl, hdry⟩
  · refine .inr ⟨a.nodes xs ++ ⟨addr, size⟩ :: a.nodes ys, _, by rw [hsome]; rfl, ?_, hshows⟩
    rw [← hl r, hk, nodes_append]
    exact .fresh hA hB

/-- The range that ends where the pages begin takes them, and the next range as well if that begins
where they end. -/
theorem Keeps.tryCoalesce (hk : K (some r) = xs ++ tmp :: ys) (hm : a.base tmp + a.size tmp = addr)
    (hreq : addr + size < 2 ^ 32) (hbound : ∀ n ∈ l r, n.limit < 2 ^ 32) :
    ∃ l', Frees addr size (l r) l' ∧
      ((a.setSize tmp (uadd (a.size tmp) size)).tryCoalesce tmp).Shows (update l r l') := by
  have hlr := ranges_eq hl hk
  have hk' : K (some r) = (xs ++ [tmp]) ++ ys := by rw [hk, append_assoc]; rfl
  have hnext := h.ptr_after hk'
  rw [after_concat] at hnext
  have hsize : uadd (a.size tmp) size = a.size tmp + size := uadd_of_lt (by omega)
  have hgrown : (a.setSize tmp (a.size tmp + size)).Shows (update l r
      (a.nodes xs ++ ⟨a.base tmp, a.size tmp + size⟩ :: a.nodes ys)) := by
    refine h.shows_data hl hk ?_ ?_ (fun x hx => ?_) ?_ <;> simp [*]
  unfold Arena.tryCoalesce
  simp only [setSize_ptr, setSize_base, hsize, hnext]
  cases ys with
  | nil => exact ⟨_, hlr ▸ .follows hm (by simp [nodes]), hgrown⟩
  | cons right zs =>
    have hne : right ≠ tmp := (h.ne_of_middle hk).2.1 right (mem_cons_self ..)
    have hlimit := hbound ⟨a.base right, a.size right⟩ (by rw [hlr]; simp)
    unfold Node.limit at hlimit
    simp only at hlimit
    simp only [head?_cons, setSize_size, update_self, update_of_ne hne]
    rw [uadd_of_lt (by omega)]
    split
    · next hjoin =>
      have hsize' : uadd (a.size tmp + size) (a.size right) = a.size tmp + size + a.size right :=
        uadd_of_lt (by omega)
      refine ⟨a.nodes xs ++ ⟨a.base tmp, a.size tmp + size + a.size right⟩ :: a.nodes zs, ?_, ?_⟩
      · rw [hlr]
        exact .joins hm (by simp only; omega)
      · obtain ⟨hxs, hys, -⟩ := h.ne_of_middle hk
        -- the range has grown twice before the next one is dropped
        obtain ⟨b, hb⟩ : ∃ b, b = (a.setSize tmp (a.size tmp + size)).setSize tmp
            (uadd (a.size tmp + size) (a.size right)) := ⟨_, rfl⟩
        have hdata : ∀ x, x ≠ tmp → b.base x = a.base x ∧ b.size x = a.size x := fun x hx => by
          simp [hb, hx]
        have hkeeps : b.Keeps K := h.congr (by rw [hb]; rfl) (by rw [hb]; rfl)
        have hdropped := hkeeps.shows_drop (h.nodes_data hl hk hdata rfl) hk'
        rw [after_concat, nodes_append, nodes_congr fun x hx => hdata x (hxs x hx),
          nodes_congr fun y hy => hdata y (hys y (mem_cons_of_mem _ hy))]
          at hdropped
        simpa [hb, hsize', nodes] using hdropped
    · next hnot =>
      refine ⟨_, hlr ▸ .follows hm ?_, hgrown⟩
      simp only [nodes_cons, head?_cons, Option.mem_some_iff, forall_eq', Node.limit]
      omega

/-- The walk passes the ranges that end before the pages. -/
theorem Keeps.pgfreeFrom (hreq : addr + size < 2 ^ 32) (hbound : ∀ n ∈ l r, n.limit < 2 ^ 32) :
    ∀ {ys xs : List ι} {fuel : ℕ}, K (some r) = xs ++ ys → ys.length < fuel →
    (∀ m ∈ a.nodes xs, m.limit < addr) →
    a.Released l r addr size (pgfreeFrom addr size fuel ((head (some r)).after xs) a)
  | _, _, 0, _, hfuel, _ => absurd hfuel (Nat.not_lt_zero _)
  | [], xs, fuel + 1, hk, _, hA => by
      rw [Arena.pgfreeFrom, h.ptr_after hk]
      exact h.newNode hl hk hA (by simp [nodes])
  | tmp :: ys, xs, fuel + 1, hk, hfuel, hA => by
      have hlr := ranges_eq hl hk
      have hlimit := hbound ⟨a.base tmp, a.size tmp⟩ (by rw [hlr]; simp)
      unfold Node.limit at hlimit
      simp only at hlimit
      rw [Arena.pgfreeFrom, h.ptr_after hk, head?_cons]
      simp only [uadd_of_lt hlimit, uadd_of_lt hreq]
      split
      · next hlt =>
        rw [← after_concat (.head (some r)) xs tmp]
        refine Keeps.pgfreeFrom hreq hbound (by rw [hk, append_assoc]; rfl)
          (Nat.lt_of_succ_lt_succ hfuel) fun m hm => ?_
        rw [nodes_append, mem_append] at hm
        rcases hm with hm | hm
        · exact hA m hm
        · rwa [mem_singleton.mp hm]
      split
      · next heq =>
        obtain ⟨l', hfrees, hshows⟩ := h.tryCoalesce hl hk heq hreq hbound
        exact .inr ⟨l', _, rfl, hfrees, hshows⟩
      split
      · next hbase =>
        have hsize : uadd (a.size tmp) size = a.size tmp + size := uadd_of_lt (by omega)
        refine .inr ⟨a.nodes xs ++ ⟨addr, a.size tmp + size⟩ :: a.nodes ys, _, rfl, ?_, ?_⟩
        · rw [hlr]
          exact .precedes hA hbase
        · refine h.shows_data hl hk ?_ ?_ (fun x hx => ?_) ?_ <;> simp [*]
      · next hnlt hne hbase =>
        refine h.newNode hl hk hA fun n hn => ?_
        obtain rfl : _ = n := Option.some.inj hn
        exact ⟨by unfold Node.limit; simp only; omega, hbase⟩

end List

/-- **`qurt_pgalloc`** is an allocation. -/
theorem Shows.pgalloc [Fintype ι] (h : a.Shows l) (hsize : size < 2 ^ 31)
    (hreq : addr + size < 2 ^ 32) (hbound : ∀ n ∈ l r, n.limit < 2 ^ 32) :
    a.Allocated l r addr size (a.pgalloc r addr size alignhint) := by
  obtain ⟨K, h, hl⟩ := h
  refine h.pgallocFrom hl hsize hreq hbound (show K (some r) = [] ++ K (some r) from rfl) ?_
    fun n hn => absurd hn not_mem_nil
  exact Nat.lt_succ_of_le (h.chains.nodup (some r)).length_le_card

/-- **`qurt_pgfree`** is a release. -/
theorem Shows.pgfree [Fintype ι] (h : a.Shows l) (hreq : addr + size < 2 ^ 32)
    (hbound : ∀ n ∈ l r, n.limit < 2 ^ 32) : a.Released l r addr size (a.pgfree r addr size) := by
  obtain ⟨K, h, hl⟩ := h
  refine h.pgfreeFrom hl hreq hbound (show K (some r) = [] ++ K (some r) from rfl) ?_
    fun n hn => absurd hn not_mem_nil
  exact Nat.lt_succ_of_le (h.chains.nodup (some r)).length_le_card

end Arena

end H2.Qurt
