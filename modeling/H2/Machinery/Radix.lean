import Mathlib.Algebra.Group.Nat.Defs
import Mathlib.Order.Basic

/-!
# Machinery/Radix — a radix tree kept in tables

The upper bits of a key choose an entry of a first table, and where that entry leads to a further
table, the next bits choose an entry there (`walk`), down to a leaf or to nothing.  How many bits a
table takes is said by the entry that leads to it.

In a `Tree` every table has one place: so many bits of a key left, and the bits above.  A key only
reads entries of tables whose place fits it; so to put a leaf under one key, or nothing, changes
what is found for the keys of that entry and no others (`find_put`), and to hang an empty table
under an empty entry changes nothing (`Tree.hang`).
-/

namespace H2

open Function

/-- What an entry of a table is. -/
inductive Radix.Slot (P : Type) where
  | leaf
  /-- It leads to a table that takes so many bits. -/
  | down (p : P) (bits : ℕ)
  | empty

/-- How a tree is kept: what entries mean where so many bits of a key are left below them, its first
table, and the bits of a key and those the first table takes. -/
structure Radix (P E : Type) where
  slot : ℕ → E → Radix.Slot P
  root : P
  left : ℕ
  bits : ℕ

namespace Radix

/-- Where a table is: the bits of a key left, those it takes, and the value of those above. -/
structure Place where
  left : ℕ
  bits : ℕ
  above : ℕ

variable {P E : Type}

/-- The entry for a key. -/
def index (v b k : ℕ) : ℕ := v / 2 ^ (b - k) % 2 ^ k

/-- The place of a table for a key. -/
def place (v b k : ℕ) : Place := ⟨b, k, v / 2 ^ b⟩

/-- The table at `p` with the entry at `i` replaced. -/
def put [DecidableEq P] (mem : P → ℕ → E) (p : P) (i : ℕ) (e : E) : P → ℕ → E :=
  update mem p (update (mem p) i e)

variable (R : Radix P E) (mem : P → ℕ → E) (v : ℕ)

/-- The walk from a table on. -/
def walk : ℕ → ℕ → P → ℕ → Option (P × ℕ)
  | 0, _, _, _ => none
  | n + 1, b, p, k =>
    match R.slot (b - k) (mem p (index v b k)) with
    | .leaf => some (p, index v b k)
    | .empty => none
    | .down q j => walk n (b - k) q j

/-- Where the leaf for a key is. -/
def find : Option (P × ℕ) := R.walk mem v (R.left + 1) R.left R.root R.bits

/-- The walk comes to a table. -/
inductive Arrives : P → ℕ → ℕ → Prop
  | root : Arrives R.root R.left R.bits
  | down {p q : P} {b k j : ℕ} (hp : Arrives p b k)
      (hdown : R.slot (b - k) (mem p (index v b k)) = .down q j) : Arrives q (b - k) j

/-- **Every table has its place.** -/
structure Tree (home : P → Option Place) : Prop where
  root : home R.root = some ⟨R.left, R.bits, 0⟩
  fits : ∀ {p b k x}, home p = some ⟨b, k, x⟩ → 0 < k ∧ k ≤ b
  down : ∀ {p b k x i q j}, home p = some ⟨b, k, x⟩ → i < 2 ^ k →
    R.slot (b - k) (mem p i) = .down q j → home q = some ⟨b - k, j, x * 2 ^ k + i⟩

/-- A key finds in `mem'` what it finds in `mem`. -/
def Same (mem' : P → ℕ → E) : Prop :=
  R.find mem' v = R.find mem v ∧ ∀ l, R.find mem v = some l → mem' l.1 l.2 = mem l.1 l.2

variable {R mem v} {mem' mem'' : P → ℕ → E} {home : P → Option Place} {u n m b k j : ℕ} {p q : P}
  {e z : E}

theorem Same.refl : R.Same mem v mem := ⟨rfl, fun _ _ => rfl⟩

theorem Same.trans (h : R.Same mem v mem') (h' : R.Same mem' v mem'') : R.Same mem v mem'' :=
  ⟨h'.1.trans h.1, fun l hl => (h'.2 l (h.1.trans hl)).trans (h.2 l hl)⟩

/-! ## Keys and places -/

theorem index_lt : index v b k < 2 ^ k := Nat.mod_lt _ (Nat.two_pow_pos k)

/-- The entry says the next bits. -/
theorem div_eq (hk : k ≤ b) : v / 2 ^ b * 2 ^ k + index v b k = v / 2 ^ (b - k) := by
  have hpow : 2 ^ b = 2 ^ (b - k) * 2 ^ k := by rw [← Nat.pow_add, Nat.sub_add_cancel hk]
  rw [index, hpow, ← Nat.div_div_eq_div_mul, Nat.div_add_mod']

theorem index_congr (h : u / 2 ^ (b - k) = v / 2 ^ (b - k)) : index u b k = index v b k := by
  rw [index, index, h]

theorem div_congr {c : ℕ} (hc : c ≤ b) (h : u / 2 ^ c = v / 2 ^ c) : u / 2 ^ b = v / 2 ^ b := by
  have hpow : 2 ^ b = 2 ^ c * 2 ^ (b - c) := by rw [← Nat.pow_add, Nat.add_sub_cancel' hc]
  rw [hpow, ← Nat.div_div_eq_div_mul, ← Nat.div_div_eq_div_mul, h]

/-- Two keys that come to one entry of one table have the bits so far in common. -/
theorem div_congr_of_index (hk : k ≤ b) (habove : u / 2 ^ b = v / 2 ^ b)
    (hindex : index u b k = index v b k) : u / 2 ^ (b - k) = v / 2 ^ (b - k) := by
  rw [← div_eq hk, ← div_eq hk, habove, hindex]

/-- The table an entry leads to has its place. -/
theorem Tree.next (h : R.Tree mem home) (hp : home p = some (place v b k))
    (hdown : R.slot (b - k) (mem p (index v b k)) = .down q j) :
    home q = some (place v (b - k) j) := by
  rw [h.down hp index_lt hdown, place, div_eq (h.fits hp).2]

theorem Tree.home_root (h : R.Tree mem home) (hv : v < 2 ^ R.left) :
    home R.root = some (place v R.left R.bits) := by
  rw [h.root, place, Nat.div_eq_of_lt hv]

theorem Arrives.placed (h : R.Arrives mem v p b k) (ht : R.Tree mem home) (hv : v < 2 ^ R.left) :
    home p = some (place v b k) := by
  induction h with
  | root => exact ht.home_root hv
  | down _ hdown ih => exact ht.next ih hdown

theorem place_inj {b' k' : ℕ} (hp' : home p = some (place u b' k'))
    (hp : home p = some (place v b k)) : b' = b ∧ k' = k ∧ u / 2 ^ b' = v / 2 ^ b := by
  simpa [place] using hp'.symm.trans hp

theorem ne_of_home {x : Place} (hq : home q = none) (hp : home p = some x) : p ≠ q := by
  rintro rfl
  rw [hq] at hp
  cases hp

/-! ## What a walk reads -/

theorem Tree.walk_steps (h : R.Tree mem home) (hp : home p = some (place v b k)) (hn : b < n)
    (hm : b < m) : R.walk mem v n b p k = R.walk mem v m b p k := by
  induction n generalizing m b p k with
  | zero => exact absurd hn (Nat.not_lt_zero b)
  | succ n ih =>
    obtain ⟨m, rfl⟩ := Nat.exists_eq_succ_of_ne_zero (Nat.ne_zero_of_lt hm)
    rw [walk, walk]
    split
    · rfl
    · rfl
    · next q j hdown =>
      obtain ⟨hk, hkb⟩ := h.fits hp
      have hlt : b - k < b := Nat.sub_lt (Nat.lt_of_lt_of_le hk hkb) hk
      exact ih (h.next hp hdown) (Nat.lt_of_lt_of_le hlt (Nat.le_of_lt_succ hn))
        (Nat.lt_of_lt_of_le hlt (Nat.le_of_lt_succ hm))

/-- The walk goes on where it has come to. -/
theorem Arrives.find (h : R.Arrives mem v p b k) (ht : R.Tree mem home) (hv : v < 2 ^ R.left) :
    R.find mem v = R.walk mem v (b + 1) b p k := by
  induction h with
  | root => rfl
  | @down p q b k j hp hdown ih =>
    have hhome := hp.placed ht hv
    obtain ⟨hk, hkb⟩ := ht.fits hhome
    have hlt : b - k < b := Nat.sub_lt (Nat.lt_of_lt_of_le hk hkb) hk
    rw [ih, walk, hdown]
    exact ht.walk_steps (ht.next hhome hdown) hlt (Nat.lt_succ_self _)

/-- **A walk only reads the entries for its key** in tables that fit it. -/
theorem Tree.walk_congr (h : R.Tree mem home)
    (hsame : ∀ p b k, home p = some (place v b k) → mem' p (index v b k) = mem p (index v b k))
    (hp : home p = some (place v b k)) : R.walk mem' v n b p k = R.walk mem v n b p k := by
  induction n generalizing b p k with
  | zero => rfl
  | succ n ih =>
    rw [walk, walk, hsame p b k hp]
    split
    · rfl
    · rfl
    · next hdown => exact ih (h.next hp hdown)

/-- A leaf that is found lies on the way of its key. -/
theorem exists_arrives {l : P × ℕ} (hl : R.find mem v = some l) : ∃ b k, R.Arrives mem v l.1 b k ∧
    l.2 = index v b k ∧ R.slot (b - k) (mem l.1 l.2) = .leaf := by
  have hwalk {n b k : ℕ} {p : P} (hp : R.Arrives mem v p b k)
      (hl : R.walk mem v n b p k = some l) : ∃ b k, R.Arrives mem v l.1 b k ∧ l.2 = index v b k ∧
        R.slot (b - k) (mem l.1 l.2) = .leaf := by
    induction n generalizing b p k with
    | zero => cases hl
    | succ n ih =>
      rw [walk] at hl
      split at hl
      · next hleaf =>
        cases hl
        exact ⟨b, k, hp, rfl, hleaf⟩
      · cases hl
      · next hdown => exact ih (hp.down hdown) hl
  exact hwalk .root hl

theorem Tree.same (h : R.Tree mem home) (hv : v < 2 ^ R.left)
    (hsame : ∀ p b k, home p = some (place v b k) → mem' p (index v b k) = mem p (index v b k)) :
    R.Same mem v mem' := by
  have hroot := h.home_root hv
  refine ⟨h.walk_congr hsame hroot, fun l hl => ?_⟩
  obtain ⟨b, k, harr, hi, -⟩ := exists_arrives hl
  rw [hi]
  exact hsame _ b k (harr.placed h hv)

/-- Keys that agree in the bits so far come to the same tables. -/
theorem Arrives.congr (h : R.Arrives mem v p b k) (hu : u / 2 ^ b = v / 2 ^ b) :
    R.Arrives mem u p b k := by
  induction h with
  | root => exact .root
  | @down p q b k j hp hdown ih =>
    refine .down (ih (div_congr (Nat.sub_le b k) hu)) ?_
    rwa [index_congr hu]

/-- A walk comes to a table by entries of tables with more bits left. -/
theorem Arrives.congr_mem (h : R.Arrives mem v p b k) (ht : R.Tree mem home) (hv : v < 2 ^ R.left)
    (hsame : ∀ p' b' k', home p' = some (place v b' k') → b < b' →
      mem' p' (index v b' k') = mem p' (index v b' k')) : R.Arrives mem' v p b k := by
  induction h with
  | root => exact .root
  | @down p q b k j hp hdown ih =>
    have hhome := hp.placed ht hv
    obtain ⟨hk, hkb⟩ := ht.fits hhome
    have hlt : b - k < b := Nat.sub_lt (Nat.lt_of_lt_of_le hk hkb) hk
    refine .down (ih fun p' b' k' hp' hb' => hsame p' b' k' hp' (Nat.lt_trans hlt hb')) ?_
    rwa [hsame p b k hhome hlt]

/-! ## Entries replaced -/

section Put

variable [DecidableEq P]

theorem put_apply (p p' : P) (i i' : ℕ) (e : E) :
    put mem p i e p' i' = if p' = p ∧ i' = i then e else mem p' i' := by
  rw [put]
  by_cases hp : p' = p
  · subst hp
    simp [update_apply]
  · simp [hp]

theorem put_self (p : P) (i : ℕ) (e : E) : put mem p i e p i = e := by
  simp [put_apply]

theorem put_of_ne {p' : P} {i i' : ℕ} (h : p' ≠ p) : put mem p i e p' i' = mem p' i' := by
  simp [put_apply, h]

/-- The entry for `v` in the table at `p` is none that another key reads. -/
theorem Tree.put_of_div_ne (ht : R.Tree mem home) (hp : home p = some (place v b k))
    (hu : u / 2 ^ (b - k) ≠ v / 2 ^ (b - k)) {p' : P} {b' k' : ℕ}
    (hp' : home p' = some (place u b' k')) :
    put mem' p (index v b k) e p' (index u b' k') = mem' p' (index u b' k') := by
  rw [put_apply, if_neg]
  rintro ⟨rfl, hi⟩
  obtain ⟨rfl, rfl, habove⟩ := place_inj hp' hp
  exact hu (div_congr_of_index (ht.fits hp).2 habove hi)

/-- … and none by which a walk comes to that table. -/
theorem put_of_left_lt (hp : home p = some (place v b k)) {p' : P} {b' k' i : ℕ}
    (hp' : home p' = some (place u b' k')) (hlt : b < b') : put mem p i e p' (index u b' k') =
      mem p' (index u b' k') := by
  refine put_of_ne ?_
  rintro rfl
  exact absurd (place_inj hp' hp).1 (Nat.ne_of_gt hlt)

/-- **An entry on the way of a key is replaced** by a leaf, or by nothing: the places stay, … -/
theorem Tree.put (ht : R.Tree mem home) (h : R.Arrives mem v p b k) (hv : v < 2 ^ R.left)
    (he : ∀ q j, R.slot (b - k) e ≠ .down q j) : R.Tree (Radix.put mem p (index v b k) e) home := by
  refine ⟨ht.root, ht.fits, ?_⟩
  intro p' b' k' x i q j hp' hi hdown
  rw [put_apply] at hdown
  split at hdown
  · next hboth =>
    obtain ⟨rfl, rfl⟩ := hboth
    obtain ⟨rfl, rfl, -⟩ := Option.some.inj (hp'.symm.trans (h.placed ht hv))
    exact absurd hdown (he q j)
  · exact ht.down hp' hi hdown

/-- … other keys find what they found, … -/
theorem Tree.same_put (ht : R.Tree mem home) (h : R.Arrives mem v p b k) (hv : v < 2 ^ R.left)
    (hu : u < 2 ^ R.left) (hne : u / 2 ^ (b - k) ≠ v / 2 ^ (b - k)) :
    R.Same mem u (Radix.put mem p (index v b k) e) :=
  ht.same hu fun _ _ _ hp' => ht.put_of_div_ne (h.placed ht hv) hne hp'

/-- … and those of the entry find it. -/
theorem Tree.find_put (ht : R.Tree mem home) (h : R.Arrives mem v p b k) (hv : v < 2 ^ R.left)
    (hu : u < 2 ^ R.left) (heq : u / 2 ^ (b - k) = v / 2 ^ (b - k))
    (he : ∀ q j, R.slot (b - k) e ≠ .down q j) : R.find (Radix.put mem p (index v b k) e) u =
      match R.slot (b - k) e with
      | .leaf => some (p, index v b k)
      | _ => none := by
  have hhome := h.placed ht hv
  have harr := h.congr (div_congr (Nat.sub_le b k) heq)
  have harr' : R.Arrives (Radix.put mem p (index v b k) e) u p b k :=
    harr.congr_mem ht hu fun p' b' k' hp' hlt => put_of_left_lt hhome hp' hlt
  rw [harr'.find (ht.put h hv he) hu, walk, index_congr heq, put_self]
  cases hslot : R.slot (b - k) e with
  | leaf => rfl
  | empty => rfl
  | down q j => exact absurd hslot (he q j)

/-- **An empty table is hung under an empty entry**: it has its place, … -/
theorem Tree.hang (ht : R.Tree mem home) (h : R.Arrives mem v p b k) (hv : v < 2 ^ R.left)
    (hq : home q = none) (hz : R.slot (b - k - j) z = .empty) (he : R.slot (b - k) e = .down q j)
    (hj : 0 < j ∧ j ≤ b - k) : R.Tree (Radix.put (update mem q fun _ => z) p (index v b k) e)
      (update home q (some (place v (b - k) j))) := by
  have hhome := h.placed ht hv
  have hold {p' : P} {x : Place} (hp' : home p' = some x) :
      update home q (some (place v (b - k) j)) p' = some x := by
    rw [update_of_ne (ne_of_home hq hp'), hp']
  refine ⟨hold ht.root, ?_, ?_⟩
  · intro p' b' k' x hp'
    by_cases hpq : p' = q
    · rw [hpq, update_self] at hp'
      obtain ⟨rfl, rfl, -⟩ := hp'
      exact hj
    · rw [update_of_ne hpq] at hp'
      exact ht.fits hp'
  · intro p' b' k' x i q' j' hp' hi hdown
    by_cases hpq : p' = q
    · subst hpq
      rw [update_self] at hp'
      obtain ⟨rfl, rfl, -⟩ := hp'
      rw [put_of_ne (ne_of_home hq hhome).symm, update_self, hz] at hdown
      cases hdown
    · rw [update_of_ne hpq] at hp'
      rw [put_apply, update_of_ne hpq] at hdown
      split at hdown
      · next hboth =>
        obtain ⟨rfl, rfl⟩ := hboth
        obtain ⟨rfl, rfl, rfl⟩ := Option.some.inj (hp'.symm.trans hhome)
        obtain ⟨rfl, rfl⟩ := Slot.down.inj (he.symm.trans hdown)
        rw [update_self, div_eq (ht.fits hhome).2, place]
      · exact hold (ht.down hp' hi hdown)

/-- … the walk comes to it, … -/
theorem Arrives.hang (h : R.Arrives mem v p b k) (ht : R.Tree mem home) (hv : v < 2 ^ R.left)
    (hq : home q = none) (he : R.slot (b - k) e = .down q j) :
    R.Arrives (Radix.put (update mem q fun _ => z) p (index v b k) e) v q (b - k) j := by
  have hhome := h.placed ht hv
  have harr : R.Arrives (Radix.put (update mem q fun _ => z) p (index v b k) e) v p b k := by
    refine h.congr_mem ht hv fun p' b' k' hp' hlt => ?_
    rw [put_of_left_lt hhome hp' hlt, update_of_ne (ne_of_home hq hp')]
  exact harr.down (by rwa [put_self])

/-- … and all keys find what they found. -/
theorem Tree.same_hang (ht : R.Tree mem home) (h : R.Arrives mem v p b k) (hv : v < 2 ^ R.left)
    (hempty : R.slot (b - k) (mem p (index v b k)) = .empty) (hq : home q = none)
    (hz : R.slot (b - k - j) z = .empty) (he : R.slot (b - k) e = .down q j)
    (hj : 0 < j ∧ j ≤ b - k) (hu : u < 2 ^ R.left) :
    R.Same mem u (Radix.put (update mem q fun _ => z) p (index v b k) e) := by
  have hhome := h.placed ht hv
  by_cases heq : u / 2 ^ (b - k) = v / 2 ^ (b - k)
  · -- the key found nothing at the entry, and finds nothing in the table
    have harr := h.congr (div_congr (Nat.sub_le b k) heq)
    have hnone : R.find mem u = none := by
      rw [harr.find ht hu, walk, index_congr heq, hempty]
    have hhang := ht.hang h hv hq hz he hj
    have harr' := (h.hang (z := z) ht hv hq he).congr heq
    refine ⟨?_, fun l hl => ?_⟩
    · rw [hnone, harr'.find hhang hu, walk, put_of_ne (ne_of_home hq hhome).symm, update_self, hz]
    · rw [hnone] at hl
      cases hl
  · refine ht.same hu fun p' b' k' hp' => ?_
    rw [ht.put_of_div_ne hhome heq hp', update_of_ne (ne_of_home hq hp')]

end Put

end Radix

end H2
