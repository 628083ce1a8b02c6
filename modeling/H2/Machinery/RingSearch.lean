import H2.Machinery.Ring

/-!
# Machinery/RingSearch — walking a ring, and linking between two nodes

A walk along `next` gives up when it is back at the head; a walk along `prev` has no such test and
relies on a node that stops it.  Both are fuelled, and return within the length of the ring.

`Rings.Adds` and `Rings.Takes` say what the writes to a family amount to — one node more in one
ring, one node less — whatever the position, and that the `next` fields of nodes outside are kept.
-/

namespace H2

open Function

variable {ι ρ : Type*}

/-! ## Walks -/

section Walks

variable [dι : DecidableEq ι]

/-- Walk along `next` from `cur` to the first node with `p`, giving up back at the head.  Null
pointers are not followed. -/
def Links.seek (l : Links ι) (head : Option ι) (p : ι → Bool) : ℕ → ι → Option (Option ι)
  | 0, _ => none
  | fuel + 1, cur =>
    if p cur then some (some cur)
    else
      match l.next cur with
      | none => none
      | some c => if head = some c then some none else seek l head p fuel c

/-- Walk along `prev` from `cur` to the first node with `p`. -/
def Links.seekBack (l : Links ι) (p : ι → Bool) : ℕ → ι → Option ι
  | 0, _ => none
  | fuel + 1, cur => if p cur then some cur else (l.prev cur).bind (seekBack l p fuel)

variable {l : Links ι} {h : Option ι}

section

omit dι

theorem IsRing.linked {A B : List ι} {a b : ι} (hr : IsRing l h (A ++ a :: b :: B)) :
    l.Linked a b := by
  obtain ⟨-, c, hc, hac⟩ := hr.neighbours
  obtain rfl : b = c := Option.some.inj hc
  exact hac

theorem IsRing.linked_last {A : List ι} {a b : ι} (hr : IsRing l h (A ++ [a]))
    (hb : (A ++ [a]).head? = some b) : l.Linked a b := by
  obtain ⟨-, c, hc, hac⟩ := hr.neighbours
  obtain rfl : b = c := Option.some.inj (hb.symm.trans hc)
  exact hac

/-- The head is not met again before the end. -/
theorem IsRing.head_ne {A B : List ι} {a b : ι} (hr : IsRing l h (A ++ [a] ++ b :: B)) :
    h ≠ some b := by
  intro he
  have hhead := hr.head.symm.trans he
  refine List.disjoint_of_nodup_append hr.nodup (List.mem_of_mem_head? ?_) List.mem_cons_self
  rwa [List.head?_append_of_ne_nil _ (by simp)] at hhead

end

/-- **A forward walk** finds the first match from where it starts to the end of the ring. -/
theorem IsRing.seek {p : ι → Bool} : ∀ {B A : List ι} {c : ι} {n : ℕ}, IsRing l h (A ++ c :: B) →
    (c :: B).length ≤ n → l.seek h p n c = some ((c :: B).find? p)
  | [], A, c, n + 1, hr, _ => by
      have hwrap : h = some ((A ++ [c]).head (by simp)) := by rw [hr.head, List.head?_eq_some_head]
      have hlink := hr.linked_last (hr.head.symm.trans hwrap)
      rw [Links.seek, hlink.1, List.find?_cons]
      cases p c <;> simp [hwrap]
  | b :: B, A, c, n + 1, hr, hn => by
      have hr' : IsRing l h (A ++ [c] ++ b :: B) := by simpa using hr
      rw [Links.seek, hr.linked.1, List.find?_cons]
      cases p c
      · simp only [if_neg hr'.head_ne]
        exact IsRing.seek hr' (by simpa using hn)
      · rfl

omit dι in
/-- **A backward walk** stops at the last match in front of where it starts. -/
theorem IsRing.seekBack {p : ι → Bool} {A : List ι} {a : ι} (ha : p a = true) (B : List ι) :
    ∀ {C : List ι} {n : ℕ} {c : ι}, IsRing l h (A ++ a :: (B ++ C)) → (∀ b ∈ B, p b = false) →
      (a :: B).getLast? = some c → B.length < n → l.seekBack p n c = some a := by
  induction B using List.reverseRecOn with
  | nil =>
    intro C n c hr _ hc hn
    obtain rfl : a = c := Option.some.inj hc
    obtain ⟨n, rfl⟩ := Nat.exists_eq_succ_of_ne_zero (Nat.ne_of_gt hn)
    simp [Links.seekBack, ha]
  | append_singleton B b ih =>
    intro C n c hr hB hc hn
    obtain ⟨n, rfl⟩ := Nat.exists_eq_succ_of_ne_zero (Nat.ne_of_gt (Nat.zero_lt_of_lt hn))
    obtain rfl : b = c := by simpa [List.getLast?_cons] using hc
    obtain ⟨d, hd⟩ : ∃ d, (a :: B).getLast? = some d := Option.isSome_iff_exists.mp (by simp)
    have hlink : l.Linked d b := by
      obtain ⟨D, hD⟩ := List.getLast?_eq_some_iff.mp hd
      have hr' : IsRing l h (A ++ D ++ d :: b :: C) := by
        have : A ++ D ++ d :: b :: C = A ++ (D ++ [d]) ++ b :: C := by simp
        rw [this, ← hD]
        simpa using hr
      exact hr'.linked
    rw [Links.seekBack, hB b (by simp), hlink.2]
    refine ih (by simpa using hr) (fun x hx => hB x (List.mem_append_left _ hx)) hd ?_
    simpa using hn

omit dι in
/-- … and within the ring. -/
theorem IsRing.seekBack_mem {p : ι → Bool} {xs : List ι} (hr : IsRing l h xs) :
    ∀ {n : ℕ} {c t : ι}, c ∈ xs → l.seekBack p n c = some t → t ∈ xs
  | n + 1, c, t, hc, hseek => by
      rw [Links.seekBack] at hseek
      split at hseek
      · exact Option.some.inj hseek ▸ hc
      · obtain ⟨a, ha, hseek⟩ := Option.bind_eq_some_iff.mp hseek
        obtain ⟨a', ha', hlink⟩ := hr.prev_mem hc
        obtain rfl : a = a' := Option.some.inj (ha.symm.trans hlink.2)
        exact hr.seekBack_mem ha' hseek

/-- The nodes met on the way along `next` from `cur` to the head. -/
def Links.readFrom (l : Links ι) (head : Option ι) : ℕ → ι → List ι
  | 0, _ => []
  | fuel + 1, cur =>
    cur :: match l.next cur with
      | none => []
      | some c => if head = some c then [] else readFrom l head fuel c

/-- The ring of a head cell, as a list. -/
def Links.toList (l : Links ι) (fuel : ℕ) (head : Option ι) : List ι :=
  match head with
  | none => []
  | some c => l.readFrom head fuel c

theorem IsRing.readFrom_eq : ∀ {B A : List ι} {c : ι} {n : ℕ}, IsRing l h (A ++ c :: B) →
    (c :: B).length ≤ n → l.readFrom h n c = c :: B
  | [], A, c, n + 1, hr, _ => by
      have hwrap : h = some ((A ++ [c]).head (by simp)) := by rw [hr.head, List.head?_eq_some_head]
      have hlink := hr.linked_last (hr.head.symm.trans hwrap)
      rw [Links.readFrom, hlink.1]
      simp [hwrap]
  | b :: B, A, c, n + 1, hr, hn => by
      have hr' : IsRing l h (A ++ [c] ++ b :: B) := by simpa using hr
      rw [Links.readFrom, hr.linked.1]
      simp only [if_neg hr'.head_ne]
      rw [IsRing.readFrom_eq hr' (by simpa using hn)]

/-- **Reading a ring** gives its list. -/
theorem IsRing.toList_eq {xs : List ι} {n : ℕ} (hr : IsRing l h xs) (hn : xs.length ≤ n) :
    l.toList n h = xs := by
  rcases xs with - | ⟨c, B⟩
  · rw [hr.head]
    rfl
  · have hhead : h = some c := hr.head
    subst hhead
    exact IsRing.readFrom_eq (A := []) hr hn

end Walks

/-! ## Linking between two nodes -/

section LinkBetween

variable [dι : DecidableEq ι]

/-- Link `n` after `a` and before `b`. -/
def Links.linkBetween (n : ι) (a b : Option ι) (l : Links ι) : Links ι :=
  let l := l.setNext n b
  let l := l.setPrev n a
  let l := l.setPrevOf (l.next n) (some n)
  l.setNextOf (l.prev n) (some n)

/-- Between two neighbours, it is linking in front of the second. -/
theorem Links.Linked.linkBetween_eq {l : Links ι} {a b n : ι} (hab : l.Linked a b) (hna : n ≠ a)
    (hnb : n ≠ b) : l.linkBetween n (some a) (some b) = l.linkBefore n b := by
  have hnext : (l.linkBetween n (some a) (some b)).next = (l.linkBefore n b).next := by
    funext x
    rw [next_linkBefore hab.2 hna]
    simp [Links.linkBetween, hnb]
  have hprev : (l.linkBetween n (some a) (some b)).prev = (l.linkBefore n b).prev := by
    funext x
    rw [prev_linkBefore hab.2 hna]
    simp [Links.linkBetween, hnb]
  cases h₁ : l.linkBetween n (some a) (some b)
  cases h₂ : l.linkBefore n b
  simp_all

end LinkBetween

/-! ## Each field read once

An operation that reads a field again after a write reads what it read before: the writes can be
done with the neighbours in registers. -/

namespace Links

variable [dι : DecidableEq ι] {l l' : Links ι}

omit dι in
theorem ext_fields (hnext : ∀ x, l.next x = l'.next x) (hprev : ∀ x, l.prev x = l'.prev x) :
    l = l' := by
  exact congrArg₂ mk (funext hnext) (funext hprev)

variable (l) (n b : ι)

@[simp] theorem prev_setNextOf (p v : Option ι) : (l.setNextOf p v).prev = l.prev := by
  cases p <;> rfl

@[simp] theorem next_setPrevOf (p v : Option ι) : (l.setPrevOf p v).next = l.next := by
  cases p <;> rfl

theorem next_setNextOf_self (p : Option ι) : (l.setNextOf p (l.next n)).next n = l.next n := by
  cases p <;> simp [setNextOf]

theorem unlink_eq :
    l.unlink n = (l.setNextOf (l.prev n) (l.next n)).setPrevOf (l.next n) (l.prev n) := by
  simp only [unlink, next_setNextOf_self, prev_setNextOf]

theorem next_unlink_self : (l.unlink n).next n = l.next n := by
  rw [unlink_eq, next_setPrevOf, next_setNextOf_self]

theorem linkBefore_eq : l.linkBefore n b =
    (((l.setNext n (some b)).setPrev n (l.prev b)).setPrev b (some n)).setNextOf (l.prev b)
      (some n) := by
  rcases hb : l.prev b with - | a
  · simp [linkBefore, hb, setNextOf]
  · by_cases hna : n = a
    · -- in front of its own successor
      refine ext_fields (fun x => ?_) fun x => ?_
      · simp [linkBefore, hb]
      · by_cases hx : x = b <;> simp_all [linkBefore]
    · refine ext_fields (fun x => ?_) fun x => ?_
      · rw [next_linkBefore hb hna]
        simp
      · rw [prev_linkBefore hb hna]
        simp

end Links

theorem Rings.remove_eq [DecidableEq ι] [DecidableEq ρ] (r : ρ) (n : ι) (R : Rings ρ ι) :
    R.remove r n = ⟨(R.links.setNextOf (R.links.prev n) (R.links.next n)).setPrevOf (R.links.next n)
          (R.links.prev n),
        if R.head r = some n then
          update R.head r (if R.links.next n = some n then none else R.links.next n)
        else R.head⟩ := by
  simp only [Rings.remove, ← Links.unlink_eq, Links.next_unlink_self]
  split <;> rfl

/-! ## One node more, one node less -/

namespace Rings

variable [DecidableEq ρ]

/-- `R'` is `R` with `n` put somewhere in the ring of `r`. -/
structure Adds (R R' : Rings ρ ι) (L : ρ → List ι) (r : ρ) (n : ι) : Prop where
  rep : ∃ A B, L r = A ++ B ∧ R'.Rep (update L r (A ++ n :: B))
  frame : ∀ x, x ∉ L r → x ≠ n → R'.links.next x = R.links.next x

variable [dι : DecidableEq ι]

/-- `R'` is `R` with `n` taken out of the ring of `r`. -/
structure Takes (R R' : Rings ρ ι) (L : ρ → List ι) (r : ρ) (n : ι) : Prop where
  rep : R'.Rep (update L r ((L r).erase n))
  frame : ∀ x, x ∉ L r → R'.links.next x = R.links.next x

namespace Rep

variable {R : Rings ρ ι} {L : ρ → List ι} {n : ι}

theorem append_adds (hR : R.Rep L) (r : ρ) (hn : ∀ r', n ∉ L r') : R.Adds (R.append r n) L r n :=
  ⟨⟨L r, [], by simp, hR.append r hn⟩, fun _ hx hxn => (hR.append_frame r (hn r) hx hxn).1⟩

theorem insert_adds (hR : R.Rep L) (r : ρ) (hn : ∀ r', n ∉ L r') : R.Adds (R.insert r n) L r n :=
  ⟨⟨[], L r, by simp, hR.insert r hn⟩, fun _ hx hxn => (hR.insert_frame r (hn r) hx hxn).1⟩

theorem remove_takes {r : ρ} (hR : R.Rep L) (hn : n ∈ L r) : R.Takes (R.remove r n) L r n :=
  ⟨hR.remove hn, fun _ hx => (hR.remove_frame hn hx).1⟩

end Rep

end Rings

end H2
