import Mathlib.Data.List.Cycle

/-!
# Machinery/Ring — intrusive circular lists

A node carries its own `next` and `prev`; a ring is known by a head cell that names one of its
nodes, and many rings share the one pair of link fields.  `IsRing` reads a ring as a list without
repetition, `Rings.Rep` a whole family of rings as a family of disjoint lists, and each pointer
operation acts on the lists as its name says (`Rep.append`, `Rep.insert`, `Rep.remove`, …).

The cyclic order is Mathlib's `Cycle.Chain`, so the position of the head plays no part in the
linking arguments: every insertion is an insertion in front of *some* node (`chain_linkBefore`),
every removal a removal of the front node (`chain_unlink`).
-/

namespace H2

open Function List

variable {ι ρ : Type*}

/-! ## Chains

A chain of links reads `next` off all its nodes but the last, and `prev` off all but the first. -/

/-- Transport of a chain between relations that agree where the chain reads them. -/
theorem isChain_imp_inner {R S : ι → ι → Prop} : ∀ {l : List ι}, l.Nodup →
    (∀ x ∈ l, ∀ y ∈ l, l.getLast? ≠ some x → l.head? ≠ some y → R x y → S x y) →
    l.IsChain R → l.IsChain S
  | [], _, _, _ => isChain_nil
  | [_], _, _, _ => isChain_singleton _
  | x :: y :: l, hnd, hRS, h => by
      obtain ⟨hxy, htail⟩ := isChain_cons_cons.mp h
      have hx : x ∉ y :: l := (nodup_cons.mp hnd).1
      have hlast : (x :: y :: l).getLast? = (y :: l).getLast? := getLast?_cons_cons
      refine isChain_cons_cons.mpr ⟨hRS x (by simp) y (by simp) ?_ ?_ hxy, ?_⟩
      · intro he
        exact hx (mem_of_getLast? he)
      · intro he
        exact hx (Option.some.inj he ▸ mem_cons_self)
      · refine isChain_imp_inner (nodup_cons.mp hnd).2 (fun u hu v hv hul hvh huv => ?_) htail
        refine hRS u (mem_cons_of_mem _ hu) v (mem_cons_of_mem _ hv) ?_ ?_ huv
        · rwa [hlast]
        · intro he
          exact hx (Option.some.inj he ▸ hv)

/-- A cycle read from one of its nodes: the nodes in order, then back to the first. -/
theorem chain_cons_iff {R : ι → ι → Prop} {b : ι} {m : List ι} {a : ι}
    (ha : (b :: m).getLast? = some a) :
    Cycle.Chain R (b :: m : List ι) ↔ (b :: m).IsChain R ∧ R a b := by
  rw [Cycle.chain_coe_cons, ← cons_append, isChain_append]
  constructor
  · rintro ⟨h, -, hab⟩
    exact ⟨h, hab a (by rw [ha]; rfl) b rfl⟩
  · rintro ⟨h, hab⟩
    refine ⟨h, isChain_singleton _, fun x hx y hy => ?_⟩
    rw [ha] at hx
    cases hx
    cases hy
    exact hab

/-! ## One ring -/

/-- The two link fields of every node. -/
structure Links (ι : Type*) where
  next : ι → Option ι
  prev : ι → Option ι

/-- `a` is followed by `b`. -/
def Links.Linked (l : Links ι) (a b : ι) : Prop := l.next a = some b ∧ l.prev b = some a

/-- The ring whose head cell holds `h` is the list `xs`, read from the head. -/
structure IsRing (l : Links ι) (h : Option ι) (xs : List ι) : Prop where
  head : h = xs.head?
  nodup : xs.Nodup
  chain : Cycle.Chain l.Linked (xs : Cycle ι)

namespace IsRing

variable {l l' : Links ι} {h : Option ι} {xs A B : List ι} {n : ι}

theorem nil (l : Links ι) : IsRing l none [] := ⟨rfl, nodup_nil, Cycle.Chain.nil _⟩

/-- A ring survives any change to the fields of other nodes. -/
theorem congr (hr : IsRing l h xs) (hnext : ∀ x ∈ xs, l'.next x = l.next x)
    (hprev : ∀ x ∈ xs, l'.prev x = l.prev x) : IsRing l' h xs := by
  refine ⟨hr.head, hr.nodup, ?_⟩
  rcases xs with - | ⟨b, m⟩
  · exact Cycle.Chain.nil _
  · have hchain := hr.chain
    refine hchain.imp_of_mem_imp fun x y hx hy hxy => ?_
    have hmem {z : ι} (hz : z ∈ b :: (m ++ [b])) : z ∈ b :: m := by
      simpa [or_comm] using hz
    exact ⟨by rw [hnext x (hmem hx), hxy.1], by rw [hprev y (hmem hy), hxy.2]⟩

/-- Reading a ring from another of its nodes. -/
theorem chain_rotate (hr : IsRing l h (A ++ B)) : Cycle.Chain l.Linked (B ++ A : List ι) := by
  have hrot : ((A ++ B : List ι) : Cycle ι) = (B ++ A : List ι) :=
    Cycle.coe_eq_coe.mpr isRotated_append
  exact hrot ▸ hr.chain

/-- A member has a neighbour on either side, and they are members. -/
theorem neighbours (hr : IsRing l h (A ++ n :: B)) :
    (∃ a ∈ A ++ n :: B, l.Linked a n) ∧ ∃ b, (B ++ A ++ [n]).head? = some b ∧ l.Linked n b := by
  have hchain : Cycle.Chain l.Linked (n :: (B ++ A) : List ι) := hr.chain_rotate
  obtain ⟨a, ha⟩ : ∃ a, (n :: (B ++ A)).getLast? = some a := Option.isSome_iff_exists.mp (by simp)
  refine ⟨⟨a, ?_, ((chain_cons_iff ha).mp hchain).2⟩, ?_⟩
  · have hmem := mem_of_getLast? ha
    simp only [mem_cons, mem_append] at hmem ⊢
    tauto
  · rw [Cycle.chain_coe_cons] at hchain
    rcases hBA : B ++ A ++ [n] with - | ⟨b, m⟩
    · simp at hBA
    · rw [hBA] at hchain
      exact ⟨b, rfl, (isChain_cons_cons.mp hchain).1⟩

theorem prev_mem (hr : IsRing l h xs) (hn : n ∈ xs) : ∃ a ∈ xs, l.Linked a n := by
  obtain ⟨A, B, rfl⟩ := append_of_mem hn
  exact hr.neighbours.1

theorem next_mem (hr : IsRing l h xs) (hn : n ∈ xs) : ∃ b ∈ xs, l.Linked n b := by
  obtain ⟨A, B, rfl⟩ := append_of_mem hn
  obtain ⟨b, hb, hlink⟩ := hr.neighbours.2
  have hmem := mem_of_mem_head? hb
  refine ⟨b, ?_, hlink⟩
  simp only [mem_append, mem_cons] at hmem ⊢
  tauto

end IsRing

/-! ## Stacks on the same fields

A free list is threaded through `next` alone and ends in a null pointer. -/

/-- The stack whose top cell holds `h` is the list `xs`. -/
def IsStack (l : Links ι) : Option ι → List ι → Prop
  | h, [] => h = none
  | h, x :: xs => h = some x ∧ IsStack l (l.next x) xs

namespace IsStack

variable {l l' : Links ι}

/-- A stack survives any change to the fields of other nodes. -/
theorem congr : ∀ {h : Option ι} {xs : List ι}, IsStack l h xs →
    (∀ x ∈ xs, l'.next x = l.next x) → IsStack l' h xs
  | _, [], hs, _ => hs
  | _, x :: xs, hs, hnext => by
      refine ⟨hs.1, ?_⟩
      rw [hnext x mem_cons_self]
      exact congr hs.2 fun y hy => hnext y (mem_cons_of_mem x hy)

theorem pop {n : ι} : ∀ {xs : List ι}, IsStack l (some n) xs →
    ∃ ys, xs = n :: ys ∧ IsStack l (l.next n) ys
  | [], hs => absurd hs (by simp [IsStack])
  | x :: ys, hs => by
      obtain ⟨hx, hys⟩ := hs
      cases hx
      exact ⟨ys, rfl, hys⟩

end IsStack

/-! ## Writing the link fields -/

variable [dι : DecidableEq ι]

namespace Links

def setNext (a : ι) (v : Option ι) (l : Links ι) : Links ι :=
  { l with next := update l.next a v }

def setPrev (a : ι) (v : Option ι) (l : Links ι) : Links ι :=
  { l with prev := update l.prev a v }

/-- `p->next = v` through a pointer; nothing is written through a null one. -/
def setNextOf (p : Option ι) (v : Option ι) (l : Links ι) : Links ι :=
  p.elim l fun a => l.setNext a v

/-- `p->prev = v` through a pointer; nothing is written through a null one. -/
def setPrevOf (p : Option ι) (v : Option ι) (l : Links ι) : Links ι :=
  p.elim l fun a => l.setPrev a v

section Fields

variable (l : Links ι) (a x : ι) (v : Option ι)

@[simp] theorem next_setNext : (l.setNext a v).next x = if x = a then v else l.next x :=
  update_apply ..

@[simp] theorem prev_setNext : (l.setNext a v).prev = l.prev := rfl

@[simp] theorem prev_setPrev : (l.setPrev a v).prev x = if x = a then v else l.prev x :=
  update_apply ..

@[simp] theorem next_setPrev : (l.setPrev a v).next = l.next := rfl

@[simp] theorem setNextOf_some : l.setNextOf (some a) v = l.setNext a v := rfl

@[simp] theorem setPrevOf_some : l.setPrevOf (some a) v = l.setPrev a v := rfl

end Fields

/-- Make `n` a ring of its own. -/
def linkSelf (n : ι) (l : Links ι) : Links ι := (l.setNext n (some n)).setPrev n (some n)

/-- Link `n` in front of `b`. -/
def linkBefore (n b : ι) (l : Links ι) : Links ι :=
  let l := l.setNext n (some b)
  let l := l.setPrev n (l.prev b)
  let l := l.setNextOf (l.prev n) (some n)
  l.setPrevOf (l.next n) (some n)

/-- Take `n` out from between its neighbours; its own fields keep their values. -/
def unlink (n : ι) (l : Links ι) : Links ι :=
  let l := l.setNextOf (l.prev n) (l.next n)
  l.setPrevOf (l.next n) (l.prev n)

section Effect

variable {l : Links ι} {a b n x : ι}

theorem next_linkBefore (hprev : l.prev b = some a) (hna : n ≠ a) :
    (l.linkBefore n b).next x = if x = a then some n else if x = n then some b else l.next x := by
  simp [linkBefore, hprev, hna]

theorem prev_linkBefore (hprev : l.prev b = some a) (hna : n ≠ a) :
    (l.linkBefore n b).prev x = if x = b then some n else if x = n then some a else l.prev x := by
  simp [linkBefore, hprev, hna]

theorem next_unlink (han : l.prev n = some a) (hnb : l.next n = some b) :
    (l.unlink n).next x = if x = a then some b else l.next x := by
  by_cases hna : n = a
  · subst hna
    simp [unlink, han, hnb]
  · simp [unlink, han, hnb]

theorem prev_unlink (han : l.prev n = some a) (hnb : l.next n = some b) :
    (l.unlink n).prev x = if x = b then some a else l.prev x := by
  by_cases hna : n = a
  · subst hna
    simp [unlink, han, hnb]
  · simp [unlink, han, hnb]

end Effect

end Links

open Links

theorem IsStack.push {l : Links ι} {h : Option ι} {xs : List ι} (hs : IsStack l h xs) {n : ι}
    (hn : n ∉ xs) : IsStack (l.setNext n h) (some n) (n :: xs) := by
  refine ⟨rfl, ?_⟩
  rw [next_setNext, if_pos rfl]
  refine hs.congr fun x hx => ?_
  have hxn : x ≠ n := fun e => hn (e ▸ hx)
  rw [next_setNext, if_neg hxn]

section Linking

variable {l : Links ι} {n b : ι} {m : List ι}

theorem chain_linkSelf (l : Links ι) (n : ι) :
    Cycle.Chain (l.linkSelf n).Linked ([n] : List ι) := by
  simp [Linked, linkSelf]

/-- **Linking in front of a node** puts the new node there, whatever the cycle. -/
theorem chain_linkBefore (h : Cycle.Chain l.Linked (b :: m : List ι)) (hnd : (b :: m).Nodup)
    (hn : n ∉ b :: m) : Cycle.Chain (l.linkBefore n b).Linked (n :: b :: m : List ι) := by
  obtain ⟨a, ha⟩ : ∃ a, (b :: m).getLast? = some a := Option.isSome_iff_exists.mp (by simp)
  obtain ⟨hchain, hab⟩ := (chain_cons_iff ha).mp h
  have hnb : n ≠ b := fun e => hn (e ▸ mem_cons_self)
  have hna : n ≠ a := fun e => hn (e ▸ mem_of_getLast? ha)
  have ha' : (n :: b :: m).getLast? = some a := by rw [getLast?_cons_cons, ha]
  rw [chain_cons_iff ha', isChain_cons_cons]
  refine ⟨⟨?_, ?_⟩, ?_⟩
  · exact ⟨by simp [next_linkBefore hab.2 hna, hna], by simp [prev_linkBefore hab.2 hna]⟩
  · refine isChain_imp_inner hnd (fun x hx y hy hxl hyh hxy => ?_) hchain
    have hxa : x ≠ a := fun e => hxl (e ▸ ha)
    have hyb : y ≠ b := fun e => hyh (by rw [e]; rfl)
    have hxn : x ≠ n := fun e => hn (e ▸ hx)
    have hyn : y ≠ n := fun e => hn (e ▸ hy)
    exact ⟨by rw [next_linkBefore hab.2 hna, if_neg hxa, if_neg hxn, hxy.1],
      by rw [prev_linkBefore hab.2 hna, if_neg hyb, if_neg hyn, hxy.2]⟩
  · exact ⟨by simp [next_linkBefore hab.2 hna], by simp [prev_linkBefore hab.2 hna, hnb]⟩

/-- **Unlinking a node** leaves the rest of its cycle. -/
theorem chain_unlink (h : Cycle.Chain l.Linked (n :: m : List ι)) (hnd : (n :: m).Nodup) :
    Cycle.Chain (l.unlink n).Linked (m : List ι) := by
  rcases m with - | ⟨b, m⟩
  · exact Cycle.Chain.nil _
  obtain ⟨a, ha⟩ : ∃ a, (b :: m).getLast? = some a := Option.isSome_iff_exists.mp (by simp)
  have ha' : (n :: b :: m).getLast? = some a := by rw [getLast?_cons_cons, ha]
  obtain ⟨hchain, han⟩ := (chain_cons_iff ha').mp h
  obtain ⟨hnb, hrest⟩ := isChain_cons_cons.mp hchain
  rw [chain_cons_iff ha]
  refine ⟨isChain_imp_inner (nodup_cons.mp hnd).2 (fun x _ y _ hxl hyh hxy => ?_) hrest, ?_⟩
  · have hxa : x ≠ a := fun e => hxl (e ▸ ha)
    have hyb : y ≠ b := fun e => hyh (by rw [e]; rfl)
    exact ⟨by rw [next_unlink han.2 hnb.1, if_neg hxa, hxy.1],
      by rw [prev_unlink han.2 hnb.1, if_neg hyb, hxy.2]⟩
  · exact ⟨by simp [next_unlink han.2 hnb.1], by simp [prev_unlink han.2 hnb.1]⟩

theorem linkBefore_frame {h : Option ι} {xs : List ι} (hr : IsRing l h xs) (hb : b ∈ xs)
    (hn : n ∉ xs) {x : ι} (hx : x ∉ xs) (hxn : x ≠ n) :
    (l.linkBefore n b).next x = l.next x ∧ (l.linkBefore n b).prev x = l.prev x := by
  obtain ⟨a, ha, hab⟩ := hr.prev_mem hb
  have hna : n ≠ a := fun e => hn (e ▸ ha)
  have hxa : x ≠ a := fun e => hx (e ▸ ha)
  have hxb : x ≠ b := fun e => hx (e ▸ hb)
  exact ⟨by rw [next_linkBefore hab.2 hna, if_neg hxa, if_neg hxn],
    by rw [prev_linkBefore hab.2 hna, if_neg hxb, if_neg hxn]⟩

theorem unlink_frame {h : Option ι} {xs : List ι} (hr : IsRing l h xs) (hn : n ∈ xs) {x : ι}
    (hx : x ∉ xs) : (l.unlink n).next x = l.next x ∧ (l.unlink n).prev x = l.prev x := by
  obtain ⟨a, ha, han⟩ := hr.prev_mem hn
  obtain ⟨b, hb, hnb⟩ := hr.next_mem hn
  have hxa : x ≠ a := fun e => hx (e ▸ ha)
  have hxb : x ≠ b := fun e => hx (e ▸ hb)
  exact ⟨by rw [next_unlink han.2 hnb.1, if_neg hxa], by rw [prev_unlink han.2 hnb.1, if_neg hxb]⟩

end Linking

/-! ## Families of rings -/

/-- Head cells `ρ` over nodes `ι` that share their link fields. -/
structure Rings (ρ ι : Type*) where
  links : Links ι
  head : ρ → Option ι

namespace Rings

variable [dρ : DecidableEq ρ]

/-- Put `n` last in the ring of `r`. -/
def append (r : ρ) (n : ι) (R : Rings ρ ι) : Rings ρ ι :=
  match R.head r with
  | none => ⟨R.links.linkSelf n, update R.head r (some n)⟩
  | some h => ⟨R.links.linkBefore n h, R.head⟩

/-- Put `n` first in the ring of `r`. -/
def insert (r : ρ) (n : ι) (R : Rings ρ ι) : Rings ρ ι :=
  match R.head r with
  | none => ⟨R.links.linkSelf n, update R.head r (some n)⟩
  | some h => ⟨R.links.linkBefore n h, update R.head r (some n)⟩

/-- Take `n` out of the ring of `r`. -/
def remove (r : ρ) (n : ι) (R : Rings ρ ι) : Rings ρ ι :=
  let links := R.links.unlink n
  if R.head r = some n then
    ⟨links, update R.head r (if links.next n = some n then none else links.next n)⟩
  else ⟨links, R.head⟩

/-- The heads of other rings stay. -/
theorem head_append_of_ne {r r' : ρ} (h : r' ≠ r) (n : ι) (R : Rings ρ ι) :
    (R.append r n).head r' = R.head r' := by
  unfold append
  split <;> simp [h]

theorem head_remove_of_ne {r r' : ρ} (h : r' ≠ r) (n : ι) (R : Rings ρ ι) :
    (R.remove r n).head r' = R.head r' := by
  unfold remove
  split <;> simp [h]

/-- The family reads as the lists `L`. -/
structure Rep (R : Rings ρ ι) (L : ρ → List ι) : Prop where
  ring : ∀ r, IsRing R.links (R.head r) (L r)
  disjoint : ∀ r r', r ≠ r' → (L r).Disjoint (L r')

namespace Rep

variable {R : Rings ρ ι} {L : ρ → List ι} {r : ρ} {n : ι}

omit dι in
/-- Changing one ring of a family: it is enough that the fields of nodes outside it, the new node
apart, keep their values. -/
theorem update_ring (hR : R.Rep L) {links : Links ι} {h : Option ι} {xs : List ι}
    (hring : IsRing links h xs) (hmem : ∀ x ∈ xs, x ∈ L r ∨ x = n) (hn : ∀ r', r' ≠ r → n ∉ L r')
    (hframe : ∀ x, x ∉ L r → x ≠ n →
      links.next x = R.links.next x ∧ links.prev x = R.links.prev x) :
    Rep ⟨links, update R.head r h⟩ (update L r xs) := by
  have hout {r' : ρ} (hr : r' ≠ r) {x : ι} (hx : x ∈ L r') : x ∉ L r ∧ x ≠ n :=
    ⟨fun hx' => hR.disjoint r' r hr hx hx', fun e => hn r' hr (e ▸ hx)⟩
  constructor
  · intro r'
    by_cases hr : r' = r
    · subst hr
      simpa using hring
    · simp only [update_of_ne hr]
      exact (hR.ring r').congr (fun x hx => (hframe x (hout hr hx).1 (hout hr hx).2).1)
        fun x hx => (hframe x (hout hr hx).1 (hout hr hx).2).2
  · have hdis {r' : ρ} (hr : r' ≠ r) : (L r').Disjoint xs := fun x hx hx' =>
      (hmem x hx').elim (hout hr hx).1 (hout hr hx).2
    intro r₁ r₂ hne
    by_cases h₁ : r₁ = r
    · subst h₁
      simpa [update_of_ne hne.symm] using (hdis hne.symm).symm
    · by_cases h₂ : r₂ = r
      · subst h₂
        simpa [update_of_ne hne] using hdis hne
      · simpa [update_of_ne h₁, update_of_ne h₂] using hR.disjoint r₁ r₂ hne

omit dι dρ in
theorem head_eq_none (hR : R.Rep L) : R.head r = none ↔ L r = [] := by
  rw [(hR.ring r).head, head?_eq_none_iff]

/-- **Linking into a ring** in front of the node where `B` starts; the head may move to the new
node when it is put first. -/
theorem linkBefore (hR : R.Rep L) {A B : List ι} {b : ι} {h : Option ι} (hL : L r = A ++ B)
    (hb : (B ++ A).head? = some b) (hn : ∀ r', n ∉ L r') (hh : h = (A ++ n :: B).head?) :
    Rep ⟨R.links.linkBefore n b, update R.head r h⟩
      (update L r (A ++ n :: B)) := by
  have hring : IsRing R.links (R.head r) (A ++ B) := hL ▸ hR.ring r
  have hnr : n ∉ A ++ B := hL ▸ hn r
  have hbmem : b ∈ A ++ B := by
    have := mem_of_mem_head? hb
    simp only [mem_append] at this ⊢
    exact this.symm
  have hchain : Cycle.Chain (R.links.linkBefore n b).Linked (n :: (B ++ A) : List ι) := by
    obtain ⟨m, hm⟩ : ∃ m, B ++ A = b :: m := head?_eq_some_iff.mp hb
    have hnd : (B ++ A).Nodup := nodup_append_comm.mp hring.nodup
    have hn' : n ∉ B ++ A := by simpa [or_comm] using hnr
    have hrot := hring.chain_rotate
    rw [hm] at hrot hnd hn' ⊢
    exact chain_linkBefore hrot hnd hn'
  have hrot : ((A ++ n :: B : List ι) : Cycle ι) = (n :: B ++ A : List ι) :=
    Cycle.coe_eq_coe.mpr isRotated_append
  refine hR.update_ring ⟨hh, ?_, hrot ▸ hchain⟩ (fun x hx => ?_) (fun r' _ => hn r')
    fun x hx hxn => linkBefore_frame hring hbmem hnr (hL ▸ hx) hxn
  · exact nodup_middle.mpr (nodup_cons.mpr ⟨hnr, hring.nodup⟩)
  · rw [hL]
    simp only [mem_append, mem_cons] at hx ⊢
    tauto

theorem linkSelf (hR : R.Rep L) (r : ρ) (hn : ∀ r', n ∉ L r') :
    Rep ⟨R.links.linkSelf n, update R.head r (some n)⟩ (update L r [n]) := by
  refine hR.update_ring ⟨rfl, nodup_singleton n, chain_linkSelf _ n⟩ (fun x hx => ?_)
    (fun r' _ => hn r') fun x _ hxn => ?_
  · exact Or.inr (mem_singleton.mp hx)
  · simp [Links.linkSelf, hxn]

/-- **Append** puts the node last. -/
theorem append (hR : R.Rep L) (r : ρ) (hn : ∀ r', n ∉ L r') :
    (R.append r n).Rep (update L r (L r ++ [n])) := by
  rw [Rings.append]
  split
  · next hh =>
    have hL := hR.head_eq_none.mp hh
    rw [hL]
    exact hR.linkSelf r hn
  · next h hh =>
    have hhead : (L r).head? = some h := (hR.ring r).head ▸ hh
    have hcons : (L r ++ [n]).head? = R.head r := by
      rw [hh]
      simp [hhead]
    have hupd : R.head = update R.head r (L r ++ [n]).head? := by
      rw [hcons, update_eq_self]
    rw [hupd]
    exact hR.linkBefore (by simp) (by simpa using hhead) hn rfl

/-- The fields of nodes in no ring are out of reach of an append… -/
theorem append_frame (hR : R.Rep L) (r : ρ) (hn : n ∉ L r) {x : ι} (hx : x ∉ L r) (hxn : x ≠ n) :
    (R.append r n).links.next x = R.links.next x ∧
      (R.append r n).links.prev x = R.links.prev x := by
  rw [Rings.append]
  split
  · simp [Links.linkSelf, hxn]
  · next h hh =>
    have hmem : h ∈ L r := mem_of_mem_head? ((hR.ring r).head ▸ hh)
    exact linkBefore_frame (hR.ring r) hmem hn hx hxn

/-- **Insert** puts the node first. -/
theorem insert (hR : R.Rep L) (r : ρ) (hn : ∀ r', n ∉ L r') :
    (R.insert r n).Rep (update L r (n :: L r)) := by
  rw [Rings.insert]
  split
  · next hh =>
    have hL := hR.head_eq_none.mp hh
    rw [hL]
    exact hR.linkSelf r hn
  · next h hh =>
    have hhead : (L r).head? = some h := (hR.ring r).head ▸ hh
    exact hR.linkBefore (A := []) rfl (by simpa using hhead) hn rfl

/-- …of an insert… -/
theorem insert_frame (hR : R.Rep L) (r : ρ) (hn : n ∉ L r) {x : ι} (hx : x ∉ L r) (hxn : x ≠ n) :
    (R.insert r n).links.next x = R.links.next x ∧
      (R.insert r n).links.prev x = R.links.prev x := by
  have hlinks : (R.insert r n).links = (R.append r n).links := by
    rw [Rings.insert, Rings.append]
    split <;> rfl
  rw [hlinks]
  exact hR.append_frame r hn hx hxn

/-- **Remove** takes a member out. -/
theorem remove (hR : R.Rep L) (hn : n ∈ L r) : (R.remove r n).Rep (update L r ((L r).erase n)) := by
  obtain ⟨A, B, hL⟩ := append_of_mem hn
  have hring : IsRing R.links (R.head r) (A ++ n :: B) := hL ▸ hR.ring r
  obtain ⟨hnAB, hnd⟩ := nodup_cons.mp (nodup_middle.mp hring.nodup)
  have hnA : n ∉ A := fun h => hnAB (mem_append_left B h)
  have hnB : n ∉ B := fun h => hnAB (mem_append_right A h)
  have herase : (L r).erase n = A ++ B := by
    rw [hL, erase_append_right _ hnA, erase_cons_head]
  obtain ⟨⟨a, -, han⟩, b, hb, hnb⟩ := hring.neighbours
  have hchain : Cycle.Chain (R.links.unlink n).Linked (A ++ B : List ι) := by
    have hrot : ((A ++ B : List ι) : Cycle ι) = (B ++ A : List ι) :=
      Cycle.coe_eq_coe.mpr isRotated_append
    exact hrot ▸ chain_unlink hring.chain_rotate (nodup_append_comm.mp hring.nodup)
  have hkey (h : Option ι) (hh : h = (A ++ B).head?) :
      Rep ⟨R.links.unlink n, update R.head r h⟩ (update L r ((L r).erase n)) := by
    rw [herase]
    refine hR.update_ring ⟨hh, hnd, hchain⟩ (fun x hx => ?_)
      (fun r' hr' hx => hR.disjoint r' r hr' hx hn) fun x hx _ => unlink_frame (hR.ring r) hn hx
    rw [hL]
    simp only [mem_append] at hx ⊢
    tauto
  have hnext : (R.links.unlink n).next n = some b := by
    rw [next_unlink han.2 hnb.1, hnb.1, ite_self]
  rw [Rings.remove, hnext]
  split
  · next hh =>
    -- the head goes: it moves to the next node, unless the ring was that node alone
    obtain rfl : A = [] := by
      rcases A with - | ⟨c, A⟩
      · rfl
      · have hc : c = n := Option.some.inj (hring.head.symm.trans hh)
        exact absurd (hc ▸ mem_cons_self) hnA
    refine hkey _ ?_
    rcases B with - | ⟨c, B⟩
    · obtain rfl : n = b := Option.some.inj hb
      simp
    · obtain rfl : c = b := Option.some.inj hb
      have hcn : c ≠ n := fun e => hnB (e ▸ mem_cons_self)
      simp [hcn]
  · next hh =>
    have hhead : R.head r = (A ++ B).head? := by
      rcases A with - | ⟨c, A⟩
      · exact absurd hring.head hh
      · exact hring.head
    have hupd : R.head = update R.head r (A ++ B).head? := by
      rw [← hhead, update_eq_self]
    rw [hupd]
    exact hkey _ rfl

/-- …and of a removal. -/
theorem remove_frame (hR : R.Rep L) (hn : n ∈ L r) {x : ι} (hx : x ∉ L r) :
    (R.remove r n).links.next x = R.links.next x ∧
      (R.remove r n).links.prev x = R.links.prev x := by
  rw [Rings.remove]
  split <;> exact unlink_frame (hR.ring r) hn hx

end Rep

end Rings

end H2
