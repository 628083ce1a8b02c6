import H2.Machinery.Ring

/-!
# Util/Ring — the rings of the kernel

`ring.ref.c` function by function.  On any family of rings that read as disjoint lists, each
function is the operation on the lists that its name says, and writes no field of a node outside the
rings it was given (`ring_refines`). -/

namespace H2.Ring

open Function List

variable {ρ ι : Type*} [DecidableEq ι] {R : Rings ρ ι} {L : ρ → List ι} {r : ρ} {n : ι}

/-- `H2K_ring_next_real`. -/
def ringNextReal (ring : Option ι) (node : ι) (R : Rings ρ ι) : Option ι :=
  if R.links.next node = ring then none else R.links.next node

theorem ringNextReal_eq (hR : R.Rep L) {A B : List ι} (hL : L r = A ++ n :: B) :
    ringNextReal (R.head r) n R = B.head? := by
  have hring : IsRing R.links (R.head r) (A ++ n :: B) := hL ▸ hR.ring r
  obtain ⟨-, b, hb, hnb, -⟩ := hring.neighbours
  rw [ringNextReal, hnb, hring.head]
  cases B with
  | nil =>
    -- the last node is followed by the first
    exact if_pos hb.symm
  | cons c B =>
    obtain rfl : c = b := Option.some.inj hb
    refine if_neg fun hc => ?_
    have hnd := hring.nodup
    cases A <;> simp_all

variable [DecidableEq ρ]

/-- `H2K_ring_remove_real`. -/
def ringRemoveReal (ring : ρ) (node : ι) (R : Rings ρ ι) : Rings ρ ι := R.remove ring node

/-- `H2K_ring_insert_real`. -/
def ringInsertReal (ring : ρ) (node : ι) (R : Rings ρ ι) : Rings ρ ι := R.insert ring node

/-- `H2K_ring_append_real`. -/
def ringAppendReal (ring : ρ) (node : ι) (R : Rings ρ ι) : Rings ρ ι := R.append ring node

/-- `H2K_ring_remove_append_real`. -/
def ringRemoveAppendReal (fromring toring : ρ) (node : ι) (R : Rings ρ ι) : Rings ρ ι :=
  let l := R.links.unlink node
  let head :=
    if R.head fromring = some node then
      update R.head fromring (if l.next node = some node then none else l.next node)
    else R.head
  match head toring with
  | none => ⟨l.linkSelf node, update head toring (some node)⟩
  | some h => ⟨l.linkBefore node h, head⟩

/-- Moving a node is removing it, then appending it: the head of the destination is read after
that of the source was written, so the two may be one. -/
theorem ringRemoveAppendReal_eq (fromring toring : ρ) (node : ι) (R : Rings ρ ι) :
    ringRemoveAppendReal fromring toring node R = (R.remove fromring node).append toring node := by
  by_cases h : R.head fromring = some node
  · simp only [ringRemoveAppendReal, Rings.remove, if_pos h]
    rfl
  · simp only [ringRemoveAppendReal, Rings.remove, if_neg h]
    rfl

/-- The lists after a node has moved. -/
def moved (r r' : ρ) (n : ι) (L : ρ → List ι) : ρ → List ι :=
  let L := update L r ((L r).erase n)
  update L r' (L r' ++ [n])

/-- The rings `R'` read as `L`, and no field of a node outside `xs` differs. -/
def Becomes (R : Rings ρ ι) (xs : List ι) (R' : Rings ρ ι) (L : ρ → List ι) : Prop :=
  R'.Rep L ∧ ∀ x ∉ xs, R'.links.next x = R.links.next x ∧ R'.links.prev x = R.links.prev x

/-- A moved node: out of its ring, and behind the last of the other. -/
theorem ringRemoveAppendReal_spec (hR : R.Rep L) (hn : n ∈ L r) (r' : ρ) :
    Becomes R (L r ++ L r') (ringRemoveAppendReal r r' n R) (moved r r' n L) := by
  have hfree : ∀ q, n ∉ update L r ((L r).erase n) q := fun q => by
    by_cases hq : q = r
    · subst hq
      rw [update_self]
      exact (hR.ring q).nodup.not_mem_erase
    · rw [update_of_ne hq]
      exact fun h => hR.disjoint q r hq h hn
  have hrem := hR.remove hn
  rw [ringRemoveAppendReal_eq]
  refine ⟨hrem.append r' hfree, fun x hx => ?_⟩
  obtain ⟨hxr, hxr'⟩ := not_or.mp (mem_append.not.mp hx)
  have hxr'' : x ∉ update L r ((L r).erase n) r' := by
    by_cases hq : r' = r
    · subst hq
      rw [update_self]
      exact fun h => hxr (mem_of_mem_erase h)
    · rwa [update_of_ne hq]
  obtain ⟨hnext, hprev⟩ := hrem.append_frame r' (hfree r') hxr'' fun e => hxr (e ▸ hn)
  obtain ⟨hnext', hprev'⟩ := hR.remove_frame hn hxr
  exact ⟨hnext.trans hnext', hprev.trans hprev'⟩

/-- **The ring primitives refine lists**: appending, inserting, removing and moving a node, and
stepping to the next one. -/
theorem ring_refines (hR : R.Rep L) : (∀ r n, (∀ r', n ∉ L r') →
      Becomes R (n :: L r) (ringAppendReal r n R) (update L r (L r ++ [n])) ∧
      Becomes R (n :: L r) (ringInsertReal r n R) (update L r (n :: L r))) ∧
    (∀ r, ∀ n ∈ L r, Becomes R (L r) (ringRemoveReal r n R) (update L r ((L r).erase n)) ∧
      ∀ r', Becomes R (L r ++ L r') (ringRemoveAppendReal r r' n R) (moved r r' n L)) ∧
    ∀ r A n B, L r = A ++ n :: B → ringNextReal (R.head r) n R = B.head? := by
  refine ⟨fun r n hn => ⟨⟨hR.append r hn, fun x hx => ?_⟩, hR.insert r hn, fun x hx => ?_⟩,
    fun r n hn => ⟨⟨hR.remove hn, fun x hx => hR.remove_frame hn hx⟩,
      ringRemoveAppendReal_spec hR hn⟩, fun r A n B hL => ringNextReal_eq hR hL⟩
  · obtain ⟨hxn, hxr⟩ := not_or.mp (mem_cons.not.mp hx)
    exact hR.append_frame r (hn r) hxr hxn
  · obtain ⟨hxn, hxr⟩ := not_or.mp (mem_cons.not.mp hx)
    exact hR.insert_frame r (hn r) hxr hxn

/-- A ring of three nodes and one of two. -/
def twoRings : Rings Bool ℕ where
  links := ⟨fun x => [1, 2, 0, 4, 3][x]?, fun x => [2, 0, 1, 4, 3][x]?⟩
  head r := some (if r then 3 else 0)

/-- A node from the middle of the first, moved to the end of the second. -/
theorem ring_refines_two :
    (ringRemoveAppendReal false true 1 twoRings).Rep fun r => if r then [3, 4, 1] else [0, 2] := by
  have hR : twoRings.Rep fun r => if r then [3, 4] else [0, 1, 2] := by
    refine ⟨fun r => ?_, fun r r' hne => ?_⟩
    · cases r <;> exact ⟨rfl, by decide, by simp [twoRings, Links.Linked]⟩
    · cases r <;> cases r' <;> simp at hne ⊢
  have h := (((ring_refines hR).2.1 false 1 (by decide)).2 true).1
  convert h using 1
  funext r
  cases r <;> rfl

end H2.Ring
