import Mathlib.Data.List.Nodup

/-!
# Machinery/Chain — singly linked lists, through pointers to pointers

A list is strung from its head through the `next` fields of its nodes.  Code that works on a list
walks with a pointer to the pointer it would change: a `Hook`, which is the head or the `next` field
of the node passed last.  Whatever it does comes down to taking the node a cell points to out of the
list (`Chains.unlink`) and putting one in there (`Chains.link`), with several lists sharing the
nodes.
-/

namespace H2

open Function List

variable {κ ι : Type}

/-- Where a pointer is: the head of a list, or the `next` field of a node. -/
inductive Hook (κ ι : Type) where
  | head (k : κ)
  | next (x : ι)
  deriving DecidableEq

open Hook

/-- The nodes a cell leads to. -/
def Strung (ptr : Hook κ ι → Option ι) : Hook κ ι → List ι → Prop
  | c, [] => ptr c = none
  | c, x :: xs => ptr c = some x ∧ Strung ptr (.next x) xs

/-- The cell behind the nodes `xs`. -/
def Hook.after : Hook κ ι → List ι → Hook κ ι
  | c, [] => c
  | _, x :: xs => (next x).after xs

section Strings

variable {ptr ptr' : Hook κ ι → Option ι} {c : Hook κ ι} {x : ι} {xs ys zs : List ι}

theorem Strung.head? : ∀ {xs : List ι}, Strung ptr c xs → ptr c = xs.head?
  | [], h => h
  | _ :: _, h => h.1

theorem Hook.head_ne_next (k : κ) (x : ι) : head k ≠ .next x := nofun

theorem Hook.after_append : ∀ (c : Hook κ ι) (xs ys : List ι),
    c.after (xs ++ ys) = (c.after xs).after ys
  | _, [], _ => rfl
  | _, x :: xs, ys => after_append (.next x) xs ys

theorem Hook.after_concat (c : Hook κ ι) (xs : List ι) (x : ι) : c.after (xs ++ [x]) = .next x :=
  after_append c xs [x]

/-- The cell behind some nodes is the first, or in one of them. -/
theorem Hook.after_cases : ∀ (c : Hook κ ι) (xs : List ι),
    xs = [] ∧ c.after xs = c ∨ ∃ x ∈ xs, c.after xs = .next x
  | c, [] => .inl ⟨rfl, rfl⟩
  | c, x :: xs => by
      right
      rcases after_cases (.next x : Hook κ ι) xs with ⟨-, h⟩ | ⟨y, hy, h⟩
      · exact ⟨x, mem_cons_self .., h⟩
      · exact ⟨y, mem_cons_of_mem _ hy, h⟩

theorem Strung.drop : ∀ {c : Hook κ ι} {xs : List ι}, Strung ptr c (xs ++ ys) →
    Strung ptr (c.after xs) ys
  | _, [], h => h
  | _, _ :: _, h => h.2.drop

/-- A list stays if its hooks do, and hangs from any other hook that points to its first node. -/
theorem Strung.congr : ∀ {c c' : Hook κ ι} {xs : List ι}, Strung ptr c xs → ptr' c' = ptr c →
    (∀ x ∈ xs, ptr' (.next x) = ptr (.next x)) → Strung ptr' c' xs
  | _, _, [], h, hc, _ => hc.trans h
  | _, _, x :: _, h, hc, hxs =>
      ⟨hc.trans h.1, h.2.congr (hxs x (mem_cons_self ..)) fun y hy =>
        hxs y (mem_cons_of_mem _ hy)⟩

/-- **Another end**: the first nodes stay if all cells do but the one behind them. -/
theorem Strung.splice : ∀ {c : Hook κ ι} {xs : List ι}, Strung ptr c (xs ++ ys) → xs.Nodup →
    (∀ x ∈ xs, c ≠ .next x) →
    (∀ c', c' ≠ c.after xs → c' = c ∨ (∃ x ∈ xs, c' = .next x) → ptr' c' = ptr c') →
    Strung ptr' (c.after xs) zs → Strung ptr' c (xs ++ zs)
  | _, [], _, _, _, _, h' => h'
  | c, x :: xs, h, hnd, hc, hsame, h' => by
      obtain ⟨hx, hnd⟩ := nodup_cons.mp hnd
      have hfirst : c ≠ (next x).after xs := by
        rcases after_cases (.next x : Hook κ ι) xs with ⟨-, heq⟩ | ⟨y, hy, heq⟩
        · rw [heq]
          exact hc x (mem_cons_self ..)
        · rw [heq]
          exact hc y (mem_cons_of_mem _ hy)
      refine ⟨(hsame c hfirst (.inl rfl)).trans h.1, h.2.splice hnd (fun y hy heq => ?_) ?_ h'⟩
      · obtain rfl := next.inj heq
        exact hx hy
      · rintro c' hne (rfl | ⟨y, hy, rfl⟩)
        · exact hsame _ hne (.inr ⟨x, mem_cons_self .., rfl⟩)
        · exact hsame _ hne (.inr ⟨y, mem_cons_of_mem _ hy, rfl⟩)

end Strings

/-! ## Several lists -/

/-- **The lists** that share the nodes. -/
structure Chains (ptr : Hook κ ι → Option ι) (K : κ → List ι) : Prop where
  strung : ∀ k, Strung ptr (.head k) (K k)
  nodup : ∀ k, (K k).Nodup
  disjoint : ∀ {j k x}, x ∈ K j → x ∈ K k → j = k

section Surgery

variable [dκ : DecidableEq κ] [dι : DecidableEq ι] {ptr : Hook κ ι → Option ι} {K : κ → List ι}
  {k : κ} {x : ι} {xs ys : List ι}

section

omit dκ dι

/-- The hook behind some nodes is not in another. -/
theorem Hook.next_ne_after (hx : x ∉ xs) : next x ≠ (head k).after xs := by
  rcases after_cases (.head k : Hook κ ι) xs with ⟨-, heq⟩ | ⟨z, hz, heq⟩
  · rw [heq]
    exact (head_ne_next k x).symm
  · rw [heq]
    intro h
    exact hx (next.inj h ▸ hz)

/-- A hook of one list is in no other. -/
theorem Chains.after_ne (h : Chains ptr K) (hk : ∀ y ∈ xs, y ∈ K k) {j : κ} (hj : j ≠ k) :
    head j ≠ (head k).after xs ∧ ∀ y ∈ K j, next y ≠ (head k).after xs := by
  rcases after_cases (.head k : Hook κ ι) xs with ⟨-, heq⟩ | ⟨z, hz, heq⟩
  · rw [heq]
    exact ⟨fun h' => hj (head.inj h'), fun y _ => (head_ne_next k y).symm⟩
  · rw [heq]
    refine ⟨head_ne_next j z, fun y hy h' => hj (h.disjoint hy ?_)⟩
    rw [next.inj h']
    exact hk z hz

end

omit dι in
/-- **A list changes behind some of its nodes**, and the others stay. -/
theorem Chains.splice (h : Chains ptr K) (hk : K k = xs ++ ys) {ptr' : Hook κ ι → Option ι}
    {zs : List ι} (hzs : (xs ++ zs).Nodup) (hnew : ∀ z ∈ zs, z ∈ ys ∨ ∀ j, z ∉ K j)
    (hsame : ∀ c, c ≠ (head k).after xs → (∀ z, c = .next z → z ∈ xs ∨ ∃ j, j ≠ k ∧ z ∈ K j) →
      ptr' c = ptr c)
    (hend : Strung ptr' ((head k).after xs) zs) : Chains ptr' (update K k (xs ++ zs)) := by
  have hxs : ∀ y ∈ xs, y ∈ K k := fun y hy => hk ▸ mem_append_left _ hy
  have hmem {z : ι} (hz : z ∈ xs ++ zs) : z ∈ K k ∨ ∀ j, z ∉ K j := by
    rcases mem_append.mp hz with hz | hz
    · exact .inl (hxs z hz)
    · exact (hnew z hz).imp_left fun hz => hk ▸ mem_append_right _ hz
  refine ⟨fun j => ?_, fun j => ?_, fun {i j z} hi hj => ?_⟩
  · by_cases hj : j = k
    · subst hj
      rw [update_self]
      refine Strung.splice (hk ▸ h.strung j) (List.Nodup.of_append_left hzs)
        (fun x _ => head_ne_next j x) (fun c hne hc => hsame c hne fun z hz => ?_) hend
      subst hz
      obtain hz | ⟨y, hy, hz⟩ := hc
      · cases hz
      · exact .inl (next.inj hz ▸ hy)
    · rw [update_of_ne hj]
      obtain ⟨hhead, hnext⟩ := h.after_ne hxs hj
      exact (h.strung j).congr (hsame _ hhead fun z hz => nomatch hz) fun y hy =>
        hsame _ (hnext y hy) fun z hz => .inr ⟨j, hj, next.inj hz ▸ hy⟩
  · by_cases hj : j = k
    · subst hj
      rwa [update_self]
    · rw [update_of_ne hj]
      exact h.nodup j
  · have hold {j : κ} (hj : z ∈ update K k (xs ++ zs) j) : z ∈ K j ∨ j = k ∧ ∀ i, z ∉ K i := by
      by_cases hjk : j = k
      · subst hjk
        rw [update_self] at hj
        exact (hmem hj).imp_right fun hout => ⟨rfl, hout⟩
      · rw [update_of_ne hjk] at hj
        exact .inl hj
    rcases hold hi with hi | ⟨hik, hi⟩
    · exact (hold hj).elim (h.disjoint hi) fun hj => absurd hi (hj.2 i)
    · exact (hold hj).elim (fun hj => absurd hj (hi j)) fun hj => hik.trans hj.1.symm

theorem Chains.unlink (h : Chains ptr K) (hk : K k = xs ++ x :: ys) :
    Chains (update ptr ((head k).after xs) (ptr (.next x)))
      (update K k (xs ++ ys)) := by
  have hnd : (xs ++ x :: ys).Nodup := hk ▸ h.nodup k
  have hsub : (xs ++ ys).Sublist (xs ++ x :: ys) :=
    (List.Sublist.refl xs).append (sublist_cons_self x ys)
  refine h.splice hk (hnd.sublist hsub) (fun z hz => .inl (mem_cons_of_mem _ hz))
    (fun c hne _ => update_of_ne hne _ _) ?_
  have hend : Strung ptr ((head k).after xs) (x :: ys) := (hk ▸ h.strung k).drop
  refine hend.2.congr (update_self ..) fun y hy => update_of_ne ?_ _ _
  exact next_ne_after fun hy' =>
    (disjoint_of_nodup_append hnd) hy' (mem_cons_of_mem _ hy)

theorem Chains.link (h : Chains ptr K) (hk : K k = xs ++ ys) (hx : ∀ j, x ∉ K j) :
    Chains (update (update ptr (.next x) (ptr ((head k).after xs)))
      ((head k).after xs) (some x)) (update K k (xs ++ x :: ys)) := by
  have hnd : (xs ++ ys).Nodup := hk ▸ h.nodup k
  have hxk : x ∉ xs ++ ys := hk ▸ hx k
  obtain ⟨hxxs, hxys⟩ : x ∉ xs ∧ x ∉ ys := by simpa [mem_append, not_or] using hxk
  have hne : next x ≠ (head k).after xs := next_ne_after hxxs
  refine h.splice hk ?_ (fun z hz => ?_) (fun c hc hz => ?_) ⟨update_self .., ?_⟩
  · exact nodup_middle.mpr (nodup_cons.mpr ⟨hxk, hnd⟩)
  · rcases mem_cons.mp hz with rfl | hz
    · exact .inr hx
    · exact .inl hz
  · rw [update_of_ne hc]
    refine update_of_ne (fun h' => ?_) _ _
    rcases hz x h' with hz | ⟨j, -, hz⟩
    · exact hxxs hz
    · exact hx j hz
  · have hend : Strung ptr ((head k).after xs) ys := (hk ▸ h.strung k).drop
    refine hend.congr ?_ fun y hy => ?_
    · rw [update_of_ne hne, update_self]
    · have hyx : (next y : Hook κ ι) ≠ .next x := fun h' => hxys (next.inj h' ▸ hy)
      have hafter : next y ≠ (head k).after xs :=
        next_ne_after fun hy' => (disjoint_of_nodup_append hnd) hy' hy
      rw [update_of_ne hafter, update_of_ne hyx]

end Surgery

end H2
