import H2.Machinery.Forest

/-!
# Util/Tree — the search trees of the kernel, over pointers

`tree.ref.c` function by function, with a `H2K_treenode_t **` as a `Slot`.  The C recursions are
bounded by fuel and answer `none` when it runs out; every spec lemma says that the number of nodes
is enough, and that the tree read off the cells afterwards is the pure operation's.
-/

namespace H2.Tree

open Function

variable {ρ ι κ σ : Type*} [dρ : DecidableEq ρ] [dι : DecidableEq ι] [LinearOrder κ] (key : ι → κ)

/-- `*s = p`. -/
def store (s : Slot ρ ι) (p : Option ι) (f : Cells ρ ι) : Cells ρ ι := update f s p

/-- `H2K_tree_add_key`. -/
def addKey : ℕ → Slot ρ ι → ι → κ → Cells ρ ι → Option (Cells ρ ι)
  | 0, _, _, _, _ => none
  | n + 1, root, node, k, f =>
    match f root with
    | none => some (store root (some node) f)
    | some r =>
      if k ≤ key r then addKey n (.left r) node k f else addKey n (.right r) node k f

/-- `H2K_tree_add`. -/
def add (n : ℕ) (root : Slot ρ ι) (node : ι) (f : Cells ρ ι) : Option (Cells ρ ι) :=
  addKey key n root node (key node) f

/-- `H2K_tree_remove_key`. -/
def removeKey : ℕ → Slot ρ ι → ι → κ → Cells ρ ι → Option (Cells ρ ι)
  | 0, _, _, _, _ => none
  | n + 1, root, node, k, f =>
    match f root with
    | none => some f
    | some r =>
      if r = node then
        let f := store root (f (.left node)) f
        match f (.right node) with
        | none => some f
        | some right => add key n root right f
      else if k ≤ key r then removeKey n (.left r) node k f
      else removeKey n (.right r) node k f

/-- `H2K_tree_remove`. -/
def remove (n : ℕ) (root : Slot ρ ι) (node : ι) (f : Cells ρ ι) : Option (Cells ρ ι) :=
  removeKey key n root node (key node) f

/-- `H2K_tree_bisect`. -/
def bisect : ℕ → Slot ρ ι → Slot ρ ι → Option ι → κ → Cells ρ ι → Option (Cells ρ ι)
  | _, _, _, none, _, f => some f
  | 0, _, _, some _, _, _ => none
  | n + 1, le, gt, some root, k, f =>
    if key root ≤ k then
      let f := store le (some root) f
      let tmp := f (.right root)
      bisect n (.right root) gt tmp k (store (.right root) none (store gt tmp f))
    else
      let f := store gt (some root) f
      let tmp := f (.left root)
      bisect n le (.left root) tmp k (store (.left root) none (store le tmp f))

/-- `H2K_tree_min`. -/
def min : ℕ → Option ι → Cells ρ ι → Option (Option ι)
  | _, none, _ => some none
  | 0, some _, _ => none
  | n + 1, some root, f =>
    match f (.left root) with
    | none => some (some root)
    | some l => min n (some l) f

/-- One round of `H2K_tree_destructive_iterate`: visit a root that has no left child, or rotate
right.  The callback sees, and may change, the cells. -/
def iterateStep (func : ι → Cells ρ ι × σ → Cells ρ ι × σ) (root : ι) (st : Cells ρ ι × σ) :
    Option ι × (Cells ρ ι × σ) :=
  match st.1 (.left root) with
  | none => (st.1 (.right root), func root st)
  | some tmp =>
    (some tmp, store (.right tmp) (some root) (store (.left root) (st.1 (.right tmp)) st.1), st.2)

/-- `H2K_tree_destructive_iterate`. -/
def destructiveIterate (func : ι → Cells ρ ι × σ → Cells ρ ι × σ) :
    ℕ → Option ι → Cells ρ ι × σ → Option (Cells ρ ι × σ)
  | _, none, st => some st
  | 0, some _, _ => none
  | n + 1, some root, st =>
    destructiveIterate func n (iterateStep func root st).1 (iterateStep func root st).2

/-! ## What they do to the tree -/

section Specs

variable {key} {f : Cells ρ ι} {s : Slot ρ ι} {k : κ} {x : ι}

@[simp] theorem store_self (s : Slot ρ ι) (p : Option ι) (f : Cells ρ ι) : store s p f s = p :=
  update_self ..

@[simp] theorem store_of_ne {s s' : Slot ρ ι} (h : s' ≠ s) (p : Option ι) (f : Cells ρ ι) :
    store s p f s' = f s' :=
  update_of_ne h ..

section

omit dρ dι

/-- A cell outside a tree is not a child field of its root. -/
theorem ne_child {l r : BinaryTree ι} (hs : s.Outside (inorder (.node x l r))) :
    s ≠ .left x ∧ s ≠ .right x ∧ s.Outside (inorder l) ∧ s.Outside (inorder r) := by
  simp only [inorder_node, Slot.outside_append, Slot.outside_cons] at hs
  obtain ⟨hl, hx, hr⟩ := hs
  exact ⟨fun h => hx (h ▸ rfl), fun h => hx (h ▸ rfl), hl, hr⟩

/-- Around a changed subtree `N`, what hangs from the other child field of the node has not. -/
theorem points_other {f f' : Cells ρ ι} {y : ι} {c c' : Slot ρ ι} {N F : BinaryTree ι}
    (hc : c.owner = some y) (hc' : c'.owner = some y) (hne : c' ≠ c) (hyN : y ∉ inorder N)
    (hyF : y ∉ inorder F) (hd : (inorder N).Disjoint (inorder F)) (hF : Points f (f c') F)
    (hframe : ∀ s', s' ≠ c → s'.Outside (inorder N) → f' s' = f s') : Points f' (f' c') F := by
  rw [hframe c' hne ((Slot.outside_iff hc').mpr hyN)]
  exact hF.owned fun hs hz => hframe _ (((Slot.outside_iff hc).mpr hyF).ne hz hs)
    ((Slot.outside_iff hs).mpr fun h => hd h hz)

theorem points_left {f f' : Cells ρ ι} {y : ι} {l l' r : BinaryTree ι}
    (hnd : (inorder (.node y l r)).Nodup) (hs : s.Outside (inorder (.node y l r)))
    (hfs : f s = some y) (hr : Points f (f (.right y)) r) (hl' : Points f' (f' (.left y)) l')
    (hframe : ∀ s', s' ≠ .left y → s'.Outside (inorder l) → f' s' = f s') :
    Points f' (f' s) (.node y l' r) := by
  obtain ⟨-, -, hyl, hyr, hlr⟩ := nodup_inorder_node.mp hnd
  obtain ⟨hsl, -, hsol, -⟩ := ne_child hs
  exact ⟨by rw [hframe s hsl hsol, hfs], hl', points_other rfl rfl (by simp) hyl hyr hlr hr hframe⟩

theorem points_right {f f' : Cells ρ ι} {y : ι} {l r r' : BinaryTree ι}
    (hnd : (inorder (.node y l r)).Nodup) (hs : s.Outside (inorder (.node y l r)))
    (hfs : f s = some y) (hl : Points f (f (.left y)) l) (hr' : Points f' (f' (.right y)) r')
    (hframe : ∀ s', s' ≠ .right y → s'.Outside (inorder r) → f' s' = f s') :
    Points f' (f' s) (.node y l r') := by
  obtain ⟨-, -, hyl, hyr, hlr⟩ := nodup_inorder_node.mp hnd
  obtain ⟨-, hsr, -, hsor⟩ := ne_child hs
  exact ⟨by rw [hframe s hsr hsor, hfs],
    points_other rfl rfl (by simp) hyr hyl hlr.symm hl hframe, hr'⟩

end

/-- **Adding** grafts the tree below `node`. -/
theorem addKey_spec {N : BinaryTree ι} : ∀ {T : BinaryTree ι} {s : Slot ρ ι} {n : ℕ},
    Points f (f s) T → Points f (some x) N → T.numNodes < n → (inorder T).Nodup →
    (inorder T).Disjoint (inorder N) → s.Outside (inorder T) → s.Outside (inorder N) →
    ∃ f', addKey key n s x k f = some f' ∧ Points f' (f' s) (graft key k N T) ∧
      ∀ s', s' ≠ s → s'.Outside (inorder T) → f' s' = f s'
  | .nil, s, n + 1, hT, hN, _, _, _, _, hsN => by
      have hfs : f s = none := hT
      refine ⟨store s (some x) f, by rw [addKey, hfs], ?_, fun s' hs' _ => store_of_ne hs' ..⟩
      rw [store_self]
      exact hN.owned fun hs hz => store_of_ne (hsN.ne hz hs) ..
  | .node y l r, s, n + 1, ⟨hfs, hl, hr⟩, hN, hn, hnd, hd, hs, _ => by
      obtain ⟨hndl, hndr, hyl, hyr, -⟩ := nodup_inorder_node.mp hnd
      simp only [inorder_node, List.disjoint_append_left, List.disjoint_cons_left] at hd
      obtain ⟨hdl, hyN, hdr⟩ := hd
      simp only [BinaryTree.numNodes] at hn
      rw [addKey, hfs]
      simp only [graft]
      split
      · obtain ⟨f', hadd, hl', hframe⟩ := addKey_spec (n := n) hl hN (by omega) hndl hdl
          (by simpa using hyl) (by simpa using hyN)
        refine ⟨f', hadd, points_left hnd hs hfs hr hl' hframe, fun s' hs' hout => ?_⟩
        obtain ⟨hne, -, hol, -⟩ := ne_child hout
        exact hframe s' hne hol
      · obtain ⟨f', hadd, hr', hframe⟩ := addKey_spec (n := n) hr hN (by omega) hndr hdr
          (by simpa using hyr) (by simpa using hyN)
        refine ⟨f', hadd, points_right hnd hs hfs hl hr' hframe, fun s' hs' hout => ?_⟩
        obtain ⟨-, hne, -, hor⟩ := ne_child hout
        exact hframe s' hne hor

/-- **Removing** prunes the node the search for its key meets. -/
theorem removeKey_spec : ∀ {T : BinaryTree ι} {s : Slot ρ ι} {n : ℕ},
    Points f (f s) T → T.numNodes < n → (inorder T).Nodup → s.Outside (inorder T) →
    ∃ f', removeKey key n s x k f = some f' ∧ Points f' (f' s) (prune key k x T) ∧
      ∀ s', s' ≠ s → s'.Outside (inorder T) → f' s' = f s'
  | .nil, s, n + 1, hT, _, _, _ => by
      have hfs : f s = none := hT
      exact ⟨f, by rw [removeKey, hfs], hfs, fun _ _ _ => rfl⟩
  | .node y l r, s, n + 1, ⟨hfs, hl, hr⟩, hn, hnd, hs => by
      obtain ⟨hndl, hndr, hyl, hyr, hlr⟩ := nodup_inorder_node.mp hnd
      obtain ⟨hsyl, hsyr, hsl, hsr⟩ := ne_child hs
      simp only [BinaryTree.numNodes] at hn
      rw [removeKey, hfs]
      simp only [prune]
      split
      · next hyx =>
        subst hyx
        -- the root goes: both subtrees survive the store, and the right one is added below
        set g := store s (f (.left y)) f
        have hgframe : ∀ s', s' ≠ s → g s' = f s' := fun s' hs' => store_of_ne hs' ..
        have hgl : Points g (g s) l := by
          rw [show g s = f (.left y) from store_self ..]
          exact hl.owned fun hs hz => hgframe _ (hsl.ne hz hs)
        have hgr : Points g (g (.right y)) r := by
          rw [hgframe _ hsyr.symm]
          exact hr.owned fun hs hz => hgframe _ (hsr.ne hz hs)
        cases r with
        | nil =>
          have hnone : g (.right y) = none := hgr
          exact ⟨g, by simp only [hnone], hgl, fun s' hs' _ => hgframe s' hs'⟩
        | node z a b =>
          have hz : g (.right y) = some z := hgr.1
          obtain ⟨f', hadd, hT', hframe⟩ := addKey_spec (k := key z) (n := n) hgl (hz ▸ hgr)
            (by omega) hndl hlr hsl hsr
          refine ⟨f', by simpa only [hz, add] using hadd, hT', fun s' hs' hout' => ?_⟩
          rw [hframe s' hs' (ne_child hout').2.2.1, hgframe s' hs']
      · split
        · obtain ⟨f', hrem, hl', hframe⟩ := removeKey_spec (n := n) hl (by omega) hndl
            (by simpa using hyl)
          refine ⟨f', hrem, points_left hnd hs hfs hr hl' hframe, fun s' hs' hout => ?_⟩
          obtain ⟨hne, -, hol, -⟩ := ne_child hout
          exact hframe s' hne hol
        · obtain ⟨f', hrem, hr', hframe⟩ := removeKey_spec (n := n) hr (by omega) hndr
            (by simpa using hyr)
          refine ⟨f', hrem, points_right hnd hs hfs hl hr' hframe, fun s' hs' hout => ?_⟩
          obtain ⟨-, hne, -, hor⟩ := ne_child hout
          exact hframe s' hne hor

/-- One round of bisecting: the node goes to the cell `i`, and the subtree at its child field `c` is
left to bisect, into that field and the cell `o`. -/
theorem bisect_round {y : ι} {c c' i o : Slot ρ ι} {N F : BinaryTree ι}
    (hc : c.owner = some y) (hc' : c'.owner = some y) (hne : c' ≠ c) (hio : i ≠ o)
    (hyN : y ∉ inorder N) (hyF : y ∉ inorder F) (hd : (inorder N).Disjoint (inorder F))
    (hi : i.owner ≠ some y ∧ i.Outside (inorder N) ∧ i.Outside (inorder F))
    (ho : o.owner ≠ some y ∧ o.Outside (inorder N) ∧ o.Outside (inorder F))
    (hN : Points f (f c) N) (hF : Points f (f c') F) {g : Cells ρ ι}
    (hg : g = store c none (store o (f c) (store i (some y) f))) :
    Points g (f c) N ∧ ∀ f' : Cells ρ ι,
      (∀ s', s' ≠ c → s' ≠ o → s'.Outside (inorder N) → f' s' = g s') →
      f' i = some y ∧ Points f' (f' c') F ∧
        ∀ s', s' ≠ i → s' ≠ o → s'.owner ≠ some y → s'.Outside (inorder N) → f' s' = f s' := by
  obtain ⟨hiy, hiN, hiF⟩ := hi
  obtain ⟨hoy, hoN, hoF⟩ := ho
  have hcN := (Slot.outside_iff hc).mpr hyN
  have hcF := (Slot.outside_iff hc).mpr hyF
  have hic : i ≠ c := fun h => hiy (h ▸ hc)
  have hgframe (s' : Slot ρ ι) (h₁ : s' ≠ i) (h₂ : s' ≠ o) (h₃ : s' ≠ c) : g s' = f s' := by
    rw [hg, store_of_ne h₃, store_of_ne h₂, store_of_ne h₁]
  refine ⟨hN.owned fun hs hz => hgframe _ (hiN.ne hz hs) (hoN.ne hz hs) (hcN.ne hz hs),
    fun f' hframe => ⟨?_, ?_, fun s' h₁ h₂ hy hN' => ?_⟩⟩
  · rw [hframe i hic hio hiN, hg, store_of_ne hic, store_of_ne hio, store_self]
  · have hsame {s' : Slot ρ ι} (h₁ : s' ≠ i) (h₂ : s' ≠ o) (h₃ : s' ≠ c)
        (h₄ : s'.Outside (inorder N)) : f' s' = f s' := by
      rw [hframe s' h₃ h₂ h₄, hgframe s' h₁ h₂ h₃]
    rw [hsame (fun h => hiy (h ▸ hc')) (fun h => hoy (h ▸ hc')) hne
      ((Slot.outside_iff hc').mpr hyN)]
    exact hF.owned fun hs hz => hsame (hiF.ne hz hs) (hoF.ne hz hs) (hcF.ne hz hs)
      ((Slot.outside_iff hs).mpr fun h => hd h hz)
  · have hsc : s' ≠ c := fun h => hy (h ▸ hc)
    rw [hframe s' hsc h₂ hN', hgframe s' h₁ h₂ hsc]

/-- **Bisecting** leaves the two halves in the two cells it was given. -/
theorem bisect_spec (key : ι → κ) (k : κ) : ∀ {T : BinaryTree ι} {f : Cells ρ ι} {p : Option ι}
    {le gt : Slot ρ ι} {n : ℕ}, Points f p T → T.numNodes ≤ n → (inorder T).Nodup → le ≠ gt →
    le.Outside (inorder T) → gt.Outside (inorder T) → (p = none → f le = none ∧ f gt = none) →
    ∃ f', bisect key n le gt p k f = some f' ∧ Points f' (f' le) (H2.bisect key k T).1 ∧
      Points f' (f' gt) (H2.bisect key k T).2 ∧
      ∀ s', s' ≠ le → s' ≠ gt → s'.Outside (inorder T) → f' s' = f s'
  | .nil, f, p, le, gt, n, hT, _, _, _, _, _, hnone => by
      obtain rfl : p = none := hT
      obtain ⟨hle, hgt⟩ := hnone rfl
      exact ⟨f, by rw [bisect], hle, hgt, fun _ _ _ _ => rfl⟩
  | .node y l r, f, p, le, gt, n + 1, ⟨hp, hl, hr⟩, hn, hnd, hne, hle, hgt, _ => by
      subst hp
      obtain ⟨hndl, hndr, hyl, hyr, hlr⟩ := nodup_inorder_node.mp hnd
      obtain ⟨hleyl, hleyr, hlel, -⟩ := ne_child hle
      obtain ⟨hgtyl, hgtyr, -, hgtr⟩ := ne_child hgt
      simp only [inorder_node, Slot.outside_append, Slot.outside_cons] at hle hgt ⊢
      simp only [BinaryTree.numNodes] at hn
      rw [bisect]
      simp only [H2.bisect]
      split
      · set g := store (.right y) none (store gt (f (.right y)) (store le (some y) f)) with hg
        obtain ⟨hgr, hround⟩ := bisect_round rfl rfl (by simp) hne hyr hyl hlr.symm
          ⟨hle.2.1, hle.2.2, hle.1⟩ ⟨hgt.2.1, hgt.2.2, hgt.1⟩ hr hl hg
        obtain ⟨f', hbis, hfst, hsnd, hframe⟩ := bisect_spec key k (n := n) hgr (by omega) hndr
          hgtyr.symm (by simpa using hyr) hgtr
          (fun h => ⟨by rw [hg, store_self], by rw [hg, store_of_ne hgtyr, store_self, h]⟩)
        obtain ⟨hle', hl', hsame⟩ := hround f' hframe
        refine ⟨f', by rw [store_of_ne hleyr.symm]; exact hbis, ⟨hle', hl', hfst⟩, hsnd,
          fun s' h₁ h₂ h₃ => hsame s' h₁ h₂ h₃.2.1 h₃.2.2⟩
      · set g := store (.left y) none (store le (f (.left y)) (store gt (some y) f)) with hg
        obtain ⟨hgl, hround⟩ := bisect_round rfl rfl (by simp) hne.symm hyl hyr hlr
          ⟨hgt.2.1, hgt.1, hgt.2.2⟩ ⟨hle.2.1, hle.1, hle.2.2⟩ hl hr hg
        obtain ⟨f', hbis, hfst, hsnd, hframe⟩ := bisect_spec key k (n := n) hgl (by omega) hndl
          hleyl hlel (by simpa using hyl)
          (fun h => ⟨by rw [hg, store_of_ne hleyl, store_self, h], by rw [hg, store_self]⟩)
        obtain ⟨hgt', hr', hsame⟩ := hround f' fun s' h₁ h₂ => hframe s' h₂ h₁
        refine ⟨f', by rw [store_of_ne hgtyl.symm]; exact hbis, hfst, ⟨hgt', hsnd, hr'⟩,
          fun s' h₁ h₂ h₃ => hsame s' h₂ h₁ h₃.2.1 h₃.1⟩

omit dρ dι in
/-- **The minimum** is the first node in order. -/
theorem min_spec : ∀ {T : BinaryTree ι} {p : Option ι} {n : ℕ}, Points f p T → T.numNodes ≤ n →
    min n p f = some (inorder T).head?
  | .nil, _, n, hT, _ => by
      obtain rfl : _ = none := hT
      rw [min]
      rfl
  | .node y l r, _, n + 1, ⟨hp, hl, _⟩, hn => by
      subst hp
      simp only [BinaryTree.numNodes] at hn
      rw [min]
      cases l with
      | nil =>
        have hnone : f (.left y) = none := hl
        simp [hnone]
      | node z a b =>
        have hz : f (.left y) = some z := hl.1
        simp only [hz]
        rw [min_spec (hz ▸ hl) (by omega)]
        simp

end Specs

/-! ## The walk

A visit takes the first node off the list of those to come; a rotation keeps the list and turns the
tree, and there can be only so many of them (`weight`). -/

section Walk

variable (func : ι → Cells ρ ι × σ → Cells ρ ι × σ)

/-- A round of the walk from wherever its cursor is. -/
def walkStep : Option ι × (Cells ρ ι × σ) → Option ι × (Cells ρ ι × σ)
  | (none, st) => (none, st)
  | (some root, st) => iterateStep func root st

theorem destructiveIterate_eq_some {st' : Cells ρ ι × σ} : ∀ {n : ℕ} {p : Option ι}
    {st : Cells ρ ι × σ}, (walkStep func)^[n] (p, st) = (none, st') →
    destructiveIterate func n p st = some st'
  | n, none, st, h => by
      have hfix : (walkStep func)^[n] (none, st) = (none, st) := iterate_fixed rfl n
      rw [hfix] at h
      rw [destructiveIterate, (Prod.mk.inj h).2]
  | 0, some _, _, h => absurd h (by simp)
  | n + 1, some root, st, h => by
      rw [destructiveIterate]
      exact destructiveIterate_eq_some h

/-- The number of rounds a tree takes. -/
def weight : BinaryTree ι → ℕ
  | .nil => 0
  | .node _ l r => 2 * l.numNodes + 1 + weight r

omit dι in
theorem weight_le : ∀ T : BinaryTree ι, weight T ≤ 2 * T.numNodes
  | .nil => le_rfl
  | .node _ l r => by
      have := weight_le r
      simp only [weight, BinaryTree.numNodes]
      omega

/-- What a callback keeps true, as the list of nodes to come gets shorter: it may do as it likes
with the node it visits, and must leave the links of those to come. -/
structure Keeps (I : List ι → Cells ρ ι × σ → Prop) : Prop where
  rotate : ∀ {xs : List ι} {f f' : Cells ρ ι} {s : σ}, I xs (f, s) →
    (∀ c : Slot ρ ι, c.Outside xs → f' c = f c) → I xs (f', s)
  visit : ∀ {x : ι} {xs : List ι} {st : Cells ρ ι × σ}, (x :: xs).Nodup → I (x :: xs) st →
    I xs (func x st) ∧ ∀ y ∈ xs, (func x st).1 (.left y) = st.1 (.left y) ∧
      (func x st).1 (.right y) = st.1 (.right y)

/-- In the middle of a walk, `w` rounds before its end. -/
def Walking (I : List ι → Cells ρ ι × σ → Prop) (w : ℕ) (c : Option ι × (Cells ρ ι × σ)) : Prop :=
  ∃ D, Points c.2.1 c.1 D ∧ (inorder D).Nodup ∧ weight D = w ∧ I (inorder D) c.2

variable {func} {I : List ι → Cells ρ ι × σ → Prop}

omit dρ dι in
theorem Walking.finished {c : Option ι × (Cells ρ ι × σ)} (h : Walking I 0 c) :
    c.1 = none ∧ I [] c.2 := by
  obtain ⟨D, hD, -, hw, hI⟩ := h
  cases D with
  | nil => exact ⟨hD, hI⟩
  | node x l r => exact absurd hw (by simp [weight])

theorem points_rotate {f : Cells ρ ι} {x y : ι} {a b r : BinaryTree ι}
    (hnd : (inorder (.node x (.node y a b) r)).Nodup)
    (h : Points f (some x) (.node x (.node y a b) r)) :
    Points (store (.right y) (some x) (store (.left x) (f (.right y)) f)) (some y)
      (.node y a (.node x b r)) := by
  obtain ⟨-, ⟨-, ha, hb⟩, hr⟩ := h
  obtain ⟨hndl, -, hxl, hxr, hlr⟩ := nodup_inorder_node.mp hnd
  obtain ⟨-, -, hya, hyb, -⟩ := nodup_inorder_node.mp hndl
  simp only [inorder_node, List.mem_append, List.mem_cons, not_or] at hxl
  set f' := store (.right y) (some x) (store (.left x) (f (.right y)) f) with hf'
  have hsame : ∀ s', s' ≠ Slot.right y → s' ≠ Slot.left x → f' s' = f s' := fun s' h₁ h₂ => by
    rw [hf', store_of_ne h₁, store_of_ne h₂]
  have hkeep : ∀ {T : BinaryTree ι} {q : Option ι}, Points f q T → x ∉ inorder T →
      y ∉ inorder T → Points f' q T := fun hT hx hy => hT.owned fun hs hz =>
    hsame _ ((Slot.outside_right.mpr hy).ne hz hs) ((Slot.outside_left.mpr hx).ne hz hs)
  refine ⟨rfl, ?_, ?_, ?_, ?_⟩
  · rw [hsame _ (by simp) (by simpa using Ne.symm hxl.2.1)]
    exact hkeep ha hxl.1 hya
  · exact store_self ..
  · have hleft : f' (.left x) = f (.right y) := by rw [hf', store_of_ne (by simp), store_self]
    rw [hleft]
    exact hkeep hb hxl.2.2 hyb
  · rw [hsame _ (by simpa using hxl.2.1) (by simp)]
    exact hkeep hr hxr fun h => hlr (by simp) h

theorem Walking.step (hk : Keeps func I) {w : ℕ} {c : Option ι × (Cells ρ ι × σ)}
    (h : Walking I (w + 1) c) : Walking I w (walkStep func c) := by
  obtain ⟨p, st⟩ := c
  obtain ⟨D, hD, hnd, hw, hI⟩ := h
  cases D with
  | nil => exact absurd hw (by simp [weight])
  | node x l r =>
    obtain ⟨hp, hl, hr⟩ := hD
    obtain rfl : p = some x := hp
    rw [walkStep, iterateStep]
    cases l with
    | nil =>
      have hnone : st.1 (.left x) = none := hl
      simp only [hnone]
      obtain ⟨hI', hsame⟩ := hk.visit hnd hI
      refine ⟨r, hr.congr hsame, (List.nodup_cons.mp hnd).2, ?_, hI'⟩
      simp only [weight, BinaryTree.numNodes] at hw
      omega
    | node y a b =>
      have hy : st.1 (.left x) = some y := hl.1
      have hlist : inorder (.node y a (.node x b r)) = inorder (.node x (.node y a b) r) := by simp
      simp only [hy]
      refine ⟨.node y a (.node x b r), points_rotate hnd ⟨rfl, hl, hr⟩, hlist ▸ hnd, ?_, ?_⟩
      · simp only [weight, BinaryTree.numNodes] at hw ⊢
        omega
      · rw [hlist]
        refine hk.rotate hI fun s' hs' => ?_
        have hsy : s' ≠ .right y := by
          rintro rfl
          simp at hs'
        have hsx : s' ≠ .left x := by
          rintro rfl
          simp at hs'
        rw [store_of_ne hsy, store_of_ne hsx]

/-- **The rule of the walk**: what the callback keeps holds at every round … -/
theorem Walking.iterate (hk : Keeps func I) : ∀ (n : ℕ) {w : ℕ} {c : Option ι × (Cells ρ ι × σ)},
    Walking I w c → Walking I (w - n) ((walkStep func)^[n] c)
  | 0, _, _, h => h
  | n + 1, 0, c, h => by
      have hc : walkStep func c = c := by
        obtain ⟨p, st⟩ := c
        obtain rfl : p = none := h.finished.1
        rfl
      rw [iterate_fixed hc]
      simpa using h
  | n + 1, w + 1, c, h => by
      rw [Nat.add_sub_add_right]
      exact (h.step hk).iterate hk n

/-- … and at the end, which comes after at most two rounds a node. -/
theorem destructiveIterate_spec (hk : Keeps func I) {D : BinaryTree ι} {p : Option ι}
    (st : Cells ρ ι × σ) {n : ℕ} (hD : Points st.1 p D) (hnd : (inorder D).Nodup)
    (hI : I (inorder D) st) (hn : 2 * D.numNodes ≤ n) :
    ∃ st', destructiveIterate func n p st = some st' ∧ I [] st' := by
  have hw : weight D - n = 0 := by
    have := weight_le D
    omega
  have hend := Walking.iterate hk n (c := (p, st)) ⟨D, hD, hnd, rfl, hI⟩
  rw [hw] at hend
  obtain ⟨hnone, hI'⟩ := hend.finished
  exact ⟨_, destructiveIterate_eq_some func (Prod.ext hnone rfl), hI'⟩

end Walk

/-! ## Order and contents -/

section Contents

variable {key} {f : Cells ρ ι} {s : Slot ρ ι} {xs : List ι}

/-- A search tree hangs from the pointer, and its nodes in order are `xs`. -/
def Reads (key : ι → κ) (f : Cells ρ ι) (p : Option ι) (xs : List ι) : Prop :=
  ∃ T, Points f p T ∧ IsSearch key T ∧ inorder T = xs

/-- A callback, with a record of the nodes it has been given. -/
def logged (func : ι → Cells ρ ι × σ → Cells ρ ι × σ) (x : ι) (st : Cells ρ ι × List ι × σ) :
    Cells ρ ι × List ι × σ :=
  let r := func x (st.1, st.2.2)
  (r.1, st.2.1 ++ [x], r.2)

/-- It leaves the links of other nodes. -/
def LeavesOthers (func : ι → Cells ρ ι × σ → Cells ρ ι × σ) : Prop :=
  ∀ x st y, y ≠ x → (func x st).1 (.left y) = st.1 (.left y) ∧
    (func x st).1 (.right y) = st.1 (.right y)

omit dρ dι in
/-- Nodes visited and nodes to come make up the tree. -/
theorem keeps_logged {func : ι → Cells ρ ι × σ → Cells ρ ι × σ} (hfunc : LeavesOthers func) :
    Keeps (logged func) fun ys st => st.2.1 ++ ys = xs where
  rotate h _ := h
  visit hnd h := by
    refine ⟨by simpa [logged] using h, fun y hy => hfunc _ _ y ?_⟩
    rintro rfl
    exact (List.nodup_cons.mp hnd).1 hy

/-- **Order and contents** under adding a node or a subtree, removing a node, bisecting at a key and
walking.  Bisecting writes nothing for an empty tree: the two cells have to be empty then. -/
theorem tree_contents (h : Reads key f (f s) xs) (hnd : xs.Nodup) (hs : s.Outside xs) :
    (∀ x ys k n, Reads key f (some x) ys → ys.Nodup → xs.Disjoint ys → s.Outside ys →
      (∀ y ∈ xs, ∀ z ∈ ys, key z ≤ key y ↔ k ≤ key y) → xs.length < n →
      ∃ f' zs, addKey key n s x k f = some f' ∧ Reads key f' (f' s) zs ∧ zs.Nodup ∧
        ∀ y, y ∈ zs ↔ y ∈ ys ∨ y ∈ xs) ∧
    (∀ x ∈ xs, ∀ n > xs.length, ∃ f', remove key n s x f = some f' ∧
      Reads key f' (f' s) (xs.erase x)) ∧
    (∀ le gt k n, le ≠ gt → le.Outside xs → gt.Outside xs →
      (xs = [] → f le = none ∧ f gt = none) → xs.length ≤ n →
      ∃ f', bisect key n le gt (f s) k f = some f' ∧
        Reads key f' (f' le) (xs.filter (key · ≤ k)) ∧
        Reads key f' (f' gt) (xs.filter (k < key ·))) ∧
    xs.Pairwise (key · ≤ key ·) ∧
    ∀ (func : ι → Cells ρ ι × σ → Cells ρ ι × σ) a n,
      LeavesOthers func → 2 * xs.length ≤ n →
        ∃ st, destructiveIterate (logged func) n (f s) (f, [], a) = some st ∧ st.2.1 = xs := by
  obtain ⟨T, hT, hsearch, rfl⟩ := h
  rw [length_inorder]
  refine ⟨?_, ?_, ?_, hsearch.pairwise, ?_⟩
  · rintro x ys k n ⟨N, hN, hNs, rfl⟩ hNd hd hsN hcmp hn
    obtain ⟨f', hadd, hT', -⟩ := addKey_spec (k := k) hT hN hn hnd hd hs hsN
    exact ⟨f', _, hadd, ⟨_, hT', hsearch.graft hNs hcmp, rfl⟩, nodup_inorder_graft hnd hNd hd,
      fun y => mem_inorder_graft⟩
  · intro x hx n hn
    obtain ⟨f', hrem, hT', -⟩ := removeKey_spec (k := key x) (x := x) hT hn hnd hs
    exact ⟨f', hrem, _, hT', hsearch.prune, inorder_prune hsearch hnd hx⟩
  · intro le gt k n hne hle hgt hnil hn
    have hnone : f s = none → f le = none ∧ f gt = none := fun hp => by
      cases T with
      | nil => exact hnil rfl
      | node x l r => exact absurd (hp.symm.trans hT.1) (by simp)
    obtain ⟨f', hbis, hfst, hsnd, -⟩ := bisect_spec key k hT hn hnd hne hle hgt hnone
    obtain ⟨hle', hgt'⟩ := inorder_bisect (k := k) hsearch
    exact ⟨f', hbis, ⟨_, hfst, hsearch.bisect.1, hle'⟩, _, hsnd, hsearch.bisect.2, hgt'⟩
  · intro func a n hfunc hn
    obtain ⟨st, hrun, hst⟩ := destructiveIterate_spec (keeps_logged hfunc) (f, [], a) hT hnd rfl hn
    exact ⟨st, hrun, by simpa using hst⟩

/-- Keys of six nodes, three of them the same. -/
def sampleKey (x : ℕ) : ℕ := [1, 2, 2, 3, 4, 2].getD x 0

/-- A tree of five of them, with both children at its root. -/
def sample : Cells ℕ ℕ
  | .root 0 => some 2
  | .left 2 => some 1
  | .left 1 => some 0
  | .right 2 => some 4
  | .left 4 => some 3
  | _ => none

/-- The sixth added, the root removed, the tree bisected at the key that is there twice, and
walked. -/
theorem tree_contents_sample : (∃ f' zs, add sampleKey 6 (.root 0) 5 sample = some f' ∧
      Reads sampleKey f' (f' (.root 0)) zs ∧ ∀ y, y ∈ zs ↔ y ∈ [5] ∨ y ∈ [0, 1, 2, 3, 4]) ∧
    (∃ f', remove sampleKey 6 (.root 0) 2 sample = some f' ∧
      Reads sampleKey f' (f' (.root 0)) [0, 1, 3, 4]) ∧
    (∃ f', bisect sampleKey 5 (.root 1) (.root 2) (some 2) 2 sample = some f' ∧
      Reads sampleKey f' (f' (.root 1)) [0, 1, 2] ∧ Reads sampleKey f' (f' (.root 2)) [3, 4]) ∧
    ∃ st, destructiveIterate (logged fun _ st => st) 10 (some 2) (sample, [], ()) = some st ∧
      st.2.1 = [0, 1, 2, 3, 4] := by
  have hxs : Reads sampleKey sample (sample (.root 0)) [0, 1, 2, 3, 4] :=
    ⟨.node 2 (.node 1 (.node 0 .nil .nil) .nil) (.node 4 (.node 3 .nil .nil) .nil),
      by simp [Points, sample], by simp [IsSearch, sampleKey], rfl⟩
  have hnew : Reads sampleKey sample (some 5) [5] :=
    ⟨.node 5 .nil .nil, by simp [Points, sample], by simp [IsSearch], rfl⟩
  obtain ⟨hadd, hremove, hbisect, -, hwalk⟩ := tree_contents hxs (by decide) (by simp)
  refine ⟨?_, hremove 2 (by decide) 6 (by decide), ?_,
    hwalk (fun _ st => st) () 10 (fun _ _ _ _ => ⟨rfl, rfl⟩) (by decide)⟩
  · obtain ⟨f', zs, hf', hzs, -, hmem⟩ := hadd 5 [5] 2 6 hnew (by decide) (by simp) (by simp)
      (by decide) (by decide)
    exact ⟨f', zs, hf', hzs, hmem⟩
  · exact hbisect (.root 1) (.root 2) 2 5 (by decide) (by simp) (by simp) (by simp) (by decide)

/-- Bisecting the empty tree leaves a node in the cell for the lower half. -/
theorem bisect_empty_stale :
    bisect (fun x : Fin 1 => x.val) 0 (.root false) (.root true) none 0 (fun _ => some 0) =
      some (fun _ => some 0 : Cells Bool (Fin 1)) ∧
    ¬ Reads (fun x : Fin 1 => x.val) (fun _ : Slot Bool (Fin 1) => some 0) (some 0) [] := by
  refine ⟨rfl, ?_⟩
  rintro ⟨T, hT, -, hnil⟩
  cases T with
  | nil => exact absurd hT (by simp [Points])
  | node x l r => simp at hnil

end Contents

end H2.Tree
