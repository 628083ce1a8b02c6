import H2.Machinery.Tiling

/-!
# Mem/Alloc — the kernel's heap

Address-ordered first fit, with boundary tags.  A block begins with a tag that has its size in
words; the first tag is the last word before aligned space, and the tag after the last block has
size 0.  Whether a block is free is said in the tag of the block after it, and the last word of a
free block repeats its size, so that the block after it finds where it starts.

The block that `H2K_mem_alloc_init` makes is an exception: its last word is as it was.  Nobody
looks, as no block comes after it, and it is gone with the first allocation.
-/

namespace H2

open Function

open BitVec (ofNat)

namespace Alloc

/-! ## The heap -/

/-- `H2K_mem_alloc_tag_t`. -/
structure Tag where
  /-- The *previous* block is free. -/
  free : Bool
  /-- This block can be freed. -/
  released : Bool
  /-- In words, with the tag. -/
  size : BitVec 30
  deriving DecidableEq, Inhabited

/-- The words of the heap, each seen as a tag. -/
abbrev Words := ℕ → Tag

section Words

variable (w : Words) (i : ℕ)

/-- `(heap + i)->size = n`, … -/
def setSize (n : BitVec 30) : Words := update w i { w i with size := n }

/-- … `(heap + i)->free = b`, … -/
def setFree (b : Bool) : Words := update w i { w i with free := b }

/-- … and `(heap + i)->released = b`. -/
def setReleased (b : Bool) : Words := update w i { w i with released := b }

@[simp] theorem setSize_self (n : BitVec 30) : setSize w i n i = { w i with size := n } :=
  update_self ..

@[simp] theorem setFree_self (b : Bool) : setFree w i b i = { w i with free := b } :=
  update_self ..

@[simp] theorem setReleased_self (b : Bool) : setReleased w i b i = { w i with released := b } :=
  update_self ..

variable {i} {j : ℕ} (h : j ≠ i)
include h

theorem setSize_of_ne (n : BitVec 30) : setSize w i n j = w j := update_of_ne h ..

theorem setFree_of_ne (b : Bool) : setFree w i b j = w j := update_of_ne h ..

theorem setReleased_of_ne (b : Bool) : setReleased w i b j = w j := update_of_ne h ..

end Words

/-- What the allocator has in the kernel's globals, apart from the lock. -/
structure Heap where
  /-- `alloc_heap`. -/
  base : BitVec 32
  /-- `alloc_heap_size`, in words. -/
  size : BitVec 32
  words : Words

/-- `H2K_mem_alloc_block_t`. -/
structure AllocBlock where
  ptr : BitVec 32
  size : BitVec 32
  deriving DecidableEq

/-- The address of a word. -/
def Heap.addr (h : Heap) (i : ℕ) : BitVec 32 := h.base + 4 * ofNat 32 i

/-- The word at an address. -/
def Heap.index (h : Heap) (ptr : BitVec 32) : ℕ := (ptr - h.base).toNat / 4

/-- `H2K_mem_alloc_init`, on memory that holds anything. -/
def memAllocInit (addr size : BitVec 32) (w : Words) : Heap where
  base := addr
  size := size
  words :=
    let w := setSize w 7 ((size - 8).setWidth 30)
    let w := setFree w 7 false
    let w := setReleased w 7 false
    let w := setSize w (size - 1).toNat 0
    let w := setFree w (size - 1).toNat true
    setReleased w (size - 1).toNat false

/-! ## Freeing -/

def mergeNext (tag : ℕ) (w : Words) : Words :=
  let next := tag + (w tag).size.toNat
  let nextNext := next + (w next).size.toNat
  if (w next).size ≠ 0 ∧ (w nextNext).free then setSize w tag ((w tag).size + (w next).size) else w

def mergePrev (tag prev : ℕ) (w : Words) : ℕ × Words :=
  if (w tag).free then (prev, setSize w prev ((w prev).size + (w tag).size)) else (tag, w)

/-- Size at end of freed block, and the mark in the next one. -/
def markFreed (tag : ℕ) (w : Words) : Words :=
  let w := setSize w (tag + (w tag).size.toNat - 1) (w tag).size
  setFree w (tag + (w tag).size.toNat) true

/-- `H2K_mem_alloc_free_spinlocked`, of the block with a given tag. -/
def memAllocFreeSpinlocked (tag : ℕ) (w : Words) : ℕ × Words :=
  let w := setReleased w tag false
  -- bogus if prev block in use
  let prev := tag - (w (tag - 1)).size.toNat
  let r := mergePrev tag prev (mergeNext tag w)
  (r.1, markFreed r.1 r.2)

/-- `H2K_mem_alloc_free`. -/
def Heap.memAllocFree (h : Heap) (ptr : BitVec 32) : Heap :=
  { h with words := (memAllocFreeSpinlocked (h.index ptr - 1) h.words).2 }

/-! ## Allocating -/

/-- `BYTES(tag->size - 1)`. -/
def payloadBytes (t : Tag) : BitVec 32 := (t.size.setWidth 32 - 1) * 4

/-- `UNITS(WORDS(request)) * ALLOC_UNIT`. -/
def requestWords (request : BitVec 32) : ℕ := (((request + 4) / 4).toNat + 8) / 8 * 8

/-- The search of `H2K_mem_alloc_get`, with fuel: the tag of a block that is free and big enough,
and the heap with what is released freed on the way. -/
def search (request : BitVec 32) : ℕ → ℕ → Words → Option (Option ℕ × Words)
  | 0, _, _ => none
  | fuel + 1, tag, w =>
    let r := if (w tag).released then memAllocFreeSpinlocked tag w else (tag, w)
    let tag := r.1
    let w := r.2
    if !(w (tag + (w tag).size.toNat)).free ∨ payloadBytes (w tag) < request then
      let tag := tag + (w tag).size.toNat
      -- all out of bacon today
      if (w tag).size = 0 then some (none, w) else search request fuel tag w
    else some (some tag, w)

/-- What is done with the block that was found: it is split, or marked allocated.  The test compares
signed numbers, as the size is of a bit field. -/
def take (request : BitVec 32) (tag : ℕ) (w : Words) : Words :=
  let splinter := tag + requestWords request
  if ((w tag).size.toNat : ℤ) - requestWords request ≥ 8 then
    let w := setSize w splinter ((w tag).size - ofNat 30 (requestWords request))
    let w := setFree w splinter false
    let w := setReleased w splinter false
    let w := setSize w (tag + (w tag).size.toNat - 1) (w splinter).size
    setSize w tag (ofNat 30 (requestWords request))
  else setFree w (tag + (w tag).size.toNat) false

/-- `H2K_mem_alloc_get`; none if the search does not end. -/
def Heap.memAllocGet (h : Heap) (request : BitVec 32) : Option (AllocBlock × Heap) :=
  (search request h.size.toNat 7 h.words).map fun (found, w) =>
    match found with
    | none => (⟨0, 0⟩, { h with words := w })
    | some tag =>
      let w := take request tag w
      (⟨h.addr (tag + 1), payloadBytes (w tag)⟩, { h with words := w })

/-! ## Blocks -/

/-- What a block is used for. -/
inductive Use where
  | live
  | free
  /-- Free, as `H2K_mem_alloc_init` leaves it: its size is not repeated. -/
  | wild
  deriving DecidableEq

structure Block where
  size : ℕ
  use : Use
  deriving DecidableEq

open Block

def Block.free (b : Block) : Bool := b.use ≠ .live

/-- **A block and its tag.** -/
structure TagAt (w : Words) (f : Bool) (p : ℕ) (b : Block) : Prop where
  size : (w p).size.toNat = b.size
  /-- The tag says whether the previous block is free, … -/
  prev : (w p).free = f
  /-- … and nobody sets the other bit. -/
  unreleased : (w p).released = false
  dvd : 8 ∣ b.size
  pos : 0 < b.size
  /-- No two free blocks are neighbours. -/
  apart : ¬(f = true ∧ b.free = true)
  /-- The last word repeats the size. -/
  foot : b.use = .free → (w (p + b.size - 1)).size.toNat = b.size

/-- The tag after the last block. -/
structure EndAt (w : Words) (stop : ℕ) (f : Bool) (p : ℕ) : Prop where
  stop : p = stop
  size : (w p).size = 0
  prev : (w p).free = f

/-- **The blocks tile the heap**, from a tag to the one at the end. -/
abbrev Tiled (w : Words) (stop : ℕ) : Bool → ℕ → List Block → Prop :=
  Tiles size free (TagAt w) (EndAt w stop)

section Surgery

variable {w w' : Words} {stop p : ℕ} {f : Bool} {b : Block} {bs : List Block}

theorem TagAt.congr (h : TagAt w f p b) (hw : ∀ i, p ≤ i → i < p + b.size → w' i = w i) :
    TagAt w' f p b := by
  have hpos := h.pos
  have htag := hw p le_rfl (by omega)
  have hfoot := hw (p + b.size - 1) (by omega) (by omega)
  exact ⟨htag ▸ h.size, htag ▸ h.prev, htag ▸ h.unreleased, h.dvd, h.pos, h.apart, hfoot ▸ h.foot⟩

theorem Tiled.head_prev (h : Tiled w stop f p bs) : (w p).free = f := by
  cases bs with
  | nil => exact EndAt.prev h
  | cons b bs => exact h.1.prev

theorem Tiled.head_size (h : Tiled w stop f p bs) : (w p).size = 0 ↔ bs = [] := by
  cases bs with
  | nil => exact iff_of_true (EndAt.size h) rfl
  | cons b bs =>
    refine iff_of_false (fun h0 => ?_) (List.cons_ne_nil b bs)
    have hsize := h.1.size
    rw [h0] at hsize
    exact absurd hsize (Nat.ne_of_lt h.1.pos)

/-- **Changing from a place on**, with the words before it as they were. -/
theorem Tiled.replace {as bs' : List Block} (h : Tiled w stop f p (as ++ bs))
    (hw : ∀ i, p ≤ i → i < p + extent size as → w' i = w i)
    (hrest : ∀ g, Tiled w stop g (p + extent size as) bs →
      Tiled w' stop g (p + extent size as) bs') :
    Tiled w' stop f p (as ++ bs') :=
  Tiles.replace h
    (fun _ _ _ _ hp hq hb => hb.congr fun i hi hi' => hw i (by omega) (by omega)) hrest

/-- The words after a tag, as they were; and in the tag, whether the previous block is free. -/
theorem Tiled.setPrev {g : Bool} (h : Tiled w stop f p bs) (hp : w' p = { w p with free := g })
    (hw : ∀ i, p < i → w' i = w i) (hg : g = true → ∀ b ∈ bs.head?, b.free = false) :
    Tiled w' stop g p bs := by
  cases bs with
  | nil => exact ⟨EndAt.stop h, by rw [hp]; exact EndAt.size h, by rw [hp]⟩
  | cons b bs =>
    have hb := h.1
    have hpos := hb.pos
    have h8 := Nat.le_of_dvd hpos hb.dvd
    refine ⟨⟨?_, by rw [hp], ?_, hb.dvd, hpos, ?_, fun huse => ?_⟩, Tiles.imp h.2 ?_ ?_⟩
    · rw [hp]
      exact hb.size
    · rw [hp]
      exact hb.unreleased
    · rintro ⟨hgt, hfree⟩
      rw [hg hgt b rfl] at hfree
      cases hfree
    · rw [hw _ (by omega)]
      exact hb.foot huse
    · intro _ q c _ hq _ hc
      exact hc.congr fun i hi _ => hw i (by omega)
    · rintro e ⟨hstop, hsize, hprev⟩
      have hi := hw (p + b.size + extent size bs) (by omega)
      exact ⟨hstop, hi ▸ hsize, hi ▸ hprev⟩

theorem Tiled.stop_eq (h : Tiled w stop f p bs) : p + extent size bs = stop := by
  obtain ⟨g, hg⟩ := Tiles.stop h
  exact hg.stop

theorem Tiled.dvd_extent (h : Tiled w stop f p bs) : 8 ∣ extent size bs := by
  induction bs generalizing f p with
  | nil => exact Nat.dvd_zero 8
  | cons b bs ih =>
    exact Nat.dvd_add h.1.dvd (ih h.2)

end Surgery

/-! ## Taking a block -/

section Take

variable {w : Words} {stop p tag : ℕ} {f : Bool} {b : Block} {request : BitVec 32}

theorem requestWords_pos (request : BitVec 32) : 8 ≤ requestWords request := by
  unfold requestWords
  omega

theorem dvd_requestWords (request : BitVec 32) : 8 ∣ requestWords request := Nat.dvd_mul_left ..

/-- What is left of a block that is taken. -/
def carve (request : BitVec 32) (b : Block) : List Block :=
  if requestWords request + 8 ≤ b.size then
    [⟨requestWords request, .live⟩, ⟨b.size - requestWords request, .free⟩]
  else [⟨b.size, .live⟩]

theorem take_split (hsplit : requestWords request + 8 ≤ (w tag).size.toNat) :
    (∀ i, i < tag ∨ tag + (w tag).size.toNat ≤ i → take request tag w i = w i) ∧
      take request tag w tag = { w tag with size := ofNat 30 (requestWords request) } ∧
      take request tag w (tag + requestWords request) =
        ⟨false, false, (w tag).size - ofNat 30 (requestWords request)⟩ ∧
      (take request tag w (tag + (w tag).size.toNat - 1)).size =
        (w tag).size - ofNat 30 (requestWords request) := by
  have hr := requestWords_pos request
  have htest : ((w tag).size.toNat : ℤ) - requestWords request ≥ 8 := by omega
  have h₁ : tag ≠ tag + requestWords request := by omega
  have h₂ : tag + requestWords request ≠ tag + (w tag).size.toNat - 1 := by omega
  have h₃ : tag ≠ tag + (w tag).size.toNat - 1 := by omega
  unfold take
  simp only [if_pos htest, setReleased_of_ne _ h₁, setFree_of_ne _ h₁, setSize_of_ne _ h₁,
    setReleased_self, setFree_self, setSize_self]
  refine ⟨fun i hi => ?_, ?_, ?_, ?_⟩
  · have h₄ : i ≠ tag := by omega
    have h₅ : i ≠ tag + requestWords request := by omega
    have h₆ : i ≠ tag + (w tag).size.toNat - 1 := by omega
    rw [setSize_of_ne _ h₄, setSize_of_ne _ h₆, setReleased_of_ne _ h₅, setFree_of_ne _ h₅,
      setSize_of_ne _ h₅]
  · rw [setSize_of_ne _ h₃, setReleased_of_ne _ h₁, setFree_of_ne _ h₁, setSize_of_ne _ h₁]
  · rw [setSize_of_ne _ h₁.symm, setSize_of_ne _ h₂, setReleased_self, setFree_self, setSize_self]
  · rw [setSize_of_ne _ h₃.symm, setSize_self]

/-- The words outside a block, and outside the tag after it, stay as they are. -/
theorem take_of_not_mem {n i : ℕ} (hn : (w tag).size.toNat = n) (hi : i < tag ∨ tag + n < i) :
    take request tag w i = w i := by
  by_cases hsplit : requestWords request + 8 ≤ (w tag).size.toNat
  · exact (take_split hsplit).1 i (by omega)
  · unfold take
    rw [if_neg (by omega), setFree_of_ne _ (by omega)]

/-- **Taking a block that is free.** -/
theorem Tiled.take {pre post : List Block} (h : Tiled w stop f p (pre ++ b :: post))
    (hfree : b.free = true) (request : BitVec 32) :
    Tiled (take request (p + extent size pre) w) stop f p (pre ++ (carve request b ++ post)) := by
  set q := p + extent size pre
  have hrpos := requestWords_pos request
  have hrdvd := dvd_requestWords request
  obtain ⟨_, htag, -⟩ := Tiles.rest h
  have hsize : (w q).size.toNat = b.size := htag.size
  have hdvd := htag.dvd
  unfold carve
  split
  · next hsplit =>
    have hsplit' : requestWords request + 8 ≤ (w q).size.toNat := hsize.symm ▸ hsplit
    obtain ⟨hsame, hq, hsplinter, hfoot⟩ := take_split hsplit'
    rw [hsize] at hsame hfoot
    have hr : (ofNat 30 (requestWords request)).toNat = requestWords request := by
      rw [BitVec.toNat_ofNat, Nat.mod_eq_of_lt (by omega)]
    have hrest : ((w q).size - ofNat 30 (requestWords request)).toNat =
        b.size - requestWords request := by
      rw [BitVec.toNat_sub]
      omega
    refine Tiled.replace h (fun i _ hi => hsame i (.inl hi)) fun g hg => ?_
    -- the part that is taken, the part that is left, and what comes after
    refine ⟨⟨?_, ?_, ?_, hrdvd, Nat.lt_of_lt_of_le (by decide) hrpos, ?_, ?_⟩,
      ⟨?_, ?_, ?_, ?_, ?_, ?_, fun _ => ?_⟩, ?_⟩
    · rw [hq, hr]
    · rw [hq]
      exact hg.1.prev
    · rw [hq]
      exact hg.1.unreleased
    · rintro ⟨-, hlive⟩
      cases hlive
    · rintro ⟨⟩
    · rw [hsplinter, hrest]
    · rw [hsplinter]
      rfl
    · rw [hsplinter]
    · exact Nat.dvd_sub hdvd hrdvd
    · exact Nat.sub_pos_of_lt (by omega)
    · rintro ⟨hlive, -⟩
      cases hlive
    · change (Alloc.take request q w
        (q + requestWords request + (b.size - requestWords request) - 1)).size.toNat =
          b.size - requestWords request
      rw [show q + requestWords request + (b.size - requestWords request) - 1 =
        q + b.size - 1 by omega, hfoot, hrest]
    · have hend : q + requestWords request + (b.size - requestWords request) =
        q + b.size := by omega
      change Tiled _ stop true (q + requestWords request + (b.size - requestWords request)) post
      rw [hend]
      have hpost := hg.2
      rw [hfree] at hpost
      refine Tiled.setPrev hpost ?_ (fun i hi => hsame i (.inr (by omega))) fun _ c hc => ?_
      · rw [hsame _ (.inr le_rfl), ← Tiled.head_prev hpost]
      · cases post with
        | nil => cases hc
        | cons d post =>
          cases hc
          have hapart := hpost.1.apart
          simpa using hapart
  · next hsplit =>
    have htest : ¬((w q).size.toNat : ℤ) - requestWords request ≥ 8 := by omega
    have htake : Alloc.take request q w = setFree w (q + b.size) false := by
      unfold Alloc.take
      rw [if_neg htest, hsize]
    have hpos := htag.pos
    rw [htake]
    refine Tiled.replace h (fun i _ hi => setFree_of_ne _ (by omega) _) fun g hg => ?_
    have hq : setFree w (q + b.size) false q = w q := setFree_of_ne _ (by omega) _
    refine ⟨⟨?_, ?_, ?_, hdvd, hpos, ?_, ?_⟩, ?_⟩
    · rw [hq]
      exact hsize
    · rw [hq]
      exact hg.1.prev
    · rw [hq]
      exact hg.1.unreleased
    · rintro ⟨-, hlive⟩
      cases hlive
    · rintro ⟨⟩
    · exact Tiled.setPrev hg.2 (setFree_self ..) (fun i hi => setFree_of_ne _ (Nat.ne_of_gt hi) _)
        (fun hfalse => by cases hfalse)

end Take

/-! ## Freeing a block -/

section Free

variable {w w' : Words} {stop p tag : ℕ} {f : Bool} {b : Block} {pre mid post : List Block}

/-- **Blocks become one free block**, if neither neighbour is free. -/
theorem Tiled.merge (h : Tiled w stop f p (pre ++ (mid ++ post))) (hmid : mid ≠ [])
    (hprev : (w (p + extent size pre)).free = false)
    (hpost : ∀ c ∈ post.head?, c.free = false) {n : BitVec 30} (hn : n.toNat = extent size mid)
    (hbefore : ∀ i < p + extent size pre, w' i = w i)
    (htag : w' (p + extent size pre) = { w (p + extent size pre) with size := n })
    (hfoot : (w' (p + extent size pre + extent size mid - 1)).size = n)
    (hnext : w' (p + extent size pre + extent size mid) =
      { w (p + extent size pre + extent size mid) with free := true })
    (hafter : ∀ i, p + extent size pre + extent size mid < i → w' i = w i) :
    Tiled w' stop f p (pre ++ ⟨extent size mid, .free⟩ :: post) := by
  refine Tiled.replace h (fun i _ hi => hbefore i hi) fun g hg => ?_
  have hprev' : g = false := (Tiled.head_prev hg).symm.trans hprev
  obtain ⟨e, he⟩ := Tiles.rest hg
  have hdvd : 8 ∣ extent size mid := by
    have hall := Tiled.dvd_extent hg
    rw [extent_append] at hall
    exact (Nat.dvd_add_left (Tiled.dvd_extent he)).mp hall
  obtain ⟨b, bs, rfl⟩ := List.exists_cons_of_ne_nil hmid
  have hpos : 0 < extent size (b :: bs) := by
    have := hg.1.pos
    rw [extent_cons]
    omega
  refine ⟨⟨?_, ?_, ?_, hdvd, hpos, ?_, fun _ => ?_⟩, ?_⟩
  · rw [htag, hn]
  · rw [htag, hprev']
    exact hprev
  · rw [htag]
    exact hg.1.unreleased
  · rw [hprev']
    simp
  · exact (congrArg BitVec.toNat hfoot).trans hn
  · exact Tiled.setPrev he hnext hafter fun _ => hpost

/-- **With the next block**, if it is free. -/
theorem mergeNext_spec (h : Tiled w stop f tag (b :: post)) (hstop : stop < 2 ^ 30) :
    ∃ cs post' n, post = cs ++ post' ∧ (∀ c ∈ cs, c.free = true) ∧
      (∀ c ∈ post'.head?, c.free = false) ∧ mergeNext tag w = setSize w tag n ∧
      n.toNat = b.size + extent size cs := by
  have hsize := h.1.size
  have hself : w = setSize w tag (w tag).size := (update_eq_self ..).symm
  unfold mergeNext
  simp only [hsize]
  cases post with
  | nil =>
    have hend : (w (tag + b.size)).size = 0 := EndAt.size h.2
    rw [if_neg fun hne => hne.1 hend]
    exact ⟨[], [], _, rfl, by simp, by simp, hself, hsize⟩
  | cons c post =>
    have hc : (w (tag + b.size)).size.toNat = c.size := h.2.1.size
    have hne : (w (tag + b.size)).size ≠ 0 := by
      rw [ne_eq, Tiled.head_size h.2]
      exact List.cons_ne_nil c post
    have hnn : (w (tag + b.size + (w (tag + b.size)).size.toNat)).free = c.free := by
      rw [hc]
      exact Tiled.head_prev h.2.2
    rw [hnn]
    by_cases hfree : c.free = true
    · rw [if_pos ⟨hne, hfree⟩]
      refine ⟨[c], post, _, rfl, by simpa using hfree, fun d hd => ?_, rfl, ?_⟩
      · cases post with
        | nil => cases hd
        | cons d' post =>
          cases hd
          simpa [hfree] using h.2.2.1.apart
      · have hend := Tiled.stop_eq h
        simp only [extent_cons, extent_nil] at hend ⊢
        rw [BitVec.toNat_add]
        omega
    · rw [if_neg fun hand => hfree hand.2]
      refine ⟨[], c :: post, _, rfl, by simp, fun d hd => ?_, hself, hsize⟩
      cases hd
      simpa using hfree

/-- **With the previous block**, if it is free: its last word says where it starts. -/
theorem mergePrev_spec (h : Tiled w stop false p (pre ++ b :: post)) (hstop : stop < 2 ^ 30)
    (hwild : ∀ a ∈ pre, a.use ≠ .wild) {n : BitVec 30} (hn : p + extent size pre + n.toNat ≤ stop) :
    ∃ pre' as w₂ m, pre = pre' ++ as ∧ (∀ a ∈ as, a.free = true) ∧
      (w (p + extent size pre')).free = false ∧
      mergePrev (p + extent size pre)
        (p + extent size pre - (w (p + extent size pre - 1)).size.toNat)
        (setSize w (p + extent size pre) n) = (p + extent size pre', w₂) ∧
      (∀ i, i < p + extent size pre' ∨ p + extent size pre < i → w₂ i = w i) ∧
      w₂ (p + extent size pre') = { w (p + extent size pre') with size := m } ∧
      m.toNat = extent size as + n.toNat := by
  unfold mergePrev
  simp only [setSize_self]
  by_cases hfree : (w (p + extent size pre)).free = true
  · rw [if_pos hfree]
    -- there is a block before, as the first one has none that is free
    rcases List.eq_nil_or_concat pre with rfl | ⟨pre', a, rfl⟩
    · have : (w p).free = false := Tiled.head_prev h
      rw [extent_nil, Nat.add_zero, this] at hfree
      cases hfree
    rw [List.concat_eq_append] at h hn hfree hwild ⊢
    rw [List.append_assoc] at h
    obtain ⟨g, htag, hb, -⟩ := Tiles.rest h
    have hafree : a.free = true := by
      rw [← hfree, extent_append, extent_cons, ← Nat.add_assoc]
      exact hb.prev.symm
    have huse : a.use = .free := by
      have := hwild a (by simp)
      cases hause : a.use with
      | live => simp [free, hause] at hafree
      | free => rfl
      | wild => exact absurd hause this
    have hg : g = false := by simpa [hafree] using htag.apart
    have hq : p + extent size (pre' ++ [a]) = p + extent size pre' + a.size := by
      simp [Nat.add_assoc]
    have hfoot := htag.foot huse
    have hpos := htag.pos
    rw [hq] at hn ⊢
    rw [hfoot, Nat.add_sub_cancel]
    have hne : p + extent size pre' ≠ p + extent size pre' + a.size := by omega
    refine ⟨pre', [a], _, (w (p + extent size pre')).size + n, rfl, by simpa using hafree,
      htag.prev.trans hg, rfl, fun i hi => ?_, ?_, ?_⟩
    · rw [setSize_of_ne _ (by omega), setSize_of_ne _ (by omega)]
    · rw [setSize_self, setSize_of_ne _ hne]
    · rw [BitVec.toNat_add, htag.size, extent_cons, extent_nil]
      omega
  · rw [if_neg hfree]
    refine ⟨pre, [], _, n, (List.append_nil pre).symm, by simp, by simpa using hfree, rfl,
      fun i hi => ?_, setSize_self .., by simp⟩
    exact setSize_of_ne _ (by omega) _

theorem markFreed_spec (hsize : 2 ≤ (w tag).size.toNat) :
    (∀ i, i < tag + (w tag).size.toNat - 1 ∨ tag + (w tag).size.toNat < i →
        markFreed tag w i = w i) ∧
      (markFreed tag w (tag + (w tag).size.toNat - 1)).size = (w tag).size ∧
      markFreed tag w (tag + (w tag).size.toNat) =
        { w (tag + (w tag).size.toNat) with free := true } := by
  have h₁ : tag ≠ tag + (w tag).size.toNat - 1 := by omega
  have h₂ : tag + (w tag).size.toNat ≠ tag + (w tag).size.toNat - 1 := by omega
  unfold markFreed
  simp only [setSize_of_ne _ h₁]
  refine ⟨fun i hi => ?_, ?_, ?_⟩
  · rw [setFree_of_ne _ (by omega), setSize_of_ne _ (by omega)]
  · rw [setFree_of_ne _ h₂.symm, setSize_self]
  · rw [setFree_self, setSize_of_ne _ h₂]

/-- **Freeing a block** merges it with its free neighbours, and leaves the other words as they
are. -/
theorem Tiled.freed (h : Tiled w stop false p (pre ++ b :: post)) (hstop : stop < 2 ^ 30)
    (hwild : ∀ a ∈ pre, a.use ≠ .wild) :
    ∃ pre' as cs post', pre = pre' ++ as ∧ post = cs ++ post' ∧ (∀ a ∈ as ++ cs, a.free = true) ∧
      Tiled (memAllocFreeSpinlocked (p + extent size pre) w).2 stop false p
        (pre' ++ ⟨extent size (as ++ b :: cs), .free⟩ :: post') ∧
      ∀ i, i < p + extent size pre' ∨
        p + extent size pre' + extent size (as ++ b :: cs) < i →
        (memAllocFreeSpinlocked (p + extent size pre) w).2 i = w i := by
  obtain ⟨g, hb⟩ := Tiles.rest h
  have hrel : setReleased w (p + extent size pre) false = w := by
    rw [← hb.1.unreleased]
    exact update_eq_self ..
  obtain ⟨cs, post', n, rfl, hcs, hpost', hnext, hn⟩ := mergeNext_spec hb hstop
  have hend := Tiled.stop_eq h
  have hpos := hb.1.pos
  have hdvd := hb.1.dvd
  simp only [extent_append, extent_cons] at hend
  obtain ⟨pre', as, w₂, m, rfl, has, hprev, hmerge, hsame, htag, hm⟩ :=
    mergePrev_spec h hstop hwild (n := n) (by omega)
  set q' := p + extent size pre'
  have hq : p + extent size (pre' ++ as) = q' + extent size as := by
    simp only [q', extent_append, Nat.add_assoc]
  have hN : extent size (as ++ b :: cs) = m.toNat := by
    rw [hm, hn, extent_append, extent_cons]
  have hfree : memAllocFreeSpinlocked (p + extent size (pre' ++ as)) w = (q', markFreed q' w₂) := by
    unfold memAllocFreeSpinlocked
    simp only [hrel, hnext, hmerge]
  have hsize₂ : (w₂ q').size.toNat = m.toNat := by rw [htag]
  have hm2 : 2 ≤ (w₂ q').size.toNat := by omega
  obtain ⟨hsame', hfoot', hnext'⟩ := markFreed_spec hm2
  rw [hsize₂] at hsame' hfoot' hnext'
  simp only [hfree]
  refine ⟨pre', as, cs, post', rfl, rfl, ?_, ?_, fun i hi => ?_⟩
  · intro a ha
    rcases List.mem_append.mp ha with ha | ha
    · exact has a ha
    · exact hcs a ha
  · have h' : Tiled w stop false p (pre' ++ ((as ++ b :: cs) ++ post')) := by
      simpa [List.append_assoc] using h
    refine Tiled.merge h' (by simp) hprev hpost' hN.symm ?_ ?_ ?_ ?_ ?_
    · intro i hi
      rw [hsame' i (.inl (by omega)), hsame i (.inl hi)]
    · rw [hsame' _ (.inl (by omega)), htag]
    · rw [hN, hfoot', htag]
    · rw [hN, hnext', hsame _ (.inr (by omega))]
    · intro i hi
      rw [hN] at hi
      rw [hsame' i (.inr hi), hsame i (.inr (by omega))]
  · rw [hN] at hi
    rw [hsame' i (by omega), hsame i (by omega)]

end Free

end Alloc

end H2
