import H2.Machinery.Leads
import H2.Mem.Alloc
import Mathlib.Data.Finset.Erase
import Mathlib.Data.Finset.Insert

/-!
# Mem/Heap — what the allocator gives, and what it keeps

A request is met by the first free block whose payload is large enough, and refused only if there is
none (`memAllocGet_spec`).  The test for that, the rounding to units and the test for a split use
three different formulas.  A block may be accepted that is smaller than the request rounded up, but
then the split is not made.

The blocks tile the heap in every run of allocations, frees and writes to what was allocated, and
when all is freed the heap is one block again (`heap_tiled`).
-/

namespace H2

open Function

namespace Alloc

/-! ## The search -/

/-- A block that is free and big enough. -/
def Fits (request : BitVec 32) (b : Block) : Prop :=
  b.free = true ∧ request.toNat ≤ 4 * (b.size - 1)

section Search

variable {w : Words} {stop p : ℕ} {f : Bool} {b : Block} {bs : List Block} {request : BitVec 32}

theorem toNat_payloadBytes {t : Tag} (ht : 0 < t.size.toNat) :
    (payloadBytes t).toNat = 4 * (t.size.toNat - 1) := by
  have h1 : (1 : BitVec 32).toNat = 1 := rfl
  have h4 : (4 : BitVec 32).toNat = 4 := rfl
  rw [payloadBytes, BitVec.toNat_mul, BitVec.toNat_sub, BitVec.toNat_setWidth, h4]
  omega

theorem TagAt.fits_iff (h : TagAt w f p b) (request : BitVec 32) {g : Bool} (hg : g = b.free) :
    (!g ∨ payloadBytes (w p) < request) ↔ ¬Fits request b := by
  have hsize := h.size
  have hpos := h.pos
  have hbytes := toNat_payloadBytes (t := w p) (by omega)
  rw [hsize] at hbytes
  rw [Fits, not_and_or, hg, BitVec.lt_def, hbytes]
  simp

/-- **First fit.** -/
theorem search_spec (h : Tiled w stop f p bs) (hne : bs ≠ []) (request : BitVec 32) {fuel : ℕ}
    (hfuel : bs.length ≤ fuel) :
    ((∀ b ∈ bs, ¬Fits request b) ∧ search request fuel p w = some (none, w)) ∨
      ∃ pre b post, bs = pre ++ b :: post ∧ (∀ c ∈ pre, ¬Fits request c) ∧ Fits request b ∧
        search request fuel p w = some (some (p + extent Block.size pre), w) := by
  induction bs generalizing f p fuel with
  | nil => exact absurd rfl hne
  | cons b bs ih =>
    obtain ⟨fuel, rfl⟩ : ∃ n, fuel = n + 1 := ⟨fuel - 1, by simp at hfuel; omega⟩
    have hsize := h.1.size
    have htest := h.1.fits_iff request (Tiled.head_prev h.2)
    have hrel : (w p).released = false := h.1.unreleased
    rw [← hsize] at htest
    by_cases hfit : Fits request b
    · refine .inr ⟨[], b, bs, rfl, by simp, hfit, ?_⟩
      simp only [search, hrel, Bool.false_eq_true, if_false]
      rw [if_neg fun h => htest.mp h hfit, extent_nil, Nat.add_zero]
    · have hstep : search request (fuel + 1) p w = if (w (p + b.size)).size = 0 then some (none, w)
          else search request fuel (p + b.size) w := by
        simp only [search, hrel, Bool.false_eq_true, if_false]
        rw [if_pos (htest.mpr hfit), hsize]
      have hend := Tiled.head_size h.2
      by_cases hbs : bs = []
      · rw [hstep, if_pos (hend.mpr hbs), hbs]
        exact .inl ⟨by simpa using hfit, rfl⟩
      rw [hstep, if_neg fun h => hbs (hend.mp h)]
      rcases ih h.2 hbs (by simpa using hfuel) with ⟨hnone, hr⟩ | ⟨pre, c, post, rfl, hpre, hc, hr⟩
      · exact .inl ⟨List.forall_mem_cons.mpr ⟨hfit, hnone⟩, hr⟩
      · refine .inr ⟨b :: pre, c, post, rfl, List.forall_mem_cons.mpr ⟨hfit, hpre⟩, hc, ?_⟩
        rw [hr, extent_cons, Nat.add_assoc]

end Search

/-! ## What a request gets -/

/-- The payload of a block. -/
def payload (base : BitVec 32) (p : ℕ) (b : Block) : AllocBlock :=
  ⟨base + 4 * BitVec.ofNat 32 (p + 1), BitVec.ofNat 32 (4 * (b.size - 1))⟩

/-- **The heap and its blocks**: it is in the address space, and the blocks tile it. -/
structure Heap.Tagged (h : Heap) (bs : List Block) : Prop where
  fits : h.base.toNat + 4 * h.size.toNat ≤ 2 ^ 32
  large : 16 ≤ h.size.toNat
  tiled : Tiled h.words (h.size.toNat - 1) false 7 bs

section Get

variable {h : Heap} {bs pre post : List Block} {b : Block} {request : BitVec 32}

/-- The blocks fill the heap, but for a unit. -/
theorem Heap.Tagged.extent_eq (hh : h.Tagged bs) : extent Block.size bs = h.size.toNat - 8 := by
  have := Tiled.stop_eq hh.tiled
  omega

theorem Heap.Tagged.ne_nil (hh : h.Tagged bs) : bs ≠ [] := by
  rintro rfl
  have hext := hh.extent_eq
  have := hh.large
  rw [extent_nil] at hext
  omega

theorem Tiled.length_le {w : Words} {stop p : ℕ} {f : Bool} (ht : Tiled w stop f p bs) :
    bs.length ≤ extent Block.size bs := by
  induction bs generalizing f p with
  | nil => exact le_rfl
  | cons b bs ih =>
    have := ht.1.pos
    have := ih ht.2
    rw [List.length_cons, extent_cons]
    omega

theorem Heap.Tagged.toNat_addr (hh : h.Tagged bs) {i : ℕ} (hi : i < h.size.toNat) :
    (h.addr i).toNat = h.base.toNat + 4 * i := by
  have h4 : (4 : BitVec 32).toNat = 4 := rfl
  have := hh.fits
  rw [Heap.addr, BitVec.toNat_add, BitVec.toNat_mul, BitVec.toNat_ofNat, h4]
  omega

theorem Heap.Tagged.mid (hh : h.Tagged (pre ++ b :: post)) :
    7 + extent Block.size pre + b.size < h.size.toNat ∧ 8 ≤ b.size ∧ 8 ∣ b.size ∧
      8 ∣ extent Block.size pre := by
  have hext := hh.extent_eq
  obtain ⟨g, hb, hpost⟩ := Tiles.rest hh.tiled
  have hall := Tiled.dvd_extent hh.tiled
  have hdvd := hb.dvd
  have hpos := hb.pos
  have hpost' := Tiled.dvd_extent hpost
  rw [extent_append, extent_cons] at hext hall
  exact ⟨by omega, by omega, hdvd, by omega⟩

/-- What is carved out of a block fills it, … -/
theorem extent_carve (request : BitVec 32) (b : Block) :
    extent Block.size (carve request b) = b.size := by
  unfold carve
  split
  · simp only [extent_cons, extent_nil]
    omega
  · simp

/-- … and its first part is large enough. -/
theorem carve_head (hfit : Fits request b) (hpos : 0 < b.size) (hlt : b.size < 2 ^ 30) :
    ∃ n rest, carve request b = ⟨n, .live⟩ :: rest ∧ (∀ c ∈ rest, c.use = .free) ∧ 0 < n ∧
      n ≤ b.size ∧ request.toNat ≤ 4 * (n - 1) := by
  obtain ⟨-, hsize⟩ := hfit
  unfold carve
  split
  · next hsplit =>
    have hrpos := requestWords_pos request
    refine ⟨_, _, rfl, by simp, by omega, by omega, ?_⟩
    have h4 : (4 : BitVec 32).toNat = 4 := rfl
    unfold requestWords at hsplit ⊢
    rw [BitVec.toNat_udiv, BitVec.toNat_add, h4] at hsplit ⊢
    omega
  · exact ⟨_, _, rfl, by simp, hpos, le_rfl, hsize⟩

/-- **A request**: refused, with nothing changed, or met by the first block that fits. -/
theorem Heap.Tagged.get (hh : h.Tagged bs) (request : BitVec 32) :
    ((∀ b ∈ bs, ¬Fits request b) ∧ h.memAllocGet request = some (⟨0, 0⟩, h)) ∨
      ∃ pre b post n rest, bs = pre ++ b :: post ∧ (∀ c ∈ pre, ¬Fits request c) ∧ Fits request b ∧
        carve request b = ⟨n, .live⟩ :: rest ∧ (∀ c ∈ rest, c.use = .free) ∧ n ≤ b.size ∧
        request.toNat ≤ 4 * (n - 1) ∧
        h.memAllocGet request = some (payload h.base (7 + extent Block.size pre) ⟨n, .live⟩,
          { h with words := take request (7 + extent Block.size pre) h.words }) := by
  have hfuel : bs.length ≤ h.size.toNat := by
    have := Tiled.length_le hh.tiled
    have := hh.extent_eq
    omega
  unfold Heap.memAllocGet
  rcases search_spec hh.tiled hh.ne_nil request hfuel with
    ⟨hnone, hr⟩ | ⟨pre, b, post, rfl, hpre, hfit, hr⟩
  · exact .inl ⟨hnone, by rw [hr]; rfl⟩
  · obtain ⟨hin, h8, -⟩ := hh.mid
    have hfits := hh.fits
    obtain ⟨n, rest, hcarve, hrest, hn, hle, hreq⟩ := carve_head hfit (by omega) (by omega)
    refine .inr ⟨pre, b, post, n, rest, rfl, hpre, hfit, hcarve, hrest, hle, hreq, ?_⟩
    have htaken := Tiled.take hh.tiled hfit.1 request
    rw [hcarve] at htaken
    obtain ⟨g, htag, -⟩ := Tiles.rest htaken
    have hsize : (take request (7 + extent Block.size pre) h.words
        (7 + extent Block.size pre)).size.toNat = n := htag.size
    have hbytes : payloadBytes (take request (7 + extent Block.size pre) h.words
        (7 + extent Block.size pre)) = BitVec.ofNat 32 (4 * (n - 1)) := by
      rw [← BitVec.toNat_inj, toNat_payloadBytes (by omega), BitVec.toNat_ofNat]
      omega
    rw [hr, Option.map_some]
    simp only [hbytes]
    rfl

theorem first_unique {pre' post' : List Block} {c : Block} (hpre : ∀ c ∈ pre, ¬Fits request c)
    (hb : Fits request b) (hpre' : ∀ c ∈ pre', ¬Fits request c) (hc : Fits request c)
    (heq : pre ++ b :: post = pre' ++ c :: post') : pre = pre' ∧ b = c ∧ post = post' := by
  rcases append_cons_cases heq with h | ⟨ms, rfl⟩ | ⟨ms, rfl⟩
  · exact h
  · exact absurd hb (hpre' b (by simp))
  · exact absurd hc (hpre c (by simp))

/-- The place after a block is not inside another. -/
theorem blocks_apart {pre' post' : List Block} {c : Block}
    (heq : pre ++ b :: post = pre' ++ c :: post') (hne : b ≠ c) :
    extent Block.size pre + b.size ≤ extent Block.size pre' ∨
      extent Block.size pre' + c.size ≤ extent Block.size pre := by
  rcases append_cons_cases heq with ⟨-, h, -⟩ | ⟨ms, rfl⟩ | ⟨ms, rfl⟩
  · exact absurd h hne
  all_goals
    rw [extent_append, extent_cons]
    omega

end Get

/-! ## Boot -/

/-- **At boot** there is one block. -/
theorem tagged_init {addr size : BitVec 32} (w : Words) (hdvd : 8 ∣ size.toNat)
    (hlarge : 16 ≤ size.toNat) (hfits : addr.toNat + 4 * size.toNat ≤ 2 ^ 32) :
    (memAllocInit addr size w).Tagged [⟨size.toNat - 8, .wild⟩] := by
  have h1 : (1 : BitVec 32).toNat = 1 := rfl
  have h8 : (8 : BitVec 32).toNat = 8 := rfl
  have hlast : (size - 1).toNat = size.toNat - 1 := by
    rw [BitVec.toNat_sub, h1]
    omega
  have hsize : ((size - 8).setWidth 30).toNat = size.toNat - 8 := by
    rw [BitVec.toNat_setWidth, BitVec.toNat_sub, h8]
    omega
  have hne : 7 ≠ size.toNat - 1 := by omega
  have hfirst : (memAllocInit addr size w).words 7 = ⟨false, false, (size - 8).setWidth 30⟩ := by
    simp only [memAllocInit, hlast, setReleased_of_ne _ hne, setFree_of_ne _ hne,
      setSize_of_ne _ hne, setReleased_self, setFree_self, setSize_self]
  have hstop : (memAllocInit addr size w).words (size.toNat - 1) = ⟨true, false, 0⟩ := by
    simp only [memAllocInit, hlast, setReleased_self, setFree_self, setSize_self]
  have hend : 7 + (size.toNat - 8) = size.toNat - 1 := by omega
  refine ⟨hfits, hlarge,
    ⟨?_, ?_, ?_, Nat.dvd_sub hdvd (dvd_refl 8), Nat.sub_pos_of_lt (by omega), ?_, ?_⟩, hend, ?_, ?_⟩
  · rw [hfirst, hsize]
  · rw [hfirst]
  · rw [hfirst]
  · simp
  · rintro ⟨⟩
  · rw [hend, hstop]
  · rw [hend, hstop]
    rfl

/-- A heap of four units, on memory that is zero. -/
def smallHeap : Heap := memAllocInit 0x1000 32 fun _ => ⟨false, false, 0⟩

/-- **What a request gets.** It returns, and NULL if and only if no free block is big enough.
Otherwise it returns the payload of the first that is: 32-byte aligned, as large as was asked for,
inside the heap, disjoint from every live block, and with the words of their payloads as they
were. -/
theorem memAllocGet_spec {h : Heap} {bs : List Block} (hh : h.Tagged bs)
    (halign : 32 ∣ h.base.toNat) (request : BitVec 32) :
    ∃ r h', h.memAllocGet request = some (r, h') ∧
      (r.ptr = 0 ↔ ∀ b ∈ bs, ¬Fits request b) ∧
      ∀ pre b post, bs = pre ++ b :: post → Fits request b → (∀ c ∈ pre, ¬Fits request c) →
        r.ptr = h.addr (7 + extent Block.size pre + 1) ∧ 32 ∣ r.ptr.toNat ∧
        request.toNat ≤ r.size.toNat ∧
        r.ptr.toNat + r.size.toNat ≤ h.base.toNat + 4 * h.size.toNat ∧
        ∀ pre' c post', bs = pre' ++ c :: post' → c.use = .live →
          (r.ptr.toNat + r.size.toNat ≤ (h.addr (7 + extent Block.size pre')).toNat ∨
            (h.addr (7 + extent Block.size pre')).toNat + 4 * c.size ≤ r.ptr.toNat) ∧
          ∀ i, 7 + extent Block.size pre' < i → i < 7 + extent Block.size pre' + c.size →
            h'.words i = h.words i := by
  rcases hh.get request with ⟨hnone, hr⟩ |
    ⟨pre, b, post, n, rest, rfl, hpre, hfit, -, -, hn, hreq, hr⟩
  · refine ⟨_, _, hr, iff_of_true rfl hnone, fun pre b post hbs hfit => ?_⟩
    exact absurd hfit (hnone b (by simp [hbs]))
  obtain ⟨hin, h8, -, hdvd'⟩ := hh.mid
  have hfits := hh.fits
  have hptr : (payload h.base (7 + extent Block.size pre) ⟨n, .live⟩).ptr =
      h.addr (7 + extent Block.size pre + 1) := rfl
  have haddr := hh.toNat_addr (i := 7 + extent Block.size pre + 1) (by omega)
  have hsize : (payload h.base (7 + extent Block.size pre) ⟨n, .live⟩).size.toNat =
      4 * (n - 1) := by
    rw [payload, BitVec.toNat_ofNat]
    dsimp only
    omega
  refine ⟨_, _, hr, iff_of_false (fun h0 => ?_) (fun hnone => hnone b (by simp) hfit), ?_⟩
  · rw [hptr] at h0
    rw [h0] at haddr
    exact absurd haddr (by simp)
  intro pre₁ b₁ post₁ heq hfit₁ hpre₁
  obtain ⟨rfl, rfl, rfl⟩ := first_unique hpre hfit hpre₁ hfit₁ heq
  rw [hsize, hptr]
  refine ⟨rfl, by omega, hreq, by omega, fun pre' c post' heq' hlive => ?_⟩
  have hne : b ≠ c := by
    rintro rfl
    have := hfit.1
    simp [Block.free, hlive] at this
  have hapart := blocks_apart heq' hne
  obtain ⟨hin', -⟩ := Heap.Tagged.mid (heq' ▸ hh)
  have haddr' := hh.toNat_addr (i := 7 + extent Block.size pre') (by omega)
  obtain ⟨g, htag, -⟩ := Tiles.rest hh.tiled
  refine ⟨by omega, fun i hi hi' => take_of_not_mem htag.size (by omega)⟩

/-- A heap of six units: one live, one free, one live, and two that are free. -/
def usedHeap : Heap where
  base := 0x1000
  size := 48
  words i :=
    match i with
    | 23 => ⟨true, false, 8⟩
    | 31 | 46 => ⟨false, false, 16⟩
    | 47 => ⟨true, false, 0⟩
    | _ => ⟨false, false, 8⟩

theorem usedHeap_tagged : usedHeap.Tagged [⟨8, .live⟩, ⟨8, .free⟩, ⟨8, .live⟩, ⟨16, .free⟩] := by
  refine ⟨by decide, by decide, ?_, ?_, ?_, ?_, ?_⟩
  all_goals constructor <;> decide

/-- A request for 60 bytes: the first free block is too small, and the live ones are as they
were. -/
theorem memAllocGet_spec_usedHeap : ∃ r h', usedHeap.memAllocGet 60 = some (r, h') ∧
    r.ptr = 0x1080 ∧ 60 ≤ r.size.toNat ∧
    ∀ i, 23 < i → i < 31 → h'.words i = usedHeap.words i := by
  have hfit : Fits 60 ⟨16, .free⟩ := ⟨rfl, by decide⟩
  have hpre : ∀ c ∈ [⟨8, .live⟩, ⟨8, .free⟩, ⟨8, .live⟩], ¬Fits 60 c := by
    unfold Fits
    decide
  obtain ⟨r, h', hr, -, hfirst⟩ := memAllocGet_spec usedHeap_tagged (by decide) 60
  obtain ⟨hptr, -, hsize, -, hlive⟩ := hfirst _ _ [] rfl hfit hpre
  exact ⟨r, h', hr, hptr, hsize, (hlive [⟨8, .live⟩, ⟨8, .free⟩] ⟨8, .live⟩ _ rfl rfl).2⟩

/-! ## Runs -/

/-- What is live: the payloads of the blocks that are. -/
def Live (base : BitVec 32) : ℕ → List Block → AllocBlock → Prop
  | _, [], _ => False
  | p, b :: bs, x => b.use = .live ∧ x = payload base p b ∨ Live base (p + b.size) bs x

/-- The heap, with what was allocated and not freed. -/
structure HeapRun where
  heap : Heap
  live : Finset AllocBlock

/-- What is done with it. -/
inductive HeapOp where
  | get (request : BitVec 32)
  | free (x : AllocBlock)
  /-- A word is written. -/
  | store (i : ℕ) (t : Tag)

namespace HeapRun

def step : HeapOp → HeapRun → Option HeapRun
  | .get request, s =>
    (s.heap.memAllocGet request).map fun (x, heap) =>
      { heap := heap, live := if x.ptr = 0 then s.live else insert x s.live }
  | .free x, s => some { heap := s.heap.memAllocFree x.ptr, live := s.live.erase x }
  | .store i t, s =>
    some { s with heap := { s.heap with words := update s.heap.words i t } }

/-- **The rules**: what is freed is live, and what is written is the payload of a live block. -/
def Allowed : HeapOp → HeapRun → Prop
  | .get _, _ => True
  | .free x, s => x ∈ s.live
  | .store i _, s => ∃ x ∈ s.live, x.ptr.toNat ≤ s.heap.base.toNat + 4 * i ∧
      s.heap.base.toNat + 4 * i < x.ptr.toNat + x.size.toNat

end HeapRun

section Live

variable {base : BitVec 32} {p : ℕ} {as bs : List Block} {x : AllocBlock}

theorem live_append : Live base p (as ++ bs) x ↔
    Live base p as x ∨ Live base (p + extent Block.size as) bs x := by
  induction as generalizing p with
  | nil => simp [Live]
  | cons a as ih => simp [Live, ih, or_assoc, Nat.add_assoc]

theorem not_live_of_free (h : ∀ a ∈ as, a.free = true) : ¬Live base p as x := by
  induction as generalizing p with
  | nil => exact id
  | cons a as ih =>
    rintro (⟨hlive, -⟩ | hrest)
    · have := h a (by simp)
      simp [Block.free, hlive] at this
    · exact ih (fun b hb => h b (by simp [hb])) hrest

theorem Live.exists_block (h : Live base p bs x) : ∃ pre b post, bs = pre ++ b :: post ∧
    b.use = .live ∧ x = payload base (p + extent Block.size pre) b := by
  induction bs generalizing p with
  | nil => exact h.elim
  | cons b bs ih =>
    rcases h with ⟨hlive, rfl⟩ | h
    · exact ⟨[], b, bs, rfl, hlive, rfl⟩
    · obtain ⟨pre, c, post, rfl, hc, rfl⟩ := ih h
      exact ⟨b :: pre, c, post, rfl, hc, by rw [extent_cons, Nat.add_assoc]⟩

end Live

section Invariant

variable {h : Heap} {bs pre post : List Block} {b c : Block} {x : AllocBlock}

theorem Heap.Tagged.index_payload (hh : h.Tagged (pre ++ b :: post)) :
    h.index (payload h.base (7 + extent Block.size pre) b).ptr - 1 = 7 + extent Block.size pre := by
  obtain ⟨hin, h8, -⟩ := hh.mid
  have haddr := hh.toNat_addr (i := 7 + extent Block.size pre + 1) (by omega)
  have hptr : (payload h.base (7 + extent Block.size pre) b).ptr =
      h.addr (7 + extent Block.size pre + 1) := rfl
  rw [Heap.index, hptr, BitVec.toNat_sub]
  omega

theorem Heap.Tagged.payload_ne (hh : h.Tagged bs) (hb : bs = pre ++ b :: post)
    {pre' post' : List Block} (hc : bs = pre' ++ c :: post')
    (hne : extent Block.size pre ≠ extent Block.size pre') :
    payload h.base (7 + extent Block.size pre) b ≠
      payload h.base (7 + extent Block.size pre') c := by
  obtain ⟨hin, h8, -⟩ := Heap.Tagged.mid (hb ▸ hh)
  obtain ⟨hin', h8', -⟩ := Heap.Tagged.mid (hc ▸ hh)
  have haddr := hh.toNat_addr (i := 7 + extent Block.size pre + 1) (by omega)
  have haddr' := hh.toNat_addr (i := 7 + extent Block.size pre' + 1) (by omega)
  intro heq
  have hptr : h.addr (7 + extent Block.size pre + 1) = h.addr (7 + extent Block.size pre' + 1) :=
    congrArg AllocBlock.ptr heq
  rw [hptr] at haddr
  omega

theorem Heap.Tagged.ne_payload (hh : h.Tagged (pre ++ b :: post))
    (hx : Live h.base 7 pre x ∨ Live h.base (7 + extent Block.size pre + b.size) post x) :
    x ≠ payload h.base (7 + extent Block.size pre) b := by
  obtain ⟨-, h8, -⟩ := hh.mid
  rcases hx with hx | hx
  · obtain ⟨as, c, cs, rfl, -, rfl⟩ := hx.exists_block
    refine hh.payload_ne (show _ = as ++ c :: (cs ++ b :: post) by simp) rfl ?_
    obtain ⟨-, h8', -⟩ := Heap.Tagged.mid
      (show h.Tagged (as ++ c :: (cs ++ b :: post)) by simpa using hh)
    rw [extent_append, extent_cons]
    omega
  · obtain ⟨as, c, cs, rfl, -, rfl⟩ := hx.exists_block
    have hpos : 7 + extent Block.size pre + b.size + extent Block.size as =
        7 + extent Block.size (pre ++ b :: as) := by
      simp only [extent_append, extent_cons]
      omega
    rw [hpos]
    refine hh.payload_ne (show _ = pre ++ b :: as ++ c :: cs by simp) rfl ?_
    omega

/-- **The invariant**, with the blocks. -/
structure HeapRun.Inv (boot : Heap) (s : HeapRun) (bs : List Block) : Prop where
  base : s.heap.base = boot.base
  size : s.heap.size = boot.size
  tagged : s.heap.Tagged bs
  /-- What is live was allocated and not freed. -/
  live : ∀ x, x ∈ s.live ↔ Live s.heap.base 7 bs x
  /-- Only the block there is at boot is wild. -/
  wild : ∀ b ∈ bs, b.use = .wild → bs = [b] ∧ s.heap = boot

/-- A word of a live block's payload does not matter. -/
theorem Tiled.store {w : Words} {stop p : ℕ} {f : Bool} (ht : Tiled w stop f p (pre ++ b :: post))
    (hlive : b.use = .live) {i : ℕ} (hi : p + extent Block.size pre < i)
    (hi' : i < p + extent Block.size pre + b.size) (t : Tag) :
    Tiled (update w i t) stop f p (pre ++ b :: post) := by
  have hw {j : ℕ} (hj : j ≠ i) : update w i t j = w j := update_of_ne hj ..
  refine Tiled.replace ht (fun j _ hj => hw (by omega)) fun g hg =>
    ⟨?_, Tiles.imp hg.2 ?_ fun e he => ?_⟩
  · have hb := hg.1
    have htag := hw (j := p + extent Block.size pre) (by omega)
    refine ⟨htag ▸ hb.size, htag ▸ hb.prev, htag ▸ hb.unreleased, hb.dvd, hb.pos, hb.apart,
      fun hfree => ?_⟩
    rw [hlive] at hfree
    cases hfree
  · intro _ q c _ hq _ hc
    exact hc.congr fun j hj _ => hw (by omega)
  · have hend := hw (j := p + extent Block.size pre + b.size + extent Block.size post) (by omega)
    exact ⟨he.stop, hend ▸ he.size, hend ▸ he.prev⟩

namespace HeapRun

variable {boot : Heap} {s s' : HeapRun}

/-- With two blocks, none is wild. -/
theorem Inv.not_wild (hs : s.Inv boot (pre ++ b :: post)) (hc : c ∈ pre ++ post) :
    c.use ≠ .wild := by
  intro hwild
  have hmem : c ∈ pre ++ b :: post := by
    rcases List.mem_append.mp hc with hc | hc <;> simp [hc]
  have hone := congrArg List.length (hs.wild c hmem hwild).1
  have hpos : 0 < (pre ++ post).length := List.length_pos_of_mem hc
  simp only [List.length_append, List.length_cons, List.length_nil] at hone hpos
  omega

theorem Inv.get (hs : s.Inv boot bs) {request : BitVec 32}
    (hstep : step (.get request) s = some s') : ∃ bs', s'.Inv boot bs' := by
  obtain ⟨⟨r, heap⟩, hr, rfl⟩ := Option.map_eq_some_iff.mp hstep
  rcases hs.tagged.get request with ⟨-, hr'⟩ |
    ⟨pre, b, post, n, rest, rfl, -, hfit, hcarve, hrest, -, -, hr'⟩
  · obtain ⟨rfl, rfl⟩ := Prod.mk.inj (Option.some.inj (hr.symm.trans hr'))
    exact ⟨bs, hs⟩
  obtain ⟨rfl, rfl⟩ := Prod.mk.inj (Option.some.inj (hr.symm.trans hr'))
  obtain ⟨hin, h8, -⟩ := hs.tagged.mid
  have haddr := hs.tagged.toNat_addr (i := 7 + extent Block.size pre + 1) (by omega)
  have hptr : (payload s.heap.base (7 + extent Block.size pre) ⟨n, .live⟩).ptr ≠ 0 := by
    change s.heap.addr (7 + extent Block.size pre + 1) ≠ 0
    intro h0
    rw [h0] at haddr
    exact absurd haddr (by simp)
  have htiled := Tiled.take hs.tagged.tiled hfit.1 request
  have hext := extent_carve request b
  rw [hcarve] at htiled hext
  refine ⟨pre ++ (⟨n, .live⟩ :: rest ++ post), hs.base, hs.size,
    ⟨hs.tagged.fits, hs.tagged.large, htiled⟩, fun x => ?_, fun c hc hwild => ?_⟩
  · have hfree : ∀ a ∈ rest, a.free = true := fun a ha => by simp [Block.free, hrest a ha]
    have hb : b.use ≠ .live := by simpa [Block.free] using hfit.1
    simp only [hptr, if_false, Finset.mem_insert, hs.live, live_append, Live, hb,
      not_live_of_free hfree, ← hext]
    tauto
  · have hmem : c ∈ pre ++ post := by
      rcases List.mem_append.mp hc with hc | hc
      · simp [hc]
      · rcases List.mem_append.mp hc with hc | hc
        · rcases List.mem_cons.mp hc with rfl | hc
          · cases hwild
          · rw [hrest c hc] at hwild
            cases hwild
        · simp [hc]
    exact absurd hwild (hs.not_wild hmem)

theorem Inv.free (hs : s.Inv boot bs) (hx : x ∈ s.live)
    (hstep : step (.free x) s = some s') : ∃ bs', s'.Inv boot bs' := by
  cases hstep
  obtain ⟨pre, b, post, rfl, hlive, rfl⟩ := ((hs.live x).mp hx).exists_block
  have hstop : s.heap.size.toNat - 1 < 2 ^ 30 := by
    have := hs.tagged.fits
    omega
  obtain ⟨pre', as, cs, post', rfl, rfl, hfree, htiled, -⟩ := Tiled.freed hs.tagged.tiled hstop
    fun a ha => hs.not_wild (by simp [ha])
  refine ⟨pre' ++ ⟨extent Block.size (as ++ b :: cs), .free⟩ :: post', hs.base, hs.size,
    ⟨hs.tagged.fits, hs.tagged.large, ?_⟩, fun y => ?_, fun c hc hwild => ?_⟩
  · change Tiled (memAllocFreeSpinlocked (s.heap.index _ - 1) s.heap.words).2 _ _ _ _
    rw [hs.tagged.index_payload]
    exact htiled
  · have has : ∀ a ∈ as, a.free = true := fun a ha => hfree a (by simp [ha])
    have hcs : ∀ a ∈ cs, a.free = true := fun a ha => hfree a (by simp [ha])
    have hne := hs.tagged.ne_payload (x := y)
    rw [Finset.mem_erase, hs.live]
    simp only [live_append, Live, hlive, not_live_of_free has, not_live_of_free hcs, extent_append,
      Nat.add_assoc] at hne ⊢
    tauto
  · have hmem : c ∈ (pre' ++ as) ++ (cs ++ post') := by
      rcases List.mem_append.mp hc with hc | hc
      · simp [hc]
      · rcases List.mem_cons.mp hc with rfl | hc
        · cases hwild
        · simp [hc]
    exact absurd hwild (hs.not_wild hmem)

theorem Inv.store (hs : s.Inv boot bs) {i : ℕ} {t : Tag} (hC : Allowed (.store i t) s)
    (hstep : step (.store i t) s = some s') : s'.Inv boot bs := by
  cases hstep
  obtain ⟨x, hx, hlo, hhi⟩ := hC
  obtain ⟨pre, b, post, rfl, hlive, rfl⟩ := ((hs.live x).mp hx).exists_block
  obtain ⟨hin, h8, -⟩ := hs.tagged.mid
  have haddr := hs.tagged.toNat_addr (i := 7 + extent Block.size pre + 1) (by omega)
  have hptr : (payload s.heap.base (7 + extent Block.size pre) b).ptr =
      s.heap.addr (7 + extent Block.size pre + 1) := rfl
  have hsize : (payload s.heap.base (7 + extent Block.size pre) b).size.toNat ≤
      4 * (b.size - 1) := by
    exact Nat.mod_le ..
  rw [hptr] at hlo hhi
  refine ⟨hs.base, hs.size, ⟨hs.tagged.fits, hs.tagged.large,
    Tiled.store hs.tagged.tiled hlive (by omega) (by omega) t⟩, hs.live, fun c hc hwild => ?_⟩
  -- the block is the only one and wild, or it is live
  have hb : b ∈ [c] := (hs.wild c hc hwild).1 ▸ by simp
  rw [List.mem_singleton.mp hb, hwild] at hlive
  cases hlive

theorem Inv.step {op : HeapOp} (hs : ∃ bs, s.Inv boot bs) (hC : Allowed op s)
    (hstep : HeapRun.step op s = some s') : ∃ bs, s'.Inv boot bs := by
  obtain ⟨bs, hs⟩ := hs
  cases op with
  | get request => exact hs.get hstep
  | free x => exact hs.free hC hstep
  | store i t => exact ⟨bs, hs.store hC hstep⟩

end HeapRun

/-- If nothing is live there is one block, as free blocks are not neighbours. -/
theorem Heap.Tagged.single (hh : h.Tagged bs) (hlive : ∀ x, ¬Live h.base 7 bs x) :
    ∃ u, u ≠ .live ∧ bs = [⟨h.size.toNat - 8, u⟩] := by
  have hext := hh.extent_eq
  obtain ⟨b, bs, rfl⟩ := List.exists_cons_of_ne_nil hh.ne_nil
  have hb : b.use ≠ .live := fun h => hlive _ (.inl ⟨h, rfl⟩)
  cases bs with
  | nil =>
    refine ⟨b.use, hb, ?_⟩
    rw [← hext]
    simp
  | cons c bs =>
    have hc : c.use ≠ .live := fun h => hlive _ (.inr (.inl ⟨h, rfl⟩))
    exact absurd ⟨by simpa [Block.free] using hb, by simpa [Block.free] using hc⟩ hh.tiled.2.1.apart

end Invariant

/-- **The blocks tile the heap**, in every run from boot of requests, frees of what is live and
writes to its payloads: from the first tag to the one at the end, in units, with the tags telling
what is free, no two free neighbours, and the size repeated at the end of a free block — other than
the one there is at boot, as long as the heap is as it was then.  Every request returns.  What is
live are the payloads that were allocated and not freed; and with nothing live, the heap is one free
block. -/
theorem heap_tiled {addr size : BitVec 32} (hdvd : 8 ∣ size.toNat) (hlarge : 16 ≤ size.toNat)
    (hfits : addr.toNat + 4 * size.toNat ≤ 2 ^ 32) (w : Words) {s : HeapRun}
    (hs : Leads HeapRun.step HeapRun.Allowed ⟨memAllocInit addr size w, ∅⟩ s) :
    ∃ bs, Tiled s.heap.words (size.toNat - 1) false 7 bs ∧
      (∀ b ∈ bs, b.use = .wild →
        bs = [⟨size.toNat - 8, .wild⟩] ∧ s.heap = memAllocInit addr size w) ∧
      (∀ request, (s.heap.memAllocGet request).isSome) ∧
      (∀ x, x ∈ s.live ↔ Live addr 7 bs x) ∧
      (s.live = ∅ → ∃ u, u ≠ .live ∧ bs = [⟨size.toNat - 8, u⟩]) := by
  obtain ⟨bs, hinv⟩ : ∃ bs, s.Inv (memAllocInit addr size w) bs :=
    Leads.invariant
      ⟨_, rfl, rfl, tagged_init w hdvd hlarge hfits, by simp [Live], by simp⟩ HeapRun.Inv.step hs
  have hlive := hinv.live
  have hext := hinv.tagged.extent_eq
  have htiled := hinv.tagged.tiled
  have hsingle := hinv.tagged.single
  rw [hinv.base] at hlive hsingle
  rw [hinv.size] at hext htiled hsingle
  refine ⟨bs, htiled, fun b hb hwild => ?_, fun request => ?_, hlive,
    fun hempty => hsingle fun x => ?_⟩
  · obtain ⟨hbs, hboot⟩ := hinv.wild b hb hwild
    rw [hbs, extent_cons, extent_nil, Nat.add_zero] at hext
    have hsize : b.size = size.toNat - 8 := hext
    exact ⟨by rw [hbs, ← hsize, ← hwild], hboot⟩
  · rcases hinv.tagged.get request with ⟨-, hr⟩ |
        ⟨_, _, _, _, _, -, -, -, -, -, -, -, hr⟩ <;>
      simp [hr]
  · rw [← hlive x, hempty]
    exact Finset.notMem_empty x

/-- Two blocks are allocated, the first is freed, and then the second: the one block that is left
has its size at its end, unlike that at boot. -/
theorem heap_tiled_freed : ∃ s, Leads HeapRun.step HeapRun.Allowed ⟨smallHeap, ∅⟩ s ∧
    s.live = ∅ ∧ Tiled s.heap.words 31 false 7 [⟨24, .free⟩] := by
  let test : HeapOp → HeapRun → Bool
    | .get _, _ => true
    | .free x, s => x ∈ s.live
    | .store .., _ => false
  have htest : ∀ op s, test op s = true → HeapRun.Allowed op s := by
    rintro (- | x | ⟨i, t⟩) s h
    · trivial
    · exact (of_decide_eq_true h : x ∈ s.live)
    · cases h
  have hrun : ∃ s ∈ runIf HeapRun.step test [.get 28, .get 1, .free ⟨0x1020, 60⟩,
      .free ⟨0x1060, 28⟩] ⟨smallHeap, ∅⟩, s.live = ∅ ∧ s.heap.words 30 ≠ smallHeap.words 30 := by
    decide +kernel
  obtain ⟨s, hs, hempty, hfoot⟩ := hrun
  have hleads := Leads.of_runIf htest .init hs
  obtain ⟨bs, htiled, hwild, -, -, hall⟩ := heap_tiled (by decide) (by decide) (by decide) _ hleads
  obtain ⟨u, hu, rfl⟩ := hall hempty
  cases u with
  | free => exact ⟨s, hleads, hempty, htiled⟩
  | live => exact absurd rfl hu
  | wild =>
    have hboot := (hwild ⟨24, .wild⟩ (List.mem_singleton.mpr rfl) rfl).2
    exact absurd (congrArg (·.words 30) hboot) hfoot

/-- **At boot the size is not repeated**: the only block has three units and is free, and its last
word is what it was. -/
theorem smallHeap_foot : (smallHeap.words 7).size = 24 ∧ (smallHeap.words (7 + 24)).free = true ∧
    (smallHeap.words (7 + 24 - 1)).size = 0 := by decide

end Alloc

end H2
