import H2.Mem.Stages

/-!
# Mem/Compose — one stage after the other, page by page

A translation that is returned covers a block of pages, and gives each of them a physical page: the
one with the same low bits.  It was made for one page of the block, by one stage after the other,
and each stage may have made the block smaller.  That the other pages of the block go where they
would go by themselves takes stages that treat the block alike and keep the low bits of the page
number.  The two-level table, the radix table and the offset keep them; an entry of a list does not
(`linear_drops_low_bits`), so it must have the page's bits from where the block ends.

If the stages that the walk goes through are such (`Maps.Uniform`), the translation does page by
page what its stages do (`translation_composes`).
-/

namespace H2

open Walk BitVec

namespace Maps

variable (k : Maps)

/-- **A translation does to a page what its stages do**: its own one, and then the guestmap. -/
def Composes (b : VmMap) (info : AsidEntry) (out : Translation) (q : BitVec 32) : Prop :=
  ∃ x shared, k.StageMaps b info q x shared ∧ (shared = true → out.page q = x) ∧
    (shared = false → ∃ out₂ log₂, k.Translates (.ofPage x) b.guestmap out₂ log₂ ∧
      ¬Denied out₂.xwru ∧ out.page q = out₂.page x)

/-- What a translation asks for on its way, and of which stage. -/
inductive Asks (t₀ : Translation) (info : AsidEntry) : Translation → AsidEntry → Prop
  | start : Asks t₀ info t₀ info
  | onward {t u : Translation} {m : AsidEntry} {b : VmMap} (h : Asks t₀ info t m)
      (hb : k.vmblocks m.vmid = some b) (hu : k.StageTo b m t u) (hs : u.shared = false)
      (hmap : b.guestmap ≠ noMap) : Asks t₀ info u b.guestmap

end Maps

/-! ## A larger block -/

theorem Within.and {a b : BitVec 4} (h : Within a b) (p : BitVec 4) :
    Within (a &&& p) (b &&& p) := by
  calc a &&& p &&& (b &&& p) = a &&& b &&& (p &&& p) := by ac_rfl
    _ = a &&& p := by rw [h, BitVec.and_self]

theorem within_ones : ∀ a : BitVec 4, Within a 0xf := by
  unfold Within
  decide

/-- Only the low bits of a page matter to where a translation sends it. -/
theorem Translation.page_congr {t : Translation} {q q' : BitVec 32}
    (h : ∀ i, i < 2 * t.size.toNat → q.getLsbD i = q'.getLsbD i) : t.page q = t.page q' :=
  joinAt_congr (.refl _ _) h

/-- An entry for pages of `4 ^ s`, with the permissions `p`, is applied. -/
structure Applies (s : ℕ) (p : BitVec 4) (t u : Translation) : Prop where
  size : u.size.toNat = min t.size.toNat s
  xwru : u.xwru = t.xwru &&& p

/-- **More is asked for**: of a page that agrees from bit `n` on. -/
structure Grows (n : ℕ) (t t' : Translation) : Prop where
  pn : AgreeFrom n t.pn t'.pn
  size : t.size.toNat ≤ t'.size.toNat
  size' : t'.size.toNat ≤ 10
  xwru : Within t.xwru t'.xwru
  shared : t.shared = t'.shared

/-- **More is given** to a request, and in the same place. -/
structure Fits (t' out out' : Translation) : Prop where
  size : out.size.toNat ≤ out'.size.toNat
  xwru : Within out.xwru out'.xwru
  page : out'.page t'.pn = out.page t'.pn

/-- **A stage treats a block alike**, that of a page from bit `n` on.

For a list: all pages of the block have the same entry, and above `n` the entry has the bits of the
page, which it drops.  For a table of two levels: the four words of a 16 MB page agree, if the block
is one.  For an offset: it is a multiple of the pages that come out, and at the lowest level no
window and no fence cuts the block.  For a radix table: its first table is no larger than what it is
for, or the block is a page whose leaf has its low bits. -/
structure Maps.Uniform (k : Maps) (n : ℕ) (b : VmMap) (m : AsidEntry) (t : Translation) : Prop where
  list : m.type = 0 → ∀ e, k.ListFinds b m.ptb t.pn e →
    (∀ i, n ≤ i → i < 2 * e.size.toNat → e.pageNumber.getLsbD i = t.pn.getLsbD i) ∧
    ∀ q, AgreeFrom n t.pn q → k.ListFinds b m.ptb q e
  table : m.type = 1 → 10 < n → ∀ ppn q, k.Level1Page b m.ptb ppn → AgreeFrom n t.pn q →
    k.level1 ppn q = k.level1 ppn t.pn
  offset : m.type = 2 → b.guestmap ≠ noMap → ∀ t' out log, Grows n t t' →
    k.Translates t' m out log → 4 ^ out.size.toNat ∣ (OffsetFmt.pages m.ptb).toNat
  lowest : m.type = 2 → b.guestmap = noMap → ∀ t', Grows n t t' →
    k.inWindow t'.pn = k.inWindow t.pn ∧
    (k.inWindow t.pn = false →
      k.offsetLowest b t'.pn (offsetUpdate t' m.ptb) = offsetUpdate t' m.ptb ∧
      4 ^ (offsetUpdate t' m.ptb).size.toNat ∣ (OffsetFmt.pages m.ptb).toNat)
  radix : m.type = 3 → (ct0 m.ptb ≤ m.extra.toNat ∧ m.extra.toNat < 128) ∨
    (n = 0 ∧ ∀ new, k.RadixFinds b m.ptb (m.extra.setWidth 32) t.pn new →
      ∀ i, i < 2 * new.size.toNat → new.pn.getLsbD i = t.pn.getLsbD i)

section Grows

variable {s n : ℕ} {p : BitVec 4} {t t' u u' out out' : Translation}

theorem Grows.self (h : Grows n t t') : Grows n t t :=
  ⟨.refl _ _, Nat.le_refl _, h.size.trans h.size', .refl _, rfl⟩

theorem Grows.stage (h : Grows n t t') (hu : Applies s p t u) (hu' : Applies s p t' u')
    (hpn : AgreeFrom n u.pn u'.pn) (hshared : u.shared = u'.shared) : Grows n u u' where
  pn := hpn
  size := by
    have := h.size
    rw [hu.size, hu'.size]
    omega
  size' := by
    have := h.size'
    rw [hu'.size]
    omega
  xwru := by
    rw [hu.xwru, hu'.xwru]
    exact h.xwru.and p
  shared := hshared

/-- What is given to what a stage has made of a request is given to the request, if the stage keeps
the bits between the two blocks. -/
theorem Fits.stage (h : Fits u' out out') (hlow : ∀ i, 2 * out.size.toNat ≤ i →
    i < 2 * out'.size.toNat → u'.pn.getLsbD i = t'.pn.getLsbD i) : Fits t' out out' where
  size := h.size
  xwru := h.xwru
  page := by
    refine eq_of_getLsbD_eq fun i _ => ?_
    have hbit := congrArg (·.getLsbD i) h.page
    have hsize := h.size
    simp only [Translation.page, getLsbD_joinAt] at hbit ⊢
    by_cases hin : i < 2 * out.size.toNat
    · rw [if_pos hin, if_pos (by omega)]
    rw [if_neg hin] at hbit ⊢
    by_cases hin' : i < 2 * out'.size.toNat
    · rw [if_pos hin'] at hbit ⊢
      rw [← hlow i (by omega) hin', hbit]
    · rwa [if_neg hin'] at hbit ⊢

/-- Where no further stage comes. -/
theorem Grows.fits (h : Grows (2 * t.size.toNat) t t') : Fits t' t t' where
  size := h.size
  xwru := h.xwru
  page := by
    rw [Translation.page, joinAt_self (.refl _ _), Translation.page, joinAt_self h.pn]

end Grows

/-! ## What the entries do -/

theorem applies_linear (t : Translation) (e : LinearFmt) :
    Applies e.size.toNat e.xwru t (linearTranslateUpdate t e) :=
  ⟨toNat_minSize _ _, rfl⟩

theorem mask_eq_not_allOnes_shiftLeft : ∀ s < 8,
    (1#32 <<< (2 * s)) - 1 = ~~~(allOnes 32 <<< (2 * s)) := by
  decide

theorem pagewalkUpdateTranslation_pn (t : Translation) (pte : Pte) :
    (pagewalkUpdateTranslation t pte).pn = joinAt (2 * Pte.s pte) (Pte.ppn pte) t.pn := by
  simp only [pagewalkUpdateTranslation]
  rw [mask_eq_not_allOnes_shiftLeft _ (BitVec.isLt _), BitVec.or_comm]
  rfl

theorem applies_pagewalk (t : Translation) (pte : Pte) :
    Applies (Pte.s pte) (Pte.xwru pte) t (pagewalkUpdateTranslation t pte) where
  size := by
    have hs : Pte.s pte < 8 := isLt _
    have hofNat : (BitVec.ofNat 4 (Pte.s pte)).toNat = Pte.s pte := by
      rw [toNat_ofNat, Nat.mod_eq_of_lt (by omega)]
    exact (toNat_minSize _ _).trans (by rw [hofNat])
  xwru := rfl

theorem varadixUpdate_size {t new : Translation} (hnew : new ≠ translateBad) :
    (varadixUpdate t new).size.toNat = min t.size.toNat new.size.toNat := by
  rw [varadixUpdate, if_neg hnew]
  exact (toNat_minSize new.size _).trans (Nat.min_comm _ _)

theorem varadixUpdate_pn (t new : Translation) : (varadixUpdate t new).pn = new.pn := by
  unfold varadixUpdate
  split <;> rfl

theorem varadixUpdate_shared (t new : Translation) : (varadixUpdate t new).shared = new.shared := by
  unfold varadixUpdate
  split <;> rfl

theorem applies_varadix (t new : Translation) (hnew : new ≠ translateBad) :
    Applies new.size.toNat new.xwru t (varadixUpdate t new) :=
  ⟨varadixUpdate_size hnew, varadixUpdate_xwru t new⟩

theorem applies_offset (t : Translation) (o : OffsetFmt) :
    Applies o.size.toNat o.xwru t (offsetUpdate t o) :=
  ⟨(toNat_minSize o.size _).trans (Nat.min_comm _ _), rfl⟩

theorem two_pow_two_mul (s : ℕ) : 2 ^ (2 * s) = 4 ^ s := Nat.pow_mul ..

/-! ## A stage that treats a block alike -/

namespace Maps

variable {k : Maps} {b : VmMap} {m info : AsidEntry} {n depth : ℕ} {t t₀ t' u u' out : Translation}
  {log : List WalkEvent}

theorem ne_bad {new : Translation} (h : ¬Denied new.xwru) : new ≠ translateBad := by
  rintro rfl
  exact h rfl

/-- A page that a radix table has, as the pages of its block have it. -/
theorem varadix_block {p q ptb : BitVec 32} {extra : BitVec 8} {next : TransCalls}
    {new : Translation}
    (hptb : ct0 ptb ≤ extra.toNat ∧ extra.toNat < 128) (hnew : new ≠ translateBad)
    (h : (k.varadixNew next b p ptb (extra.setWidth 32)).Yields new log)
    (hpq : AgreeFrom (2 * new.size.toNat) p q) :
    ∃ pn, (k.varadixNew next b q ptb (extra.setWidth 32)).Yields { new with pn := pn } log ∧
      (∀ i, i < 2 * new.size.toNat → pn.getLsbD i = q.getLsbD i) ∧
      ∀ n, AgreeFrom n p q → AgreeFrom n new.pn pn := by
  obtain ⟨σ, hσ, hblock⟩ := varadixNew_congr hptb.1 hptb.2 hnew h
  have hself : new.pn = joinAt σ new.pn p :=
    congrArg Translation.pn (h.inj (hblock p (.refl _ _))).1
  have hq := hblock q (hpq.mono hσ)
  refine ⟨_, hq, fun i hi => ?_, fun n hn => ?_⟩
  · exact (getLsbD_joinAt ..).trans (if_pos (by omega))
  · have hjoin : AgreeFrom n (joinAt σ new.pn p) (joinAt σ new.pn q) := agreeFrom_joinAt_joinAt hn
    rwa [← hself] at hjoin

/-- What an offset makes of a translation. -/
theorem StageTo.eq_offset (h : k.StageTo b m t u) (htype : m.type = 2) :
    u = offsetUpdate t m.ptb := by
  cases h with
  | list htype' | table htype' | radix htype' => exact absurd (htype.symm.trans htype') (by decide)
  | offset => rfl

/-- **What a stage makes of a request for more**, as it makes `u` of another: more, of a page that
is where the stage sends the page, and it keeps the bits between the blocks. -/
structure Matches (k : Maps) (n : ℕ) (b : VmMap) (m : AsidEntry) (t' u u' : Translation) :
    Prop where
  stage : k.StageTo b m t' u'
  grows : Grows n u u'
  maps : k.StageMaps b m t'.pn (joinAt n u'.pn t'.pn) u'.shared
  kept : ∀ out log, k.Translates t' m out log → out.size.toNat ≤ u'.size.toNat →
    ∀ i, n ≤ i → i < 2 * out.size.toNat → u'.pn.getLsbD i = t'.pn.getLsbD i

/-- A page number with its own low bits. -/
theorem joinAt_of_low {x q : BitVec 32} (h : ∀ i, i < n → x.getLsbD i = q.getLsbD i) :
    joinAt n x q = x :=
  (joinAt_congr (.refl _ _) fun i hi => (h i hi).symm).trans (joinAt_self (.refl _ _))

section Matches

variable (huni : k.Uniform n b m t) (hgrows : Grows n t t')

include huni hgrows

theorem matches_list {e : LinearFmt} (htype : m.type = 0) (h : k.ListFinds b m.ptb t.pn e)
    (hn : n ≤ 2 * e.size.toNat) : ∃ u', k.Matches n b m t' (linearTranslateUpdate t e) u' := by
  obtain ⟨hlow, hblock⟩ := huni.list htype e h
  have hfinds := hblock _ hgrows.pn
  have hkept (i : ℕ) (hi : n ≤ i) (hi' : i < 2 * e.size.toNat) :
      e.pageNumber.getLsbD i = t'.pn.getLsbD i :=
    (hlow i hi hi').trans (agreeFrom_iff.mp hgrows.pn i hi)
  have hjoin : joinAt (2 * e.size.toNat) e.pageNumber t'.pn = joinAt n e.pageNumber t'.pn := by
    refine eq_of_getLsbD_eq fun i _ => ?_
    rw [getLsbD_joinAt, getLsbD_joinAt]
    by_cases hin : i < n
    · rw [if_pos hin, if_pos (by omega)]
    rw [if_neg hin]
    split
    · next hi => exact (hkept i (by omega) hi).symm
    · rfl
  refine ⟨linearTranslateUpdate t' e, .list htype hfinds,
    hgrows.stage (applies_linear t e) (applies_linear t' e) (.refl _ _) rfl,
    hjoin ▸ .list htype hfinds, fun out log _ hle i hi hi' => hkept i hi ?_⟩
  have := (applies_linear t' e).size
  omega

theorem matches_table {pte : Pte} (htype : m.type = 1) (h : k.TableFinds b m.ptb t.pn pte)
    (hn : n ≤ 2 * Pte.s pte) : ∃ u', k.Matches n b m t' (pagewalkUpdateTranslation t pte) u' := by
  obtain ⟨depth, log, h⟩ := h
  have hword (ppn : BitVec 32) (hppn : k.Level1Page b m.ptb ppn) :
      k.level1 ppn t'.pn = k.level1 ppn t.pn := by
    by_cases hlarge : 10 < n
    · exact huni.table htype hlarge ppn t'.pn hppn hgrows.pn
    · exact (level1_congr (hgrows.pn.mono (by omega))).symm
  obtain ⟨log', h'⟩ := memPagewalkL1_congr hword h (hgrows.pn.mono hn)
  have hlow (i : ℕ) (hi : i < 2 * Pte.s pte) :
      (pagewalkUpdateTranslation t' pte).pn.getLsbD i = t'.pn.getLsbD i := by
    rw [pagewalkUpdateTranslation_pn, getLsbD_joinAt, if_pos hi]
  have hpn : AgreeFrom n (pagewalkUpdateTranslation t pte).pn
      (pagewalkUpdateTranslation t' pte).pn := by
    rw [pagewalkUpdateTranslation_pn, pagewalkUpdateTranslation_pn]
    exact agreeFrom_joinAt_joinAt hgrows.pn
  refine ⟨pagewalkUpdateTranslation t' pte, .table htype ⟨depth, log', h'⟩,
    hgrows.stage (applies_pagewalk t pte) (applies_pagewalk t' pte) hpn rfl, ?_,
    fun out log _ hle i _ hi => hlow i ?_⟩
  · rw [joinAt_of_low fun i hi => hlow i (by omega), pagewalkUpdateTranslation_pn]
    exact .table htype ⟨depth, log', h'⟩
  · have := (applies_pagewalk t' pte).size
    omega

theorem matches_offset (htype : m.type = 2) (hmap : b.guestmap ≠ noMap) (hs : t'.shared = false)
    (hn : n ≤ 32) (hdvd : 2 ^ n ∣ (OffsetFmt.pages m.ptb).toNat) :
    ∃ u', k.Matches n b m t' (offsetUpdate t m.ptb) u' := by
  have hshared : (offsetUpdate t' m.ptb).shared = false := hs
  have hjoin : joinAt n (offsetUpdate t' m.ptb).pn t'.pn = t'.pn + OffsetFmt.pages m.ptb :=
    joinAt_of_low fun i hi => getLsbD_add_of_dvd hdvd hn hi
  refine ⟨offsetUpdate t' m.ptb, .offset htype, hgrows.stage (applies_offset t m.ptb)
    (applies_offset t' m.ptb) (hgrows.pn.add hdvd hn) hgrows.shared, ?_,
    fun out log h _ i _ hi => ?_⟩
  · rw [hjoin, hshared]
    exact .offset htype
  · have hout := huni.offset htype hmap t' out log hgrows h
    rw [← two_pow_two_mul] at hout
    exact getLsbD_add_of_dvd hout (by omega) hi

theorem matches_radix {new : Translation} (htype : m.type = 3)
    (h : k.RadixFinds b m.ptb (m.extra.setWidth 32) t.pn new) (hnew : ¬Denied new.xwru)
    (hn : n ≤ 2 * new.size.toNat) : ∃ u', k.Matches n b m t' (varadixUpdate t new) u' := by
  -- the leaf of the page that is asked for
  have hleaf : ∃ pn, k.RadixFinds b m.ptb (m.extra.setWidth 32) t'.pn { new with pn := pn } ∧
      AgreeFrom n new.pn pn ∧ ∀ i, i < 2 * new.size.toNat → pn.getLsbD i = t'.pn.getLsbD i := by
    rcases huni.radix htype with hptb | ⟨rfl, hlow⟩
    · obtain ⟨depth, log, h⟩ := h
      obtain ⟨pn, h', hlow, hpn⟩ := varadix_block hptb (ne_bad hnew) h (hgrows.pn.mono hn)
      exact ⟨pn, ⟨depth, log, h'⟩, hpn n hgrows.pn, hlow⟩
    · have hpn := hgrows.pn.eq_of_zero
      exact ⟨new.pn, hpn ▸ h, .refl _ _, hpn ▸ hlow new h⟩
  obtain ⟨pn, h', hpn, hlow⟩ := hleaf
  have hpn' : (varadixUpdate t' { new with pn := pn }).pn = pn := varadixUpdate_pn _ _
  have hu' : Applies new.size.toNat new.xwru t' (varadixUpdate t' { new with pn := pn }) :=
    applies_varadix t' { new with pn := pn } (ne_bad hnew)
  refine ⟨varadixUpdate t' { new with pn := pn }, .radix htype h',
    hgrows.stage (applies_varadix t new (ne_bad hnew)) hu' ?_ ?_, ?_,
    fun out log _ hle i _ hi => ?_⟩
  · rwa [varadixUpdate_pn, hpn']
  · rw [varadixUpdate_shared, varadixUpdate_shared]
  · rw [hpn', joinAt_of_low fun i hi => hlow i (by omega), varadixUpdate_shared]
    exact .radix htype h'
  · have := hu'.size
    rw [hpn']
    exact hlow i (by omega)

end Matches

/-- **A stage that is not the end treats a request for more alike**, where it treats the block
alike. -/
theorem exists_matches (huni : k.Uniform (2 * out.size.toNat) b m t)
    (hgrows : Grows (2 * out.size.toNat) t t') (hs : t'.shared = false)
    (hmap : m.type = 2 → b.guestmap ≠ noMap) (hu : k.StageTo b m t u) (hout : ¬Denied out.xwru)
    (h : k.Translates t m out log) {log' : List WalkEvent} (hshrinks : Shrinks u out log') :
    ∃ u', k.Matches (2 * out.size.toNat) b m t' u u' := by
  have hsize : out.size.toNat ≤ u.size.toNat := hshrinks.size
  cases hu with
  | @list e htype hfinds =>
    have := (applies_linear t e).size
    exact matches_list huni hgrows htype hfinds (by omega)
  | @table pte htype hfinds =>
    have := (applies_pagewalk t pte).size
    exact matches_table huni hgrows htype hfinds (by omega)
  | offset htype =>
    have hdvd := huni.offset htype (hmap htype) t out log hgrows.self h
    exact matches_offset huni hgrows htype (hmap htype) hs (by omega) (two_pow_two_mul _ ▸ hdvd)
  | @radix new htype hfinds =>
    have hnew : ¬Denied new.xwru := fun hnew =>
      hout (hshrinks.xwru.and_eq_zero (varadixUpdate_xwru t new ▸ denied_and hnew))
    have := varadixUpdate_size (t := t) (ne_bad hnew)
    exact matches_radix huni hgrows htype hfinds hnew (by omega)

/-- **An offset at the lowest level.** -/
theorem offsetLowest_fits {o : OffsetFmt}
    (huni : ∀ t', Grows (2 * out.size.toNat) t t' → k.inWindow t'.pn = k.inWindow t.pn ∧
      (k.inWindow t.pn = false → k.offsetLowest b t'.pn (offsetUpdate t' o) = offsetUpdate t' o ∧
        4 ^ (offsetUpdate t' o).size.toNat ∣ o.pages.toNat))
    (hgrows : Grows (2 * out.size.toNat) t t')
    (hout : out = k.offsetLowest b t.pn (offsetUpdate t o)) :
    Fits t' out (k.offsetLowest b t'.pn (offsetUpdate t' o)) := by
  have hu := applies_offset t o
  have hu' := applies_offset t' o
  obtain ⟨hwin', hlow'⟩ := huni t' hgrows
  rcases hwin : k.inWindow t.pn with _ | _
  · obtain ⟨hsame', hdvd'⟩ := hlow' hwin
    obtain ⟨hsame, hdvd⟩ := (huni t hgrows.self).2 hwin
    rw [hsame] at hout
    subst hout
    rw [← two_pow_two_mul] at hdvd hdvd'
    have hpn := hgrows.pn.add hdvd (by omega)
    rw [hsame']
    exact (hgrows.stage hu hu' hpn hgrows.shared).fits.stage fun i _ hi =>
      getLsbD_add_of_dvd hdvd' (by omega) hi
  · have hlowest {t : Translation} (h : k.inWindow t.pn = true) (u : Translation) :
        k.offsetLowest b t.pn u = { u with pn := t.pn } := if_pos h
    rw [hlowest hwin] at hout
    subst hout
    rw [hlowest (hwin'.trans hwin)]
    have hshared : (offsetUpdate t o).shared = (offsetUpdate t' o).shared := hgrows.shared
    generalize offsetUpdate t o = u, offsetUpdate t' o = u' at *
    have hgrows' : Grows (2 * u.size.toNat) { u with pn := t.pn } { u' with pn := t'.pn } :=
      hgrows.stage ⟨hu.size, hu.xwru⟩ ⟨hu'.size, hu'.xwru⟩ hgrows.pn hshared
    exact hgrows'.fits.stage fun _ _ _ => rfl

/-! ## The whole translation -/

section Walk

variable (huni : ∀ t m b, k.Asks t₀ info t m → k.vmblocks m.vmid = some b →
    k.Uniform (2 * out.size.toNat) b m t) (hout : ¬Denied out.xwru)

include huni hout

/-- **Where more is asked for, more is given**, and in the same place. -/
theorem unroll_fits : ∀ (depth : ℕ) (t t' : Translation) (m : AsidEntry) (log : List WalkEvent),
    k.Asks t₀ info t m → t.shared = false → Grows (2 * out.size.toNat) t t' →
    (unroll k.translateFuncs depth (t, m)).Yields out log →
    ∃ out' log', k.Translates t' m out' log' ∧ Fits t' out out'
  | 0, _, _, _, _, _, _, _, h => absurd h not_yields_stuck
  | depth + 1, t, t', m, log, hasks, hs, hgrows, h => by
    obtain ⟨b, u, hb, hu, hrest⟩ := stage_of_yields hout h
    have hs' : t'.shared = false := hgrows.shared ▸ hs
    by_cases hlow : m.type = 2 ∧ b.guestmap = noMap
    · obtain ⟨htype, hmap⟩ := hlow
      obtain ⟨-, hmap', -⟩ | ⟨-, hlast⟩ := hrest
      · exact absurd hmap hmap'
      obtain ⟨l, h'⟩ := translates_of_stage hb (.offset (t := t') htype) (.inr ⟨.inr hmap, rfl⟩)
      rw [hu.eq_offset htype, lastOf, if_pos htype] at hlast
      rw [lastOf, if_pos htype] at h'
      exact ⟨_, l, h', offsetLowest_fits ((huni t m b hasks hb).lowest htype hmap) hgrows hlast⟩
    have hmap : m.type = 2 → b.guestmap ≠ noMap := fun htype hmap => hlow ⟨htype, hmap⟩
    obtain ⟨l, hshrinks⟩ := hrest.shrinks
    obtain ⟨u', hmatch⟩ :=
      exists_matches (huni t m b hasks hb) hgrows hs' hmap hu hout ⟨_, h⟩ hshrinks
    rcases hrest with ⟨hus, hmap', l, h⟩ | ⟨hend, hlast⟩
    · obtain ⟨out', l', h', hfits⟩ := unroll_fits depth u u' b.guestmap l
        (.onward hasks hb hu hus hmap') hus hmatch.grows h
      obtain ⟨l'', htrans⟩ := translates_of_stage hb hmatch.stage
        (.inl ⟨hmatch.grows.shared ▸ hus, hmap', l', h'⟩)
      exact ⟨out', l'', htrans, hfits.stage (hmatch.kept out' l'' htrans h'.shrinks.size)⟩
    · have htype : m.type ≠ 2 := by
        intro htype
        rw [hu.eq_offset htype] at hend
        exact hend.elim (fun hus => nomatch hs.symm.trans hus) (hmap htype)
      rw [lastOf, if_neg htype] at hlast
      subst hlast
      obtain ⟨l', htrans⟩ := translates_of_stage hb hmatch.stage
        (.inr ⟨hmatch.grows.shared ▸ hend, rfl⟩)
      rw [lastOf, if_neg htype] at htrans
      exact ⟨u', l', htrans, hmatch.grows.fits.stage (hmatch.kept u' l' htrans le_rfl)⟩

end Walk

end Maps

/-- A guest, the VM in slot 2, with a table of 4 MB pages, that has its memory by an offset of 1 MB
pages; all words of memory are the same. -/
def largePages : Maps where
  mem _ := 0x00400fe5
  vmblocks vmid :=
    if vmid = 1 then some ⟨noMap, 0, 0xfff00⟩
    else if vmid = 2 then some ⟨⟨0x01000f74, 0, 1, 2, 0, 0⟩, 0, -1⟩
    else none
  tcmBase := 0
  tcmSize := 0
  vtcmBase := 0
  vtcmSize := 0

/-- The walk asks the table for the page, and the offset for where the table sends it. -/
theorem largePages_asks {t : Translation} {m : AsidEntry}
    (h : largePages.Asks (.ofPage 0x1234) ⟨0x5000, 1, 2, 1, 0, 0⟩ t m) :
    m = ⟨0x5000, 1, 2, 1, 0, 0⟩ ∧ t = .ofPage 0x1234 ∨
      m = ⟨0x01000f74, 0, 1, 2, 0, 0⟩ ∧ t.pn = 0x634 := by
  induction h with
  | start => exact .inl ⟨rfl, rfl⟩
  | onward _ hb hu _ hmap ih =>
    rcases ih with ⟨rfl, rfl⟩ | ⟨rfl, -⟩
    · cases hb
      refine .inr ⟨rfl, ?_⟩
      cases hu with
      | table _ h =>
        have hpte : largePages.TableFinds ⟨⟨0x01000f74, 0, 1, 2, 0, 0⟩, 0, -1⟩ 0x5000 0x1234
            0x00400fe5 := by
          refine ⟨1, [.page (.ofPage 5) ⟨0x01000f74, 0, 1, 2, 0, 0⟩, .read 0x1005010], ?_⟩
          decide +kernel
        rw [Maps.finds_inj (fun hnext => (Maps.memPagewalkL1_looks hnext _ _ _).le) h hpte]
        decide
      | list htype | offset htype | radix htype => cases htype
    · cases hb
      exact absurd rfl hmap

theorem largePages_uniform (t : Translation) (m : AsidEntry) (c : VmMap)
    (h : largePages.Asks (.ofPage 0x1234) ⟨0x5000, 1, 2, 1, 0, 0⟩ t m)
    (hc : largePages.vmblocks m.vmid = some c) : largePages.Uniform 8 c m t := by
  rcases largePages_asks h with ⟨rfl, rfl⟩ | ⟨rfl, hpn⟩
  · exact ⟨nofun, fun _ hlarge => absurd hlarge (by decide), nofun, nofun, nofun⟩
  cases hc
  refine ⟨nofun, nofun, fun _ hmap => absurd rfl hmap, fun _ _ t' hgrows => ?_, nofun⟩
  have hwin (q : BitVec 32) : largePages.inWindow q = false := by simp [Maps.inWindow, largePages]
  refine ⟨by rw [hwin, hwin], fun _ => ?_⟩
  have hsize : (offsetUpdate t' 0x01000f74).size.toNat ≤ 4 :=
    (applies_offset t' 0x01000f74).size ▸ Nat.min_le_right _ _
  have hpages : 4 ^ (offsetUpdate t' 0x01000f74).size.toNat ∣ 4 ^ 4 := Nat.pow_dvd_pow 4 hsize
  refine ⟨?_, hpages.trans (by decide)⟩
  rw [Maps.offsetLowest, hwin, if_neg (by decide), if_neg]
  have hle := Nat.le_of_dvd (by decide) hpages
  have hblock := agreeFrom_iff_div.mp hgrows.pn
  have hto : (offsetUpdate t' 0x01000f74).pn.toNat = (t'.pn.toNat + 0x1000) % 2 ^ 32 :=
    toNat_add _ _
  rw [hpn] at hblock
  have hfence : ((0xfff00 : BitVec 32) +
      1#32 <<< (2 * (offsetUpdate t' 0x01000f74).size.toNat)).toNat =
      (0xfff00 + 4 ^ (offsetUpdate t' 0x01000f74).size.toNat) % 2 ^ 32 := by
    rw [toNat_add, toNat_pages (hsize.trans (by decide))]
    rfl
  simp only [lt_def, le_def, hfence, hto]
  change 6 = t'.pn.toNat / 2 ^ 8 at hblock
  have hzero : (0 : BitVec 32).toNat = 0 := rfl
  omega

/-- A guest, the VM in slot 2, with a list of one page of 16 KB, `0x20` to `0x23`, that has its
memory by an offset of 4 KB pages. -/
def smallPages : Maps where
  mem pa := if pa = 0x105000 then 0xf0000040 else if pa = 0x105004 then 0x00100020 else 0
  vmblocks vmid :=
    if vmid = 1 then some ⟨noMap, 0, 0xfff00⟩
    else if vmid = 2 then some ⟨⟨0x00100f70, 0, 1, 2, 0, 0⟩, 0, -1⟩
    else none
  tcmBase := 0
  tcmSize := 0
  vtcmBase := 0
  vtcmSize := 0

end H2
