import H2.Mem.Linear
import H2.Mem.Permissions

/-!
# Mem/Stages — the stages of a translation

A translation is one stage after the other: a stage looks a page up and makes something of the
translation (`Maps.StageTo`), and then the guestmap goes on from there, or nothing does
(`Maps.stage_of_yields`, `Maps.translates_of_stage`).  Where it sends the page, by itself, is
`Maps.StageMaps`.

A stage says where a page goes for a block of pages at once.  In a table of two levels all pages of
the block find the same entry, if the four words of a 16 MB page agree (`memPagewalkL1_congr`), and
in a table of variable radix the same leaf (`varadixNew_congr`).
-/

namespace H2

open Walk BitVec

/-- **The physical page** that a translation gives to a page it covers. -/
def Translation.page (t : Translation) (q : BitVec 32) : BitVec 32 :=
  joinAt (2 * t.size.toNat) t.pn q

namespace Maps

variable (k : Maps)

/-! ## One stage -/

/-- A list has this entry for a page. -/
def ListFinds (b : VmMap) (ptb q : BitVec 32) (e : LinearFmt) : Prop :=
  ∃ depth log, (unroll (turn (k.linearStep (unroll k.translateFuncs depth) b q)) listPositions
    (.start ptb)).Yields (some e) log

/-- A table of two levels has this entry for a page. -/
def TableFinds (b : VmMap) (ptb q : BitVec 32) (pte : Pte) : Prop :=
  ∃ depth log, (k.memPagewalkL1 (unroll k.translateFuncs depth) b q ptb).Yields pte log

/-- A table of variable radix has this translation for a page. -/
def RadixFinds (b : VmMap) (ptb vpnbits q : BitVec 32) (new : Translation) : Prop :=
  ∃ depth log, (k.varadixNew (unroll k.translateFuncs depth) b q ptb vpnbits).Yields new log

/-- **Where one stage sends a page**, and whether that is shared. -/
inductive StageMaps (b : VmMap) (info : AsidEntry) (q : BitVec 32) : BitVec 32 → Bool → Prop
  | list {e : LinearFmt} (htype : info.type = 0) (h : k.ListFinds b info.ptb q e) :
      StageMaps b info q (joinAt (2 * e.size.toNat) e.pageNumber q) e.shared
  | table {pte : Pte} (htype : info.type = 1) (h : k.TableFinds b info.ptb q pte) :
      StageMaps b info q (joinAt (2 * Pte.s pte) pte.ppn q) pte.shared
  | offset (htype : info.type = 2) : StageMaps b info q (q + OffsetFmt.pages info.ptb) false
  | radix {new : Translation} (htype : info.type = 3)
      (h : k.RadixFinds b info.ptb (info.extra.setWidth 32) q new) :
      StageMaps b info q new.pn new.shared

/-- **What one stage makes of a translation.** -/
inductive StageTo (b : VmMap) (info : AsidEntry) (t : Translation) : Translation → Prop
  | list {e : LinearFmt} (htype : info.type = 0) (h : k.ListFinds b info.ptb t.pn e) :
      StageTo b info t (linearTranslateUpdate t e)
  | table {pte : Pte} (htype : info.type = 1) (h : k.TableFinds b info.ptb t.pn pte) :
      StageTo b info t (pagewalkUpdateTranslation t pte)
  | offset (htype : info.type = 2) : StageTo b info t (offsetUpdate t info.ptb)
  | radix {new : Translation} (htype : info.type = 3)
      (h : k.RadixFinds b info.ptb (info.extra.setWidth 32) t.pn new) :
      StageTo b info t (varadixUpdate t new)

/-- What comes out where no further stage comes: an offset looks at the windows and the fences. -/
def lastOf (b : VmMap) (info : AsidEntry) (t u : Translation) : Translation :=
  if info.type = 2 then k.offsetLowest b t.pn u else u

/-- After a stage has made `u` of `t` comes the call of the guestmap, or the end. -/
def Rest (b : VmMap) (info : AsidEntry) (t u out : Translation) (call : Prop) : Prop :=
  (u.shared = false ∧ b.guestmap ≠ noMap ∧ call) ∨
    ((u.shared = true ∨ b.guestmap = noMap) ∧ out = k.lastOf b info t u)

section Inj

variable {k : Maps} {b : VmMap} {info : AsidEntry} {q x x' : BitVec 32} {s s' : Bool}

theorem finds_inj {α : Type} {F : TransCalls → TableWalk α}
    (hF : ∀ {next next'}, (∀ x, (next x).Le (next' x)) → (F next).Le (F next')) {a a' : α}
    (h : ∃ depth log, (F (unroll k.translateFuncs depth)).Yields a log)
    (h' : ∃ depth log, (F (unroll k.translateFuncs depth)).Yields a' log) : a = a' := by
  obtain ⟨m, l, h⟩ := h
  obtain ⟨n, l', h'⟩ := h'
  have hle {d : ℕ} (hd : d ≤ max m n) := hF (unroll_le k.mono_translateFuncs hd)
  exact ((hle (le_max_left m n) a l h).inj (hle (le_max_right m n) a' l' h')).1

/-- **A stage sends a page to one place.** -/
theorem StageMaps.inj (h : k.StageMaps b info q x s) (h' : k.StageMaps b info q x' s') :
    x = x' ∧ s = s' := by
  cases h with
  | list htype h =>
    cases h' with
    | list _ h' =>
      have he := finds_inj (fun hnext => (Looks.loop (linearStep_looks hnext b q) _ _).le) h h'
      rw [Option.some.inj he]
      exact ⟨rfl, rfl⟩
    | table htype' | offset htype' | radix htype' =>
      exact absurd (htype.symm.trans htype') (by decide)
  | table htype h =>
    cases h' with
    | table _ h' =>
      rw [finds_inj (fun hnext => (memPagewalkL1_looks hnext b q _).le) h h']
      exact ⟨rfl, rfl⟩
    | list htype' | offset htype' | radix htype' =>
      exact absurd (htype.symm.trans htype') (by decide)
  | offset htype =>
    cases h' with
    | offset => exact ⟨rfl, rfl⟩
    | list htype' | table htype' | radix htype' =>
      exact absurd (htype.symm.trans htype') (by decide)
  | radix htype h =>
    cases h' with
    | radix _ h' =>
      rw [finds_inj (fun hnext => (varadixNew_looks hnext b q _ _).le) h h']
      exact ⟨rfl, rfl⟩
    | list htype' | table htype' | offset htype' =>
      exact absurd (htype.symm.trans htype') (by decide)

end Inj

/-! ## One stage and the rest -/

section Rest

variable {k : Maps} {b : VmMap} {info : AsidEntry} {t u out : Translation} {next : TransCalls}
  {log : List WalkEvent}

theorem rest_of_onward (htype : info.type ≠ 2) (h : (b.onward next u).Yields out log) :
    k.Rest b info t u out (∃ log, (next (u, b.guestmap)).Yields out log) := by
  rcases VmMap.yields_onward.mp h with ⟨hs, hmap, h⟩ | ⟨hs, rfl, -⟩
  · exact .inl ⟨hs, hmap, log, h⟩
  · exact .inr ⟨hs, (if_neg htype).symm⟩

theorem onward_of_rest (htype : info.type ≠ 2)
    (h : k.Rest b info t u out (∃ log, (next (u, b.guestmap)).Yields out log)) :
    ∃ log, (b.onward next u).Yields out log := by
  rcases h with ⟨hs, hmap, log, h⟩ | ⟨hs, rfl⟩
  · exact ⟨log, VmMap.yields_onward.mpr (.inl ⟨hs, hmap, h⟩)⟩
  · exact ⟨[], VmMap.yields_onward.mpr (.inr ⟨hs, if_neg htype, rfl⟩)⟩

/-- **A translation that grants something is a stage and the rest.** -/
theorem stage_of_yields {depth : ℕ} (hout : ¬Denied out.xwru)
    (h : (unroll k.translateFuncs (depth + 1) (t, info)).Yields out log) :
    ∃ b u, k.vmblocks info.vmid = some b ∧ k.StageTo b info t u ∧
      k.Rest b info t u out
      (∃ log, (unroll k.translateFuncs depth (u, b.guestmap)).Yields out log) := by
  change (k.translateFuncs (unroll k.translateFuncs depth) (t, info)).Yields out log at h
  simp only [translateFuncs] at h
  split at h
  · next htype =>
    have htype : info.type = 0 := eq_of_toNat_eq htype
    obtain ⟨b, r, l₁, l₂, hb, hloop, -, ⟨-, rfl, -⟩ | ⟨e, l₃, rfl, honward, -⟩⟩ :=
      yields_linearTranslate.mp h
    · exact absurd rfl hout
    · exact ⟨b, _, hb, .list htype ⟨depth, l₁, hloop⟩, rest_of_onward (by simp [htype]) honward⟩
  · next htype =>
    have htype : info.type = 1 := eq_of_toNat_eq htype
    obtain ⟨b, pte, l₁, l₂, hb, hpte, honward, -⟩ := yields_pagewalkTranslate.mp h
    exact ⟨b, _, hb, .table htype ⟨depth, l₁, hpte⟩, rest_of_onward (by simp [htype]) honward⟩
  · next htype =>
    have htype : info.type = 2 := eq_of_toNat_eq htype
    obtain ⟨b, l, hb, -, hrest⟩ := yields_offsetTranslate.mp h
    refine ⟨b, _, hb, .offset htype, ?_⟩
    rcases hrest with ⟨hs, hmap, h⟩ | ⟨hs, rfl, -⟩
    · exact .inl ⟨hs, hmap, l, h⟩
    · exact .inr ⟨hs, (if_pos htype).symm⟩
  · next htype =>
    have htype : info.type = 3 := eq_of_toNat_eq htype
    obtain ⟨b, new, l₁, l₂, hb, hnew, honward, -⟩ := yields_varadixTranslate.mp h
    exact ⟨b, _, hb, .radix htype ⟨depth, l₁, hnew⟩, rest_of_onward (by simp [htype]) honward⟩
  · exact absurd h not_yields_stuck

/-- The rest is the same at every depth that is enough. -/
theorem Rest.deep (h : k.Rest b info t u out (∃ log, k.Translates u b.guestmap out log)) :
    ∃ depth, ∀ d, depth ≤ d →
      k.Rest b info t u out
      (∃ log, (unroll k.translateFuncs d (u, b.guestmap)).Yields out log) := by
  rcases h with ⟨hs, hmap, log, depth, h⟩ | hend
  · exact ⟨depth, fun d hd =>
      .inl ⟨hs, hmap, log, unroll_le k.mono_translateFuncs hd _ _ _ h⟩⟩
  · exact ⟨0, fun _ _ => .inr hend⟩

/-- **A stage and the rest are a translation.** -/
theorem translates_of_stage (hb : k.vmblocks info.vmid = some b) (hu : k.StageTo b info t u)
    (hrest : k.Rest b info t u out (∃ log, k.Translates u b.guestmap out log)) :
    ∃ log, k.Translates t info out log := by
  obtain ⟨depth', hrest⟩ := hrest.deep
  -- a walker, at a depth that is enough for what it finds and for the rest
  have hdeep {depth : ℕ} := unroll_le k.mono_translateFuncs (le_max_left depth depth')
  cases hu with
  | @list e htype h =>
    obtain ⟨depth, l₁, hloop⟩ := h
    obtain ⟨l₂, honward⟩ := onward_of_rest (by simp [htype]) (hrest _ (le_max_right depth depth'))
    refine ⟨l₁ ++ .leaf e.xwru :: l₂, max depth depth' + 1, ?_⟩
    rw [translate_linear htype]
    exact yields_linearTranslate.mpr ⟨b, some e, l₁, _, hb,
      (Looks.loop (linearStep_looks hdeep b t.pn) _ _).le _ _ hloop, rfl,
      .inr ⟨e, l₂, rfl, honward, rfl⟩⟩
  | @table pte htype h =>
    obtain ⟨depth, l₁, hpte⟩ := h
    obtain ⟨l₂, honward⟩ := onward_of_rest (by simp [htype]) (hrest _ (le_max_right depth depth'))
    refine ⟨l₁ ++ .leaf (Pte.xwru pte) :: l₂, max depth depth' + 1, ?_⟩
    change (k.translateFuncs _ (t, info)).Yields out _
    simp only [translateFuncs, htype]
    exact yields_pagewalkTranslate.mpr
      ⟨b, _, l₁, l₂, hb, (memPagewalkL1_looks hdeep b _ _).le _ _ hpte, honward, rfl⟩
  | offset htype =>
    have hrest' := hrest depth' le_rfl
    have hyields : ∃ log,
        (k.offsetTranslate (unroll k.translateFuncs depth') t info).Yields out log := by
      simp only [yields_offsetTranslate]
      rcases hrest' with ⟨hs, hmap, l, h⟩ | ⟨hs, hout⟩
      · exact ⟨_, b, l, hb, rfl, .inl ⟨hs, hmap, h⟩⟩
      · exact ⟨_, b, [], hb, rfl, .inr ⟨hs, hout.trans (if_pos htype), rfl⟩⟩
    obtain ⟨log, h⟩ := hyields
    refine ⟨log, depth' + 1, ?_⟩
    change (k.translateFuncs _ (t, info)).Yields out _
    simp only [translateFuncs, htype]
    exact h
  | @radix new htype h =>
    obtain ⟨depth, l₁, hnew⟩ := h
    obtain ⟨l₂, honward⟩ := onward_of_rest (by simp [htype]) (hrest _ (le_max_right depth depth'))
    refine ⟨l₁ ++ .leaf new.xwru :: l₂, max depth depth' + 1, ?_⟩
    change (k.translateFuncs _ (t, info)).Yields out _
    simp only [translateFuncs, htype]
    exact yields_varadixTranslate.mpr
      ⟨b, _, l₁, l₂, hb, (varadixNew_looks hdeep b _ _ _).le _ _ hnew, honward, rfl⟩

/-- What comes out is no more than what the stage has made. -/
theorem Rest.shrinks {depth : ℕ} (h : k.Rest b info t u out
    (∃ log, (unroll k.translateFuncs depth (u, b.guestmap)).Yields out log)) :
    ∃ log, Shrinks u out log := by
  rcases h with ⟨-, -, log, h⟩ | ⟨-, rfl⟩
  · exact ⟨log, k.unroll_shrinks depth _ _ _ h⟩
  · unfold lastOf
    split
    · exact ⟨[], offsetLowest_shrinks _ _ _⟩
    · exact ⟨[], .refl _⟩

end Rest

/-! ## The words of a table -/

/-- A word of physical memory. -/
def wordAt (pa : BitVec 64) : BitVec 32 :=
  k.mem ((((pa >>> 11).setWidth 32).setWidth 64 <<< 11) |||
    ((pa.setWidth 32 &&& 0x7fc) &&& 0x7ff).setWidth 64)

/-- The word of the first level for a page, in the table on a physical page. -/
def level1 (ppn pn : BitVec 32) : Pte :=
  k.wordAt ((ppn.setWidth 64 <<< 12) ||| ((pn >>> 8) &&& 0xffc).setWidth 64)

/-- The physical page that the first level is on. -/
def Level1Page (b : VmMap) (ptb ppn : BitVec 32) : Prop :=
  (b.guestmap = noMap ∧ ppn = (translateDefault (ptb.setWidth 64)).pn) ∨
  ∃ tmp log, k.Translates (translateDefault (ptb.setWidth 64)) b.guestmap tmp log ∧ ppn = tmp.pn

end Maps

/-! ## The pages of a block find the same entry -/

theorem Pte.s_setS (raw : Pte) {n : ℕ} (hn : n < 8) : Pte.s (Pte.setS raw n) = n := by
  have hbits : BitVec.extractLsb' 0 3 (Pte.setS raw n) = BitVec.ofNat 3 n := by
    unfold setS
    refine eq_of_getLsbD_eq fun i hi => ?_
    have hseven : ∀ i < 3, Nat.testBit 7 i = true := by decide
    simp only [getLsbD_extractLsb', getLsbD_or, getLsbD_and, getLsbD_not,
      getLsbD_ofNat, Nat.mod_eq_of_lt hn, Nat.zero_add, hseven i hi, hi,
      show i < 32 by omega, decide_true, Bool.not_true, Bool.and_false, Bool.false_or,
      Bool.true_and]
  rw [s, hbits, toNat_ofNat, Nat.mod_eq_of_lt hn]

namespace Maps

variable {k : Maps} {b : VmMap} {ptb p q : BitVec 32} {next : TransCalls} {log : List WalkEvent}

theorem yields_physreadWord {pa : BitVec 64} {raw : BitVec 32}
    (h : (k.physreadWord pa).Yields raw log) : raw = k.wordAt pa := by
  obtain ⟨_, _, _, -, ⟨rfl, -⟩, -⟩ := h
  rfl

theorem physreadWord_yields (k : Maps) (pa : BitVec 64) :
    ∃ log, (k.physreadWord pa).Yields (k.wordAt pa) log := ⟨_, rfl⟩

/-- The second level is the same for the pages of a block. -/
theorem memPagewalkL2_congr {l2addr : BitVec 32} {pagesize : ℕ} (h : AgreeFrom (2 * pagesize) p q) :
    k.memPagewalkL2 next b p l2addr pagesize = k.memPagewalkL2 next b q l2addr pagesize := by
  unfold memPagewalkL2
  rw [show p >>> (2 * pagesize) = q >>> (2 * pagesize) from h]

theorem level1_congr {ppn : BitVec 32} (h : AgreeFrom 10 p q) :
    k.level1 ppn p = k.level1 ppn q := by
  have hidx : (p >>> 8) &&& 0xffc#32 = (q >>> 8) &&& 0xffc#32 := by
    refine eq_of_getLsbD_eq fun i hi => ?_
    by_cases h2 : i < 2
    · have : i = 0 ∨ i = 1 := by omega
      rcases this with rfl | rfl <;> simp
    · simp [agreeFrom_iff.mp h (8 + i) (by omega)]
  exact congrArg (fun i : BitVec 32 => k.wordAt ((ppn.setWidth 64 <<< 12) ||| i.setWidth 64)) hidx

/-- An entry of the second level has the size that the first level says. -/
theorem s_of_memPagewalkL2 {l2addr : BitVec 32} {pagesize : ℕ} (hsize : pagesize < 8) {pte : Pte}
    (h : (k.memPagewalkL2 next b p l2addr pagesize).Yields pte log) :
    pte = 0 ∨ Pte.s pte = pagesize := by
  obtain ⟨_ | raw, _, _, -, h, -⟩ := yields_bind.mp h
  · exact .inl (yields_pure.mp h).1
  · rw [(yields_pure.mp h).1]
    exact .inr (Pte.s_setS raw hsize)

theorem eq_of_agreeFrom_zero_pte {pte : Pte} (hpte : pte = 0) (h : AgreeFrom (2 * Pte.s pte) p q) :
    p = q := by
  subst hpte
  exact h.eq_of_zero

theorem memPagewalkAt_congr {ppn : BitVec 32} (hword : k.level1 ppn q = k.level1 ppn p) {pte : Pte}
    (h : (k.memPagewalkAt next b p ppn).Yields pte log) (hpq : AgreeFrom (2 * Pte.s pte) p q) :
    ∃ log', (k.memPagewalkAt next b q ppn).Yields pte log' := by
  by_cases heq : p = q
  · exact ⟨log, heq ▸ h⟩
  obtain ⟨_, l₁, l₂, hraw, hrest, rfl⟩ := yields_bind.mp h
  obtain rfl := yields_physreadWord hraw
  obtain ⟨l₁', hraw'⟩ := k.physreadWord_yields
    ((ppn.setWidth 64 <<< 12) ||| ((q >>> 8) &&& 0xffc).setWidth 64)
  change Walk.Yields (if Pte.s (k.level1 ppn p) ≤ 4 then _ else _) pte l₂ at hrest
  refine ⟨_, yields_bind.mpr ⟨k.level1 ppn q, l₁', l₂, hraw', ?_, rfl⟩⟩
  rw [hword]
  split at hrest
  · next hle =>
    rcases s_of_memPagewalkL2 (isLt _) hrest with hpte | hpte
    · exact absurd (eq_of_agreeFrom_zero_pte hpte hpq) heq
    · change Pte.s pte = Pte.s (k.level1 ppn p) at hpte
      rw [hpte] at hpq
      rw [if_pos hle, ← memPagewalkL2_congr hpq]
      exact hrest
  · next hgt =>
    rw [if_neg hgt]
    exact hrest

/-- **A table of two levels has the same entry for every page that the entry covers**, where it has
the same word in its first level. -/
theorem memPagewalkL1_congr {depth : ℕ}
    (hword : ∀ ppn, k.Level1Page b ptb ppn → k.level1 ppn q = k.level1 ppn p) {pte : Pte}
    (h : (k.memPagewalkL1 (unroll k.translateFuncs depth) b p ptb).Yields pte log)
    (hpq : AgreeFrom (2 * Pte.s pte) p q) :
    ∃ log', (k.memPagewalkL1 (unroll k.translateFuncs depth) b q ptb).Yields pte log' := by
  unfold memPagewalkL1 at h ⊢
  split at h
  · next hmap =>
    simp only [if_pos hmap]
    exact memPagewalkAt_congr (hword _ (.inl ⟨hmap, rfl⟩)) h hpq
  · next hmap =>
    simp only [if_neg hmap]
    obtain ⟨_ | tmp, l₁, l₂, hpage, hrest, rfl⟩ := yields_bind.mp h
    · exact ⟨_, yields_bind.mpr ⟨none, l₁, l₂, hpage, hrest, rfl⟩⟩
    · obtain ⟨out, l, hout, htmp, -⟩ := VmMap.yields_tablePage.mp hpage
      have hppn : k.Level1Page b ptb tmp.pn := by
        split at htmp
        · cases htmp
        · cases htmp
          exact .inr ⟨_, l, ⟨depth, hout⟩, rfl⟩
      obtain ⟨l₂', hrest'⟩ := memPagewalkAt_congr (hword _ hppn) hrest hpq
      exact ⟨_, yields_bind.mpr ⟨some tmp, l₁, l₂', hpage, hrest', rfl⟩⟩

end Maps

/-! … and those of a leaf of a radix table. -/

theorem two_mul_size_varadixMktrans (vpn entry size : BitVec 32) :
    2 * (varadixMktrans vpn entry size).size.toNat ≤ size.toNat := by
  simp only [varadixMktrans, toNat_setWidth, toNat_ushiftRight]
  split
  · next h =>
    rw [lt_def] at h
    omega
  · omega

theorem varadixMktrans_congr {p q size : BitVec 32} (entry : BitVec 32) (hsize : size.toNat < 64)
    (h : AgreeFrom size.toNat p q) : varadixMktrans q entry size =
      { varadixMktrans p entry size with
        pn := joinAt size.toNat (varadixMktrans p entry size).pn q } := by
  unfold varadixMktrans
  rw [insertRP_eq_joinAt hsize h]

namespace Maps

variable {k : Maps} {b : VmMap} {ptb p : BitVec 32} {next : TransCalls}

/-- The table is read at the same place for pages that agree from `startbit` on. -/
theorem tableaddr_congr {s : RadixPos} {q : BitVec 32} (hs : s.startbit.toNat < 64)
    (h : AgreeFrom s.startbit.toNat p q) : s.tableaddr p = s.tableaddr q := by
  rw [RadixPos.tableaddr, RadixPos.tableaddr, extractuRP_congr hs h]

theorem toNat_startbit_lt {startbit entry : BitVec 32}
    (hlt : (varadixEntrySize entry).toNat < startbit.toNat) :
    (startbit - (varadixEntrySize entry + 1)).toNat < startbit.toNat := by
  have hsize : (varadixEntrySize entry + 1).toNat = (varadixEntrySize entry).toNat + 1 :=
    toNat_add_of_lt (Nat.lt_of_le_of_lt hlt startbit.isLt)
  rw [toNat_sub_of_le (by rw [le_def, hsize]; exact hlt)]
  omega

/-- **Where an entry leads** is the same for every page: nowhere, to a leaf that ends where the
table begins, or to a table that begins lower. -/
theorem advance_cases (s : RadixPos) (entry : BitVec 32) :
    (∀ q, s.advance q entry = .inr translateBad) ∨
    ((varadixEntrySize entry).toNat = s.startbit.toNat ∧
      ∀ q, s.advance q entry = .inr (varadixMktrans q entry (varadixEntrySize entry))) ∨
    ∃ s' : RadixPos, s'.startbit.toNat < s.startbit.toNat ∧ ∀ q, s.advance q entry = .inl s' := by
  unfold RadixPos.advance
  by_cases hge : s.startbit < varadixEntrySize entry
  · exact .inl fun q => if_pos hge
  simp only [if_neg hge]
  by_cases heq : varadixEntrySize entry = s.startbit
  · exact .inr (.inl ⟨congrArg BitVec.toNat heq, fun q => if_pos heq⟩)
  have hlt : (varadixEntrySize entry).toNat < s.startbit.toNat :=
    Nat.lt_of_le_of_ne (BitVec.not_lt.mp hge) fun h => heq (eq_of_toNat_eq h)
  exact .inr (.inr ⟨_, toNat_startbit_lt hlt, fun q => if_neg heq⟩)

/-- **A radix table has the same leaf for every page of the leaf's block.** -/
theorem varadixLoop_congr : ∀ (n : ℕ) (s : RadixPos) (new : Translation) (log : List WalkEvent),
    s.startbit.toNat < 64 → new ≠ translateBad →
    (unroll (turn (k.varadixStep next b p)) n s).Yields new log →
    ∃ σ, σ ≤ s.startbit.toNat ∧ 2 * new.size.toNat ≤ σ ∧ ∀ q, AgreeFrom σ p q →
      (unroll (turn (k.varadixStep next b q)) n s).Yields
        { new with pn := joinAt σ new.pn q } log
  | n + 1, s, new, log, hs, hnew, h => by
    obtain ⟨r, _, l₂, hstep, hrest, rfl⟩ := yields_bind.mp h
    obtain ⟨_ | entry, l₃, l₄, hword, hr, rfl⟩ := yields_bind.mp hstep
    · obtain ⟨rfl, rfl⟩ := yields_pure.mp hr
      exact absurd (yields_pure.mp hrest).1 hnew
    obtain ⟨rfl, rfl⟩ := yields_pure.mp hr
    -- what a page of the block does in this round
    have hround (q : BitVec 32) (hq : AgreeFrom s.startbit.toNat p q) :
        (k.varadixStep next b q s).Yields (s.advance q entry) (l₃ ++ []) :=
      yields_bind.mpr ⟨some entry, l₃, [], tableaddr_congr hs hq ▸ hword,
        yields_pure.mpr ⟨rfl, rfl⟩, rfl⟩
    rcases advance_cases s entry with hbad | ⟨hsize, hleaf⟩ | ⟨s', hlt, hnext⟩
    · rw [hbad p] at hrest
      exact absurd (yields_pure.mp hrest).1 hnew
    · rw [hleaf p] at hrest
      obtain ⟨rfl, rfl⟩ := yields_pure.mp hrest
      refine ⟨_, hsize.le, two_mul_size_varadixMktrans _ _ _, fun q hq => ?_⟩
      refine yields_bind.mpr ⟨_, _, [], hleaf q ▸ hround q (hsize ▸ hq), ?_, rfl⟩
      rw [varadixMktrans_congr entry (hsize ▸ hs) hq]
      exact yields_pure.mpr ⟨rfl, rfl⟩
    · rw [hnext p] at hrest
      obtain ⟨σ, hσ, hsize, hq⟩ := varadixLoop_congr n s' new l₂ (hlt.trans hs) hnew hrest
      have hσ' := hσ.trans hlt.le
      exact ⟨σ, hσ', hsize, fun q hpq => yields_bind.mpr
        ⟨.inl s', _, l₂, hnext q ▸ hround q (hpq.mono hσ'), hq q hpq, rfl⟩⟩

theorem aslR_one_of_lt : ∀ v : BitVec 8, v.toNat < 32 →
    (aslR 1 (v.setWidth 32)).toNat = 2 ^ v.toNat := by
  decide +kernel

theorem aslR_one_of_ge : ∀ v : BitVec 8, 32 ≤ v.toNat → v.toNat < 128 →
    aslR 1 (v.setWidth 32) = 0 := by
  decide +kernel

/-- … also with the check of the page number, and the table that is but a leaf. -/
theorem varadixNew_congr {extra : BitVec 8} (hptb : ct0 ptb ≤ extra.toNat)
    (hextra : extra.toNat < 128) {new : Translation} {log : List WalkEvent}
    (hnew : new ≠ translateBad)
    (h : (k.varadixNew next b p ptb (extra.setWidth 32)).Yields new log) :
    ∃ σ, 2 * new.size.toNat ≤ σ ∧ ∀ q, AgreeFrom σ p q →
      (k.varadixNew next b q ptb (extra.setWidth 32)).Yields
        { new with pn := joinAt σ new.pn q } log := by
  have hsize : (varadixEntrySize ptb).toNat = ct0 ptb := by
    rw [varadixEntrySize, toNat_ofNat, Nat.mod_eq_of_lt (by omega)]
  have hbits : (extra.setWidth 32).toNat = extra.toNat := by
    rw [toNat_setWidth, Nat.mod_eq_of_lt (by omega)]
  unfold varadixNew at h ⊢
  by_cases hguard : aslR 1 (extra.setWidth 32) ≤ p
  · rw [if_pos hguard] at h
    exact absurd (yields_pure.mp h).1 hnew
  rw [if_neg hguard] at h
  have hlt : extra.toNat < 32 := by
    by_contra hge
    rw [aslR_one_of_ge extra (by omega) hextra] at hguard
    exact hguard (le_def.mpr (Nat.zero_le _))
  have hguard' {σ : ℕ} (hσ : σ ≤ extra.toNat) {q : BitVec 32} (hq : AgreeFrom σ p q) :
      ¬aslR 1 (extra.setWidth 32) ≤ q := by
    rw [le_def, aslR_one_of_lt extra hlt, Nat.not_le] at hguard ⊢
    exact (hq.lt_iff (Nat.pow_dvd_pow 2 hσ)).mp hguard
  by_cases hleaf : extra.setWidth 32 = varadixEntrySize ptb
  · rw [if_pos hleaf] at h
    obtain ⟨rfl, rfl⟩ := yields_pure.mp h
    have heq : (varadixEntrySize ptb).toNat = extra.toNat := by rw [← hleaf, hbits]
    refine ⟨(varadixEntrySize ptb).toNat, two_mul_size_varadixMktrans _ _ _, fun q hq => ?_⟩
    rw [if_neg (hguard' heq.le hq), if_pos hleaf, varadixMktrans_congr ptb (by omega) hq]
    exact yields_pure.mpr ⟨rfl, rfl⟩
  · rw [if_neg hleaf] at h
    have hne : ct0 ptb ≠ extra.toNat := fun h => hleaf (eq_of_toNat_eq (by omega))
    have hstart := toNat_startbit_lt
      (show (varadixEntrySize ptb).toNat < (extra.setWidth 32).toNat by omega)
    rw [hbits] at hstart
    obtain ⟨σ, hσ, hsize', hq⟩ := varadixLoop_congr _ _ new log (by
      change (extra.setWidth 32 - (varadixEntrySize ptb + 1)).toNat < 64
      omega) hnew h
    refine ⟨σ, hsize', fun q hpq => ?_⟩
    rw [if_neg (hguard' (Nat.le_trans hσ hstart.le) hpq), if_neg hleaf]
    exact hq q hpq

end Maps

end H2
