import H2.Mem.Translate
import H2.Vm.Vmmap

/-!
# Mem/Linear — a list that a guest writes

`H2K_linear_translate` follows a list from entry to entry, and from page to page where an entry is a
chain.  The list is in the memory of the guest, and no one counts the entries: a chain to itself is
a list that never ends.

A translation that returns at all does so after a number of reads that depends on nothing
(`Maps.Translates.reads_le`), since there are only so many places a walk can be in and so many
arguments it can call itself with.  So the reads are bounded exactly if the list ends
(`linear_returns_iff`).
-/

namespace H2

open Walk

/-! ## How many reads -/

/-- The number of words that are read. -/
def reads (log : List WalkEvent) : ℕ := log.countP WalkEvent.isRead

theorem reads_append (l l' : List WalkEvent) : reads (l ++ l') = reads l + reads l' :=
  List.countP_append

/-- **A walk that returns has read no more than so many words.** -/
def ReadsAtMost {α : Type} (n : ℕ) (w : TableWalk α) : Prop := ∀ a l, w.Yields a l → reads l ≤ n

namespace ReadsAtMost

variable {α β σ : Type} {m n : ℕ} {w : TableWalk α}

theorem mono (h : ReadsAtMost m w) (hmn : m ≤ n) : ReadsAtMost n w :=
  fun a l hw => (h a l hw).trans hmn

theorem pure (a : α) : ReadsAtMost n (Pure.pure a : TableWalk α) := by
  intro b l h
  obtain ⟨-, rfl⟩ := yields_pure.mp h
  exact Nat.zero_le n

theorem bind {f : α → TableWalk β} (hw : ReadsAtMost m w) (hf : ∀ a, ReadsAtMost n (f a)) :
    ReadsAtMost (m + n) (w >>= f) := by
  intro b l h
  obtain ⟨a, l₁, l₂, h₁, h₂, rfl⟩ := yields_bind.mp h
  rw [reads_append]
  exact Nat.add_le_add (hw a l₁ h₁) (hf a b l₂ h₂)

/-- … and then nothing is read. -/
theorem finish {f : α → TableWalk β} (hw : ReadsAtMost n w) (hf : ∀ a, ReadsAtMost 0 (f a)) :
    ReadsAtMost n (w >>= f) :=
  bind hw hf

/-- First nothing is read. -/
theorem prepare {f : α → TableWalk β} (hw : ReadsAtMost 0 w) (hf : ∀ a, ReadsAtMost n (f a)) :
    ReadsAtMost n (w >>= f) :=
  (bind hw hf).mono (Nat.zero_add n).le

theorem note {e : WalkEvent} (he : e.isRead = false) : ReadsAtMost 0 (Walk.note e) := by
  intro _ l h
  obtain rfl := yields_note.mp h
  simp [reads, he]

theorem keeping {p : WalkEvent → Bool} (h : ReadsAtMost n w) :
    ReadsAtMost n (Walk.keeping p w) := by
  intro a l hw
  obtain ⟨l₁, h₁, rfl⟩ := yields_keeping.mp hw
  exact (List.Sublist.countP_le List.filter_sublist).trans (h a l₁ h₁)

/-- A loop, by the reads of a round. -/
theorem loop {step : σ → TableWalk (σ ⊕ α)} (h : ∀ s, ReadsAtMost m (step s)) :
    ∀ n s, ReadsAtMost (n * m) (unroll (turn step) n s)
  | 0, _ => nofun
  | n + 1, s => by
    rw [Nat.succ_mul, Nat.add_comm]
    exact bind (h s) fun
      | .inl s' => loop h n s'
      | .inr a => pure a

end ReadsAtMost

section Reads

variable {k : Maps} {next : TransCalls} {n : ℕ}

theorem Maps.memwPhys_reads (lower upper : BitVec 32) : ReadsAtMost 1 (k.memwPhys lower upper) := by
  intro w l h
  obtain ⟨_, _, _, rfl, ⟨-, rfl⟩, rfl⟩ := h
  exact Nat.le_refl 1

theorem Maps.physreadWord_reads (pa : BitVec 64) : ReadsAtMost 1 (k.physreadWord pa) :=
  memwPhys_reads _ _

theorem Maps.physreadDword_reads (pa : BitVec 64) : ReadsAtMost 2 (k.physreadDword pa) :=
  .bind (memwPhys_reads _ _) fun _ => .finish (memwPhys_reads _ _) fun _ => .pure _

theorem Maps.vmblock_reads (vmid : BitVec 6) : ReadsAtMost 0 (k.vmblock vmid) := by
  unfold vmblock
  split
  · exact .pure _
  · nofun

variable (h : ∀ x, ReadsAtMost n (next x))

include h

theorem VmMap.tablePage_reads (b : VmMap) (tmp : Translation) :
    ReadsAtMost n (b.tablePage next tmp) :=
  .prepare (.note rfl) fun _ => .finish (h _).keeping fun _ => .pure _

theorem VmMap.onward_reads (b : VmMap) (t : Translation) : ReadsAtMost n (b.onward next t) := by
  unfold onward
  split
  · exact h _
  · exact .pure _

namespace Maps

theorem linearStep_reads (b : VmMap) (badvpn : BitVec 32) (s : ListPos) :
    ReadsAtMost (n + 2) (k.linearStep next b badvpn s) := by
  have hpage : ReadsAtMost n (b.linearPage next s) := by
    unfold VmMap.linearPage
    split
    · exact .pure _
    split
    · exact .pure _
    · exact .finish (b.tablePage_reads h _) fun _ => .pure _
  exact .bind hpage fun
    | none => .pure _
    | some _ => .finish (physreadDword_reads _) fun _ => .pure _

theorem linearTranslate_reads (t : Translation) (info : AsidEntry) :
    ReadsAtMost (listPositions * (n + 2) + n) (k.linearTranslate next t info) :=
  .prepare (vmblock_reads _) fun b => .bind (.loop (linearStep_reads h b t.pn) _ _) fun
    | none => .pure _
    | some _ => .prepare (.note rfl) fun _ => b.onward_reads h _

theorem tableWord_reads (b : VmMap) (addr : BitVec 64) :
    ReadsAtMost (n + 1) (k.tableWord next b addr) := by
  unfold tableWord
  split
  · exact .mono (.finish (physreadWord_reads _) fun _ => .pure _) (Nat.le_add_left 1 n)
  · exact .bind (b.tablePage_reads h _) fun
      | none => .pure _
      | some _ => .finish (physreadWord_reads _) fun _ => .pure _

theorem memPagewalkL2_reads (b : VmMap) (pn l2addr : BitVec 32) (pagesize : ℕ) :
    ReadsAtMost (n + 1) (k.memPagewalkL2 next b pn l2addr pagesize) :=
  .finish (tableWord_reads h b _) fun
    | none => .pure _
    | some _ => .pure _

theorem memPagewalkAt_reads (b : VmMap) (pn ppn : BitVec 32) :
    ReadsAtMost (1 + (n + 1)) (k.memPagewalkAt next b pn ppn) := by
  refine .bind (physreadWord_reads _) fun raw => ?_
  split
  · exact memPagewalkL2_reads h b pn _ _
  split <;> exact .pure _

theorem pagewalkTranslate_reads (t : Translation) (info : AsidEntry) :
    ReadsAtMost (3 * n + 2) (k.pagewalkTranslate next t info) := by
  have hl1 (b : VmMap) (pn ptb : BitVec 32) :
      ReadsAtMost (n + (1 + (n + 1))) (k.memPagewalkL1 next b pn ptb) := by
    unfold memPagewalkL1
    split
    · exact (memPagewalkAt_reads h b pn _).mono (by omega)
    · exact .bind (b.tablePage_reads h _) fun
        | none => .pure _
        | some _ => memPagewalkAt_reads h b pn _
  refine .mono (.prepare (vmblock_reads _) fun b => .bind (hl1 b _ _) fun _ =>
    .prepare (.note rfl) fun _ => b.onward_reads h _) ?_
  omega

theorem varadixTranslate_reads (t : Translation) (info : AsidEntry) :
    ReadsAtMost (2 ^ 32 * (n + 1) + n) (k.varadixTranslate next t info) := by
  have hstep (b : VmMap) (vpn : BitVec 32) (s : RadixPos) :
      ReadsAtMost (n + 1) (k.varadixStep next b vpn s) :=
    .finish (tableWord_reads h b _) fun
      | none => .pure _
      | some _ => .pure _
  have hnew (b : VmMap) (vpn ptb vpnbits : BitVec 32) :
      ReadsAtMost (2 ^ 32 * (n + 1)) (k.varadixNew next b vpn ptb vpnbits) := by
    unfold varadixNew
    split
    · exact .pure _
    · simp only
      split
      · exact .pure _
      · exact .loop (hstep b vpn) _ _
  exact .prepare (vmblock_reads _) fun b => .bind (hnew b _ _ _) fun _ =>
    .prepare (.note rfl) fun _ => b.onward_reads h _

theorem offsetTranslate_reads (t : Translation) (info : AsidEntry) :
    ReadsAtMost n (k.offsetTranslate next t info) := by
  refine .prepare (.note rfl) fun _ => .prepare (vmblock_reads _) fun b => ?_
  split
  · exact h _
  · exact .pure _

/-- The reads of a translation, by those of the ones it calls. -/
theorem translateFuncs_reads (x : Translation × AsidEntry) :
    ReadsAtMost (listPositions * (n + 2) + n) (k.translateFuncs next x) := by
  have hle : 2 ^ 32 * (n + 1) ≤ listPositions * (n + 2) := Nat.mul_le_mul (by decide) (by omega)
  unfold translateFuncs
  split
  · exact linearTranslate_reads h _ _
  · exact (pagewalkTranslate_reads h _ _).mono (by omega)
  · exact (offsetTranslate_reads h _ _).mono (by omega)
  · exact (varadixTranslate_reads h _ _).mono (by omega)
  · nofun

end Maps

end Reads

/-- The reads of a translation to a depth. -/
def readsAt : ℕ → ℕ
  | 0 => 0
  | depth + 1 => listPositions * (readsAt depth + 2) + readsAt depth

theorem Maps.translate_reads (k : Maps) :
    ∀ depth x, ReadsAtMost (readsAt depth) (unroll k.translateFuncs depth x)
  | 0, _ => nofun
  | depth + 1, x => translateFuncs_reads (k.translate_reads depth) x

/-! ## How many places and how many arguments -/

/-- A translation, as its fields. -/
def Translation.equivFields :
    Translation ≃ BitVec 32 × BitVec 4 × BitVec 4 × BitVec 3 × Bool × Bool × Bool where
  toFun t := (t.pn, t.size, t.xwru, t.cccc, t.weakCcc, t.hsv39, t.shared)
  invFun x := ⟨x.1, x.2.1, x.2.2.1, x.2.2.2.1, x.2.2.2.2.1, x.2.2.2.2.2.1, x.2.2.2.2.2.2⟩

/-- An entry of the table of address spaces, as its fields. -/
def AsidEntry.equivFields :
    AsidEntry ≃ BitVec 32 × BitVec 12 × BitVec 6 × BitVec 3 × BitVec 3 × BitVec 8 where
  toFun a := (a.ptb, a.count, a.vmid, a.type, a.logMaxhops, a.extra)
  invFun x := ⟨x.1, x.2.1, x.2.2.1, x.2.2.2.1, x.2.2.2.2.1, x.2.2.2.2.2⟩

/-- A place in a list, as its fields. -/
def ListPos.equivFields : ListPos ≃ BitVec 32 × BitVec 32 × BitVec 64 × Translation where
  toFun s := (s.list, s.lastGpn, s.listPa, s.tmp)
  invFun x := ⟨x.1, x.2.1, x.2.2.1, x.2.2.2⟩

theorem card_bitVec (w : ℕ) : Nat.card (BitVec w) = 2 ^ w := by
  rw [Nat.card_congr BitVec.equivFin.toEquiv, Nat.card_eq_fintype_card, Fintype.card_fin]

instance finite_bitVec (w : ℕ) : Finite (BitVec w) := .of_equiv _ BitVec.equivFin.toEquiv.symm

instance : Finite Translation := .of_equiv _ Translation.equivFields.symm

instance : Finite AsidEntry := .of_equiv _ AsidEntry.equivFields.symm

instance : Finite ListPos := .of_equiv _ ListPos.equivFields.symm

theorem card_bool : Nat.card Bool = 2 := by
  rw [Nat.card_eq_fintype_card, Fintype.card_bool]

theorem card_translation : Nat.card Translation = 2 ^ 46 := by
  rw [Nat.card_congr Translation.equivFields]
  simp only [Nat.card_prod, card_bitVec, card_bool]
  decide

theorem card_listPos : Nat.card ListPos = listPositions := by
  rw [Nat.card_congr ListPos.equivFields]
  simp only [Nat.card_prod, card_bitVec, card_translation]
  decide

/-- The number of arguments of `H2K_translate`. -/
def translateArgs : ℕ := 2 ^ 110

theorem card_translateArgs : Nat.card (Translation × AsidEntry) = translateArgs := by
  rw [Nat.card_prod, Nat.card_congr AsidEntry.equivFields]
  simp only [Nat.card_prod, card_bitVec, card_translation]
  decide

/-- The reads of any translation. -/
@[irreducible] def maxReads : ℕ := readsAt translateArgs
variable {log : List WalkEvent}


namespace Maps

variable {k : Maps} {t : Translation} {info : AsidEntry}

theorem translate_linear (htype : info.type = 0) (depth : ℕ) :
    k.translate (depth + 1) t info = k.linearTranslate (unroll k.translateFuncs depth) t info := by
  simp [translate, unroll, translateFuncs, htype]

/-- **A translation that returns makes no more reads than this**, whatever the tables are. -/
theorem Translates.reads_le {out : Translation}
    (h : k.Translates t info out log) : reads log ≤ maxReads := by
  unfold maxReads
  obtain ⟨depth, h⟩ := h
  have hbound := unroll_card k.mono_translateFuncs h card_translateArgs.le
  exact k.translate_reads _ _ _ _ hbound

/-- A translation returns, and makes no more reads than so many. -/
def ReturnsWithin (k : Maps) (n : ℕ) (t : Translation) (info : AsidEntry) : Prop :=
  ∃ out log, k.Translates t info out log ∧ reads log ≤ n

/-! ## Lists that end -/

/-- The place of an entry is on the page it was on, or its page is looked up: in the memory of a VM
without a guestmap, or by the guestmap, with or without read permission. -/
inductive Enters (k : Maps) (b : VmMap) (s : ListPos) : Option ListPos → Prop
  | same (hpage : s.list >>> 12 = s.lastGpn) : Enters k b s (some s)
  | plain (hpage : s.list >>> 12 ≠ s.lastGpn) (hmap : b.guestmap = noMap) :
      Enters k b s (some (s.enter (s.list >>> 12) s.tmp))
  | readable (hpage : s.list >>> 12 ≠ s.lastGpn) (hmap : b.guestmap ≠ noMap) {tmp : Translation}
      {log : List WalkEvent}
      (htmp : k.Translates { s.tmp with pn := s.list >>> 12 } b.guestmap tmp log)
      (hread : tmp.xwru &&& 2 ≠ 0) : Enters k b s (some (s.enter tmp.pn tmp))
  | unreadable (hpage : s.list >>> 12 ≠ s.lastGpn) (hmap : b.guestmap ≠ noMap) {tmp : Translation}
      {log : List WalkEvent}
      (htmp : k.Translates { s.tmp with pn := s.list >>> 12 } b.guestmap tmp log)
      (hread : tmp.xwru &&& 2 = 0) : Enters k b s none

/-- What is left to do with an entry that covers the page returns. -/
def Onward (k : Maps) (b : VmMap) (t : Translation) : Prop :=
  t.shared = true ∨ b.guestmap = noMap ∨ ∃ out log, k.Translates t b.guestmap out log

theorem onward_of_yields {b : VmMap} {depth : ℕ} {out : Translation}
    (h : (b.onward (unroll k.translateFuncs depth) t).Yields out log) : k.Onward b t := by
  rcases VmMap.yields_onward.mp h with ⟨-, -, h⟩ | ⟨hs | hmap, -⟩
  · exact .inr (.inr ⟨out, log, depth, h⟩)
  · exact .inl hs
  · exact .inr (.inl hmap)

theorem Onward.yields {b : VmMap} (h : k.Onward b t) :
    ∃ depth out log, (b.onward (unroll k.translateFuncs depth) t).Yields out log := by
  simp only [VmMap.yields_onward]
  by_cases hs : t.shared = true ∨ b.guestmap = noMap
  · exact ⟨0, t, [], .inr ⟨hs, rfl, rfl⟩⟩
  · push Not at hs
    rcases h with h | h | ⟨out, log, depth, h⟩
    · exact absurd h hs.1
    · exact absurd h hs.2
    · exact ⟨depth, out, log, .inl ⟨by simpa using hs.1, hs.2, h⟩⟩

/-- **The list ends** for a page: from chain to chain and from entry to entry it comes to a page
that cannot be read, to a zero, or to an entry that covers the page. -/
inductive ListEnds (k : Maps) (b : VmMap) (t : Translation) : ListPos → Prop
  | unreadable {s : ListPos} (hs : k.Enters b s none) : ListEnds k b t s
  | zero {s s' : ListPos} (hs : k.Enters b s (some s')) (hzero : k.entryAt s'.listPa = 0) :
      ListEnds k b t s
  | covers {s s' : ListPos} (hs : k.Enters b s (some s')) (hzero : k.entryAt s'.listPa ≠ 0)
      (hchain : (k.entryAt s'.listPa).chain = false) (hcovers : (k.entryAt s'.listPa).Covers t.pn)
      (honward : k.Onward b (linearTranslateUpdate t (k.entryAt s'.listPa))) : ListEnds k b t s
  | goes {s s' s'' : ListPos} (hs : k.Enters b s (some s'))
      (hgoes : s'.advance t.pn (k.entryAt s'.listPa) = .inl s'') (hends : ListEnds k b t s'') :
      ListEnds k b t s

end Maps

/-! ## A list that ends, and a walk that returns -/

namespace Maps

variable {k : Maps} {b : VmMap} {t : Translation} {s : ListPos}

theorem linearStep_yields (k : Maps) (badvpn : BitVec 32) {next : TransCalls} {s' : ListPos}
    (h : (b.linearPage next s).Yields (some s') log) : ∃ log', (k.linearStep next b badvpn s).Yields
      (s'.advance badvpn (k.entryAt s'.listPa)) log' := by
  obtain ⟨l₂, h₂⟩ := k.physreadDword_yields s'.listPa
  exact ⟨_, yields_linearStep.mpr (.inr ⟨s', log, l₂, h, h₂, rfl, rfl⟩)⟩

theorem enters_of_yields {depth : ℕ} {r : Option ListPos}
    (h : (b.linearPage (unroll k.translateFuncs depth) s).Yields r log) : k.Enters b s r := by
  obtain ⟨hpage, rfl, -⟩ | ⟨hpage, hmap, rfl, -⟩ | ⟨hpage, hmap, tmp, htmp, rfl⟩ :=
    VmMap.yields_linearPage h
  · exact .same hpage
  · exact .plain hpage hmap
  · obtain ⟨out, l, hout, rfl, -⟩ := VmMap.yields_tablePage.mp htmp
    split
    · next hread => exact .unreadable hpage hmap ⟨depth, hout⟩ hread
    · next hread => exact .readable hpage hmap ⟨depth, hout⟩ hread

theorem linearPage_yields {next : TransCalls} {out : Translation}
    (hpage : s.list >>> 12 ≠ s.lastGpn) (hmap : b.guestmap ≠ noMap)
    (h : (next ({ s.tmp with pn := s.list >>> 12 }, b.guestmap)).Yields out log) :
    ∃ log', (b.linearPage next s).Yields
      (if out.xwru &&& 2 = 0 then none else some (s.enter out.pn out)) log' := by
  have hpage' := VmMap.yields_tablePage.mpr ⟨out, log, h, rfl, rfl⟩
  rw [VmMap.linearPage, if_neg hpage, if_neg hmap]
  exact ⟨_, yields_bind.mpr ⟨_, _, [], hpage', yields_pure.mpr ⟨by split <;> rfl, rfl⟩, rfl⟩⟩

theorem Enters.yields {r : Option ListPos} (h : k.Enters b s r) :
    ∃ depth log, (b.linearPage (unroll k.translateFuncs depth) s).Yields r log := by
  cases h with
  | same hpage =>
    exact ⟨0, [], by rw [VmMap.linearPage, if_pos hpage, yields_pure]; exact ⟨rfl, rfl⟩⟩
  | plain hpage hmap =>
    refine ⟨0, [], ?_⟩
    rw [VmMap.linearPage, if_neg hpage, if_pos hmap, yields_pure]
    exact ⟨rfl, rfl⟩
  | readable hpage hmap htmp hread | unreadable hpage hmap htmp hread =>
    obtain ⟨depth, htmp⟩ := htmp
    have hyields := linearPage_yields hpage hmap htmp
    simp only [hread, if_true, if_false] at hyields
    exact ⟨depth, hyields⟩

/-- What the loop found can be dealt with. -/
def FoundOnward (k : Maps) (b : VmMap) (t : Translation) (r : Option LinearFmt) : Prop :=
  ∀ e, r = some e → k.Onward b (linearTranslateUpdate t e)

/-- A loop that returns has followed a list to its end. -/
theorem listEnds_of_loop {depth : ℕ} : ∀ (n : ℕ) (s : ListPos) (r : Option LinearFmt)
    (log : List WalkEvent),
    (unroll (turn (k.linearStep (unroll k.translateFuncs depth) b t.pn)) n s).Yields r log →
    k.FoundOnward b t r → k.ListEnds b t s := by
  refine loop_rule (fun s r log h hr => ?_) fun s s'' r l l' h ih hr => ?_
  · rcases yields_linearStep.mp h with ⟨hpage, -⟩ | ⟨s', l₁, l₂, hpage, -, hadvance, -⟩
    · exact .unreadable (enters_of_yields hpage)
    · rcases ListPos.advance_eq_inr hadvance.symm with ⟨hzero, -⟩ | ⟨hzero, hchain, hcovers, rfl⟩
      · exact .zero (enters_of_yields hpage) hzero
      · exact .covers (enters_of_yields hpage) hzero hchain hcovers (hr _ rfl)
  · rcases yields_linearStep.mp h with ⟨-, hr⟩ | ⟨s', l₁, l₂, hpage, -, hadvance, -⟩
    · cases hr
    · exact .goes (enters_of_yields hpage) hadvance.symm (ih hr)

/-- Over a list that ends the loop returns, after so many rounds. -/
theorem ListEnds.loop (h : k.ListEnds b t s) : ∃ depth n r log,
    (unroll (turn (k.linearStep (unroll k.translateFuncs depth) b t.pn)) n s).Yields r log ∧
    k.FoundOnward b t r := by
  induction h with
  | unreadable hs =>
    obtain ⟨depth, log, hpage⟩ := hs.yields
    exact ⟨depth, 1, none, _, yields_bind.mpr ⟨_, _, _, yields_linearStep.mpr (.inl ⟨hpage, rfl⟩),
      yields_pure.mpr ⟨rfl, rfl⟩, rfl⟩, nofun⟩
  | zero hs hzero =>
    obtain ⟨depth, log, hpage⟩ := hs.yields
    obtain ⟨log', hstep⟩ := linearStep_yields k t.pn hpage
    rw [hzero, ListPos.advance] at hstep
    exact ⟨depth, 1, none, _, yields_bind.mpr ⟨_, _, _, hstep, yields_pure.mpr ⟨rfl, rfl⟩, rfl⟩,
      nofun⟩
  | covers hs hzero hchain hcovers honward =>
    obtain ⟨depth, log, hpage⟩ := hs.yields
    obtain ⟨log', hstep⟩ := linearStep_yields k t.pn hpage
    rw [ListPos.advance, if_neg hzero, if_neg (by simp [hchain]), if_pos hcovers] at hstep
    refine ⟨depth, 1, some _, _,
      yields_bind.mpr ⟨_, _, _, hstep, yields_pure.mpr ⟨rfl, rfl⟩, rfl⟩, fun e he => ?_⟩
    rwa [← Option.some.inj he]
  | goes hs hgoes _ ih =>
    obtain ⟨depth, log, hpage⟩ := hs.yields
    obtain ⟨depth', n, r, log₁, hloop, hr⟩ := ih
    have hle := unroll_le k.mono_translateFuncs (le_max_left depth depth')
    have hle' := unroll_le k.mono_translateFuncs (le_max_right depth depth')
    obtain ⟨log', hstep⟩ := linearStep_yields k t.pn hpage
    rw [hgoes] at hstep
    exact ⟨max depth depth', n + 1, r, _, yields_bind.mpr ⟨_, _, _,
      (linearStep_looks hle b t.pn _).le _ _ hstep,
      (Looks.loop (linearStep_looks hle' b t.pn) n _).le _ _ hloop, rfl⟩, hr⟩

end Maps

theorem Maps.translates_of_loop {k : Maps} {b : VmMap} {t : Translation} {info : AsidEntry}
    {depth : ℕ} {r : Option LinearFmt} (htype : info.type = 0)
    (hb : k.vmblocks info.vmid = some b)
    (hloop : (unroll (turn (k.linearStep (unroll k.translateFuncs depth) b t.pn)) listPositions
      (.start info.ptb)).Yields r log)
    (hr : k.FoundOnward b t r) : ∃ out log', k.Translates t info out log' := by
  rcases r with _ | e
  · refine ⟨translateBad, log ++ [], depth + 1, ?_⟩
    rw [translate_linear htype]
    exact yields_linearTranslate.mpr ⟨b, none, log, [], hb, hloop, rfl, .inl ⟨rfl, rfl, rfl⟩⟩
  · obtain ⟨depth', out, l₃, honward⟩ := (hr e rfl).yields
    have hle := unroll_le k.mono_translateFuncs (le_max_left depth depth')
    have hle' := unroll_le k.mono_translateFuncs (le_max_right depth depth')
    refine ⟨out, log ++ .leaf e.xwru :: l₃, max depth depth' + 1, ?_⟩
    rw [translate_linear htype]
    exact yields_linearTranslate.mpr ⟨b, some e, log, _, hb,
      (Looks.loop (linearStep_looks hle b t.pn) _ _).le _ _ hloop, rfl,
      .inr ⟨e, l₃, rfl, b.onward_le hle' _ _ _ honward, rfl⟩⟩

/-- A translation that returns has come to the end of the list. -/
theorem Maps.Translates.listEnds {k : Maps} {t out : Translation} {info : AsidEntry}
    (htype : info.type = 0) (h : k.Translates t info out log) :
    ∃ b, k.vmblocks info.vmid = some b ∧ k.ListEnds b t (.start info.ptb) := by
  obtain ⟨_ | depth, h⟩ := h
  · exact absurd h not_yields_stuck
  rw [translate_linear htype, yields_linearTranslate] at h
  obtain ⟨b, r, l₁, l₂, hvm, hloop, -, hrest⟩ := h
  refine ⟨b, hvm, listEnds_of_loop _ _ _ _ hloop fun e he => ?_⟩
  rcases hrest with ⟨rfl, -⟩ | ⟨_, l₃, rfl, honward, -⟩
  · cases he
  · cases he
    exact onward_of_yields honward

/-- **The reads of a list are bounded exactly if the list ends**: for any list of any VM, the
translation of an address returns after a bounded number of reads if and only if the list comes to
an end for its page, which includes that the guestmap returns where it is called. -/
theorem linear_returns_iff (k : Maps) (va ptb : BitVec 32) (count : BitVec 12) (vmid : BitVec 6)
    (hops : BitVec 3) (extra : BitVec 8) :
    k.ReturnsWithin maxReads (translateDefault (va.setWidth 64))
      ⟨ptb, count, vmid, 0, hops, extra⟩ ↔ ∃ b, k.vmblocks vmid = some b ∧
        k.ListEnds b (translateDefault (va.setWidth 64)) (.start ptb) := by
  have htype : (AsidEntry.mk ptb count vmid 0 hops extra).type = 0 := rfl
  constructor
  · rintro ⟨out, log, hreturns, -⟩
    exact hreturns.listEnds htype
  · rintro ⟨b, hb, hends⟩
    obtain ⟨depth, n, r, log, hloop, hr⟩ := hends.loop
    have hloop := unroll_card (mono_turn _) hloop card_listPos.le
    obtain ⟨out, log', hreturns⟩ := Maps.translates_of_loop htype hb hloop hr
    exact ⟨out, log', hreturns, hreturns.reads_le⟩

/-! ## A list that goes round -/

namespace Maps

variable {k : Maps} {b : VmMap} {t : Translation} {s : ListPos}

theorem Enters.inj {r r' : Option ListPos} (h : k.Enters b s r) (h' : k.Enters b s r') :
    r = r' := by
  obtain ⟨depth, log, h⟩ := h.yields
  obtain ⟨depth', log', h'⟩ := h'.yields
  have hle := (b.linearPage_looks (unroll_le k.mono_translateFuncs (le_max_left depth depth')) s).le
  have hle' := (b.linearPage_looks
    (unroll_le k.mono_translateFuncs (le_max_right depth depth')) s).le
  exact ((hle _ _ h).inj (hle' _ _ h')).1

/-- Where every place leads on, no list ends. -/
theorem not_listEnds {C : ListPos → Prop} (hC : ∀ s, C s → ∃ s' s'', k.Enters b s (some s') ∧
      s'.advance t.pn (k.entryAt s'.listPa) = .inl s'' ∧ C s'') (hs : C s) : ¬k.ListEnds b t s := by
  intro h
  induction h with
  | unreadable henters =>
    obtain ⟨s', s'', henters', -⟩ := hC _ hs
    cases henters.inj henters'
  | zero henters hzero =>
    obtain ⟨s', s'', henters', hgoes, -⟩ := hC _ hs
    obtain rfl := Option.some.inj (henters.inj henters')
    rw [hzero, ListPos.advance] at hgoes
    cases hgoes
  | covers henters hzero hchain hcovers =>
    obtain ⟨s', s'', henters', hgoes, -⟩ := hC _ hs
    obtain rfl := Option.some.inj (henters.inj henters')
    rw [ListPos.advance, if_neg hzero, if_neg (by simp [hchain]), if_pos hcovers] at hgoes
    cases hgoes
  | goes henters hgoes _ ih =>
    obtain ⟨s', s'', henters', hgoes', hs''⟩ := hC _ hs
    obtain rfl := Option.some.inj (henters.inj henters')
    rw [hgoes] at hgoes'
    exact ih (Sum.inl.inj hgoes' ▸ hs'')

end Maps

/-- A guest, the VM in slot 2, that has all of the memory from the boot VM; at the address `0x1000`
it has written a chain to that address. -/
def chainToItself : Maps where
  mem pa := if pa = 0x1000 then 0x1000 else if pa = 0x1004 then 0x80000000 else 0
  vmblocks vmid :=
    if vmid = 1 then some ⟨noMap, 0, 0xfff00000⟩
    else if vmid = 2 then some ⟨⟨identityOffset, 0, 1, 2, 0, 0⟩, 0, -1⟩
    else none
  tcmBase := 0
  tcmSize := 0
  vtcmBase := 0
  vtcmSize := 0

/-- What the page of the list is translated to. -/
def chainPage : Translation := ⟨1, 6, 0xf, 7, false, false, false⟩

/-- The place the walk is in when it has found that page. -/
def chainPos : ListPos := (ListPos.start 0x1000).enter chainPage.pn chainPage

/-- The address spaces when a thread of the guest has the one it was made with. -/
def guestSpaces : Mmu := ⟨(AsidTable.inc identityOffset 2 0 2 .zeroed).2, fun _ => 0, none⟩

/-- **A guest hangs the monitor**: it installs the list with newmap, and no translation of an
address ever returns. -/
theorem linear_chain_hangs : ∃ ssrAsid : BitVec 7, ∃ n : Newmap,
    guestSpaces.vmtrapNewmap 0x1000 0 0 0 2 ssrAsid = n ∧ n.r00 = 0 ∧
    ¬∃ reads, chainToItself.ReturnsWithin reads (translateDefault 0) (n.mmu.table n.ssrAsid) := by
  refine ⟨asidHashval identityOffset, _, rfl, by decide +kernel, ?_⟩
  generalize hn : guestSpaces.vmtrapNewmap 0x1000 0 0 0 2 (asidHashval identityOffset) = n
  have hentry : n.mmu.table n.ssrAsid = ⟨0x1000, 1, 2, 0, 0, 0⟩ := by
    rw [← hn]
    decide +kernel
  rintro ⟨reads, out, log, hreturns, -⟩
  rw [hentry] at hreturns
  obtain ⟨b, hb, hends⟩ := hreturns.listEnds rfl
  obtain rfl : ⟨⟨identityOffset, 0, 1, 2, 0, 0⟩, 0, -1⟩ = b := Option.some.inj hb
  have hpage : chainToItself.Translates { Translation.ofPage 0 with pn := 0x1000 >>> 12 }
      ⟨identityOffset, 0, 1, 2, 0, 0⟩ chainPage [.leaf 0xf] := ⟨1, by decide +kernel⟩
  have hstart : chainToItself.Enters ⟨⟨identityOffset, 0, 1, 2, 0, 0⟩, 0, -1⟩ (.start 0x1000)
      (some chainPos) := by
    refine .readable ?_ ?_ hpage ?_ <;> decide
  refine Maps.not_listEnds (C := fun s => s = .start 0x1000 ∨ s = chainPos) ?_ (.inl rfl) hends
  rintro s (rfl | rfl)
  · exact ⟨chainPos, chainPos, hstart, by decide +kernel, .inr rfl⟩
  · exact ⟨chainPos, chainPos, .same (by decide), by decide +kernel, .inr rfl⟩

end H2
