import H2.Mem.Translate

/-!
# Mem/Permissions — permissions only shrink

Every walker takes permissions away and makes pages smaller, and none gives anything back: whatever
the tables are, a translation ends with no more than it was given and no more than each entry on its
way allows (`Maps.Translates.shrinks`).

A table is read only where the next stage lets the VM read.  The two-level and the radix walker look
each page up afresh; the walk over a list goes on from what the last page was translated to, with
its size and its `shared` bit.  That makes a difference to an offset, which takes `shared` to mean
that the next stage is not to be asked: a shared page opens the pages after it, too
(`shared_opens_next_page`).  A page that is asked for afresh, or with nothing that an offset takes
that way, is not read against the next stage (`permissions_shrink`).
-/

namespace H2

open VmMap Walk BitVec

/-! ## Permissions -/

/-- **No more than.** -/
def Within (a b : BitVec 4) : Prop := a &&& b = a

namespace Within

variable {a b c : BitVec 4}

theorem refl (a : BitVec 4) : Within a a := and_self

theorem trans (hab : Within a b) (hbc : Within b c) : Within a c := by
  unfold Within at *
  rw [← hab, BitVec.and_assoc, hbc]

theorem and_left (a b : BitVec 4) : Within (a &&& b) a := by
  unfold Within
  rw [BitVec.and_comm (a &&& b) a, ← BitVec.and_assoc, BitVec.and_self]

theorem and_right (a b : BitVec 4) : Within (a &&& b) b := by
  unfold Within
  rw [BitVec.and_assoc, BitVec.and_self]

theorem zero (a : BitVec 4) : Within 0 a := zero_and

theorem and_eq_zero {mask : BitVec 4} (h : Within a b) (hb : b &&& mask = 0) : a &&& mask = 0 := by
  rw [← h, BitVec.and_assoc, hb]
  exact BitVec.and_zero

end Within

def CanRead (xwru : BitVec 4) : Prop := xwru &&& 2 ≠ 0

theorem canRead_iff : ∀ xwru : BitVec 4, CanRead xwru ↔ xwru.getLsbD 1 = true := by
  unfold CanRead
  decide

theorem canRead_and (a b : BitVec 4) : CanRead (a &&& b) ↔ CanRead a ∧ CanRead b := by
  simp [canRead_iff]

theorem minSize_le_left (a b : BitVec 4) : minSize a b ≤ a := by
  unfold minSize
  split
  · exact BitVec.le_refl a
  · next h => exact BitVec.not_lt.mp h

theorem minSize_le_right (a b : BitVec 4) : minSize a b ≤ b := by
  unfold minSize
  split
  · next h => exact BitVec.le_of_lt h
  · exact BitVec.le_refl b

/-! ## What a stage takes away -/

/-- **A translation has shrunk**: to what it was and to what each entry allows. -/
structure Shrinks (t out : Translation) (log : List WalkEvent) : Prop where
  xwru : Within out.xwru t.xwru
  size : out.size ≤ t.size
  leaf : ∀ p, .leaf p ∈ log → Within out.xwru p

theorem Shrinks.refl (t : Translation) : Shrinks t t [] :=
  ⟨.refl _, BitVec.le_refl _, nofun⟩

/-- A stage that has used an entry, and the stages after it. -/
theorem Shrinks.stage {t t' out : Translation} {p : BitVec 4} {l₁ l₂ : List WalkEvent}
    (hl₁ : ∀ e ∈ l₁, e.notLeaf = true) (hxwru : t'.xwru = t.xwru &&& p) (hsize : t'.size ≤ t.size)
    (h : Shrinks t' out l₂) : Shrinks t out (l₁ ++ .leaf p :: l₂) where
  xwru := h.xwru.trans (hxwru ▸ .and_left _ _)
  size := BitVec.le_trans h.size hsize
  leaf q hq := by
    rcases List.mem_append.mp hq with hq | hq
    · cases hl₁ _ hq
    rcases List.mem_cons.mp hq with hq | hq
    · cases hq
      exact h.xwru.trans (hxwru ▸ .and_right _ _)
    · exact h.leaf q hq

theorem shrinks_bad (t : Translation) {log : List WalkEvent} (hlog : ∀ e ∈ log, e.notLeaf = true) :
    Shrinks t translateBad log :=
  ⟨.zero _, le_def.mpr (Nat.zero_le _), fun _ hp => nomatch hlog _ hp⟩

section Shrinks

variable {k : Maps} {next : TransCalls} {b : VmMap} {t out : Translation} {info : AsidEntry}
  {log : List WalkEvent}

theorem VmMap.onward_shrinks (hnext : ∀ x out log, (next x).Yields out log → Shrinks x.1 out log)
    (h : (b.onward next t).Yields out log) : Shrinks t out log := by
  rcases yields_onward.mp h with ⟨-, -, h⟩ | ⟨-, rfl, rfl⟩
  · exact hnext _ _ _ h
  · exact .refl _

theorem varadixUpdate_xwru (t new : Translation) :
    (varadixUpdate t new).xwru = t.xwru &&& new.xwru := by
  unfold varadixUpdate
  split
  · next h =>
    rw [h]
    exact and_zero.symm
  · rfl

theorem varadixUpdate_size_le (t new : Translation) : (varadixUpdate t new).size ≤ t.size := by
  unfold varadixUpdate
  split
  · next h =>
    rw [h]
    exact le_def.mpr (Nat.zero_le _)
  · exact minSize_le_right new.size t.size

theorem Maps.offsetLowest_shrinks (b : VmMap) (origIn : BitVec 32) (t : Translation) :
    Shrinks t (k.offsetLowest b origIn t) [] := by
  unfold offsetLowest
  split
  · exact ⟨.refl _, BitVec.le_refl _, nofun⟩
  split
  · exact shrinks_bad t nofun
  · exact .refl t

/-- **One stage shrinks a translation**, if the stages after it do. -/
theorem Maps.translateFuncs_shrinks
    (hnext : ∀ x out log, (next x).Yields out log → Shrinks x.1 out log)
    (x : Translation × AsidEntry) (h : (k.translateFuncs next x).Yields out log) :
    Shrinks x.1 out log := by
  have hrefl (x) : (next x).Le (next x) := .refl _
  unfold translateFuncs at h
  split at h
  · obtain ⟨b, r, l₁, l₂, -, hloop, rfl, hrest⟩ := yields_linearTranslate.mp h
    have hl₁ := (Looks.loop (linearStep_looks hrefl b x.1.pn) _ _).noLeaf _ _ hloop
    rcases hrest with ⟨rfl, rfl, rfl⟩ | ⟨e, l₃, rfl, honward, rfl⟩
    · exact shrinks_bad _ (by simpa using hl₁)
    · exact .stage hl₁ rfl (minSize_le_left _ _) (onward_shrinks hnext honward)
  · obtain ⟨b, pte, l₁, l₂, -, hpte, honward, rfl⟩ := yields_pagewalkTranslate.mp h
    exact .stage ((memPagewalkL1_looks hrefl b _ _).noLeaf _ _ hpte) rfl (minSize_le_left _ _)
      (onward_shrinks hnext honward)
  · obtain ⟨b, l, -, rfl, hrest⟩ := yields_offsetTranslate.mp h
    have hu : Shrinks (offsetUpdate x.1 x.2.ptb) out l := by
      rcases hrest with ⟨-, -, h⟩ | ⟨-, rfl, rfl⟩
      · exact hnext _ _ _ h
      · exact offsetLowest_shrinks _ _ _
    have hnil : ∀ e ∈ ([] : List WalkEvent), e.notLeaf = true := nofun
    exact .stage hnil rfl (minSize_le_right (OffsetFmt.size _) _) hu
  · obtain ⟨b, new, l₁, l₂, -, hnew, honward, rfl⟩ := yields_varadixTranslate.mp h
    exact .stage ((varadixNew_looks hrefl b _ _ _).noLeaf _ _ hnew) (varadixUpdate_xwru _ _)
      (varadixUpdate_size_le _ _) (onward_shrinks hnext honward)
  · exact absurd h not_yields_stuck

theorem Maps.unroll_shrinks (k : Maps) : ∀ depth x out log,
    (unroll k.translateFuncs depth x).Yields out log → Shrinks x.1 out log
  | 0, _, _, _, h => absurd h not_yields_stuck
  | depth + 1, x, _, _, h => translateFuncs_shrinks (k.unroll_shrinks depth) x h

/-- **Permissions only shrink, and so do pages.** -/
theorem Maps.Translates.shrinks (h : k.Translates t info out log) : Shrinks t out log := by
  obtain ⟨depth, h⟩ := h
  exact k.unroll_shrinks depth _ _ _ h

end Shrinks

/-! ## Pages of tables that cannot be read -/

/-- **The next stage lets no one read** the page of a table: so it says when asked afresh. -/
def Maps.Barred (k : Maps) (e : WalkEvent) : Prop :=
  ∃ t guestmap out log, e = .page t guestmap ∧
    k.Translates (.ofPage t.pn) guestmap out log ∧ ¬CanRead out.xwru

/-- The stage after one: the guestmap of its VM. -/
def Maps.Before (k : Maps) (m m' : AsidEntry) : Prop :=
  ∃ b, k.vmblocks m.vmid = some b ∧ b.guestmap = m'

/-- At the lowest level, the upper fence and a page of the largest size that is asked for do not
overflow. -/
def Maps.FenceFits (k : Maps) (m : AsidEntry) : Prop :=
  ∀ b, m.type = 2 → k.vmblocks m.vmid = some b → b.guestmap = noMap →
    b.fenceHi.toNat + 4 ^ min 10 (OffsetFmt.size m.ptb).toNat < 2 ^ 32

/-- All fences from a stage on are such. -/
def Maps.FencesFit (k : Maps) (m : AsidEntry) : Prop :=
  ∀ m', Relation.ReflTransGen k.Before m m' → k.FenceFits m'

/-- The translation does not make an offset skip the stage after it. -/
def Maps.SkipsNone (k : Maps) (t : Translation) (m : AsidEntry) : Prop :=
  ∀ b, m.type = 2 → k.vmblocks m.vmid = some b → b.guestmap ≠ noMap → t.shared = false

/-- **The page of a table is as good as asked for afresh**: it is, or what is carried over from the
page before makes no offset skip a stage and overflows no fence. -/
def Maps.Afresh (k : Maps) (e : WalkEvent) : Prop :=
  ∀ t m, e = .page t m → t = .ofPage t.pn ∨ k.SkipsNone t m ∧ k.FencesFit m

/-- A page that cannot be read, and is as good as asked for afresh. -/
def Maps.Shut (k : Maps) (e : WalkEvent) : Prop := k.Barred e ∧ k.Afresh e

theorem toNat_minSize (a b : BitVec 4) : (minSize a b).toNat = min a.toNat b.toNat := by
  unfold minSize
  split
  · next h => exact (Nat.min_eq_left (le_of_lt h)).symm
  · next h => exact (Nat.min_eq_right (not_lt.mp h)).symm

/-- One translation asks for the page that another asks for, and for no more of it. -/
structure Alike (t t' : Translation) : Prop where
  pn : t.pn = t'.pn
  size : t.size.toNat ≤ t'.size.toNat
  size' : t'.size.toNat ≤ 10
  read : CanRead t.xwru → CanRead t'.xwru

section Alike

variable {k : Maps} {next : TransCalls} {b : VmMap} {t t' u u' out : Translation}
  {log : List WalkEvent}

/-- What an entry makes of the two is as alike. -/
theorem Alike.stage (h : Alike t t') {s : ℕ} {p : BitVec 4} (hpn : u.pn = u'.pn)
    (hsize : u.size.toNat = min t.size.toNat s) (hsize' : u'.size.toNat = min t'.size.toNat s)
    (hxwru : u.xwru = t.xwru &&& p) (hxwru' : u'.xwru = t'.xwru &&& p) : Alike u u' where
  pn := hpn
  size := by
    have := h.size
    omega
  size' := by
    have := h.size'
    omega
  read hr := by
    rw [hxwru, canRead_and] at hr
    rw [hxwru', canRead_and]
    exact ⟨h.read hr.1, hr.2⟩

theorem Alike.varadix (h : Alike t t') (new : Translation) :
    Alike (varadixUpdate t new) (varadixUpdate t' new) := by
  unfold varadixUpdate
  split
  · next hbad => exact ⟨rfl, Nat.le_refl _, by rw [hbad]; decide, id⟩
  · exact h.stage rfl ((toNat_minSize new.size _).trans (Nat.min_comm _ _))
      ((toNat_minSize new.size _).trans (Nat.min_comm _ _)) rfl rfl

/-- The calls that a stage makes are answered alike. -/
def CallsAlike (k : Maps) (next : TransCalls) : Prop :=
  ∀ m t t' out log, k.FencesFit m → Alike t t' → k.SkipsNone t m → k.SkipsNone t' m →
    (next (t, m)).Yields out log → CanRead out.xwru →
    ∃ out' log', (next (t', m)).Yields out' log' ∧ CanRead out'.xwru

theorem VmMap.onward_alike (hnext : CallsAlike k next) (hfit : k.FencesFit b.guestmap)
    (h : Alike u u') (hshared : u.shared = u'.shared)
    (honward : (b.onward next u).Yields out log) (hread : CanRead out.xwru) :
    ∃ out' log', (b.onward next u').Yields out' log' ∧ CanRead out'.xwru := by
  simp only [yields_onward] at honward ⊢
  rcases honward with ⟨hs, hmap, hout⟩ | ⟨hs, rfl, rfl⟩
  · obtain ⟨out', log', hout', hread'⟩ :=
      hnext _ _ _ _ _ hfit h (fun _ _ _ _ => hs) (fun _ _ _ _ => hshared ▸ hs) hout hread
    exact ⟨out', log', .inl ⟨hshared ▸ hs, hmap, hout'⟩, hread'⟩
  · exact ⟨u', [], .inr ⟨hshared ▸ hs, rfl, rfl⟩, h.read hread⟩

theorem toNat_pages {s : ℕ} (hs : s ≤ 15) : (1#32 <<< (2 * s)).toNat = 4 ^ s := by
  rw [toNat_one_shiftLeft (by omega), Nat.pow_mul]

/-- A page that a smaller request may have, a larger one may have too. -/
theorem Maps.offsetLowest_alike {origIn : BitVec 32} (h : Alike u u')
    (hfence : b.fenceHi.toNat + 4 ^ u'.size.toNat < 2 ^ 32)
    (hread : CanRead (k.offsetLowest b origIn u).xwru) :
    CanRead (k.offsetLowest b origIn u').xwru := by
  have hle : 4 ^ u.size.toNat ≤ 4 ^ u'.size.toNat := Nat.pow_le_pow_right (by decide) h.size
  unfold offsetLowest at hread ⊢
  by_cases hwin : k.inWindow origIn
  · rw [if_pos hwin] at hread ⊢
    exact h.read hread
  rw [if_neg hwin] at hread ⊢
  by_cases hout : u.pn < b.fenceLo ∨ b.fenceHi + (1#32 <<< (2 * u.size.toNat)) ≤ u.pn
  · rw [if_pos hout] at hread
    exact absurd rfl hread
  · rw [if_neg hout] at hread
    rw [if_neg]
    · exact h.read hread
    · simp only [lt_def, le_def, toNat_add, h.pn, toNat_pages (Nat.le_of_lt_succ u.size.isLt),
        toNat_pages (Nat.le_of_lt_succ u'.size.isLt)] at hout ⊢
      rw [Nat.mod_eq_of_lt (by omega)] at hout ⊢
      omega

theorem Maps.FencesFit.after {m : AsidEntry} (h : k.FencesFit m) (hb : k.vmblocks m.vmid = some b) :
    k.FencesFit b.guestmap :=
  fun m' hm' => h m' (.head ⟨b, hb, rfl⟩ hm')

/-- **A stage answers alike**, if the stages after it do. -/
theorem Maps.translateFuncs_alike (hnext : CallsAlike k next) :
    CallsAlike k (k.translateFuncs next) := by
  intro m t t' out log hfit h hskip hskip' hout hread
  unfold translateFuncs at hout ⊢
  split at hout
  · next htype =>
    simp only [htype, yields_linearTranslate] at hout ⊢
    obtain ⟨b, r, l₁, l₂, hb, hloop, -, ⟨-, rfl, -⟩ | ⟨e, l₃, rfl, honward, -⟩⟩ := hout
    · exact absurd rfl hread
    · have hu : Alike (linearTranslateUpdate t e) (linearTranslateUpdate t' e) :=
        h.stage rfl (toNat_minSize _ _) (toNat_minSize _ _) rfl rfl
      obtain ⟨out', l, hout', hread'⟩ := onward_alike hnext (hfit.after hb) hu rfl honward hread
      exact ⟨out', _, ⟨b, some e, l₁, _, hb, h.pn ▸ hloop, rfl, .inr ⟨e, l, rfl, hout', rfl⟩⟩,
        hread'⟩
  · next htype =>
    simp only [htype, yields_pagewalkTranslate] at hout ⊢
    obtain ⟨b, pte, l₁, l₂, hb, hpte, honward, -⟩ := hout
    have hu : Alike (pagewalkUpdateTranslation t pte) (pagewalkUpdateTranslation t' pte) :=
      h.stage (by simp only [pagewalkUpdateTranslation, h.pn]) (toNat_minSize _ _)
        (toNat_minSize _ _) rfl rfl
    obtain ⟨out', l, hout', hread'⟩ := onward_alike hnext (hfit.after hb) hu rfl honward hread
    exact ⟨out', _, ⟨b, pte, l₁, l, hb, h.pn ▸ hpte, hout', rfl⟩, hread'⟩
  · next htype =>
    simp only [htype, yields_offsetTranslate] at hout ⊢
    obtain ⟨b, l, hb, -, hrest⟩ := hout
    have htype : m.type = 2 := eq_of_toNat_eq htype
    have hu : Alike (offsetUpdate t m.ptb) (offsetUpdate t' m.ptb) :=
      h.stage (by simp only [offsetUpdate, h.pn])
        ((toNat_minSize (OffsetFmt.size m.ptb) _).trans (Nat.min_comm _ _))
        ((toNat_minSize (OffsetFmt.size m.ptb) _).trans (Nat.min_comm _ _)) rfl rfl
    rcases hrest with ⟨hs, hmap, hout⟩ | ⟨hlow, rfl, rfl⟩
    · have hs' : t'.shared = false := hskip' b htype hb hmap
      obtain ⟨out', l', hout', hread'⟩ := hnext _ _ _ _ _ (hfit.after hb) hu (fun _ _ _ _ => hs)
        (fun _ _ _ _ => hs') hout hread
      exact ⟨out', _, ⟨b, l', hb, rfl, .inl ⟨hs', hmap, hout'⟩⟩, hread'⟩
    · have hmap : b.guestmap = noMap := by
        by_contra hmap
        exact hmap (hlow.resolve_left (by simp [offsetUpdate, hskip b htype hb hmap]))
      have hsize : (offsetUpdate t' m.ptb).size.toNat ≤ min 10 (OffsetFmt.size m.ptb).toNat := by
        have := h.size'
        have hmin : (offsetUpdate t' m.ptb).size.toNat = _ := toNat_minSize (OffsetFmt.size m.ptb) _
        omega
      have hfence := hfit m .refl b htype hb hmap
      have hpow := Nat.pow_le_pow_right (show 0 < 4 by decide) hsize
      refine ⟨_, _, ⟨b, [], hb, rfl, .inr ⟨.inr hmap, rfl, rfl⟩⟩, ?_⟩
      rw [← h.pn]
      exact offsetLowest_alike hu (by omega) hread
  · next htype =>
    simp only [htype, yields_varadixTranslate] at hout ⊢
    obtain ⟨b, new, l₁, l₂, hb, hnew, honward, -⟩ := hout
    have hu := h.varadix new
    have hshared' : (varadixUpdate t new).shared = (varadixUpdate t' new).shared := by
      unfold varadixUpdate
      split <;> rfl
    obtain ⟨out', l, hout', hread'⟩ := onward_alike hnext (hfit.after hb) hu hshared' honward hread
    exact ⟨out', _, ⟨b, new, l₁, l, hb, h.pn ▸ hnew, hout', rfl⟩, hread'⟩
  · exact absurd hout not_yields_stuck

theorem Maps.unroll_alike : ∀ depth, CallsAlike k (unroll k.translateFuncs depth)
  | 0 => fun _ _ _ _ _ _ _ _ _ h => absurd h not_yields_stuck
  | depth + 1 => translateFuncs_alike (unroll_alike depth)

end Alike

/-! ## A table on such a page is not read -/

/-- No permission to read, write or execute. -/
def Denied (xwru : BitVec 4) : Prop := xwru &&& 0xe = 0

theorem not_canRead_of_denied : ∀ {xwru : BitVec 4}, Denied xwru → ¬CanRead xwru := by
  unfold Denied CanRead
  decide

theorem denied_and {a b : BitVec 4} (h : Denied b) : Denied (a &&& b) :=
  (Within.and_right a b).and_eq_zero h

theorem memTlbfmtFromTrans_denied {t : Translation} (h : Denied t.xwru) (va : BitVec 32)
    (asid : BitVec 7) (tlbSizeDma : BitVec 32) : memTlbfmtFromTrans t va asid tlbSizeDma = 0 :=
  if_pos (.inl h)

section Barred

variable {k : Maps} {next : TransCalls} {b : VmMap}

/-- The calls of a stage that meet such a page are denied. -/
def CallsDenied (k : Maps) (next : TransCalls) : Prop :=
  ∀ x, Decides k.Shut (fun out => Denied out.xwru) (next x)

theorem Maps.not_shut_read (pa : BitVec 64) : ¬k.Shut (.read pa) := fun h => nomatch h.1

theorem Maps.not_shut_leaf (p : BitVec 4) : ¬k.Shut (.leaf p) := fun h => nomatch h.1

/-- A page is not found if the next stage does not let it be read, or does not come to it. -/
theorem VmMap.tablePage_decides (hnext : CallsDenied k next) {tmp : Translation}
    (hfresh : ∀ out log, (next (tmp, b.guestmap)).Yields out log →
      k.Shut (.page tmp b.guestmap) → ¬CanRead out.xwru) :
    Decides k.Shut (· = none) (b.tablePage next tmp) := by
  rintro r log h ⟨e, he, hshut⟩
  obtain ⟨out, l, hout, rfl, rfl⟩ := yields_tablePage.mp h
  have hread : ¬CanRead out.xwru := by
    rcases List.mem_cons.mp he with rfl | he
    · exact hfresh out l hout hshut
    · exact not_canRead_of_denied (hnext _ out l hout ⟨e, (List.mem_filter.mp he).1, hshut⟩)
  exact if_pos (not_not.mp hread)

variable {depth : ℕ}

theorem VmMap.tablePage_fresh (hnext : CallsDenied k (unroll k.translateFuncs depth))
    (pn : BitVec 32) :
    Decides k.Shut (· = none) (b.tablePage (unroll k.translateFuncs depth) (.ofPage pn)) := by
  refine tablePage_decides hnext fun out log hout hshut => ?_
  obtain ⟨_, _, out', log', heq, hout', hread⟩ := hshut.1
  obtain ⟨rfl, rfl⟩ := WalkEvent.page.inj heq
  rwa [(Maps.Translates.inj ⟨depth, hout⟩ hout').1]

theorem VmMap.onward_decides (hnext : CallsDenied k next) (t : Translation) :
    Decides k.Shut (fun out => Denied out.xwru) (b.onward next t) := by
  unfold onward
  split
  · exact hnext _
  · exact .pure _

/-- What a stage comes to, if it has met such a page: either it has found an entry without
permissions, or it meets the page later. -/
theorem denied_of_stage {u out : Translation} {p : BitVec 4} {l₁ l₂ : List WalkEvent}
    (hu : (∃ e ∈ l₁, k.Shut e) → Denied u.xwru) (hout : Shrinks u out l₂)
    (hrest : (∃ e ∈ l₂, k.Shut e) → Denied out.xwru)
    (h : ∃ e ∈ l₁ ++ .leaf p :: l₂, k.Shut e) : Denied out.xwru := by
  obtain ⟨e, he, hshut⟩ := h
  rcases List.mem_append.mp he with he | he
  · exact hout.xwru.and_eq_zero (hu ⟨e, he, hshut⟩)
  rcases List.mem_cons.mp he with rfl | he
  · exact absurd hshut (Maps.not_shut_leaf p)
  · exact hrest ⟨e, he, hshut⟩

namespace Maps

section Fresh

variable (hnext : CallsDenied k (unroll k.translateFuncs depth))

include hnext

theorem tableWord_decides (addr : BitVec 64) :
    Decides k.Shut (· = none) (k.tableWord (unroll k.translateFuncs depth) b addr) := by
  unfold tableWord
  split
  · exact .of_logs (.bind (memwPhys_logs not_shut_read _ _) fun _ => .pure _)
  · refine .bind (tablePage_fresh hnext _) ?_ fun
      | none => .pure _
      | some _ => .of_logs (.bind (memwPhys_logs not_shut_read _ _) fun _ => .pure _)
    rintro _ rfl r l hr
    exact (yields_pure.mp hr).1

theorem memPagewalkL2_decides (pn l2addr : BitVec 32) (pagesize : ℕ) : Decides k.Shut (· = 0)
      (k.memPagewalkL2 (unroll k.translateFuncs depth) b pn l2addr pagesize) := by
  refine .bind (tableWord_decides hnext _) ?_ fun
    | none => .pure _
    | some _ => .pure _
  rintro _ rfl pte l hpte
  exact (yields_pure.mp hpte).1

theorem memPagewalkAt_decides (pn ppn : BitVec 32) :
    Decides k.Shut (· = 0) (k.memPagewalkAt (unroll k.translateFuncs depth) b pn ppn) := by
  refine .bind (.of_logs (memwPhys_logs not_shut_read _ _)) (P := fun _ => False) nofun
    fun raw => ?_
  split
  · exact memPagewalkL2_decides hnext pn _ _
  split <;> exact .pure _

theorem memPagewalkL1_decides (pn ptb : BitVec 32) :
    Decides k.Shut (· = 0) (k.memPagewalkL1 (unroll k.translateFuncs depth) b pn ptb) := by
  unfold memPagewalkL1
  split
  · exact memPagewalkAt_decides hnext pn _
  · refine .bind (tablePage_fresh hnext _) ?_ fun
      | none => .pure _
      | some _ => memPagewalkAt_decides hnext pn _
    rintro _ rfl pte l hpte
    exact (yields_pure.mp hpte).1

theorem varadixStep_decides (vpn : BitVec 32) (s : RadixPos) :
    Decides k.Shut (fun r => ∃ new, r = .inr new ∧ new = translateBad)
      (k.varadixStep (unroll k.translateFuncs depth) b vpn s) := by
  refine .bind (tableWord_decides hnext _) ?_ fun
    | none => .pure _
    | some _ => .pure _
  rintro _ rfl r l hr
  exact ⟨translateBad, (yields_pure.mp hr).1, rfl⟩

theorem varadixNew_decides (vpn ptb vpnbits : BitVec 32) : Decides k.Shut (· = translateBad)
      (k.varadixNew (unroll k.translateFuncs depth) b vpn ptb vpnbits) := by
  unfold varadixNew
  split
  · exact .pure _
  · simp only
    split
    · exact .pure _
    · exact .loop (fun _ _ _ _ _ => trivial)
        (fun s _ => varadixStep_decides hnext vpn s) _ _ trivial

end Fresh

/-- A page the walk over a list has come to is found only if it would be found afresh. -/
theorem tablePage_carried (hnext : CallsDenied k (unroll k.translateFuncs depth))
    {tmp : Translation} (hsize : tmp.size.toNat ≤ 10) : Decides k.Shut (· = none)
      (b.tablePage (unroll k.translateFuncs depth) tmp) := by
  refine tablePage_decides hnext fun out log hout hshut hread => ?_
  obtain ⟨⟨_, _, out', log', heq, hout', hread'⟩, hafresh⟩ := hshut
  obtain ⟨rfl, rfl⟩ := WalkEvent.page.inj heq
  rcases hafresh _ _ rfl with hfresh | ⟨hskip, hfit⟩
  · rw [← hfresh] at hout'
    rw [(Translates.inj ⟨depth, hout⟩ hout').1] at hread
    exact hread' hread
  · have halike : Alike tmp (.ofPage tmp.pn) :=
      ⟨rfl, hsize, Nat.le_refl 10, fun _ => (canRead_iff 0xf).mpr rfl⟩
    obtain ⟨out'', log'', hout'', hread''⟩ :=
      unroll_alike depth b.guestmap _ _ _ _ hfit halike hskip (fun _ _ _ _ => rfl) hout hread
    obtain ⟨rfl, -⟩ := Translates.inj ⟨depth, hout''⟩ hout'
    exact hread' hread''

/-- The walk never asks for more than at its start, … -/
def Carries (s : ListPos) : Prop := s.tmp.size.toNat ≤ 10

theorem carries_linearPage {s s' : ListPos} {log : List WalkEvent} (hs : Carries s)
    (h : (b.linearPage (unroll k.translateFuncs depth) s).Yields (some s') log) : Carries s' := by
  obtain ⟨-, heq, -⟩ | ⟨-, -, heq, -⟩ | ⟨-, -, tmp, htmp, heq⟩ := yields_linearPage h
  · exact Option.some.inj heq ▸ hs
  · exact Option.some.inj heq ▸ hs
  · obtain ⟨out, l, hout, rfl, -⟩ := yields_tablePage.mp htmp
    split at heq
    · cases heq
    · cases heq
      exact Nat.le_trans (k.unroll_shrinks depth _ _ _ hout).size hs

theorem linearStep_decides (hnext : CallsDenied k (unroll k.translateFuncs depth))
    (badvpn : BitVec 32) (s : ListPos) (hs : Carries s) :
    Decides k.Shut (fun r => ∃ found, r = .inr found ∧ found = none)
      (k.linearStep (unroll k.translateFuncs depth) b badvpn s) := by
  have hpage : Decides k.Shut (· = none) (b.linearPage (unroll k.translateFuncs depth) s) := by
    unfold linearPage
    split
    · exact .pure _
    split
    · exact .pure _
    · refine .bind (tablePage_carried hnext hs) ?_ fun _ => .pure _
      rintro _ rfl r l hr
      exact (yields_pure.mp hr).1
  refine .bind hpage ?_ fun
    | none => .pure _
    | some _ => .of_logs (.bind (physreadDword_logs not_shut_read _) fun _ => .pure _)
  rintro _ rfl r l hr
  exact ⟨none, (yields_pure.mp hr).1, rfl⟩

/-- … in no round. -/
theorem carries_linearStep (badvpn : BitVec 32) (s s' : ListPos) (log : List WalkEvent)
    (hs : Carries s)
    (h : (k.linearStep (unroll k.translateFuncs depth) b badvpn s).Yields (.inl s') log) :
    Carries s' := by
  obtain ⟨-, heq⟩ | ⟨s₁, l₁, l₂, hpage, -, hadvance, -⟩ := yields_linearStep.mp h
  · cases heq
  · have hs₁ := carries_linearPage hs hpage
    obtain ⟨-, -, rfl⟩ := ListPos.advance_eq_inl.mp hadvance.symm
    rwa [Carries, ListPos.follow_tmp]

/-- **A stage that has met a page that cannot be read comes to nothing.** -/
theorem translateFuncs_denied (hnext : CallsDenied k (unroll k.translateFuncs depth)) :
    CallsDenied k (k.translateFuncs (unroll k.translateFuncs depth)) := by
  intro x out log h
  have hshrinks := k.unroll_shrinks depth
  unfold translateFuncs at h
  split at h
  · obtain ⟨b, r, l₁, l₂, -, hloop, rfl, hrest⟩ := yields_linearTranslate.mp h
    have hstart : Carries (.start x.2.ptb) := Nat.le_refl 10
    have hr := Decides.loop (carries_linearStep x.1.pn) (linearStep_decides hnext x.1.pn) _ _ hstart
      _ _ hloop
    rcases hrest with ⟨rfl, rfl, rfl⟩ | ⟨e, l₃, rfl, honward, rfl⟩
    · exact fun _ => rfl
    · exact denied_of_stage (fun hl₁ => nomatch hr hl₁) (onward_shrinks hshrinks honward)
        (onward_decides hnext _ _ _ honward)
  · obtain ⟨b, pte, l₁, l₂, -, hpte, honward, rfl⟩ := yields_pagewalkTranslate.mp h
    refine denied_of_stage (fun hl₁ => ?_) (onward_shrinks hshrinks honward)
      (onward_decides hnext _ _ _ honward)
    rw [memPagewalkL1_decides hnext _ _ _ _ hpte hl₁]
    exact denied_and rfl
  · obtain ⟨b, l, -, rfl, hrest⟩ := yields_offsetTranslate.mp h
    rintro ⟨e, he, hshut⟩
    rcases List.mem_cons.mp he with rfl | he
    · exact absurd hshut (not_shut_leaf _)
    rcases hrest with ⟨-, -, hout⟩ | ⟨-, -, rfl⟩
    · exact hnext _ _ _ hout ⟨e, he, hshut⟩
    · cases he
  · obtain ⟨b, new, l₁, l₂, -, hnew, honward, rfl⟩ := yields_varadixTranslate.mp h
    refine denied_of_stage (fun hl₁ => ?_) (onward_shrinks hshrinks honward)
      (onward_decides hnext _ _ _ honward)
    rw [varadixNew_decides hnext _ _ _ _ _ hnew hl₁, varadixUpdate_xwru]
    exact denied_and rfl
  · exact absurd h not_yields_stuck

theorem unroll_denied : ∀ depth, CallsDenied k (unroll k.translateFuncs depth)
  | 0 => fun _ _ _ h => absurd h not_yields_stuck
  | depth + 1 => translateFuncs_denied (unroll_denied depth)

end Maps

end Barred

/-- **Permissions only shrink.** Whatever the tables are, a translation ends with no more than it
was given and than each entry allows, and with no larger page.  And one that has to read a table on
a page that the next stage lets no one read, and that is as good as asked for afresh, comes to
nothing, and there is no TLB entry. -/
theorem permissions_shrink {k : Maps} {t out : Translation} {info : AsidEntry}
    {log : List WalkEvent} (h : k.Translates t info out log) :
    (Within out.xwru t.xwru ∧ out.size ≤ t.size ∧ ∀ p, .leaf p ∈ log → Within out.xwru p) ∧
    ∀ e ∈ log, k.Barred e → k.Afresh e →
      Denied out.xwru ∧ ∀ va asid tlbSizeDma, memTlbfmtFromTrans out va asid tlbSizeDma = 0 := by
  have hshrinks := h.shrinks
  refine ⟨⟨hshrinks.xwru, hshrinks.size, hshrinks.leaf⟩, fun e he hbarred hafresh => ?_⟩
  obtain ⟨depth, h⟩ := h
  have hdenied := Maps.unroll_denied depth _ _ _ h ⟨e, he, hbarred, hafresh⟩
  exact ⟨hdenied, memTlbfmtFromTrans_denied hdenied⟩

/-- A guest with a list that goes on from the page `0x10` to the page `0x11`; the fences of its
parent end after the first. -/
def fencedList : Maps where
  mem pa := if pa = 0x10ff8 then 0xf0000001 else if pa = 0x10ffc then 5 else 0
  vmblocks vmid :=
    if vmid = 1 then some ⟨noMap, 0, 0x10⟩
    else if vmid = 2 then some ⟨⟨0xf70, 0, 1, 2, 0, 0⟩, 0, -1⟩
    else none
  tcmBase := 0
  tcmSize := 0
  vtcmBase := 0
  vtcmSize := 0

theorem fencedList_fencesFit : fencedList.FencesFit ⟨0xf70, 0, 1, 2, 0, 0⟩ := by
  intro m' hm'
  rcases hm'.cases_head with rfl | ⟨_, ⟨b, hb, rfl⟩, hm'⟩
  · intro b _ hb _
    cases hb
    decide
  cases hb
  rcases hm'.cases_head with rfl | ⟨_, ⟨c, hc, -⟩, -⟩
  · intro _ htype
    cases htype
  · cases hc

/-- The page `0x11` is asked for with what the page before has left, and all is denied. -/
theorem permissions_shrink_fenced : ∃ out log,
    fencedList.Translates (.ofPage 7) ⟨0x10ff8, 1, 2, 0, 0, 0⟩ out log ∧
    (∃ e ∈ log, fencedList.Barred e ∧ fencedList.Afresh e) ∧
    ∀ va asid tlbSizeDma, memTlbfmtFromTrans out va asid tlbSizeDma = 0 := by
  have hlist : fencedList.Translates (.ofPage 7) ⟨0x10ff8, 1, 2, 0, 0, 0⟩ translateBad
      [.page (.ofPage 0x10) ⟨0xf70, 0, 1, 2, 0, 0⟩, .read 0x10ff8, .read 0x10ffc,
        .page ⟨0x11, 0, 0xf, 7, false, false, false⟩ ⟨0xf70, 0, 1, 2, 0, 0⟩] :=
    ⟨2, by decide +kernel⟩
  have hpage : fencedList.Translates (.ofPage 0x11) ⟨0xf70, 0, 1, 2, 0, 0⟩ translateBad
      [.leaf 0xf] :=
    ⟨1, by decide +kernel⟩
  have hbarred : fencedList.Barred
      (.page ⟨0x11, 0, 0xf, 7, false, false, false⟩ ⟨0xf70, 0, 1, 2, 0, 0⟩) :=
    ⟨_, _, _, _, rfl, hpage, fun hread => hread rfl⟩
  have hafresh : fencedList.Afresh
      (.page ⟨0x11, 0, 0xf, 7, false, false, false⟩ ⟨0xf70, 0, 1, 2, 0, 0⟩) := by
    rintro _ _ ⟨⟩
    exact .inr ⟨fun _ _ _ _ => rfl, fencedList_fencesFit⟩
  exact ⟨_, _, hlist, ⟨_, by decide, hbarred, hafresh⟩,
    ((permissions_shrink hlist).2 _ (by decide) hbarred hafresh).2⟩

/-- A guest, the VM in slot 3, that has its memory by an offset from a VM that has its own by a
list. The parent's list has the page `0x10`, shared, and no other; the guest's own list starts at
the end of that page and goes on in the next. -/
def sharedPage : Maps where
  mem pa :=
    if pa = 0x5000 then 0xf0000010 else if pa = 0x5004 then 0x40000010
    else if pa = 0x10ff8 then 0xf0000001 else if pa = 0x10ffc then 5
    else if pa = 0x11000 then 0xf0000099 else if pa = 0x11004 then 0x40000007
    else 0
  vmblocks vmid :=
    if vmid = 1 then some ⟨noMap, 0, 0xfff00000⟩
    else if vmid = 2 then some ⟨⟨0x5000, 0, 1, 0, 0, 0⟩, 0, 0xff⟩
    else if vmid = 3 then some ⟨⟨0xf70, 0, 2, 2, 0, 0⟩, 0, -1⟩
    else none
  tcmBase := 0
  tcmSize := 0
  vtcmBase := 0
  vtcmSize := 0

/-- **A shared page opens the next one**: the guest's list is read on the page `0x11`, which its
parent does not have, and the translation that is found there is granted. -/
theorem shared_opens_next_page : ∃ out log,
    sharedPage.Translates (.ofPage 7) ⟨0x10ff8, 1, 3, 0, 0, 0⟩ out log ∧
    (∃ e ∈ log, sharedPage.Barred e) ∧ ¬Denied out.xwru ∧
    memTlbfmtFromTrans out 0x7000 0 0 ≠ 0 := by
  have hlist : sharedPage.Translates (.ofPage 7) ⟨0x10ff8, 1, 3, 0, 0, 0⟩
      ⟨0x99, 0, 0xf, 0, false, false, true⟩
      [.page (.ofPage 0x10) ⟨0xf70, 0, 2, 2, 0, 0⟩, .read 0x5000, .read 0x5004, .read 0x10ff8,
        .read 0x10ffc,
        .page ⟨0x11, 0, 0xf, 7, false, false, true⟩ ⟨0xf70, 0, 2, 2, 0, 0⟩, .read 0x11000,
          .read 0x11004, .leaf 0xf] :=
    ⟨3, by decide +kernel⟩
  have hpage : sharedPage.Translates (.ofPage 0x11) ⟨0xf70, 0, 2, 2, 0, 0⟩ translateBad
      [.leaf 0xf, .read 0x5000, .read 0x5004, .read 0x5008, .read 0x500c] := ⟨2, by decide +kernel⟩
  have hbarred : sharedPage.Barred
      (.page ⟨0x11, 0, 0xf, 7, false, false, true⟩ ⟨0xf70, 0, 2, 2, 0, 0⟩) :=
    ⟨_, _, _, _, rfl, hpage, fun hread => hread rfl⟩
  exact ⟨_, _, hlist, ⟨_, by decide, hbarred⟩, by unfold Denied; decide, by decide +kernel⟩

end H2
