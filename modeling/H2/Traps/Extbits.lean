import H2.Kernel.Run
import H2.Sched.Coprocs
import Mathlib.Algebra.Module.NatInt
import Mathlib.Algebra.Order.BigOperators.Group.Finset
import Mathlib.Tactic.Abel

/-!
# Traps/Extbits — turning coprocessors on and off, and what the count says

Three calls turn HVX, HMX and HLX on and off for the caller.  Turning one on changes what the
context asks for and then schedules, as if the thread had been preempted; turning one off counts
what that frees, lets go of the kernel lock, and only then changes the context.

`coproc_accounting`: with cluster scheduling on from the start, along any sequence of dispatches,
takeovers by interrupt handlers and such calls, the count of each cluster is what its running
threads hold whenever the lock is free, exactly where each step is `Even`.
-/

namespace H2

open Kernel Function

open Cluster (coprocs)

variable {ι β : Type}

inductive Ext where
  /-- `xe` in `ssr`. -/
  | hvx
  /-- `xe2` in `ssr`. -/
  | hmx
  /-- `xe3` in `ccr`. -/
  | hlx
  deriving DecidableEq

namespace Ext

def get : Ext → Enables → Bool
  | hvx, x => x.1
  | hmx, x => x.2.1
  | hlx, x => x.2.2

def set (v : Bool) : Ext → Enables → Enables
  | hvx, x => (v, x.2.1, x.2.2)
  | hmx, x => (x.1, v, x.2.2)
  | hlx, x => (x.1, x.2.1, v)

theorem set_get {v : Bool} {x : Ext} {e : Enables} (hv : x.get e = v) : x.set v e = e := by
  subst hv
  cases x <;> rfl

end Ext

/-- What the calls read of the configuration. -/
structure ExtConfig (β : Type) where
  coprocContexts : ℕ
  hmxUnits : ℕ
  hlxContexts : ℕ
  doExt : β → Bool

/-- The calls.  Which unit is asked for, `xa` and `xa3`, matters only where it says whether the
kernel manages it. -/
inductive ExtCall where
  | extbits (xa xe : BitVec 32)
  | hmxbits (xe2 : BitVec 32)
  | hlxbits (xa3 xe3 : BitVec 32)
  deriving DecidableEq

namespace Kernel

variable [DecidableEq ι]

/-- `H2K_context_save` stores `ssr` and `ccr`. -/
def saveExt (me : ι) (h : ℕ) (k : Kernel ι β) : Kernel ι β :=
  { k with cluster :=
      { k.cluster with ctx := update k.cluster.ctx me (k.cluster.hw h) } }

/-- `H2K_context_restore_return` loads them. -/
def restoreExt (me : ι) (h : ℕ) (bits : Enables) (k : Kernel ι β) : Kernel ι β :=
  { k with cluster :=
      { k.cluster with
        ctx := update k.cluster.ctx me bits
        hw := update k.cluster.hw h bits } }

/-- What the context is to say: the low bit of the argument, unless the kernel manages it. -/
def extBits (x : Ext) (insert : Bool) (v : BitVec 32) (cur : Enables) : Enables :=
  if insert then x.set (v.getLsbD 0) cur else cur

variable [dβ : DecidableEq β]

/-- Turning an extension on, up to `H2K_dosched`. -/
def turnOn (x : Ext) (insert : Bool) (v : BitVec 32) (me : ι) (k : Kernel ι β) : Kernel ι β :=
  { k with
    cluster := { k.cluster with
      ctx := update k.cluster.ctx me (extBits x insert v (k.cluster.ctx me)) }
    sched := ((k.sched.setR00 me 0).runlistRemove me).readyAppend me }

variable [fι : Fintype ι]

/-- The calls up to where the lock is released.  Where they are to return to the caller, that leaves
the enables to be put in the context. -/
def hwconfigExt (M : Machine ι β) (x : Ext) (insert : Bool) (v : BitVec 32) (me : ι)
    (k : Kernel ι β) : Option (Kernel ι β × Option Enables) :=
  let cur := k.cluster.ctx me
  if k.cluster.sched ∧ v ≠ 0 ∧ x.get cur = false then
    ((k.turnOn x insert v me).dosched M (k.sched.hthread me)).map fun p => (p.2, none)
  else if k.cluster.sched ∧ v = 0 ∧ x.get cur = true then
    some ({ k with
      cluster := k.cluster.xex (k.sched.hthread me) (x.set false cur) (x.set true cur) },
      some (extBits x insert v cur))
  else some (k, some (extBits x insert v cur))

/-- `H2K_trap_hwconfig_extbits`; `EXT_HVX_XA_START` is 0. -/
def trapHwconfigExtbits (M : Machine ι β) (E : ExtConfig β) (xa xe : BitVec 32) (me : ι)
    (k : Kernel ι β) : Option (Kernel ι β × Option Enables) :=
  k.hwconfigExt M .hvx (decide (E.coprocContexts ≤ xa.toNat) || !E.doExt (M.vmblock me)) xe me

/-- `H2K_trap_hwconfig_hmxbits`. -/
def trapHwconfigHmxbits (M : Machine ι β) (E : ExtConfig β) (xe2 : BitVec 32) (me : ι)
    (k : Kernel ι β) : Option (Kernel ι β × Option Enables) :=
  if 0 < E.hmxUnits then k.hwconfigExt M .hmx true xe2 me else some (k, none)

/-- `H2K_trap_hwconfig_hlxbits`. -/
def trapHwconfigHlxbits (M : Machine ι β) (E : ExtConfig β) (_xa3 xe3 : BitVec 32) (me : ι)
    (k : Kernel ι β) : Option (Kernel ι β × Option Enables) :=
  if 0 < E.hlxContexts then k.hwconfigExt M .hlx true xe3 me else some (k, none)

/-- The call a thread makes. -/
def trapExt (M : Machine ι β) (E : ExtConfig β) (c : ExtCall) (me : ι) (k : Kernel ι β) :
    Option (Kernel ι β × Option Enables) :=
  match c with
  | .extbits xa xe => k.trapHwconfigExtbits M E xa xe me
  | .hmxbits xe2 => k.trapHwconfigHmxbits M E xe2 me
  | .hlxbits xa3 xe3 => k.trapHwconfigHlxbits M E xa3 xe3 me

end Kernel

/-! ## The count and what is held -/

/-- The hardware threads of a cluster: `H2K_hthread_cluster`. -/
def clusterThreads (hthreads c : ℕ) : Finset ℕ := (Finset.range 32).filter fun h => h / hthreads = c

/-- What the running thread of a hardware thread holds. -/
def Kernel.holds (k : Kernel ι β) (h : ℕ) : Enables :=
  if (k.hw.sgp h).isSome then k.cluster.hw h else .off

/-- **The count is right**: one for HVX or HLX and one for HMX, over the hardware threads of each
cluster, as numbers that do not wrap. -/
def Accounted (k : Kernel ι β) : Prop :=
  ∀ c, (k.cluster.coprocCount c).toNat =
    ∑ h ∈ clusterThreads k.cluster.hthreads c, (coprocs (k.holds h)).toNat

/-- … as words, over the registers. -/
def Balanced (k : Kernel ι β) : Prop :=
  ∀ c, k.cluster.coprocCount c = ∑ h ∈ clusterThreads k.cluster.hthreads c, coprocs (k.cluster.hw h)

/-- A hardware thread that waits has no coprocessor enabled. -/
def Idle (k : Kernel ι β) : Prop := ∀ h, k.hw.sgp h = none → k.cluster.hw h = Enables.off

section Accounts

variable {k k' : Kernel ι β} {h : ℕ} {new : Enables} {d : BitVec 32}

theorem coprocs_le (e : Enables) : (coprocs e).toNat ≤ 2 := by
  obtain ⟨xe, xe2, xe3⟩ := e
  revert xe xe2 xe3
  decide

theorem Idle.holds_eq (hk : Idle k) (h : ℕ) : k.holds h = k.cluster.hw h := by
  unfold holds
  rcases hsgp : k.hw.sgp h with - | t
  · exact (hk h hsgp).symm
  · rfl

/-- A sum of few small words does not wrap. -/
theorem toNat_sum_coprocs (s : Finset ℕ) (f : ℕ → Enables) (hs : s.card ≤ 32) :
    (∑ h ∈ s, coprocs (f h)).toNat = ∑ h ∈ s, (coprocs (f h)).toNat := by
  induction s using Finset.induction_on with
  | empty => rfl
  | insert a s ha ih =>
    rw [Finset.card_insert_of_notMem ha] at hs
    have hle : ∑ h ∈ s, (coprocs (f h)).toNat ≤ s.card • 2 :=
      Finset.sum_le_card_nsmul _ _ _ fun h _ => coprocs_le (f h)
    rw [smul_eq_mul] at hle
    have ha2 := coprocs_le (f a)
    rw [Finset.sum_insert ha, Finset.sum_insert ha, BitVec.toNat_add, ih (by omega)]
    exact Nat.mod_eq_of_lt (by omega)

theorem accounted_iff_balanced (hk : Idle k) : Accounted k ↔ Balanced k := by
  refine forall_congr' fun c => ?_
  have hcard : (clusterThreads k.cluster.hthreads c).card ≤ 32 :=
    (Finset.card_filter_le _ _).trans (Finset.card_range 32).le
  rw [← toNat_sum_coprocs _ _ hcard]
  simp only [hk.holds_eq]
  exact BitVec.toNat_inj

/-- **A turn keeps the balance** exactly where what it counts is the difference between what the
hardware thread turns to and what it had. -/
theorem Turns.balanced_iff (ht : Turns h new d k k') (hh : h < 32) (hk : Balanced k) :
    Balanced k' ↔ d = coprocs new - coprocs (k.cluster.hw h) := by
  -- the cluster of `h` is the only one whose count or whose sum changes
  have hsum : ∀ c, ∑ h' ∈ clusterThreads k.cluster.hthreads c, coprocs (k'.cluster.hw h') =
      k.cluster.coprocCount c + if c = h / k.cluster.hthreads then
        coprocs new - coprocs (k.cluster.hw h) else 0 := by
    intro c
    rw [hk c, ht.hw]
    split
    · next hc =>
      have hmem : h ∈ clusterThreads k.cluster.hthreads c := by
        simp [clusterThreads, hh, hc]
      rw [← Finset.add_sum_erase _ _ hmem, ← Finset.add_sum_erase _ _ hmem, update_self]
      have hrest : ∑ x ∈ (clusterThreads k.cluster.hthreads c).erase h,
          coprocs (update k.cluster.hw h new x) =
          ∑ x ∈ (clusterThreads k.cluster.hthreads c).erase h, coprocs (k.cluster.hw x) :=
        Finset.sum_congr rfl fun x hx => by
          rw [update_of_ne (Finset.ne_of_mem_erase hx)]
      rw [hrest]
      abel
    · next hc =>
      rw [add_zero]
      refine Finset.sum_congr rfl fun x hx => ?_
      have hne : x ≠ h := by
        rintro rfl
        simp only [clusterThreads, Finset.mem_filter] at hx
        exact hc hx.2.symm
      rw [update_of_ne hne]
  have hcount : ∀ c, k'.cluster.coprocCount c =
      k.cluster.coprocCount c + if c = h / k.cluster.hthreads then d else 0 := by
    intro c
    rw [ht.count]
    by_cases hc : c = h / k.cluster.hthreads
    · rw [hc, update_self, if_pos rfl]
    · rw [update_of_ne hc, if_neg hc, add_zero]
  unfold Balanced
  rw [ht.hthreads]
  simp only [hsum, hcount, add_right_inj]
  constructor
  · intro hall
    have := hall (h / k.cluster.hthreads)
    rwa [if_pos rfl, if_pos rfl] at this
  · rintro rfl c
    rfl

end Accounts

/-! ## Runs -/

/-- The kernel with the calls that have released the lock and not yet returned, and the enables each
will return with. -/
structure CoprocState (ι β : Type) where
  kernel : Kernel ι β
  returning : ℕ → Option Enables

/-- What a hardware thread does. -/
inductive CoprocAct (ι β : Type) where
  /-- Whatever has nothing to do with coprocessors. -/
  | other
  /-- `H2K_dosched`, after the thread was put somewhere else; it may go to sleep. -/
  | dosched
  /-- `H2K_popup_int` for the thread that waits. -/
  | popupInt (intnum : ℕ) (woken : ι)
  /-- `H2K_intpool_int`. -/
  | intpoolInt (intnum : ℕ) (vmblock : β)
  /-- A call of its thread, up to the release of the lock. -/
  | call (c : ExtCall)
  /-- The rest of the call. -/
  | finish

section Steps

variable [DecidableEq ι] [dβ : DecidableEq β] [fι : Fintype ι] (M : Machine ι β) (E : ExtConfig β)

/-- **One step** of hardware thread `h`.  A thread knows which hardware thread it runs on. -/
inductive CoprocStep (h : ℕ) : CoprocAct ι β → CoprocState ι β → CoprocState ι β → Prop
  | other {s : CoprocState ι β} {k' : Kernel ι β} (hk' : SameCoprocs s.kernel k') :
      CoprocStep h .other s { s with kernel := k' }
  | dosched {s : CoprocState ι β} {k' : Kernel ι β} {e : Exit} (hfree : s.returning h = none)
      (hk' : s.kernel.dosched M h = some (e, k')) :
      CoprocStep h .dosched s { s with kernel := k' }
  | popupInt {s : CoprocState ι β} {k' : Kernel ι β} {e : Exit} {intnum : ℕ} {woken : ι}
      (hfree : s.returning h = none) (hk' : s.kernel.popupInt M intnum h woken = some (e, k')) :
      CoprocStep h (.popupInt intnum woken) s { s with kernel := k' }
  | intpoolInt {s : CoprocState ι β} {k' : Kernel ι β} {e : Exit} {intnum : ℕ} {b : β}
      (hfree : s.returning h = none) (hk' : s.kernel.intpoolInt M intnum h b = some (e, k')) :
      CoprocStep h (.intpoolInt intnum b) s { s with kernel := k' }
  | call {s : CoprocState ι β} {k' : Kernel ι β} {ret : Option Enables} {c : ExtCall} {me : ι}
      (hfree : s.returning h = none) (hme : s.kernel.hw.sgp h = some me)
      (hhthread : s.kernel.sched.hthread me = h)
      (hk' : (s.kernel.saveExt me h).trapExt M E c me = some (k', ret)) :
      CoprocStep h (.call c) s ⟨k', update s.returning h ret⟩
  | finish {s : CoprocState ι β} {bits : Enables} {me : ι} (hbits : s.returning h = some bits)
      (hme : s.kernel.hw.sgp h = some me) :
      CoprocStep h .finish s
        ⟨s.kernel.restoreExt me h bits, update s.returning h none⟩

/-- What a call asks for: the extension, whether the context is to change, and the argument.
Nothing where there is no such unit. -/
def ExtCall.asks (me : ι) : ExtCall → Option (Ext × Bool × BitVec 32)
  | .extbits xa xe =>
    some (.hvx, decide (E.coprocContexts ≤ xa.toNat) || !E.doExt (M.vmblock me), xe)
  | .hmxbits xe2 => if 0 < E.hmxUnits then some (.hmx, true, xe2) else none
  | .hlxbits _ xe3 => if 0 < E.hlxContexts then some (.hlx, true, xe3) else none

/-- A dispatch takes off the count what the hardware thread had. -/
def EvenDosched (h : ℕ) (k : Kernel ι β) : Prop :=
  coprocs (k.doschedBase M h (Fintype.card ι + 1)) = coprocs (k.cluster.hw h)

/-- The thread that takes over asks for as many coprocessors as the hardware thread had. -/
def EvenTakeOver (h : ℕ) (woken : ι) (k : Kernel ι β) : Prop :=
  coprocs (k.takeOverBase M h woken) = coprocs (k.cluster.hw h)

/-- Turning an extension off frees nothing; turning it on is a dispatch. -/
def EvenExt (h : ℕ) (x : Ext) (insert : Bool) (v : BitVec 32) (me : ι) (k : Kernel ι β) : Prop :=
  (v ≠ 0 → x.get (k.cluster.ctx me) = false → EvenDosched M h (k.turnOn x insert v me)) ∧
    (v = 0 → x.get (k.cluster.ctx me) = true →
      coprocs (x.set false (k.cluster.ctx me)) = coprocs (k.cluster.ctx me))

/-- **An even step.** -/
def Even (h : ℕ) (s : CoprocState ι β) : CoprocAct ι β → Prop
  | .other => True
  | .dosched => EvenDosched M h s.kernel
  | .popupInt intnum woken =>
    EvenTakeOver M h woken { s.kernel with sched := s.kernel.sched.writeHandler intnum .null }
  | .intpoolInt intnum b =>
    ∀ woken, s.kernel.sched.rings.head (.intpool b) = some woken →
      EvenTakeOver M h woken { s.kernel with
        sched := { s.kernel.sched with
          rings := s.kernel.sched.rings.remove (.intpool b) woken }.setR00 woken intnum }
  | .call c =>
    ∀ me x insert v, s.kernel.hw.sgp h = some me → c.asks M E me = some (x, insert, v) →
      EvenExt M h x insert v me (s.kernel.saveExt me h)
  | .finish => ∀ bits, s.returning h = some bits → coprocs bits = coprocs (s.kernel.cluster.hw h)

/-- With a limit every dispatch is even. -/
theorem evenDosched_of_limit {h : ℕ} {k : Kernel ι β} (hmax : k.cluster.coprocMax ≠ -1) :
    EvenDosched M h k := by
  rw [EvenDosched, doschedBase, if_neg hmax]

/-- What every step keeps. -/
structure CoprocState.Sound (s : CoprocState ι β) : Prop where
  sched : s.kernel.cluster.sched = true
  heads : s.kernel.sched.ReadyHeads
  idle : Idle s.kernel

variable {M E} {h : ℕ} {s s' : CoprocState ι β} {a : CoprocAct ι β} {k k' : Kernel ι β} {me : ι}

theorem trapExt_eq (c : ExtCall) (k : Kernel ι β) : k.trapExt M E c me = match c.asks M E me with
      | none => some (k, none)
      | some (x, insert, v) => k.hwconfigExt M x insert v me := by
  cases c with
  | extbits xa xe => rfl
  | hmxbits xe2 =>
    simp only [trapExt, trapHwconfigHmxbits, ExtCall.asks]
    split <;> rfl
  | hlxbits xa3 xe3 =>
    simp only [trapExt, trapHwconfigHlxbits, ExtCall.asks]
    split <;> rfl

omit dβ fι in
theorem saveExt_sameCoprocs (me : ι) (h : ℕ) (k : Kernel ι β) : SameCoprocs k (k.saveExt me h) :=
  ⟨rfl, rfl, rfl, rfl, rfl, rfl, id⟩

omit fι in
theorem turnOn_sameCoprocs (x : Ext) (insert : Bool) (v : BitVec 32) (me : ι) (k : Kernel ι β) :
    SameCoprocs k (k.turnOn x insert v me) :=
  ⟨rfl, rfl, rfl, rfl, rfl, rfl, fun hs => (hs.congr rfl fun _ => rfl).readyAppend me⟩

/-- **A call**, from the state with the registers saved: it is a dispatch, or it counts what it
frees. -/
theorem hwconfigExt_turns {x : Ext} {insert : Bool} {v : BitVec 32} {ret : Option Enables}
    (hsched : k.cluster.sched = true) (hheads : k.sched.ReadyHeads)
    (hme : k.hw.sgp h = some me) (hhthread : k.sched.hthread me = h)
    (hk' : k.hwconfigExt M x insert v me = some (k', ret)) :
    ∃ new d, Turns h new d k k' ∧ (k'.hw.sgp h = none → new = Enables.off) ∧
      (d = coprocs new - coprocs (k.cluster.hw h) ↔ EvenExt M h x insert v me k) := by
  unfold hwconfigExt at hk'
  dsimp only at hk'
  rw [hsched, hhthread] at hk'
  split at hk'
  · next hon =>
    obtain ⟨⟨e, k₁⟩, hdosched, ⟨⟩⟩ := Option.map_eq_some_iff.mp hk'
    have hsame := turnOn_sameCoprocs x insert v me k
    obtain ⟨new, ht, hidle⟩ :=
      dosched_turns (hsame.sched.trans hsched) (hsame.heads hheads) hdosched
    refine ⟨new, _, hsame.then ht, hidle, ?_⟩
    rw [sub_right_inj]
    refine ⟨fun heq => ⟨fun _ _ => heq.trans (by rw [hsame.hw]), fun h0 => absurd h0 hon.2.1⟩,
      fun heven => (heven.1 hon.2.1 hon.2.2).trans (by rw [hsame.hw])⟩
  split at hk'
  · next hoff =>
    obtain ⟨rfl, -⟩ := Prod.mk.inj (Option.some.inj hk')
    have hcur : x.set true (k.cluster.ctx me) = k.cluster.ctx me := Ext.set_get hoff.2.2
    refine ⟨k.cluster.hw h, _, ⟨rfl, rfl, rfl, rfl, (update_eq_self ..).symm,
      fun _ _ => rfl, id⟩, fun hnone => ?_, ?_⟩
    · rw [hme] at hnone
      simp at hnone
    · rw [hcur, sub_self, sub_eq_zero, EvenExt]
      exact ⟨fun heq => ⟨fun h0 => absurd hoff.2.1 h0, fun _ _ => heq⟩,
        fun heven => heven.2 hoff.2.1 hoff.2.2⟩
  · next hon hoff =>
    obtain ⟨rfl, -⟩ := Prod.mk.inj (Option.some.inj hk')
    refine ⟨_, _, (SameCoprocs.refl k).turns h, fun hnone => ?_, ?_⟩
    · rw [hme] at hnone
      simp at hnone
    · refine iff_of_true (sub_self _).symm ⟨fun h0 hget => ?_, fun h0 hget => ?_⟩
      · exact absurd ⟨rfl, h0, hget⟩ hon
      · exact absurd ⟨rfl, h0, hget⟩ hoff

/-- **What a step does**: the hardware thread turns to something, and the difference is counted
exactly where the step is even. -/
theorem CoprocStep.turns (hs : s.Sound) (hstep : CoprocStep M E h a s s') :
    ∃ new d, Turns h new d s.kernel s'.kernel ∧
      (s'.kernel.hw.sgp h = none → new = Enables.off) ∧
      (d = coprocs new - coprocs (s.kernel.cluster.hw h) ↔ Even M E h s a) := by
  cases hstep with
  | other hk' =>
    refine ⟨_, _, hk'.turns h, fun hnone => hs.idle h ?_, iff_of_true (sub_self _).symm trivial⟩
    rw [← hk'.sgp]
    exact hnone
  | dosched hfree hk' =>
    obtain ⟨new, ht, hidle⟩ := dosched_turns hs.sched hs.heads hk'
    exact ⟨new, _, ht, hidle, sub_right_inj⟩
  | @popupInt _ k' e intnum woken hfree hk' =>
    have hsame : SameCoprocs s.kernel
        { s.kernel with sched := s.kernel.sched.writeHandler intnum .null } := by
      refine .of_eq rfl rfl fun hs => ?_
      unfold Sched.writeHandler
      split <;> exact hs.congr rfl fun _ => rfl
    obtain ⟨new, ht, hidle⟩ :=
      takeOver_turns (hsame.sched.trans hs.sched) (hsame.heads hs.heads) hk'
    exact ⟨new, _, hsame.then ht, hidle, sub_right_inj⟩
  | @intpoolInt _ k' e intnum b hfree hk' =>
    unfold Kernel.intpoolInt at hk'
    rcases hhead : s.kernel.sched.rings.head (.intpool b) with - | woken
    · rw [hhead] at hk'
      cases hk'
      have hsame : ∀ ints, SameCoprocs s.kernel { s.kernel with ints := ints } :=
        fun _ => .of_eq rfl rfl id
      refine ⟨_, _, (hsame _).turns h, hs.idle h, iff_of_true (sub_self _).symm fun woken hw => ?_⟩
      rw [hhead] at hw
      simp at hw
    · rw [hhead] at hk'
      have hsame : SameCoprocs s.kernel { s.kernel with
          sched := { s.kernel.sched with
            rings := s.kernel.sched.rings.remove (.intpool b) woken }.setR00 woken intnum } :=
        .of_eq rfl rfl fun hs => hs.congr rfl fun _ => Rings.head_remove_of_ne (by simp) ..
      obtain ⟨new, ht, hidle⟩ :=
        takeOver_turns (hsame.sched.trans hs.sched) (hsame.heads hs.heads) hk'
      refine ⟨new, _, hsame.then ht, hidle, sub_right_inj.trans
        ⟨fun heq woken' hw => ?_, fun h => ?_⟩⟩
      · obtain rfl : woken = woken' := Option.some.inj (hhead.symm.trans hw)
        exact heq
      · exact h woken hhead
  | @call _ k' ret c me hfree hme hhthread hk' =>
    have hsame := saveExt_sameCoprocs me h s.kernel
    rw [trapExt_eq] at hk'
    rcases hasks : c.asks M E me with - | ⟨x, insert, v⟩
    · rw [hasks] at hk'
      obtain ⟨rfl, -⟩ := Prod.mk.inj (Option.some.inj hk')
      refine ⟨_, _, hsame.turns h, hs.idle h, iff_of_true (sub_self _).symm ?_⟩
      intro me' x insert v hme' hasks'
      obtain rfl : me = me' := Option.some.inj (hme.symm.trans hme')
      rw [hasks] at hasks'
      simp at hasks'
    · rw [hasks] at hk'
      obtain ⟨new, d, ht, hidle, heven⟩ := hwconfigExt_turns (hsame.sched.trans hs.sched)
        (hsame.heads hs.heads) hme hhthread hk'
      refine ⟨new, d, hsame.then ht, hidle, heven.trans ⟨fun h me' x' i' v' hme' hasks' => ?_,
        fun h => h me x insert v hme hasks⟩⟩
      obtain rfl : me = me' := Option.some.inj (hme.symm.trans hme')
      obtain ⟨rfl, rfl, rfl⟩ : x = x' ∧ insert = i' ∧ v = v' := by
        simpa using hasks.symm.trans hasks'
      exact h
  | @finish _ bits me hbits hme =>
    refine ⟨bits, 0, ⟨rfl, rfl, rfl, ?_, rfl, fun _ _ => rfl, id⟩, fun hnone => ?_, ?_⟩
    · rw [add_zero, update_eq_self]
      rfl
    · have hsome : s.kernel.hw.sgp h = none := hnone
      rw [hme] at hsome
      simp at hsome
    · rw [eq_comm, sub_eq_zero]
      refine ⟨fun heq bits' hbits' => ?_, fun h => h bits hbits⟩
      obtain rfl : bits = bits' := Option.some.inj (hbits.symm.trans hbits')
      exact heq

/-- Every step keeps the state sound … -/
theorem CoprocStep.sound (hs : s.Sound) (hstep : CoprocStep M E h a s s') : s'.Sound := by
  obtain ⟨new, d, ht, hidle, -⟩ := hstep.turns hs
  refine ⟨ht.sched.trans hs.sched, ht.heads hs.heads, fun h' hnone => ?_⟩
  rw [ht.hw]
  by_cases hh : h' = h
  · rw [hh, update_self]
    exact hidle (hh ▸ hnone)
  · rw [update_of_ne hh]
    exact hs.idle h' ((ht.sgp h' hh).symm.trans hnone)

/-- … **and an even one, and no other, keeps the count right.** -/
theorem CoprocStep.accounted_iff (hs : s.Sound) (hk : Accounted s.kernel) (hh : h < 32)
    (hstep : CoprocStep M E h a s s') : Accounted s'.kernel ↔ Even M E h s a := by
  obtain ⟨new, d, ht, -, heven⟩ := hstep.turns hs
  rw [accounted_iff_balanced (hstep.sound hs).idle, ← heven]
  exact ht.balanced_iff hh ((accounted_iff_balanced hs.idle).mp hk)

/-! ## From boot -/

/-- Cluster scheduling as it is before the first thread: on, and nothing in use. -/
structure Cluster.Fresh (c : Cluster ι) : Prop where
  sched : c.sched = true
  count : ∀ i, c.coprocCount i = 0
  hw : ∀ h, c.hw h = Enables.off
  ctx : ∀ t, c.ctx t = Enables.off

/-- A switch to a thread that is not killed, with nothing in use. -/
theorem switch_accounted {new : ι} {e : Exit} (hfresh : k.cluster.Fresh)
    (hheads : k.sched.ReadyHeads) (hkill : ∀ t, k.threads.kill t = false)
    (hk' : k.switch M new 0 = some (e, k')) :
    CoprocState.Sound ⟨k', fun _ => none⟩ ∧ Accounted k' := by
  obtain ⟨last, ht, hidle⟩ := switch_turns hfresh.sched hheads hk'
  have hidle' : Idle k' := by
    intro h hnone
    rw [ht.hw]
    by_cases hh : h = 0
    · rw [hh]
      exact hidle (hh ▸ hnone)
    · rw [update_of_ne hh, hfresh.hw]
  refine ⟨⟨ht.sched.trans hfresh.sched, ht.heads hheads, hidle'⟩, ?_⟩
  have hbalanced : Balanced k := by
    intro c
    rw [hfresh.count]
    exact (Finset.sum_eq_zero fun h _ => by rw [hfresh.hw]; rfl).symm
  rw [accounted_iff_balanced hidle', ht.balanced_iff (by decide) hbalanced]
  have hbase : k.switchBase M new 0 = k.cluster.ctx new := if_neg (Bool.eq_false_iff.mp (hkill new))
  rw [hbase, hfresh.ctx, hfresh.hw]

theorem boot_accounted {timerIntnum : ℕ} {mask : BitVec 32} {cluster : Cluster ι} {bootvm : β}
    {e : Exit} (hfresh : cluster.Fresh)
    (hboot : boot M timerIntnum mask cluster bootvm = some (e, k)) :
    CoprocState.Sound ⟨k, fun _ => none⟩ ∧ Accounted k := by
  unfold boot threadBoot at hboot
  split at hboot
  · simp at hboot
  · refine switch_accounted hfresh ?_ (fun _ => rfl) hboot
    intro p hp
    have hvalids : Sched.validBit (fun _ => 0) p = true := hp
    simp [Sched.validBit] at hvalids

/-- **The count along a run.** From boot with cluster scheduling on, the count of each cluster is
what its running threads hold in every state of a run in which the lock is free, exactly where every
step of the run is even. -/
theorem coproc_accounting {timerIntnum : ℕ} {mask : BitVec 32} {cluster : Cluster ι} {bootvm : β}
    {e : Exit} {k₀ : Kernel ι β} (hfresh : cluster.Fresh)
    (hboot : boot M timerIntnum mask cluster bootvm = some (e, k₀))
    {σ : ℕ → CoprocState ι β} {α : ℕ → Fin 32 × CoprocAct ι β} {N : ℕ}
    (hstart : σ 0 = ⟨k₀, fun _ => none⟩)
    (hrun : ∀ n < N, CoprocStep M E (α n).1 (α n).2 (σ n) (σ (n + 1))) :
    (∀ n ≤ N, Accounted (σ n).kernel) ↔ ∀ n < N, Even M E (α n).1 (σ n) (α n).2 := by
  obtain ⟨hsound₀, hacc₀⟩ := boot_accounted hfresh hboot
  have hsound : ∀ n ≤ N, (σ n).Sound := by
    intro n
    induction n with
    | zero => exact fun _ => hstart ▸ hsound₀
    | succ n ih => exact fun hn => (hrun n hn).sound (ih (by omega))
  constructor
  · intro hacc n hn
    exact ((hrun n hn).accounted_iff (hsound n hn.le) (hacc n hn.le) (α n).1.isLt).mp (hacc _ hn)
  · intro heven n
    induction n with
    | zero => exact fun _ => hstart ▸ hacc₀
    | succ n ih =>
      intro hn
      exact ((hrun n hn).accounted_iff (hsound n (by omega)) (ih (by omega)) (α n).1.isLt).mpr
        (heven n hn)

end Steps

/-! ## HVX on and off

One cluster of two hardware threads, with room for three coprocessors.  The boot thread makes a
second thread, hardware thread 1 takes it up, and it turns HVX on.  Then it turns HVX off again; or
it waits for interrupt 40, is woken up by it, and turns HVX off. -/

/-- One cluster of two hardware threads. -/
def oneCluster : Cluster (Fin 2) where
  sched := true
  clusters := 1
  hthreads := 2
  mask _ := 3
  coprocMax := 3
  coprocCount _ := 0
  hw _ := Enables.off
  ctx _ := Enables.off
  steer := -1
  raised := false

theorem oneCluster_fresh : oneCluster.Fresh := ⟨rfl, fun _ => rfl, fun _ => rfl, fun _ => rfl⟩

/-- Four HVX contexts, one HMX and one HLX unit, none of which the kernel manages. -/
def unmanaged : ExtConfig Unit := ⟨4, 1, 1, fun _ => false⟩

/-- Two threads run. -/
def twoRun : Option (Kernel (Fin 2) Unit) :=
  (boot (oneVm 1) 34 3#32 oneCluster ()).bind fun p => p.2.run (oneVm 1)
    [(1, .start), (0, .trap (.create 0 0 0 5 true)), (1, .takeInt 1), (1, .handleInt [])]

open scoped Numerals

/-- The second one turns HVX on. -/
def hvxOn : Option (Kernel (Fin 2) Unit) :=
  twoRun.bind fun k =>
    ((k.saveExt 0 1).trapExt (oneVm 1) unmanaged (.extbits 0 1) (0 : Fin 2)).map (·.1)

/-- It turns HVX off, and has released the lock. -/
def hvxReleased : Option (Kernel (Fin 2) Unit) :=
  hvxOn.bind fun k =>
    ((k.saveExt 0 1).trapExt (oneVm 1) unmanaged (.extbits 0 0) (0 : Fin 2)).map (·.1)

/-- It waits, and is woken up. -/
def wokenUp : Option (Kernel (Fin 2) Unit) :=
  hvxOn.bind fun k => k.run (oneVm 1)
    [(1, .trap (.popupWait 40)), (1, .takeInt 40), (1, .handleInt [])]

/-- And turns HVX off. -/
def hvxOff : Option (Kernel (Fin 2) Unit) :=
  wokenUp.bind fun k =>
    ((k.saveExt 0 1).trapExt (oneVm 1) unmanaged (.extbits 0 0) (0 : Fin 2)).map (·.1)

/-- The boot thread turns HVX on: counted, in a run of one step. -/
theorem coproc_accounting_hvxOn : ∃ e k₀ k,
    boot (oneVm 1) 34 3#32 oneCluster () = some (e, k₀) ∧
      (k₀.saveExt 1 0).trapExt (oneVm 1) unmanaged (.extbits 0 1) 1 = some (k, none) ∧
      Accounted k ∧ k.cluster.coprocCount 0 = 1 := by
  have hrun : ∃ p ∈ boot (oneVm 1) 34 3#32 oneCluster (),
      ∃ q ∈ (p.2.saveExt 1 0).trapExt (oneVm 1) unmanaged (.extbits 0 1) 1,
        p.2.hw.sgp 0 = some 1 ∧ p.2.sched.hthread 1 = 0 ∧ p.2.cluster.coprocMax ≠ -1 ∧
          q.2 = none ∧ q.1.cluster.coprocCount 0 = 1 := by decide +kernel
  obtain ⟨⟨e, k₀⟩, hboot, ⟨k, _⟩, hcall, hme, hhthread, hmax, rfl, hcount⟩ := hrun
  let σ : ℕ → CoprocState (Fin 2) Unit := fun n =>
    if n = 0 then ⟨k₀, fun _ => none⟩ else ⟨k, update (fun _ => none) 0 none⟩
  have haccounted := (coproc_accounting (E := unmanaged) oneCluster_fresh hboot
    (σ := σ) (α := fun _ => (0, .call (.extbits 0 1))) rfl ?_).mpr ?_ 1 le_rfl
  · exact ⟨e, k₀, k, hboot, hcall, haccounted, hcount⟩
  · intro n hn
    obtain rfl : n = 0 := by omega
    exact .call rfl hme hhthread hcall
  · intro n hn
    obtain rfl : n = 0 := by omega
    intro me x insert v _ hasks
    obtain ⟨-, -, rfl⟩ : _ ∧ _ ∧ (1 : BitVec 32) = v := by simpa [ExtCall.asks] using hasks
    refine ⟨fun _ _ => evenDosched_of_limit _ hmax, fun hzero => absurd hzero (by decide)⟩

theorem not_accounted {k : Kernel ι β} {h : ℕ} (hh : h < 32)
    (hcount : k.cluster.coprocCount (h / k.cluster.hthreads) = 0)
    (hholds : coprocs (k.holds h) ≠ 0) : ¬ Accounted k := by
  intro hk
  have hsum := hk (h / k.cluster.hthreads)
  rw [hcount] at hsum
  have hmem : h ∈ clusterThreads k.cluster.hthreads (h / k.cluster.hthreads) := by
    simp [clusterThreads, hh]
  have hzero := (Finset.sum_eq_zero_iff.mp hsum.symm) h hmem
  exact hholds (BitVec.eq_of_toNat_eq hzero)

/-- The boot thread turns HVX on where there is no limit. -/
def hvxNoLimit : Option (Kernel (Fin 2) Unit) :=
  (boot (oneVm 1) 34 3#32 { oneCluster with coprocMax := -1 } ()).bind fun p =>
    ((p.2.saveExt (1 : Fin 2) 0).trapExt (oneVm 1) unmanaged (.extbits 0 1) (1 : Fin 2)).map (·.1)

/-- A run that ends with something held and nothing counted. -/
theorem exists_not_accounted {h : Fin 32} {o : Option (Kernel ι β)}
    (ho : ∃ k ∈ o, k.cluster.coprocCount (h / k.cluster.hthreads) = 0 ∧ coprocs (k.holds h) ≠ 0) :
    ∃ k, o = some k ∧ ¬ Accounted k := by
  obtain ⟨k, hk, hcount, hholds⟩ := ho
  exact ⟨k, hk, not_accounted h.isLt hcount hholds⟩

/-- **What is not counted**: a thread that a popup wakes up with HVX, and when it turns HVX off the
count wraps; HVX between the release of the lock and the end of the call; HVX where there is no
limit. -/
theorem coprocs_uncounted : (∃ k, wokenUp = some k ∧ ¬ Accounted k) ∧
      (∃ k, hvxOff = some k ∧ k.cluster.coprocCount 0 = 0xffffffff) ∧
      (∃ k, hvxReleased = some k ∧ ¬ Accounted k) ∧
      ∃ k, hvxNoLimit = some k ∧ ¬ Accounted k := by
  have hwraps : ∃ k ∈ hvxOff, k.cluster.coprocCount 0 = 0xffffffff := by decide +kernel
  refine ⟨exists_not_accounted (h := 1) (by decide +kernel), hwraps,
    exists_not_accounted (h := 1) (by decide +kernel),
    exists_not_accounted (h := 0) (by decide +kernel)⟩

end H2
