import Mathlib.Tactic.Ring

/-!
# Hexagon/Packet — instruction packets, executed in parallel

A packet is a list of instructions that all read the state *before* the packet and commit
together; only a guard written `.new` sees a predicate produced in the same packet.  The subset
here is what straight-line 64-bit arithmetic needs: immediates, the widening multiplies, shifts,
compares, predicated moves, and loads and stores of named cells.
-/

namespace H2.Hexagon

open Function

/-- A general register, `r0` to `r31`.  A pair `r2k+1:2k` is named by its even register. -/
abbrev Reg := Fin 32

/-- The contents of a register. -/
abbrev Word := BitVec 32

/-- The contents of a register pair. -/
abbrev Dword := BitVec 64

/-- The state of one hardware thread: general registers, predicates, system registers, and the
memory cells the code names. -/
structure Cpu (A : Type) where
  r : Reg → Word
  p : Fin 4 → Bool
  sys : Fin 64 → Word
  mem : A → Dword

/-- What guards an instruction: nothing, a predicate of the state before the packet, or one the
packet itself produces. -/
inductive Guard where
  | always
  | ifTrue (p : Fin 4)
  | ifFalse (p : Fin 4)
  | ifNew (p : Fin 4)
  | ifNotNew (p : Fin 4)

/-- The instructions; `d` is the destination and pairs are named by their even register. -/
inductive Op (A : Type) where
  /-- `Rd = #imm`. -/
  | imm (d : Reg) (i : Word)
  /-- `Rdd = #imm`, the immediate already sign-extended. -/
  | immPair (d : Reg) (i : Dword)
  /-- `Rdd = combine(#hi,#lo)`. -/
  | combine (d : Reg) (hi lo : Word)
  /-- `Rdd = Rss`. -/
  | movePair (d s : Reg)
  /-- `Rd = Ss`. -/
  | sysReg (d : Reg) (s : Fin 64)
  /-- `Rdd = Sss`. -/
  | sysPair (d : Reg) (s : Fin 64)
  /-- `Rd = mpyu(Rs,Rt)`: the upper word of the unsigned product. -/
  | mpyuHigh (d s t : Reg)
  /-- `Rdd = mpyu(Rs,Rt)`: the whole unsigned product. -/
  | mpyu (d s t : Reg)
  /-- `Rxx += mpyu(Rs,Rt)`. -/
  | mpyuAcc (d s t : Reg)
  /-- `Rdd = lsr(Rss,#n)`. -/
  | lsr (d s : Reg) (n : ℕ)
  /-- `Rxx += lsr(Rss,#n)`. -/
  | lsrAcc (d s : Reg) (n : ℕ)
  /-- `Rd = and(Rs,#imm)`. -/
  | andImm (d s : Reg) (i : Word)
  /-- `Rd = add(Rs,#imm)`. -/
  | addImm (d s : Reg) (i : Word)
  /-- `Rdd = add(Rss,Rtt)`. -/
  | addPair (d s t : Reg)
  /-- `Rdd = max(Rss,Rtt)`, signed. -/
  | maxPair (d s t : Reg)
  /-- `Rd = memw(a)`. -/
  | loadWord (d : Reg) (a : A)
  /-- `Rdd = memd(a)`. -/
  | loadPair (d : Reg) (a : A)
  /-- `memd(a) = Rss`. -/
  | storePair (a : A) (s : Reg)
  /-- `Pd = cmp.ltu(Rs,Rt)`. -/
  | cmpLtu (d : Fin 4) (s t : Reg)
  /-- `Pd = cmp.eq(Rs,Rt)`. -/
  | cmpEq (d : Fin 4) (s t : Reg)
  /-- `Pd = cmp.eq(Rss,Rtt)`. -/
  | cmpEqPair (d : Fin 4) (s t : Reg)
  /-- `Pd = cmp.gtu(Rss,Rtt)`. -/
  | cmpGtuPair (d : Fin 4) (s t : Reg)

structure Instr (A : Type) where
  guard : Guard
  op : Op A

/-- The instructions issued together. -/
abbrev Packet (A : Type) := List (Instr A)

variable {A : Type}

/-- An unguarded instruction. -/
abbrev Op.always (o : Op A) : Instr A := ⟨.always, o⟩

def upper (x : Dword) : Word := x.extractLsb' 32 32

def lower (x : Dword) : Word := x.extractLsb' 0 32

/-- A pair from its two words. -/
def join (hi lo : Word) : Dword := hi ++ lo

theorem toNat_upper (x : Dword) : (upper x).toNat = x.toNat / 2 ^ 32 := by
  simp only [upper, BitVec.extractLsb'_toNat]
  omega

theorem toNat_lower (x : Dword) : (lower x).toNat = x.toNat % 2 ^ 32 := by
  simp [lower]

theorem toNat_join (hi lo : Word) : (join hi lo).toNat = hi.toNat * 2 ^ 32 + lo.toNat := by
  have h : (join hi lo).toNat = hi.toNat <<< 32 ||| lo.toNat := BitVec.toNat_append hi lo
  rw [h, ← Nat.shiftLeft_add_eq_or_of_lt lo.isLt, Nat.shiftLeft_eq]

@[simp] theorem upper_join (hi lo : Word) : upper (join hi lo) = hi := by
  apply BitVec.eq_of_toNat_eq
  rw [toNat_upper, toNat_join]
  omega

@[simp] theorem lower_join (hi lo : Word) : lower (join hi lo) = lo := by
  apply BitVec.eq_of_toNat_eq
  rw [toNat_lower, toNat_join]
  omega

@[simp] theorem join_upper_lower (x : Dword) : join (upper x) (lower x) = x := by
  apply BitVec.eq_of_toNat_eq
  rw [toNat_join, toNat_upper, toNat_lower]
  omega

/-- `bitsclr(Rs,Rt)`. -/
def bitsclr (x mask : Word) : Bool := x &&& mask = 0

/-- `bitsset(Rs,Rt)`. -/
def bitsset (x mask : Word) : Bool := x &&& mask = mask

/-- `Rd = setbit(Rs,Rt)`. -/
def setbit (w : Word) (bitno : ℕ) : Word := w ||| 1#32 <<< bitno

/-- `Rd = clrbit(Rs,Rt)`. -/
def clrbit (w : Word) (bitno : ℕ) : Word := w &&& ~~~(1#32 <<< bitno)

theorem getLsbD_bit {n i : ℕ} (hi : i < 32) : (1#32 <<< n).getLsbD i = decide (i = n) := by
  rw [BitVec.getLsbD_shiftLeft, BitVec.getLsbD_one, Bool.eq_iff_iff]
  simp only [Bool.and_eq_true, Bool.not_eq_true', decide_eq_false_iff_not, decide_eq_true_eq]
  omega

theorem getLsbD_join (hi lo : Word) (i : ℕ) :
    (join hi lo).getLsbD i = if i < 32 then lo.getLsbD i else hi.getLsbD (i - 32) :=
  BitVec.getLsbD_append ..

theorem getLsbD_lower (x : Dword) {i : ℕ} (hi : i < 32) : (lower x).getLsbD i = x.getLsbD i := by
  simp [lower, hi]

theorem getLsbD_upper (x : Dword) {i : ℕ} (hi : i < 32) :
    (upper x).getLsbD i = x.getLsbD (32 + i) := by
  simp [upper, hi]

/-- The unsigned product of two words, as a pair. -/
def wideMul (x y : Word) : Dword := x.zeroExtend 64 * y.zeroExtend 64

/-- A widening multiply never wraps. -/
theorem toNat_wideMul (x y : Word) : (wideMul x y).toNat = x.toNat * y.toNat := by
  have h : x.toNat * y.toNat < 2 ^ 32 * 2 ^ 32 := Nat.mul_lt_mul'' x.isLt y.isLt
  have hx : x.toNat % 2 ^ 64 = x.toNat := by omega
  have hy : y.toNat % 2 ^ 64 = y.toNat := by omega
  simp only [wideMul, BitVec.toNat_mul, BitVec.toNat_setWidth, hx, hy]
  omega

namespace Cpu

/-- The pair whose even register is `d`. -/
def pair (c : Cpu A) (d : Reg) : Dword := join (c.r (d + 1)) (c.r d)

def setReg (c : Cpu A) (d : Reg) (v : Word) : Cpu A := { c with r := update c.r d v }

def setPair (c : Cpu A) (d : Reg) (v : Dword) : Cpu A :=
  (c.setReg d (lower v)).setReg (d + 1) (upper v)

def setPreds (c : Cpu A) (p : Fin 4 → Bool) : Cpu A := { c with p := p }

section Writes

variable (c : Cpu A) (d x : Reg) (w : Word) (v : Dword) (p : Fin 4 → Bool)

@[simp] theorem r_setReg : (c.setReg d w).r x = if x = d then w else c.r x :=
  update_apply ..

@[simp] theorem r_setPair :
    (c.setPair d v).r x = if x = d + 1 then upper v else if x = d then lower v else c.r x := by
  simp [setPair]

theorem reg_ne_succ : d ≠ d + 1 := by
  revert d
  decide

theorem reg_succ_inj : x + 1 = d + 1 ↔ x = d := by
  rw [Fin.ext_iff, Fin.ext_iff, Fin.val_add]
  omega

@[simp] theorem pair_setPair_self : (c.setPair d v).pair d = v := by
  rw [pair, r_setPair, r_setPair, if_pos rfl, if_neg (reg_ne_succ d), if_pos rfl, join_upper_lower]

@[simp] theorem pair_setPair_of_ne (h : x ≠ d) (hl : x ≠ d + 1) (hr : x + 1 ≠ d) :
    (c.setPair d v).pair x = c.pair x := by
  have hs : x + 1 ≠ d + 1 := fun e => h ((reg_succ_inj d x).mp e)
  rw [pair, r_setPair, r_setPair, if_neg hs, if_neg hr, if_neg hl, if_neg h, pair]

@[simp] theorem pair_setReg_of_ne (h : x ≠ d) (hr : x + 1 ≠ d) :
    (c.setReg d w).pair x = c.pair x := by
  simp [pair, h, hr]

@[simp] theorem pair_setReg_self : (c.setReg d w).pair d = join (c.r (d + 1)) w := by
  rw [pair, r_setReg, r_setReg, if_neg (reg_ne_succ d).symm, if_pos rfl]

@[simp] theorem r_setPreds : (c.setPreds p).r = c.r := rfl

@[simp] theorem pair_setPreds : (c.setPreds p).pair x = c.pair x := rfl

@[simp] theorem p_setPreds : (c.setPreds p).p = p := rfl

@[simp] theorem sys_setPreds : (c.setPreds p).sys = c.sys := rfl

@[simp] theorem mem_setPreds : (c.setPreds p).mem = c.mem := rfl

@[simp] theorem p_setReg : (c.setReg d w).p = c.p := rfl

@[simp] theorem p_setPair : (c.setPair d v).p = c.p := rfl

@[simp] theorem sys_setReg : (c.setReg d w).sys = c.sys := rfl

@[simp] theorem sys_setPair : (c.setPair d v).sys = c.sys := rfl

@[simp] theorem mem_setReg : (c.setReg d w).mem = c.mem := rfl

@[simp] theorem mem_setPair : (c.setPair d v).mem = c.mem := rfl

variable [DecidableEq A] (a b : A)

def setMem : Cpu A := { c with mem := update c.mem a v }

@[simp] theorem pair_setMem : (c.setMem v a).pair x = c.pair x := rfl

@[simp] theorem r_setMem : (c.setMem v a).r = c.r := rfl

@[simp] theorem p_setMem : (c.setMem v a).p = c.p := rfl

@[simp] theorem sys_setMem : (c.setMem v a).sys = c.sys := rfl

@[simp] theorem mem_setMem : (c.setMem v a).mem b = if b = a then v else c.mem b :=
  update_apply ..

end Writes

end Cpu

variable [DecidableEq A]

/-- The predicates after a compare, computed from the state before the packet. -/
@[simp] def Op.compare (old : Cpu A) (p : Fin 4 → Bool) : Op A → Fin 4 → Bool
  | .cmpLtu d s t => update p d (decide (old.r s < old.r t))
  | .cmpEq d s t => update p d (decide (old.r s = old.r t))
  | .cmpEqPair d s t => update p d (decide (old.pair s = old.pair t))
  | .cmpGtuPair d s t => update p d (decide (old.pair t < old.pair s))
  | _ => p

/-- What an instruction commits to `c`, computed from the state `old` before the packet. -/
@[simp] def Op.write (old c : Cpu A) : Op A → Cpu A
  | .imm d i => c.setReg d i
  | .immPair d i => c.setPair d i
  | .combine d hi lo => c.setPair d (join hi lo)
  | .movePair d s => c.setPair d (old.pair s)
  | .sysReg d s => c.setReg d (old.sys s)
  | .sysPair d s => c.setPair d (join (old.sys (s + 1)) (old.sys s))
  | .mpyuHigh d s t => c.setReg d (upper (wideMul (old.r s) (old.r t)))
  | .mpyu d s t => c.setPair d (wideMul (old.r s) (old.r t))
  | .mpyuAcc d s t =>
      c.setPair d (old.pair d + wideMul (old.r s) (old.r t))
  | .lsr d s n => c.setPair d (old.pair s >>> n)
  | .lsrAcc d s n => c.setPair d (old.pair d + old.pair s >>> n)
  | .andImm d s i => c.setReg d (old.r s &&& i)
  | .addImm d s i => c.setReg d (old.r s + i)
  | .addPair d s t => c.setPair d (old.pair s + old.pair t)
  | .maxPair d s t =>
      c.setPair d (if (old.pair s).slt (old.pair t) then old.pair t else old.pair s)
  | .loadWord d a => c.setReg d (lower (old.mem a))
  | .loadPair d a => c.setPair d (old.mem a)
  | .storePair a s => c.setMem (old.pair s) a
  | .cmpLtu .. | .cmpEq .. | .cmpEqPair .. | .cmpGtuPair .. => c

/-- Whether a guard lets its instruction commit: `p` before the packet, `np` after its compares. -/
@[simp] def Guard.holds (p np : Fin 4 → Bool) : Guard → Bool
  | .always => true
  | .ifTrue i => p i
  | .ifFalse i => !p i
  | .ifNew i => np i
  | .ifNotNew i => !np i

/-- The predicates a packet leaves. -/
def Packet.preds (pkt : Packet A) (old : Cpu A) : Fin 4 → Bool :=
  pkt.foldl (fun p i => i.op.compare old p) old.p

def Packet.exec (pkt : Packet A) (old : Cpu A) : Cpu A :=
  pkt.foldl (fun c i => if i.guard.holds old.p (pkt.preds old) then i.op.write old c else c)
    (old.setPreds (pkt.preds old))

def execAll (prog : List (Packet A)) (c : Cpu A) : Cpu A := prog.foldl (fun c pkt => pkt.exec c) c

/-! ## Assertions between packets

A program is reasoned about one packet at a time: an assertion on the state holds before it, the
next one after it.  Nothing else about the intermediate states is ever named. -/

/-- From every state satisfying `P`, the program ends in a state satisfying `Q`. -/
def Triple (P : Cpu A → Prop) (prog : List (Packet A)) (Q : Cpu A → Prop) : Prop :=
  ∀ c, P c → Q (execAll prog c)

/-- The empty program needs only that the assertion weakens. -/
theorem Triple.nil {P Q : Cpu A → Prop} (h : ∀ c, P c → Q c) : Triple P [] Q := h

/-- One packet, then the rest. -/
theorem Triple.cons {P R Q : Cpu A → Prop} {pkt : Packet A} {rest : List (Packet A)}
    (h : ∀ c, P c → R (pkt.exec c)) (hr : Triple R rest Q) : Triple P (pkt :: rest) Q :=
  fun c hc => hr _ (h c hc)

end H2.Hexagon
