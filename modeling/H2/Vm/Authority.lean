import H2.Kernel.VmTable
import H2.Traps.VmblockInit

/-!
# Vm/Authority — what a guest can do to other guests

A guest may operate on interrupts, boot, query, free and kill VMs, and set up new ones.  Each call
names a VM, through an id, a slot or not at all, and each has its own test of who may.  What they
have in common: at most one VM is changed, and it is the caller's own, one that the caller's VM
made, a new one or — by a post — the one that made the caller's (`call_confined`).  The calls rely
on little (`Guests.Ready`), and along every run whoever runs can (`ready_of_leads`).

That is not to say that nothing of the others changes.  A thread that is made ready joins a queue,
and the links of its neighbours are theirs (`authority_links`).
-/

namespace H2

open Kernel Option

open H2.System (install step)

open Spaces (adopt boot follow)

variable {ι β : Type} [dι : DecidableEq ι] [dβ : DecidableEq β] [fι : Fintype ι] {M : Machine ι β}

/-- A call with the registers of the guest, and what the allocator answers. -/
inductive GuestCall (β : Type) where
  | intop (r00 r01 r02 : BitVec 32)
  | vmop (op val1 val2 val3 val4 val5 : BitVec 32)
  | vmblockInit (vm op arg1 arg2 : BitVec 32) (answer : Option β)

/-- An operation on interrupts. -/
def GuestCall.IsIntop : GuestCall β → Prop
  | .intop .. => True
  | _ => False

/-- `H2K_vmop_status`. -/
def Kernel.vmopStatus (M : Machine ι β) (op vm : ℕ) (me : ι) (k : Kernel ι β) : ℤ :=
  if h2kIdMaxVms ≤ vm then -1
  else
    match (if vm = 0 then some (M.vmblock me) else M.vmblocks vm) with
    | none => -1
    | some b =>
      if M.mayOperate me b then
        match op with
        | 0 => k.vms.status b
        | 1 => k.vms.numCpus b
        | _ => -1
      else -1

namespace Guests

/-- `H2K_vmop`. -/
def vmop (op val1 val2 val3 val4 val5 : BitVec 32) (me : ι) (x : Guests ι β) :
    Option (Exit × Guests ι β) :=
  match op.toNat with
  | 0 => (x.spaces.vmopBoot val1.toNat val2.toNat val3.toNat val4.toNat val5.toNat me).map fun p =>
      (p.1, { x with spaces := p.2 })
  | 1 => some (.returned (x.kernel.vmopStatus x.machine val1.toNat val2.toNat me), x)
  | 2 => (x.spaces.system.vmopFree val1.toNat me).map fun p =>
      (p.1, { x with spaces := { x.spaces with system := p.2 } })
  | 3 => (x.kernel.vmopKillThread x.machine val1.toNat me).map fun p => (p.1, x.withKernel p.2)
  | 4 => (x.kernel.vmopKillVm x.machine val1.toNat val2.toInt me).map fun p =>
    (p.1, x.withKernel p.2)
  | _ => some (.returned (-1), x)

def call (me : ι) (c : GuestCall β) (x : Guests ι β) : Option (Exit × Guests ι β) :=
  match c with
  | .intop r00 r01 r02 =>
    let p := x.kernel.vmtrapIntop x.machine r00 r01 r02 me
    some (.returned p.1, x.withKernel p.2)
  | .vmop op val1 val2 val3 val4 val5 => x.vmop op val1 val2 val3 val4 val5 me
  | .vmblockInit vm op arg1 arg2 answer => x.trapConfigVmblockInit vm op arg1 arg2 answer me

end Guests

/-- The fields of a VM block. -/
@[ext] structure VmblockFields (ι : Type) where
  state : VmblockView ι
  vmidx : ℕ
  parent : ℕ × ℕ
  maxCpus : ℕ
  bestprio : ℕ
  numInts : ℕ
  config : VmConfig

namespace Guests

omit dι dβ fι

def vmblockFields (x : Guests ι β) (b : β) : VmblockFields ι where
  state := x.kernel.vmblockView b
  vmidx := x.machine.vmidx b
  parent := x.machine.parent b
  maxCpus := x.machine.maxCpus b
  bestprio := x.machine.bestprio b
  numInts := x.machine.numInts b
  config := x.config b

def contextFields (x : Guests ι β) (t : ι) : ContextView × BitVec 7 :=
  (x.kernel.contextView t, x.spaces.asids.ssrAsid t)

/-- A VM is left as it is: in its slot, with all fields of its block and its contexts. -/
structure Keeps (b : β) (x x' : Guests ι β) : Prop where
  slot : ∀ i, x.machine.vmblocks i = some b → x'.machine.vmblocks i = some b
  vmblock : x'.vmblockFields b = x.vmblockFields b
  context : ∀ t, x.machine.vmblock t = b → x'.contextFields t = x.contextFields t

theorem Keeps.refl (b : β) (x : Guests ι β) : Keeps b x x := ⟨fun _ => id, rfl, fun _ _ => rfl⟩

/-- The kernel changes in another VM. -/
theorem keeps_withKernel {x : Guests ι β} {b c : β} {k' : Kernel ι β}
    (hk' : Confined x.machine c x.kernel k') (hb : b ≠ c) : Keeps b x (x.withKernel k') := by
  refine ⟨fun _ => id, ?_, fun t ht => ?_⟩
  · have := hk'.vmblock b hb
    simp only [vmblockFields, withKernel]
    rw [this]
  · have := hk'.context t (ht ▸ hb)
    simp only [contextFields, withKernel]
    rw [this]

end Guests

/-! ## What each call is confined to -/

section Kill

variable (M : Machine ι β) (k : Kernel ι β)

omit fι in
theorem killThreadLocked_confined (t : ι) :
    Confined M (M.vmblock t) k (k.killThreadLocked M t) := by
  have hmarked {k : Kernel ι β} : Confined M (M.vmblock t) k (k.marked t) :=
    .of_context t (fun u hu => by ext <;> simp [marked, contextView, hu])
      fun _ _ => rfl
  rcases killThreadLocked_cases M t k with ⟨-, heq⟩ | ⟨-, heq⟩ | ⟨-, heq⟩ | ⟨s, v, hr, heq⟩ <;>
    rw [heq]
  · exact .refl M _ k
  · exact hmarked.trans (vmIpiSendWithlock_confined M t _)
  · exact hmarked
  · exact hr.confined.trans hmarked

omit fι in
theorem foldl_kill_confined (status : ℤ) (b : β) : Confined M b k
    ((M.contexts b).foldl (fun k t => k.killThreadLocked M t) (k.stamped b status)) := by
  have hstamped : Confined M b k (k.stamped b status) :=
    ⟨fun _ _ => rfl, fun c hc => by ext <;> simp [stamped, vmblockView, hc]⟩
  refine hstamped.trans (.foldl (fun k t ht => ?_) _)
  have hkill := killThreadLocked_confined M k t
  rw [M.mem_contexts.mp ht] at hkill
  exact hkill

end Kill

omit fι in
/-- **A thread is created**, in the VM on whose free list it was. -/
theorem threadCreateNoSquash_confined {k k' : Kernel ι β} {b : β} {me : ι}
    (hfirst : ∀ t, k.sched.freeThreads b = some t → M.vmblock t = b) {pc sp arg1 prio : ℕ}
    {asid : Bool} {e : Exit}
      (hcreate : k.threadCreateNoSquash M pc sp arg1 prio asid b me = some (e, k')) :
    Confined M b k k' := by
  unfold threadCreateNoSquash at hcreate
  split at hcreate
  · cases hcreate
    exact .refl M b k
  split at hcreate
  · cases hcreate
    exact .refl M b k
  next tmp hfree =>
  have hb := hfirst tmp hfree
  simp only at hcreate
  rw [← hb]
  split at hcreate
  all_goals
    cases hcreate
    refine .of_context tmp (fun u hu => ?_) fun c hc => ?_
  · ext <;> simp [contextView, checkSanity, initThread, hu]
  · rw [hb] at hc
    ext <;> simp [vmblockView, checkSanity, initThread, hc, Rings.head_append_of_ne]
  · ext <;> simp [contextView, initThread, Sched.freeReturn, hu]
  · rw [hb] at hc
    ext <;> simp [vmblockView, initThread, Sched.freeReturn, hc]

/-- What the calls of `me` rely on: the slots of the table hold blocks that are allocated and know
their slot, the caller's VM is in its own, and the first free context of a VM is one of its
contexts. -/
structure Guests.Ready (me : ι) (x : Guests ι β) : Prop where
  live : x.spaces.system.TableLive
  own : x.machine.vmblocks (x.machine.vmidx (x.machine.vmblock me)) = some (x.machine.vmblock me)
  free : ∀ b t, x.kernel.sched.freeThreads b = some t → x.machine.vmblock t = b

/-- The VMs that a call may change: the caller's own and those that it made; by an operation on
interrupts also the one that made it; and by making one, a block that is not allocated. -/
def Guests.Reaches (me : ι) (c : GuestCall β) (b : β) (x : Guests ι β) : Prop :=
  let a := x.machine.vmblock me
  x.machine.vmidx b = x.machine.vmidx a ∨ (x.machine.parent b).1 = x.machine.vmidx a ∨
    c.IsIntop ∧ x.machine.vmblocks (x.machine.parent a).1 = some b ∨
    x.spaces.system.allocated b = false

section Calls

variable {x x' : Guests ι β} {me : ι} {e : Exit}

omit dι dβ fι in
/-- The context that an operation on interrupts is for. -/
theorem intopsFixups_reaches {op : IntopType} {r01 r02 : BitVec 32} {dst : ι}
    {arg : ℕ} (hme : M.vmblocks (M.vmidx (M.vmblock me)) = some (M.vmblock me))
    (hpos : M.vmidx (M.vmblock me) ≠ 0) (hfix : M.intopsFixups op me r01 r02 = some (dst, arg)) :
    M.vmblock dst = M.vmblock me ∨ (M.parent (M.vmblock dst)).1 = M.vmidx (M.vmblock me) ∨
      M.vmblocks (M.parent (M.vmblock me)).1 = some (M.vmblock dst) := by
  have hid (id : ℕ × ℕ) {b : β} (hb : M.vmblocks id.1 = some b)
      (hdst : M.idToContext id = some dst) : M.vmblock dst = b := by
    rw [Machine.idToContext, hb] at hdst
    exact (M.context_eq_some.mp hdst).1
  cases op with
  | affinity =>
    obtain ⟨t, ht, ⟨⟩⟩ := map_eq_some_iff.mp hfix
    exact .inl (M.context_eq_some.mp ht).1
  | post =>
    obtain ⟨t, ht, ⟨⟩⟩ := map_eq_some_iff.mp hfix
    simp only [Machine.vmintFixupPost] at ht
    split at ht
    · split at ht
      · simp at ht
      next b hb =>
      have hvm := hid _ hb
      split at ht
      · simp at ht
      next hrelated =>
      rw [hvm ht]
      simp only [not_and_or, not_not] at hrelated
      rcases hrelated with h | h | h | h
      · exact absurd h hpos
      · exact .inr (.inl h.symm)
      · exact .inr (.inr (h ▸ hb))
      · left
        rw [← h, hme] at hb
        exact (some.inj hb).symm
    · exact .inl (hid (M.vmidx (M.vmblock me), M.cpuidx me) hme ht)
  | _ =>
    obtain ⟨rfl, -⟩ := Prod.mk.inj (some.inj hfix)
    exact .inl rfl

omit fι in
theorem keeps_create (hx : x.Ready me) {pc sp arg1 prio : ℕ} {b : β} {y : Spaces ι β}
    (hcreate : x.spaces.create pc sp arg1 prio b me = some (e, y)) {c : β} (hc : c ≠ b) :
    Guests.Keeps c x { x with spaces := y } := by
  obtain ⟨⟨e₁, k', a'⟩, hk', ⟨⟩⟩ := map_eq_some_iff.mp hcreate
  obtain ⟨⟨asid, hkernel⟩, hcases⟩ := Spaces.threadCreate_cases hk'
  have hconf := threadCreateNoSquash_confined (hx.free b) hkernel
  refine ⟨fun _ => id, ?_, fun t ht => ?_⟩
  · have hview := hconf.vmblock c hc
    simp only [Guests.vmblockFields, adopt]
    rw [hview]
  · have hview := hconf.context t (ht ▸ hc)
    have hssr : a'.ssrAsid t = x.spaces.asids.ssrAsid t := by
      rcases hcases with ⟨-, rfl⟩ | ⟨tmp, -, -, -, j, -, hfree, -, rfl, -⟩
      · rfl
      · have hne : t ≠ tmp := by
          rintro rfl
          exact hc (ht.symm.trans (hx.free b t hfree))
        simp [hne]
    simp only [Guests.contextFields, Guests.kernel, adopt]
    rw [hview, hssr]

omit dι dβ fι in
/-- A call that changes nothing. -/
theorem confined_self (me : ι) (c : GuestCall β) (x : Guests ι β) :
    ∃ b, x.Reaches me c b ∧ ∀ d, d ≠ b → Guests.Keeps d x x :=
  ⟨x.machine.vmblock me, .inl rfl, fun d _ => .refl d x⟩

omit fι in
theorem vmop_confined (hx : x.Ready me) {op val1 val2 val3 val4 val5 : BitVec 32}
    (hcall : x.vmop op val1 val2 val3 val4 val5 me = some (e, x')) :
    ∃ b, x.Reaches me (.vmop op val1 val2 val3 val4 val5) b ∧ ∀ c, c ≠ b → Guests.Keeps c x x' := by
  have hmay {b : β} (hb : x.machine.mayOperate me b = true) :
      x.Reaches me (.vmop op val1 val2 val3 val4 val5) b := by
    simp only [Machine.mayOperate, Bool.or_eq_true, decide_eq_true_eq] at hb
    exact hb.elim (fun h => .inl h.symm) fun h => .inr (.inl h.symm)
  unfold Guests.vmop at hcall
  split at hcall
  · -- boot
    obtain ⟨⟨e', y⟩, hboot, ⟨⟩⟩ := map_eq_some_iff.mp hcall
    rcases Spaces.vmopBoot_cases hboot with rfl | ⟨b, hcreate, hparent, -⟩
    · exact confined_self ..
    · exact ⟨b, .inr (.inl hparent.symm), fun c hc => keeps_create hx hcreate hc⟩
  · -- status
    cases hcall
    exact confined_self ..
  · -- free
    obtain ⟨⟨e', w⟩, hfree, ⟨⟩⟩ := map_eq_some_iff.mp hcall
    obtain rfl | ⟨b, hb, hparent, -, rfl⟩ := System.vmopFree_cases hfree
    · exact confined_self ..
    refine ⟨b, .inr (.inl hparent), fun c hc => ?_⟩
    refine ⟨fun i hi => ?_, rfl, fun _ _ => rfl⟩
    have hne : i ≠ val1.toNat := by
      rintro rfl
      exact hc (some.inj (hi.symm.trans hb))
    simpa [Machine.vacate, hne] using hi
  · -- kill a thread
    obtain ⟨⟨e', k'⟩, hkill, ⟨⟩⟩ := map_eq_some_iff.mp hcall
    rcases vmopKillThread_cases x.machine me x.kernel val1.toNat with
      ⟨r, heq⟩ | ⟨t, -, hop, heq⟩ <;> rw [heq] at hkill <;> cases hkill
    · exact confined_self ..
    · exact ⟨_, hmay hop, fun c hc => Guests.keeps_withKernel (killThreadLocked_confined ..) hc⟩
  · -- kill a VM
    obtain ⟨⟨e', k'⟩, hkill, ⟨⟩⟩ := map_eq_some_iff.mp hcall
    rcases vmopKillVm_cases x.machine me x.kernel val1.toNat val2.toInt with
      ⟨r, -, heq⟩ | ⟨b, -, hop, heq⟩ <;> rw [heq] at hkill <;> cases hkill
    · exact confined_self ..
    · exact ⟨b, hmay hop, fun c hc => Guests.keeps_withKernel (foldl_kill_confined ..) hc⟩
  · cases hcall
    exact confined_self ..

/-- **A block is set up**, or nothing happens. -/
theorem keeps_setCpusInts {b : β} {numInts : ℕ} {w : System ι β} {config : β → VmConfig}
    (hset : x.spaces.system.setCpusInts b numInts me = some (e, w))
    (hsame : w = x.spaces.system → config = x.config)
    (hconfig : ∀ c, c ≠ b → config c = x.config c) {x' : Guests ι β}
    (hx' : x' = { x with spaces := x.spaces.follow (.setCpusInts b numInts) w, config := config }) :
    x' = x ∨ x.spaces.system.allocated b = false ∧ ∀ c, c ≠ b → Guests.Keeps c x x' := by
  obtain rfl | ⟨i, -, hfree, hslot, rfl⟩ := System.setCpusInts_cases hset
  · left
    rw [hx', hsame rfl]
    simp [follow]
  have hre : Rewrites (fun t => x.machine.vmblock t = b) b (x.kernel.sched.bzero x.machine b)
      ((x.kernel.sched.bzero x.machine b).initContexts x.machine b) :=
    rewrites_foldl b _ _ fun t ht => x.machine.mem_contexts.mp ht
  subst hx'
  refine .inr ⟨hfree, fun c hc => ⟨fun j hj => ?_, ?_, fun t ht => ?_⟩⟩
  · have hne : j ≠ i := by
      rintro rfl
      simp [hslot] at hj
    simpa [follow, install, Machine.install, hne] using hj
  · have hstate : (x.spaces.system.install b i numInts me).kernel.vmblockView c =
        x.kernel.vmblockView c := by
      ext <;> simp [vmblockView, install, bzero, hc, hre.freeThreads c hc, hre.head]
      all_goals simp [Sched.bzero, hc]
    ext : 1
    · exact hstate
    all_goals simp [Guests.vmblockFields, follow, install, Machine.install, hconfig c hc, hc]
  · have htb : x.machine.vmblock t ≠ b := ht ▸ hc
    refine Prod.ext ?_ ?_
    · ext <;> simp [Guests.contextFields, contextView, follow, install, bzero, htb, hre.status,
        hre.prio, hre.hthread, hre.futexPtr, hre.r00]
      all_goals simp [Sched.bzero, htb]
    · simp [Guests.contextFields, follow, install, Machine.install, htb]

/-- **The configuration calls.** -/
theorem vmblockInit_confined {vm op arg1 arg2 : BitVec 32} {answer : Option β}
    (hcall : x.trapConfigVmblockInit vm op arg1 arg2 answer me = some (e, x')) :
    ∃ b, x.Reaches me (.vmblockInit vm op arg1 arg2 answer) b ∧
      ∀ c, c ≠ b → Guests.Keeps c x x' := by
  rcases Guests.trapConfigVmblockInit_cases hcall with rfl |
    ⟨b, w, config, hset, hsame, hconfig, hx'⟩ | ⟨b, v, hmade, hx'⟩
  · exact confined_self ..
  · rcases keeps_setCpusInts hset hsame hconfig hx' with rfl | ⟨hfree, hkeeps⟩
    · exact confined_self ..
    · exact ⟨b, .inr (.inr (.inr hfree)), hkeeps⟩
  refine ⟨b, .inr (.inl hmade), fun c hc => ?_⟩
  rcases hx' with rfl | ⟨p, rfl⟩ | ⟨-, vmidx, cpuidx, virtInt, rfl⟩ <;>
    refine ⟨fun _ => id, ?_, fun _ _ => rfl⟩
  · simp [Guests.vmblockFields, Guests.setConfig, hc]
  · simp [Guests.vmblockFields, Guests.setConfig, Guests.withMachine, hc]
  · ext : 1
    all_goals simp [Guests.vmblockFields, Guests.registerPassthru, Guests.withKernel,
      Guests.setConfig, vmblockView, hc]

/-- **A call changes at most one VM**, one that it may reach. -/
theorem call_confined (hx : x.Ready me) (hpos : x.machine.vmidx (x.machine.vmblock me) ≠ 0)
    {c : GuestCall β} (hcall : x.call me c = some (e, x')) :
    ∃ b, x.Reaches me c b ∧ ∀ c, c ≠ b → Guests.Keeps c x x' := by
  cases c with
  | intop r00 r01 r02 =>
    cases hcall
    unfold vmtrapIntop
    split
    · exact confined_self me _ x
    split
    · exact confined_self me _ x
    next dst arg hfix =>
    refine ⟨x.machine.vmblock dst, ?_, fun c hc =>
      Guests.keeps_withKernel (optab_confined x.machine dst x.kernel _ arg) hc⟩
    rcases intopsFixups_reaches hx.own hpos hfix with h | h | h
    · exact .inl (by rw [h])
    · exact .inr (.inl h)
    · exact .inr (.inr (.inl ⟨trivial, h⟩))
  | vmop op val1 val2 val3 val4 val5 => exact vmop_confined hx hcall
  | vmblockInit vm op arg1 arg2 answer => exact vmblockInit_confined hcall

omit dι dβ fι in
/-- Nobody learns the status of a VM that is not its own and that it did not make. -/
theorem vmopStatus_refused {k : Kernel ι β} {op vm : ℕ} {b : β} (hvm : vm ≠ 0)
    (hb : M.vmblocks vm = some b) (hown : M.vmidx b ≠ M.vmidx (M.vmblock me))
    (hchild : (M.parent b).1 ≠ M.vmidx (M.vmblock me)) : k.vmopStatus M op vm me = -1 := by
  have hmay : M.mayOperate me b = false := by
    simp [Machine.mayOperate, Ne.symm hown, Ne.symm hchild]
  simp [vmopStatus, hvm, hb, hmay]

end Calls

/-- **Cross-VM authority.** A call by a thread of VM `a` leaves every VM as it is, but for the links
of queues, that is neither `a` nor made by it nor made it; one that is no operation on interrupts
leaves also the VM that made `a`; and the status of a VM that is neither `a` nor made by it is
refused. -/
theorem cross_vm_authority {x x' : Guests ι β} {me : ι} (hx : x.Ready me) {a : ℕ}
    (ha : x.machine.vmidx (x.machine.vmblock me) = a) (hpos : a ≠ 0) {c : GuestCall β} {e : Exit}
    (hcall : x.call me c = some (e, x')) :
    (∀ b B, x.machine.vmblocks b = some B → b ≠ a → (x.machine.parent B).1 ≠ a →
      (x.machine.parent (x.machine.vmblock me)).1 ≠ b → Guests.Keeps B x x') ∧
    (¬c.IsIntop → ∀ B, x.machine.vmblocks (x.machine.parent (x.machine.vmblock me)).1 = some B →
      (x.machine.parent (x.machine.vmblock me)).1 ≠ a → (x.machine.parent B).1 ≠ a →
      Guests.Keeps B x x') ∧
    ∀ op b val3 val4 val5 B, c = .vmop 1 op b val3 val4 val5 → b ≠ 0 →
      x.machine.vmblocks b.toNat = some B → b.toNat ≠ a → (x.machine.parent B).1 ≠ a →
      e = .returned (-1) := by
  have hlive := hx.live
  subst ha
  obtain ⟨b₀, hreach, hkeeps⟩ := call_confined hx hpos hcall
  refine ⟨fun b B hB hown hchild hparent => hkeeps B ?_, fun hintop B hB hown hchild => hkeeps B ?_,
    fun op b val3 val4 val5 B hc hb hB hown hchild => ?_⟩
  · rintro rfl
    obtain ⟨halloc, hidx⟩ := hlive b B hB
    rcases hreach with h | h | ⟨-, h⟩ | h
    · exact hown (hidx.symm.trans h)
    · exact hchild h
    · exact hparent ((hlive _ B h).2.symm.trans hidx)
    · simp [halloc] at h
  · rintro rfl
    obtain ⟨halloc, hidx⟩ := hlive _ B hB
    rcases hreach with h | h | ⟨h, -⟩ | h
    · exact hown (hidx.symm.trans h)
    · exact hchild h
    · exact hintop h
    · simp [halloc] at h
  · subst hc
    obtain ⟨he, -⟩ := Prod.mk.inj (some.inj hcall)
    have hidx := (hlive _ B hB).2
    rw [← he, vmopStatus_refused ?_ hB (hidx ▸ hown) hchild]
    intro hzero
    exact hb (BitVec.eq_of_toNat_eq hzero)

/-! ## Runs -/

/-- A step of one hardware thread: a call that sets up a VM, or another one. -/
inductive GuestOp (ι β : Type) where
  | vmblockInit (vm op arg1 arg2 : BitVec 32) (answer : Option β)
  | other (op : SpaceOp ι β)

omit dι dβ fι in
/-- An interrupt that nobody waits for loses its handler. -/
theorem Placed.disarm {s : Sched ι β} (hs : Placed M s) {i : ℕ}
    (hi : ∀ t, s.inthandlers i ≠ .popup t) :
    Placed M { s with inthandlers := Function.update s.inthandlers i .null } := by
  refine ⟨{ hs.holds with popup := fun {j t} => ?_ }, hs.prios.congr rfl rfl rfl⟩
  by_cases hj : j = i
  · subst hj
    exact iff_of_false (by simp) fun ht => hi t (hs.holds.popup.mpr ht)
  · exact (iff_of_eq (congrArg (· = _) (Function.update_of_ne hj ..))).trans hs.holds.popup

namespace Guests

/-- The other steps, which know nothing of how VMs are set up: none is, and nobody asks for an
interrupt that is passed through. -/
def allows (op : SpaceOp ι β) (x : Guests ι β) : Bool :=
  match op with
  | .sys (.setCpusInts ..) => false
  | .sys (.kernel (.trap (.popupWait i))) => (x.passthru i).isNone
  | .sys (.kernel (.trap (.intpoolConfigure i _))) => (x.passthru i).isNone
  | _ => true

def step (a : ℕ × GuestOp ι β) (x : Guests ι β) : Option (Guests ι β) :=
  match a.2 with
  | .vmblockInit vm op arg1 arg2 answer =>
    if x.kernel.enabled a.1 (.trap .yield) then
      (x.kernel.hw.sgp a.1).bind fun me =>
        (x.trapConfigVmblockInit vm op arg1 arg2 answer me).map Prod.snd
    else none
  | .other op =>
    if x.allows op then (x.spaces.step (a.1, op)).map fun y => { x with spaces := y } else none

/-- A step that tends, and takes no interrupt away from a thread that waits for it. -/
def Tends (a : ℕ × GuestOp ι β) (x : Guests ι β) : Prop :=
  match a.2 with
  | .vmblockInit _ op _ arg2 _ =>
    op.toNat = 4 → ∀ t, x.kernel.sched.inthandlers (arg2.toNat / 0x10000) ≠ .popup t
  | .other op => ∀ sysop, op = .sys sysop → x.spaces.system.Tends (a.1, sysop)

/-- The boot VM gets going, however it is set up. -/
def boot (M : Machine ι β) (timerIntnum : ℕ) (mask : BitVec 32) (cluster : Cluster ι) (bootvm : β)
    (bootOffset : BitVec 32) (config : β → VmConfig) : Option (Guests ι β) :=
  (Spaces.boot M timerIntnum mask cluster bootvm bootOffset).map fun p =>
    ⟨p.2, config, fun _ => none, timerIntnum⟩

/-- What holds of the system in every state. -/
abbrev Sound (x : Guests ι β) : Prop := x.spaces.system.Sound ∧ x.spaces.system.TableLive

variable {x x' : Guests ι β} {h : ℕ} {me : ι} {e : Exit}

theorem Sound.ready (hx : x.Sound) (hme : x.kernel.hw.sgp h = some me) : x.Ready me :=
  ⟨hx.2, hx.1.idToContext hme, fun _ _ ht => (hx.1.coherent.placed.popFree ht).2.1⟩

theorem Sound.other (hx : x.Sound) {op : SpaceOp ι β} {y : Spaces ι β}
    (htends : ∀ sysop, op = .sys sysop → x.spaces.system.Tends (h, sysop))
    (hstep : x.spaces.step (h, op) = some y) : Sound { x with spaces := y } := by
  obtain ⟨⟨e, y⟩, hexec, rfl⟩ := map_eq_some_iff.mp hstep
  rcases Spaces.exec_cases hexec with rfl | ⟨sysop, pc, sp, arg1, prio, b, me, rfl, hcreate, hop⟩ |
    ⟨sysop, w', rfl, rfl, hw', -⟩ | ⟨r00, r01, r02, r03, me, rfl, -, rfl⟩
  · exact hx
  · obtain ⟨⟨e₁, k', a'⟩, hk', ⟨⟩⟩ := map_eq_some_iff.mp hcreate
    obtain ⟨⟨asid, hkernel⟩, -⟩ := Spaces.threadCreate_cases hk'
    obtain ⟨o, hcreates, hsafe, hen, hperform⟩ := hop asid
    have hminds := (htends _ rfl).minds hx.1 hx.2
    refine ⟨Spaces.sound_adopt hx.1 hen ⟨hsafe, fun b hb => hminds.2 b ?_⟩ (hperform.trans hkernel),
      fun i b hi => ?_⟩
    · exact (congrFun hcreates x.kernel).symm.trans hb
    · obtain ⟨halloc, hidx⟩ := hx.2 i b hi
      refine ⟨?_, hidx⟩
      simp [adopt, halloc, threadCreateNoSquash_freed hkernel, hx.1.fresh b halloc]
  · have hsys : x.spaces.system.step (h, sysop) = some w' := by simp [System.step, hw']
    have ha := htends _ rfl
    exact ⟨hx.1.step (ha.minds hx.1 hx.2) hsys, hx.2.step hx.1 ha hsys⟩
  · exact hx

theorem Sound.vmblockInit (hx : x.Sound) (hme : x.kernel.hw.sgp h = some me)
    {vm op arg1 arg2 : BitVec 32} {answer : Option β}
    (htends : x.Tends (h, .vmblockInit vm op arg1 arg2 answer))
    (hcall : x.trapConfigVmblockInit vm op arg1 arg2 answer me = some (e, x')) : x'.Sound := by
  have hc := hx.1.coherent
  rcases trapConfigVmblockInit_cases hcall with rfl | ⟨b, w, config, hset, -, -, rfl⟩ |
    ⟨b, v, -, rfl | ⟨p, rfl⟩ | ⟨hop, vmidx, cpuidx, virtInt, rfl⟩⟩
  · exact hx
  · exact ⟨hx.1.setCpusInts hme hset, hx.2.setCpusInts hset⟩
  · exact hx
  · exact ⟨{ hx.1 with coherent := { hc with placed := hc.placed.of_vmblock rfl } }, hx.2⟩
  · exact ⟨{ hx.1 with coherent := { hc with placed := hc.placed.disarm (htends hop) } }, hx.2⟩

theorem Sound.step (hx : x.Sound) {a : ℕ × GuestOp ι β} (ha : x.Tends a)
    (hstep : x.step a = some x') : x'.Sound := by
  obtain ⟨h, op⟩ := a
  cases op with
  | vmblockInit vm op arg1 arg2 answer =>
    obtain ⟨-, hstep⟩ := ite_none_right_eq_some.mp hstep
    obtain ⟨me, hme, hcall⟩ := bind_eq_some_iff.mp hstep
    obtain ⟨⟨e, y⟩, hy, rfl⟩ := map_eq_some_iff.mp hcall
    exact hx.vmblockInit hme ha hy
  | other op =>
    obtain ⟨-, hstep⟩ := ite_none_right_eq_some.mp hstep
    obtain ⟨y, hy, rfl⟩ := map_eq_some_iff.mp hstep
    exact hx.other ha hy

/-- **Whoever runs is ready for a call**, in every state. -/
theorem ready_of_leads {timerIntnum : ℕ} {mask : BitVec 32} {cluster : Cluster ι}
    {bootvm : β} {bootOffset : BitVec 32} {config : β → VmConfig} {x₀ : Guests ι β}
    (hmask : mask.getLsbD 0 = true) (hmax : M.maxCpus bootvm ≤ h2kIdMaxCpus)
    (hboot : boot M timerIntnum mask cluster bootvm bootOffset config = some x₀)
    (hx : Leads Guests.step (fun a x => x.Tends a) x₀ x) (hme : x.kernel.hw.sgp h = some me) :
    x.Ready me := by
  refine (hx.invariant (I := Sound) ?_ fun hs => hs.step).ready hme
  obtain ⟨⟨e, y⟩, hy, rfl⟩ := map_eq_some_iff.mp hboot
  refine ⟨(Spaces.sound_boot hmask hmax hy).system, ?_⟩
  obtain ⟨⟨e', w⟩, hw, hrest⟩ := bind_eq_some_iff.mp hy
  split at hrest
  · cases hrest
    exact System.tableLive_boot hw
  · simp at hrest

end Guests

/-! ## Four VMs -/

/-- Four blocks with a cpu each. -/
def fourVms : Machine (Fin 4) (Fin 4) where
  vmblock t := t
  cpuidx _ := 0
  maxCpus _ := 1
  context b i := if i = 0 then some b else none
  vmblocks _ := none
  vmidx _ := 0
  parent _ := (0, 0)
  bestprio _ := 0
  numInts _ := 0
  context_eq_some {b i t} := by
    by_cases hi : i = 0
    · simp [hi, eq_comm]
    · simp [hi, Ne.symm hi]
  context_isSome {b i} := by by_cases hi : i = 0 <;> simp [hi]

open scoped Numerals

/-- VM 1 makes VM 2, with a priority and an interrupt of its own, and boots it; VM 2 makes VM 3 and
boots it, whose thread is ready; VM 1 makes VM 4. -/
def grandchild : List (ℕ × GuestOp (Fin 4) (Fin 4)) :=
  let kernel (op : Op (Fin 4) (Fin 4)) : GuestOp (Fin 4) (Fin 4) := .other (.sys (.kernel op))
  [(1, kernel .start), (0, .vmblockInit 0 3 1 0 (some 1)), (0, .vmblockInit 2 2 0 0 none),
    (0, .vmblockInit 2 4 5 0x60000 none), (0, kernel (.trap (.vmopBoot 0 0 0 0 2 true))),
    (1, kernel (.takeInt 1)), (1, kernel (.handleInt [])), (1, .vmblockInit 0 3 1 0 (some 2)),
    (1, kernel (.trap (.vmopBoot 0 0 0 100 3 true))), (0, .vmblockInit 0 3 1 0 (some 3))]

/-- VM 1 boots VM 4, with the priority of the thread of VM 3. -/
def bootFour : GuestCall (Fin 4) := .vmop 0 0 0 0 100 4

/-- The test that a step tends, with the VMs it is to look at. -/
def guestsTest (vms : List β) (a : ℕ × GuestOp ι β) (x : Guests ι β) : Bool :=
  match a.2 with
  | .vmblockInit _ _ _ arg2 _ =>
    match x.kernel.sched.inthandlers (arg2.toNat / 0x10000) with
    | .popup _ => false
    | _ => true
  | .other (.sys op) => tendsTest vms (a.1, op) x.spaces.system
  | .other (.newmap ..) => true

theorem tends_of_guestsTest (vms : List β) (hvms : ∀ b, b ∈ vms) (a : ℕ × GuestOp ι β)
    (x : Guests ι β) (htest : guestsTest vms a x = true) : x.Tends a := by
  obtain ⟨h, op⟩ := a
  cases op with
  | vmblockInit vm op arg1 arg2 answer =>
    intro _ t ht
    simp [guestsTest, ht] at htest
  | other op =>
    rintro sysop rfl
    exact tends_of_tendsTest vms hvms _ _ htest

/-- The state before the call: the thread of VM 1 runs on hardware thread 0, VM 3 was made by VM 2,
and its thread is alone in its queue; and what the call has done. -/
theorem grandchild_runs : ∃ x₀ ∈ Guests.boot fourVms 3 3#32 .off 0 identityOffset fun _ => .cleared,
    ∃ x ∈ runIf Guests.step (guestsTest [0, 1, 2, 3]) grandchild x₀, ∃ q ∈ x.call 0 bootFour,
      x.kernel.hw.sgp 0 = some 0 ∧ x.machine.vmidx (x.machine.vmblock 0) = 1 ∧
      x.machine.vmblocks 3 = some 2 ∧ x.machine.parent 2 = (2, 0) ∧
      x.machine.parent (x.machine.vmblock 0) = (0, 0) ∧ x.passthru 6 ≠ none ∧
      q.2.kernel.sched.status 3 = .ready ∧ x.kernel.sched.rings.links.next 2 = some 2 ∧
      q.2.kernel.sched.rings.links.next 2 = some 3 := by
  decide +kernel

/-- VM 3 is none of VM 1's business, and stays as it is. -/
theorem cross_vm_authority_grandchild : ∃ x₀ x e x',
    Guests.boot fourVms 3 3#32 .off 0 identityOffset (fun _ => .cleared) = some x₀ ∧
    Leads Guests.step (fun a x => x.Tends a) x₀ x ∧ x.Ready 0 ∧ x.machine.vmblocks 3 = some 2 ∧
    x.call 0 bootFour = some (e, x') ∧ x'.kernel.sched.status 3 = .ready ∧ Guests.Keeps 2 x x' := by
  obtain ⟨x₀, hboot, x, hrun, ⟨e, x'⟩, hcall, hsgp, hidx, hslot, hparent, hboot₀, -, hready, -⟩ :=
    grandchild_runs
  have hx := Leads.of_runIf (tends_of_guestsTest [0, 1, 2, 3] (by decide)) .init hrun
  have hcaller := Guests.ready_of_leads (by decide) (by decide) hboot hx hsgp
  refine ⟨x₀, x, e, x', hboot, hx, hcaller, hslot, hcall, hready, ?_⟩
  refine (cross_vm_authority hcaller hidx (by decide) hcall).1 3 2 hslot (by decide) ?_ ?_
  · exact hparent ▸ (by decide)
  · exact hboot₀ ▸ (by decide)

/-- **The links of a thread change** that is none of the caller's business: the thread of VM 3 is
ready, the only one of its priority; VM 1 boots VM 4, and the new thread is next to it. -/
theorem authority_links : ∃ x₀ x e x',
    Guests.boot fourVms 3 3#32 .off 0 identityOffset (fun _ => .cleared) = some x₀ ∧
    Leads Guests.step (fun a x => x.Tends a) x₀ x ∧ x.machine.vmblocks 3 = some 2 ∧
    x.machine.vmidx (x.machine.vmblock 0) = 1 ∧ x.machine.parent 2 = (2, 0) ∧
    x.machine.parent (x.machine.vmblock 0) = (0, 0) ∧ x.call 0 bootFour = some (e, x') ∧
    x.kernel.sched.rings.links.next 2 = some 2 ∧ x'.kernel.sched.rings.links.next 2 = some 3 := by
  obtain ⟨x₀, hboot, x, hrun, ⟨e, x'⟩, hcall, -, hidx, hslot, hparent, hboot₀, -, -, hnext⟩ :=
    grandchild_runs
  exact ⟨x₀, x, e, x', hboot, .of_runIf (tends_of_guestsTest [0, 1, 2, 3] (by decide)) .init hrun,
    hslot, hidx, hparent, hboot₀, hcall, hnext⟩

end H2
