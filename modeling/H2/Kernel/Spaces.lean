import H2.Kernel.Accounts
import H2.Vm.Vmmap

/-!
# Kernel/Spaces — how many threads use an address space

A thread that is created takes a reference to an address space, one that stops gives it up, and one
that maps another gives up the old for the new.  So the references to an address space are the live
threads that have it in their `ssr` — as far as twelve bits go (`Asids.Counted`).  A VM may have
65536 cpus.  When 4096 threads share an address space the count is 0, and the address space is given
to the next who asks for another (`asidCount_wraps`).
-/

namespace H2

open Function Option Finset

variable {ι β : Type} [dι : DecidableEq ι] [dβ : DecidableEq β] [fι : Fintype ι]

/-! ## References -/

namespace Asids

/-- Threads stop.  Each gives up its reference, and its context is cleared. -/
def stopped (D : Finset ι) (a : Asids ι) : Asids ι where
  table s := { a.table s with
    count := (a.table s).count - BitVec.ofNat 12 (D.filter (a.ssrAsid · = s)).card }
  ssrAsid t := if t ∈ D then 0 else a.ssrAsid t

omit fι in
/-- One after the other, with `H2K_asid_table_dec`. -/
theorem table_stopped_insert {D : Finset ι} {t : ι} (ht : t ∉ D) (a : Asids ι) :
    (a.stopped (insert t D)).table = (a.stopped D).table.dec (a.ssrAsid t) := by
  funext s
  rw [AsidTable.dec]
  by_cases hs : s = a.ssrAsid t
  · subst hs
    have hcard : ((insert t D).filter (a.ssrAsid · = a.ssrAsid t)).card =
        (D.filter (a.ssrAsid · = a.ssrAsid t)).card + 1 := by
      rw [filter_insert, if_pos rfl, card_insert_of_notMem (by simp [ht])]
    rw [update_self]
    simp only [stopped, hcard]
    rw [BitVec.ofNat_add, sub_add_eq_sub_sub]
    rfl
  · have hne : a.ssrAsid t ≠ s := fun h => hs h.symm
    rw [update_of_ne hs]
    simp [stopped, filter_insert, hne]

/-- The live threads with an address space. -/
def users (k : Kernel ι β) (a : Asids ι) (s : BitVec 7) : Finset ι :=
  univ.filter fun t => k.sched.status t ≠ .dead ∧ a.ssrAsid t = s

/-- The references are counted, as far as twelve bits go. -/
def Counted (k : Kernel ι β) (a : Asids ι) : Prop :=
  ∀ s, (a.table s).count = BitVec.ofNat 12 (a.users k s).card

end Asids

/-- One reference more to the place that is given out. -/
theorem AsidTable.count_inc {table table' : AsidTable} {ptb : BitVec 32} {vmidx type : ℕ}
    {extra : BitVec 8} {j : BitVec 7} (h : inc ptb type extra vmidx table = (some j, table'))
    (s : BitVec 7) : (table' s).count = (table s).count + if s = j then 1 else 0 := by
  obtain ⟨-, ⟨-, rfl⟩ | ⟨-, evicted, hevict, rfl⟩⟩ := inc_some h
  · by_cases hs : s = j <;> simp [hs]
  · obtain ⟨hzero, -, -, -, -, -, rfl⟩ := eviction_some hevict
    by_cases hs : s = j
    · simp [hs, hzero]
    · rw [update_of_ne hs]
      by_cases hh : s = asidHashval ptb <;> simp [hs, hh]
      simp [← hh, hs]

/-- … and one less to the place that is given up. -/
theorem AsidTable.count_dec (asid : BitVec 7) (table : AsidTable) (s : BitVec 7) :
    (table.dec asid s).count = (table s).count - if s = asid then 1 else 0 := by
  by_cases hs : s = asid <;> simp [dec, hs]

namespace Asids.Counted

variable {k k' : Kernel ι β} {a : Asids ι} {t : ι}

omit dι dβ in
theorem congr {a' : Asids ι} (h : a.Counted k)
    (hst : ∀ u, k'.sched.status u = .dead ↔ k.sched.status u = .dead) (htable : a'.table = a.table)
    (hssr : ∀ u, k.sched.status u ≠ .dead → a'.ssrAsid u = a.ssrAsid u) : a'.Counted k' := by
  intro s
  have husers : a'.users k' s = a.users k s := by
    refine filter_congr fun u _ => ?_
    rw [ne_eq, hst]
    exact and_congr_right fun hu => by rw [hssr u hu]
  rw [husers, htable, h s]

section

omit dβ

/-- A live thread gets an address space, and gives up the one it had. -/
theorem moved (h : a.Counted k) (hlive : k'.sched.status t ≠ .dead)
    (hst : ∀ u, u ≠ t → (k'.sched.status u = .dead ↔ k.sched.status u = .dead)) {j : BitVec 7}
    {table : AsidTable} (hcount : ∀ s, (table s).count =
      (a.table s).count + (if s = j then 1 else 0) - if t ∈ a.users k s then 1 else 0) :
    Asids.Counted k' ⟨table, update a.ssrAsid t j⟩ := by
  intro s
  have husers : Asids.users k' ⟨table, update a.ssrAsid t j⟩ s =
      if s = j then insert t (a.users k s) else (a.users k s).erase t := by
    ext u
    by_cases hu : u = t
    · subst hu
      by_cases hs : s = j
      · simp [Asids.users, hlive, hs]
      · simp [Asids.users, hs, Ne.symm hs]
    · by_cases hs : s = j <;> simp [Asids.users, hu, hst u hu, hs]
  rw [husers]
  simp only [hcount, h s]
  by_cases hs : s = j <;> by_cases hold : t ∈ a.users k s
  · rw [if_pos hs, if_pos hold, if_pos hs, insert_eq_of_mem hold, add_sub_cancel_right]
  · rw [if_pos hs, if_neg hold, if_pos hs, card_insert_of_notMem hold, BitVec.ofNat_add, sub_zero]
    rfl
  · rw [if_neg hs, if_pos hold, if_neg hs, add_zero, ← card_erase_add_one hold, BitVec.ofNat_add]
    exact add_sub_cancel_right _ _
  · rw [if_neg hs, if_neg hold, if_neg hs, erase_eq_of_notMem hold, add_zero, sub_zero]

theorem born (h : a.Counted k) (hdead : k.sched.status t = .dead)
    (hlive : k'.sched.status t ≠ .dead)
    (hst : ∀ u, u ≠ t → (k'.sched.status u = .dead ↔ k.sched.status u = .dead)) {j : BitVec 7}
    {table : AsidTable}
    (hcount : ∀ s, (table s).count = (a.table s).count + if s = j then 1 else 0) :
    Asids.Counted k' ⟨table, update a.ssrAsid t j⟩ :=
  h.moved hlive hst fun s => by
    rw [hcount, if_neg (c := t ∈ a.users k s) (by simp [Asids.users, hdead]), sub_zero]

theorem stopped (h : a.Counted k)
    (hdead : ∀ u, k.sched.status u = .dead → k'.sched.status u = .dead) :
    Asids.Counted k' (a.stopped (univ.filter fun u =>
      k.sched.status u ≠ .dead ∧ k'.sched.status u = .dead)) := by
  intro s
  set D := univ.filter fun u => k.sched.status u ≠ .dead ∧ k'.sched.status u = .dead with hD
  have hsub : D.filter (a.ssrAsid · = s) ⊆ a.users k s := by
    intro u hu
    simp only [hD, mem_filter] at hu
    simp [Asids.users, hu]
  have husers : (a.stopped D).users k' s = a.users k s \ D.filter (a.ssrAsid · = s) := by
    ext u
    by_cases hu : k.sched.status u = .dead
    · simp [Asids.users, hu, hdead u hu]
    · by_cases hu' : k'.sched.status u = .dead <;> simp [Asids.users, Asids.stopped, hD, hu, hu']
  obtain ⟨n, hn⟩ := Nat.exists_eq_add_of_le (card_le_card hsub)
  rw [husers, card_sdiff_of_subset hsub]
  simp only [Asids.stopped, h s]
  rw [hn, Nat.add_sub_cancel_left, BitVec.ofNat_add, add_sub_cancel_left]

end

end Asids.Counted

/-! ## Whole systems -/

structure Spaces (ι β : Type) where
  system : System ι β
  asids : Asids ι

/-- A step of one hardware thread: one of the system, or a trap that maps another address space. -/
inductive SpaceOp (ι β : Type) where
  | sys (op : SysOp ι β)
  | newmap (r00 r01 r02 r03 : BitVec 32)

namespace Spaces

/-- The kernel has made a step.  A block it has freed is the allocator's again. -/
def adopt (k : Kernel ι β) (w : System ι β) : System ι β :=
  { w with kernel := k, allocated := fun b => w.allocated b && !k.vms.freed b }

/-- `H2K_thread_create_no_squash`. -/
def create (pc sp arg1 prio : ℕ) (b : β) (me : ι) (x : Spaces ι β) : Option (Exit × Spaces ι β) :=
  (x.system.kernel.threadCreate x.system.machine pc sp arg1 prio b me x.asids).map fun p =>
    (p.1, ⟨adopt p.2.1 x.system, p.2.2⟩)

/-- `H2K_vmop_boot`. -/
def vmopBoot (pc sp arg1 prio vm : ℕ) (me : ι) (x : Spaces ι β) : Option (Exit × Spaces ι β) :=
  let M := x.system.machine
  if h2kIdMaxVms ≤ vm then some (.returned (-1), x)
  else
    match M.vmblocks vm with
    | none => some (.returned (-1), x)
    | some b =>
      if M.vmidx (M.vmblock me) ≠ (M.parent b).1 ∨ 0 < x.system.kernel.vms.numCpus b then
        some (.returned (-1), x)
      else x.create pc sp arg1 prio b me

/-- `H2K_vmtrap_newmap`; what is cached does not matter here. -/
def newmap (r00 r01 r02 r03 : BitVec 32) (me : ι) (x : Spaces ι β) : Exit × Spaces ι β :=
  let M := x.system.machine
  let n := Mmu.vmtrapNewmap r00 r01 r02 r03 (M.vmidx (M.vmblock me)) (x.asids.ssrAsid me)
    ⟨x.asids.table, fun _ => 0, none⟩
  (.returned n.r00,
    { x with asids := ⟨n.mmu.table, update x.asids.ssrAsid me n.ssrAsid⟩ })

/-- Another step of the system: `H2K_thread_stop_withlock` gives up the reference of each thread
that stops, and the contexts of a new block are clear. -/
def follow (op : SysOp ι β) (w : System ι β) (x : Spaces ι β) : Spaces ι β where
  system := w
  asids :=
    match op with
    | .kernel _ => x.asids.stopped (univ.filter fun t =>
        x.system.kernel.sched.status t ≠ .dead ∧ w.kernel.sched.status t = .dead)
    | .setCpusInts b _ => { x.asids with
        ssrAsid := fun t =>
          if (x.system.allocated b = false ∧ w.allocated b = true) ∧ w.machine.vmblock t = b then 0
          else x.asids.ssrAsid t }
    | .vmopFree _ => x.asids

def exec (h : ℕ) (op : SpaceOp ι β) (x : Spaces ι β) : Option (Exit × Spaces ι β) :=
  let k := x.system.kernel
  let byMe (f : ι → Option (Exit × Spaces ι β)) : Option (Exit × Spaces ι β) :=
    if k.enabled h (.trap .yield) then (k.hw.sgp h).bind f else none
  match op with
  | .sys (.kernel (.trap (.create pc sp arg1 prio _))) =>
    byMe fun me => x.create pc sp arg1 prio (x.system.machine.vmblock me) me
  | .sys (.kernel (.trap (.vmopBoot pc sp arg1 prio vm _))) =>
    byMe fun me => x.vmopBoot pc sp arg1 prio vm me
  | .sys op => (x.system.exec h op).map fun p => (p.1, x.follow op p.2)
  | .newmap r00 r01 r02 r03 => byMe fun me => some (x.newmap r00 r01 r02 r03 me)

/-- A step of a hardware thread, whatever it returns. -/
def step (a : ℕ × SpaceOp ι β) (x : Spaces ι β) : Option (Spaces ι β) :=
  (x.exec a.1 a.2).map Prod.snd

/-- The boot VM gets going with an offset. -/
def boot (M : Machine ι β) (timerIntnum : ℕ) (mask : BitVec 32) (cluster : Cluster ι) (bootvm : β)
    (bootOffset : BitVec 32) : Option (Exit × Spaces ι β) :=
  (System.boot M timerIntnum mask cluster bootvm).bind fun p =>
    match AsidTable.zeroed.inc bootOffset transTypeOffset 0 1,
      M.context bootvm (M.maxCpus bootvm - 1) with
    | (some asid, table), some boot =>
      some (p.1, ⟨p.2, ⟨table, update (fun _ => 0) boot asid⟩⟩)
    | _, _ => none

/-- A step that minds what becomes of VM blocks. -/
def Minds (a : ℕ × SpaceOp ι β) (x : Spaces ι β) : Prop :=
  match a.2 with
  | .sys op => x.system.Minds (a.1, op)
  | .newmap .. => True

/-- What holds of a system with its address spaces. -/
structure Sound (x : Spaces ι β) : Prop where
  system : x.system.Sound
  counted : x.asids.Counted x.system.kernel

section Steps

variable {x x' : Spaces ι β} {h : ℕ} {me : ι} {e : Exit}

omit fι in
/-- **A creation**: the kernel does what it does with an answer from the table, and a thread that is
made has the address space that was given out. -/
theorem threadCreate_cases {M : Machine ι β} {k k' : Kernel ι β} {a a' : Asids ι} {b : β}
    {pc sp arg1 prio : ℕ} (hcreate : k.threadCreate M pc sp arg1 prio b me a = some (e, k', a')) :
    (∃ asid, k.threadCreateNoSquash M pc sp arg1 prio asid b me = some (e, k')) ∧
    (k'.sched.status = k.sched.status ∧ a' = a ∨
      ∃ tmp ptb type extra j table, k.sched.freeThreads b = some tmp ∧
        a.table.inc ptb type extra (M.vmidx b) = (some j, table) ∧
        a' = ⟨table, update a.ssrAsid tmp j⟩ ∧
        k'.sched.status = update k.sched.status tmp .ready) := by
  unfold Kernel.threadCreate at hcreate
  split at hcreate
  · next hbad =>
    obtain ⟨rfl, rfl, rfl⟩ := hcreate
    exact ⟨⟨true, by rw [Kernel.threadCreateNoSquash, if_pos hbad]⟩, .inl ⟨rfl, rfl⟩⟩
  next hgood =>
  split at hcreate
  · next hfree =>
    obtain ⟨rfl, rfl, rfl⟩ := hcreate
    exact ⟨⟨true, by rw [Kernel.threadCreateNoSquash, if_neg hgood, hfree]⟩, .inl ⟨rfl, rfl⟩⟩
  next tmp hfree =>
  simp only at hcreate
  have hstatus {asid : Bool} {p : Exit × Kernel ι β}
      (hp : k.threadCreateNoSquash M pc sp arg1 prio asid b me = some p) : p.2.sched.status =
        if asid then update k.sched.status tmp .ready else k.sched.status := by
    rw [Kernel.threadCreateNoSquash, if_neg hgood, hfree] at hp
    cases asid <;> rw [← some.inj hp] <;> rfl
  split at hcreate
  · next j table hinc =>
    obtain ⟨p, hp, hmk⟩ := map_eq_some_iff.mp hcreate
    obtain ⟨rfl, rfl, rfl⟩ := hmk
    exact ⟨⟨true, hp⟩, .inr ⟨tmp, _, _, _, j, table, hfree, hinc, rfl, hstatus hp⟩⟩
  · next table hinc =>
    obtain ⟨p, hp, hmk⟩ := map_eq_some_iff.mp hcreate
    obtain ⟨rfl, rfl, rfl⟩ := hmk
    exact ⟨⟨false, hp⟩, .inl ⟨hstatus hp, by rw [AsidTable.inc_eq_none hinc]⟩⟩

theorem Sound.create (hx : x.Sound) {pc sp arg1 prio : ℕ} {b : β} (hexec : ∀ asid e k',
      x.system.kernel.threadCreateNoSquash x.system.machine pc sp arg1 prio asid b me =
        some (e, k') → (adopt k' x.system).Sound)
    (hcreate : x.create pc sp arg1 prio b me = some (e, x')) : x'.Sound := by
  obtain ⟨⟨e₁, k', a'⟩, hk', ⟨⟩⟩ := map_eq_some_iff.mp hcreate
  obtain ⟨⟨asid, hkernel⟩, hcases⟩ := threadCreate_cases hk'
  refine ⟨hexec asid e₁ k' hkernel, ?_⟩
  rcases hcases with ⟨hst, ha'⟩ | ⟨tmp, ptb, type, extra, j, table, hfree, hinc, rfl, hst⟩
  · rw [ha']
    exact hx.counted.congr (fun u => by simp [adopt, hst]) rfl fun _ _ => rfl
  · obtain ⟨hdead, -, -⟩ := hx.system.coherent.placed.popFree hfree
    refine hx.counted.born hdead ?_ (fun u hu => ?_) (AsidTable.count_inc hinc)
    · simp [adopt, hst]
    · simp [adopt, hst, hu]

/-- A step that creates a thread, as one of the system. -/
theorem sound_adopt (hx : x.system.Sound) {op : Op ι β} (hen : x.system.kernel.enabled h op = true)
    (hminds : x.system.Minds (h, .kernel op)) {k' : Kernel ι β}
    (hop : x.system.kernel.perform x.system.machine h op = some (e, k')) :
    (adopt k' x.system).Sound := by
  have hexec : x.system.exec h (.kernel op) = some (e, adopt k' x.system) := by
    rw [System.exec, Kernel.exec, if_pos hen, hop]
    rfl
  exact hx.kernel hminds hexec

theorem Sound.newmap (hx : x.Sound) (hme : x.system.kernel.hw.sgp h = some me)
    (r00 r01 r02 r03 : BitVec 32) : (x.newmap r00 r01 r02 r03 me).2.Sound := by
  refine ⟨hx.system, ?_⟩
  have hlive : x.system.kernel.sched.status me ≠ .dead := by
    simp [(hx.system.coherent.running hme).1]
  rcases Mmu.vmtrapNewmap_cases r00 r01 r02 r03
    (x.system.machine.vmidx (x.system.machine.vmblock me))
    (x.asids.ssrAsid me) ⟨x.asids.table, fun _ => 0, none⟩ with
    ⟨m', htable, -, hmk⟩ | ⟨j, table, m', hinc, htable, hmk⟩
  · have hsame : (x.newmap r00 r01 r02 r03 me).2.asids = x.asids := by
      simp only [Spaces.newmap, hmk, htable, update_eq_self]
    rw [hsame]
    exact hx.counted
  · have hmoved : (x.newmap r00 r01 r02 r03 me).2.asids =
        ⟨table.dec (x.asids.ssrAsid me), update x.asids.ssrAsid me j⟩ := by
      simp only [Spaces.newmap, hmk, htable]
    rw [hmoved]
    refine hx.counted.moved hlive (fun _ _ => .rfl) fun s => ?_
    rw [AsidTable.count_dec, AsidTable.count_inc hinc]
    simp [Asids.users, hlive, eq_comm (a := s)]

/-- The contexts of a new block were dead, and are. -/
theorem setCpusInts_status {w w' : System ι β} (hw : w.Sound) {b : β} {numInts : ℕ}
    (hset : w.setCpusInts b numInts me = some (e, w')) : w'.machine.vmblock = w.machine.vmblock ∧
      ∀ u, w'.kernel.sched.status u = .dead ↔ w.kernel.sched.status u = .dead := by
  obtain rfl | ⟨i, -, hfree, -, rfl⟩ := System.setCpusInts_cases hset
  · exact ⟨rfl, fun _ => .rfl⟩
  refine ⟨rfl, fun u => ?_⟩
  obtain ⟨-, hre, hdead⟩ := hw.coherent.placed.initContexts fun t ht =>
    hw.dead t (ht ▸ hfree)
  by_cases hu : w.machine.vmblock u = b
  · exact iff_of_true (hdead u hu) (hw.dead u (hu ▸ hfree))
  · exact iff_of_eq (congrArg (· = Status.dead) (hre.status u hu))

/-- A step of the system that creates no thread. -/
theorem Sound.follow (hx : x.Sound) {op : SysOp ι β} (hminds : x.system.Minds (h, op))
    (hcreates : ∀ o, op = .kernel o → o.creates x.system.machine h x.system.kernel = none)
    {w' : System ι β} (hexec : x.system.exec h op = some (e, w')) : (x.follow op w').Sound := by
  have hsound : w'.Sound := hx.system.step hminds (by simp [System.step, hexec])
  refine ⟨hsound, ?_⟩
  cases op with
  | kernel o =>
    refine hx.counted.stopped fun u hdead => ?_
    obtain ⟨⟨e', k'⟩, hk', ⟨⟩⟩ := map_eq_some_iff.mp hexec
    rcases (exec_moves hx.system.coherent hminds.1 hk').sinks (by simp [hcreates o rfl])
      (.inl hdead) with h | ⟨h, -⟩
    · exact h
    · exact absurd hdead h
  | vmopFree vm =>
    rw [System.exec] at hexec
    split at hexec
    · obtain ⟨me, -, hfree⟩ := bind_eq_some_iff.mp hexec
      obtain rfl | ⟨b, -, -, -, rfl⟩ := System.vmopFree_cases hfree
      all_goals exact hx.counted
    · simp at hexec
  | setCpusInts b numInts =>
    rw [System.exec] at hexec
    split at hexec
    · obtain ⟨me, -, hset⟩ := bind_eq_some_iff.mp hexec
      obtain ⟨hvm, hst⟩ := setCpusInts_status hx.system hset
      refine hx.counted.congr hst rfl fun u hu => ?_
      refine if_neg ?_
      rintro ⟨⟨hfree, -⟩, hub⟩
      rw [hvm] at hub
      exact hu (hx.system.dead u (hub ▸ hfree))
    · simp at hexec

omit fι in
theorem vmopBoot_cases {pc sp arg1 prio vm : ℕ}
    (hboot : x.vmopBoot pc sp arg1 prio vm me = some (e, x')) : x' = x ∨ ∃ b,
      x.create pc sp arg1 prio b me = some (e, x') ∧
      x.system.machine.vmidx (x.system.machine.vmblock me) = (x.system.machine.parent b).1 ∧ ∀ asid,
        x.system.kernel.vmopBoot x.system.machine pc sp arg1 prio vm asid me =
          x.system.kernel.threadCreateNoSquash x.system.machine pc sp arg1 prio asid b me := by
  unfold Spaces.vmopBoot at hboot
  simp only at hboot
  split at hboot
  · exact .inl (Prod.mk.inj (some.inj hboot)).2.symm
  next hvm =>
  split at hboot
  · exact .inl (Prod.mk.inj (some.inj hboot)).2.symm
  next b hb =>
  split at hboot
  · exact .inl (Prod.mk.inj (some.inj hboot)).2.symm
  next hnum =>
  refine .inr ⟨b, hboot, not_not.mp fun hne => hnum (.inl hne), fun asid => ?_⟩
  rw [Kernel.vmopBoot, if_neg hvm, hb]
  exact if_neg hnum

/-- **What a step is**: a creation, as one of the system with an answer from the table; a step that
creates nothing; or another address space for the thread. -/
theorem exec_cases {op : SpaceOp ι β} (hexec : x.exec h op = some (e, x')) : x' = x ∨
    (∃ sysop pc sp arg1 prio b me, op = .sys (.kernel sysop) ∧
      x.create pc sp arg1 prio b me = some (e, x') ∧ ∀ asid, ∃ o : Op ι β,
        o.creates x.system.machine h = sysop.creates x.system.machine h ∧
        Safe x.system.machine h o x.system.kernel ∧ x.system.kernel.enabled h o = true ∧
        x.system.kernel.perform x.system.machine h o =
          x.system.kernel.threadCreateNoSquash x.system.machine pc sp arg1 prio asid b me) ∨
    (∃ sysop w', op = .sys sysop ∧ x' = x.follow sysop w' ∧
      x.system.exec h sysop = some (e, w') ∧
      ∀ o, sysop = .kernel o → o.creates x.system.machine h x.system.kernel = none) ∨
    ∃ r00 r01 r02 r03 me, op = .newmap r00 r01 r02 r03 ∧ x.system.kernel.hw.sgp h = some me ∧
      x' = (x.newmap r00 r01 r02 r03 me).2 := by
  unfold Spaces.exec at hexec
  simp only at hexec
  split at hexec
  · next pc sp arg1 prio flag =>
    split at hexec
    · next hen =>
      obtain ⟨me, hme, hcreate⟩ := bind_eq_some_iff.mp hexec
      exact .inr (.inl ⟨_, pc, sp, arg1, prio, _, me, rfl, hcreate, fun asid =>
        ⟨.trap (.create pc sp arg1 prio asid), rfl, fun _ _ => trivial, hen, by
          rw [Kernel.perform, hme]; rfl⟩⟩)
    · simp at hexec
  · next pc sp arg1 prio vm flag =>
    split at hexec
    · next hen =>
      obtain ⟨me, hme, hboot⟩ := bind_eq_some_iff.mp hexec
      rcases vmopBoot_cases hboot with rfl | ⟨b, hcreate, -, hkernel⟩
      · exact .inl rfl
      · exact .inr (.inl ⟨_, pc, sp, arg1, prio, b, me, rfl, hcreate, fun asid =>
          ⟨.trap (.vmopBoot pc sp arg1 prio vm asid), rfl, fun _ _ => trivial, hen, by
            rw [Kernel.perform, hme]; exact hkernel asid⟩⟩)
    · simp at hexec
  · next op hcreate hboot =>
    obtain ⟨⟨e', w'⟩, hw', hmk⟩ := map_eq_some_iff.mp hexec
    obtain ⟨rfl, rfl⟩ := Prod.mk.inj hmk
    refine .inr (.inr (.inl ⟨op, w', rfl, rfl, hw', fun o ho => ?_⟩))
    subst ho
    unfold Op.creates
    split
    · exact absurd rfl (hcreate _ _ _ _ _)
    · exact absurd rfl (hboot _ _ _ _ _ _)
    · rfl
  · next r00 r01 r02 r03 =>
    split at hexec
    · obtain ⟨me, hme, hnewmap⟩ := bind_eq_some_iff.mp hexec
      rw [some.injEq] at hnewmap
      exact .inr (.inr (.inr ⟨r00, r01, r02, r03, me, rfl, hme, by rw [hnewmap]⟩))
    · simp at hexec

theorem Sound.step (hx : x.Sound) {a : ℕ × SpaceOp ι β} (hminds : x.Minds a)
    (hstep : x.step a = some x') : x'.Sound := by
  obtain ⟨h, op⟩ := a
  obtain ⟨⟨e, x'⟩, hexec, rfl⟩ := map_eq_some_iff.mp hstep
  rcases exec_cases hexec with rfl | ⟨sysop, pc, sp, arg1, prio, b, me, rfl, hcreate, hop⟩ |
    ⟨sysop, w', rfl, rfl, hw', hcreates⟩ | ⟨r00, r01, r02, r03, me, rfl, hme, rfl⟩
  · exact hx
  · refine hx.create (fun asid e k' hk' => ?_) hcreate
    obtain ⟨o, hcreates, hsafe, hen, hperform⟩ := hop asid
    have hperform' := hperform.trans hk'
    refine sound_adopt hx.system hen ⟨hsafe, fun b hb => hminds.2 b ?_⟩ hperform'
    exact (congrFun hcreates _).symm.trans hb
  · exact hx.follow hminds hcreates hw'
  · exact hx.newmap hme r00 r01 r02 r03

/-- The boot thread has the one reference there is. -/
theorem sound_boot {M : Machine ι β} {timerIntnum : ℕ} {mask : BitVec 32} {cluster : Cluster ι}
    {bootvm : β} {bootOffset : BitVec 32} (hmask : mask.getLsbD 0 = true)
    (hmax : M.maxCpus bootvm ≤ h2kIdMaxCpus)
    (hboot : Spaces.boot M timerIntnum mask cluster bootvm bootOffset = some (e, x)) : x.Sound := by
  obtain ⟨⟨e', w⟩, hw, hrest⟩ := bind_eq_some_iff.mp hboot
  have hsound := System.sound_boot hmask hmax hw
  obtain ⟨⟨e'', k⟩, hk, ⟨⟩⟩ := map_eq_some_iff.mp hw
  obtain ⟨boot, hcontext, hst, -⟩ := boot_runs hk
  have hcontext' : M.context bootvm (M.maxCpus bootvm - 1) = some boot := hcontext
  rcases hinc : AsidTable.zeroed.inc bootOffset transTypeOffset 0 1 with ⟨_ | j, table⟩
  · rw [hinc] at hrest
    simp at hrest
  rw [hinc, hcontext'] at hrest
  cases hrest
  refine ⟨hsound, ?_⟩
  have hnone : Asids.Counted (Kernel.reset M timerIntnum mask cluster)
      (⟨.zeroed, fun _ => 0⟩ : Asids ι) := by
    intro s
    have husers : Asids.users (Kernel.reset M timerIntnum mask cluster)
        (⟨.zeroed, fun _ => 0⟩ : Asids ι) s = ∅ :=
      filter_eq_empty_iff.mpr fun t _ ht => ht.1 rfl
    rw [husers]
    rfl
  refine hnone.born rfl ?_ (fun u hu => ?_) (AsidTable.count_inc hinc)
  · simp [hst]
  · simp [hst, hu, Kernel.reset, Sched.reset, Sched.init]

/-! ## A step keeps what is used -/

/-- Asking for an address space leaves those with a reference as they are. -/
theorem key_inc_of_count {table table' : AsidTable} {ptb : BitVec 32} {vmidx type : ℕ}
    {extra : BitVec 8} {j : BitVec 7}
    (hinc : AsidTable.inc ptb type extra vmidx table = (some j, table')) {s : BitVec 7}
    (hcount : (table s).count ≠ 0) : (table' s).key = (table s).key := by
  by_cases hs : s = j
  · subst hs
    obtain ⟨-, ⟨-, rfl⟩ | ⟨-, evicted, hevict, -⟩⟩ := AsidTable.inc_some hinc
    · simp [AsidEntry.key]
    · exact absurd (AsidTable.eviction_some hevict).1 hcount
  · exact AsidTable.key_inc_of_ne hinc hs

omit fι in
theorem key_create {pc sp arg1 prio : ℕ} {b : β}
    (hcreate : x.create pc sp arg1 prio b me = some (e, x'))
    {s : BitVec 7} (hcount : (x.asids.table s).count ≠ 0) :
    (x'.asids.table s).key = (x.asids.table s).key := by
  obtain ⟨⟨e₁, k', a'⟩, hk', ⟨⟩⟩ := map_eq_some_iff.mp hcreate
  obtain ⟨-, ⟨-, rfl⟩ | ⟨-, ptb, type, extra, j, table, -, hinc, rfl, -⟩⟩ := threadCreate_cases hk'
  · rfl
  · exact key_inc_of_count hinc hcount

/-- **A step gives away no place with a reference.** -/
theorem key_step {a : ℕ × SpaceOp ι β} (hstep : x.step a = some x') {s : BitVec 7}
    (hcount : (x.asids.table s).count ≠ 0) : (x'.asids.table s).key = (x.asids.table s).key := by
  obtain ⟨⟨e, x'⟩, hexec, rfl⟩ := map_eq_some_iff.mp hstep
  rcases exec_cases hexec with rfl | ⟨sysop, pc, sp, arg1, prio, b, me, -, hcreate, -⟩ |
    ⟨sysop, w', -, rfl, -, -⟩ | ⟨r00, r01, r02, r03, me, -, -, rfl⟩
  · rfl
  · exact key_create hcreate hcount
  · unfold Spaces.follow
    split <;> rfl
  · rcases Mmu.vmtrapNewmap_cases r00 r01 r02 r03
      (x.system.machine.vmidx (x.system.machine.vmblock me)) (x.asids.ssrAsid me)
      ⟨x.asids.table, fun _ => 0, none⟩ with ⟨m', htable, -, hmk⟩ |
      ⟨j, table, m', hinc, htable, hmk⟩
    · simp only [Spaces.newmap, hmk, htable]
    · simp only [Spaces.newmap, hmk, htable]
      rw [(AsidTable.dec_same _ table s).1]
      exact key_inc_of_count hinc hcount

end Steps

end Spaces

open Spaces

/-- **References are counted** exactly as long as no address space has 4096 users.  Then one that is
used is not given away. -/
theorem asidCount_eq_users_iff (M : Machine ι β) (timerIntnum : ℕ) (mask : BitVec 32)
    (cluster : Cluster ι) (bootvm : β) (bootOffset : BitVec 32) (hmask : mask.getLsbD 0 = true)
    (hmax : M.maxCpus bootvm ≤ h2kIdMaxCpus) {e : Exit} {x₀ x : Spaces ι β}
    (hboot : boot M timerIntnum mask cluster bootvm bootOffset = some (e, x₀))
    (hx : Leads step (fun a x => x.Minds a) x₀ x) :
    ((∀ s, (x.asids.table s).count.toNat = (x.asids.users x.system.kernel s).card) ↔
      ∀ s, (x.asids.users x.system.kernel s).card < 4096) ∧
    ∀ s, (x.asids.users x.system.kernel s).Nonempty →
      (x.asids.users x.system.kernel s).card < 4096 →
      ∀ a x', x.step a = some x' → (x'.asids.table s).key = (x.asids.table s).key := by
  have hsound : x.Sound := hx.invariant (sound_boot hmask hmax hboot)
    fun hx hminds hstep => hx.step hminds hstep
  have hcount (s : BitVec 7) : (x.asids.table s).count.toNat =
      (x.asids.users x.system.kernel s).card % 4096 := by
    rw [hsound.counted s, BitVec.toNat_ofNat]
  refine ⟨forall_congr' fun s => ?_, fun s hne hlt a x' hstep => key_step hstep fun hzero => ?_⟩
  · rw [hcount]
    omega
  · have hpos := card_pos.mpr hne
    have hmod := hcount s
    rw [hzero, Nat.mod_eq_of_lt hlt] at hmod
    exact hpos.ne hmod

/-! ## A VM of 4096 cpus -/

/-- The table in which only the identity is used, by so many threads. -/
def crowdTable (n : ℕ) : AsidTable :=
  update AsidTable.zeroed 22
    { ptb := identityOffset, count := BitVec.ofNat 12 n, vmid := 1, type := 2, logMaxhops := 0,
      extra := 0 }

theorem crowdTable_inc (n : ℕ) :
    (crowdTable n).inc identityOffset transTypeOffset 0 1 = (some 22, crowdTable (n + 1)) := by
  have htable : update (crowdTable n) 22
      { crowdTable n 22 with count := (crowdTable n 22).count + 1 } = crowdTable (n + 1) := by
    simp [crowdTable, BitVec.ofNat_add]
  exact congrArg _ htable

theorem zeroed_inc :
    AsidTable.zeroed.inc identityOffset transTypeOffset 0 1 = (some 22, crowdTable 1) := by
  have hsearch : AsidTable.zeroed.search identityOffset 1 transTypeOffset = none := rfl
  have hevict : AsidTable.zeroed.eviction identityOffset =
      (some 22, update AsidTable.zeroed 22 (AsidTable.zeroed 22)) := rfl
  rw [AsidTable.inc, AsidTable.doInc, hevict, update_eq_self]
  rfl

omit fι in
theorem threadCreateNoSquash_made {M : Machine ι β} {k : Kernel ι β} {pc sp prio : ℕ} {b : β}
    {tmp : ι} (arg1 : ℕ) (me : ι)
    (hgood : ¬(maxPrio < prio ∨ prio < M.bestprio b ∨ sp % 8 ≠ 0 ∨ pc % 4 ≠ 0))
    (hfree : k.sched.freeThreads b = some tmp) :
    ∃ e k', k.threadCreateNoSquash M pc sp arg1 prio true b me = some (e, k') ∧
      k'.sched.status = update k.sched.status tmp .ready ∧
      k'.vms.numCpus = update k.vms.numCpus b ((k.vms.numCpus b + 1) % 0x100000000) ∧
      k'.vms.freed = k.vms.freed ∧ k'.hw.sgp = k.hw.sgp ∧ k'.hw.latched = k.hw.latched ∧
      k'.hw.hung = k.hw.hung ∧ k'.hw.hthreadsMask = k.hw.hthreadsMask := by
  unfold Kernel.threadCreateNoSquash
  rw [if_neg hgood, hfree]
  refine ⟨_, _, rfl, rfl, rfl, rfl, ?_⟩
  simp only [Kernel.checkSanity]
  rw [Hw.checkSanity_eq]
  exact ⟨rfl, rfl, rfl, rfl⟩

/-- In the boot VM `n` threads live, all in the identity, and the first of them runs. -/
structure Crowd (N n : ℕ) (x : Spaces (Fin (N + 1)) Unit) : Prop where
  sound : x.Sound
  machine : x.system.machine = (oneVm N).alone ()
  allocated : x.system.allocated () = true
  enabled : x.system.kernel.enabled 0 (.trap .yield) = true
  sgp : x.system.kernel.hw.sgp 0 = some (Fin.last N)
  numCpus : x.system.kernel.vms.numCpus () = n
  table : x.asids.table = crowdTable n
  ssrAsid : ∀ t, x.system.kernel.sched.status t ≠ .dead → x.asids.ssrAsid t = 22

namespace Crowd

variable {N n : ℕ} {x : Spaces (Fin (N + 1)) Unit}

theorem status_ne_dead (hx : Crowd N n x) : x.system.kernel.sched.status (Fin.last N) ≠ .dead := by
  simp [(hx.sound.system.coherent.running hx.sgp).1]

theorem vmidx_eq (hx : Crowd N n x) : x.system.machine.vmidx () = 1 := by
  rw [hx.machine]
  simp [Machine.alone]

theorem card_users (hx : Crowd N n x) : (x.asids.users x.system.kernel 22).card = n := by
  have husers : x.asids.users x.system.kernel 22 = x.system.kernel.live x.system.machine () := by
    refine filter_congr fun t _ => ?_
    exact ⟨fun h => ⟨rfl, h.1⟩, fun h => ⟨h.2, hx.ssrAsid t h.2⟩⟩
  have hlt := hx.sound.system.maxCpus_le () hx.allocated
  rw [h2kIdMaxCpus] at hlt
  rw [husers, ← hx.sound.system.census.numCpus_eq (by omega), hx.numCpus]

/-- One more is created. -/
theorem create (hx : Crowd N n x) (hpos : 0 < n) (hn : n ≤ N) : ∃ x',
    x.step (0, .sys (.kernel (.trap (.create 0 0 0 maxPrio true)))) = some x' ∧
      Crowd N (n + 1) x' := by
  have hmax := hx.sound.system.maxCpus_le () hx.allocated
  rw [h2kIdMaxCpus] at hmax
  have hmax' : x.system.machine.maxCpus () = N + 1 := by rw [hx.machine]; rfl
  obtain ⟨F, hF, -, -, -, hlen⟩ := hx.sound.system.census.accounts hx.sound.system.coherent
    (b := ()) (by omega)
  rw [hx.numCpus] at hlen
  obtain ⟨tmp, hfree⟩ : ∃ tmp, x.system.kernel.sched.freeThreads () = some tmp := by
    cases F with
    | nil => simp at hlen; omega
    | cons t F => exact ⟨t, hF.1⟩
  have hgood : ¬(maxPrio < maxPrio ∨ maxPrio < x.system.machine.bestprio () ∨ 0 % 8 ≠ 0 ∨
      0 % 4 ≠ 0) := by
    simp [hx.machine, Machine.alone, oneVm]
  have hinherit : x.asids.inherit (x.system.kernel.vms.numCpus () = 0) (Fin.last N) =
      (identityOffset, transTypeOffset, 0) := by
    simp [Asids.inherit, hx.numCpus, hpos.ne', hx.ssrAsid _ hx.status_ne_dead, hx.table,
      crowdTable, transTypeOffset]
  obtain ⟨e, k', hk', hstatus, hnumCpus, hfreed, hhw⟩ := threadCreateNoSquash_made 0 (Fin.last N)
    hgood hfree
  have hcreate : x.system.kernel.threadCreate x.system.machine 0 0 0 maxPrio ()
      (Fin.last N) x.asids = some (e, k', ⟨crowdTable (n + 1), update x.asids.ssrAsid tmp 22⟩) := by
    rw [Kernel.threadCreate, if_neg hgood, hfree]
    simp only [hinherit, hx.table, hx.vmidx_eq, crowdTable_inc, hk', map_some]
  have hstep : x.step (0, .sys (.kernel (.trap (.create 0 0 0 maxPrio true)))) =
      some ⟨Spaces.adopt k' x.system, crowdTable (n + 1), update x.asids.ssrAsid tmp 22⟩ := by
    simp only [Spaces.step, Spaces.exec, hx.enabled, if_true, hx.sgp, bind_some, Spaces.create,
      hcreate, map_some]
  refine ⟨_, hstep, hx.sound.step ?_ hstep, hx.machine, ?_, ?_, ?_, ?_, rfl, ?_⟩
  · exact ⟨fun _ _ => trivial, fun _ _ => hx.allocated⟩
  · simp [Spaces.adopt, hx.allocated, hfreed, hx.sound.system.fresh () hx.allocated]
  · rw [← hx.enabled]
    simp [Spaces.adopt, Kernel.enabled, hhw]
  · simp [Spaces.adopt, hhw, hx.sgp]
  · simp only [Spaces.adopt, hnumCpus, hx.numCpus, update_self]
    omega
  · intro t ht
    by_cases htmp : t = tmp
    · simp [htmp]
    · simp only [Spaces.adopt, hstatus, update_of_ne htmp] at ht
      simp [htmp, hx.ssrAsid t ht]

/-- … until so many live. -/
theorem leads (hx : Crowd N 1 x) : ∀ n ≤ N,
    ∃ x', Leads step (fun a x => x.Minds a) x x' ∧ Crowd N (n + 1) x'
  | 0, _ => ⟨x, .init, hx⟩
  | n + 1, hn => by
    obtain ⟨x₁, hleads, hx₁⟩ := leads hx n (by omega)
    obtain ⟨x₂, hstep, hx₂⟩ := hx₁.create (Nat.succ_pos n) hn
    have hminds : x₁.Minds (0, .sys (.kernel (.trap (.create 0 0 0 maxPrio true)))) :=
      ⟨fun _ _ => trivial, fun _ _ => hx₁.allocated⟩
    exact ⟨x₂, hleads.step hminds hstep, hx₂⟩

end Crowd

/-- The boot VM starts with one. -/
theorem crowd_boot {N : ℕ} (hN : N < 65536) : ∃ e x₀,
    boot (oneVm N) 3 1#32 .off () identityOffset = some (e, x₀) ∧ Crowd N 1 x₀ := by
  have hcontext : ((oneVm N).alone ()).context () (((oneVm N).alone ()).maxCpus () - 1) =
      some (Fin.last N) := by
    simp [Machine.alone, oneVm, Fin.last]
  obtain ⟨e, k, hk, hst, hnum, hfreed, hsgp, hlatched, hhung, hmask⟩ :=
    boot_eq_some ((oneVm N).alone ()) 3 1#32 .off hcontext
  have hboot : boot (oneVm N) 3 1#32 .off () identityOffset = some (e,
      ⟨⟨(oneVm N).alone (), k, fun b => b == () && !k.vms.freed b⟩, crowdTable 1,
        update (fun _ => 0) (Fin.last N) 22⟩) := by
    have hcontext' : (oneVm N).context () ((oneVm N).maxCpus () - 1) = some (Fin.last N) := hcontext
    simp only [boot, System.boot, hk, map_some, bind_some, zeroed_inc, hcontext']
  refine ⟨e, _, hboot, sound_boot (by decide) ?_ hboot, rfl, ?_, ?_, ?_, ?_, rfl, ?_⟩
  · rw [h2kIdMaxCpus]
    exact hN
  · simp [hfreed]
  · simp [Kernel.enabled, hhung, hmask, hsgp, hlatched]
  · simp [hsgp]
  · simp [hnum]
  · intro t ht
    by_cases hlast : t = Fin.last N
    · simp [hlast]
    · simp [hst, hlast] at ht

/-- Two threads share the identity: two references. -/
theorem asidCount_eq_users_pair : ∃ e x₀ x,
    boot (oneVm 1) 3 1#32 .off () identityOffset = some (e, x₀) ∧
    Leads step (fun a x => x.Minds a) x₀ x ∧
    (x.asids.users x.system.kernel 22).card = 2 ∧
    ∀ a x', x.step a = some x' → (x'.asids.table 22).key = (x.asids.table 22).key := by
  obtain ⟨e, x₀, hboot, hx₀⟩ := crowd_boot (N := 1) (by decide)
  obtain ⟨x, hleads, hx⟩ := hx₀.leads 1 le_rfl
  refine ⟨e, x₀, x, hboot, hleads, hx.card_users, ?_⟩
  refine (asidCount_eq_users_iff (oneVm 1) 3 1#32 .off () identityOffset (by decide)
    (by decide) hboot hleads).2 22 (card_pos.mp ?_) ?_ <;> rw [hx.card_users] <;> decide

/-- **A count that wraps**: the boot VM has 4096 cpus and starts a thread on each.  All 4096 share
the identity, which has no reference left; the first to map a table gets its place for it. -/
theorem asidCount_wraps : ∃ e x₀ x x',
    boot (oneVm 4095) 3 1#32 .off () identityOffset = some (e, x₀) ∧
    Leads step (fun a x => x.Minds a) x₀ x ∧
    (x.asids.users x.system.kernel 22).card = 4096 ∧ (x.asids.table 22).count = 0 ∧
    x.step (0, .newmap 0x47000 0 0 0) = some x' ∧
    x'.asids.users x'.system.kernel 22 = x.asids.users x.system.kernel 22 ∧
    (x.asids.table 22).key = ⟨identityOffset, 1, 2⟩ ∧
      (x'.asids.table 22).key = ⟨0x47000, 1, 0⟩ := by
  obtain ⟨e, x₀, hboot, hx₀⟩ := crowd_boot (N := 4095) (by decide)
  obtain ⟨x, hleads, hx⟩ := hx₀.leads 4095 le_rfl
  have htable : x.asids.table = crowdTable 0 := hx.table
  have hidx := hx.vmidx_eq
  have hssr := hx.ssrAsid _ hx.status_ne_dead
  have hstep : x.step (0, .newmap 0x47000 0 0 0) =
      some (x.newmap 0x47000 0 0 0 (Fin.last 4095)).2 := by
    simp only [step, exec, hx.enabled, if_true, hx.sgp, bind_some, map_some]
  have hmap : (Mmu.vmtrapNewmap 0x47000 0 0 0 1 22 ⟨crowdTable 0, fun _ => 0, none⟩).ssrAsid = 22 ∧
      ((Mmu.vmtrapNewmap 0x47000 0 0 0 1 22 ⟨crowdTable 0, fun _ => 0, none⟩).mmu.table 22).key =
        ⟨0x47000, 1, 0⟩ := by decide +kernel
  refine ⟨e, x₀, x, _, hboot, hleads, hx.card_users, ?_, hstep, ?_, ?_, ?_⟩
  · rw [htable]
    rfl
  · have hsame : (x.newmap 0x47000 0 0 0 (Fin.last 4095)).2.asids.ssrAsid = x.asids.ssrAsid := by
      simp only [newmap, hidx, hssr, htable, hmap.1]
      rw [← hssr, update_eq_self]
    simp only [Asids.users, hsame]
    rfl
  · rw [htable]
    rfl
  · simp only [newmap, hidx, hssr, htable, hmap.2]

end H2
