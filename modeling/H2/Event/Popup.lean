import H2.Sched.Dosched

/-!
# Event/Popup — threads that wait for hardware interrupts

A thread waits for one interrupt of its own (popup) or, with others of its VM, for any of several
(intpool).  The interrupt takes over the hardware thread it arrives on for the thread it wakes.  The
push goes to the slot the thread last ran in, `hthread`, which neither handler sets: the takeover is
sound exactly where that is the hardware thread that took the interrupt.
-/

namespace H2

open Kernel Function

variable {ι β : Type} [dι : DecidableEq ι] [dβ : DecidableEq β] [fι : Fintype ι]

namespace Kernel

/-- The end of `H2K_popup_int` and `H2K_intpool_int`: the woken thread takes over. -/
def takeOver (M : Machine ι β) (h : ℕ) (woken : ι) (k : Kernel ι β) : Option (Exit × Kernel ι β) :=
  let k := k.makeWay h
  { k with
    hw := { k.hw with priomask := k.hw.priomask &&& ~~~(1#32 <<< h) }.changeImask h (-1)
    sched := k.sched.runlistPush woken }.switch M woken h

/-- `H2K_popup_int`; the parameter is never null. -/
def popupInt (M : Machine ι β) (intnum h : ℕ) (woken : ι) (k : Kernel ι β) :
    Option (Exit × Kernel ι β) :=
  { k with sched := k.sched.writeHandler intnum .null }.takeOver M h woken

/-- `H2K_popup_wait` by the thread of hardware thread `h`. -/
def popupWait (M : Machine ι β) (intnum : ℕ) (me : ι) (h : ℕ) (k : Kernel ι β) :
    Option (Exit × Kernel ι β) :=
  if maxInterrupts ≤ intnum then some (.returned (-1), k)
  else if intnum = l2CoreInterrupt then some (.returned (-1), k)
  else if k.threads.vmwork me then
    (k.vmDoWorkWithlock M me h).map fun p => (p.1.andReturn (-1), p.2)
  else if k.sched.inthandlers intnum ≠ .null then some (.returned (-1), k)
  else
    { k with sched :=
        (((k.sched.writeHandler intnum (.popup me)).runlistRemove me).setStatus me
          .intblocked).setR00 me intnum }.dosched M (k.sched.hthread me)

/-- `H2K_intpool_int`. -/
def intpoolInt (M : Machine ι β) (intnum h : ℕ) (vmblock : β) (k : Kernel ι β) :
    Option (Exit × Kernel ι β) :=
  match k.sched.rings.head (.intpool vmblock) with
  | none =>
    some (.returned 0, { k with
      ints := { k.ints with
        intpoolPending := update k.ints.intpoolPending vmblock
          (update (k.ints.intpoolPending vmblock) intnum true)
        intpoolAnypending := update k.ints.intpoolAnypending vmblock true } })
  | some woken =>
    { k with
      sched := { k.sched with rings := k.sched.rings.remove (.intpool vmblock) woken }.setR00 woken
        intnum }.takeOver M h woken

/-- The rest of `H2K_intpool_wait` when no interrupt is pending for the pool. -/
def intpoolBlock (M : Machine ι β) (me : ι) (k : Kernel ι β) : Option (Exit × Kernel ι β) :=
  let s := k.sched.runlistRemove me
  { k with
    sched := ({ s with rings := s.rings.append (.intpool (M.vmblock me)) me }.setStatus me
      .intblocked).setR00 me u32Max }.dosched M (k.sched.hthread me)

/-- `H2K_intpool_wait` by the thread of hardware thread `h`. -/
def intpoolWait (M : Machine ι β) (me : ι) (h : ℕ) (k : Kernel ι β) : Option (Exit × Kernel ι β) :=
  let b := M.vmblock me
  if k.threads.vmwork me then
    (k.vmDoWorkWithlock M me h).map fun p => (p.1.andReturn (-1), p.2)
  else if k.ints.intpoolAnypending b then
    match (List.range maxInterrupts).find? (k.ints.intpoolPending b) with
    | some intno =>
      some (.returned intno, { k with
        ints := { k.ints with
          intpoolPending := update k.ints.intpoolPending b
            (update (k.ints.intpoolPending b) intno false) } })
    | none =>
      { k with
        ints := { k.ints with
          intpoolAnypending := update k.ints.intpoolAnypending b false } }.intpoolBlock M me
  else k.intpoolBlock M me

/-- `H2K_intpool_configure`. -/
def intpoolConfigure (M : Machine ι β) (intno : ℕ) (enable : Bool) (me : ι) (k : Kernel ι β) :
    Option (Exit × Kernel ι β) :=
  some (.returned 0, { k with
    sched := k.sched.writeHandler intno (if enable then .intpool (M.vmblock me) else .null) })

end Kernel

/-! ## Taking over -/

/-- A thread that waited for an interrupt, in hand; it was last on the hardware thread it takes
over. -/
structure TakenOver (M : Machine ι β) (h : ℕ) (woken : ι) (k : Kernel ι β) (s : Sched ι β) : Prop
    where
  inHand : InHand M s woken
  agreeOff : AgreeOff woken k.sched s
  runlist : s.runlist = k.sched.runlist
  hthread : s.hthread woken = h
  intblocked : k.sched.status woken = .intblocked
  handlers : ∀ i, s.inthandlers i = k.sched.inthandlers i ∨ s.inthandlers i = .null
  queue : ∀ v, s.queue (.futex v) = k.sched.queue (.futex v)

section TakeOver

variable {M : Machine ι β} {k : Kernel ι β} {h : ℕ} {woken : ι} {s : Sched ι β}

omit dβ in
theorem TakenOver.sgp_ne (hs : TakenOver M h woken k s) (hc : Coherent M k) :
    k.hw.sgp h ≠ some woken := fun e => by simpa [hs.intblocked] using (hc.running e).1

omit dβ fι in
theorem runlistPush_setStatus (s : Sched ι β) (t : ι) (v : Status) :
    (s.setStatus t v).runlistPush t = s.runlistPush t := by
  simp [Sched.setStatus, Sched.runlistPush]

omit fι in
/-- Making way does not touch the status of a thread that does not run. -/
theorem makeWay_setStatus {v : Status} (hne : k.hw.sgp h ≠ some woken) :
    ({ k with sched := s.setStatus woken v }.makeWay h).sched =
      ({ k with sched := s }.makeWay h).sched.setStatus woken v := by
  unfold makeWay
  rcases hsgp : k.hw.sgp h with - | me
  · rfl
  · have hme : me ≠ woken := fun e => hne (e ▸ hsgp)
    simp only [Sched.setStatus, Sched.readyAppend, Sched.runlistRemove, update_comm hme]

omit dβ in
/-- For the moment a thread in hand is as good as in VMWAIT. -/
theorem TakenOver.coherent (hs : TakenOver M h woken k s) (hc : Coherent M k) :
    Coherent M { k with sched := s.setStatus woken .vmwait } := by
  have ha := hs.agreeOff
  refine ⟨(hs.inHand.setStatus .vmwait).vmwait (update_self ..), fun h' => ?_,
    fun {h' t} ht => hc.started (hs.runlist ▸ ht), ?_⟩
  · rw [hc.executes, ← hs.runlist]
    rfl
  · refine hc.parents.of_agreeOff (t := woken) ?_ (fun _ _ => id) fun _ _ hpool => ?_
    · exact ⟨fun u hu => by simp [hu, ha.status u hu], ha.prio, ha.hthread, ha.futexPtr, ha.r00⟩
    · simp [PoolBlocked] at hpool

/-- The state `takeOver` switches in. -/
def Kernel.pushWoken (h : ℕ) (woken : ι) (k : Kernel ι β) : Kernel ι β :=
  { k.makeWay h with
    hw := { (k.makeWay h).hw with
      priomask := (k.makeWay h).hw.priomask &&& ~~~(1#32 <<< h) }.changeImask h (-1)
    sched := (k.makeWay h).sched.runlistPush woken }

theorem pushWoken_coherent (hc : Coherent M k) (hon : k.hw.hthreadsMask.getLsbD h = true)
    (hs : TakenOver M h woken k s) :
    Coherent M ((({ k with sched := s } : Kernel ι β).pushWoken h woken).switchTo woken h) ∧
      SameConfig k ((({ k with sched := s } : Kernel ι β).pushWoken h woken).switchTo woken h) ∧
      Elsewhere h k ((({ k with sched := s } : Kernel ι β).pushWoken h woken).switchTo
        woken h) := by
  set k₁ : Kernel ι β := { k with sched := s.setStatus woken .vmwait } with hk₁
  have hc₁ : Coherent M k₁ := hs.coherent hc
  obtain ⟨hb, hcfg, helse⟩ := makeWay_between hc₁ hon
  have hsched : (k₁.makeWay h).sched = ({ k with sched := s }.makeWay h).sched.setStatus woken
      .vmwait := makeWay_setStatus (hs.sgp_ne hc)
  set k₂ := ({ k with sched := s } : Kernel ι β).makeWay h with hk₂
  have hhw : (k₁.makeWay h).hw = k₂.hw := (makeWay_hw h k _).trans (makeWay_hw h k s).symm
  have hhand : InHand M (k₁.makeWay h).sched woken := by
    refine hb.placed.vmwait ?_
    rw [hsched]
    exact update_self ..
  have hhthread : (k₁.makeWay h).sched.hthread woken = h := by
    rw [makeWay_hthread]
    exact hs.hthread
  set k₃ := ({ k with sched := s } : Kernel ι β).pushWoken h woken with hk₃
  have hframe : SameConfig (k₁.makeWay h) (k₃.switchTo woken h) ∧
      Elsewhere h (k₁.makeWay h) (k₃.switchTo woken h) := by
    refine ⟨⟨by rw [hhw]; rfl, by rw [hhw]; rfl, ?_, by rw [hhw]; rfl, by rw [hhw]; exact id⟩,
      fun h' hh => ?_, fun _ _ => by rw [hhw]; rfl⟩
    · simp [hk₃, hk₁, switchTo, pushWoken]
    · rw [hhw]
      exact update_of_ne hh ..
  have hc₃ : Coherent M (k₃.switchTo woken h) := by
    refine hb.enter hhand (.refl woken _) rfl hhthread ?_ ?_ hframe.1 ?_
    · rw [hsched, runlistPush_setStatus]
      rfl
    · rw [hhw]
      rfl
    · simp [hk₃, hk₁, switchTo, pushWoken]
  refine ⟨hc₃, ?_, ?_⟩
  · exact ((⟨rfl, rfl, rfl, rfl, id⟩ : SameConfig k k₁).trans hcfg).trans hframe.1
  · exact ((Elsewhere.of_eq rfl rfl : Elsewhere h k k₁).trans helse).trans hframe.2

theorem takeOver_ends (hc : Coherent M k) (hon : k.hw.hthreadsMask.getLsbD h = true)
    (hs : TakenOver M h woken k s) :
    Ends (After M h k) ({ k with sched := s }.takeOver M h woken) := by
  obtain ⟨hc₃, hcfg, helse⟩ := pushWoken_coherent hc hon hs
  exact (switch_ends hc₃).mono fun k' hk' => (hk'.of_config hcfg helse).after

end TakeOver

/-! ## The operations -/

section Operations

variable {M : Machine ι β} {k : Kernel ι β} {h : ℕ} {me : ι}

omit dβ in
/-- A popup interrupt whose handler still stands, taken where the thread last ran. -/
theorem popupInt_takenOver (hs : Placed M k.sched) {intnum : ℕ} {woken : ι}
    (hentry : k.sched.inthandlers intnum = .popup woken) (hth : k.sched.hthread woken = h) :
    TakenOver M h woken k (k.sched.writeHandler intnum .null) := by
  obtain ⟨hst, hr, rfl⟩ := place_eq_popup.mp (hs.holds.popup.mp hentry)
  rw [Sched.writeHandler_eq hr]
  refine ⟨hs.clearPopup hst hr (by simp), { AgreeOff.refl _ _ with }, rfl, hth, hst, fun i => ?_,
    fun _ => rfl⟩
  by_cases hi : i = k.sched.r00 woken
  · exact .inr (by simp [hi])
  · exact .inl (by simp [hi])

/-- An intpool interrupt for a pool whose first thread last ran where it is taken. -/
theorem intpoolInt_takenOver (hs : Placed M k.sched) (intnum : ℕ) {b : β} {woken : ι}
    (hhead : k.sched.rings.head (.intpool b) = some woken) (hth : k.sched.hthread woken = h) :
    TakenOver M h woken k ({ k.sched with
      rings := k.sched.rings.remove (.intpool b) woken }.setR00 woken intnum) := by
  have hplace := hs.holds.of_head hhead
  refine ⟨(hs.remove hplace (by simp)).setR00 intnum, ?_, rfl, hth, (place_eq_intpool.mp hplace).1,
    fun _ => .inl rfl, fun v => ?_⟩
  · exact { AgreeOff.refl woken k.sched with r00 := fun u hu => by simp [hu] }
  · have hqueue : (({ k.sched with rings := k.sched.rings.remove (.intpool b) woken } :
        Sched ι β).setR00 woken intnum).queue = _ := hs.queue_remove hplace
    rw [hqueue, update_of_ne (by simp)]

theorem intpoolInt_ends (hc : Coherent M k) (hon : k.hw.hthreadsMask.getLsbD h = true)
    (intnum : ℕ) {b : β}
    (hth : ∀ woken, k.sched.rings.head (.intpool b) = some woken → k.sched.hthread woken = h) :
    Ends (After M h k) (k.intpoolInt M intnum h b) := by
  unfold intpoolInt
  split
  · exact .some (.of_sched_eq hc rfl (.of_flags rfl rfl rfl fun _ => id) id)
  · next woken hhead =>
    exact takeOver_ends hc hon (intpoolInt_takenOver hc.placed intnum hhead (hth woken hhead))

omit fι dβ in
theorem popupWait_leaves (hc : Coherent M k) (hme : k.hw.sgp h = some me) {intnum : ℕ}
    (hlt : intnum < maxInterrupts) (hnull : k.sched.inthandlers intnum = .null) :
    Leaves M h k { k with sched :=
        (((k.sched.writeHandler intnum (.popup me)).runlistRemove me).setStatus me
          .intblocked).setR00 me intnum } := by
  have hrunning := (hc.running hme).1
  rw [Sched.writeHandler_eq hlt]
  have hhand := ((hc.placed.runlistRemove hrunning).setStatus .intblocked).setR00 intnum
  refine hc.block hme (hhand.setPopup (by simp) (by simp) hlt fun u hu => ?_) ?_ rfl rfl rfl rfl
    fun _ _ hpool => ?_
  · simp only [Sched.setR00] at hu
    simp [hnull] at hu
  · exact { AgreeOff.refl me k.sched with
      status := fun u hu => by simp [hu]
      r00 := fun u hu => by simp [hu] }
  · simp only [PoolBlocked, Sched.setR00_r00, update_self] at hpool
    omega

theorem popupWait_ends (hc : Coherent M k) (hme : k.hw.sgp h = some me) (intnum : ℕ) :
    Ends (After M h k) (k.popupWait M intnum me h) := by
  unfold popupWait
  split
  · exact .some (.refl hc)
  next hlt =>
  split
  · exact .some (.refl hc)
  split
  · exact (vmDoWorkWithlock_ends hc hme).map _
  split
  · exact .some (.refl hc)
  next hnull =>
  rw [(hc.running hme).2]
  exact (popupWait_leaves hc hme (Nat.lt_of_not_le hlt) (not_not.mp hnull)).dosched.after

omit fι in
/-- Blocking in the intpool, out of reach of the VMs that would report to the thread. -/
theorem intpoolBlock_leaves (hc : Coherent M k) (hme : k.hw.sgp h = some me)
    (hie : ∀ b, M.idToContext (M.parent b) = some me → k.threads.ie me = false) :
    Leaves M h k { k with
      sched := ({ k.sched.runlistRemove me with
        rings := (k.sched.runlistRemove me).rings.append (.intpool (M.vmblock me)) me }.setStatus me
          .intblocked).setR00 me u32Max } := by
  have hrunning := (hc.running hme).1
  have hhand := ((hc.placed.runlistRemove hrunning).setStatus .intblocked).setR00 u32Max
  refine hc.block hme (hhand.append (place_eq_intpool.mpr ⟨by simp, ?_, rfl⟩) (by simp)) ?_ rfl rfl
    rfl rfl fun b hb _ => hie b hb
  · simp [maxInterrupts, u32Max]
  · exact { AgreeOff.refl me k.sched with
      status := fun u hu => by simp [hu]
      r00 := fun u hu => by simp [hu] }

theorem intpoolBlock_ends (hc : Coherent M k) (hme : k.hw.sgp h = some me)
    (hie : ∀ b, M.idToContext (M.parent b) = some me → k.threads.ie me = false) :
    Ends (Settled M h k) (k.intpoolBlock M me) := by
  unfold intpoolBlock
  rw [(hc.running hme).2]
  exact (intpoolBlock_leaves hc hme hie).dosched

theorem intpoolWait_ends (hc : Coherent M k) (hme : k.hw.sgp h = some me)
    (hie : ∀ b, M.idToContext (M.parent b) = some me → k.threads.ie me = false) :
    Ends (After M h k) (k.intpoolWait M me h) := by
  unfold intpoolWait
  simp only
  split
  · exact (vmDoWorkWithlock_ends hc hme).map _
  split
  · split
    · exact .some (.of_sched_eq hc rfl (.of_flags rfl rfl rfl fun _ => id) id)
    · set k₁ : Kernel ι β := { k with ints := { k.ints with
        intpoolAnypending := update k.ints.intpoolAnypending (M.vmblock me) false } }
      have hk₁ : After M h k k₁ := .of_sched_eq hc rfl (.of_flags rfl rfl rfl fun _ => id) id
      exact (intpoolBlock_ends hk₁.coherent hme hie).mono fun k' hk' => hk₁.trans hk'.after
  · exact (intpoolBlock_ends hc hme hie).after

omit dι dβ fι in
theorem intpoolConfigure_ends (hc : Coherent M k) {intno : ℕ} (hlt : intno < maxInterrupts)
    (hentry : ∀ u, k.sched.inthandlers intno ≠ .popup u) (enable : Bool) :
    Ends (After M h k) (k.intpoolConfigure M intno enable me) := by
  unfold intpoolConfigure
  rw [Sched.writeHandler_eq hlt]
  refine .some (.of_still hc (hc.placed.setHandler hentry ?_) ⟨?_, rfl, rfl,
    ⟨rfl, rfl, rfl, rfl, id⟩, fun _ => id⟩ (fun _ => id) id)
  · cases enable <;> simp
  · exact ⟨rfl, rfl, fun _ => .inl ⟨rfl, fun _ => rfl⟩⟩

end Operations

end H2
