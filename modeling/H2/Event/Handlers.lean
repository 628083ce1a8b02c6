import H2.Data.Places

/-!
# Event/Handlers — the interrupt handler table

The table has `MAX_INTERRUPTS` entries and no write checks its index; a write past the end is
recorded, not carried out.
-/

namespace H2

variable {ι β : Type}

namespace Sched

/-- `inthandlers[i] = e`. -/
def writeHandler (i : ℕ) (e : Inthandler ι β) (s : Sched ι β) : Sched ι β :=
  if i < maxInterrupts then { s with inthandlers := Function.update s.inthandlers i e }
  else { s with outOfBounds := true }

variable [DecidableEq ι]

/-- `H2K_popup_cancel`. -/
def popupCancel (dest : ι) (s : Sched ι β) : Sched ι β :=
  (s.writeHandler (s.r00 dest) .null).setR00 dest u32Max

end Sched

variable {M : Machine ι β} {s : Sched ι β} {t : ι}

theorem Sched.writeHandler_eq {i : ℕ} (hi : i < maxInterrupts) (e : Inthandler ι β) :
    s.writeHandler i e = { s with inthandlers := Function.update s.inthandlers i e } := if_pos hi

/-- At most the table and the mark of a write past its end change. -/
theorem writeHandler_sched (s : Sched ι β) (i : ℕ) (e : Inthandler ι β) : ∃ handlers oob,
    s.writeHandler i e = { s with inthandlers := handlers, outOfBounds := oob } := by
  unfold Sched.writeHandler
  split <;> exact ⟨_, _, rfl⟩

variable [DecidableEq ι]

theorem Placed.popupCancel (hs : Placed M s) (ht : s.status t = .intblocked)
    (hr : s.r00 t < maxInterrupts) : InHand M (s.popupCancel t) t := by
  rw [Sched.popupCancel, Sched.writeHandler_eq hr]
  exact (hs.clearPopup ht hr (by simp)).setR00 u32Max

theorem agreeOff_popupCancel (hr : s.r00 t < maxInterrupts) : AgreeOff t s (s.popupCancel t) := by
  rw [Sched.popupCancel, Sched.writeHandler_eq hr]
  exact { AgreeOff.refl t s with r00 := fun u hu => by simp [hu] }

end H2
