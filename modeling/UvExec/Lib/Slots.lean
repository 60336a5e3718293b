import Mathlib.Data.Finset.Erase
import Mathlib.Data.Finset.Insert

/-! # Objects in storage slots

In each slot an object is live or not. One resource is handed from object to
object: a move passes it on, and it is lost with the object that holds it. -/

namespace UvExec.Lib

/- `valid` tells that every access so far found its slot live. -/
structure Slots (σ : Type) where
  live : Finset σ
  owner : Option σ
  owner_live : ∀ x, owner = some x → x ∈ live
  valid : Bool := true

namespace Slots
variable {σ : Type}

/-- Exactly one live object holds the resource. -/
def Held (s : Slots σ) : Prop := ∃! x, x ∈ s.live ∧ s.owner = some x

/-- The object in `x` holds the resource, and every access was valid. -/
structure HeldBy (s : Slots σ) (x : σ) : Prop where
  owner : s.owner = some x
  valid : s.valid = true

def single (x : σ) : Slots σ where
  live := {x}
  owner := some x
  owner_live y hy := by
    rw [Option.some.inj hy]
    exact Finset.mem_singleton_self y

variable {s : Slots σ} {x y : σ}

theorem held_iff (s : Slots σ) : s.Held ↔ s.owner ≠ none := by
  constructor
  · intro h hnone
    obtain ⟨x, hx, -⟩ := h
    rw [hnone] at hx
    cases hx.2
  · intro h
    obtain ⟨x, hx⟩ := Option.ne_none_iff_exists'.mp h
    exact ⟨x, ⟨s.owner_live x hx, hx⟩, fun y hy => Option.some.inj (hy.2.symm.trans hx)⟩

theorem not_held (h : s.owner = none) : ¬s.Held := fun hheld => (held_iff s).mp hheld h

theorem heldBy_single (x : σ) : (single x).HeldBy x := ⟨rfl, rfl⟩

theorem HeldBy.live (h : s.HeldBy x) : x ∈ s.live := s.owner_live x h.owner

theorem HeldBy.held (h : s.HeldBy x) : s.Held := by
  rw [held_iff, h.owner]
  exact Option.some_ne_none x

variable [DecidableEq σ]

def access (s : Slots σ) (x : σ) : Slots σ :=
  { s with valid := s.valid && decide (x ∈ s.live) }

/-- Begins an object in `y`, constructed from the object in `x`. -/
def move (s : Slots σ) (x y : σ) : Slots σ where
  live := insert y s.live
  owner := if s.owner = some x then some y else s.owner
  owner_live z hz := by
    split at hz
    · rw [← Option.some.inj hz]
      exact Finset.mem_insert_self y s.live
    · exact Finset.mem_insert_of_mem (s.owner_live z hz)
  valid := s.valid && decide (x ∈ s.live)

/-- Ends the object in `x`, if there is one. -/
def destroy (s : Slots σ) (x : σ) : Slots σ where
  live := s.live.erase x
  owner := if s.owner = some x then none else s.owner
  owner_live z hz := by
    split at hz
    · cases hz
    next hne => exact Finset.mem_erase.mpr ⟨fun hzx => hne (hzx ▸ hz), s.owner_live z hz⟩
  valid := s.valid

theorem HeldBy.access (h : s.HeldBy x) (hy : y ∈ s.live) : (s.access y).HeldBy x := by
  refine ⟨h.owner, ?_⟩
  simp only [Slots.access, h.valid, hy, decide_true, Bool.and_true]

theorem HeldBy.move (h : s.HeldBy x) (y : σ) : (s.move x y).HeldBy y := by
  refine ⟨if_pos h.owner, ?_⟩
  simp only [Slots.move, h.valid, h.live, decide_true, Bool.and_true]

theorem HeldBy.destroy (h : s.HeldBy x) (hne : x ≠ y) : (s.destroy y).HeldBy x := by
  refine ⟨?_, h.valid⟩
  have hy : s.owner ≠ some y := fun hy => hne (Option.some.inj (h.owner.symm.trans hy))
  exact (if_neg hy).trans h.owner

/-- The object that holds the resource takes it along when it ends. -/
theorem HeldBy.lost (h : s.HeldBy x) : (s.destroy x).owner = none := if_pos h.owner

end Slots
end UvExec.Lib
