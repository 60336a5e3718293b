import Mathlib.Data.List.Basic

/-! # `TRunner` and `TRunnersQueue` (execution/runner.hpp, execution/runner.cpp)

The atomic accesses of a runner are pure functions on its record, one for each
access, so that the loop's step relation can interleave them. The intrusive
list of waiting runners is the list of their owners, the head first. -/

namespace UvExec

/-- `std::atomic_uint64_t Awakenings` and `bool Acq` of a runner. -/
structure TRunner where
  awakenings : UInt64 := 1
  acq : Bool := false
  deriving DecidableEq, Repr

namespace TRunner

def finished (r : TRunner) : Bool := r.awakenings == 0

/-- The result is the sticky `Acq`, not the outcome of this load. -/
def acquireIfNotFinished (r : TRunner) : TRunner × Bool :=
  let r := if r.awakenings ≠ 0 then { r with acq := true } else r
  (r, r.acq)

def acquired (r : TRunner) : Bool := r.acq

def wakeup (r : TRunner) : TRunner := { r with awakenings := r.awakenings + 1 }

def finish (r : TRunner) : TRunner := { r with awakenings := 0 }

@[simp] theorem wakeup_acq (r : TRunner) : r.wakeup.acq = r.acq := rfl
@[simp] theorem finish_acq (r : TRunner) : r.finish.acq = r.acq := rfl
@[simp] theorem finish_awakenings (r : TRunner) : r.finish.awakenings = 0 := rfl

theorem finished_iff (r : TRunner) : r.finished = true ↔ r.awakenings = 0 := by
  simp [finished]

/-- The counter reaches zero by an increment only when it wraps. -/
theorem wakeup_eq_zero (r : TRunner) :
    r.wakeup.awakenings = 0 ↔ r.awakenings.toNat + 1 = UInt64.size := by
  rw [← UInt64.toNat_inj]
  simp only [wakeup, UInt64.toNat_add, UInt64.toNat_one, UInt64.toNat_zero, UInt64.size]
  have := r.awakenings.toNat_lt
  omega

@[simp] theorem acquireIfNotFinished_awakenings (r : TRunner) :
    r.acquireIfNotFinished.1.awakenings = r.awakenings := by
  unfold acquireIfNotFinished
  by_cases h : r.awakenings ≠ 0 <;> simp [h]

theorem acquireIfNotFinished_acq (r : TRunner) :
    r.acquireIfNotFinished.1.acq = r.acquireIfNotFinished.2 := rfl

theorem acquireIfNotFinished_snd (r : TRunner) :
    r.acquireIfNotFinished.2 = true ↔ r.awakenings ≠ 0 ∨ r.acq = true := by
  unfold acquireIfNotFinished
  by_cases h : r.awakenings ≠ 0 <;> simp_all

end TRunner

/-- `TRunnersQueue`: `Add` prepends, `Pop` takes the head. -/
abbrev TRunnersQueue (C : Type) := List C

namespace TRunnersQueue
variable {C : Type} [DecidableEq C]

def add (q : TRunnersQueue C) (c : C) : TRunnersQueue C := c :: q

def erase (q : TRunnersQueue C) (c : C) : TRunnersQueue C := List.erase q c

end TRunnersQueue

end UvExec
