import Mathlib.Data.Nat.Notation
import Mathlib.Data.List.Basic

/-! # Memory as a function of the address

Blocks of elements that are stored and loaded. -/

namespace UvExec.Lib.Memory
variable {α : Type}

def load (m : ℕ → α) (base : ℕ) : ℕ → List α
  | 0 => []
  | n + 1 => m base :: load m (base + 1) n

def store (m : ℕ → α) (base : ℕ) : List α → ℕ → α
  | [] => m
  | x :: xs => Function.update (store m (base + 1) xs) base x

@[simp] theorem length_load (m : ℕ → α) (base n : ℕ) : (load m base n).length = n := by
  induction n generalizing base with
  | zero => rfl
  | succ n ih => rw [load, List.length_cons, ih]

theorem load_congr {m m' : ℕ → α} {base n : ℕ}
    (h : ∀ i, base ≤ i → i < base + n → m i = m' i) : load m base n = load m' base n := by
  induction n generalizing base with
  | zero => rfl
  | succ n ih =>
    have hhead := h base (Nat.le_refl base) (by omega)
    have htail : load m (base + 1) n = load m' (base + 1) n :=
      ih fun i hlo hhi => h i (by omega) (by omega)
    rw [load, load, hhead, htail]

/-- A block is written to its own addresses only. -/
theorem store_outside (m : ℕ → α) (base : ℕ) (xs : List α) {i : ℕ}
    (h : i < base ∨ base + xs.length ≤ i) : store m base xs i = m i := by
  induction xs generalizing base with
  | nil => rfl
  | cons x xs ih =>
    rw [List.length_cons] at h
    have hne : i ≠ base := by omega
    rw [store, Function.update_of_ne hne]
    exact ih (base + 1) (by omega)

/-- What has been stored is loaded. -/
theorem load_store (m : ℕ → α) (base : ℕ) (xs : List α) :
    load (store m base xs) base xs.length = xs := by
  induction xs generalizing base with
  | nil => rfl
  | cons x xs ih =>
    have htail : load (store m base (x :: xs)) (base + 1) xs.length = xs := by
      refine (load_congr fun i hlo _ => ?_).trans (ih (base + 1))
      have hne : i ≠ base := by omega
      rw [store, Function.update_of_ne hne]
    rw [List.length_cons, load, htail, store, Function.update_self]

end UvExec.Lib.Memory
