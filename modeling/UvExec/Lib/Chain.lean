import Mathlib.Data.List.Nodup
import Mathlib.Logic.Function.Basic

/-! # Singly linked lists in a heap

The heap is the function that reads the `next` field of a node. -/

namespace UvExec.Lib
variable {O : Type}

/-- Following `next` from `p` meets the nodes of `l` in order and then ends. -/
def Chain (next : O → Option O) : Option O → List O → Prop
  | p, [] => p = none
  | p, a :: l => p = some a ∧ Chain next (next a) l

namespace Chain
variable {next : O → Option O} {p : Option O} {a b : O} {l l' : List O}

@[simp] theorem nil_iff : Chain next p [] ↔ p = none := Iff.rfl

@[simp] theorem cons_iff : Chain next p (a :: l) ↔ p = some a ∧ Chain next (next a) l := Iff.rfl

@[simp] theorem none_iff : Chain next none l ↔ l = [] := by
  cases l <;> simp

theorem some_cases (h : Chain next (some a) l) : ∃ m, l = a :: m ∧ Chain next (next a) m := by
  cases l with
  | nil => simp at h
  | cons b m =>
    obtain ⟨hb, hm⟩ := h
    cases hb
    exact ⟨m, rfl, hm⟩

theorem unique (h : Chain next p l) (h' : Chain next p l') : l = l' := by
  induction l generalizing p l' with
  | nil =>
    rw [nil_iff] at h
    subst h
    exact (none_iff.mp h').symm
  | cons a l ih =>
    obtain ⟨rfl, ht⟩ := h
    obtain ⟨m, rfl, hm⟩ := h'.some_cases
    rw [ih ht hm]

theorem tail_of_mem (h : Chain next p l) (ha : a ∈ l) :
    ∃ m, Chain next (next a) m ∧ m.length < l.length := by
  induction l generalizing p with
  | nil => cases ha
  | cons b l ih =>
    obtain ⟨-, ht⟩ := h
    rcases List.mem_cons.mp ha with rfl | hmem
    · exact ⟨l, ht, by simp⟩
    · obtain ⟨m, hm, hlt⟩ := ih ht hmem
      exact ⟨m, hm, by simp only [List.length_cons]; omega⟩

theorem nodup (h : Chain next p l) : l.Nodup := by
  induction l generalizing p with
  | nil => exact List.nodup_nil
  | cons a l ih =>
    obtain ⟨-, ht⟩ := h
    refine List.nodup_cons.mpr ⟨fun ha => ?_, ih ht⟩
    obtain ⟨m, hm, hlt⟩ := ht.tail_of_mem ha
    rw [hm.unique ht] at hlt
    omega

theorem push (h : Chain next p l) (ha : next a = p) : Chain next (some a) (a :: l) :=
  ⟨rfl, ha ▸ h⟩

theorem congr {next' : O → Option O} (h : Chain next p l) (heq : ∀ a ∈ l, next' a = next a) :
    Chain next' p l := by
  induction l generalizing p with
  | nil => exact h
  | cons a l ih =>
    obtain ⟨rfl, ht⟩ := h
    refine ⟨rfl, ?_⟩
    rw [heq a List.mem_cons_self]
    exact ih ht fun b hb => heq b (List.mem_cons_of_mem a hb)

variable [DecidableEq O]

/-- Writing a node outside a chain leaves the chain as it is. -/
theorem update (h : Chain next p l) (ha : a ∉ l) (v : Option O) :
    Chain (Function.update next a v) p l := by
  induction l generalizing p with
  | nil => exact h
  | cons b l ih =>
    obtain ⟨rfl, ht⟩ := h
    rw [List.mem_cons, not_or] at ha
    refine ⟨rfl, ?_⟩
    rw [Function.update_of_ne (Ne.symm ha.1)]
    exact ih ht ha.2

/-- One step of reversal in place: the first node of one chain becomes the
first node of another. -/
theorem reverse_step {q : Option O} (h : Chain next (some a) (a :: l)) (h' : Chain next q l')
    (ha : a ∉ l') : Chain (Function.update next a q) (next a) l ∧
      Chain (Function.update next a q) (some a) (a :: l') := by
  have hal : a ∉ l := (List.nodup_cons.mp h.nodup).1
  refine ⟨h.2.update hal q, rfl, ?_⟩
  rw [Function.update_self]
  exact h'.update ha q

end Chain
end UvExec.Lib
