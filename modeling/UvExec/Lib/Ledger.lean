import Mathlib.Data.List.Nodup
import Mathlib.Logic.Function.Basic

/-! # Objects that begin and end in places

The objects are numbered in the order in which they begin. The end of a place
where no object lives is an entry, too. -/

namespace UvExec.Lib

structure Ledger (P β : Type) where
  /-- The object that lives in a place. -/
  object : P → Option ℕ := fun _ => none
  /-- What each object was made from. -/
  begun : List β := []
  ended : List (Option ℕ) := []

namespace Ledger
variable {P β : Type}

/-- Every object lives in one place and has not ended, or has ended once and lives
nowhere, and nothing else has ended. -/
structure Balanced (s : Ledger P β) : Prop where
  once : ∀ n, n < s.begun.length →
    (∃! p, s.object p = some n) ∧ s.ended.count (some n) = 0 ∨
      (∀ p, s.object p ≠ some n) ∧ s.ended.count (some n) = 1
  live : ∀ p n, s.object p = some n → n < s.begun.length
  only : ∀ e ∈ s.ended, ∃ n, n < s.begun.length ∧ e = some n

theorem Balanced.initial : ({} : Ledger P β).Balanced where
  once n hn := absurd hn (Nat.not_lt_zero n)
  live p n hp := by cases hp
  only e he := absurd he List.not_mem_nil

variable {s : Ledger P β} {p q : P} {b : β} {m n : ℕ}

theorem Balanced.count_of_live (h : s.Balanced) (hp : s.object p = some n) :
    (∃! p, s.object p = some n) ∧ s.ended.count (some n) = 0 := by
  rcases h.once n (h.live p n hp) with hlive | ⟨hnone, -⟩
  · exact hlive
  · exact absurd hp (hnone p)

theorem Balanced.count_of_new (h : s.Balanced) (hn : s.begun.length ≤ n) :
    s.ended.count (some n) = 0 := by
  refine List.count_eq_zero.mpr fun hmem => ?_
  obtain ⟨m, hm, heq⟩ := h.only _ hmem
  have hnm : n = m := Option.some.inj heq
  omega

theorem Balanced.ne_of_live (h : s.Balanced) (hp : s.object p = some n) : n ≠ s.begun.length := by
  have hn := h.live p n hp
  omega

variable [DecidableEq P]

def start (s : Ledger P β) (p : P) (b : β) : Ledger P β where
  object := Function.update s.object p (some s.begun.length)
  begun := s.begun ++ [b]
  ended := s.ended

def finish (s : Ledger P β) (p : P) : Ledger P β where
  object := Function.update s.object p none
  begun := s.begun
  ended := s.object p :: s.ended

@[simp] theorem object_start_self : (s.start p b).object p = some s.begun.length :=
  Function.update_self _ _ _

theorem object_start_of_ne (h : q ≠ p) : (s.start p b).object q = s.object q :=
  Function.update_of_ne h _ _

@[simp] theorem object_finish_self : (s.finish p).object p = none := Function.update_self _ _ _

theorem object_finish_of_ne (h : q ≠ p) : (s.finish p).object q = s.object q :=
  Function.update_of_ne h _ _

theorem length_start : (s.start p b).begun.length = s.begun.length + 1 := List.length_append

/-- The older objects stay where they are. -/
theorem object_start_iff (hp : s.object p = none) (hn : n ≠ s.begun.length) :
    (s.start p b).object q = some n ↔ s.object q = some n := by
  by_cases hqp : q = p
  · subst hqp
    rw [object_start_self, hp]
    constructor
    · intro h
      exact absurd (Option.some.inj h).symm hn
    · intro h
      cases h
  · rw [object_start_of_ne hqp]

theorem object_finish_iff (hp : s.object p = some n) (hm : m ≠ n) :
    (s.finish p).object q = some m ↔ s.object q = some m := by
  by_cases hqp : q = p
  · subst hqp
    rw [object_finish_self, hp]
    constructor
    · intro h
      cases h
    · intro h
      exact absurd (Option.some.inj h).symm hm
  · rw [object_finish_of_ne hqp]

theorem count_finish (hp : s.object p = some n) :
    (s.finish p).ended.count (some m) = s.ended.count (some m) + if n = m then 1 else 0 := by
  show (s.object p :: s.ended).count (some m) = _
  rw [hp, List.count_cons]
  simp

/-- A place is free before an object begins there. -/
theorem Balanced.start (h : s.Balanced) (hp : s.object p = none) (b : β) :
    (s.start p b).Balanced where
  once n hn := by
    rw [length_start] at hn
    by_cases hnew : n = s.begun.length
    · subst hnew
      refine Or.inl ⟨⟨p, object_start_self, ?_⟩, h.count_of_new (Nat.le_refl _)⟩
      intro q hq
      by_contra hqp
      exact h.ne_of_live ((object_start_of_ne hqp).symm.trans hq) rfl
    · have hold := h.once n (by omega)
      simp only [ne_eq, object_start_iff hp hnew]
      exact hold
  live q n hq := by
    rw [length_start]
    by_cases hnew : n = s.begun.length
    · omega
    · have hn := h.live q n ((object_start_iff hp hnew).mp hq)
      omega
  only e he := by
    obtain ⟨n, hn, heq⟩ := h.only e he
    rw [length_start]
    exact ⟨n, by omega, heq⟩

/-- An object lives in a place before the place ends it. -/
theorem Balanced.finish (h : s.Balanced) (hp : s.object p = some n) : (s.finish p).Balanced where
  once m hm := by
    have hcount := count_finish (m := m) hp
    by_cases hmn : m = n
    · subst hmn
      obtain ⟨hlive, hzero⟩ := h.count_of_live hp
      rw [if_pos rfl] at hcount
      refine Or.inr ⟨fun q hq => ?_, by omega⟩
      by_cases hqp : q = p
      · rw [hqp, object_finish_self] at hq
        cases hq
      · rw [object_finish_of_ne hqp] at hq
        exact hqp (hlive.unique hq hp)
    · rw [if_neg (Ne.symm hmn), Nat.add_zero] at hcount
      have hold := h.once m hm
      rw [hcount]
      simp only [ne_eq, object_finish_iff hp hmn]
      exact hold
  live q m hq := by
    by_cases hqp : q = p
    · rw [hqp, object_finish_self] at hq
      cases hq
    · exact h.live q m ((object_finish_of_ne hqp).symm.trans hq)
  only e he := by
    rcases List.mem_cons.mp he with heq | he
    · exact ⟨n, h.live p n hp, heq.trans hp⟩
    · exact h.only e he

/-- The end of a place where no object lives puts the ledger out of balance. -/
theorem not_balanced_finish (hp : s.object p = none) : ¬(s.finish p).Balanced := by
  intro h
  obtain ⟨n, -, heq⟩ := h.only (s.object p) List.mem_cons_self
  rw [hp] at heq
  cases heq

end Ledger
end UvExec.Lib
