import Mathlib.Data.List.Nodup
import Mathlib.Logic.Function.Basic

/-! # Sequences that share no element

A family of finite sequences without repetition in which every element stands in
at most one of them. -/

namespace UvExec.Lib

@[ext]
structure Sequences (L A : Type) where
  of : L → List A
  nodup : ∀ c, (of c).Nodup
  apart : ∀ c d a, a ∈ of c → a ∈ of d → c = d

namespace Sequences
variable {L A : Type}

/-- The element stands in none of the sequences. -/
def Free (s : Sequences L A) (a : A) : Prop := ∀ c, a ∉ s.of c

def empty : Sequences L A where
  of _ := []
  nodup _ := List.nodup_nil
  apart _ _ _ h := absurd h List.not_mem_nil

variable [DecidableEq L] {s : Sequences L A} {c d : L} {a x : A} {xs : List A}

theorem nodup_update (s : Sequences L A) (c : L) (h : xs.Nodup) :
    ∀ d, (Function.update s.of c xs d).Nodup :=
  (Function.forall_update_iff s.of fun _ l => l.Nodup).mpr ⟨h, fun d _ => s.nodup d⟩

theorem mem_update {f : L → List A} (h : x ∈ Function.update f c xs d) :
    d = c ∧ x ∈ xs ∨ x ∈ f d := by
  by_cases hd : d = c
  · subst hd
    rw [Function.update_self] at h
    exact Or.inl ⟨rfl, h⟩
  · rw [Function.update_of_ne hd] at h
    exact Or.inr h

/-- Puts an element that is in no sequence at the front of one. -/
def push (s : Sequences L A) (c : L) (a : A) (h : s.Free a) : Sequences L A where
  of := Function.update s.of c (a :: s.of c)
  nodup := s.nodup_update c (List.nodup_cons.mpr ⟨h c, s.nodup c⟩)
  apart d e x hd he := by
    have hold (y : L) (hy : x ∈ Function.update s.of c (a :: s.of c) y) :
        y = c ∧ x = a ∨ x ∈ s.of y := by
      rcases mem_update hy with ⟨hyc, hx⟩ | hx
      · rcases List.mem_cons.mp hx with hxa | hx
        · exact Or.inl ⟨hyc, hxa⟩
        · exact Or.inr (hyc ▸ hx)
      · exact Or.inr hx
    rcases hold d hd with ⟨hdc, hxa⟩ | hd
    · rcases hold e he with ⟨hec, -⟩ | he
      · rw [hdc, hec]
      · exact absurd (hxa ▸ he) (h e)
    · rcases hold e he with ⟨-, hxa⟩ | he
      · exact absurd (hxa ▸ hd) (h d)
      · exact s.apart d e x hd he

/-- Keeps some of the elements of one sequence, in their order. -/
def keep (s : Sequences L A) (c : L) (xs : List A) (h : xs.Sublist (s.of c)) : Sequences L A where
  of := Function.update s.of c xs
  nodup := s.nodup_update c ((s.nodup c).sublist h)
  apart d e x hd he := by
    have hold (y : L) (hy : x ∈ Function.update s.of c xs y) : x ∈ s.of y := by
      rcases mem_update hy with ⟨hyc, hx⟩ | hx
      · exact hyc ▸ h.subset hx
      · exact hx
    exact s.apart d e x (hold d hd) (hold e he)

def dropFirst (s : Sequences L A) (c : L) : Sequences L A :=
  s.keep c (s.of c).tail (List.tail_sublist _)

def remove [DecidableEq A] (s : Sequences L A) (c : L) (a : A) : Sequences L A :=
  s.keep c ((s.of c).erase a) List.erase_sublist

@[simp] theorem push_self (h : s.Free a) : (s.push c a h).of c = a :: s.of c :=
  Function.update_self _ _ _

theorem push_of_ne (h : s.Free a) (hd : d ≠ c) : (s.push c a h).of d = s.of d :=
  Function.update_of_ne hd _ _

@[simp] theorem keep_self (h : xs.Sublist (s.of c)) : (s.keep c xs h).of c = xs :=
  Function.update_self _ _ _

theorem keep_of_ne (h : xs.Sublist (s.of c)) (hd : d ≠ c) : (s.keep c xs h).of d = s.of d :=
  Function.update_of_ne hd _ _

theorem dropFirst_eq_remove [DecidableEq A] (h : s.of c = a :: xs) :
    s.dropFirst c = s.remove c a := by
  have htail : (s.of c).tail = (s.of c).erase a := by
    rw [h, List.tail_cons, List.erase_cons_head]
  ext1
  exact congrArg (Function.update s.of c) htail

theorem remove_of_not_mem [DecidableEq A] (h : a ∉ s.of c) : s.remove c a = s := by
  ext1
  show Function.update s.of c ((s.of c).erase a) = s.of
  rw [List.erase_of_not_mem h, Function.update_eq_self]

theorem free_push (h : s.Free a) (hx : (s.push c a h).Free x) : x ≠ a ∧ s.Free x := by
  have hc := hx c
  rw [push_self, List.mem_cons, not_or] at hc
  refine ⟨hc.1, fun d => ?_⟩
  by_cases hd : d = c
  · exact hd ▸ hc.2
  · rw [← push_of_ne h hd]
    exact hx d

theorem free_remove [DecidableEq A] (hx : (s.remove c a).Free x) : x = a ∨ s.Free x := by
  by_cases hxa : x = a
  · exact Or.inl hxa
  · refine Or.inr fun d => ?_
    by_cases hd : d = c
    · subst hd
      have hmem := hx d
      rwa [remove, keep_self, List.mem_erase_of_ne hxa] at hmem
    · rw [← keep_of_ne List.erase_sublist hd]
      exact hx d

end Sequences
end UvExec.Lib
