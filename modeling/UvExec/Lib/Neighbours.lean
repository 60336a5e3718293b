import Mathlib.Data.List.Nodup

/-! # Neighbours in a list without repetition

What the two links of a node of a doubly linked list hold, read off the list
that the nodes form. -/

namespace UvExec.Lib
variable {O : Type} [DecidableEq O]

def after : List O → O → Option O
  | [], _ => none
  | b :: l, a => if b = a then l.head? else after l a

/-- The element that `a` follows, in a list that comes after `p`. -/
def beforeFrom (p : Option O) : List O → O → Option O
  | [], _ => none
  | b :: l, a => if b = a then p else beforeFrom (some b) l a

def before (l : List O) (a : O) : Option O := beforeFrom none l a

variable {l : List O} {a b x : O} {p q : Option O}

theorem after_cons_ne (h : b ≠ a) : after (b :: l) a = after l a := if_neg h

theorem beforeFrom_cons_ne (h : b ≠ a) : beforeFrom p (b :: l) a = beforeFrom (some b) l a :=
  if_neg h

theorem after_of_not_mem (h : a ∉ l) : after l a = none := by
  induction l with
  | nil => rfl
  | cons b l ih =>
    rw [List.mem_cons, not_or] at h
    rw [after_cons_ne (Ne.symm h.1)]
    exact ih h.2

theorem beforeFrom_of_not_mem (h : a ∉ l) : beforeFrom p l a = none := by
  induction l generalizing p with
  | nil => rfl
  | cons b l ih =>
    rw [List.mem_cons, not_or] at h
    rw [beforeFrom_cons_ne (Ne.symm h.1)]
    exact ih h.2

theorem pair_of_after (h : after l a = some b) : [a, b] <:+: l := by
  induction l with
  | nil => cases h
  | cons c l ih =>
    by_cases hc : c = a
    · rw [after, if_pos hc] at h
      obtain ⟨t, ht⟩ := List.head?_eq_some_iff.mp h
      exact ⟨[], t, by rw [ht, hc]; rfl⟩
    · rw [after_cons_ne hc] at h
      exact List.infix_cons (ih h)

theorem pair_of_beforeFrom (h : beforeFrom p l b = some a) :
    [a, b] <:+: l ∨ p = some a ∧ l.head? = some b := by
  induction l generalizing p with
  | nil => cases h
  | cons c l ih =>
    by_cases hc : c = b
    · rw [beforeFrom, if_pos hc] at h
      exact Or.inr ⟨h, by rw [hc]; rfl⟩
    · rw [beforeFrom_cons_ne hc] at h
      rcases ih h with hpair | ⟨hca, hhead⟩
      · exact Or.inl (List.infix_cons hpair)
      · obtain ⟨t, ht⟩ := List.head?_eq_some_iff.mp hhead
        exact Or.inl ⟨[], t, by rw [ht, Option.some.inj hca]; rfl⟩

theorem mem_of_after (h : after l a = some b) : b ∈ l := (pair_of_after h).subset (by simp)

theorem mem_of_before (h : before l a = some b) : b ∈ l := by
  rcases pair_of_beforeFrom h with hpair | ⟨hp, -⟩
  · exact hpair.subset (by simp)
  · cases hp

/-- Only for the first element does it matter what the list comes after. -/
theorem beforeFrom_of_ne_head (h : l.head? ≠ some a) : beforeFrom p l a = beforeFrom q l a := by
  cases l with
  | nil => rfl
  | cons b l =>
    have hb : b ≠ a := fun hb => h (by rw [hb]; rfl)
    rw [beforeFrom_cons_ne hb, beforeFrom_cons_ne hb]

theorem head_of_beforeFrom (hb : b ∉ l) (h : beforeFrom (some b) l a = some b) :
    l.head? = some a := by
  by_contra hne
  rw [beforeFrom_of_ne_head (q := none) hne] at h
  exact hb (mem_of_before h)

/-! ### Consecutive elements -/

theorem after_of_pair (h : l.Nodup) (hab : [a, b] <:+: l) : after l a = some b := by
  obtain ⟨s, t, hl⟩ := hab
  subst hl
  induction s with
  | nil =>
    show after (a :: b :: t) a = some b
    rw [after, if_pos rfl]
    rfl
  | cons c s ih =>
    obtain ⟨hc, hs⟩ := List.nodup_cons.mp h
    have hca : c ≠ a := fun hca => hc (by simp [hca])
    show after (c :: (s ++ [a, b] ++ t)) a = some b
    rw [after_cons_ne hca]
    exact ih hs

theorem beforeFrom_of_pair (h : l.Nodup) (hab : [a, b] <:+: l) : beforeFrom p l b = some a := by
  obtain ⟨s, t, hl⟩ := hab
  subst hl
  induction s generalizing p with
  | nil =>
    have hne : a ≠ b := fun hne => (List.nodup_cons.mp h).1 (by simp [hne])
    show beforeFrom p (a :: b :: t) b = some a
    rw [beforeFrom_cons_ne hne, beforeFrom, if_pos rfl]
  | cons c s ih =>
    obtain ⟨hc, hs⟩ := List.nodup_cons.mp h
    have hcb : c ≠ b := fun hcb => hc (by simp [hcb])
    show beforeFrom p (c :: (s ++ [a, b] ++ t)) b = some a
    rw [beforeFrom_cons_ne hcb]
    exact ih hs

theorem after_eq_some_iff (h : l.Nodup) : after l a = some b ↔ [a, b] <:+: l :=
  ⟨pair_of_after, after_of_pair h⟩

theorem before_eq_some_iff (h : l.Nodup) : before l b = some a ↔ [a, b] <:+: l := by
  constructor
  · intro hb
    rcases pair_of_beforeFrom hb with hpair | ⟨hp, -⟩
    · exact hpair
    · cases hp
  · exact beforeFrom_of_pair h

theorem before_head (h : l.head? = some a) : before l a = none := by
  cases l with
  | nil => cases h
  | cons b l =>
    cases h
    rw [before, beforeFrom, if_pos rfl]

theorem after_last (h : l.Nodup) (ha : l.getLast? = some a) : after l a = none := by
  induction l with
  | nil => cases ha
  | cons b l ih =>
    obtain ⟨hb, hl⟩ := List.nodup_cons.mp h
    cases l with
    | nil =>
      have hba : b = a := Option.some.inj ha
      rw [after, if_pos hba]
      rfl
    | cons c l =>
      rw [List.getLast?_cons_cons] at ha
      have hba : b ≠ a := fun hba => hb (hba ▸ List.mem_of_getLast? ha)
      rw [after_cons_ne hba]
      exact ih hl ha

/-! ### Adding at the front -/

theorem after_cons (ha : a ∉ l) : after (a :: l) x = if x = a then l.head? else after l x := by
  by_cases hx : x = a
  · subst hx
    rw [if_pos rfl, after, if_pos rfl]
  · rw [if_neg hx, after_cons_ne (Ne.symm hx)]

theorem before_cons (ha : a ∉ l) :
    before (a :: l) x = if l.head? = some x then some a else before l x := by
  by_cases hx : a = x
  · subst hx
    have hhead : l.head? ≠ some a := fun h => ha (List.mem_of_mem_head? h)
    rw [if_neg hhead, before, beforeFrom, if_pos rfl]
    exact (beforeFrom_of_not_mem ha).symm
  · rw [before, beforeFrom_cons_ne hx]
    cases l with
    | nil => rfl
    | cons b l =>
      by_cases hb : b = x
      · subst hb
        rw [beforeFrom, if_pos rfl, List.head?_cons, if_pos rfl]
      · have hhead : (b :: l).head? ≠ some x := fun h => hb (Option.some.inj h)
        rw [if_neg hhead, beforeFrom_cons_ne hb, before, beforeFrom_cons_ne hb]

/-! ### Erasing -/

theorem head_erase (h : l.Nodup) :
    (l.erase a).head? = if l.head? = some a then after l a else l.head? := by
  cases l with
  | nil => rfl
  | cons b l =>
    by_cases hb : b = a
    · subst hb
      rw [List.erase_cons_head, List.head?_cons, if_pos rfl, after, if_pos rfl]
    · have hhead : (b :: l).head? ≠ some a := fun h => hb (Option.some.inj h)
      rw [if_neg hhead, List.erase_cons_tail (by simpa using hb)]
      rfl

theorem beforeFrom_erase (h : l.Nodup) (hx : x ≠ a) :
    beforeFrom p (l.erase a) x = if after l a = some x then beforeFrom p l a else beforeFrom p l x := by
  induction l generalizing p with
  | nil => rfl
  | cons b l ih =>
    obtain ⟨hb, hl⟩ := List.nodup_cons.mp h
    by_cases hba : b = a
    · subst hba
      rw [List.erase_cons_head, after, if_pos rfl, beforeFrom_cons_ne (Ne.symm hx)]
      cases l with
      | nil => rfl
      | cons c l =>
        by_cases hc : c = x
        · subst hc
          rw [List.head?_cons, if_pos rfl, beforeFrom, if_pos rfl, beforeFrom, if_pos rfl]
        · have hhead : (c :: l).head? ≠ some x := fun h => hc (Option.some.inj h)
          rw [if_neg hhead]
          exact beforeFrom_of_ne_head hhead
    · rw [List.erase_cons_tail (by simpa using hba), after_cons_ne hba]
      by_cases hbx : b = x
      · subst hbx
        have hno : after l a ≠ some b := fun hcontra => hb (mem_of_after hcontra)
        rw [if_neg hno, beforeFrom, if_pos rfl, beforeFrom, if_pos rfl]
      · rw [beforeFrom_cons_ne hbx, beforeFrom_cons_ne hbx, beforeFrom_cons_ne hba]
        exact ih hl

theorem before_erase (h : l.Nodup) (hx : x ≠ a) :
    before (l.erase a) x = if after l a = some x then before l a else before l x :=
  beforeFrom_erase h hx

theorem after_erase_from (h : l.Nodup) (hx : x ≠ a) (hp : p ≠ some x) :
    after (l.erase a) x = if beforeFrom p l a = some x then after l a else after l x := by
  induction l generalizing p with
  | nil => cases p <;> rfl
  | cons b l ih =>
    obtain ⟨hb, hl⟩ := List.nodup_cons.mp h
    by_cases hba : b = a
    · subst hba
      rw [List.erase_cons_head, beforeFrom, if_pos rfl, if_neg hp, after_cons_ne (Ne.symm hx)]
    · rw [List.erase_cons_tail (by simpa using hba), beforeFrom_cons_ne hba, after_cons_ne hba]
      by_cases hbx : b = x
      · subst hbx
        rw [after, if_pos rfl, head_erase hl]
        by_cases hhead : l.head? = some a
        · have hbefore : beforeFrom (some b) l a = some b := by
            cases l with
            | nil => cases hhead
            | cons c l =>
              cases hhead
              exact if_pos rfl
          rw [if_pos hhead, if_pos hbefore]
        · have hbefore : beforeFrom (some b) l a ≠ some b :=
            fun hcontra => hhead (head_of_beforeFrom hb hcontra)
          rw [if_neg hhead, if_neg hbefore, after, if_pos rfl]
      · rw [after_cons_ne hbx, after_cons_ne hbx]
        exact ih hl (fun hcontra => hbx (Option.some.inj hcontra))

theorem after_erase (h : l.Nodup) (hx : x ≠ a) :
    after (l.erase a) x = if before l a = some x then after l a else after l x :=
  after_erase_from h hx (by simp)

end UvExec.Lib
