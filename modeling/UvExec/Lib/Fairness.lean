import UvExec.Lib.Transition

/-! # Runs without end, weak fairness and what it leads to

At a moment without a label nothing happens, so that a run that has come to its
end goes on as well. -/

namespace UvExec.Lib.System
variable {σ α : Type} (S : System σ α)

def stepOrStay (s : σ) : Option α → Option σ
  | none => some s
  | some a => S.step s a

structure Execution where
  state : ℕ → σ
  label : ℕ → Option α
  start : S.initial (state 0)
  next : ∀ n, S.stepOrStay (state n) (label n) = some (state (n + 1))

def Enabled (A : α → Prop) (s : σ) : Prop := ∃ a s', A a ∧ S.step s a = some s'

namespace Execution
variable {S} (e : S.Execution)

/-- Actions of a kind that stays enabled are taken at some time. -/
def WeaklyFair (A : α → Prop) : Prop :=
  ∀ n, (∀ m, n ≤ m → S.Enabled A (e.state m)) → ∃ m a, n ≤ m ∧ A a ∧ e.label m = some a

theorem reachable (n : ℕ) : S.Reachable (e.state n) := by
  induction n with
  | zero => exact .initial e.start
  | succ n ih =>
    have hnext := e.next n
    cases hl : e.label n with
    | none =>
      rw [hl] at hnext
      exact Option.some.inj hnext ▸ ih
    | some a =>
      rw [hl] at hnext
      exact ih.step a hnext

variable {K : σ → Prop}

/-- What every step keeps stays, where `K` carries what is known of the run. -/
theorem kept {I : σ → Prop} {n m : ℕ} (hK : ∀ i, n ≤ i → K (e.state i))
    (hstep : ∀ s a s', K s → I s → S.step s a = some s' → I s') (hnm : n ≤ m) (h : I (e.state n)) :
    I (e.state m) := by
  induction hnm with
  | refl => exact h
  | @step m hle ih =>
    have hnext := e.next m
    cases hl : e.label m with
    | none =>
      rw [hl] at hnext
      exact Option.some.inj hnext ▸ ih
    | some a =>
      rw [hl] at hnext
      exact hstep _ a _ (hK m hle) ih hnext

variable {P : σ → ℕ → Prop} {G : σ → Prop} {A : α → Prop}

/-- While the goal is not reached the rank does not grow, nor does it stay when an
action of the kind `A` is taken. -/
theorem rank_kept {n m r : ℕ} (hK : ∀ i, n ≤ i → K (e.state i))
    (hstep : ∀ s a s' r, K s → K s' → P s r → S.step s a = some s' →
      G s' ∨ ∃ r' ≤ r, P s' r' ∧ (A a → r' < r))
    (hnm : n ≤ m) (hn : P (e.state n) r) (hgoal : ∀ i, n ≤ i → ¬ G (e.state i)) :
    ∃ r' ≤ r, P (e.state m) r' := by
  induction hnm with
  | refl => exact ⟨r, Nat.le_refl r, hn⟩
  | @step m hle ih =>
    obtain ⟨r₁, hr₁, hm⟩ := ih
    have hle' : n ≤ m + 1 := Nat.le_succ_of_le hle
    have hnext := e.next m
    cases hl : e.label m with
    | none =>
      rw [hl] at hnext
      exact ⟨r₁, hr₁, Option.some.inj hnext ▸ hm⟩
    | some a =>
      rw [hl] at hnext
      rcases hstep _ a _ r₁ (hK m hle) (hK _ hle') hm hnext with hg | ⟨r₂, hr₂, hP, -⟩
      · exact (hgoal _ hle' hg).elim
      · exact ⟨r₂, by omega, hP⟩

/-- The rule of weak fairness with a rank: actions of the kind `A` stay enabled
until the goal is reached, and each of them lowers the rank. -/
theorem leadsTo_of_rank (hfair : e.WeaklyFair A)
    (henabled : ∀ s r, K s → P s r → ¬ G s → S.Enabled A s)
    (hstep : ∀ s a s' r, K s → K s' → P s r → S.step s a = some s' →
      G s' ∨ ∃ r' ≤ r, P s' r' ∧ (A a → r' < r))
    {n r : ℕ} (hK : ∀ i, n ≤ i → K (e.state i)) (hn : P (e.state n) r) :
    ∃ m, n ≤ m ∧ G (e.state m) := by
  induction r using Nat.strongRecOn generalizing n with
  | _ r ih =>
    by_contra hnone
    have hgoal : ∀ i, n ≤ i → ¬ G (e.state i) := fun i hi hg => hnone ⟨i, hi, hg⟩
    obtain ⟨m, a, hnm, ha, hl⟩ := hfair n fun i hi => by
      obtain ⟨r', -, hP⟩ := e.rank_kept hK hstep hi hn hgoal
      exact henabled _ r' (hK i hi) hP (hgoal i hi)
    obtain ⟨r₁, hr₁, hm⟩ := e.rank_kept hK hstep hnm hn hgoal
    have hnext := e.next m
    rw [hl] at hnext
    rcases hstep _ a _ r₁ (hK m hnm) (hK (m + 1) (by omega)) hm hnext with hg | ⟨r₂, -, hP, hlt⟩
    · exact hgoal (m + 1) (by omega) hg
    · have hr₂ := hlt ha
      obtain ⟨i, hi, hg⟩ := ih r₂ (by omega) (fun i hi => hK i (by omega)) hP
      exact hgoal i (by omega) hg

/-! ### Runs that come to an end -/

theorem exec_take {s t : σ} (as : List α) (h : S.exec s as = some t) (n : ℕ) :
    ∃ u, S.exec s (as.take n) = some u := by
  induction as generalizing s n with
  | nil => exact ⟨s, by simp [exec]⟩
  | cons a as ih =>
    obtain ⟨v, hv, hrest⟩ := Option.bind_eq_some_iff.mp h
    cases n with
    | zero => exact ⟨s, rfl⟩
    | succ n =>
      obtain ⟨u, hu⟩ := ih hrest n
      exact ⟨u, by rw [List.take_succ_cons, exec_cons _ hv, hu]⟩

/-- The run of a list of labels, after which nothing happens any more. -/
def ofExec {s t : σ} (as : List α) (hs : S.initial s) (h : S.exec s as = some t) : S.Execution where
  state n := (S.exec s (as.take n)).getD s
  label n := as[n]?
  start := hs
  next n := by
    obtain ⟨u, hu⟩ := exec_take as h n
    obtain ⟨v, hv⟩ := exec_take as h (n + 1)
    rw [hu, hv]
    rw [List.take_add_one] at hv
    cases hl : as[n]? with
    | none =>
      rw [hl, Option.toList_none, List.append_nil, hu] at hv
      exact hv
    | some a =>
      rw [hl, exec_append _ _ hu] at hv
      obtain ⟨w, hw, hrest⟩ := Option.bind_eq_some_iff.mp hv
      exact hw.trans hrest

theorem ofExec_state {s t : σ} (as : List α) (hs : S.initial s) (h : S.exec s as = some t) (n : ℕ) :
    S.exec s (as.take n) = some ((ofExec as hs h).state n) := by
  obtain ⟨u, hu⟩ := exec_take as h n
  show _ = some ((S.exec s (as.take n)).getD s)
  rw [hu, Option.getD_some]

theorem ofExec_end {s t : σ} (as : List α) (hs : S.initial s) (h : S.exec s as = some t) {n : ℕ}
    (hn : as.length ≤ n) : (ofExec as hs h).state n = t := by
  have hstate := ofExec_state as hs h n
  rw [List.take_of_length_le hn, h] at hstate
  exact (Option.some.inj hstate).symm

theorem ofExec_fair {s t : σ} (as : List α) (hs : S.initial s) (h : S.exec s as = some t)
    (hend : ¬ S.Enabled A t) : (ofExec as hs h).WeaklyFair A := by
  intro n hall
  have hlast := hall (max n as.length) (Nat.le_max_left _ _)
  rw [ofExec_end as hs h (Nat.le_max_right _ _)] at hlast
  exact (hend hlast).elim

end Execution
end UvExec.Lib.System
