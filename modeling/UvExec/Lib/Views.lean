import UvExec.Lib.Fairness

/-! # Views of a composed system

A system that is put together from others shows each of them: a part of its
state, and what each of its actions is for that part in the state that it is taken
in, which may be nothing. -/

namespace UvExec.Lib
variable {σ τ α β : Type}

structure View (S : System σ α) (T : System τ β) where
  state : σ → τ
  label : σ → α → Option β
  initial : ∀ s, S.initial s → T.initial (state s)
  step : ∀ s a s', S.step s a = some s' → T.stepOrStay (state s) (label s a) = some (state s')

namespace View
variable {S : System σ α} {T : System τ β} (v : View S T)

/-- A run of the whole shows a run of the part, whose steps meet what the whole
imposes on them. -/
theorem reachableVia {ok : σ → α → Prop} {ok' : τ → β → Prop}
    (hok : ∀ s a b, ok s a → v.label s a = some b → ok' (v.state s) b) {s : σ}
    (h : S.ReachableVia ok s) : T.ReachableVia ok' (v.state s) := by
  refine System.ReachableVia.simulate v.state v.initial ?_ h
  intro s a s' ha hs
  have hstep := v.step s a s' hs
  cases hl : v.label s a with
  | none =>
    rw [hl] at hstep
    exact Or.inl (Option.some.inj hstep).symm
  | some b =>
    rw [hl] at hstep
    exact Or.inr ⟨b, hok s a b ha hl, hstep⟩

theorem reachable {s : σ} (h : S.Reachable s) : T.Reachable (v.state s) :=
  v.reachableVia (fun _ _ _ _ _ => trivial) h

def execution (e : S.Execution) : T.Execution where
  state n := v.state (e.state n)
  label n := (e.label n).bind (v.label (e.state n))
  start := v.initial _ e.start
  next n := by
    have hnext := e.next n
    cases hl : e.label n with
    | none =>
      rw [hl] at hnext
      show some (v.state (e.state n)) = some (v.state (e.state (n + 1)))
      rw [Option.some.inj hnext]
    | some a =>
      rw [hl] at hnext
      exact v.step _ a _ hnext

theorem execution_label {e : S.Execution} {n : ℕ} {a : α} {b : β} (ha : e.label n = some a)
    (hb : v.label (e.state n) a = some b) : (v.execution e).label n = some b := by
  show (e.label n).bind (v.label (e.state n)) = some b
  rw [ha]
  exact hb

end View
end UvExec.Lib
