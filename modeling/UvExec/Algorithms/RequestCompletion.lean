import UvExec.Algorithms.RequestReceivers

/-! # One completion for every request

With its request called back, or refused, the operation completes, and nothing
is left in flight. -/

namespace UvExec.RequestOp
open Lib
variable {E : Type}

/-- The first negative code that the calls and callbacks of a run report. -/
def reported : List Action → Completion Unit
  | [] => .value ()
  | .run :: as => reported as
  | .start err :: as | .callback err :: as => if isError err then .error err else reported as

/-- What a run of the operation has led to; no run is longer than five steps. -/
structure CompletedOnce (op : Operation E) (as : List Action) (s : State E) : Prop where
  once : s.completions.length ≤ 1
  issued : s.calls.length ≤ 1
  landed : s.completions ≠ [] → s.inFlight = 0
  outcome : ∀ c ∈ s.completions, c = reported as
  completed : (system op).Quiescent (fun _ => False) s → s.completions ≠ []
  finite : as.length ≤ 5

/-! ### The stages of an operation -/

/-- How far the operation has come, by the point that its thread is at. -/
def Stage (past : List Action) (s : State E) : Prop :=
  match s.pc with
  | .setValue | .forward _ | .start _ =>
    s.inFlight = 0 ∧ s.calls = [] ∧ s.completions = [] ∧ reported past = .value ()
  | .complete c => s.inFlight = 0 ∧ s.calls.length = 1 ∧ s.completions = [] ∧ reported past = c
  | .idle => s.calls.length = 1 ∧
    (s.inFlight = 1 ∧ s.completions = [] ∧ reported past = .value () ∨
      s.inFlight = 0 ∧ s.completions = [reported past])

/-- The steps that are left to take. -/
def remaining (s : State E) : ℕ :=
  match s.pc with
  | .setValue => 5
  | .forward _ => 4
  | .start _ => 3
  | .complete _ => 1
  | .idle => 2 * s.inFlight

variable {op : Operation E} {past : List Action} {s s' : State E} {a : Action}

theorem reported_append (h : reported past = .value ()) (as : List Action) :
    reported (past ++ as) = reported as := by
  induction past with
  | nil => rfl
  | cons a past ih =>
    cases a with
    | run => exact ih h
    | start err | callback err =>
      simp only [reported] at h
      split at h
      · cases h
      next hok =>
        simp only [List.cons_append, reported, hok]
        exact ih h

theorem reported_run (past : List Action) : reported (past ++ [.run]) = reported past := by
  induction past with
  | nil => rfl
  | cons a past ih =>
    cases a with
    | run => exact ih
    | start err | callback err => simp only [List.cons_append, reported, ih]

theorem stage_step (hne : op ≠ .send (.bytes [])) (hi : Stage past s) (h : Step op s a s') :
    Stage (past ++ [a]) s' := by
  cases h with
  | empty hp he => exact (hne he).elim
  | forward buff hp =>
    simp only [Stage, hp] at hi
    rwa [Stage, reported_run]
  | issue call hor =>
    rw [Stage, reported_run]
    rcases hor with hp | ⟨buff, hp⟩
    · simpa only [Stage, hp] using hi
    · simpa only [Stage, hp] using hi
  | complete c hp =>
    simp only [Stage, hp] at hi
    obtain ⟨hfl, hcalls, hcomp, hrep⟩ := hi
    rw [Stage, reported_run, hrep]
    exact ⟨hcalls, Or.inr ⟨hfl, by simp [hcomp]⟩⟩
  | ended call err hp =>
    simp only [Stage, hp] at hi
    obtain ⟨hfl, hcalls, hcomp, hrep⟩ := hi
    rw [Stage, reported_append hrep]
    exact ⟨hfl, by simp [hcalls], hcomp, rfl⟩
  | start call err hp he =>
    simp only [Stage, hp] at hi
    obtain ⟨hfl, hcalls, hcomp, hrep⟩ := hi
    rw [Stage, reported_append hrep]
    exact ⟨by simp [hcalls], Or.inl ⟨by simp [hfl], hcomp, by simp [reported, he]⟩⟩
  | callback status hp hpos =>
    simp only [Stage, hp] at hi
    obtain ⟨hcalls, ⟨hfl, hcomp, hrep⟩ | ⟨hfl, -⟩⟩ := hi
    · rw [Stage, reported_append hrep]
      exact ⟨by simp [hfl], hcalls, hcomp, rfl⟩
    · omega

theorem remaining_step (hi : Stage past s) (h : Step op s a s') : remaining s' < remaining s := by
  cases h with
  | empty hp | forward buff hp => simp [remaining, hp]
  | issue call hor => rcases hor with hp | ⟨buff, hp⟩ <;> simp [remaining, hp]
  | complete c hp =>
    simp only [Stage, hp] at hi
    simp [remaining, hp, hi.1]
  | ended call err hp => simp [remaining, hp]
  | start call err hp =>
    simp only [Stage, hp] at hi
    simp [remaining, hp, hi.1]
  | callback status hp hpos =>
    simp only [remaining, hp]
    omega

theorem completed_of_quiescent (hi : Stage past s) (hq : (system op).Quiescent (fun _ => False) s) :
    s.completions ≠ [] := by
  have hrun : runStep op s = none := hq.step_eq_none (a := .run) id
  have hstart := hq.step_eq_none (a := .start 0) id
  have hcallback := hq.step_eq_none (a := .callback 0) id
  cases hp : s.pc with
  | setValue =>
    simp only [runStep, hp] at hrun
    split at hrun <;> cases hrun
  | forward buff => simp [runStep, hp] at hrun
  | complete c => simp [runStep, hp] at hrun
  | start call => simp [system, step, hp] at hstart
  | idle =>
    simp only [Stage, hp] at hi
    rcases hi.2 with ⟨hfl, -⟩ | ⟨-, hcomp⟩
    · simp [system, step, hp, hfl] at hcallback
    · simp [hcomp]

theorem Stage.completedOnce (hi : Stage past s) (hfin : past.length + remaining s ≤ 5) :
    CompletedOnce op past s := by
  have hquiet : (system op).Quiescent (fun _ => False) s → s.completions ≠ [] :=
    completed_of_quiescent hi
  have hle : past.length ≤ 5 := by omega
  cases hp : s.pc with
  | setValue | forward | start =>
    simp only [Stage, hp] at hi
    obtain ⟨-, hcalls, hcomp, -⟩ := hi
    exact ⟨by simp [hcomp], by simp [hcalls], fun hne => (hne hcomp).elim, by simp [hcomp], hquiet, hle⟩
  | complete c =>
    simp only [Stage, hp] at hi
    obtain ⟨-, hcalls, hcomp, -⟩ := hi
    exact ⟨by simp [hcomp], by simp [hcalls], fun hne => (hne hcomp).elim, by simp [hcomp], hquiet, hle⟩
  | idle =>
    simp only [Stage, hp] at hi
    obtain ⟨hcalls, ⟨-, hcomp, -⟩ | ⟨hfl, hcomp⟩⟩ := hi
    · exact ⟨by simp [hcomp], by simp [hcalls], fun hne => (hne hcomp).elim, by simp [hcomp], hquiet, hle⟩
    · exact ⟨by simp [hcomp], by simp [hcalls], fun _ => hfl, by simp [hcomp], hquiet, hle⟩

/-! ### Runs -/

theorem stage_exec (hne : op ≠ .send (.bytes [])) {as : List Action}
    (h : (system op).exec {} as = some s) : Stage as s ∧ as.length + remaining s ≤ 5 := by
  have h0 : Stage [] ({} : State E) := ⟨rfl, rfl, rfl, rfl⟩
  refine System.exec_labels (I := fun past t => Stage past t ∧ past.length + remaining t ≤ 5)
    (fun past t a t' hi hs => ?_) as ⟨h0, Nat.le_refl 5⟩ h
  have hstep := step_cases hs
  have hlt := remaining_step hi.1 hstep
  refine ⟨stage_step hne hi.1 hstep, ?_⟩
  simp only [List.length_append, List.length_singleton]
  omega

/-- Each of the operations completes once, with what its request reports and when
that is not in flight any more, exactly when it is not the send of an empty
buffer of bytes over a datagram socket. -/
theorem request_completed_once (op : Operation E) :
    (∀ as s, (system op).exec {} as = some s → CompletedOnce op as s) ↔
      op ≠ .send (.bytes []) := by
  constructor
  · rintro h rfl
    have hc := h [.run, .run, .start 0] _ rfl
    -- the request is issued after the completion
    have hno : (1 : ℕ) = 0 := hc.landed (List.cons_ne_nil _ _)
    cases hno
  · intro hne as s hexec
    obtain ⟨hi, hfin⟩ := stage_exec hne hexec
    exact hi.completedOnce hfin

/-- A send of no bytes is completed before its request is issued, and again by
its callback. -/
theorem empty_sent : ∃ s : State Unit,
    (system (.send (.bytes []))).exec {} [.run, .run, .start 0, .callback (-104), .run] = some s ∧
      s.completions = [.value (), .error (-104)] ∧
      ¬ CompletedOnce (E := Unit) (.send (.bytes [])) [.run, .run, .start 0, .callback (-104), .run] s :=
  ⟨_, rfl, rfl, fun h => absurd h.once (by decide)⟩

end UvExec.RequestOp
