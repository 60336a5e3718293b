import UvExec.Execution.Loop

/-! # A loop without locks

What a `TLoop` is for a program that drives it from one thread: one call at a
time, `uv_run` and its stop flag. There is no mutex here, no queue of runners
and no counter of wakeups. -/

namespace UvExec.PlainLoop
open Lib

/-- The active call before and between its runs of `uv_run`, inside of it, and
behind it. -/
inductive Phase where
  | outside
  | inside (p : Loop.UvPc)
  | leaving
  deriving DecidableEq, Repr

/-- Where senders start and callbacks run. -/
def Phase.userCode : Phase → Bool
  | .outside | .inside .callbacks | .inside .events => true
  | .inside .test | .inside (.poll _) | .inside .exit | .leaving => false

def Phase.isInside : Phase → Bool
  | .inside _ => true
  | .outside | .leaving => false

/- `delivered` is what the sender of an active `sync_wait` has completed with,
`ended` the results of the calls. -/
structure State (C : Type) where
  active : Option C := none
  call : Loop.Call := .run
  phase : Phase := .outside
  delivered : Option Destination := none
  ended : C → Option Outcome := fun _ => none
  stop : Bool := false
  signal : Bool := false

inductive Action (C : Type) where
  | call (c : C) (k : Loop.Call)
  | deliver (sig : Signal)
  | enter
  | iterate
  | event
  | again
  | finish
  | stop
  | fire
  deriving DecidableEq, Repr

variable {C : Type}

/-- What the active call returns where it stands. -/
def result (t : State C) : Option Outcome :=
  match t.phase with
  | .outside => if t.call = .syncWait then t.delivered.map unwrapSyncWaitReceiverState else none
  | .leaving => if t.call = .syncWait then none else some .values
  | .inside _ => none

def uvStep (t : State C) : Loop.UvPc → Option (State C)
  | .test => some { t with phase := .inside (if t.stop then .exit else .callbacks) }
  | .callbacks => some { t with phase := .inside (.poll (t.call.mode ≠ .nowait && !t.stop)) }
  | .poll blocks =>
    if t.signal then some { t with signal := false, phase := .inside .events }
    else if blocks then none
    else some { t with phase := .inside .events }
  | .events => some { t with phase := .inside (if t.call.mode = .default then .test else .exit) }
  | .exit => some { t with stop := false, phase := .leaving }

variable [DecidableEq C]

def step (t : State C) : Action C → Option (State C)
  | .call c k =>
    if t.active = none ∧ t.ended c = none then
      some { t with active := some c, call := k, phase := .outside, delivered := none }
    else none
  | .deliver sig =>
    -- a sender that completes before the run leaves the flag alone
    if t.active ≠ none ∧ t.call = .syncWait ∧ t.delivered = none ∧ t.phase.userCode = true then
      some { t with delivered := some (emplaceResult sig), stop := t.stop || t.phase.isInside }
    else none
  | .enter =>
    if t.active ≠ none ∧ t.phase = .outside ∧ t.delivered = none then
      some { t with phase := .inside .test }
    else none
  | .iterate =>
    match t.active, t.phase with
    | some _, .inside p => uvStep t p
    | _, _ => none
  | .event =>
    match t.active, t.phase with
    | some _, .inside (.poll true) => some { t with phase := .inside .events }
    | _, _ => none
  | .again =>
    if t.active ≠ none ∧ t.call = .syncWait ∧ t.phase = .leaving then
      some { t with phase := .outside }
    else none
  | .finish =>
    match t.active, result t with
    | some c, some o => some { t with active := none, ended := Function.update t.ended c (some o) }
    | _, _ => none
  | .stop => if t.active = none ∨ t.phase.userCode = true then some { t with stop := true } else none
  | .fire => some { t with signal := true }

def system : System (State C) (Action C) where
  initial t := t = {}
  step := step

/-! ### Inversion -/

inductive Step (t : State C) : Action C → State C → Prop
  | call (c : C) (k : Loop.Call) : t.active = none → t.ended c = none → Step t (.call c k)
      { t with active := some c, call := k, phase := .outside, delivered := none }
  | deliver (c : C) (sig : Signal) : t.active = some c → t.call = .syncWait → t.delivered = none →
      t.phase.userCode = true → Step t (.deliver sig)
        { t with delivered := some (emplaceResult sig), stop := t.stop || t.phase.isInside }
  | enter (c : C) : t.active = some c → t.phase = .outside → t.delivered = none →
      Step t .enter { t with phase := .inside .test }
  | iterate (c : C) (p : Loop.UvPc) (t' : State C) : t.active = some c → t.phase = .inside p →
      uvStep t p = some t' → Step t .iterate t'
  | event (c : C) : t.active = some c → t.phase = .inside (.poll true) →
      Step t .event { t with phase := .inside .events }
  | again (c : C) : t.active = some c → t.call = .syncWait → t.phase = .leaving →
      Step t .again { t with phase := .outside }
  | finish (c : C) (o : Outcome) : t.active = some c → result t = some o → Step t .finish
      { t with active := none, ended := Function.update t.ended c (some o) }
  | stop : t.active = none ∨ t.phase.userCode = true → Step t .stop { t with stop := true }
  | fire : Step t .fire { t with signal := true }

variable {t t' : State C} {a : Action C}

theorem step_cases (h : step t a = some t') : Step t a t' := by
  cases a with
  | call c k =>
    simp only [step, Option.ite_none_right_eq_some, Option.some.injEq] at h
    obtain ⟨⟨hact, hend⟩, rfl⟩ := h
    exact .call c k hact hend
  | deliver sig =>
    simp only [step, Option.ite_none_right_eq_some, Option.some.injEq] at h
    obtain ⟨⟨hact, hcall, hdel, huser⟩, rfl⟩ := h
    obtain ⟨c, hc⟩ := Option.ne_none_iff_exists'.mp hact
    exact .deliver c sig hc hcall hdel huser
  | enter =>
    simp only [step, Option.ite_none_right_eq_some, Option.some.injEq] at h
    obtain ⟨⟨hact, hout, hdel⟩, rfl⟩ := h
    obtain ⟨c, hc⟩ := Option.ne_none_iff_exists'.mp hact
    exact .enter c hc hout hdel
  | iterate =>
    simp only [step] at h
    split at h
    next c p hact hph => exact .iterate c p t' hact hph h
    next => cases h
  | event =>
    simp only [step] at h
    split at h
    next c hact hph =>
      cases h
      exact .event c hact hph
    next => cases h
  | again =>
    simp only [step, Option.ite_none_right_eq_some, Option.some.injEq] at h
    obtain ⟨⟨hact, hcall, hph⟩, rfl⟩ := h
    obtain ⟨c, hc⟩ := Option.ne_none_iff_exists'.mp hact
    exact .again c hc hcall hph
  | finish =>
    simp only [step] at h
    split at h
    next c o hact hres =>
      cases h
      exact .finish c o hact hres
    next => cases h
  | stop =>
    simp only [step, Option.ite_none_right_eq_some, Option.some.injEq] at h
    obtain ⟨hor, rfl⟩ := h
    exact .stop hor
  | fire =>
    cases h
    exact .fire

/-! ### The stop flag -/

/-- A `sync_wait` whose sender has completed inside `uv_run` leaves it and does
not block there, and the flag is clear behind `uv_run`. -/
structure StopInv (t : State C) : Prop where
  stopped : t.active ≠ none → t.phase.isInside = true → t.delivered ≠ none → t.stop = true
  blocked : t.active ≠ none → t.phase = .inside (.poll true) → t.delivered = none
  leaving : t.active ≠ none → t.phase = .leaving → t.stop = false
  sync : t.active ≠ none → t.delivered ≠ none → t.call = .syncWait

omit [DecidableEq C] in
theorem stopInv_uvStep {p : Loop.UvPc} (hi : StopInv t) (hact : t.active ≠ none)
    (hp : t.phase = .inside p) (h : uvStep t p = some t') : StopInv t' := by
  have hstop : t.delivered ≠ none → t.stop = true := hi.stopped hact (by simp [hp, Phase.isInside])
  cases p with
  | test =>
    cases h
    refine ⟨fun _ _ hdel => hstop hdel, ?_, by simp, hi.sync⟩
    intro _ hb
    simp only [Phase.inside.injEq] at hb
    split at hb <;> cases hb
  | callbacks =>
    cases h
    refine ⟨fun _ _ hdel => hstop hdel, ?_, by simp, hi.sync⟩
    intro _ hb
    by_contra hdel
    simp [hstop hdel] at hb
  | poll b =>
    simp only [uvStep] at h
    split at h
    · cases h
      exact ⟨fun _ _ hdel => hstop hdel, by simp, by simp, hi.sync⟩
    · split at h
      · cases h
      · cases h
        exact ⟨fun _ _ hdel => hstop hdel, by simp, by simp, hi.sync⟩
  | events =>
    cases h
    refine ⟨fun _ _ hdel => hstop hdel, ?_, by simp, hi.sync⟩
    intro _ hb
    simp only [Phase.inside.injEq] at hb
    split at hb <;> cases hb
  | exit =>
    cases h
    exact ⟨by simp [Phase.isInside], by simp, by simp, hi.sync⟩

theorem stopInv_step (hi : StopInv t) (h : Step t a t') : StopInv t' := by
  cases h with
  | call c k => exact ⟨by simp, by simp, by simp, by simp⟩
  | deliver c sig hact hcall hdel huser =>
    refine ⟨?_, ?_, ?_, fun _ _ => hcall⟩
    · intro _ hin _
      simp only at hin
      simp [hin]
    · intro _ hp
      simp only at hp
      simp [hp, Phase.userCode] at huser
    · intro _ hp
      simp only at hp
      simp [hp, Phase.userCode] at huser
  | enter c hact hout hdel =>
    exact ⟨fun _ _ hne => (hne hdel).elim, by simp, by simp, hi.sync⟩
  | iterate c p t' hact hp hstep => exact stopInv_uvStep hi (by simp [hact]) hp hstep
  | event c hact hp =>
    refine ⟨?_, by simp, by simp, hi.sync⟩
    intro _ _ hdel
    exact (hdel (hi.blocked (by simp [hact]) hp)).elim
  | again c hact hcall hp => exact ⟨by simp [Phase.isInside], by simp, by simp, hi.sync⟩
  | finish c o hact hres => exact ⟨by simp, by simp, by simp, by simp⟩
  | stop hor =>
    refine ⟨fun _ _ _ => rfl, hi.blocked, ?_, hi.sync⟩
    intro hact hp
    rcases hor with hnone | huser
    · exact (hact hnone).elim
    · simp only at hp
      simp [hp, Phase.userCode] at huser
  | fire => exact ⟨hi.stopped, hi.blocked, hi.leaving, hi.sync⟩

theorem reachable_stopInv (h : system.Reachable t) : StopInv t := by
  refine System.Reachable.invariant ?_ ?_ h
  · rintro _ rfl
    constructor <;> simp
  · intro t a t' hi hs
    exact stopInv_step hi (step_cases hs)

end UvExec.PlainLoop
