import UvExec.Algorithms.SocketOpState

/-! # What a connect_to, accept_from or bind_to operation does, by its stages

`course` tells the visible events of an operation from the first stage that
fails. The events of a run, followed by those that its program point still has
to come, are that course. -/

namespace UvExec.SocketOp
open Lib

inductive Stage where
  | init
  | connect
  | predecessor
  | request
  | bind
  | fn
  | connectBody
  deriving DecidableEq, Repr

variable {β E : Type}

def Kind.stages : Kind → List Stage
  | .connectTo | .acceptFrom => [.init, .connect, .predecessor, .request, .fn, .connectBody]
  | .bindTo => [.predecessor, .init, .bind, .fn, .connectBody]

def Outcomes.failure (o : Outcomes β E) : Stage → Option (Disposition β E)
  | .init => if o.init ≠ 0 then some (.error (.errc o.init)) else none
  | .connect => o.connect.map fun x => .error (.exception x)
  | .predecessor => o.predecessor.failure
  | .request => o.request.failure
  | .bind => if o.bind ≠ 0 then some (.error (.errc o.bind)) else none
  | .fn => o.fn.map fun x => .error (.exception x)
  | .connectBody => o.connectBody.map fun x => .error (.exception x)

/-- The signal of the first of the stages that fails, else the body's. -/
def Outcomes.completion (o : Outcomes β E) (stages : List Stage) : Disposition β E :=
  (stages.findSome? o.failure).getD o.body

/-- Whether the socket is closed after a stage has failed. -/
def Kind.closesAfter : Kind → Stage → Bool
  | .bindTo, .bind => true
  | .bindTo, _ => false
  | _, .init | _, .connect => false
  | _, _ => true

def ending (k : Kind) (st : Stage) (fin : Disposition β E) : List (Event β E) :=
  if k.closesAfter st then [.closeStarted, .closed, .completed fin] else [.completed fin]

def course (k : Kind) (o : Outcomes β E) : List Stage → List (Event β E)
  | [] => [.bodyStarted, .closeStarted, .closed, .completed o.body]
  | st :: stages =>
    match o.failure st with
    | some fin => ending k st fin
    | none => if st = .init then .opened :: course k o stages else course k o stages

/-! ### The events to come at a program point -/

def Pc.remaining (k : Kind) : Pc β E → List Stage
  | .init => if k = .bindTo then [.init, .bind, .fn, .connectBody] else k.stages
  | .makeReceiver | .connectIn => [.connect, .predecessor, .request, .fn, .connectBody]
  | .predecessor => if k = .bindTo then k.stages else [.predecessor, .request, .fn, .connectBody]
  | .request => [.request, .fn, .connectBody]
  | .bind => [.bind, .fn, .connectBody]
  | .emplaceBody | .invokeFn => [.fn, .connectBody]
  | .connectBody => [.connectBody]
  | _ => []

def future (k : Kind) (o : Outcomes β E) : Pc β E → List (Event β E)
  | .caught x => ending k .fn (.error (.exception x))
  | .startClose fin | .emplaceClose fin | .connectClose fin => [.closeStarted, .closed, .completed fin]
  | .body => [.closeStarted, .closed, .completed o.body]
  | .closing fin | .closingBody fin => [.closed, .completed fin]
  | .complete _ fin => [.completed fin]
  | .done => []
  | pc => course k o (pc.remaining k)

def Pc.foreign (k : Kind) : Pc β E → Bool
  | .makeReceiver | .connectIn | .request => k = .bindTo
  | .bind => k ≠ .bindTo
  | _ => false

/-- A run has done a part of the course, the rest is ahead of it. -/
structure Inv (k : Kind) (o : Outcomes β E) (s : State β E) : Prop where
  native : s.pc.foreign k = false
  course : s.trace ++ future k o s.pc = course k o k.stages

variable {k : Kind} {o : Outcomes β E} {s s' : State β E}

theorem init_failed (h : o.init ≠ 0) : o.failure .init = some (.error (.errc o.init)) := if_pos h

theorem bind_failed (h : o.bind ≠ 0) : o.failure .bind = some (.error (.errc o.bind)) := if_pos h

theorem bind_passed (h : o.bind = 0) : o.failure .bind = none := if_neg (not_not.mpr h)

theorem threw {st : Stage} {t : Option E} {x : E}
    (hst : o.failure st = t.map fun x => .error (.exception x)) (hx : t = some x) :
    o.failure st = some (.error (.exception x)) := by
  rw [hst, hx]
  rfl

theorem not_threw {st : Stage} {t : Option E}
    (hst : o.failure st = t.map fun x => .error (.exception x)) (hx : t = none) :
    o.failure st = none := by
  rw [hst, hx]
  rfl

theorem course_failed {st : Stage} {fin : Disposition β E} (h : o.failure st = some fin)
    (l : List Stage) : SocketOp.course k o (st :: l) = ending k st fin := by
  rw [SocketOp.course, h]

theorem course_passed {st : Stage} (h : o.failure st = none) (hne : st ≠ .init) (l : List Stage) :
    SocketOp.course k o (st :: l) = SocketOp.course k o l := by
  simp only [SocketOp.course, h, if_neg hne]

theorem course_opened (h : o.init = 0) (l : List Stage) :
    SocketOp.course k o (.init :: l) = .opened :: SocketOp.course k o l := by
  simp only [SocketOp.course, Outcomes.failure, h, ne_eq, not_true_eq_false, if_true, if_false]

section
attribute [local simp] Pc.foreign SocketOp.future Pc.remaining Kind.stages ending Kind.closesAfter

/-- A step moves the head of the future to the end of the trace. -/
theorem Step.future {a : Action} (h : Step k o s a s') (hn : s.pc.foreign k = false) :
    s'.pc.foreign k = false ∧ s'.trace ++ future k o s'.pc = s.trace ++ future k o s.pc := by
  cases h with
  | initFailed hp h0 =>
    have hf := init_failed h0
    cases k <;> simp [hp, course_failed hf]
  | init hp h0 =>
    cases k <;> simp [hp, course_opened h0]
  | makeReceiver hp =>
    simpa [hp] using hn
  | connectThrew x hp hx =>
    have hf : o.failure .connect = _ := threw rfl hx
    cases k <;> simp [hp, course_failed hf] at hn ⊢
  | connectIn hp hx =>
    have hf : o.failure .connect = none := not_threw rfl hx
    cases k <;> simp [hp, course_passed hf] at hn ⊢
  | bindFailed hp h0 =>
    have hf := bind_failed h0
    cases k <;> simp [hp, course_failed hf] at hn ⊢
  | bind hp h0 =>
    have hf := bind_passed h0
    simp [hp, course_passed hf]
  | emplaceBody hp => simp [hp]
  | fnThrew x hp hx =>
    have hf : o.failure .fn = _ := threw rfl hx
    simp [hp, course_failed hf]
  | invokeFn hp hx =>
    have hf : o.failure .fn = none := not_threw rfl hx
    simp [hp, course_passed hf]
  | connectBodyThrew x hp hx =>
    have hf : o.failure .connectBody = _ := threw rfl hx
    cases k <;> simp [hp, course_failed hf]
  | connectBody hp hx =>
    have hf : o.failure .connectBody = none := not_threw rfl hx
    simp [hp, course_passed hf, SocketOp.course]
  | caughtBind x hp hk =>
    subst hk
    simp [hp]
  | caught x slots hp hk hslots =>
    cases k <;> simp [hp] at hk ⊢
  | startClose fin hp => simp [hp]
  | emplaceClose fin hp => simp [hp]
  | connectClose fin hp => simp [hp]
  | complete slot fin hp => simp [hp]
  | predecessor hp hf =>
    have hf : o.failure .predecessor = none := hf
    cases k <;> simp [hp, course_passed hf]
  | predecessorFailed fin hp hf =>
    have hf : o.failure .predecessor = some fin := hf
    cases k <;> simp [hp, course_failed hf]
  | request hp hf =>
    have hf : o.failure .request = none := hf
    simp [hp, course_passed hf]
  | requestFailed fin hp hf =>
    have hf : o.failure .request = some fin := hf
    cases k <;> simp [hp, course_failed hf] at hn ⊢
  | body hp => simp [hp]
  | closed fin hp => simp [hp]
  | closedBody fin hp => simp [hp]

end

theorem inv_of_reachable (h : (system k o).Reachable s) : Inv k o s := by
  refine System.Reachable.invariant ?_ ?_ h
  · rintro _ rfl
    cases k <;> exact ⟨rfl, rfl⟩
  · intro s a s' hi hs
    obtain ⟨hn, hc⟩ := (step_cases hs).future hi.native
    exact ⟨hn, hc.trans hi.course⟩

/-! ### One completion -/

def Event.fin : Event β E → Option (Disposition β E)
  | .completed fin => some fin
  | .opened | .bodyStarted | .closeStarted | .closed => none

def State.completions (s : State β E) : List (Disposition β E) := s.trace.filterMap Event.fin

theorem ending_completions (k : Kind) (st : Stage) (fin : Disposition β E) :
    (ending k st fin).filterMap Event.fin = [fin] := by
  unfold ending
  split <;> rfl

theorem course_completions (k : Kind) (o : Outcomes β E) (l : List Stage) :
    (SocketOp.course k o l).filterMap Event.fin = [o.completion l] := by
  induction l with
  | nil => rfl
  | cons st l ih =>
    cases hf : o.failure st with
    | some fin =>
      rw [course_failed hf, ending_completions, Outcomes.completion, List.findSome?_cons, hf]
      rfl
    | none =>
      have hrest : o.completion (st :: l) = o.completion l := by
        simp only [Outcomes.completion, List.findSome?_cons, hf]
      rw [hrest, ← ih]
      simp only [SocketOp.course, hf]
      split <;> rfl

theorem future_completions (k : Kind) (o : Outcomes β E) {pc : Pc β E} (hpc : pc ≠ .done) :
    (future k o pc).filterMap Event.fin ≠ [] := by
  cases pc with
  | done => exact (hpc rfl).elim
  | caught x => simp [future, ending_completions]
  | startClose | emplaceClose | connectClose | closing | body | closingBody | complete =>
    simp [future, Event.fin]
  | init | makeReceiver | connectIn | predecessor | request | bind | emplaceBody | invokeFn
  | connectBody => simp [future, course_completions]

theorem Inv.completions (h : Inv k o s) :
    (s.pc ≠ .done ∧ s.completions = []) ∨
      (s.pc = .done ∧ s.completions = [o.completion k.stages] ∧
        s.trace = SocketOp.course k o k.stages) := by
  have hc := congrArg (List.filterMap Event.fin) h.course
  rw [List.filterMap_append, course_completions] at hc
  by_cases hp : s.pc = .done
  · right
    have ht := h.course
    simp only [hp, future, List.filterMap_nil, List.append_nil] at hc ht
    exact ⟨hp, hc, ht⟩
  · left
    have hf := future_completions k o hp
    rcases List.append_eq_singleton_iff.mp hc with ⟨hl, -⟩ | ⟨-, hr⟩
    · exact ⟨hp, hl⟩
    · exact (hf hr).elim

/-! ### Termination -/

def rank (k : Kind) : Pc β E → ℕ
  | .init => if k = .bindTo then 12 else 16
  | .makeReceiver => 15
  | .connectIn => 14
  | .predecessor => 13
  | .request => 12
  | .bind => 11
  | .emplaceBody => 10
  | .invokeFn => 9
  | .connectBody => 8
  | .caught _ | .body => 7
  | .startClose _ => 6
  | .emplaceClose _ => 5
  | .connectClose _ => 4
  | .closing _ | .closingBody _ => 3
  | .complete _ _ => 1
  | .done => 0

theorem Step.rank_lt {a : Action} (h : Step k o s a s') : rank k s'.pc < rank k s.pc := by
  cases h with
  | init hp | predecessor hp | predecessorFailed fin hp => cases k <;> simp [rank, hp]
  | initFailed hp => cases k <;> simp [rank, hp]
  | _ => simp [rank, *]

theorem progress (k : Kind) (o : Outcomes β E) (hp : s.pc ≠ .done) :
    ∃ a, (step k o s a).isSome := by
  cases hpc : s.pc with
  | done => exact (hp hpc).elim
  | predecessor => exact ⟨.predecessor, by simp [step, hpc]⟩
  | request => exact ⟨.request, by simp [step, hpc]⟩
  | body => exact ⟨.body, by simp [step, hpc]⟩
  | closing | closingBody => exact ⟨.closed, by simp [step, hpc]⟩
  | connectIn => exact ⟨.run, by cases hx : o.connect <;> simp [step, runStep, hpc, hx]⟩
  | invokeFn => exact ⟨.run, by cases hx : o.fn <;> simp [step, runStep, hpc, hx]⟩
  | connectBody => exact ⟨.run, by cases hx : o.connectBody <;> simp [step, runStep, hpc, hx]⟩
  | caught => exact ⟨.run, by cases k <;> simp [step, runStep, hpc]⟩
  | _ => exact ⟨.run, by simp [step, runStep, hpc]⟩

/-! ### The results -/

theorem course_bodyStarted {l : List Stage} (h : .bodyStarted ∈ SocketOp.course k o l) :
    .closed ∈ SocketOp.course k o l := by
  induction l with
  | nil => simp [SocketOp.course]
  | cons st l ih =>
    cases hf : o.failure st with
    | some fin =>
      rw [course_failed hf] at h
      unfold ending at h
      split at h <;> simp at h
    | none =>
      simp only [SocketOp.course, hf] at h ⊢
      split at h
      next hst =>
        rw [if_pos hst]
        exact List.mem_cons_of_mem _ (ih (List.mem_of_ne_of_mem (by simp) h))
      next hst =>
        rw [if_neg hst]
        exact ih h

/-- One completion, with the signal of the first stage that fails or the body's,
after the close if the body was started, at the end of the whole course. Every step
lowers the rank, and until the completion there is one. -/
structure CompletedOnce (k : Kind) (o : Outcomes β E) (s : State β E) : Prop where
  signal : s.completions = [] ∨ s.completions = [o.completion k.stages]
  progress : s.completions = [] → ∃ a, (step k o s a).isSome
  terminating : ∀ a s', step k o s a = some s' → rank k s'.pc < rank k s.pc
  closed : .bodyStarted ∈ s.trace → s.completions ≠ [] → .closed ∈ s.trace
  course : s.completions ≠ [] → s.trace = SocketOp.course k o k.stages

theorem completed_once (h : (system k o).Reachable s) : CompletedOnce k o s := by
  rcases (inv_of_reachable h).completions with ⟨hp, hnil⟩ | ⟨-, hone, ht⟩
  · exact ⟨Or.inl hnil, fun _ => progress k o hp, fun a s' hs => (step_cases hs).rank_lt,
      fun _ hne => (hne hnil).elim, fun hne => (hne hnil).elim⟩
  · refine ⟨Or.inr hone, fun hnil => ?_, fun a s' hs => (step_cases hs).rank_lt, fun hb _ => ?_,
      fun _ => ht⟩
    · rw [hone] at hnil
      cases hnil
    · rw [ht] at hb ⊢
      exact course_bodyStarted hb

def bodyFails : Outcomes Unit ℕ where
  predecessor := .value ()
  init := 0
  connect := none
  request := .value ()
  bind := 0
  fn := none
  connectBody := none
  body := .error (.other 7)

theorem completed_once_bodyFails : ∃ s : State Unit ℕ, (system .bindTo bodyFails).Reachable s ∧
    s.trace = [.opened, .bodyStarted, .closeStarted, .closed, .completed (.error (.other 7))] ∧
    CompletedOnce .bindTo bodyFails s := by
  have h : (system .bindTo bodyFails).exec (initial .bindTo)
      [.predecessor, .run, .run, .run, .run, .run, .body, .closed, .run] = some _ := rfl
  have hr := System.reachable_exec _ (.initial rfl) h
  exact ⟨_, hr, rfl, completed_once hr⟩

/-! ### The close of the socket -/

def Event.isCloseStarted : Event β E → Bool
  | .closeStarted => true
  | .opened | .bodyStarted | .closed | .completed _ => false

def Event.isClosed : Event β E → Bool
  | .closed => true
  | .opened | .bodyStarted | .closeStarted | .completed _ => false

/-- A socket that was opened is closed once before the receiver completes, any
other is never closed. -/
structure ClosedOnce (s : State β E) : Prop where
  opened : .opened ∈ s.trace → s.completions ≠ [] →
    s.trace.countP Event.isCloseStarted = 1 ∧ s.trace.countP Event.isClosed = 1
  atMost : s.trace.countP Event.isCloseStarted ≤ 1 ∧ s.trace.countP Event.isClosed ≤ 1
  unopened : .opened ∉ s.trace → s.trace.countP Event.isCloseStarted = 0

/-- The stages from whose failure the socket, opened before, is not closed do not
fail; where they come after another that fails they do not matter. -/
def Closing (o : Outcomes β E) : Kind → Prop
  | .connectTo | .acceptFrom => o.init ≠ 0 ∨ o.connect = none
  | .bindTo => (∀ b, o.predecessor ≠ .value b) ∨ o.init ≠ 0 ∨ o.bind ≠ 0 ∨
      (o.fn = none ∧ o.connectBody = none)

def closes (t : List (Event β E)) : ℕ × ℕ :=
  (t.countP Event.isCloseStarted, t.countP Event.isClosed)

theorem ending_closes (k : Kind) (st : Stage) (fin : Disposition β E) :
    closes (ending k st fin) = if k.closesAfter st then (1, 1) else (0, 0) := by
  unfold ending
  split <;> rfl

theorem course_closes {l : List Stage} (h : ∀ st ∈ l, k.closesAfter st = true) :
    closes (SocketOp.course k o l) = (1, 1) := by
  induction l with
  | nil => rfl
  | cons st l ih =>
    have hst := h st List.mem_cons_self
    have hl := ih fun st' hmem => h st' (List.mem_cons_of_mem st hmem)
    cases hf : o.failure st with
    | some fin => rw [course_failed hf, ending_closes, if_pos hst]
    | none =>
      simp only [SocketOp.course, hf]
      split
      · exact hl
      · exact hl

theorem opened_not_mem_ending (k : Kind) (st : Stage) (fin : Disposition β E) :
    .opened ∉ ending k st fin := by
  unfold ending
  split <;> simp

theorem ending_closes_iff {st : Stage} {fin : Disposition β E} {P : Prop} (h : P) :
    (.opened ∈ ending k st fin → closes (ending k st fin) = (1, 1)) ↔ P :=
  iff_of_true (fun hmem => (opened_not_mem_ending k st fin hmem).elim) h

/-- connect_to and accept_from leave the socket open when connecting the first
stage throws. -/
theorem request_closes_iff (hk : k ≠ .bindTo) :
    (.opened ∈ SocketOp.course k o k.stages → closes (SocketOp.course k o k.stages) = (1, 1)) ↔
      o.init ≠ 0 ∨ o.connect = none := by
  have hstages : k.stages = [.init, .connect, .predecessor, .request, .fn, .connectBody] := by
    cases k <;> trivial
  have hrest : ∀ st ∈ [Stage.predecessor, .request, .fn, .connectBody], k.closesAfter st = true := by
    cases k <;> simp [Kind.closesAfter] at hk ⊢
  rw [hstages]
  by_cases h0 : o.init = 0
  · rw [course_opened h0]
    cases hx : o.connect with
    | none =>
      have hf : o.failure .connect = none := not_threw rfl hx
      rw [course_passed hf (by simp)]
      exact iff_of_true (fun _ => course_closes hrest) (Or.inr rfl)
    | some x =>
      have hf : o.failure .connect = _ := threw rfl hx
      have hnot : k.closesAfter .connect = false := by
        cases k <;> rfl
      rw [course_failed hf, ending, hnot]
      simp [closes, Event.isCloseStarted, h0]
  · rw [course_failed (init_failed h0)]
    exact ending_closes_iff (Or.inl h0)

/-- bind_to leaves it open when an exception comes from the user's function or
from connecting its sender. -/
theorem bind_closes_iff (hk : k = .bindTo) :
    (.opened ∈ SocketOp.course k o k.stages → closes (SocketOp.course k o k.stages) = (1, 1)) ↔
      (∀ b, o.predecessor ≠ .value b) ∨ o.init ≠ 0 ∨ o.bind ≠ 0 ∨
        (o.fn = none ∧ o.connectBody = none) := by
  subst hk
  simp only [Kind.stages]
  cases hpre : o.failure .predecessor with
  | some fin =>
    have hval : ∀ b, o.predecessor ≠ .value b := by
      intro b hb
      simp [Outcomes.failure, hb, Disposition.failure] at hpre
    rw [course_failed hpre]
    exact ending_closes_iff (Or.inl hval)
  | none =>
    obtain ⟨b, hb⟩ := Disposition.failure_eq_none.mp hpre
    rw [course_passed hpre (by simp)]
    by_cases h0 : o.init = 0
    · rw [course_opened h0]
      by_cases h1 : o.bind = 0
      · rw [course_passed (bind_passed h1) (by simp)]
        cases hx : o.fn with
        | some x =>
          have hf : o.failure .fn = _ := threw rfl hx
          rw [course_failed hf]
          simp [ending, Kind.closesAfter, closes, Event.isCloseStarted, hb, h0, h1]
        | none =>
          have hf : o.failure .fn = none := not_threw rfl hx
          rw [course_passed hf (by simp)]
          cases hy : o.connectBody with
          | some y =>
            have hg : o.failure .connectBody = _ := threw rfl hy
            rw [course_failed hg]
            simp [ending, Kind.closesAfter, closes, Event.isCloseStarted, hb, h0, h1]
          | none =>
            have hg : o.failure .connectBody = none := not_threw rfl hy
            rw [course_passed hg (by simp)]
            exact iff_of_true (fun _ => rfl) (Or.inr (Or.inr (Or.inr ⟨rfl, rfl⟩)))
      · rw [course_failed (bind_failed h1)]
        exact iff_of_true (fun _ => rfl) (Or.inr (Or.inr (Or.inl h1)))
    · rw [course_failed (init_failed h0)]
      exact ending_closes_iff (Or.inr (Or.inl h0))

theorem course_opened_closes (k : Kind) (o : Outcomes β E) :
    (.opened ∈ SocketOp.course k o k.stages → closes (SocketOp.course k o k.stages) = (1, 1)) ↔
      Closing o k := by
  cases k with
  | connectTo => exact request_closes_iff (by simp)
  | acceptFrom => exact request_closes_iff (by simp)
  | bindTo => exact bind_closes_iff rfl

theorem closes_append (t u : List (Event β E)) :
    closes (t ++ u) = ((closes t).1 + (closes u).1, (closes t).2 + (closes u).2) := by
  simp only [closes, List.countP_append]

theorem course_closes_le (k : Kind) (o : Outcomes β E) (l : List Stage) :
    (closes (SocketOp.course k o l)).1 ≤ 1 ∧ (closes (SocketOp.course k o l)).2 ≤ 1 := by
  induction l with
  | nil => exact ⟨le_rfl, le_rfl⟩
  | cons st l ih =>
    cases hf : o.failure st with
    | some fin =>
      rw [course_failed hf, ending_closes]
      split <;> simp
    | none =>
      simp only [SocketOp.course, hf]
      split
      · exact ih
      · exact ih

theorem course_head (k : Kind) (o : Outcomes β E) :
    (closes (SocketOp.course k o k.stages)).1 = 0 ∨
      ∃ l, SocketOp.course k o k.stages = .opened :: l := by
  have hinit (l : List Stage) : (closes (SocketOp.course k o (.init :: l))).1 = 0 ∨
      ∃ l', SocketOp.course k o (.init :: l) = .opened :: l' := by
    by_cases h0 : o.init = 0
    · exact Or.inr ⟨_, course_opened h0 l⟩
    · left
      rw [course_failed (init_failed h0), ending_closes]
      cases k <;> rfl
  cases k with
  | connectTo => exact hinit _
  | acceptFrom => exact hinit _
  | bindTo =>
    cases hpre : o.failure .predecessor with
    | some fin =>
      left
      rw [Kind.stages, course_failed hpre, ending_closes]
      rfl
    | none =>
      rw [Kind.stages, course_passed hpre (by simp)]
      exact hinit _

theorem unopened_closes {t u : List (Event β E)} (h : t ++ u = SocketOp.course k o k.stages)
    (ht : .opened ∉ t) : (closes t).1 = 0 := by
  rcases course_head k o with hzero | ⟨l, hl⟩
  · rw [← h, closes_append] at hzero
    omega
  · rw [hl] at h
    cases t with
    | nil => rfl
    | cons e t =>
      rw [List.cons_append, List.cons.injEq] at h
      rw [h.1] at ht
      exact (ht List.mem_cons_self).elim

theorem closedOnce_of_reachable (hc : Closing o k) (h : (system k o).Reachable s) :
    ClosedOnce s := by
  have hi := inv_of_reachable h
  have hle := course_closes_le k o k.stages
  rw [← hi.course, closes_append] at hle
  refine ⟨fun hopen hne => ?_, ⟨?_, ?_⟩, fun hno => unopened_closes hi.course hno⟩
  · rcases hi.completions with ⟨-, hnil⟩ | ⟨-, -, ht⟩
    · exact (hne hnil).elim
    · rw [ht] at hopen ⊢
      have hone := (course_opened_closes k o).mpr hc hopen
      exact ⟨congrArg Prod.fst hone, congrArg Prod.snd hone⟩
  · exact Nat.le_trans (Nat.le_add_right _ _) hle.1
  · exact Nat.le_trans (Nat.le_add_right _ _) hle.2

theorem exists_done (h : (system k o).Reachable s) :
    ∃ t, (system k o).Reachable t ∧ t.pc = .done := by
  refine h.exists_of_rank (fun s => rank k s.pc) (fun s hp => ?_)
  obtain ⟨a, ha⟩ := progress k o hp
  obtain ⟨s', hs⟩ := Option.isSome_iff_exists.mp ha
  exact ⟨a, s', hs, (step_cases hs).rank_lt⟩

theorem closed_once_iff (k : Kind) (o : Outcomes β E) :
    (∀ s, (system k o).Reachable s → ClosedOnce s) ↔ Closing o k := by
  constructor
  · intro hall
    obtain ⟨t, ht, hdone⟩ := exists_done (k := k) (o := o) (.initial rfl)
    rcases (inv_of_reachable ht).completions with ⟨hp, -⟩ | ⟨-, hone, htrace⟩
    · exact (hp hdone).elim
    · rw [← course_opened_closes, ← htrace]
      intro hopen
      have hcount := (hall t ht).opened hopen (by simp [hone])
      exact Prod.ext hcount.1 hcount.2
  · intro hc s h
    exact closedOnce_of_reachable hc h

/-- bind_to has bound the socket when the user's function throws. -/
theorem bind_left_open : ∃ s : State Unit ℕ,
    (system .bindTo { bodyFails with fn := some 0 }).Reachable s ∧
      s.trace = [.opened, .completed (.error (.exception 0))] ∧ ¬ClosedOnce s := by
  obtain ⟨s, hs, ht⟩ : ∃ s : State Unit ℕ,
      (system .bindTo { bodyFails with fn := some 0 }).Reachable s ∧
        s.trace = [.opened, .completed (.error (.exception 0))] := by
    have h : (system .bindTo { bodyFails with fn := some 0 }).exec (initial .bindTo)
        [.predecessor, .run, .run, .run, .run, .run, .run] = some _ := rfl
    exact ⟨_, System.reachable_exec _ (.initial rfl) h, rfl⟩
  refine ⟨s, hs, ht, fun hclosed => ?_⟩
  have hcount := hclosed.opened (by simp [ht]) (by simp [State.completions, ht, Event.fin])
  simp [ht, Event.isCloseStarted] at hcount

end UvExec.SocketOp
