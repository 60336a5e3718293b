import UvExec.Algorithms.EventCompletion

/-! # The error exits of the timer and signal operations

An operation that has reported the error of a call has nothing more to do. -/

namespace UvExec.EventOp
open Lib

/-- The operation is completed with the error, and there is no step but that one,
nor any after it, except for a request that finds no stop callback. -/
structure Exits (k : OpState) (s : State) (err : Int) : Prop where
  unregistered : s.op.token.callback = .absent
  completes : s.completions = [] → (loopStep k s).isSome ∧ ∀ a s', step k s a = some s' →
    a = .requestStop ∨ a = .loop ∧ s'.completions = [.error err]
  completed : s.completions ≠ [] → s.completions = [.error err] ∧
    ∀ a s', step k s a = some s' → a = .requestStop

/-- What the errors of the two calls that a run contains lead to. -/
structure ErrorsExit (k : OpState) (as : List Action) (s : State) : Prop where
  once : s.completions.length ≤ 1
  initFailed : ∀ err, .init err ∈ as → isError err = true → Exits k s err
  startFailed : ∀ now err, .start now err ∈ as → isError err = true → Exits k s err
  registered : s.op.token.callback ≠ .absent ∨ s.op.engaged = true →
    (∃ err, .init err ∈ as ∧ isError err = false) ∧
      ∃ now err, .start now err ∈ as ∧ isError err = false

/-! ### The two stages of a run in which `Init` succeeds -/

/-- No call has failed so far. -/
structure Succeeded (past : List Action) (s : State) : Prop where
  race : RaceInv s
  init : s.pc ≠ .init → ∃ err, .init err ∈ past ∧ isError err = false
  start : s.pc ≠ .init → s.pc ≠ .start → ∃ now err, .start now err ∈ past ∧ isError err = false
  starts : ∀ now err, .start now err ∈ past → isError err = false
  handle : s.pc = .start → s.handle = .inactive

/-- The call that starts the timer or the signal has failed. -/
structure StartFailed (past : List Action) (s : State) (err : Int) : Prop where
  op : s.op.Inv
  unregistered : s.op.token.callback = .absent
  disengaged : s.op.engaged = false
  unqueued : s.op.queued = 0
  inactive : s.handle = .inactive
  reporting : s.pc = .startError err ∧ s.completions = [] ∨
    s.pc = .idle ∧ s.completions = [.error err]
  only : ∀ now e, .start now e ∈ past → isError e = true → e = err

variable {k : OpState} {past : List Action} {s s' : State} {a : Action} {err : Int}

theorem StartFailed.exits (h : StartFailed past s err) : Exits k s err := by
  obtain ⟨-, habs, -, hq, hh, hrep, -⟩ := h
  have hcb : s.op.callbackStep = none := by simp [TStopOperation.callbackStep, habs]
  have happly : s.op.beginApply = none := by simp [TStopOperation.beginApply, hq]
  refine ⟨habs, fun hnil => ?_, fun hne => ?_⟩
  · obtain ⟨hp, -⟩ : s.pc = .startError err ∧ s.completions = [] :=
      hrep.resolve_right (fun h => by simp [hnil] at h)
    refine ⟨by simp [loopStep, hp], fun a s' hs => ?_⟩
    cases a with
    | loop =>
      refine Or.inr ⟨rfl, ?_⟩
      have heq : loopStep k s = some s' := hs
      simp only [loopStep, hp, Option.some.injEq] at heq
      simp [← heq, hnil]
    | requestStop => exact Or.inl rfl
    | init e | start now e | fire | apply | closed => simp [step, hp] at hs
    | callback => simp [step, hcb] at hs
  · obtain ⟨hp, hcomp⟩ : s.pc = .idle ∧ s.completions = [.error err] :=
      hrep.resolve_left (fun h => hne h.2)
    refine ⟨hcomp, fun a s' hs => ?_⟩
    cases a with
    | requestStop => rfl
    | init e | start now e | loop => simp [step, loopStep, hp] at hs
    | fire | closed => simp [step, hh] at hs
    | apply => simp [step, happly] at hs
    | callback => simp [step, hcb] at hs

theorem mem_start_append {now : UInt64} {e : Int} (h : .start now e ∈ past ++ [a])
    (ha : ∀ now e, a ≠ .start now e) : .start now e ∈ past := by
  rcases List.mem_append.mp h with h | h
  · exact h
  · exact (ha now e (List.mem_singleton.mp h).symm).elim

theorem startFailed_step (hi : StartFailed past s err) (h : Step k s a s') :
    StartFailed (past ++ [a]) s' err := by
  obtain ⟨hop, habs, he, hq, hh, hrep, honly⟩ := hi
  have hpc : s.pc = .startError err ∨ s.pc = .idle := hrep.imp And.left And.left
  cases h with
  | startError e hp =>
    obtain ⟨hp', hnil⟩ : s.pc = .startError err ∧ s.completions = [] :=
      hrep.resolve_right (fun h => by simp [hp] at h)
    cases hp.symm.trans hp'
    exact ⟨hop, habs, he, hq, hh, Or.inr ⟨rfl, by simp [hnil]⟩,
      fun now e hmem => honly now e (mem_start_append hmem (by simp))⟩
  | requestStop =>
    exact ⟨hop.requestStop, s.op.requestStop_absent habs, he, hq, hh, hrep,
      fun now e hmem => honly now e (mem_start_append hmem (by simp))⟩
  | callback op hr => exact ((TStopOperation.callbackStep_frame hr).1 habs).elim
  | apply hp hpos => omega
  | fire hp ha | closed hp ha => simp [hh] at ha
  | initFailed e hp | init e hp | startFailed now e hp | start now e hp | initError e hp | emplace hp
  | setup hp | setupDone hp | lost hp | won hp | reset op hp | close hp | stop hp | stopClose hp
  | resetStopped op hp | resetValue hp | complete c hp => simp [hp] at hpc

theorem Succeeded.startFailed {now : UInt64} (hi : Succeeded past s) (hp : s.pc = .start) :
    StartFailed (past ++ [.start now err])
      { s with started := some (k.event.start now), pc := .startError err } err := by
  obtain ⟨ht, habs, he⟩ := hi.race.early (by rw [hp]; rfl)
  have hq : s.op.queued = 0 := by
    by_contra hne
    have hstop := (hi.race.op.of_queued (Nat.pos_of_ne_zero hne)).1
    simp [ht] at hstop
  refine ⟨hi.race.op, habs, he, hq, hi.handle hp,
    Or.inl ⟨rfl, hi.race.uncompleted (Or.inr (by simp [hp]))⟩, fun now' e hmem he => ?_⟩
  rcases List.mem_append.mp hmem with hmem | hmem
  · simp [hi.starts now' e hmem] at he
  · cases List.mem_singleton.mp hmem
    rfl

/-- What the steps lead to that belong to neither call. -/
theorem Succeeded.later (hi : Succeeded past s) (hr : RaceInv s') (hp : s.pc ≠ .init)
    (hs : s.pc ≠ .start) (hps : s'.pc ≠ .start) (ha : ∀ now e, a ≠ .start now e) :
    Succeeded (past ++ [a]) s' := by
  obtain ⟨err, hmem, herr⟩ := hi.init hp
  obtain ⟨now, err', hmem', herr'⟩ := hi.start hp hs
  exact ⟨hr, fun _ => ⟨err, List.mem_append_left _ hmem, herr⟩,
    fun _ _ => ⟨now, err', List.mem_append_left _ hmem', herr'⟩,
    fun now e h => hi.starts now e (mem_start_append h ha), fun h => (hps h).elim⟩

theorem Succeeded.foreign (hi : Succeeded past s) (hr : RaceInv s') (hp : s'.pc = s.pc)
    (hh : s'.handle = s.handle) (ha : ∀ now e, a ≠ .start now e) : Succeeded (past ++ [a]) s' := by
  refine ⟨hr, fun h => ?_, fun h h' => ?_, fun now e h => hi.starts now e (mem_start_append h ha),
    fun h => ?_⟩
  · obtain ⟨err, hmem, herr⟩ := hi.init (hp ▸ h)
    exact ⟨err, List.mem_append_left _ hmem, herr⟩
  · obtain ⟨now, err, hmem, herr⟩ := hi.start (hp ▸ h) (hp ▸ h')
    exact ⟨now, err, List.mem_append_left _ hmem, herr⟩
  · rw [hh]
    exact hi.handle (hp ▸ h)

theorem succeeded_step (hi : Succeeded past s) (hok : Armed s a) (h : Step k s a s') :
    Succeeded (past ++ [a]) s' := by
  have hr := raceInv_step hi.race hok h
  cases h with
  | init err hp he =>
    exact ⟨hr, fun _ => ⟨err, by simp, he⟩, by simp,
      fun now e hmem => hi.starts now e (mem_start_append hmem (by simp)), fun _ => rfl⟩
  | start now err hp he =>
    obtain ⟨err', hmem, herr⟩ := hi.init (by simp [hp])
    refine ⟨hr, fun _ => ⟨err', List.mem_append_left _ hmem, herr⟩, fun _ _ => ⟨now, err, by simp, he⟩,
      fun now' e hmem => ?_, by simp⟩
    rcases List.mem_append.mp hmem with hmem | hmem
    · exact hi.starts now' e hmem
    · cases List.mem_singleton.mp hmem
      exact he
  | initFailed err hp he | startFailed now err hp he =>
    have hno : isError err = false := hok
    simp [he] at hno
  | initError err hp => exact ((hi.race.failed err).1 hp).elim
  | requestStop | callback => exact hi.foreign hr rfl rfl (by simp)
  | startError err hp | emplace hp | setup hp | setupDone hp | lost hp | won hp | reset op hp
  | close hp | stop hp | stopClose hp | resetStopped op hp | resetValue hp | complete c hp | fire hp
  | apply hp | closed hp =>
    exact hi.later hr (by simp [hp]) (by simp [hp]) (by simp) (by simp)

/-! ### Runs -/

/-- Every call of `Init` in the run has succeeded. -/
def Initialised (as : List Action) : Prop := ∀ err, .init err ∈ as → isError err = false

def Stage (past : List Action) (s : State) : Prop :=
  Initialised past → Succeeded past s ∨ ∃ err, StartFailed past s err

theorem stage_step (hi : Stage past s) (h : step k s a = some s') : Stage (past ++ [a]) s' := by
  intro hinit
  have hpast : Initialised past := fun err hmem => hinit err (List.mem_append_left _ hmem)
  have hstep := step_cases h
  rcases hi hpast with hs | ⟨err, hf⟩
  · by_cases hok : Armed s a
    · exact Or.inl (succeeded_step hs hok hstep)
    · cases hstep with
      | initFailed err hp he => simp [hinit err (by simp)] at he
      | startFailed now err hp he => exact Or.inr ⟨err, hs.startFailed hp⟩
      | init err hp he | start now err hp he => exact (hok he).elim
      | _ => exact (hok trivial).elim
  · exact Or.inr ⟨err, startFailed_step hf hstep⟩

theorem initial_succeeded (k : OpState) : Succeeded [] (initial k) :=
  ⟨reachable_raceInv (.initial rfl : (system k).ReachableVia Armed (initial k)),
    fun h => (h rfl).elim, fun h => (h rfl).elim, by simp, fun h => by cases h⟩

theorem Succeeded.errorsExit (h : Succeeded past s) (hinit : Initialised past) :
    ErrorsExit k past s where
  once := h.race.once
  initFailed err hmem he := by simp [hinit err hmem] at he
  startFailed now err hmem he := by simp [h.starts now err hmem] at he
  registered hor := by
    have hlate : s.pc.early = false := by
      cases hp : s.pc.early with
      | false => rfl
      | true =>
        obtain ⟨-, habs, he⟩ := h.race.early hp
        simp [habs, he] at hor
    have hi : s.pc ≠ .init := fun hp => by simp [hp, Pc.early] at hlate
    have hs : s.pc ≠ .start := fun hp => by simp [hp, Pc.early] at hlate
    exact ⟨h.init hi, h.start hi hs⟩

theorem StartFailed.errorsExit (h : StartFailed past s err) (hinit : Initialised past) :
    ErrorsExit k past s where
  once := by rcases h.reporting with ⟨-, hc⟩ | ⟨-, hc⟩ <;> simp [hc]
  initFailed err hmem he := by simp [hinit err hmem] at he
  startFailed now e hmem he := by
    rw [h.only now e hmem he]
    exact h.exits
  registered hor := by simp [h.unregistered, h.disengaged] at hor

/-- In every run of every such operation the error of a call is reported, once
and as its last step, and the stop callback is registered after both calls have
succeeded only, exactly when `Init` does not fail. -/
theorem errors_exit (k : OpState) (err : Int) :
    (∀ as s, (system k).exec (initial k) as = some s → (∀ e, .init e ∈ as → e = err) →
      ErrorsExit k as s) ↔ isError err = false := by
  constructor
  · intro h
    by_contra hne
    have he : isError err = true := by simpa using hne
    let s : State := { initial k with pc := .initError err }
    have hinit : (system k).step (initial k) (.init err) = some s := by
      simp [system, step, initial, he, s]
    have hexec : (system k).exec (initial k) [.init err, .loop] = some (s.complete (.error err) .start) := by
      rw [System.exec_cons _ hinit]
      rfl
    have hexits := (h _ _ hexec (by simp)).initFailed err (by simp) he
    -- the call of `TimerStart` or `SignalOnce` follows
    obtain ⟨-, hover⟩ := hexits.completed (by simp [s])
    have hno := hover (.start 0 0) _ rfl
    cases hno
  · intro he as s hexec hinit
    have hall : Initialised as := fun e hmem => by rw [hinit e hmem, he]
    have hstage : Stage as s :=
      System.exec_labels (I := Stage) (fun _ _ _ _ hi hs => stage_step hi hs) as
        (fun _ => Or.inl (initial_succeeded k)) hexec
    rcases hstage hall with hs | ⟨e, hf⟩
    · exact hs.errorsExit hall
    · exact hf.errorsExit hall

/-- A signal number that `SignalOnce` refuses. -/
theorem errors_exit_refused : ∃ s,
    (system (uponSignalOpState 0)).exec (initial (uponSignalOpState 0))
      [.init 0, .start 0 (-22), .loop] = some s ∧ s.completions = [.error (-22)] ∧
      Exits (uponSignalOpState 0) s (-22) :=
  ⟨_, rfl, rfl, ((errors_exit (uponSignalOpState 0) 0).mpr rfl [.init 0, .start 0 (-22), .loop] _ rfl
    (by simp)).startFailed 0 (-22) (by simp) rfl⟩

/-- `Init` fails, and the operation goes on to `SignalOnce`, whose error
completes it again. -/
theorem completed_after_error : ∃ s,
    (system (uponSignalScheduleOpState 2)).exec (initial (uponSignalScheduleOpState 2))
      [.init (-24), .loop, .start 0 (-22), .loop] = some s ∧
      s.completions = [.error (-24), .error (-22)] ∧
      ¬ ErrorsExit (uponSignalScheduleOpState 2) [.init (-24), .loop, .start 0 (-22), .loop] s :=
  ⟨_, rfl, rfl, fun h => absurd h.once (by decide)⟩

end UvExec.EventOp
