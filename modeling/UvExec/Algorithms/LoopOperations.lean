import UvExec.Algorithms.EventErrors
import UvExec.Algorithms.ReadStages
import UvExec.Execution.Dispatch

/-! # Timers, signals and reads on one loop

Each of the operations with a `TStopOperation` is one that a loop can run among any
number of others. Every call that starts a timer, a signal or a read may fail. Of the
handles it is assumed that `Init` does not fail, and that each read has its own socket. -/

namespace UvExec.EventOp
open Lib

/-! ### Timer and signal operations -/

/-- Runs in which no `Init` fails. After one that does the operation goes on. -/
def InitSucceeds (_ : State) : Action → Prop
  | .init err => isError err = false
  | _ => True

/-- What is known of an operation that has neither been closed nor completed. -/
structure WaitInv (s : State) : Prop where
  told : s.op.Told
  constructed : s.pc = .setupDone ∨ s.op.engaged = true → s.op.token.callback ≠ .absent
  armed : s.pc = .emplace ∨ s.pc = .setup ∨ s.pc = .setupDone → s.handle = .active
  engaged : s.pc = .idle ∨ s.pc = .testAndSet ∨ s.pc = .stop ∨ s.pc = .stopClose →
    s.closes = 0 → s.op.engaged = true
  waits : s.pc = .idle → s.closes = 0 → s.handle = .active ∨ s.op.taker ≠ none
  handed : s.op.Handed → s.pc = .stop ∨ s.pc = .stopClose ∨ s.closes = 1

variable {k : OpState} {s s' : State} {a : Action}

theorem WaitInv.foreign {op : TStopOperation} (hi : WaitInv s) (h : s.op.Foreign op)
    (htold : op.Told) (hhanded : op.Handed → s.op.Handed) : WaitInv { s with op := op } where
  told := htold
  constructed hor := by
    have hold := hi.constructed (hor.imp_right h.engaged.symm.trans)
    exact mt h.absent.mp hold
  armed := hi.armed
  engaged hp hc := h.engaged.trans (hi.engaged hp hc)
  waits hp hc := by
    rcases hi.waits hp hc with ha | ht
    · exact Or.inl ha
    · obtain ⟨t, ht⟩ := Option.ne_none_iff_exists'.mp ht
      exact Or.inr (by simp [h.taker_some ht])
  handed hh := hi.handed (hhanded hh)

theorem WaitInv.requestStop (hi : WaitInv s) : WaitInv { s with op := s.op.requestStop } :=
  hi.foreign s.op.requestStop_foreign hi.told.requestStop TStopOperation.handed_requestStop

theorem WaitInv.callback {op : TStopOperation} (hr : RaceInv s) (hi : WaitInv s)
    (h : s.op.callbackStep = some op) : WaitInv { s with op := op } :=
  hi.foreign (hr.op.callbackStep_foreign h) (hi.told.callbackStep h)
    (TStopOperation.handed_callbackStep h)

theorem told_step (hi : WaitInv s) (h : Step k s a s') : s'.op.Told := by
  cases h with
  | setup => exact .setup _
  | setupDone hc => exact ⟨hi.told.registered, hi.told.begun, hi.told.executed⟩
  | won => exact hi.told.take _
  | reset op hc hr | resetStopped op hc he hr => exact hi.told.resetCallback hr
  | apply => exact ⟨hi.told.registered, hi.told.begun, hi.told.executed⟩
  | requestStop => exact hi.told.requestStop
  | callback op hr => exact hi.told.callbackStep hr
  | _ => exact hi.told

theorem constructed_step (hr : RaceInv s) (hi : WaitInv s) (h : Step k s a s') :
    s'.pc = .setupDone ∨ s'.op.engaged = true → s'.op.token.callback ≠ .absent := by
  intro hor
  cases h with
  | setup hc =>
    simp only [TStopOperation.setup, StopToken.construct]
    split <;> simp
  | setupDone hc => exact hi.constructed (Or.inl hc)
  | reset op hc hreset | resetStopped op hc he hreset =>
    rcases TStopOperation.resetCallback_cases hreset with ⟨-, rfl⟩ | ⟨-, -, rfl⟩
    · exact hi.constructed (Or.inr (by simpa using hor))
    · simp at hor
  | requestStop => exact hi.requestStop.constructed hor
  | callback op hs => exact (hi.callback hr hs).constructed hor
  | _ => exact hi.constructed (Or.inr (by simpa using hor))

theorem armed_step (hr : RaceInv s) (hi : WaitInv s) (h : Step k s a s') :
    s'.pc = .emplace ∨ s'.pc = .setup ∨ s'.pc = .setupDone → s'.handle = .active := by
  intro hp
  cases h with
  | start => rfl
  | emplace hc => exact hi.armed (Or.inl hc)
  | setup hc => exact hi.armed (Or.inr (Or.inl hc))
  | requestStop => exact hi.requestStop.armed hp
  | callback op hs => exact (hi.callback hr hs).armed hp
  | _ => simp at hp

/-- `CloseCallback` runs on a closed handle. -/
theorem RaceInv.closes_of_inClose (hr : RaceInv s) (hc : s.pc.inClose = true) : s.closes = 1 := by
  rw [hr.closes, (hr.inClose hc).1]
  rfl

theorem engaged_kept (hr : RaceInv s) (hi : WaitInv s) (h : Step k s a s') :
    s'.pc = .idle ∨ s'.pc = .testAndSet ∨ s'.pc = .stop ∨ s'.pc = .stopClose →
      s'.closes = 0 → s'.op.engaged = true := by
  intro hp hz
  cases h with
  | setupDone => rfl
  | lost hc => exact hi.engaged (Or.inr (Or.inl hc)) hz
  | fire hc | apply hc => exact hi.engaged (Or.inl hc) hz
  | stop hc => exact hi.engaged (Or.inr (Or.inr (Or.inl hc))) hz
  | close | stopClose => cases hz
  | complete c hc =>
    have hone := hr.closes_of_inClose (by rw [hc]; rfl)
    have hzero : s.closes = 0 := hz
    omega
  | startError err hc => exact ((hr.failed err).2 hc).elim
  | requestStop => exact hi.requestStop.engaged hp hz
  | callback op hs => exact (hi.callback hr hs).engaged hp hz
  | _ => simp at hp

theorem waits_step (hr : RaceInv s) (hi : WaitInv s) (h : Step k s a s') :
    s'.pc = .idle → s'.closes = 0 → s'.handle = .active ∨ s'.op.taker ≠ none := by
  intro hp hz
  cases h with
  | setupDone hc => exact Or.inl (hi.armed (Or.inr (Or.inr hc)))
  | lost hc hu => exact Or.inr (hr.op.used.mp hu)
  | close | stopClose => cases hz
  | complete c hc =>
    have hone := hr.closes_of_inClose (by rw [hc]; rfl)
    have hzero : s.closes = 0 := hz
    omega
  | startError err hc => exact ((hr.failed err).2 hc).elim
  | requestStop => exact hi.requestStop.waits hp hz
  | callback op hs => exact (hi.callback hr hs).waits hp hz
  | _ => cases hp

theorem WaitInv.closes_of_handed (hi : WaitInv s) (hh : s.op.Handed) (hs : s.pc ≠ .stop)
    (hc : s.pc ≠ .stopClose) : s.closes = 1 := by
  rcases hi.handed hh with hp | hp | hone
  · exact (hs hp).elim
  · exact (hc hp).elim
  · exact hone

theorem handed_step (hr : RaceInv s) (hi : WaitInv s) (h : Step k s a s') :
    s'.op.Handed → s'.pc = .stop ∨ s'.pc = .stopClose ∨ s'.closes = 1 := by
  intro hh
  cases h with
  | apply => exact Or.inl rfl
  | stop => exact Or.inr (Or.inl rfl)
  | stopClose hc =>
    have hzero := hr.unclosed (by simp [hc]) (by rw [hc]; rfl)
    exact Or.inr (Or.inr (by simp [hzero]))
  | setup hc =>
    have hnone := (hr.early (by rw [hc]; rfl)).1
    have hstop : s.op.taker = some .stop := hh.1
    simp [hnone] at hstop
  | won => cases hh.1
  | close hc =>
    have hwon := hr.won (Or.inr hc)
    have hstop : s.op.taker = some .stop := hh.1
    simp [hwon] at hstop
  | reset op hc hreset =>
    have hwon := hr.won (Or.inl hc)
    have hstop := hh.1
    simp [TStopOperation.resetCallback_taker hreset, hwon] at hstop
  | resetStopped op hc => exact Or.inr (Or.inr (hr.closes_of_inClose (by rw [hc]; rfl)))
  | requestStop => exact hi.requestStop.handed hh
  | callback op hs => exact (hi.callback hr hs).handed hh
  | setupDone hc =>
    have hold : s.op.Handed := hh
    exact Or.inr (Or.inr (hi.closes_of_handed hold (by simp [hc]) (by simp [hc])))
  | initFailed err hc | init err hc | startFailed now err hc | start now err hc | initError err hc
  | startError err hc | emplace hc | lost hc | resetValue hc | complete c hc | fire hc | closed hc =>
    exact Or.inr (Or.inr (hi.closes_of_handed hh (by simp [hc]) (by simp [hc])))

theorem waitInv_step (hr : RaceInv s) (hi : WaitInv s) (h : Step k s a s') : WaitInv s' where
  told := told_step hi h
  constructed := constructed_step hr hi h
  armed := armed_step hr hi h
  engaged := engaged_kept hr hi h
  waits := waits_step hr hi h
  handed := handed_step hr hi h

theorem waitInv_initial (k : OpState) : WaitInv (initial k) := by
  have htold := TStopOperation.Told.initial
  constructor <;> simp [initial, htold, TStopOperation.Handed]

/-- Nothing has failed in the operation, or the call that starts its timer or signal. -/
def Phase (past : List Action) (s : State) : Prop :=
  Succeeded past s ∧ WaitInv s ∨ ∃ err, StartFailed past s err

theorem phase_step {past : List Action} (hi : Phase past s) (hok : InitSucceeds s a)
    (h : Step k s a s') : Phase (past ++ [a]) s' := by
  rcases hi with ⟨hs, hw⟩ | ⟨err, hf⟩
  · by_cases harmed : Armed s a
    · exact Or.inl ⟨succeeded_step hs harmed h, waitInv_step hs.race hw h⟩
    · cases h with
      | initFailed err hp he =>
        have hno : isError err = false := hok
        simp [he] at hno
      | startFailed now err hp he => exact Or.inr ⟨err, hs.startFailed hp⟩
      | init err hp he | start now err hp he => exact (harmed he).elim
      | _ => exact (harmed trivial).elim
  · exact Or.inr ⟨err, startFailed_step hf h⟩

theorem reachable_phase (h : (system k).ReachableVia InitSucceeds s) : ∃ past, Phase past s := by
  induction h with
  | initial h0 =>
    cases h0
    exact ⟨[], Or.inl ⟨initial_succeeded k, waitInv_initial k⟩⟩
  | step a _ hok hs ih =>
    obtain ⟨past, hi⟩ := ih
    exact ⟨past ++ [a], phase_step hi hok (step_cases hs)⟩

theorem Phase.op {past : List Action} (h : Phase past s) : s.op.Inv := by
  rcases h with ⟨hs, -⟩ | ⟨err, hf⟩
  · exact hs.race.op
  · exact hf.op

/-- An operation at rest whose flag is taken, with nothing of its stop operation on the
way, has been closed. -/
theorem closes_of_taken (hr : RaceInv s) (hi : WaitInv s) (hidle : s.pc = .idle)
    (hq : s.op.queued = 0) (hrun : ∀ i p, s.op.token.callback ≠ .running i p) {t : Taker}
    (ht : s.op.taker = some t) : s.closes = 1 := by
  have hsched := TStopOperation.scheduling_of_not_running hrun
  cases t with
  | completion => exact hr.closes_of_taken ht (by simp [hidle]) (by simp [hidle])
  | stop => exact hi.closes_of_handed ⟨ht, hq, hsched⟩ (by simp [hidle]) (by simp [hidle])

theorem WaitInv.settled (hr : RaceInv s) (hi : WaitInv s) (hidle : s.pc = .idle)
    (hq : s.op.queued = 0) (hrun : ∀ i p, s.op.token.callback ≠ .running i p)
    (hclosed : step k s .closed = none) :
    s.completions.length = 1 ∨ s.handle = .active ∧ s.completions.length = 0 ∧
      s.op.token.callback = .registered ∧ s.op.token.requested = false := by
  by_cases hone : s.closes = 1
  · left
    have hhandle : s.handle = .closed := by
      have hcloses := hr.closes
      cases hh : s.handle with
      | closed => rfl
      | closing => simp [step, hidle, hh] at hclosed
      | uninitialized | inactive | active => simp [hone, hh, HandleState.closes] at hcloses
    have hne := hr.completed.mpr ⟨hhandle, hidle⟩
    have hlen := hr.once
    have hpos := List.length_pos_of_ne_nil hne
    omega
  · right
    have hzero : s.closes = 0 := by
      have hcloses := hr.closes
      split at hcloses
      · exact (hone hcloses).elim
      · exact hcloses
    have hfree : ∀ t, s.op.taker ≠ some t := fun t ht =>
      hone (closes_of_taken hr hi hidle hq hrun ht)
    have hactive : s.handle = .active := by
      rcases hi.waits hidle hzero with ha | ht
      · exact ha
      · obtain ⟨t, ht⟩ := Option.ne_none_iff_exists'.mp ht
        exact (hfree t ht).elim
    have hnil := hr.uncompleted (Or.inl (by simp [hactive]))
    refine ⟨hactive, by simp [hnil], ?_⟩
    have hne := hi.constructed (Or.inr (hi.engaged (Or.inl hidle) hzero))
    rcases hi.told.registered_or_taken hr.op hne hrun with hreg | ⟨t, ht⟩
    · exact hreg
    · exact (hfree t ht).elim

/-- An operation whose start has failed has completed with that once it is at rest. -/
theorem StartFailed.settled {past : List Action} {err : Int} (h : StartFailed past s err)
    (hidle : s.pc = .idle) : s.completions.length = 1 := by
  rcases h.reporting with ⟨hp, -⟩ | ⟨-, hc⟩
  · simp [hidle] at hp
  · simp [hc]

def role : Action → Dispatch.Role
  | .init _ | .start _ _ | .loop => .inside
  | .fire => .event
  | .closed => .closed
  | .apply => .apply
  | .requestStop => .requestStop
  | .callback => .callback

theorem kept_inside (h : Step k s a s')
    (ha : role a = .inside ∨ role a = .event ∨ role a = .closed) :
    s'.op.queued = s.op.queued ∧ s'.op.pushes = s.op.pushes := by
  cases h with
  | apply | requestStop | callback => simp [role] at ha
  | reset op hc hr | resetStopped op hc he hr =>
    rcases TStopOperation.resetCallback_cases hr with ⟨-, rfl⟩ | ⟨-, -, rfl⟩ <;> exact ⟨rfl, rfl⟩
  | _ => exact ⟨rfl, rfl⟩

/-- A timer or signal operation as a loop runs it. -/
def operation (k : OpState) : Dispatch.Operation where
  State := State
  Action := Action
  system := system k
  ok := InitSucceeds
  role := role
  apply := .apply
  stopOp s := s.op
  atRest s := s.pc = .idle
  completions s := s.completions.length
  waiting s := s.handle = .active
  initial := by
    rintro _ rfl
    exact ⟨rfl, rfl⟩
  ok_apply _ := trivial
  apply_isSome s hrest hq := by
    have hidle : s.pc = .idle := of_decide_eq_true hrest
    simp [system, step, hidle, TStopOperation.beginApply, hq]
  applied s s' h := by
    obtain ⟨hidle, hmap⟩ := Option.ite_none_right_eq_some.mp h
    obtain ⟨op, hop, rfl⟩ := Option.map_eq_some_iff.mp hmap
    exact ⟨hop, rfl⟩
  called s a s' hr h := by
    have hidle : s.pc = .idle := by
      cases step_cases h with
      | fire hc | closed hc => exact hc
      | _ => simp [role] at hr
    exact decide_eq_true hidle
  kept s a s' hr h := kept_inside (step_cases h) hr
  requestedStop s a s' hr h := by
    cases step_cases h with
    | requestStop => exact ⟨rfl, rfl⟩
    | _ => simp [role] at hr
  calledBack s a s' hr h := by
    cases step_cases h with
    | callback op hs => exact ⟨hs, rfl⟩
    | _ => simp [role] at hr
  callback_enabled s h := ⟨.callback, rfl, by simpa [system, step] using h⟩
  inv s h := by
    obtain ⟨past, hi⟩ := reachable_phase h
    exact hi.op
  progress s h hrest := by
    have hbusy : s.pc ≠ .idle := of_decide_eq_false hrest
    by_cases hinit : s.pc = .init
    · exact Or.inl ⟨.init 0, rfl, by simp [system, step, hinit]⟩
    by_cases hstart : s.pc = .start
    · exact Or.inl ⟨.start 0 0, rfl, by simp [system, step, hstart]⟩
    rcases loop_progress k hinit hstart hbusy with hloop | hcb
    · exact Or.inl ⟨.loop, rfl, hloop⟩
    · exact Or.inr hcb
  settled s h hrest hq hrun hclosed := by
    have hidle : s.pc = .idle := of_decide_eq_true hrest
    obtain ⟨past, ⟨hs, hw⟩ | ⟨err, hf⟩⟩ := reachable_phase h
    · rcases hw.settled (k := k) hs.race hidle hq hrun (hclosed .closed rfl) with hone | ⟨hactive, hrest⟩
      · exact Or.inl hone
      · exact Or.inr ⟨decide_eq_true hactive, hrest⟩
    · exact Or.inl (hf.settled hidle)

end UvExec.EventOp

namespace UvExec.ReadOp
open Lib

/-! ### Reading operations -/

section
variable {κ α : Type} {k : OpState κ α} {s s' : State κ α} {a : Action α}

/-- What is known of an operation that has not completed. -/
structure WaitInv (s : State κ α) : Prop where
  told : s.op.Told
  constructed : s.pc = .setupDone ∨ s.op.engaged = true → s.op.token.callback ≠ .absent
  unread : s.pc = .start → s.reading = false
  reads : s.completions = [] → s.pc = .start ∨ s.pc.completing = true ∨ s.reading = true
  engaged : s.completions = [] → s.pc = .idle ∨ s.pc.racing = true → s.op.engaged = true
  handed : s.op.Handed → s.pc.stopping = true ∨ s.pc.completing = true ∨ s.completions ≠ []

theorem WaitInv.foreign {op : TStopOperation} (hi : WaitInv s) (h : s.op.Foreign op)
    (htold : op.Told) (hhanded : op.Handed → s.op.Handed) : WaitInv { s with op := op } where
  told := htold
  constructed hor := by
    have hold := hi.constructed (hor.imp_right h.engaged.symm.trans)
    exact mt h.absent.mp hold
  unread := hi.unread
  reads := hi.reads
  engaged hnil hp := h.engaged.trans (hi.engaged hnil hp)
  handed hh := hi.handed (hhanded hh)

theorem WaitInv.requestStop (hi : WaitInv s) : WaitInv { s with op := s.op.requestStop } :=
  hi.foreign s.op.requestStop_foreign hi.told.requestStop TStopOperation.handed_requestStop

theorem WaitInv.callback {op : TStopOperation} (hr : RaceInv s) (hi : WaitInv s)
    (h : s.op.callbackStep = some op) : WaitInv { s with op := op } :=
  hi.foreign (hr.op.callbackStep_foreign h) (hi.told.callbackStep h)
    (TStopOperation.handed_callbackStep h)

theorem told_step (hi : WaitInv s) (h : Step k s a s') : s'.op.Told := by
  cases h with
  | setup => exact .setup _
  | setupDone hc => exact ⟨hi.told.registered, hi.told.begun, hi.told.executed⟩
  | condition nrd addr hc =>
    obtain ⟨p, c, t, -, he⟩ := k.condition_cases s nrd addr
    rw [he]
    exact hi.told
  | won => exact hi.told.take _
  | reset nrd addr op hc hr | resetUnsafe op hc hr => exact hi.told.resetCallback hr
  | apply => exact ⟨hi.told.registered, hi.told.begun, hi.told.executed⟩
  | requestStop => exact hi.told.requestStop
  | callback op hr => exact hi.told.callbackStep hr
  | _ => exact hi.told

theorem constructed_step (hr : RaceInv s) (hi : WaitInv s) (h : Step k s a s') :
    s'.pc = .setupDone ∨ s'.op.engaged = true → s'.op.token.callback ≠ .absent := by
  intro hor
  cases h with
  | setup hc =>
    simp only [TStopOperation.setup, StopToken.construct]
    split <;> simp
  | setupDone hc => exact hi.constructed (Or.inl hc)
  | readCallback nrd addr hc =>
    rcases k.readCallback_cases s nrd addr with ⟨hp, -⟩ | hp | hp <;>
      exact hi.constructed (Or.inr (by simpa [hp] using hor))
  | condition nrd addr hc =>
    obtain ⟨p, c, t, hp, he⟩ := k.condition_cases s nrd addr
    rw [he] at hor ⊢
    refine hi.constructed (Or.inr ?_)
    rcases hp with rfl | ⟨rfl, -⟩ <;> simpa using hor
  | reset nrd addr op hc hreset | resetUnsafe op hc hreset =>
    rcases TStopOperation.resetCallback_cases hreset with ⟨-, rfl⟩ | ⟨-, -, rfl⟩
    · exact hi.constructed (Or.inr (by simpa using hor))
    · simp at hor
  | requestStop => exact hi.requestStop.constructed hor
  | callback op hs => exact (hi.callback hr hs).constructed hor
  | _ => exact hi.constructed (Or.inr (by simpa using hor))

theorem unread_step (hi : WaitInv s) (h : Step k s a s') : s'.pc = .start → s'.reading = false := by
  intro hp
  cases h with
  | readCallback nrd addr hc =>
    rcases k.readCallback_cases s nrd addr with ⟨hp', -⟩ | hp' | hp' <;> simp [hp'] at hp
  | condition nrd addr hc =>
    obtain ⟨p, c, t, hp', he⟩ := k.condition_cases s nrd addr
    rw [he] at hp
    rcases hp' with rfl | ⟨rfl, -⟩ <;> cases hp
  | requestStop => exact hi.unread hp
  | callback => exact hi.unread hp
  | _ => cases hp

theorem reads_step (hr : RaceInv s) (hi : WaitInv s) (hok : Started s a) (h : Step k s a s') :
    s'.completions = [] → s'.pc = .start ∨ s'.pc.completing = true ∨ s'.reading = true := by
  intro hnil
  have hkept : s.completions = [] → s.pc ≠ .start → s.pc.completing = false → s.reading = true := by
    intro hnil hs hc
    rcases hi.reads hnil with h | h | h
    · exact (hs h).elim
    · simp [hc] at h
    · exact h
  cases h with
  | startFailed err hc he =>
    have hno : isError err = false := hok
    simp [he] at hno
  | start => exact Or.inr (Or.inr rfl)
  | startError | complete => simp at hnil
  | condition nrd addr hc =>
    obtain ⟨p, c, t, -, he⟩ := k.condition_cases s nrd addr
    rw [he] at hnil ⊢
    exact Or.inr (Or.inr (hkept hnil (by simp [hc]) (by simp [hc, Pc.completing])))
  | readStop | stopReadStop => exact Or.inr (Or.inl rfl)
  | requestStop => exact hi.requestStop.reads hnil
  | callback op hs => exact (hi.callback hr hs).reads hnil
  | emplace hc | setup hc | setupDone hc | readCallback nrd addr hc | lost nrd addr hc
  | won nrd addr hc | reset nrd addr op hc | resetUnsafe op hc | read nrd addr hc | apply hc =>
    exact Or.inr (Or.inr (hkept hnil (by simp [hc]) (by simp [hc, Pc.completing])))

theorem engaged_step (hr : RaceInv s) (hi : WaitInv s) (h : Step k s a s') :
    s'.completions = [] → s'.pc = .idle ∨ s'.pc.racing = true → s'.op.engaged = true := by
  intro hnil hp
  cases h with
  | setupDone => rfl
  | condition nrd addr hc =>
    obtain ⟨p, c, t, -, he⟩ := k.condition_cases s nrd addr
    rw [he] at hnil ⊢
    exact hi.engaged hnil (Or.inr (by rw [hc]; rfl))
  | readCallback nrd addr hc | lost nrd addr hc => exact hi.engaged hnil (Or.inr (by rw [hc]; rfl))
  | read nrd addr hc => exact hi.engaged hnil (Or.inl hc)
  | startError | complete => simp at hnil
  | requestStop => exact hi.requestStop.engaged hnil hp
  | callback op hs => exact (hi.callback hr hs).engaged hnil hp
  | _ => simp [Pc.racing] at hp

theorem handed_step (hr : RaceInv s) (hi : WaitInv s) (h : Step k s a s') :
    s'.op.Handed → s'.pc.stopping = true ∨ s'.pc.completing = true ∨ s'.completions ≠ [] := by
  intro hh
  have hkept : s.op.Handed → s.pc.stopping = false → s.pc.completing = false →
      s.completions ≠ [] := by
    intro hh hs hc
    rcases hi.handed hh with h | h | h
    · simp [hs] at h
    · simp [hc] at h
    · exact h
  cases h with
  | apply | resetUnsafe => exact Or.inl rfl
  | readStop | stopReadStop => exact Or.inr (Or.inl rfl)
  | startError | complete => exact Or.inr (Or.inr (by simp))
  | setup hc =>
    have hnone := (hr.early (by rw [hc]; rfl)).1
    have hstop : s.op.taker = some .stop := hh.1
    simp [hnone] at hstop
  | won => cases hh.1
  | reset nrd addr op hc hreset =>
    have hwon := hr.won (by rw [hc]; rfl)
    have hstop := hh.1
    simp [TStopOperation.resetCallback_taker hreset, hwon] at hstop
  | condition nrd addr hc =>
    obtain ⟨p, c, t, -, he⟩ := k.condition_cases s nrd addr
    rw [he] at hh ⊢
    exact Or.inr (Or.inr (hkept hh (by simp [hc, Pc.stopping]) (by simp [hc, Pc.completing])))
  | requestStop => exact hi.requestStop.handed hh
  | callback op hs => exact (hi.callback hr hs).handed hh
  | setupDone hc =>
    have hold : s.op.Handed := hh
    exact Or.inr (Or.inr (hkept hold (by simp [hc, Pc.stopping]) (by simp [hc, Pc.completing])))
  | startFailed err hc | start err hc | emplace hc | readCallback nrd addr hc | lost nrd addr hc
  | read nrd addr hc =>
    exact Or.inr (Or.inr (hkept hh (by simp [hc, Pc.stopping]) (by simp [hc, Pc.completing])))

theorem waitInv_step (hr : RaceInv s) (hi : WaitInv s) (hok : Started s a) (h : Step k s a s') :
    WaitInv s' where
  told := told_step hi h
  constructed := constructed_step hr hi h
  unread := unread_step hi h
  reads := reads_step hr hi hok h
  engaged := engaged_step hr hi h
  handed := handed_step hr hi h

theorem waitInv_initial (c : κ) : WaitInv ({ conditionState := c } : State κ α) := by
  have htold := TStopOperation.Told.initial
  constructor <;> simp [htold, TStopOperation.Handed, Pc.racing]

/-- The start of the operation has not failed, or it has. -/
def Phase (s : State κ α) : Prop := RaceInv s ∧ WaitInv s ∨ Refused s

theorem phase_step (hi : Phase s) (h : Step k s a s') : Phase s' := by
  rcases hi with ⟨hr, hw⟩ | hf
  · by_cases hok : Started s a
    · exact Or.inl ⟨raceInv_step hr hok h, waitInv_step hr hw hok h⟩
    · cases h with
      | startFailed err hp he => exact Or.inr (refused_start hr hp (hw.unread hp))
      | start err hp he => exact (hok he).elim
      | _ => exact (hok trivial).elim
  · exact Or.inr (refused_step hf h)

theorem reachable_phase (h : (system k).Reachable s) : Phase s := by
  induction h with
  | initial h0 =>
    obtain ⟨c, rfl⟩ := h0
    exact Or.inl ⟨raceInv_initial c, waitInv_initial c⟩
  | step a _ _ hs ih => exact phase_step ih (step_cases hs)

theorem Phase.op (h : Phase s) : s.op.Inv := by
  rcases h with ⟨hr, -⟩ | hf
  · exact hr.op
  · exact hf.op

theorem WaitInv.settled (hr : RaceInv s) (hi : WaitInv s) (hidle : s.pc = .idle)
    (hq : s.op.queued = 0) (hrun : ∀ i p, s.op.token.callback ≠ .running i p) :
    s.completions.length = 1 ∨ s.reading = true ∧ s.completions.length = 0 ∧
      s.op.token.callback = .registered ∧ s.op.token.requested = false := by
  cases hcompletions : s.completions with
  | cons c cs =>
    left
    have hlen := hr.once
    rw [hcompletions, List.length_cons] at hlen
    rw [List.length_cons]
    omega
  | nil =>
    right
    have hreading : s.reading = true := by
      rcases hi.reads hcompletions with h | h | h
      · simp [hidle] at h
      · simp [hidle, Pc.completing] at h
      · exact h
    refine ⟨hreading, rfl, ?_⟩
    have hne := hi.constructed (Or.inr (hi.engaged hcompletions (Or.inl hidle)))
    rcases hi.told.registered_or_taken hr.op hne hrun with hreg | ⟨t, ht⟩
    · exact hreg
    · cases t with
      | completion =>
        rcases hr.taken ht with h | h | h
        · simp [hidle, Pc.won] at h
        · simp [hidle, Pc.completing] at h
        · exact (h hcompletions).elim
      | stop =>
        rcases hi.handed ⟨ht, hq, TStopOperation.scheduling_of_not_running hrun⟩ with h | h | h
        · simp [hidle, Pc.stopping] at h
        · simp [hidle, Pc.completing] at h
        · exact (h hcompletions).elim

/-- An operation whose start was refused has completed with the error once it is at rest. -/
theorem Refused.settled (h : Refused s) (hidle : s.pc = .idle) : s.completions.length = 1 := by
  rcases h.failing with ⟨⟨err, hp⟩, -⟩ | ⟨-, err, hc⟩
  · simp [hidle] at hp
  · simp [hc]

def role : Action α → Dispatch.Role
  | .start _ | .loop => .inside
  | .read _ _ => .event
  | .apply => .apply
  | .requestStop => .requestStop
  | .callback => .callback

theorem kept_inside (h : Step k s a s')
    (ha : role a = .inside ∨ role a = .event ∨ role a = .closed) :
    s'.op.queued = s.op.queued ∧ s'.op.pushes = s.op.pushes := by
  cases h with
  | apply | requestStop | callback => simp [role] at ha
  | condition nrd addr hc =>
    obtain ⟨p, c, t, -, he⟩ := k.condition_cases s nrd addr
    rw [he]
    exact ⟨rfl, rfl⟩
  | reset nrd addr op hc hr | resetUnsafe op hc hr =>
    rcases TStopOperation.resetCallback_cases hr with ⟨-, rfl⟩ | ⟨-, -, rfl⟩ <;> exact ⟨rfl, rfl⟩
  | _ => exact ⟨rfl, rfl⟩

def Pc.atRest : Pc α → Bool
  | .idle => true
  | .start | .startError _ | .emplace | .setup | .setupDone | .readCallback _ _ | .condition _ _
  | .testAndSet _ _ | .reset _ _ | .readStop _ _ | .resetUnsafe | .stopReadStop | .complete _ => false

theorem Pc.atRest_iff {p : Pc α} : p.atRest = true ↔ p = .idle := by
  cases p <;> simp [atRest]

/-- A reading operation as a loop runs it. -/
def operation (k : OpState κ α) : Dispatch.Operation where
  State := State κ α
  Action := Action α
  system := system k
  ok _ _ := True
  role := role
  apply := .apply
  stopOp s := s.op
  atRest s := s.pc.atRest
  completions s := s.completions.length
  waiting s := s.reading
  initial := by
    rintro _ ⟨c, rfl⟩
    exact ⟨rfl, rfl⟩
  ok_apply _ := trivial
  apply_isSome s hrest hq := by
    have hidle := Pc.atRest_iff.mp hrest
    simp [system, step, hidle, TStopOperation.beginApply, hq]
  applied s s' h := by
    have hstep : step k s .apply = some s' := h
    cases step_cases hstep with
    | apply hc hq => exact ⟨by simp [TStopOperation.beginApply, hq], rfl⟩
  called s a s' hr h := by
    cases step_cases h with
    | read nrd addr hc => exact Pc.atRest_iff.mpr hc
    | _ => simp [role] at hr
  kept s a s' hr h := kept_inside (step_cases h) hr
  requestedStop s a s' hr h := by
    cases step_cases h with
    | requestStop => exact ⟨rfl, rfl⟩
    | _ => simp [role] at hr
  calledBack s a s' hr h := by
    cases step_cases h with
    | callback op hs => exact ⟨hs, rfl⟩
    | _ => simp [role] at hr
  callback_enabled s h := ⟨.callback, rfl, by simpa [system, step] using h⟩
  inv s h := (reachable_phase h).op
  progress s h hrest := by
    have hbusy : s.pc ≠ .idle := by
      intro hidle
      simp [hidle, Pc.atRest] at hrest
    by_cases hstart : s.pc = .start
    · exact Or.inl ⟨.start 0, rfl, by simp [system, step, hstart]⟩
    rcases loop_progress k hstart hbusy with hloop | hcb
    · exact Or.inl ⟨.loop, rfl, hloop⟩
    · exact Or.inr hcb
  settled s h hrest hq hrun _ := by
    have hidle := Pc.atRest_iff.mp hrest
    rcases reachable_phase h with ⟨hr, hw⟩ | hf
    · exact hw.settled hr hidle hq hrun
    · exact Or.inl (hf.settled hidle)

end
end UvExec.ReadOp

namespace UvExec.LoopOp
open Lib

/-! ### A loop with operations of all kinds -/

inductive OpState (κ α : Type) where
  | event (k : EventOp.OpState)
  | read (k : ReadOp.OpState κ α)

section
variable {κ α ι : Type} [DecidableEq ι]

def OpState.operation : OpState κ α → Dispatch.Operation
  | .event k => EventOp.operation k
  | .read k => ReadOp.operation k

abbrev State (ops : ι → OpState κ α) := Dispatch.State fun i => (ops i).operation

abbrev system (ops : ι → OpState κ α) := Dispatch.system fun i => (ops i).operation

variable {ops : ι → OpState κ α} {s : State ops}

end

/-! ### Runs -/

section
set_option synthInstance.maxSize 1000

/-- A timer and a datagram read. -/
def timerAndRead : Bool → OpState Unit Unit
  | false => .event (EventOp.afterScheduleOpState .after 5)
  | true => .read .receive

abbrev timer (a : EventOp.Action) : Dispatch.Action fun i => (timerAndRead i).operation :=
  .op false a

abbrev receive (a : ReadOp.Action Unit) : Dispatch.Action fun i => (timerAndRead i).operation :=
  .op true a

end
end UvExec.LoopOp
