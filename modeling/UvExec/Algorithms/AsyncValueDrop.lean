import UvExec.Algorithms.AsyncValueOpState

/-! # The drop of an async_value's value

The events of a run, followed by those that its program point still has to come,
are the course that the outcomes determine. -/

namespace UvExec.AsyncValue
open Lib

variable {β E : Type}

def threw (k : Kind) (x : E) : List (Event β E) :=
  if k.nothrowFn then [] else [.completed (.error (.exception x))]

def fromBody (fin : Disposition β E) : List (Event β E) :=
  [.dropStarted, .dropped, .valueReset, .callbackReset, .completed fin]

def fromConnect (k : Kind) (o : Outcomes β E) : List (Event β E) :=
  match o.connectBody with
  | some x => threw k x
  | none => fromBody o.body

def fromInvoke (k : Kind) (o : Outcomes β E) : List (Event β E) :=
  match (if k.nothrowFn then none else o.fn) with
  | some x => threw k x
  | none => fromConnect k o

def fromEmplace (k : Kind) (o : Outcomes β E) : List (Event β E) :=
  match o.construct with
  | some _ => []
  | none => .constructed :: fromInvoke k o

def course (k : Kind) (o : Outcomes β E) : List (Event β E) :=
  match o.predecessor.failure with
  | some fin => [.completed fin]
  | none => fromEmplace k o

def future (k : Kind) (o : Outcomes β E) : Pc β E → List (Event β E)
  | .predecessor => course k o
  | .emplaceValue => fromEmplace k o
  | .emplaceCallback | .callbackEmplaced | .emplaceBody | .invokeFn => fromInvoke k o
  | .connectBody => fromConnect k o
  | .caught x => threw k x
  | .body => fromBody o.body
  | .dropping fin => [.dropped, .valueReset, .callbackReset, .completed fin]
  | .resetValue fin => [.valueReset, .callbackReset, .completed fin]
  | .resetCallback fin => [.callbackReset, .completed fin]
  | .complete _ fin => [.completed fin]
  | .done | .terminated | .swallowed | .destroyValue | .destroyed => []

variable {k : Kind} {o : Outcomes β E} {s s' : State β E}

theorem fn_passed (h : k.nothrowFn = true ∨ o.fn = none) :
    (if k.nothrowFn then none else o.fn) = none := by
  rcases h with hk | hx
  · rw [if_pos hk]
  · rw [hx, ite_self]

/-- A step moves the head of the future to the end of the trace, or neither changes. -/
theorem Step.future {a : Action} (h : Step k o s a s') :
    s'.trace ++ future k o s'.pc = s.trace ++ future k o s.pc := by
  cases h with
  | constructThrew x hp hx => simp [hp, AsyncValue.future, fromEmplace, hx]
  | emplaceValue hp hx => simp [hp, AsyncValue.future, fromEmplace, hx]
  | fnThrew x hp hk hx => simp [hp, AsyncValue.future, fromInvoke, hk, hx]
  | invokeFn hp hx => simp [hp, AsyncValue.future, fromInvoke, fn_passed hx]
  | connectBodyThrew x hp hx => simp [hp, AsyncValue.future, fromConnect, hx]
  | connectBody hp hx => simp [hp, AsyncValue.future, fromConnect, hx]
  | swallowed x hp hk => simp [hp, AsyncValue.future, threw, hk]
  | caught x hp hk => simp [hp, AsyncValue.future, threw, hk]
  | predecessor hp hf => simp [hp, AsyncValue.future, course, hf]
  | predecessorFailed fin hp hf => simp [hp, AsyncValue.future, course, hf]
  | emplaceCallback hp | callbackEmplaced hp | emplaceBody hp | destroyValue hp | destroy hp =>
    simp [hp, AsyncValue.future]
  | body hp => simp [hp, AsyncValue.future, fromBody]
  | dropped fin hp | resetValue fin hp | resetCallback fin hp | complete slot fin hp =>
    simp [hp, AsyncValue.future]
  | requestStop | callRequestStop | callbackExit => rfl

theorem trace_future (h : (system k o).Reachable s) :
    s.trace ++ future k o s.pc = course k o := by
  refine System.Reachable.invariant (I := fun s => s.trace ++ future k o s.pc = course k o) ?_ ?_ h
  · rintro _ rfl
    rfl
  · intro s a s' hi hs
    exact (step_cases hs).future.trans hi

/-! ### The value and its callback -/

/-- Once the callback has been reset by `TDestroyer`, so has the value. -/
structure Settled (s : State β E) : Prop where
  fresh : (∀ fin, s.pc ≠ .complete .out fin) → s.pc ≠ .done → s.pc ≠ .destroyValue →
    s.pc ≠ .destroyed → .callbackReset ∉ s.trace
  value : ∀ fin, s.pc = .resetCallback fin → s.value = false
  gone : .callbackReset ∈ s.trace → s.value = false ∧ s.token.callback = .absent

theorem Settled.step {a : Action} (hi : Settled s) (h : Step k o s a s') : Settled s' := by
  obtain ⟨hf, hv, hg⟩ := hi
  cases h with
  | resetCallback fin hp hrun => exact ⟨by simp, by simp, fun _ => ⟨hv fin hp, rfl⟩⟩
  | complete slot fin hp => exact ⟨by simp, by simp, by simpa using hg⟩
  | destroyValue hp => exact ⟨by simp, by simp, fun hmem => ⟨rfl, (hg hmem).2⟩⟩
  | destroy hp hrun => exact ⟨by simp, by simp, fun hmem => ⟨(hg hmem).1, rfl⟩⟩
  | requestStop =>
    refine ⟨hf, hv, fun hmem => ⟨(hg hmem).1, ?_⟩⟩
    simp [StopToken.request, (hg hmem).2]
  | callRequestStop i hc => exact ⟨hf, hv, fun hmem => by simp [(hg hmem).2] at hc⟩
  | callbackExit i hc => exact ⟨hf, hv, fun hmem => by simp [(hg hmem).2] at hc⟩
  | _ =>
    have hno : .callbackReset ∉ s.trace := by
      apply hf <;> simp [*]
    exact ⟨by simpa using hno, by simp, by simp [hno]⟩

theorem settled_of_reachable (h : (system k o).Reachable s) : Settled s := by
  refine System.Reachable.invariant ?_ ?_ h
  · rintro _ rfl
    exact ⟨by simp, by simp, by simp⟩
  · intro s a s' hi hs
    exact hi.step (step_cases hs)

/-! ### Termination -/

def Pc.rank : Pc β E → ℕ
  | .predecessor => 14
  | .emplaceValue => 13
  | .emplaceCallback => 12
  | .callbackEmplaced => 11
  | .emplaceBody => 10
  | .invokeFn => 9
  | .connectBody => 8
  | .caught _ | .body => 7
  | .dropping _ => 6
  | .resetValue _ => 5
  | .resetCallback _ => 4
  | .complete _ _ => 3
  | .done => 2
  | .destroyValue => 1
  | .terminated | .swallowed | .destroyed => 0

def callbackRank : Registration CallbackPc → ℕ
  | .registered => 3
  | .running _ .requestStop => 2
  | .running _ .exit => 1
  | .absent | .executed => 0

def State.rank (s : State β E) : ℕ := 4 * s.pc.rank + callbackRank s.token.callback

theorem callbackRank_le (c : Registration CallbackPc) : callbackRank c ≤ 3 := by
  cases c with
  | running i p => cases p <;> simp [callbackRank]
  | _ => simp [callbackRank]

theorem callbackRank_request (k : Kind) (t : StopToken CallbackPc) :
    callbackRank (t.request k.entry).callback ≤ callbackRank t.callback := by
  rcases t.request_cases k.entry with ⟨h, -⟩ | ⟨-, h⟩
  · rw [h]
    exact callbackRank_le _
  · rw [h]

theorem Step.rank_le {a : Action} (h : Step k o s a s') :
    s'.rank ≤ s.rank ∧ (a ≠ .requestStop → s'.rank < s.rank) := by
  cases h with
  | requestStop =>
    have hle := callbackRank_request k s.token
    exact ⟨by simpa [State.rank] using hle, fun hne => (hne rfl).elim⟩
  | emplaceCallback hp =>
    have hle := callbackRank_le (s.token.construct k.entry).callback
    simp only [State.rank, hp, Pc.rank]
    omega
  | callRequestStop i hc => simp [State.rank, hc, callbackRank]
  | callbackExit i hc => simp [State.rank, hc, callbackRank]
  | _ => simp [State.rank, Pc.rank, callbackRank, *] <;> omega

def Pc.halted : Pc β E → Bool
  | .done | .terminated | .swallowed | .destroyed => true
  | _ => false

theorem progress (k : Kind) (o : Outcomes β E) (hp : s.pc.halted = false) :
    ∃ a, a ≠ .requestStop ∧ (step k o s a).isSome := by
  have hcb (i : Bool) (p : CallbackPc) (hc : s.token.callback = .running i p) :
      ∃ a, a ≠ Action.requestStop ∧ (step k o s a).isSome :=
    ⟨.callback, by simp, by cases p <;> simp [step, callbackStep, hc]⟩
  cases hpc : s.pc with
  | done | terminated | swallowed | destroyed => simp [hpc, Pc.halted] at hp
  | predecessor => exact ⟨.predecessor, by simp, by simp [step, hpc]⟩
  | body => exact ⟨.body, by simp, by simp [step, hpc]⟩
  | dropping => exact ⟨.dropped, by simp, by simp [step, hpc]⟩
  | emplaceValue =>
    exact ⟨.run, by simp, by cases hx : o.construct <;> simp [step, runStep, hpc, hx]⟩
  | connectBody =>
    exact ⟨.run, by simp, by cases hx : o.connectBody <;> simp [step, runStep, hpc, hx]⟩
  | invokeFn =>
    refine ⟨.run, by simp, ?_⟩
    simp only [step, runStep, hpc]
    split <;> rfl
  | callbackEmplaced =>
    cases hc : s.token.callback with
    | running i p => exact hcb i p hc
    | _ => exact ⟨.run, by simp, by simp [step, runStep, hpc, hc]⟩
  | resetCallback =>
    cases hc : s.token.callback with
    | running i p => exact hcb i p hc
    | _ => exact ⟨.run, by simp, by simp [step, runStep, hpc, StopToken.destroy, hc]⟩
  | _ => exact ⟨.run, by simp, by simp [step, runStep, hpc]⟩

theorem exists_resting (h : (system k o).Reachable s) :
    ∃ t, (system k o).Reachable t ∧ ∀ a, a ≠ .requestStop → (step k o t a).isSome = false := by
  refine h.exists_of_rank State.rank (fun s hrest => ?_)
  simp only [not_forall, Bool.not_eq_false] at hrest
  obtain ⟨a, hne, ha⟩ := hrest
  obtain ⟨s', hs⟩ := Option.isSome_iff_exists.mp ha
  exact ⟨a, s', hs, (step_cases hs).rank_le.2 hne⟩

/-! ### The results -/

def Event.fin : Event β E → Option (Disposition β E)
  | .completed fin => some fin
  | .constructed | .dropStarted | .dropped | .valueReset | .callbackReset => none

def State.completions (s : State β E) : List (Disposition β E) := s.trace.filterMap Event.fin

/-- One completion; a value that was constructed has been dropped once, then
destroyed, and its callback deregistered, when it comes. -/
structure DroppedOnce (k : Kind) (o : Outcomes β E) (s : State β E) : Prop where
  once : s.completions.length ≤ 1
  progress : s.completions = [] → ∃ a, a ≠ .requestStop ∧ (step k o s a).isSome
  terminating : ∀ a s', step k o s a = some s' →
    s'.rank ≤ s.rank ∧ (a ≠ .requestStop → s'.rank < s.rank)
  dropped : s.completions ≠ [] → .constructed ∈ s.trace →
    (∃ fin, s.trace =
      [.constructed, .dropStarted, .dropped, .valueReset, .callbackReset, .completed fin]) ∧
    s.value = false ∧ s.token.callback = .absent
  unconstructed : .constructed ∉ s.trace → .dropStarted ∉ s.trace

/-- No exception once the predecessor has sent the value's arguments. -/
def Dropping (k : Kind) (o : Outcomes β E) : Prop :=
  (∀ b, o.predecessor ≠ .value b) ∨
    (o.construct = none ∧ (k.nothrowFn = true ∨ o.fn = none) ∧ o.connectBody = none)

theorem course_failed {fin : Disposition β E} (h : o.predecessor.failure = some fin) :
    course k o = [.completed fin] := by
  rw [course, h]

theorem course_dropped (hv : o.predecessor.failure (β := β) = none) (hc : o.construct = none)
    (hf : k.nothrowFn = true ∨ o.fn = none) (hb : o.connectBody = none) :
    course k o = .constructed :: fromBody o.body := by
  simp only [course, hv, fromEmplace, hc, fromInvoke, fn_passed hf, fromConnect, hb]

theorem halted_of_resting (h : ∀ a, a ≠ .requestStop → (step k o s a).isSome = false) :
    s.pc.halted = true := by
  by_contra hp
  obtain ⟨a, hne, ha⟩ := progress k o (Bool.eq_false_iff.mpr hp)
  rw [h a hne] at ha
  cases ha

theorem future_halted (hp : s.pc.halted = true) : future k o s.pc = [] := by
  cases hpc : s.pc <;> simp [hpc, Pc.halted] at hp
  all_goals rfl

/-- A part of a list that ends in its only completion is all of it once it has one. -/
theorem eq_of_completed {t u l : List (Event β E)} {e : Event β E} (h : t ++ u = l ++ [e])
    (hl : l.filterMap Event.fin = []) (ht : t.filterMap Event.fin ≠ []) : t = l ++ [e] := by
  rcases List.eq_nil_or_concat u with rfl | ⟨u', e', rfl⟩
  · rw [← h, List.append_nil]
  · rw [List.concat_eq_append, ← List.append_assoc] at h
    have hpre := (List.append_inj' h rfl).1
    rw [← hpre, List.filterMap_append, List.append_eq_nil_iff] at hl
    exact (ht hl.1).elim

theorem course_of_dropping (hd : Dropping k o) : ∃ l fin, course k o = l ++ [.completed fin] ∧
    (l = [] ∨ l = [.constructed, .dropStarted, .dropped, .valueReset, .callbackReset]) := by
  cases hpre : o.predecessor.failure (β := β) with
  | some fin => exact ⟨[], fin, course_failed hpre, Or.inl rfl⟩
  | none =>
    obtain ⟨b, hb⟩ := Disposition.failure_eq_none.mp hpre
    rcases hd with hval | ⟨hc, hf, hx⟩
    · exact (hval b hb).elim
    · exact ⟨_, o.body, course_dropped hpre hc hf hx, Or.inr rfl⟩

theorem droppedOnce_of_reachable (hd : Dropping k o) (h : (system k o).Reachable s) :
    DroppedOnce k o s := by
  have hc := trace_future h
  obtain ⟨l, fin, hcourse, hl⟩ := course_of_dropping hd
  have hnil : l.filterMap Event.fin = [] := by
    rcases hl with rfl | rfl <;> rfl
  rw [hcourse] at hc
  have hall (hne : s.completions ≠ []) : s.trace = l ++ [.completed fin] :=
    eq_of_completed hc hnil hne
  refine ⟨?_, fun hno => ?_, fun a s' hs => (step_cases hs).rank_le, fun hne hcon => ?_, fun hno => ?_⟩
  · by_cases hne : s.completions = []
    · rw [hne]
      exact Nat.zero_le 1
    · rw [State.completions, hall hne, List.filterMap_append, hnil]
      exact le_rfl
  · cases hp : s.pc.halted with
    | false => exact progress k o hp
    | true =>
      rw [future_halted hp, List.append_nil] at hc
      rw [State.completions, hc, List.filterMap_append, hnil] at hno
      cases hno
  · have ht := hall hne
    rcases hl with rfl | rfl
    · simp [ht] at hcon
    · exact ⟨⟨fin, ht⟩, (settled_of_reachable h).gone (by simp [ht])⟩
  · rcases hl with rfl | rfl
    · intro hmem
      have hin : .dropStarted ∈ s.trace ++ future k o s.pc := List.mem_append_left _ hmem
      simp [hc] at hin
    · cases ht : s.trace with
      | nil => simp
      | cons e t =>
        rw [ht, List.cons_append, List.cons_append, List.cons.injEq] at hc
        simp [ht, hc.1] at hno

theorem dropping_of_course {u : List (Event β E)} (hv : o.predecessor.failure (β := β) = none)
    (h : .constructed :: .dropStarted :: u = course k o) : Dropping k o := by
  have hthrew (x : E) : .dropStarted ∉ threw (β := β) k x := by
    unfold threw
    split <;> simp
  simp only [course, hv, fromEmplace] at h
  split at h
  · cases h
  next hc =>
    have hmem : .dropStarted ∈ fromInvoke k o := by
      rw [← (List.cons.inj h).2]
      exact List.mem_cons_self
    unfold fromInvoke at hmem
    split at hmem
    next x hx => exact (hthrew x hmem).elim
    next hx =>
      unfold fromConnect at hmem
      split at hmem
      next x hb => exact (hthrew x hmem).elim
      next hb =>
        refine Or.inr ⟨hc, ?_, hb⟩
        cases hk : k.nothrowFn with
        | true => exact Or.inl rfl
        | false =>
          rw [hk] at hx
          exact Or.inr hx

theorem dropped_once_iff (k : Kind) (o : Outcomes β E) :
    (∀ s, (system k o).Reachable s → DroppedOnce k o s) ↔ Dropping k o := by
  constructor
  · intro hall
    cases hpre : o.predecessor.failure (β := β) with
    | some fin =>
      left
      intro b hb
      simp [hb, Disposition.failure] at hpre
    | none =>
      obtain ⟨t, ht, hrest⟩ := exists_resting (k := k) (o := o) (.initial rfl)
      have hd := hall t ht
      have hcomp : t.completions ≠ [] := by
        intro hnil
        obtain ⟨a, hne, ha⟩ := hd.progress hnil
        rw [hrest a hne] at ha
        cases ha
      have hc := trace_future ht
      rw [future_halted (halted_of_resting hrest), List.append_nil] at hc
      have hcon : .constructed ∈ t.trace := by
        have hemplace : t.trace = fromEmplace k o := by simpa only [course, hpre] using hc
        unfold fromEmplace at hemplace
        split at hemplace
        · exact (hcomp (by rw [State.completions, hemplace]; rfl)).elim
        · rw [hemplace]
          exact List.mem_cons_self
      obtain ⟨⟨fin, htrace⟩, -⟩ := hd.dropped hcomp hcon
      exact dropping_of_course hpre (htrace ▸ hc)
  · intro hd s h
    exact droppedOnce_of_reachable hd h

/-- A noexcept function, and a sender that throws when it is connected: the value
is not dropped, and nothing completes the receiver. -/
theorem drop_lost : ∃ (o : Outcomes Unit ℕ) (s : State Unit ℕ),
    (system ⟨true, true⟩ o).Reachable s ∧ s.trace = [.constructed] ∧
      ¬DroppedOnce ⟨true, true⟩ o s := by
  let o : Outcomes Unit ℕ := ⟨.value (), none, none, some 0, .value ()⟩
  have h : (system ⟨true, true⟩ o).exec {} [.predecessor, .run, .run, .run, .run, .run, .run, .run] =
      some _ := rfl
  refine ⟨o, _, System.reachable_exec _ (.initial rfl) h, rfl, fun hd => ?_⟩
  obtain ⟨a, hne, ha⟩ := hd.progress rfl
  cases a with
  | requestStop => exact hne rfl
  | _ => exact Bool.noConfusion ha

/-! ### The stop callback and the value -/

/-- The stop callback has a call of `request_stop` ahead of it. -/
def State.mayCall (s : State β E) : Prop :=
  s.token.callback = .registered ∨ ∃ i, s.token.callback = .running i .requestStop

/-- The callback reaches an engaged `Value`. -/
def CallSafe (s : State β E) : Prop := s.mayCall → s.value = true

/-- `TDestroyer` resets the value after the callback has made its call. -/
def CallDone (s : State β E) (a : Action) : Prop :=
  ∀ fin, s.pc = .resetValue fin → a = .run → ¬s.mayCall

structure CallInv (s : State β E) : Prop where
  safe : CallSafe s
  unregistered : s.pc = .predecessor ∨ s.pc = .emplaceValue ∨ s.pc = .destroyValue → ¬s.mayCall
  emplaced : s.pc = .emplaceCallback → s.value = true

theorem mayCall_of_request
    (h : State.mayCall { s with token := s.token.request k.entry }) : s.mayCall := by
  rcases s.token.request_cases k.entry with ⟨hc, -⟩ | ⟨-, hc⟩
  · exact Or.inl hc
  · simp only [State.mayCall, hc] at h
    exact h

theorem CallInv.step {a : Action} (hi : CallInv s) (hok : CallDone s a) (h : Step k o s a s') :
    CallInv s' := by
  obtain ⟨hsafe, hun, hem⟩ := hi
  cases h with
  | emplaceValue hp hx => exact ⟨fun _ => rfl, by simp, fun _ => rfl⟩
  | emplaceCallback hp => exact ⟨fun _ => hem hp, by simp, by simp⟩
  | resetValue fin hp => exact ⟨fun hm => (hok fin hp rfl hm).elim, by simp, by simp⟩
  | resetCallback fin hp hrun =>
    exact ⟨by simp [CallSafe, State.mayCall], by simp, by simp⟩
  | destroy hp hrun => exact ⟨by simp [CallSafe, State.mayCall], by simp [State.mayCall], by simp⟩
  | destroyValue hp =>
    exact ⟨fun hm => (hun (Or.inr (Or.inr hp)) hm).elim, by simp, by simp⟩
  | requestStop =>
    exact ⟨fun hm => hsafe (mayCall_of_request hm), fun hp hm => hun hp (mayCall_of_request hm), hem⟩
  | callRequestStop i hc =>
    exact ⟨by simp [CallSafe, State.mayCall], by simp [State.mayCall], hem⟩
  | callbackExit i hc => exact ⟨by simp [CallSafe, State.mayCall], by simp [State.mayCall], hem⟩
  | predecessor hp hf => exact ⟨hsafe, fun _ => hun (Or.inl hp), by simp⟩
  | _ => exact ⟨hsafe, by simp, by simp⟩

theorem callback_safe (h : (system k o).ReachableVia CallDone s) : CallSafe s := by
  have hi : CallInv s := by
    refine System.ReachableVia.invariant (K := fun _ => True) (fun _ _ => trivial) ?_ ?_ h
    · rintro _ rfl
      exact ⟨by simp [CallSafe, State.mayCall], by simp [State.mayCall], by simp⟩
    · intro s a s' _ hi hok hs
      exact hi.step hok (step_cases hs)
  exact hi.safe

/-- The condition is exact: the step that does not meet it ends the safety. -/
theorem callback_unsafe {fin : Disposition β E} (hp : s.pc = .resetValue fin) (hm : s.mayCall)
    (hs : step k o s .run = some s') : ¬CallSafe s' := by
  simp only [step, runStep, hp, Option.some.injEq] at hs
  subst hs
  intro hsafe
  cases hsafe hm

/-- The body of an `async_scope` has completed and `TDestroyer` has ended the
scope when another thread requests stop. -/
theorem callback_race : ∃ s : State Unit ℕ,
    (system ⟨true, false⟩ ⟨.value (), none, none, none, .value ()⟩).Reachable s ∧
      s.token.callback = .running false .requestStop ∧ s.value = false ∧ ¬CallSafe s := by
  have h : (system ⟨true, false⟩ (⟨.value (), none, none, none, .value ()⟩ : Outcomes Unit ℕ)).exec {}
      [.predecessor, .run, .run, .run, .run, .run, .run, .body, .dropped, .run, .requestStop] =
      some _ := rfl
  exact ⟨_, System.reachable_exec _ (.initial rfl) h, rfl, rfl,
    fun hsafe => Bool.noConfusion (hsafe (Or.inr ⟨false, rfl⟩))⟩

theorem callback_safe_stopped : ∃ s : State Unit ℕ,
    (system ⟨true, false⟩ ⟨.value (), none, none, none, .stopped⟩).ReachableVia CallDone s ∧
      s.completions = [.stopped] ∧ CallSafe s := by
  have h0 : (system ⟨true, false⟩ (⟨.value (), none, none, none, .stopped⟩ :
      Outcomes Unit ℕ)).ReachableVia CallDone {} := .initial rfl
  have h1 := h0.step .predecessor (fun _ hp => by cases hp) rfl
  have h2 := h1.step .run (fun _ hp => by cases hp) rfl
  have h3 := h2.step .run (fun _ hp => by cases hp) rfl
  have h4 := h3.step .run (fun _ hp => by cases hp) rfl
  have h5 := h4.step .run (fun _ hp => by cases hp) rfl
  have h6 := h5.step .run (fun _ hp => by cases hp) rfl
  have h7 := h6.step .run (fun _ hp => by cases hp) rfl
  have h8 := h7.step .requestStop (fun _ hp => by cases hp) rfl
  have h9 := h8.step .callback (fun _ hp => by cases hp) rfl
  have h10 := h9.step .callback (fun _ hp => by cases hp) rfl
  have h11 := h10.step .body (fun _ hp => by cases hp) rfl
  have h12 := h11.step .dropped (fun _ hp => by cases hp) rfl
  have h13 := h12.step .run (fun _ _ _ hm => by rcases hm with hc | ⟨i, hc⟩ <;> cases hc) rfl
  have h14 := h13.step .run (fun _ hp => by cases hp) rfl
  have h15 := h14.step .run (fun _ hp => by cases hp) rfl
  exact ⟨_, h15, rfl, callback_safe h15⟩

end UvExec.AsyncValue
