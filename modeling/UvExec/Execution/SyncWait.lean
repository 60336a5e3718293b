import UvExec.Execution.Waiters

/-! # What a `sync_wait` returns

The calls of the loop together with the results that their senders deliver: the
tuple `T` or what is thrown, `X`. The statements of the receiver are executed
by the thread that completes the sender, with nothing between them that another
thread waits for until the first wakeup. -/

namespace UvExec.SyncWait
open Lib

/- `destination` is the variant on the stack of the call, `result` what the call
has returned or thrown. `delivered` and `wakeups` are history: the completion
that the receiver was given, and how often it has invoked `Wakeup`. -/
structure State (C T X : Type) where
  loop : Loop.State C
  destination : C → TState T X
  result : C → Option (Unwrapped T X)
  delivered : C → Option (Disposition (Except X T) X)
  wakeups : C → ℕ

inductive Action (C T X : Type) where
  | deliver (c : C) (d : Disposition (Except X T) X)
  | loop (a : Loop.Action C)

section
variable {C T X : Type} [DecidableEq C]

def initial : State C T X where
  loop := Loop.initial
  destination _ := .monostate
  result _ := none
  delivered _ := none
  wakeups _ := 0

/-- `UnwrapSyncWaitReceiverState` runs once `RunnerSteal` has returned. -/
def unwrapped (s : State C T X) : Loop.Action C → C → Option (Unwrapped T X)
  | .thread c =>
    match s.loop.pc c with
    | .steal =>
      if (s.loop.runner c).finished then
        Function.update s.result c (some (s.destination c).unwrap)
      else s.result
    | _ => s.result
  | _ => s.result

/-- The last statement of `Wakeup`, with another invocation to follow. -/
def invoked (s : State C T X) : Loop.Action C → C → ℕ
  | .wake c =>
    match s.loop.wake c with
    | .notify (_ + 1) => Function.update s.wakeups c (s.wakeups c + 1)
    | _ => s.wakeups
  | _ => s.wakeups

/-- The loop's own label for a delivery. -/
def completes : Loop.Action C → Bool
  | .complete _ _ => true
  | _ => false

def step (s : State C T X) : Action C T X → Option (State C T X)
  | .deliver c d =>
    (Loop.step s.loop (.complete c (signal d))).map fun l =>
      { s with
        loop := l
        destination := Function.update s.destination c
          (TSyncWaitReceiver.written (TSyncWaitReceiver.complete d) (s.destination c))
        delivered := Function.update s.delivered c (some d)
        wakeups := Function.update s.wakeups c (s.wakeups c + 1) }
  | .loop a =>
    if completes a then none
    else (Loop.step s.loop a).map fun l =>
      { s with loop := l, result := unwrapped s a, wakeups := invoked s a }

def system : System (State C T X) (Action C T X) where
  initial s := s = initial
  step := step

/-! ### Inversion -/

/-- A step is a delivery or a step of the loop. -/
inductive Step (s : State C T X) : Action C T X → State C T X → Prop
  | deliver (c : C) (d : Disposition (Except X T) X) (l : Loop.State C) :
      Loop.Step s.loop (.complete c (signal d)) l → Step s (.deliver c d)
        { s with
          loop := l
          destination := Function.update s.destination c
            (TSyncWaitReceiver.written (TSyncWaitReceiver.complete d) (s.destination c))
          delivered := Function.update s.delivered c (some d)
          wakeups := Function.update s.wakeups c (s.wakeups c + 1) }
  | loop (a : Loop.Action C) (l : Loop.State C) : completes a = false →
      Loop.Step s.loop a l → Step s (.loop a)
        { s with loop := l, result := unwrapped s a, wakeups := invoked s a }

theorem step_cases {s s' : State C T X} {a : Action C T X} (h : step s a = some s') :
    Step s a s' := by
  cases a with
  | deliver c d =>
    obtain ⟨l, hl, rfl⟩ := Option.map_eq_some_iff.mp h
    exact .deliver c d l (Loop.step_cases hl)
  | loop a =>
    simp only [step] at h
    split at h
    · cases h
    next ha =>
      obtain ⟨l, hl, rfl⟩ := Option.map_eq_some_iff.mp h
      exact .loop a l (by simpa using ha) (Loop.step_cases hl)

theorem reachable_loop {s : State C T X} (h : system.Reachable s) : Loop.system.Reachable s.loop := by
  refine System.Reachable.invariant (I := fun s => Loop.system.Reachable s.loop) ?_ ?_ h
  · rintro _ rfl
    exact .initial rfl
  · intro s a s' hi hs
    cases a with
    | deliver c d =>
      obtain ⟨l, hl, rfl⟩ := Option.map_eq_some_iff.mp hs
      exact hi.step (.complete c (signal d)) hl
    | loop a =>
      simp only [system, step] at hs
      split at hs
      · cases hs
      · obtain ⟨l, hl, rfl⟩ := Option.map_eq_some_iff.mp hs
        exact hi.step a hl

/-! ### The receiver's wakeups -/

/-- The invocations of `Wakeup` that follow the running one. -/
def remaining : Loop.WakePc → ℕ
  | .acquired k | .finishLoop k | .store k | .notify k => k
  | .idle | .pending | .done => 0

/-- What the completion of each sender has left in its call. -/
structure DeliveryInv (s : State C T X) : Prop where
  before : ∀ c, (s.loop.wake c).completed = false →
    s.delivered c = none ∧ s.destination c = .monostate ∧ s.wakeups c = 0
  after : ∀ c, (s.loop.wake c).completed = true → ∃ d, s.delivered c = some d ∧
    s.destination c = TSyncWaitReceiver.written (TSyncWaitReceiver.complete d) .monostate ∧
    0 < s.wakeups c ∧ s.wakeups c + remaining (s.loop.wake c) =
      TSyncWaitReceiver.invocations (TSyncWaitReceiver.complete d)

/-- A step other than a delivery pays an invocation that was owed, or none. -/
theorem course_step {s : State C T X} {a : Loop.Action C} {l : Loop.State C}
    (hsync : Loop.SyncInv s.loop) (ha : completes a = false) (h : Loop.Step s.loop a l) (e : C) :
    (l.wake e).completed = (s.loop.wake e).completed ∧
    invoked s a e + remaining (l.wake e) = s.wakeups e + remaining (s.loop.wake e) := by
  cases h with
  | callSteal c hp =>
    by_cases hec : e = c
    · subst hec
      simp [(hsync.fresh e hp).1, Loop.WakePc.completed, invoked, remaining]
    · simp [hec, invoked]
  | complete => cases ha
  | wakeAcquired c k hk =>
    by_cases hec : e = c
    · subst hec
      cases (s.loop.runner e).acquired <;>
        simp [hk, Loop.WakePc.completed, invoked, remaining]
    · simp [hec, hk, invoked]
  | wakeFinishLoop c k hk | wakeStore c k hk | wakeDone c hk =>
    by_cases hec : e = c
    · subst hec
      simp [hk, Loop.WakePc.completed, invoked, remaining]
    · simp [hec, hk, invoked]
  | wakeAgain c k hk =>
    by_cases hec : e = c
    · subst hec
      simp only [invoked, hk, Function.update_self, Loop.WakePc.completed, remaining, true_and]
      omega
    · simp [hec, hk, invoked]
  | _ => exact ⟨rfl, rfl⟩

theorem wakeups_le_invoked (s : State C T X) (a : Loop.Action C) (e : C) :
    s.wakeups e ≤ invoked s a e := by
  cases a with
  | wake c =>
    by_cases hec : e = c
    · subst hec
      cases hk : s.loop.wake e with
      | notify k => cases k <;> simp [invoked, hk]
      | _ => simp [invoked, hk]
    · cases hk : s.loop.wake c with
      | notify k => cases k <;> simp [invoked, hk, hec]
      | _ => simp [invoked, hk]
  | _ => exact Nat.le_refl _

theorem remaining_of_not_completed {w : Loop.WakePc} (h : w.completed = false) :
    remaining w = 0 := by
  cases w <;> simp_all [Loop.WakePc.completed, remaining]

theorem deliveryInv_step {s s' : State C T X} {a : Action C T X} (hsync : Loop.SyncInv s.loop)
    (hi : DeliveryInv s) (h : Step s a s') : DeliveryInv s' := by
  cases h with
  | deliver c d l hl =>
    cases hl with
    | complete _ _ hk =>
      obtain ⟨-, hdest, hzero⟩ := hi.before c (by simp [hk, Loop.WakePc.completed])
      constructor
      · intro e he
        have hec : e ≠ c := by
          rintro rfl
          simp [Loop.WakePc.completed] at he
        simpa [hec] using hi.before e (by simpa [hec] using he)
      · intro e he
        by_cases hec : e = c
        · subst hec
          have hpos := wakeups_pos (signal d)
          refine ⟨d, by simp, by simp [hdest], by simp, ?_⟩
          simp only [Function.update_self, remaining, invocations_complete, hzero]
          omega
        · simpa [hec] using hi.after e (by simpa [hec] using he)
  | loop a l ha hl =>
    have hcourse := course_step hsync ha hl
    constructor
    · intro e he
      obtain ⟨hc, hr⟩ := hcourse e
      have hold := hc.symm.trans he
      obtain ⟨hdel, hdest, hzero⟩ := hi.before e hold
      rw [remaining_of_not_completed he, remaining_of_not_completed hold, hzero] at hr
      exact ⟨hdel, hdest, hr⟩
    · intro e he
      obtain ⟨hc, hr⟩ := hcourse e
      obtain ⟨d, hdel, hdest, hpos, hsum⟩ := hi.after e (hc.symm.trans he)
      exact ⟨d, hdel, hdest, Nat.lt_of_lt_of_le hpos (wakeups_le_invoked s a e), hr.trans hsum⟩

theorem reachable_deliveryInv {s : State C T X} (h : system.Reachable s) : DeliveryInv s := by
  refine System.Reachable.invariant_of (fun _ hr => Loop.reachable_syncInv (reachable_loop hr)) ?_ ?_ h
  · rintro _ rfl
    constructor <;> simp [initial, Loop.initial, Loop.WakePc.completed]
  · intro s a s' hsync hi hs
    exact deliveryInv_step hsync hi (step_cases hs)

/-! ### What the call returns -/

/-- What a `sync_wait` owes its caller for the completion of its sender. -/
def returns : Disposition (Except X T) X → Unwrapped T X
  | .value (.ok v) => .values v
  | .value (.error x) => .thrown (.object x)
  | .error err => .thrown (TSyncWaitReceiver.exceptionPtr err)
  | .stopped => .nullopt

omit [DecidableEq C] in
theorem unwrap_written (d : Disposition (Except X T) X) (t : TState T X) :
    (TSyncWaitReceiver.written (TSyncWaitReceiver.complete d) t).unwrap = returns d := by
  rcases d with (x | v) | err | _ <;> rfl

/-- The result is written before the wakeup, which is invoked once and last, and
a call that has ended has returned what its sender delivered. -/
structure Delivered (s : State C T X) : Prop where
  written : ∀ c, (s.loop.wake c).completed = true → ∃ d, s.delivered c = some d ∧
    TSyncWaitReceiver.complete d = [.emplace (s.destination c), .wakeup]
  once : ∀ c, s.wakeups c = if (s.loop.wake c).completed then 1 else 0
  returned : ∀ c o, s.loop.call c = .syncWait → s.loop.pc c = .returned o →
    ∃ d, s.delivered c = some d ∧ s.result c = some (returns d)

/-- The copy of the values does not throw, and no increment of `Awakenings`
wraps it to the mark of a finished runner before the sender completes. -/
def CopyKept (s : State C T X) : Action C T X → Prop
  | .deliver _ d => ∀ x, d ≠ .value (.error x)
  | .loop (.thread c) =>
    match s.loop.pc c with
    | .wakeupNext (.fetchAdd n) => s.loop.call n = .syncWait → (s.loop.wake n).completed = false →
        (s.loop.runner n).awakenings.toNat + 1 ≠ UInt64.size
    | _ => True
  | _ => True

/-- A finished runner's sender has completed, and an ended call has returned
what it then found. -/
structure EndInv (s : State C T X) : Prop where
  copied : ∀ c d, s.delivered c = some d → ∀ x, d ≠ .value (.error x)
  zero : ∀ c, s.loop.call c = .syncWait → (s.loop.runner c).awakenings = 0 →
    (s.loop.wake c).completed = true
  ended : ∀ c o, s.loop.call c = .syncWait → s.loop.pc c = .returned o →
    ∃ d, s.delivered c = some d ∧ s.result c = some (returns d)

theorem zero_step {s : State C T X} {a : Loop.Action C} {l : Loop.State C}
    (hsync : Loop.SyncInv s.loop) (hi : EndInv s) (hok : CopyKept s (.loop a))
    (ha : completes a = false) (h : Loop.Step s.loop a l) : ∀ c, l.call c = .syncWait →
      (l.runner c).awakenings = 0 → (l.wake c).completed = true := by
  intro e hcall hz
  refine (course_step hsync ha h e).1.trans ?_
  cases h with
  | callSteal c hp =>
    by_cases hec : e = c
    · subst hec
      simp [(hsync.fresh e hp).2.2.1] at hz
    · exact hi.zero e (by simpa [hec] using hcall) hz
  | callLock c k hp hk =>
    have hec : e ≠ c := by
      rintro rfl
      exact hk (by simpa using hcall)
    exact hi.zero e (by simpa [hec] using hcall) hz
  | acquired c hp | notAcquired c hp =>
    refine hi.zero e hcall ?_
    by_cases hec : e = c
    · subst hec
      simpa using hz
    · simpa [hec] using hz
  | nextFetchAdd c n hp =>
    by_cases hen : e = n
    · subst hen
      by_contra hno
      simp only [CopyKept, hp] at hok
      exact hok hcall (by simpa using hno) ((TRunner.wakeup_eq_zero _).mp (by simpa using hz))
    · exact hi.zero e hcall (by simpa [hen] using hz)
  | wakeStore c k hk =>
    by_cases hec : e = c
    · subst hec
      simp [hk, Loop.WakePc.completed]
    · exact hi.zero e hcall (by simpa [hec] using hz)
  | _ => exact hi.zero e hcall hz

/-- A `sync_wait` ends in `RunnerSteal` only. -/
theorem returned_back {s l : Loop.State C} {a : Loop.Action C} (h : Loop.Step s a l) {c : C}
    {o : Outcome} (hcall : l.call c = .syncWait) (ho : l.pc c = .returned o) :
    s.call c = .syncWait ∧ (s.pc c = .returned o ∨
      a = .thread c ∧ s.pc c = .steal ∧ (s.runner c).finished = true) := by
  cases h with
  | callSteal b hp | callLock b k hp =>
    have hcb := ne_of_move ho (by simp)
    exact ⟨by simpa [hcb] using hcall, Or.inl (eq_of_move ho (by simp))⟩
  | stealReturn b hp hfin =>
    by_cases hcb : c = b
    · subst hcb
      exact ⟨hcall, Or.inr ⟨rfl, hp, hfin⟩⟩
    · exact ⟨hcall, Or.inl (by simpa [hcb] using ho)⟩
  | unlock b hp =>
    have hcb : c ≠ b := by
      rintro rfl
      simp only [Function.update_self, Loop.afterRun_eq_iff] at ho
      rcases ho with ⟨-, ho⟩ | ⟨hne, -⟩
      · cases ho
      · exact hne hcall
    exact ⟨hcall, Or.inl (by simpa [hcb] using ho)⟩
  | nextNotify b n hp =>
    exact ⟨hcall, Or.inl (Loop.eq_of_notify (eq_of_move ho (by simp)) (by simp))⟩
  | wakeDone | wakeAgain => exact ⟨hcall, Or.inl (Loop.eq_of_notify ho (by simp))⟩
  | complete | wakeAcquired | wakeFinishLoop | wakeStore | finish | fire =>
    exact ⟨hcall, Or.inl ho⟩
  | _ => exact ⟨hcall, Or.inl (eq_of_move ho (by simp))⟩

theorem unwrapped_of_returned {s : State C T X} {a : Loop.Action C} {c : C} {o : Outcome}
    (h : s.loop.pc c = .returned o) : unwrapped s a c = s.result c := by
  cases a with
  | thread b =>
    by_cases hcb : c = b
    · subst hcb
      simp [unwrapped, h]
    · cases hp : s.loop.pc b with
      | steal => cases hfin : (s.loop.runner b).finished <;> simp [unwrapped, hp, hfin, hcb]
      | _ => simp [unwrapped, hp]
  | _ => rfl

theorem endInv_step {s s' : State C T X} {a : Action C T X} (hsync : Loop.SyncInv s.loop)
    (hd : DeliveryInv s) (hi : EndInv s) (hok : CopyKept s a) (h : Step s a s') : EndInv s' := by
  cases h with
  | deliver c d l hl =>
    cases hl with
    | complete _ _ hk =>
      obtain ⟨hnone, -, -⟩ := hd.before c (by simp [hk, Loop.WakePc.completed])
      refine ⟨?_, ?_, ?_⟩
      · intro e d' he
        by_cases hec : e = c
        · subst hec
          have hdd : d = d' := by simpa using he
          exact hdd ▸ hok
        · exact hi.copied e d' (by simpa [hec] using he)
      · intro e hcall hz
        by_cases hec : e = c
        · simp [hec, Loop.WakePc.completed]
        · simpa [hec] using hi.zero e hcall hz
      · intro e o hcall ho
        obtain ⟨d', hdel, hres⟩ := hi.ended e o hcall ho
        have hec : e ≠ c := by
          rintro rfl
          simp [hnone] at hdel
        exact ⟨d', by simpa [hec] using hdel, hres⟩
  | loop a l ha hl =>
    refine ⟨hi.copied, zero_step hsync hi hok ha hl, ?_⟩
    intro c o hcall ho
    obtain ⟨hold, hret | ⟨rfl, hp, hfin⟩⟩ := returned_back hl hcall ho
    · obtain ⟨d, hdel, hres⟩ := hi.ended c o hold hret
      exact ⟨d, hdel, (unwrapped_of_returned hret).trans hres⟩
    · -- a finished runner's result has been written
      have hcomp := hi.zero c hold ((TRunner.finished_iff _).mp hfin)
      obtain ⟨d, hdel, hdest, -⟩ := hd.after c hcomp
      refine ⟨d, hdel, ?_⟩
      simp [unwrapped, hp, hfin, hdest, unwrap_written]

omit [DecidableEq C] in
theorem complete_of_copied {d : Disposition (Except X T) X} (h : ∀ x, d ≠ .value (.error x))
    (t : TState T X) : TSyncWaitReceiver.complete d =
      [.emplace (TSyncWaitReceiver.written (TSyncWaitReceiver.complete d) t), .wakeup] := by
  rcases d with (x | v) | err | _
  · exact (h x rfl).elim
  · rfl
  · rfl
  · rfl

/-- In every run in which no copy of the values throws, every `sync_wait` that
ends returns or throws what its sender delivered, after a single wakeup. -/
theorem delivered_once {s : State C T X} (h : system.ReachableVia CopyKept s) : Delivered s := by
  have hd := reachable_deliveryInv h.reachable
  have hi : EndInv s := by
    refine System.ReachableVia.invariant
      (K := fun s => Loop.SyncInv s.loop ∧ DeliveryInv s) ?_ ?_ ?_ h
    · intro s hr
      exact ⟨Loop.reachable_syncInv (reachable_loop hr.reachable), reachable_deliveryInv hr.reachable⟩
    · rintro _ rfl
      constructor <;> simp [initial, Loop.initial]
    · rintro s a s' ⟨hsync, hd⟩ hi hok hs
      exact endInv_step hsync hd hi hok (step_cases hs)
  refine ⟨?_, ?_, hi.ended⟩
  · intro c hc
    obtain ⟨d, hdel, hdest, -⟩ := hd.after c hc
    exact ⟨d, hdel, by rw [hdest, ← complete_of_copied (hi.copied c d hdel)]⟩
  · intro c
    cases hc : (s.loop.wake c).completed with
    | false => exact (hd.before c hc).2.2
    | true =>
      obtain ⟨d, hdel, -, hpos, hsum⟩ := hd.after c hc
      rw [complete_of_copied (hi.copied c d hdel) .monostate] at hsum
      simp only [TSyncWaitReceiver.invocations] at hsum
      simp only [if_true]
      omega

theorem delivered_once_inline : ∃ s : State Unit Bool Unit, system.ReachableVia CopyKept s ∧
    s.result () = some (.values true) ∧ Delivered s := by
  have h0 : system.ReachableVia CopyKept (initial : State Unit Bool Unit) := .initial rfl
  have h1 := h0.step (Action.loop (.call () .syncWait)) trivial rfl
  have h2 := h1.step (Action.deliver () (.value (.ok true))) (fun _ h => by cases h) rfl
  have h3 := h2.step (Action.loop (.wake ())) trivial rfl
  have h4 := h3.step (Action.loop (.wake ())) trivial rfl
  have h5 := h4.step (Action.loop (.wake ())) trivial rfl
  have h6 := h5.step (Action.loop (.thread ())) trivial rfl
  exact ⟨_, h6, rfl, delivered_once h6⟩

/-- A throwing copy invokes the wakeup twice, whatever follows. -/
theorem not_delivered_of_throw {s s' : State C T X} {c : C} {x : X}
    (h : step s (.deliver c (.value (.error x))) = some s') : ¬ Delivered s' := by
  intro hi
  cases step_cases h with
  | deliver _ _ l hl =>
    cases hl with
    | complete _ _ hk =>
      obtain ⟨d, hdel, hc⟩ := hi.written c (by simp [Loop.WakePc.completed])
      simp only [Function.update_self, Option.some.injEq] at hdel
      subst hdel
      simp [TSyncWaitReceiver.complete, TSyncWaitReceiver.setValue, TSyncWaitReceiver.setError] at hc

/-- The waiting call has ended between the two invocations of its wakeup. -/
def throwingCopy : List (Action Unit Bool Unit) :=
  [.loop (.call () .syncWait), .deliver () (.value (.error ())), .loop (.wake ()), .loop (.wake ()),
   .loop (.thread ()), .loop (.wake ())]

theorem woken_twice : ¬ ∀ s : State Unit Bool Unit, system.Reachable s → Delivered s := by
  intro hall
  have hrun : (system.exec (initial : State Unit Bool Unit) throwingCopy).map
      (fun s => (s.loop.pc (), s.wakeups ())) = some (.returned .rethrow, 2) := by decide
  obtain ⟨s, hs, heq⟩ := Option.map_eq_some_iff.mp hrun
  simp only [Prod.mk.injEq] at heq
  have honce := (hall s (System.reachable_exec _ (.initial rfl) hs)).once ()
  rw [heq.2] at honce
  split at honce <;> cases honce

end
end UvExec.SyncWait
