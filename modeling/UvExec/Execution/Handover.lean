import UvExec.Execution.Waiters

/-! # Handing the loop over

`WakeupNext` passes the loop to one waiting runner. The hand-over is a wakeup
that its runner must notice in `Wait`, and must pass on when it leaves. -/

namespace UvExec.Loop
open Lib
variable {C : Type} [DecidableEq C]

def InCall (s : State C) (c : C) : Prop := s.pc c ≠ .idle ∧ ∀ o, s.pc c ≠ .returned o

/-- Its thread, or the thread that completes its sender, has a step to take. -/
def CanStep (s : State C) (c : C) : Prop := (threadStep s c).isSome ∨ (wakeStep s c).isSome

def BlockedInWait (s : State C) (c : C) : Prop :=
  ∃ w, s.pc c = .wait (.blocked w) ∧ (s.runner c).awakenings = w

/-- While nobody runs the loop or holds `RunMtx`, some pending call can go on,
and not all of them are blocked. -/
def HandoverLive (s : State C) : Prop :=
  s.running = false → s.runMtx = none → (∃ c, InCall s c) →
    (∃ c, InCall s c ∧ CanStep s c) ∧ ∃ c, InCall s c ∧ ¬ BlockedInWait s c

/-- From the test of `Running` to the increment in `WakeupNext`. -/
def Pc.passing : Pc C → Bool
  | .running | .acquire | .runLocked | .wakeupNext .empty | .wakeupNext (.finished _)
  | .wakeupNext (.fetchAdd _) => true
  | .idle | .steal | .lock | .uv _ | .relockRun | .wakeupNext (.notify _) | .unlock | .add
  | .unlockWait | .wait _ | .relock | .erase | .unlockLoop | .returned _ => false

/-- On its way to run the loop or to wake the next runner. -/
def HasBaton (s : State C) (d : C) : Prop :=
  s.woken d = true ∧ InCall s d ∨ (s.pc d).passing = true

/-- The increment of `WakeupNext` does not fall before the load at the start of
`Wait`, nor restores the value that its runner compares with, and no runner that
was woken returns as finished while others wait and nobody else is on the way. -/
def HandoverKept (s : State C) : Action C → Prop
  | .thread c =>
    match s.pc c with
    | .wakeupNext (.fetchAdd n) =>
      match s.pc n with
      | .wait .load => False
      | .wait (.test w) | .wait (.wait w) | .wait (.blocked w) =>
        (s.runner n).wakeup.awakenings ≠ w
      | _ => True
    | .steal => (s.runner c).finished = true → s.running = false → s.runners ≠ [] →
        ∃ d, d ≠ c ∧ HasBaton s d
    | _ => True
  | _ => True

/-- From the first test in `Wait` to the next test of `Running`. -/
def Pc.mayBeWoken : Pc C → Bool
  | .wait (.test _) | .wait (.wait _) | .wait (.blocked _) | .relock | .erase | .unlockLoop
  | .steal | .lock | .running | .returned _ => true
  | .wait .load | .idle | .acquire | .runLocked | .uv _ | .relockRun | .wakeupNext _ | .unlock
  | .add | .unlockWait => false

def Pc.inWait : Pc C → Bool
  | .unlockWait | .wait _ => true
  | .idle | .steal | .lock | .running | .acquire | .runLocked | .uv _ | .relockRun | .wakeupNext _
  | .unlock | .add | .relock | .erase | .unlockLoop | .returned _ => false

omit [DecidableEq C] in
theorem notified_mayBeWoken (p : Pc C) : p.notified.mayBeWoken = p.mayBeWoken :=
  notified_range Pc.mayBeWoken (fun _ => rfl) p

omit [DecidableEq C] in
theorem notified_passing (p : Pc C) : p.notified.passing = p.passing :=
  notified_range Pc.passing (fun _ => rfl) p

omit [DecidableEq C] in
@[simp] theorem notified_inWait (p : Pc C) : p.notified.inWait = p.inWait :=
  notified_range Pc.inWait (fun _ => rfl) p

/-- Whether `Wait`, with the value it has loaded, goes on to leave. -/
structure WokenInv (s : State C) : Prop where
  nonzero : ∀ c w, s.pc c = .wait (.wait w) ∨ s.pc c = .wait (.blocked w) → w ≠ 0
  after : ∀ c, s.woken c = true → (s.pc c).mayBeWoken = true
  test : ∀ c w, s.woken c = true → s.pc c = .wait (.test w) →
    ¬ (w ≠ 0 ∧ (s.runner c).awakenings = w)
  wait : ∀ c w, s.woken c = true → s.pc c = .wait (.wait w) ∨ s.pc c = .wait (.blocked w) →
    (s.runner c).awakenings ≠ w
  notified : ∀ c w, s.pc c = .wait (.blocked w) → (s.runner c).awakenings ≠ w →
    (∃ d, s.pc d = .wakeupNext (.notify c)) ∨ ∃ k, s.wake c = .notify k
  linked : ∀ c, (s.pc c).inWait = true → s.woken c = false →
    c ∈ s.runners ∨ (s.runner c).awakenings = 0 ∨
    ∃ d, s.pc d = .wakeupNext (.finished c) ∨ s.pc d = .wakeupNext (.fetchAdd c)
  baton : s.running = false → s.runners ≠ [] → ∃ d, HasBaton s d

theorem waits_of_move {f : C → Pc C} {c d : C} {p : Pc C} {w : UInt64}
    (h : Function.update f c p d = .wait (.wait w) ∨ Function.update f c p d = .wait (.blocked w))
    (hp : p ≠ .wait (.wait w) ∧ p ≠ .wait (.blocked w)) :
    f d = .wait (.wait w) ∨ f d = .wait (.blocked w) :=
  h.imp (eq_of_move · hp.1) (eq_of_move · hp.2)

theorem waits_of_notify {s : State C} {c d : C} {w : UInt64}
    (h : (s.notify c).pc d = .wait (.wait w) ∨ (s.notify c).pc d = .wait (.blocked w)) :
    s.pc d = .wait (.wait w) ∨ s.pc d = .wait (.blocked w) := by
  by_cases hdc : d = c
  · subst hdc
    rcases notified_cases (s.pc d) with hp | ⟨v, hv, hp⟩
    · simpa [hp] using h
    · have hvw : v = w := by simpa [hp] using h
      exact Or.inr (hvw ▸ hv)
  · simpa [hdc] using h

theorem nonzero_step {s s' : State C} {a : Action C} (hi : WokenInv s) (h : Step s a s') :
    ∀ c w, s'.pc c = .wait (.wait w) ∨ s'.pc c = .wait (.blocked w) → w ≠ 0 := by
  intro d v hd
  cases h with
  | waitAgain c w hp hw =>
    by_cases hdc : d = c
    · subst hdc
      have hv : w = v := by simpa using hd
      exact hv ▸ hw
    · exact hi.nonzero d v (by simpa [hdc] using hd)
  | waitBlock c w hp | spurious c w hp =>
    by_cases hdc : d = c
    · subst hdc
      have hv : w = v := by simpa using hd
      exact hv ▸ hi.nonzero d w (by simp [hp])
    · exact hi.nonzero d v (by simpa [hdc] using hd)
  | nextNotify c n hp => exact hi.nonzero d v (waits_of_notify (waits_of_move hd (by simp)))
  | wakeDone | wakeAgain => exact hi.nonzero d v (waits_of_notify hd)
  | complete | wakeAcquired | wakeFinishLoop | wakeStore | finish | fire => exact hi.nonzero d v hd
  | _ => exact hi.nonzero d v (waits_of_move hd (by simp))

theorem woken_move {woken : C → Bool} {f : C → Pc C} {c : C} {p : Pc C}
    (h : ∀ d, woken d = true → (f d).mayBeWoken = true)
    (hp : (f c).mayBeWoken = true → p.mayBeWoken = true) :
    ∀ d, woken d = true → (Function.update f c p d).mayBeWoken = true :=
  forall_move (P := fun d (q : Pc C) => woken d = true → q.mayBeWoken = true) h fun hc => hp (h c hc)

theorem after_step {s s' : State C} {a : Action C} (hq : QueueInv s) (hi : WokenInv s)
    (hok : HandoverKept s a) (h : Step s a s') :
    ∀ c, s'.woken c = true → (s'.pc c).mayBeWoken = true := by
  intro d hd
  cases h with
  | runningAdd c hp | runningAcquire c hp | runningRun c hp =>
    -- this is where the wakeup has arrived
    have hdc : d ≠ c := by
      rintro rfl
      simp at hd
    simpa [hdc] using hi.after d (by simpa [hdc] using hd)
  | nextFetchAdd c n hp =>
    by_cases hdn : d = n
    · -- the owner of a popped runner is in `Wait`
      subst hdn
      have hw := (hq.popped c _ d hp rfl).2
      have hdc : d ≠ c := by
        rintro rfl
        simp [hp, Pc.waiting] at hw
      simp only [HandoverKept, hp] at hok
      simp only [Function.update_of_ne hdc]
      cases hpc : s.pc d with
      | wait q => cases q <;> simp_all [Pc.mayBeWoken]
      | relock => rfl
      | _ => simp [hpc, Pc.waiting] at hw
    · exact woken_move hi.after (by simp [hp, Pc.mayBeWoken]) d (by simpa [hdn] using hd)
  | nextNotify c n hp =>
    refine woken_move (woken_move hi.after (notified_mayBeWoken _).trans) ?_ d hd
    rw [range_move Pc.mayBeWoken (notified_mayBeWoken _), hp]
    simp [Pc.mayBeWoken]
  | wakeDone | wakeAgain => exact woken_move hi.after (notified_mayBeWoken _).trans d hd
  | unlockLoop => exact woken_move hi.after (fun _ => afterWait_range Pc.mayBeWoken rfl rfl) d hd
  | complete | wakeAcquired | wakeFinishLoop | wakeStore | finish | fire => exact hi.after d hd
  | callSteal c hp | callLock c k hp | stealReturn c hp | stealLock c hp | lock c hp | acquired c hp
  | notAcquired c hp | runLocked c hp | uvTest c hp | uvCallbacks c hp | uvSignal c b hp
  | uvPoll c hp | uvEvent c hp | uvEvents c hp | uvExit c hp | relockRun c hp | nextEmpty c hp
  | nextPop c n rest hp | nextSkip c n hp | nextTake c n hp | unlock c hp | add c hp
  | unlockWait c hp | waitLoad c hp | waitAgain c w hp | waitLeave c w hp | waitBlock c w hp
  | waitReturn c w hp | relock c hp | erase c hp | spurious c w hp =>
    exact woken_move hi.after (by simp [hp, Pc.mayBeWoken]) d hd

theorem test_step {s s' : State C} {a : Action C} (hi : WokenInv s)
    (hok : HandoverKept s a) (h : Step s a s') :
    ∀ c w, s'.woken c = true → s'.pc c = .wait (.test w) →
      ¬ (w ≠ 0 ∧ (s'.runner c).awakenings = w) := by
  intro d v hw hd
  cases h with
  | runningAdd c hp | runningAcquire c hp | runningRun c hp =>
    have hdc := ne_of_move hd (by simp)
    exact hi.test d v (by simpa [hdc] using hw) (eq_of_move hd (by simp))
  | acquired c hp | notAcquired c hp =>
    have hdc := ne_of_move hd (by simp)
    simpa [hdc] using hi.test d v hw (eq_of_move hd (by simp))
  | nextFetchAdd c n hp =>
    have hold : s.pc d = .wait (.test v) := eq_of_move hd (by simp)
    by_cases hdn : d = n
    · subst hdn
      simp only [HandoverKept, hp, hold] at hok
      simp [hok]
    · simpa [hdn] using hi.test d v (by simpa [hdn] using hw) hold
  | waitLoad c hp =>
    -- the counter is loaded before a wakeup can have come
    by_cases hdc : d = c
    · subst hdc
      simpa [hp, Pc.mayBeWoken] using hi.after d hw
    · exact hi.test d v hw (by simpa [hdc] using hd)
  | waitReturn c w hp hne =>
    by_cases hdc : d = c
    · subst hdc
      have hv : w = v := by simpa using hd
      exact fun hx => hne (hv ▸ hx.2)
    · exact hi.test d v hw (by simpa [hdc] using hd)
  | wakeStore c k hk =>
    by_cases hdc : d = c
    · subst hdc
      rintro ⟨hne, heq⟩
      exact hne (by simpa using heq.symm)
    · simpa [hdc] using hi.test d v hw hd
  | nextNotify => exact hi.test d v hw (eq_of_notify (eq_of_move hd (by simp)) (by simp))
  | wakeDone | wakeAgain => exact hi.test d v hw (eq_of_notify hd (by simp))
  | complete | wakeAcquired | wakeFinishLoop | finish | fire => exact hi.test d v hw hd
  | _ => exact hi.test d v hw (eq_of_move hd (by simp))

theorem wait_step {s s' : State C} {a : Action C} (hi : WokenInv s)
    (hok : HandoverKept s a) (h : Step s a s') :
    ∀ c w, s'.woken c = true → s'.pc c = .wait (.wait w) ∨ s'.pc c = .wait (.blocked w) →
      (s'.runner c).awakenings ≠ w := by
  intro d v hw hd
  cases h with
  | runningAdd c hp | runningAcquire c hp | runningRun c hp =>
    have hdc : d ≠ c := by
      rintro rfl
      simp at hd
    exact hi.wait d v (by simpa [hdc] using hw) (by simpa [hdc] using hd)
  | acquired c hp | notAcquired c hp =>
    have hdc : d ≠ c := by
      rintro rfl
      simp at hd
    simpa [hdc] using hi.wait d v hw (by simpa [hdc] using hd)
  | nextFetchAdd c n hp =>
    have hold : s.pc d = .wait (.wait v) ∨ s.pc d = .wait (.blocked v) :=
      waits_of_move hd (by simp)
    by_cases hdn : d = n
    · subst hdn
      simp only [HandoverKept, hp] at hok
      rcases hold with hwait | hwait <;> simpa [hwait] using hok
    · simpa [hdn] using hi.wait d v (by simpa [hdn] using hw) hold
  | waitAgain c w hp hne heq =>
    by_cases hdc : d = c
    · subst hdc
      exact (hi.test d w hw hp ⟨hne, heq⟩).elim
    · exact hi.wait d v hw (by simpa [hdc] using hd)
  | waitBlock c w hp | spurious c w hp =>
    by_cases hdc : d = c
    · subst hdc
      have hv : w = v := by simpa using hd
      exact hv ▸ hi.wait d w hw (by simp [hp])
    · exact hi.wait d v hw (by simpa [hdc] using hd)
  | wakeStore c k hk =>
    by_cases hdc : d = c
    · subst hdc
      simpa using (hi.nonzero d v hd).symm
    · simpa [hdc] using hi.wait d v hw hd
  | nextNotify => exact hi.wait d v hw (waits_of_notify (waits_of_move hd (by simp)))
  | wakeDone | wakeAgain => exact hi.wait d v hw (waits_of_notify hd)
  | complete | wakeAcquired | wakeFinishLoop | finish | fire => exact hi.wait d v hw hd
  | _ => exact hi.wait d v hw (waits_of_move hd (by simp))

omit [DecidableEq C] in
theorem notified_ne (p : Pc C) (w : UInt64) : p.notified ≠ .wait (.blocked w) := by
  rcases notified_cases p with h | ⟨v, -, h⟩
  · intro hp
    rw [h] at hp
    simp [hp, Pc.notified] at h
  · simp [h]

theorem next_notify {s : State C} {n e : C} {q : NextPc C} (he : s.pc e = .wakeupNext q) :
    (s.notify n).pc e = .wakeupNext q := by
  by_cases hen : e = n
  · subst hen
    simp [he, Pc.notified]
  · simpa [hen] using he

theorem notified_step {s s' : State C} {a : Action C} (hi : WokenInv s) (h : Step s a s') :
    ∀ c w, s'.pc c = .wait (.blocked w) → (s'.runner c).awakenings ≠ w →
      (∃ d, s'.pc d = .wakeupNext (.notify c)) ∨ ∃ k, s'.wake c = .notify k := by
  intro d v hd hne
  cases h with
  | waitBlock c w hp heq =>
    by_cases hdc : d = c
    · subst hdc
      have hv : w = v := by simpa using hd
      exact (hne (hv ▸ heq)).elim
    · exact (hi.notified d v (by simpa [hdc] using hd) hne).imp_left (exists_move · (by simp [hp]))
  | acquired c hp | notAcquired c hp =>
    have hdc := ne_of_move hd (by simp)
    exact (hi.notified d v (eq_of_move hd (by simp)) (by simpa [hdc] using hne)).imp_left
      (exists_move · (by simp [hp]))
  | nextFetchAdd c n hp =>
    -- a parked thread's counter changes only together with a notify still to come
    by_cases hdn : d = n
    · exact Or.inl ⟨c, by simp [hdn]⟩
    · exact (hi.notified d v (eq_of_move hd (by simp)) (by simpa [hdn] using hne)).imp_left
        (exists_move · (by simp [hp]))
  | wakeStore c k hk =>
    by_cases hdc : d = c
    · exact Or.inr ⟨k, by simp [hdc]⟩
    · simpa [hdc] using hi.notified d v hd (by simpa [hdc] using hne)
  | nextNotify c n hp =>
    have hn := eq_of_move hd (by simp)
    have hdn : d ≠ n := by
      rintro rfl
      exact notified_ne (s.pc d) v (by simpa using hn)
    refine (hi.notified d v (by simpa [hdn] using hn) hne).imp_left ?_
    rintro ⟨e, he⟩
    refine exists_move ⟨e, next_notify he⟩ ?_
    rw [next_notify hp]
    simpa using Ne.symm hdn
  | callSteal c hp =>
    have hdc := ne_of_move hd (by simp)
    simpa [hdc] using (hi.notified d v (eq_of_move hd (by simp)) hne).imp_left
      (exists_move · (by simp [hp]))
  | complete c sig hk | wakeAcquired c k hk | wakeFinishLoop c k hk =>
    refine (hi.notified d v hd hne).imp_right ?_
    rintro ⟨j, hj⟩
    have hdc : d ≠ c := by
      rintro rfl
      simp [hk] at hj
    exact ⟨j, by simpa [hdc] using hj⟩
  | wakeDone c hk | wakeAgain c k hk =>
    have hdc : d ≠ c := by
      rintro rfl
      exact notified_ne (s.pc d) v (by simpa using hd)
    rcases hi.notified d v (by simpa [hdc] using hd) hne with ⟨e, he⟩ | ⟨j, hj⟩
    · exact Or.inl ⟨e, next_notify he⟩
    · exact Or.inr ⟨j, by simpa [hdc] using hj⟩
  | finish | fire => exact hi.notified d v hd hne
  | callLock c k hp | stealReturn c hp | stealLock c hp | lock c hp | runningAdd c hp
  | runningAcquire c hp | runningRun c hp | runLocked c hp | uvTest c hp | uvCallbacks c hp
  | uvSignal c b hp | uvPoll c hp | uvEvent c hp | uvEvents c hp | uvExit c hp | relockRun c hp
  | nextEmpty c hp | nextPop c n rest hp | nextSkip c n hp | nextTake c n hp | unlock c hp
  | add c hp | unlockWait c hp | waitLoad c hp | waitAgain c w hp | waitLeave c w hp
  | waitReturn c w hp | relock c hp | erase c hp | unlockLoop c hp | spurious c w hp =>
    exact (hi.notified d v (eq_of_move hd (by simp)) hne).imp_left (exists_move · (by simp [hp]))

theorem inWait_of_move {f : C → Pc C} {c d : C} {p : Pc C}
    (hp : p.inWait = true → (f c).inWait = true) (hd : (Function.update f c p d).inWait = true) :
    (f d).inWait = true := by
  by_cases hdc : d = c
  · subst hdc
    exact hp (by simpa using hd)
  · simpa [hdc] using hd

/-- A thread comes into `Wait` without a pending wakeup only by adding its
runner. -/
theorem inWait_back {s s' : State C} {a : Action C} (h : Step s a s') {d : C}
    (hd : (s'.pc d).inWait = true) (hw : s'.woken d = false) :
    ((s.pc d).inWait = true ∧ s.woken d = false) ∨ d ∈ s'.runners := by
  cases h with
  | add c hp =>
    by_cases hdc : d = c
    · exact Or.inr (by simp [hdc, TRunnersQueue.add])
    · exact Or.inl ⟨by simpa [hdc] using hd, hw⟩
  | runningAdd c hp | runningAcquire c hp | runningRun c hp =>
    have hdc : d ≠ c := by
      rintro rfl
      simp [Pc.inWait] at hd
    exact Or.inl ⟨by simpa [hdc] using hd, by simpa [hdc] using hw⟩
  | nextFetchAdd c n hp =>
    have hdn := ne_of_move hw (by simp)
    exact Or.inl ⟨inWait_of_move (by simp [Pc.inWait]) hd, by simpa [hdn] using hw⟩
  | nextNotify c n hp =>
    have hn := inWait_of_move (by simp [Pc.inWait]) hd
    exact Or.inl ⟨inWait_of_move (notified_inWait _).symm.trans hn, hw⟩
  | unlock c hp =>
    have hout : (afterRun s c).inWait = false := afterRun_range Pc.inWait rfl rfl
    exact Or.inl ⟨inWait_of_move (by simp [hout]) hd, hw⟩
  | unlockLoop c hp =>
    have hout : (afterWait s c).inWait = false := afterWait_range Pc.inWait rfl rfl
    exact Or.inl ⟨inWait_of_move (by simp [hout]) hd, hw⟩
  | wakeDone | wakeAgain => exact Or.inl ⟨inWait_of_move (notified_inWait _).symm.trans hd, hw⟩
  | complete | wakeAcquired | wakeFinishLoop | wakeStore | finish | fire => exact Or.inl ⟨hd, hw⟩
  | unlockWait c hp | waitLoad c hp | waitAgain c w hp | waitLeave c w hp | waitBlock c w hp
  | waitReturn c w hp | spurious c w hp =>
    exact Or.inl ⟨inWait_of_move (by simp [hp, Pc.inWait]) hd, hw⟩
  | _ => exact Or.inl ⟨inWait_of_move (by simp [Pc.inWait]) hd, hw⟩

theorem mem_step {s s' : State C} {a : Action C} (h : Step s a s') {d : C}
    (hd : (s'.pc d).inWait = true) (hmem : d ∈ s.runners) :
    d ∈ s'.runners ∨ ∃ e, s'.pc e = .wakeupNext (.finished d) := by
  cases h with
  | nextPop c n rest hc hq =>
    by_cases hdn : d = n
    · exact Or.inr ⟨c, by simp [hdn]⟩
    · exact Or.inl (by simpa [hq, hdn] using hmem)
  | erase c hc =>
    have hdc : d ≠ c := by
      rintro rfl
      simp [Pc.inWait] at hd
    exact Or.inl ((List.mem_erase_of_ne hdc).mpr hmem)
  | add c hc => exact Or.inl (List.mem_cons_of_mem c hmem)
  | _ => exact Or.inl hmem

theorem zero_kept {s s' : State C} {a : Action C} (h : Step s a s') {d : C}
    (hw : s'.woken d = false) (hz : (s.runner d).awakenings = 0) :
    (s'.runner d).awakenings = 0 := by
  cases h with
  | nextFetchAdd c n hc =>
    have hdn : d ≠ n := by
      rintro rfl
      simp at hw
    simpa [hdn] using hz
  | acquired c hp | notAcquired c hp =>
    by_cases hdc : d = c
    · subst hdc
      simpa using hz
    · simpa [hdc] using hz
  | wakeStore c k hk =>
    by_cases hdc : d = c
    · simp [hdc]
    · simpa [hdc] using hz
  | _ => exact hz

theorem popped_step {s s' : State C} {a : Action C} (h : Step s a s') {d e : C}
    (hw : s'.woken d = false)
    (he : s.pc e = .wakeupNext (.finished d) ∨ s.pc e = .wakeupNext (.fetchAdd d)) :
    (s'.runner d).awakenings = 0 ∨
      s'.pc e = .wakeupNext (.finished d) ∨ s'.pc e = .wakeupNext (.fetchAdd d) := by
  cases h with
  | nextSkip c n hp hfin =>
    by_cases hec : e = c
    · subst hec
      have hdn : n = d := by simpa [hp] using he
      exact Or.inl (by simpa [hdn, TRunner.finished_iff] using hfin)
    · exact Or.inr (by simpa [hec] using he)
  | nextTake c n hp =>
    by_cases hec : e = c
    · subst hec
      have hdn : n = d := by simpa [hp] using he
      exact Or.inr (Or.inr (by simp [hdn]))
    · exact Or.inr (by simpa [hec] using he)
  | nextFetchAdd c n hp =>
    have hdn := ne_of_move hw (by simp)
    have hec : e ≠ c := by
      rintro rfl
      simp [hp, Ne.symm hdn] at he
    exact Or.inr (by simpa [hec] using he)
  | nextNotify c n hp =>
    have hec : e ≠ c := by
      rintro rfl
      simp [hp] at he
    have hn := he.imp (next_notify (n := n)) (next_notify (n := n))
    exact Or.inr (by simpa only [Function.update_of_ne hec] using hn)
  | wakeDone | wakeAgain => exact Or.inr (he.imp next_notify next_notify)
  | complete | wakeAcquired | wakeFinishLoop | wakeStore | finish | fire => exact Or.inr he
  | callSteal c hp | callLock c k hp | stealReturn c hp | stealLock c hp | lock c hp
  | runningAdd c hp | runningAcquire c hp | runningRun c hp | acquired c hp | notAcquired c hp
  | runLocked c hp | uvTest c hp | uvCallbacks c hp | uvSignal c b hp | uvPoll c hp | uvEvent c hp
  | uvEvents c hp | uvExit c hp | relockRun c hp | nextEmpty c hp | nextPop c n rest hp
  | unlock c hp | add c hp | unlockWait c hp | waitLoad c hp | waitAgain c w hp | waitLeave c w hp
  | waitBlock c w hp | waitReturn c w hp | relock c hp | erase c hp | unlockLoop c hp
  | spurious c w hp =>
    have hec : e ≠ c := by
      rintro rfl
      simp [hp] at he
    exact Or.inr (by simpa [hec] using he)

theorem linked_step {s s' : State C} {a : Action C} (hi : WokenInv s) (h : Step s a s') :
    ∀ c, (s'.pc c).inWait = true → s'.woken c = false →
      c ∈ s'.runners ∨ (s'.runner c).awakenings = 0 ∨
      ∃ d, s'.pc d = .wakeupNext (.finished c) ∨ s'.pc d = .wakeupNext (.fetchAdd c) := by
  intro d hd hw
  rcases inWait_back h hd hw with ⟨hin, hold⟩ | hmem
  · rcases hi.linked d hin hold with hmem | hz | ⟨e, he⟩
    · rcases mem_step h hd hmem with hmem' | ⟨e, he⟩
      · exact Or.inl hmem'
      · exact Or.inr (Or.inr ⟨e, Or.inl he⟩)
    · exact Or.inr (Or.inl (zero_kept h hw hz))
    · rcases popped_step h hw he with hz | he'
      · exact Or.inr (Or.inl hz)
      · exact Or.inr (Or.inr ⟨e, he'⟩)
  · exact Or.inl hmem

omit [DecidableEq C] in
theorem WokenInv.no_baton {s : State C} (hi : WokenInv s) {c : C}
    (hw : (s.pc c).mayBeWoken = false) (hp : (s.pc c).passing = false) : ¬ HasBaton s c := by
  rintro (⟨hc, -⟩ | hc)
  · simp [hi.after c hc] at hw
  · simp [hc] at hp

theorem HasBaton.move {s s' : State C} {c d : C} {p : Pc C} (hd : HasBaton s d)
    (hw : s'.woken = s.woken) (hpc : s'.pc = Function.update s.pc c p)
    (hc : HasBaton s c → HasBaton s' c) : HasBaton s' d := by
  by_cases hdc : d = c
  · exact hdc ▸ hc (hdc ▸ hd)
  · simpa only [HasBaton, InCall, hw, hpc, Function.update_of_ne hdc] using hd

/-- A thread that stays in its call keeps the baton in `Woken`. -/
theorem HasBaton.stays {s s' : State C} {c : C} {p : Pc C} (hp : (s.pc c).passing = false)
    (hw : s'.woken = s.woken) (hpc : s'.pc = Function.update s.pc c p)
    (hin : p ≠ .idle ∧ ∀ o, p ≠ .returned o) (hc : HasBaton s c) : HasBaton s' c := by
  rcases hc with ⟨hwoken, -⟩ | hpass
  · exact Or.inl ⟨hw ▸ hwoken, by simpa [InCall, hpc] using hin⟩
  · simp [hpass] at hp

theorem HasBaton.notify {s s' : State C} {c d : C} (hd : HasBaton s d)
    (hw : s'.woken = s.woken) (hpc : s'.pc = (s.notify c).pc) : HasBaton s' d := by
  refine hd.move hw hpc ?_
  have hself : s'.pc c = (s.pc c).notified := by simp [hpc]
  rintro (⟨hwoken, hin⟩ | hpass)
  · refine Or.inl ⟨hw ▸ hwoken, ?_, ?_⟩
    · exact fun h => hin.1 (eq_of_notified (hself.symm.trans h) (by simp))
    · exact fun o h => hin.2 o (eq_of_notified (hself.symm.trans h) (by simp))
  · exact Or.inr (by rw [hself, notified_passing, hpass])

theorem baton_step {s s' : State C} {a : Action C} (hr : RunInv s) (hq : QueueInv s)
    (hi : WokenInv s) (hok : HandoverKept s a) (h : Step s a s') :
    s'.running = false → s'.runners ≠ [] → ∃ d, HasBaton s' d := by
  intro hrun hne
  cases h with
  | stealReturn c hp hfin =>
    simp only [HandoverKept, hp] at hok
    obtain ⟨d, hdc, hd⟩ := hok hfin hrun hne
    exact ⟨d, by simpa only [HasBaton, InCall, Function.update_of_ne hdc] using hd⟩
  | add c hp => simp [hr.adding c hp] at hrun
  | runningAdd c hp hr' => simp [hr'] at hrun
  | runLocked c hp => cases hrun
  | nextEmpty c hp hq' => exact (hne hq').elim
  | relockRun c hp | notAcquired c hp | runningAcquire c hp | runningRun c hp | acquired c hp
  | nextPop c n rest hp | nextSkip c n hp | nextTake c n hp | lock c hp =>
    exact ⟨c, by simp [HasBaton, Pc.passing]⟩
  | nextFetchAdd c n hp =>
    have hw := (hq.popped c _ n hp rfl).2
    have hnc : n ≠ c := by
      rintro rfl
      simp [hp, Pc.waiting] at hw
    refine ⟨n, Or.inl ⟨by simp, ?_, ?_⟩⟩
    · intro h
      have hidle : s.pc n = .idle := eq_of_move h (by simp)
      simp [hidle, Pc.waiting] at hw
    · intro o h
      have hret : s.pc n = .returned o := eq_of_move h (by simp)
      simp [hret, Pc.waiting] at hw
  | nextNotify c n hp =>
    obtain ⟨d, hd⟩ := hi.baton hrun hne
    have hdc : d ≠ c := by
      rintro rfl
      exact hi.no_baton (by simp [hp, Pc.mayBeWoken]) (by simp [hp, Pc.passing]) hd
    have hn : HasBaton (s.notify n) d := hd.notify rfl rfl
    exact ⟨d, by simpa only [HasBaton, InCall, Function.update_of_ne hdc] using hn⟩
  | wakeDone | wakeAgain =>
    obtain ⟨d, hd⟩ := hi.baton hrun hne
    exact ⟨d, hd.notify rfl rfl⟩
  | complete | wakeAcquired | wakeFinishLoop | wakeStore | finish | fire => exact hi.baton hrun hne
  | erase c hp =>
    have hold : s.runners ≠ [] := by
      intro h0
      simp [TRunnersQueue.erase, h0] at hne
    obtain ⟨d, hd⟩ := hi.baton hrun hold
    exact ⟨d, hd.move rfl rfl (.stays (by simp [hp, Pc.passing]) rfl rfl (by simp))⟩
  | stealLock c hp | waitAgain c w hp | waitLeave c w hp | waitBlock c w hp | waitReturn c w hp
  | relock c hp | unlockLoop c hp | spurious c w hp =>
    obtain ⟨d, hd⟩ := hi.baton hrun hne
    exact ⟨d, hd.move rfl rfl (.stays (by simp [hp, Pc.passing]) rfl rfl (by simp))⟩
  | callSteal c hp | callLock c k hp | uvTest c hp | uvCallbacks c hp | uvSignal c b hp
  | uvPoll c hp | uvEvent c hp | uvEvents c hp | uvExit c hp | unlock c hp | unlockWait c hp
  | waitLoad c hp =>
    obtain ⟨d, hd⟩ := hi.baton hrun hne
    refine ⟨d, hd.move rfl rfl fun hc => (hi.no_baton ?_ ?_ hc).elim⟩
    · simp [hp, Pc.mayBeWoken]
    · simp [hp, Pc.passing]

theorem wokenInv_step {s s' : State C} {a : Action C} (hr : RunInv s) (hq : QueueInv s)
    (hi : WokenInv s) (hok : HandoverKept s a) (h : Step s a s') : WokenInv s' :=
  ⟨nonzero_step hi h, after_step hq hi hok h, test_step hi hok h, wait_step hi hok h,
    notified_step hi h, linked_step hi h, baton_step hr hq hi hok h⟩

omit [DecidableEq C] in
theorem wokenInv_initial : WokenInv (initial : State C) := by
  constructor <;> simp [initial, Pc.inWait]

/-! ### The hand-over -/

omit [DecidableEq C] in
theorem HasBaton.not_blocked {s : State C} (hi : WokenInv s) {d : C} (h : HasBaton s d) :
    ¬ BlockedInWait s d := by
  rintro ⟨w, hp, hw⟩
  rcases h with ⟨hd, -⟩ | hpass
  · exact hi.wait d w hd (Or.inr hp) hw
  · simp [hp, Pc.passing] at hpass

omit [DecidableEq C] in
theorem HasBaton.inCall {s : State C} {d : C} (h : HasBaton s d) : InCall s d := by
  rcases h with ⟨-, hd⟩ | hpass
  · exact hd
  · constructor
    · intro hp
      simp [hp, Pc.passing] at hpass
    · intro o hp
      simp [hp, Pc.passing] at hpass

omit [DecidableEq C] in
/-- With the mutex free, a runner whose owner is blocked in `Wait` is linked,
so that the baton is on its way. -/
theorem exists_not_blocked {s : State C} (hm : MtxInv s) (hi : WokenInv s)
    (hrun : s.running = false) (hfree : s.runMtx = none) {c : C} (hc : InCall s c) :
    ∃ d, InCall s d ∧ ¬ BlockedInWait s d := by
  by_cases hb : BlockedInWait s c
  · obtain ⟨w, hp, hw⟩ := hb
    have hwoken : s.woken c = false := by
      by_contra hne
      exact hi.wait c w (by simpa using hne) (Or.inr hp) hw
    have hnz : (s.runner c).awakenings ≠ 0 := hw ▸ hi.nonzero c w (Or.inr hp)
    have hmem : c ∈ s.runners := by
      rcases hi.linked c (by simp [hp, Pc.inWait]) hwoken with hmem | hz | ⟨d, hd⟩
      · exact hmem
      · exact absurd hz hnz
      · have hheld := (hm d).mpr (by rcases hd with hd | hd <;> simp [hd, Pc.holds])
        simp [hfree] at hheld
    obtain ⟨d, hd⟩ := hi.baton hrun (List.ne_nil_of_mem hmem)
    exact ⟨d, hd.inCall, hd.not_blocked hi⟩
  · exact ⟨c, hc, hb⟩

/-- Only a parked thread lacks a step, and its counter changes together with a
notify that is still to come. -/
theorem canStep_of_not_blocked {s : State C} (hm : MtxInv s) (hr : RunInv s) (hi : WokenInv s)
    (hrun : s.running = false) (hfree : s.runMtx = none) {c : C} (hc : InCall s c)
    (hb : ¬ BlockedInWait s c) : CanStep s c := by
  cases hp : s.pc c with
  | idle => exact (hc.1 hp).elim
  | returned o => exact (hc.2 o hp).elim
  | uv p =>
    have hno := hr.running c (by simp [hp, Pc.inRunLocked])
    simp [hrun] at hno
  | wait p =>
    cases p with
    | blocked w =>
      have hne : (s.runner c).awakenings ≠ w := fun hw => hb ⟨w, hp, hw⟩
      rcases hi.notified c w hp hne with ⟨d, hd⟩ | ⟨k, hk⟩
      · have hheld := (hm d).mpr (by simp [hd, Pc.holds])
        simp [hfree] at hheld
      · right
        cases k <;> simp [wakeStep, hk]
    | _ => exact Or.inl (by simp [threadStep, hp, waitStep])
  | lock | relock | relockRun => exact Or.inl (by simp [threadStep, hp, acquireMtx, hfree])
  | _ => exact Or.inl (by simp [threadStep, hp])

/-- In every run that keeps its wakeups no hand-over of the loop is lost. -/
theorem handover_live {s : State C} (h : system.ReachableVia HandoverKept s) :
    HandoverLive s := by
  have hreach := h.reachable
  have hm := reachable_mtxInv hreach
  have hr := reachable_runInv hreach
  have hi : WokenInv s := by
    refine System.ReachableVia.invariant (fun _ hr => hr.reachable) ?_ ?_ h
    · rintro _ rfl
      exact wokenInv_initial
    · intro s a s' hreach hi hok hs
      exact wokenInv_step (reachable_runInv hreach) (reachable_queueInv hreach) hi hok (step_cases hs)
  rintro hrun hfree ⟨c, hc⟩
  obtain ⟨d, hd, hb⟩ := exists_not_blocked hm hi hrun hfree hc
  exact ⟨⟨d, hd, canStep_of_not_blocked hm hr hi hrun hfree hd hb⟩, d, hd, hb⟩

theorem handover_live_parked : ∃ s : State Bool, system.ReachableVia HandoverKept s ∧
    s.pc false = .returned .values ∧ s.pc true = .wait (.wait 1) ∧ HandoverLive s := by
  have h0 : system.ReachableVia HandoverKept (initial : State Bool) := .initial rfl
  have h1 := h0.step (Action.call false .runOnce) trivial rfl
  have h2 := h1.step (Action.thread false) trivial rfl
  have h3 := h2.step (Action.thread false) trivial rfl
  have h4 := h3.step (Action.thread false) trivial rfl
  have h5 := h4.step (Action.call true .runOnce) trivial rfl
  have h6 := h5.step (Action.thread true) trivial rfl
  have h7 := h6.step (Action.thread true) trivial rfl
  have h8 := h7.step (Action.thread true) trivial rfl
  have h9 := h8.step (Action.thread true) trivial rfl
  have h10 := h9.step (Action.thread true) trivial rfl
  have h11 := h10.step (Action.thread true) trivial rfl
  have h12 := h11.step (Action.thread true) trivial rfl
  have h13 := h12.step (Action.thread false) trivial rfl
  have h14 := h13.step (Action.thread false) trivial rfl
  have h15 := h14.step (Action.event false) trivial rfl
  have h16 := h15.step (Action.thread false) trivial rfl
  have h17 := h16.step (Action.thread false) trivial rfl
  have h18 := h17.step (Action.thread false) trivial rfl
  have h19 := h18.step (Action.thread false) trivial rfl
  have h20 := h19.step (Action.thread false) trivial rfl
  have h21 := h20.step (Action.thread false) (show (2 : UInt64) ≠ 1 by decide) rfl
  have h22 := h21.step (Action.thread false) trivial rfl
  have h23 := h22.step (Action.thread false) trivial rfl
  exact ⟨_, h23, rfl, rfl, handover_live h23⟩

/-- The call `true` has released the mutex but not loaded its counter when the
call `false` leaves the loop and wakes it. -/
def lostWakeup : List (Action Bool) :=
  [.call false .runOnce, .thread false, .thread false, .thread false,
   .call true .runOnce, .thread true, .thread true, .thread true, .thread true,
   -- one iteration of `uv_run`
   .thread false, .thread false, .event false, .thread false, .thread false,
   -- from the re-lock to the return
   .thread false, .thread false, .thread false, .thread false, .thread false, .thread false,
   -- `Wait` loads the counter, compares and blocks
   .thread true, .thread true, .thread true]

theorem handover_lost : ¬ ∀ s : State Bool, system.Reachable s → HandoverLive s := by
  intro hall
  have hrun : (system.exec (initial : State Bool) lostWakeup).map
      (fun s => (s.running, s.runMtx, s.pc false, s.pc true, (s.runner true).awakenings)) =
        some (false, none, .returned .values, .wait (.blocked 2), 2) := by decide
  obtain ⟨s, hs, heq⟩ := Option.map_eq_some_iff.mp hrun
  simp only [Prod.mk.injEq] at heq
  obtain ⟨hrunning, hfree, hfalse, htrue, haw⟩ := heq
  have hlive := hall s (System.reachable_exec _ (.initial rfl) hs)
  obtain ⟨-, c, hc, hb⟩ := hlive hrunning hfree ⟨true, by simp [InCall, htrue]⟩
  cases c with
  | false => exact hc.2 _ hfalse
  | true => exact hb ⟨2, htrue, haw⟩

end UvExec.Loop
