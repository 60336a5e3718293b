import UvExec.Algorithms.AsyncValueDrop
import UvExec.Algorithms.SocketCourse

/-! # Where the downstream receiver lives

`emplace` of a variant's alternative ends the one that holds the stage's receiver
before it runs the function that moves the receiver on. -/

namespace UvExec.SocketOp
open Lib

variable {β E : Type}

/-- One live slot owns the receiver until its completion, and every access was to
a live slot. -/
structure ReceiverOwned (s : State β E) : Prop where
  held : s.completions = [] → s.slots.Held
  valid : s.slots.valid = true

/-- No stage hands the receiver on by reference. -/
def ByValueOnly (o : Outcomes β E) : Kind → Prop
  | .connectTo => o.init ≠ 0 ∨
      (o.connect = none ∧ ((∀ b, o.predecessor ≠ .value b) ∨ ∀ b, o.request ≠ .value b))
  | .acceptFrom => o.init ≠ 0
  | .bindTo => (∀ b, o.predecessor ≠ .value b) ∨ o.init ≠ 0

/-- Where the receiver is, on the way on which it is never lost. -/
def At (k : Kind) (o : Outcomes β E) (s : State β E) : Prop :=
  match s.pc with
  | .init => (k = .bindTo → ∃ b, o.predecessor = .value b) ∧ s.slots.HeldBy k.home
  | .makeReceiver => (k = .connectTo ∧ o.init = 0) ∧ s.slots.HeldBy .member
  | .connectIn => (k = .connectTo ∧ o.init = 0) ∧ s.slots.HeldBy .local
  | .predecessor => (k = .bindTo ∨ k = .connectTo ∧ o.init = 0) ∧ s.slots.HeldBy .inner
  | .request => (k = .connectTo ∧ o.init = 0 ∧ ∃ b, o.predecessor = .value b) ∧ s.slots.HeldBy .inner
  | .startClose _ => k = .connectTo ∧ s.slots.HeldBy .inner
  | .emplaceClose _ | .connectClose _ => k = .connectTo ∧ s.slots.HeldBy .local
  | .closing _ => s.slots.HeldBy .close
  | .complete slot _ => s.slots.HeldBy slot
  | .done => s.slots.valid = true
  | .bind | .emplaceBody | .invokeFn | .connectBody | .caught _ | .body | .closingBody _ => False

variable {k : Kind} {o : Outcomes β E} {s s' : State β E}

theorem At.step {a : Action} (hb : ByValueOnly o k) (hi : At k o s) (h : Step k o s a s') :
    At k o s' := by
  cases h with
  | initFailed hp h0 =>
    simp only [At, hp] at hi
    exact hi.2.access hi.2.live
  | init hp h0 =>
    simp only [At, hp] at hi
    cases k with
    | connectTo => exact ⟨⟨rfl, h0⟩, hi.2.access hi.2.live⟩
    | acceptFrom => exact (hb h0).elim
    | bindTo =>
      obtain ⟨b, hval⟩ := hi.1 rfl
      rcases hb with hb | hb
      · exact (hb b hval).elim
      · exact (hb h0).elim
  | makeReceiver hp =>
    simp only [At, hp] at hi
    exact ⟨hi.1, hi.2.move _⟩
  | connectThrew x hp hx =>
    simp only [At, hp] at hi
    obtain ⟨⟨rfl, h0⟩, -⟩ := hi
    rcases hb with hb | hb
    · exact (hb h0).elim
    · simp [hx] at hb
  | connectIn hp hx =>
    simp only [At, hp] at hi
    exact ⟨Or.inr hi.1, (hi.2.move _).destroy (by simp)⟩
  | startClose fin hp =>
    simp only [At, hp] at hi
    obtain ⟨rfl, hheld⟩ := hi
    exact ⟨rfl, hheld.move _⟩
  | emplaceClose fin hp =>
    simp only [At, hp] at hi
    exact ⟨hi.1, hi.2.destroy (by simp)⟩
  | connectClose fin hp =>
    simp only [At, hp] at hi
    obtain ⟨rfl, hheld⟩ := hi
    exact (hheld.move _).destroy (by simp)
  | complete slot fin hp =>
    simp only [At, hp] at hi
    exact (hi.access hi.live).valid
  | predecessor hp hf =>
    obtain ⟨b, hval⟩ := Disposition.failure_eq_none.mp hf
    simp only [At, hp] at hi
    obtain ⟨rfl | ⟨rfl, h0⟩, hheld⟩ := hi
    · exact ⟨fun _ => ⟨b, hval⟩, hheld.access hheld.live⟩
    · exact ⟨⟨rfl, h0, b, hval⟩, hheld.access hheld.live⟩
  | predecessorFailed fin hp hf =>
    simp only [At, hp] at hi
    obtain ⟨rfl | ⟨rfl, h0⟩, hheld⟩ := hi
    · exact hheld.access hheld.live
    · exact ⟨rfl, hheld.access hheld.live⟩
  | request hp hf =>
    obtain ⟨b, hval⟩ := Disposition.failure_eq_none.mp hf
    simp only [At, hp] at hi
    obtain ⟨⟨rfl, h0, b', hpre⟩, -⟩ := hi
    rcases hb with hb | ⟨-, hb | hb⟩
    · exact (hb h0).elim
    · exact (hb b' hpre).elim
    · exact (hb b hval).elim
  | requestFailed fin hp hf =>
    simp only [At, hp] at hi
    exact ⟨hi.1.1, hi.2.access hi.2.live⟩
  | closed fin hp =>
    simp only [At, hp] at hi
    exact hi
  | _ => simp [At, *] at hi

theorem at_of_reachable (hb : ByValueOnly o k) (h : (system k o).Reachable s) : At k o s := by
  refine System.Reachable.invariant ?_ ?_ h
  · rintro _ rfl
    cases k with
    | connectTo => exact ⟨nofun, Slots.heldBy_single _⟩
    | acceptFrom => exact ⟨nofun, Slots.heldBy_single _⟩
    | bindTo => exact ⟨Or.inl rfl, Slots.heldBy_single _⟩
  · intro s a s' hi hs
    exact hi.step hb (step_cases hs)

theorem At.heldBy (hat : At k o s) (hp : s.pc ≠ .done) : ∃ x, s.slots.HeldBy x := by
  cases hpc : s.pc with
  | done => exact (hp hpc).elim
  | bind | emplaceBody | invokeFn | connectBody | caught | body | closingBody =>
    simp [At, hpc] at hat
  | closing | complete =>
    simp only [At, hpc] at hat
    exact ⟨_, hat⟩
  | init | makeReceiver | connectIn | predecessor | request | startClose | emplaceClose
  | connectClose =>
    simp only [At, hpc] at hat
    exact ⟨_, hat.2⟩

theorem receiverOwned_of_reachable (hb : ByValueOnly o k) (h : (system k o).Reachable s) :
    ReceiverOwned s := by
  have hat := at_of_reachable hb h
  rcases (inv_of_reachable h).completions with ⟨hp, -⟩ | ⟨hp, hone, -⟩
  · obtain ⟨x, hx⟩ := hat.heldBy hp
    exact ⟨fun _ => hx.held, hx.valid⟩
  · simp only [At, hp] at hat
    refine ⟨fun hnil => ?_, hat⟩
    rw [hone] at hnil
    cases hnil

/-! ### The ways on which the receiver is lost -/

/-- Some run gets to `pc` with the receiver in `x`. -/
def Reaches (k : Kind) (o : Outcomes β E) (pc : Pc β E) (x : Slot) : Prop :=
  ∃ s, (system k o).Reachable s ∧ s.pc = pc ∧ s.slots.HeldBy x ∧ s.completions = []

/-- Some run loses the receiver before its completion. -/
def Loses (k : Kind) (o : Outcomes β E) : Prop :=
  ∃ s, (system k o).Reachable s ∧ s.slots.owner = none ∧ s.completions = []

theorem Reaches.initial (k : Kind) (o : Outcomes β E) :
    Reaches k o (initial k : State β E).pc k.home :=
  ⟨_, .initial rfl, rfl, Slots.heldBy_single _, rfl⟩

theorem Reaches.step {pc pc' : Pc β E} {x y : Slot} (h : Reaches k o pc x) (a : Action)
    (next : ∀ s : State β E, s.pc = pc → s.slots.HeldBy x → ∃ s', SocketOp.step k o s a = some s' ∧
      s'.pc = pc' ∧ s'.slots.HeldBy y ∧ s'.completions = s.completions) : Reaches k o pc' y := by
  obtain ⟨s, hs, hp, hx, hc⟩ := h
  obtain ⟨s', hstep, hp', hy, hc'⟩ := next s hp hx
  exact ⟨s', System.Reachable.step hs a hstep, hp', hy, hc'.trans hc⟩

theorem Reaches.loses {pc : Pc β E} {x : Slot} (h : Reaches k o pc x) (a : Action)
    (next : ∀ s : State β E, s.pc = pc → s.slots.HeldBy x → ∃ s', SocketOp.step k o s a = some s' ∧
      s'.slots.owner = none ∧ s'.completions = s.completions) : Loses k o := by
  obtain ⟨s, hs, hp, hx, hc⟩ := h
  obtain ⟨s', hstep, hnone, hc'⟩ := next s hp hx
  exact ⟨s', System.Reachable.step hs a hstep, hnone, hc'.trans hc⟩

theorem Reaches.opened (h : Reaches k o .init k.home) (h0 : o.init = 0) :
    Reaches k o (if k = .bindTo then .bind else .makeReceiver) k.home := by
  refine h.step .run fun s hp hx => ⟨s.emit (s.slots.access k.home) .opened _, ?_, rfl, hx.access hx.live, ?_⟩
  · simp only [SocketOp.step, runStep, hp, h0, ne_eq, not_true_eq_false, if_false]
    rfl
  · simp [State.completions, Event.fin]

theorem Reaches.makeReceiver (h : Reaches k o .makeReceiver .member) :
    Reaches k o .connectIn .local := by
  refine h.step .run fun s hp hx => ⟨s.goto (s.slots.move .member .local) _, ?_, rfl, hx.move _, rfl⟩
  simp only [SocketOp.step, runStep, hp]

theorem Reaches.connectThrew {x : E} (h : Reaches k o .connectIn .local)
    (hx : o.connect = some x) : Loses k o := by
  refine h.loses .run fun s hp hl => ⟨s.goto (s.slots.destroy .local)
    (.complete .member (.error (.exception x))), ?_, hl.lost, rfl⟩
  simp only [SocketOp.step, runStep, hp, hx]

theorem Reaches.connectIn (h : Reaches k o .connectIn .local) (hx : o.connect = none) :
    Reaches k o .predecessor .inner := by
  refine h.step .run fun s hp hl => ⟨s.goto ((s.slots.move .local .inner).destroy .local) _, ?_,
    rfl, (hl.move _).destroy (by simp), rfl⟩
  simp only [SocketOp.step, runStep, hp, hx]

theorem Reaches.predecessor (h : Reaches k o .predecessor .inner)
    (hf : o.predecessor.failure (β := β) = none) :
    Reaches k o (if k = .bindTo then .init else .request) .inner := by
  refine h.step .predecessor fun s hp hi => ⟨s.goto (s.slots.access .inner)
    (if k = .bindTo then .init else .request), ?_, rfl, hi.access hi.live, rfl⟩
  simp only [SocketOp.step, hp, if_true, hf]

theorem Reaches.predecessorFailed {fin : Disposition β E} (h : Reaches k o .predecessor .inner)
    (hf : o.predecessor.failure = some fin) (hk : k ≠ .bindTo) :
    Reaches k o (.startClose fin) .inner := by
  refine h.step .predecessor fun s hp hi => ⟨s.goto (s.slots.access .inner) (.startClose fin), ?_,
    rfl, hi.access hi.live, rfl⟩
  simp only [SocketOp.step, hp, if_true, hf, hk, if_false]

theorem Reaches.request (h : Reaches k o .request .inner)
    (hf : o.request.failure (β := β) = none) : Reaches k o .emplaceBody .inner := by
  refine h.step .request fun s hp hi => ⟨s.goto (s.slots.access .inner) .emplaceBody, ?_, rfl,
    hi.access hi.live, rfl⟩
  simp only [SocketOp.step, hp, if_true, hf]

theorem Reaches.requestFailed {fin : Disposition β E} (h : Reaches k o .request .inner)
    (hf : o.request.failure = some fin) : Reaches k o (.startClose fin) .inner := by
  refine h.step .request fun s hp hi => ⟨s.goto (s.slots.access .inner) (.startClose fin), ?_, rfl,
    hi.access hi.live, rfl⟩
  simp only [SocketOp.step, hp, if_true, hf]

theorem Reaches.bind (h : Reaches k o .bind .inner) :
    Reaches k o (.startClose (.error (.errc o.bind))) .inner ∨ Reaches k o .emplaceBody .inner := by
  by_cases h1 : o.bind = 0
  · right
    refine h.step .run fun s hp hi => ⟨s.goto (s.slots.access .inner) .emplaceBody, ?_, rfl,
      hi.access hi.live, rfl⟩
    simp only [SocketOp.step, runStep, hp, h1, ne_eq, not_true_eq_false, if_false]
  · left
    refine h.step .run fun s hp hi => ⟨s.goto (s.slots.access .inner)
      (.startClose (.error (.errc o.bind))), ?_, rfl, hi.access hi.live, rfl⟩
    simp only [SocketOp.step, runStep, hp, h1, ne_eq, not_false_eq_true, if_true]

/-- `EmplaceAndStartBody` ends the stage whose receiver it has a reference to. -/
theorem Reaches.emplaceBody (h : Reaches k o .emplaceBody .inner) : Loses k o := by
  refine h.loses .run fun s hp hi => ⟨s.goto (s.slots.destroy .inner) .invokeFn, ?_, hi.lost, rfl⟩
  simp only [SocketOp.step, runStep, hp]

theorem Reaches.startClose {fin : Disposition β E} (h : Reaches k o (.startClose fin) .inner)
    (hk : k.byValue = false) : Loses k o := by
  have he : Reaches k o (.emplaceClose fin) .inner := by
    refine h.step .run fun s hp hi => ⟨s.goto s.slots _, ?_, rfl, hi, rfl⟩
    simp only [SocketOp.step, runStep, hp, hk, Bool.false_eq_true, if_false]
  refine he.loses .run fun s hp hi => ⟨s.goto (s.slots.destroy .inner) (.connectClose fin), ?_,
    hi.lost, rfl⟩
  simp only [SocketOp.step, runStep, hp]

/-- connect_to and accept_from lose the receiver once the socket is open, except
where connect_to goes to its close without an exception. -/
theorem loses_request (hk : k ≠ .bindTo) (h0 : o.init = 0)
    (h : k = .connectTo → o.connect = none →
      o.predecessor.failure (β := β) = none ∧ o.request.failure (β := β) = none) : Loses k o := by
  have hhome : k.home = .member := by
    cases k <;> trivial
  have hinit : Reaches k o .init k.home := by
    have hr := Reaches.initial k o
    rwa [SocketOp.initial, if_neg hk] at hr
  have hmake := hinit.opened h0
  rw [if_neg hk, hhome] at hmake
  cases hx : o.connect with
  | some x => exact hmake.makeReceiver.connectThrew hx
  | none =>
    have hclose {fin : Disposition β E} (hfin : Reaches k o (.startClose fin) .inner)
        (hfail : o.predecessor.failure (β := β) ≠ none ∨ o.request.failure (β := β) ≠ none) :
        Loses k o := by
      cases k with
      | connectTo =>
        obtain ⟨hp, hr⟩ := h rfl hx
        rcases hfail with hne | hne
        · exact (hne hp).elim
        · exact (hne hr).elim
      | acceptFrom => exact hfin.startClose rfl
      | bindTo => exact (hk rfl).elim
    have hpre := hmake.makeReceiver.connectIn hx
    cases hpf : o.predecessor.failure (β := β) with
    | some fin => exact hclose (hpre.predecessorFailed hpf hk) (Or.inl (by simp [hpf]))
    | none =>
      have hreq := hpre.predecessor hpf
      rw [if_neg hk] at hreq
      cases hrf : o.request.failure (β := β) with
      | some fin => exact hclose (hreq.requestFailed hrf) (Or.inr (by simp [hrf]))
      | none => exact (hreq.request hrf).emplaceBody

theorem loses_bind (h0 : o.init = 0) (hpre : o.predecessor.failure (β := β) = none) :
    Loses .bindTo o := by
  have hinit := (Reaches.initial .bindTo o).predecessor hpre
  rcases (hinit.opened h0).bind with hclose | hbody
  · exact hclose.startClose rfl
  · exact hbody.emplaceBody

theorem loses_of_not_byValue (hb : ¬ByValueOnly o k) : Loses k o := by
  cases k with
  | connectTo =>
    simp only [ByValueOnly, not_or, not_not, not_and, not_forall] at hb
    obtain ⟨h0, hx⟩ := hb
    refine loses_request (by simp) h0 fun _ hnone => ?_
    obtain ⟨hp, hr⟩ := hx hnone
    exact ⟨Disposition.failure_eq_none.mpr hp, Disposition.failure_eq_none.mpr hr⟩
  | acceptFrom => exact loses_request (by simp) (not_not.mp hb) fun hk => by cases hk
  | bindTo =>
    simp only [ByValueOnly, not_or, not_not, not_forall] at hb
    exact loses_bind hb.2 (Disposition.failure_eq_none.mpr hb.1)

theorem receiver_owned_iff (k : Kind) (o : Outcomes β E) :
    (∀ s, (system k o).Reachable s → ReceiverOwned s) ↔ ByValueOnly o k := by
  constructor
  · intro hall
    by_contra hb
    obtain ⟨s, hs, hnone, hnil⟩ := loses_of_not_byValue hb
    exact Slots.not_held hnone ((hall s hs).held hnil)
  · intro hb s h
    exact receiverOwned_of_reachable hb h

end UvExec.SocketOp

namespace UvExec.AsyncValue
open Lib

variable {β E : Type}

structure ReceiverOwned (s : State β E) : Prop where
  held : s.completions = [] → s.slots.Held
  valid : s.slots.valid = true

/-- `set_value` does not get to the body's `emplace`. -/
def ByValueOnly (o : Outcomes β E) : Prop :=
  (∀ b, o.predecessor ≠ .value b) ∨ o.construct ≠ none

/-- The receiver stays in the predecessor's alternative, or goes out of it. -/
def At (o : Outcomes β E) (s : State β E) : Prop :=
  match s.pc with
  | .predecessor | .terminated => s.slots.HeldBy .inner
  | .emplaceValue => o.construct ≠ none ∧ s.slots.HeldBy .inner
  | .complete slot _ => s.slots.HeldBy slot
  | .done | .destroyValue | .destroyed => s.completions ≠ [] ∧ s.slots.valid = true
  | _ => False

variable {k : Kind} {o : Outcomes β E} {s s' : State β E}

theorem At.step {a : Action} (hb : ByValueOnly o) (hi : At o s) (h : Step k o s a s') :
    At o s' := by
  cases h with
  | constructThrew x hp hx =>
    simp only [At, hp] at hi
    exact hi.2
  | emplaceValue hp hx =>
    simp only [At, hp] at hi
    exact (hi.1 hx).elim
  | complete slot fin hp =>
    simp only [At, hp] at hi
    exact ⟨by simp [State.completions, Event.fin], (hi.access hi.live).valid⟩
  | destroy hp hrun =>
    simp only [At, hp] at hi
    exact hi
  | destroyValue hp =>
    simp only [At, hp] at hi
    exact hi
  | predecessor hp hf =>
    obtain ⟨b, hval⟩ := Disposition.failure_eq_none.mp hf
    simp only [At, hp] at hi
    rcases hb with hb | hb
    · exact (hb b hval).elim
    · exact ⟨hb, hi.access hi.live⟩
  | predecessorFailed fin hp hf =>
    simp only [At, hp] at hi
    exact hi.access hi.live
  | requestStop | callRequestStop | callbackExit => exact hi
  | _ => simp [At, *] at hi

theorem receiverOwned_of_reachable (hb : ByValueOnly o) (h : (system k o).Reachable s) :
    ReceiverOwned s := by
  have hat : At o s := by
    refine System.Reachable.invariant ?_ ?_ h
    · rintro _ rfl
      exact Slots.heldBy_single _
    · intro s a s' hi hs
      exact hi.step hb (step_cases hs)
  have hheld : (s.completions ≠ [] ∧ s.slots.valid = true) ∨ ∃ x, s.slots.HeldBy x := by
    cases hp : s.pc <;> simp only [At, hp] at hat
    case done | destroyValue | destroyed => exact Or.inl hat
    case emplaceValue => exact Or.inr ⟨_, hat.2⟩
    all_goals exact Or.inr ⟨_, hat⟩
  rcases hheld with ⟨hne, hvalid⟩ | ⟨x, hx⟩
  · exact ⟨fun hnil => (hne hnil).elim, hvalid⟩
  · exact ⟨fun _ => hx.held, hx.valid⟩

theorem loses_of_not_byValue (hb : ¬ByValueOnly o) :
    ∃ s, (system k o).Reachable s ∧ s.slots.owner = none ∧ s.completions = [] := by
  simp only [ByValueOnly, not_or, not_forall, not_not] at hb
  obtain ⟨⟨b, hval⟩, hc⟩ := hb
  have hf : o.predecessor.failure (β := β) = none := Disposition.failure_eq_none.mpr ⟨b, hval⟩
  have h0 : (system k o).Reachable {} := .initial rfl
  have h1 := h0.step .predecessor (by simp only [system, step, if_true, hf]; rfl)
  have h2 := h1.step .run (by simp only [system, step, runStep, hc]; rfl)
  have h3 := h2.step .run rfl
  have h4 := h3.step .run rfl
  have h5 := h4.step .run rfl
  exact ⟨_, h5, rfl, rfl⟩

theorem receiver_owned_iff (k : Kind) (o : Outcomes β E) :
    (∀ s, (system k o).Reachable s → ReceiverOwned s) ↔ ByValueOnly o := by
  constructor
  · intro hall
    by_contra hb
    obtain ⟨s, hs, hnone, hnil⟩ := loses_of_not_byValue (k := k) hb
    exact Slots.not_held hnone ((hall s hs).held hnil)
  · intro hb s h
    exact receiverOwned_of_reachable hb h

end UvExec.AsyncValue

namespace UvExec

theorem receiver_lifetime (β E : Type) :
    (∀ (k : SocketOp.Kind) (o : SocketOp.Outcomes β E),
      (∀ s, (SocketOp.system k o).Reachable s → SocketOp.ReceiverOwned s) ↔
        SocketOp.ByValueOnly o k) ∧
    (∀ (k : AsyncValue.Kind) (o : AsyncValue.Outcomes β E),
      (∀ s, (AsyncValue.system k o).Reachable s → AsyncValue.ReceiverOwned s) ↔
        AsyncValue.ByValueOnly o) :=
  ⟨SocketOp.receiver_owned_iff, AsyncValue.receiver_owned_iff⟩

/-- connect_to is connected, and its body is connected with a receiver of the
stage that has been ended. -/
theorem receiver_taken_from_ended : ∃ s : SocketOp.State Unit ℕ,
    (SocketOp.system .connectTo SocketOp.bodyFails).Reachable s ∧
      s.trace = [.opened, .bodyStarted] ∧ s.slots.valid = false ∧ s.slots.owner = none ∧
      ¬SocketOp.ReceiverOwned s := by
  have h : (SocketOp.system .connectTo SocketOp.bodyFails).exec (SocketOp.initial .connectTo)
      [.run, .run, .run, .predecessor, .request, .run, .run, .run] = some _ := rfl
  exact ⟨_, Lib.System.reachable_exec _ (.initial rfl) h, rfl, rfl, rfl,
    fun howned => Bool.noConfusion howned.valid⟩

end UvExec
