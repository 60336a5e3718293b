import UvExec.Sockets.TcpListener

/-! # The two meanings of `PendingConnections`

The counter is the negated backlog while the listener does not listen, and the
number of unclaimed connections afterwards. -/

namespace UvExec.TcpListener
open Lib

/-- The listener with the number of connections handed to an accept. -/
structure Counted (A : Type) extends State A where
  claims : ℕ := 0

inductive Construction where
  | throwing
  | bindTo (bindErr listenErr : Int)
  deriving DecidableEq, Repr

/-- The listener that the public constructor leaves, or `bind_to`. -/
def Construction.listener {A : Type} (backlog : UInt16) : Construction → State A
  | .throwing => construct backlog
  | .bindTo bindErr listenErr => (bind (constructUnbound backlog) bindErr listenErr).1

/-- The counter is 0 after a success of `StartListening`, and the negated backlog
where it has not been called. -/
def Construction.settled : Construction → Bool
  | .throwing => false
  | .bindTo bindErr listenErr => isError bindErr || !isError listenErr

namespace Counted
variable {A : Type}

/-- Whether the step enters `Accept` of an operation. -/
def hands (s t : State A) : Bool :=
  match s.pc, t.pc with
  | .idle, .accept _ => true
  | _, _ => false

section
variable [DecidableEq A]

def step (s : Counted A) (act : Action A) : Option (Counted A) :=
  (TcpListener.step s.toState act).map fun t =>
    { toState := t, claims := if hands s.toState t then s.claims + 1 else s.claims }

def system : System (Counted A) (Action A) where
  initial s := ∃ t, TcpListener.system.initial t ∧ s = { toState := t }
  step := step

end

/-- `UvTcpListen` has succeeded for the listener. -/
def Listens (s : Counted A) : Prop := ∃ l ∈ s.listens, isError l.2 = false

structure CounterKept (backlog : UInt16) (s : Counted A) : Prop where
  negative : s.pendingConnections < 0 ↔ ¬ s.Listens
  encoded : s.pendingConnections < 0 → s.pendingConnections = -backlog.toNat
  unclaimed : s.Listens → 0 ≤ s.pendingConnections ∧
    s.pendingConnections + s.claims = s.connections
  given : ∀ l ∈ s.listens, l.1 = backlog.toNat
  last : s.listens.Pairwise fun l _ => isError l.2 = true

/-! ### The two stages -/

structure Unlistening (backlog : UInt16) (s : Counted A) : Prop where
  pending : s.pendingConnections = -backlog.toNat
  listening : s.listening = false
  claims : s.claims = s.connections
  given : ∀ l ∈ s.listens, l.1 = backlog.toNat
  failed : ∀ l ∈ s.listens, isError l.2 = true

/- `failed` are the calls before the one that succeeded. -/
structure Listening (backlog : UInt16) (s : Counted A) : Prop where
  pending : 0 ≤ s.pendingConnections
  unclaimed : s.pendingConnections + s.claims = s.connections
  given : ∀ l ∈ s.listens, l.1 = backlog.toNat
  last : ∃ failed l, s.listens = failed ++ [l] ∧ isError l.2 = false ∧ ∀ l ∈ failed, isError l.2 = true

variable {backlog : UInt16} {s s' : Counted A}

theorem failed_pairwise {failed : List (Int × Int)} (h : ∀ l ∈ failed, isError l.2 = true) :
    failed.Pairwise fun l _ => isError l.2 = true :=
  List.pairwise_of_forall_mem_list fun l hl _ _ => h l hl

theorem Unlistening.counterKept (h : Unlistening backlog s) (hb : 0 < backlog) :
    CounterKept backlog s := by
  have hpos : 0 < backlog.toNat := hb
  have hneg : s.pendingConnections < 0 := by
    rw [h.pending]
    omega
  have hno : ¬ s.Listens := by
    rintro ⟨l, hl, hok⟩
    simp [h.failed l hl] at hok
  exact ⟨by simp [hneg, hno], fun _ => h.pending, fun hyes => (hno hyes).elim, h.given,
    failed_pairwise h.failed⟩

theorem Listening.counterKept (h : Listening backlog s) : CounterKept backlog s := by
  have hnonneg : ¬ s.pendingConnections < 0 := Int.not_lt.mpr h.pending
  obtain ⟨failed, l, heq, hok, hfailed⟩ := h.last
  have hyes : s.Listens := ⟨l, by simp [heq], hok⟩
  refine ⟨by simp [hnonneg, hyes], fun hneg => (hnonneg hneg).elim,
    fun _ => ⟨h.pending, h.unclaimed⟩, h.given, ?_⟩
  rw [heq]
  exact List.pairwise_append.mpr
    ⟨failed_pairwise hfailed, List.pairwise_singleton _ _, fun l hl _ _ => hfailed l hl⟩

/-! ### Steps -/

/-- What a step does to the counter, the number of claims, the calls of
`UvTcpListen` and the connections. -/
inductive Change (s s' : Counted A) : Prop
  | none : s'.pendingConnections = s.pendingConnections → s'.claims = s.claims →
      s'.connections = s.connections → s'.listening = s.listening → s'.listens = s.listens →
      Change s s'
  | claim : 0 < s.pendingConnections → s'.pendingConnections = s.pendingConnections - 1 →
      s'.claims = s.claims + 1 → s'.connections = s.connections → s'.listening = s.listening →
      s'.listens = s.listens → Change s s'
  | listen (err : Int) : s.pendingConnections < 0 → isError err = false →
      s'.pendingConnections = 0 → s'.claims = s.claims → s'.connections = s.connections →
      s'.listens = s.listens ++ [(-s.pendingConnections, err)] → Change s s'
  | listenFailed (err : Int) : s.pendingConnections < 0 → isError err = true →
      s'.pendingConnections = s.pendingConnections → s'.claims = s.claims →
      s'.connections = s.connections → s'.listening = s.listening →
      s'.listens = s.listens ++ [(-s.pendingConnections, err)] → Change s s'
  | pend : s.listening = true → s'.pendingConnections = s.pendingConnections + 1 →
      s'.claims = s.claims → s'.connections = s.connections + 1 → s'.listening = s.listening →
      s'.listens = s.listens → Change s s'
  | pop : s.listening = true → s'.pendingConnections = s.pendingConnections →
      s'.claims = s.claims + 1 → s'.connections = s.connections + 1 →
      s'.listening = s.listening → s'.listens = s.listens → Change s s'

theorem given_append {l : List (Int × Int)} {err : Int} (h : ∀ x ∈ l, x.1 = backlog.toNat)
    (hp : s.pendingConnections = -backlog.toNat) :
    ∀ x ∈ l ++ [(-s.pendingConnections, err)], x.1 = backlog.toNat := by
  intro x hx
  rcases List.mem_append.mp hx with hx | hx
  · exact h x hx
  · rw [List.mem_singleton.mp hx, hp, Int.neg_neg]

theorem unlistening_step (hi : Unlistening backlog s) (h : Change s s') :
    Unlistening backlog s' ∨ Listening backlog s' := by
  obtain ⟨hp, hl, hc, hg, hf⟩ := hi
  cases h with
  | none h1 h2 h3 h4 h5 =>
    exact Or.inl ⟨h1.trans hp, h4.trans hl, by rw [h2, h3, hc], by rwa [h5], by rwa [h5]⟩
  | claim hpos => omega
  | listen err hneg he h1 h2 h3 h4 =>
    refine Or.inr ⟨by omega, by omega, ?_, ?_⟩
    · rw [h4]
      exact given_append hg hp
    · exact ⟨s.listens, _, h4, he, hf⟩
  | listenFailed err hneg he h1 h2 h3 h4 h5 =>
    refine Or.inl ⟨h1.trans hp, h4.trans hl, by rw [h2, h3, hc], ?_, ?_⟩
    · rw [h5]
      exact given_append hg hp
    · rw [h5]
      intro l hl
      rcases List.mem_append.mp hl with hl | hl
      · exact hf l hl
      · rw [List.mem_singleton.mp hl, he]
  | pend hyes | pop hyes => simp [hl] at hyes

theorem listening_step (hi : Listening backlog s) (h : Change s s') : Listening backlog s' := by
  obtain ⟨hp, hu, hg, hlast⟩ := hi
  cases h with
  | none h1 h2 h3 h4 h5 => exact ⟨by rwa [h1], by rw [h1, h2, h3, hu], by rwa [h5], by rwa [h5]⟩
  | claim hpos h1 h2 h3 h4 h5 => exact ⟨by omega, by omega, by rwa [h5], by rwa [h5]⟩
  | listen err hneg | listenFailed err hneg => omega
  | pend _ h1 h2 h3 h4 h5 | pop _ h1 h2 h3 h4 h5 =>
    exact ⟨by omega, by omega, by rwa [h5], by rwa [h5]⟩

theorem hands_of_busy {s t : State A} (h : s.pc ≠ .idle) : hands s t = false := by
  cases hp : s.pc <;> simp_all [hands]

theorem hands_of_pc_eq {s t : State A} (h : t.pc = s.pc) : hands s t = false := by
  cases hp : s.pc <;> simp [hands, h, hp]

/-! ### Both constructions -/

/-- What the two paths leave, by whether they keep the meaning of the counter. -/
theorem constructed (c : Construction) (hb : 0 < backlog) :
    (c.settled = true ∧
      (Unlistening backlog { toState := c.listener (A := A) backlog } ∨
        Listening backlog { toState := c.listener (A := A) backlog })) ∨
    (c.settled = false ∧ ¬ CounterKept backlog { toState := c.listener (A := A) backlog }) := by
  have hpos : 0 < backlog.toNat := hb
  cases c with
  | throwing =>
    refine Or.inr ⟨rfl, fun hk => ?_⟩
    have hno := hk.negative.mp (by simp [Construction.listener, construct, startListening,
      constructUnbound, hpos])
    exact hno ⟨(backlog.toNat, 0), by simp [Construction.listener, construct, startListening,
      constructUnbound], rfl⟩
  | bindTo bindErr listenErr =>
    by_cases hbind : isError bindErr = true
    · refine Or.inl ⟨by simp [Construction.settled, hbind], Or.inl ?_⟩
      constructor <;> simp [Construction.listener, bind, hbind, constructUnbound]
    · by_cases hlisten : isError listenErr = true
      · refine Or.inr ⟨by simp [Construction.settled, hbind, hlisten], fun hk => ?_⟩
        have hneg := hk.negative.mpr (by simp [Listens, Construction.listener, bind, hbind,
          startListening, constructUnbound, hlisten])
        simp [Construction.listener, bind, hbind] at hneg
      · refine Or.inl ⟨by simp [Construction.settled, hlisten], Or.inr ?_⟩
        refine ⟨?_, ?_, ?_, [], (backlog.toNat, listenErr), ?_, ?_, ?_⟩ <;>
          simp [Construction.listener, bind, hbind, startListening, constructUnbound, hlisten]

/-! ### Runs -/

variable [DecidableEq A] {act : Action A}

theorem step_eq_some (h : step s act = some s') :
    TcpListener.step s.toState act = some s'.toState ∧
      s'.claims = if hands s.toState s'.toState then s.claims + 1 else s.claims := by
  obtain ⟨t, ht, rfl⟩ := Option.map_eq_some_iff.mp h
  exact ⟨ht, rfl⟩

theorem listening_of_connection {s t : State A} {status : Int}
    (h : TcpListener.step s (.connection status) = some t) : s.listening = true := by
  simp only [TcpListener.step] at h
  split at h
  · exact And.right ‹_›
  · cases h

theorem change_of_step (h : step s act = some s') : Change s s' := by
  obtain ⟨hstep, hclaims⟩ := step_eq_some h
  have hsame (hno : hands s.toState s'.toState = false) : s'.claims = s.claims := by
    simpa [hno] using hclaims
  have hone (hyes : hands s.toState s'.toState = true) : s'.claims = s.claims + 1 := by
    simpa [hyes] using hclaims
  obtain ⟨t, claims⟩ := s'
  cases TcpListener.step_cases hstep with
  | claim a err hc hf hp => exact .claim hp rfl (hone (by simp [hands, hc])) rfl rfl rfl
  | listen a err hc hf hp he =>
    exact .listen err hp he rfl (hsame (hands_of_pc_eq rfl)) rfl rfl
  | listenFailed a err hc hf hp he =>
    exact .listenFailed err hp he rfl (hsame (by simp [hands, hc])) rfl rfl rfl
  | pend status hc he hl =>
    exact .pend (listening_of_connection hstep) rfl (hsame (hands_of_pc_eq rfl)) rfl rfl rfl
  | pop status a rest hc he hl =>
    exact .pop (listening_of_connection hstep) rfl (hone (by simp [hands, hc])) rfl rfl rfl
  | add | connectionFailed | requestStop | callback =>
    exact .none rfl (hsame (hands_of_pc_eq rfl)) rfl rfl rfl
  | setup a hc | apply a hc => exact .none rfl (hsame (by simp [hands, hc])) rfl rfl rfl
  | acceptLost a hc | acceptWon a hc | acceptReset a op hc | uvAccept a err hc | errorLost a err hc
  | errorWon a err hc | errorReset a err op hc | setError a err hc | setupDone a hc
  | stopReset a op hc | setStopped a hc =>
    exact .none rfl (hsame (hands_of_busy (by simp [hc]))) rfl rfl rfl

theorem listening_exec {t : Counted A} (as : List (Action A)) (hi : Listening backlog s)
    (h : system.exec s as = some t) : Listening backlog t :=
  System.exec_invariant (I := Listening backlog)
    (fun _ _ _ hu hs => listening_step hu (change_of_step hs)) as hi h

theorem unlistening_exec {t : Counted A} (as : List (Action A)) (hi : Unlistening backlog s)
    (h : system.exec s as = some t) : Unlistening backlog t ∨ Listening backlog t := by
  refine System.exec_invariant (I := fun u => Unlistening backlog u ∨ Listening backlog u)
    (fun u _ u' hu hs => ?_) as (Or.inl hi) h
  rcases hu with hu | hu
  · exact unlistening_step hu (change_of_step hs)
  · exact Or.inr (listening_step hu (change_of_step hs))

/-- The counter keeps its two meanings in every run, and the backlog is given to
every `uv_listen` and to none after one has succeeded, exactly when the listener
comes from `bind_to` and its `Bind` failed before it listened, or listened. -/
theorem counter_kept (c : Construction) (hb : 0 < backlog) :
    (∀ (as : List (Action A)) (s : Counted A),
      system.exec { toState := c.listener backlog } as = some s → CounterKept backlog s) ↔
      c.settled = true := by
  constructor
  · intro h
    have hk := h [] _ rfl
    rcases constructed (A := A) c hb with ⟨hs, -⟩ | ⟨-, hno⟩
    · exact hs
    · exact (hno hk).elim
  · intro hs as s hexec
    rcases constructed (A := A) c hb with ⟨-, hu | hl⟩ | ⟨hno, -⟩
    · rcases unlistening_exec as hu hexec with hu | hl
      · exact hu.counterKept hb
      · exact hl.counterKept
    · exact (listening_exec as hl hexec).counterKept
    · simp [hs] at hno

/-- A listener of `bind_to` whose accept claims a connection. -/
theorem counter_kept_claimed : ∃ s : Counted (Fin 1),
    system.exec { toState := Construction.listener 4096 (.bindTo 0 0) }
      [.connection 0, .connection 0, .register 0 0] = some s ∧ s.pendingConnections = 1 ∧
      CounterKept 4096 s :=
  ⟨_, rfl, rfl, (counter_kept (A := Fin 1) (.bindTo 0 0) (by decide)).mpr rfl
    [.connection 0, .connection 0, .register 0 0] _ rfl⟩

/-- The public constructor leaves the backlog in the counter, and the first
accept makes the listener listen again. -/
theorem listened_twice : ∃ s : Counted (Fin 1),
    system.exec { toState := Construction.listener 4096 .throwing } [.register 0 0] = some s ∧
      s.listens = [(4096, 0), (4096, 0)] ∧
      ¬ CounterKept 4096 s ∧
      ¬ CounterKept (A := Fin 1) 4096 { toState := Construction.listener 4096 .throwing } := by
  refine ⟨_, rfl, rfl, fun hk => ?_, fun hk => ?_⟩
  · have hlast : List.Pairwise (fun (l : Int × Int) _ => isError l.2 = true) [(4096, 0), (4096, 0)] :=
      hk.last
    exact absurd hlast (by decide)
  · have hneg : ¬ (-4096 : Int) < 0 := fun h => hk.negative.mp h ⟨(4096, 0), List.mem_singleton.mpr rfl, rfl⟩
    exact hneg (by decide)

end Counted
end UvExec.TcpListener
