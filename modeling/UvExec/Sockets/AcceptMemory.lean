import UvExec.Sockets.AcceptCalls

/-! # What a step touches

The operations whose memory a step reads or writes. Whatever else stands in the
memory of another one, the step is the same and leaves it there. -/

namespace UvExec.TcpListener
open Lib

/-- What the code keeps in an accept besides its links and its registration with
the stop source. -/
structure Memory where
  used : Bool
  engaged : Bool
  queued : ℕ

def Memory.put (m : Memory) (op : TAcceptOpState) : TAcceptOpState :=
  { op with stopOp := { op.stopOp with used := m.used, engaged := m.engaged, queued := m.queued } }

variable {A : Type} [DecidableEq A]

def State.put (s : State A) (b : A) (m : Memory) : State A := s.setAccept b (m.put (s.accept b))

variable {s : State A} {a b : A} {m : Memory}

@[simp] theorem accept_put_ne (h : a ≠ b) : (s.put b m).accept a = s.accept a := by
  simp [State.put, h]

theorem loopStep_put (hb : s.pc.op ≠ some b) :
    loopStep (s.put b m) = (loopStep s).map (·.put b m) := by
  have hpc : (s.put b m).pc = s.pc := rfl
  cases hp : s.pc with
  | idle | uvAccept a => simp [loopStep, hpc, hp]
  | accept a | error a err | setError a err | setStopped a =>
    have hne : a ≠ b := fun h => hb (by simp [hp, Pc.op, h])
    simp [loopStep, State.put, hp, hne, hne.symm, Function.update_comm hne]
  | acceptReset a | errorReset a err | stopReset a =>
    have hne : a ≠ b := fun h => hb (by simp [hp, Pc.op, h])
    simp only [loopStep, hpc, hp, accept_put_ne hne]
    cases (s.accept a).stopOp.resetCallback <;>
      simp [State.put, hne.symm, Function.update_comm hne]
  | setupDone a =>
    have hne : a ≠ b := fun h => hb (by simp [hp, Pc.op, h])
    simp only [loopStep, hpc, hp, accept_put_ne hne]
    cases (s.accept a).stopOp.setupDone <;> simp [State.put, hne.symm, Function.update_comm hne]

theorem registerAccept_put {err : Int} :
    registerAccept (s.put b m) a err = (registerAccept s a err).put b m := by
  have hpend : (s.put b m).pendingConnections = s.pendingConnections := rfl
  simp only [registerAccept, startListening, hpend]
  split
  · rfl
  · split
    · split
      · split <;> rfl
      · rfl
    · rfl

theorem connectionCallback_put {status : Int} :
    connectionCallback (s.put b m) status = (connectionCallback s status).put b m := by
  have hlist : (s.put b m).acceptList = s.acceptList := rfl
  simp only [connectionCallback, hlist]
  split
  · rfl
  · split <;> rfl

theorem setAccept_put (h : a ≠ b) (op : TAcceptOpState) :
    (s.put b m).setAccept a op = (s.setAccept a op).put b m := by
  simp [State.put, h.symm, Function.update_comm h]

namespace LoopThread

/-- The operations that a step reads or writes. A stop request comes to the
operation over the callback that is registered with it. -/
def touched (s : LoopThread A) : Action A → List A
  | .register a _ => if 0 < s.pendingConnections then [a] else a :: s.links.head.toList
  | .setup a | .callback a => [a]
  | .connection status =>
    if isError status then []
    else
      match s.links.head with
      | none => []
      | some a => a :: s.links.linked a
  | .loop | .uvAccept _ => s.pc.op.toList
  | .apply a => a :: s.links.linked a
  | .requestStop a =>
    match (s.accept a).stopOp.token.callback with
    | .absent => []
    | .registered | .running _ _ | .executed => [a]

def put (s : LoopThread A) (b : A) (m : Memory) (n : TIntrusiveListNode A) : LoopThread A :=
  { s with toState := s.toState.put b m, links := s.links.put b n }

variable {s s' : LoopThread A} {act : Action A} {n : TIntrusiveListNode A}

theorem admits_put : (s.put b m n).admits act = s.admits act := by
  have hcomp (c : A) : ((s.put b m n).accept c).completions = (s.accept c).completions :=
    completions_update (by rfl) c
  cases act with
  | register a err =>
    have hcalls : (s.put b m n).calls = s.calls := rfl
    simp only [admits, hcalls, hcomp]
  | _ => rfl

theorem listener_step_put (hb : b ∉ s.touched act) :
    TcpListener.step (s.put b m n).toState act =
      (TcpListener.step s.toState act).map (·.put b m) := by
  have hpc : (s.toState.put b m).pc = s.pc := rfl
  cases act with
  | register a err =>
    have hne : a ≠ b := by
      rintro rfl
      simp only [touched] at hb
      split at hb <;> simp at hb
    simp only [put, TcpListener.step, hpc, accept_put_ne hne, setAccept_put hne, registerAccept_put]
    split <;> rfl
  | setup a =>
    have hne : a ≠ b := by
      rintro rfl
      simp [touched] at hb
    simp only [put, TcpListener.step, hpc, accept_put_ne hne]
    split
    · simp [State.put, hne.symm, Function.update_comm hne]
    · rfl
  | connection status =>
    have hlisten : (s.toState.put b m).listening = s.listening := rfl
    simp only [put, TcpListener.step, hpc, hlisten, connectionCallback_put]
    split <;> rfl
  | loop =>
    have hne : s.pc.op ≠ some b := fun h => hb (Option.mem_toList.mpr h)
    exact loopStep_put hne
  | uvAccept err =>
    simp only [put, TcpListener.step, hpc]
    split
    next a hp =>
      have hne : a ≠ b := by
        rintro rfl
        exact hb (Option.mem_toList.mpr (by rw [hp]; rfl))
      simp [State.put, hne, hne.symm, Function.update_comm hne]
    next => rfl
  | apply a =>
    have hne : a ≠ b := by
      rintro rfl
      simp [touched] at hb
    simp only [put, TcpListener.step, hpc, accept_put_ne hne]
    split
    · cases (s.accept a).stopOp.beginApply <;>
        simp [State.put, hne.symm, Function.update_comm hne]
    · rfl
  | requestStop a =>
    by_cases hab : a = b
    · subst hab
      simp [put, TcpListener.step, State.put, Memory.put, TStopOperation.requestStop]
    · simp [put, TcpListener.step, State.put, hab, Ne.symm hab, Function.update_comm hab]
  | callback a =>
    have hne : a ≠ b := by
      rintro rfl
      simp [touched] at hb
    simp only [put, TcpListener.step, accept_put_ne hne]
    cases (s.accept a).stopOp.callbackStep <;>
      simp [State.put, hne, hne.symm, Function.update_comm hne]

theorem pop_eq {status : Int} : s.pop status =
    if isError status then none else s.links.head.map fun a => (a, s.links.erase a) := by
  unfold pop TIntrusiveList.pop TIntrusiveList.empty
  cases isError status <;> cases s.links.head <;> rfl

theorem nextLinks_put (hb : b ∉ s.touched act) :
    (s.put b m n).nextLinks act = (s.nextLinks act).put b n := by
  have hlinks : (s.put b m n).links = s.links.put b n := rfl
  have hpend : (s.put b m n).pendingConnections = s.pendingConnections := rfl
  cases act with
  | register a err =>
    simp only [nextLinks, touched, hpend, hlinks] at hb ⊢
    split
    · rfl
    next hp =>
      simp only [hp, if_false, List.mem_cons, Option.mem_toList, not_or] at hb
      exact TIntrusiveList.add_put (Ne.symm hb.1) hb.2
  | connection status =>
    simp only [nextLinks, touched, pop_eq, hlinks, TIntrusiveList.head_put] at hb ⊢
    cases he : isError status with
    | true => rfl
    | false =>
      cases hh : s.links.head with
      | none => rfl
      | some a =>
        simp only [he, hh, Bool.false_eq_true, if_false, List.mem_cons, not_or] at hb
        exact TIntrusiveList.erase_put (Ne.symm hb.1) hb.2
  | apply a =>
    simp only [touched, List.mem_cons, not_or] at hb
    exact TIntrusiveList.erase_put (Ne.symm hb.1) hb.2
  | _ => rfl

theorem nextPopped_put : (s.put b m n).nextPopped act = s.nextPopped act := by
  cases act with
  | connection status =>
    have hhead : (s.put b m n).links.head = s.links.head := rfl
    simp only [nextPopped, pop_eq, hhead]
    cases isError status with
    | true => rfl
    | false => cases s.links.head <;> rfl
  | _ => rfl

/-- A step neither reads nor writes the memory of an operation that it does not
touch. -/
theorem step_put (hb : b ∉ s.touched act) :
    step (s.put b m n) act = (step s act).map (·.put b m n) := by
  simp only [step, admits_put, listener_step_put hb, nextLinks_put hb, nextPopped_put]
  split
  · cases TcpListener.step s.toState act <;> rfl
  · rfl

end LoopThread
end UvExec.TcpListener
