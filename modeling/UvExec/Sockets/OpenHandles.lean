import Mathlib.Data.Finset.Erase
import Mathlib.Data.Finset.Insert
import UvExec.Algorithms.EventErrors
import UvExec.Sockets.TcpListener

/-! # The open handles of a loop where a start fails

libuv keeps a handle in its loop from `uv_*_init` until the close callback. The
handles are the elements of `H`. -/

namespace UvExec.OpenHandles
open Lib
variable {H : Type} [DecidableEq H]

/-! ### Sockets (sockets/tcp.cpp, tcp_listener.hpp, udp.cpp) -/

/-- A constructor on the loop's handles. An exception leaves them as they are by
then, since no destructor of a member closes one. -/
abbrev Throwing (H : Type) := ExceptT Int (StateM (Finset H))

def uvInit (h : H) (err : Int) : Throwing H Int := do
  if !isError err then modify (insert h)
  return err

def assert (err : Int) : Throwing H Unit := if isError err then throw err else pure ()

def tcpSocket (h : H) (init : Int) : Throwing H Unit := do
  assert (← uvInit h init)

def tcpListener (A : Type) (h : H) (backlog : UInt16) (init bind listen : Int) :
    Throwing H (TcpListener.State A) := do
  tcpSocket h init
  assert bind
  let (s, err) := TcpListener.startListening (TcpListener.constructUnbound backlog) listen
  if err ≠ 0 then throw err
  return s

def udpSocket (h : H) (init bind : Int) : Throwing H Unit := do
  assert (← uvInit h init)
  assert bind

/-! ### Timers and signals -/

/-- An operation with the handles of its loop. -/
structure OnLoop (H : Type) extends EventOp.State where
  handles : Finset H

namespace OnLoop

/- `h` is the operation's own handle. -/
def nextHandles (h : H) (handles : Finset H) : EventOp.Action → Finset H
  | .init err => if isError err then handles else insert h handles
  | .closed => handles.erase h
  | .start _ _ | .loop | .fire | .apply | .requestStop | .callback => handles

def step (k : EventOp.OpState) (h : H) (s : OnLoop H) (a : EventOp.Action) : Option (OnLoop H) :=
  (EventOp.step k s.toState a).map fun t => { toState := t, handles := nextHandles h s.handles a }

def initial (k : EventOp.OpState) (handles : Finset H) : OnLoop H :=
  { toState := EventOp.initial k, handles := handles }

def system (k : EventOp.OpState) (h : H) : System (OnLoop H) EventOp.Action where
  initial s := ∃ handles, h ∉ handles ∧ s = initial k handles
  step := step k h

end OnLoop

/-! ### The report of an error -/

/-- What is started, with the results of its calls. -/
inductive Start where
  | event (k : EventOp.OpState) (init start : Int)
  | tcpListener (backlog : UInt16) (init bind listen : Int)
  | udpSocket (init bind : Int)
  deriving DecidableEq, Repr

def Start.init : Start → Int
  | .event _ init _ | .tcpListener _ init _ _ | .udpSocket init _ => init

def Start.fails : Start → Bool
  | .event _ init start => isError init || isError start
  | .tcpListener _ init bind listen => isError init || isError bind || isError listen
  | .udpSocket init bind => isError init || isError bind

/-- The handles that are open, on a loop of `handles`, where the error of the
start has been reported. -/
def Reported (h : H) (handles : Finset H) : Start → Finset H → Prop
  | .event k init start, left => ∃ as s,
    (OnLoop.system k h).exec (OnLoop.initial k handles) as = some s ∧
      (∀ e, .init e ∈ as → e = init) ∧ (∀ now e, .start now e ∈ as → e = start) ∧
      (∃ err, .error err ∈ s.completions) ∧ s.handles = left
  | .tcpListener backlog init bind listen, left =>
    ∃ err, (tcpListener Unit h backlog init bind listen).run handles = (.error err, left)
  | .udpSocket init bind, left => ∃ err, (udpSocket h init bind).run handles = (.error err, left)

/-! ### Constructors -/

variable {h : H} {handles left : Finset H} {init bind listen : Int}

theorem udpSocket_run : (udpSocket h init bind).run handles =
    if isError init then (.error init, handles)
    else (if isError bind then .error bind else .ok (), insert h handles) := by
  unfold udpSocket uvInit assert
  cases hi : isError init <;> cases isError bind <;> simp [hi] <;> rfl

/-- A listener whose constructor does not throw is one that listens. -/
theorem tcpListener_run {A : Type} {backlog : UInt16} :
    (tcpListener A h backlog init bind listen).run handles =
      if isError init then (.error init, handles)
      else (if isError bind then .error bind
        else if isError listen then .error listen
        else .ok (TcpListener.startListening (TcpListener.constructUnbound backlog) listen).1,
        insert h handles) := by
  unfold tcpListener tcpSocket uvInit assert TcpListener.startListening
  by_cases hl : isError listen = true
  · have hne : listen ≠ 0 := by
      rintro rfl
      simp [isError] at hl
    cases hi : isError init <;> cases isError bind <;> simp [hi, hl, hne] <;> rfl
  · cases hi : isError init <;> cases isError bind <;> simp [hi, hl] <;> rfl

/-! ### Operations -/

variable {k : EventOp.OpState} {start : Int}

namespace OnLoop

/-- The loop's handles stay what they are in a run in which `Init` fails. -/
theorem handles_exec {as : List EventOp.Action} {s : OnLoop H} (hn : h ∉ handles)
    (hexec : (system k h).exec (initial k handles) as = some s)
    (hinit : ∀ e, .init e ∈ as → isError e = true) : s.handles = handles := by
  have hrun := System.exec_labels
    (I := fun past t => (∀ e, .init e ∈ past → isError e = true) → t.handles = handles)
    (fun past t a t' ht hs hpast => ?_) as (fun _ => rfl) hexec
  · exact hrun hinit
  · obtain ⟨u, -, rfl⟩ := Option.map_eq_some_iff.mp hs
    have hold := ht (fun e hmem => hpast e (List.mem_append_left _ hmem))
    cases a with
    | init e => simp [nextHandles, hpast e (by simp), hold]
    | closed => simp [nextHandles, hold, hn]
    | start | loop | fire | apply | requestStop | callback => exact hold

theorem exec_uninitialised (hi : isError init = true) :
    ∃ s, (system k h).exec (initial k handles) [.init init, .loop] = some s ∧
      s.completions = [.error init] := by
  let r : EventOp.State := { EventOp.initial k with pc := .initError init }
  have h1 : (system k h).step (initial k handles) (.init init) =
      some { toState := r, handles := handles } := by
    simp [system, step, EventOp.step, initial, EventOp.initial, nextHandles, hi, r]
  refine ⟨{ toState := r.complete (.error init) .start, handles := handles }, ?_, rfl⟩
  rw [System.exec_cons _ h1]
  rfl

/-- The run in which the handle is initialised and not armed. -/
theorem exec_refused (hi : isError init = false) (hs : isError start = true) :
    ∃ s, (system k h).exec (initial k handles) [.init init, .start 0 start, .loop] = some s ∧
      s.completions = [.error start] ∧ s.handles = insert h handles := by
  let r : EventOp.State := { EventOp.initial k with handle := .inactive, pc := .start }
  let t : EventOp.State := { r with started := some (k.event.start 0), pc := .startError start }
  have h1 : (system k h).step (initial k handles) (.init init) =
      some { toState := r, handles := insert h handles } := by
    simp [system, step, EventOp.step, initial, EventOp.initial, nextHandles, hi, r]
  have h2 : (system k h).step { toState := r, handles := insert h handles } (.start 0 start) =
      some { toState := t, handles := insert h handles } := by
    simp [system, step, EventOp.step, nextHandles, hs, r, t]
  refine ⟨{ toState := t.complete (.error start) .idle, handles := insert h handles }, ?_, rfl, rfl⟩
  rw [System.exec_cons _ h1, System.exec_cons _ h2]
  rfl

end OnLoop

theorem reported_of_init {f : Start} {left : Finset H} (hn : h ∉ handles)
    (hi : isError f.init = true) (hr : Reported h handles f left) : left = handles := by
  cases f with
  | event k init start =>
    obtain ⟨as, s, hexec, hinit, -, -, rfl⟩ := hr
    exact OnLoop.handles_exec hn hexec (fun e hmem => by rw [hinit e hmem]; exact hi)
  | tcpListener backlog init bind listen =>
    obtain ⟨err, hrun⟩ := hr
    simp only [Start.init] at hi
    simp only [tcpListener_run, hi, if_true] at hrun
    exact (congrArg Prod.snd hrun).symm
  | udpSocket init bind =>
    obtain ⟨err, hrun⟩ := hr
    simp only [Start.init] at hi
    simp only [udpSocket_run, hi, if_true] at hrun
    exact (congrArg Prod.snd hrun).symm

theorem exists_reported_of_init {f : Start} (hi : isError f.init = true) :
    ∃ left, Reported h handles f left := by
  cases f with
  | event k init start =>
    simp only [Start.init] at hi
    obtain ⟨s, hexec, hcomp⟩ : ∃ s : OnLoop H, (OnLoop.system k h).exec (OnLoop.initial k handles)
        [.init init, .loop] = some s ∧ s.completions = [.error init] := OnLoop.exec_uninitialised hi
    exact ⟨_, _, s, hexec, by simp, by simp, ⟨init, by simp [hcomp]⟩, rfl⟩
  | tcpListener backlog init bind listen =>
    simp only [Start.init] at hi
    exact ⟨handles, init, by simp [tcpListener_run, hi]⟩
  | udpSocket init bind =>
    simp only [Start.init] at hi
    exact ⟨handles, init, by simp [udpSocket_run, hi]⟩

theorem reported_of_later {f : Start} (hf : f.fails = true) (hi : isError f.init = false) :
    Reported h handles f (insert h handles) := by
  cases f with
  | event k init start =>
    simp only [Start.init] at hi
    simp only [Start.fails, hi, Bool.false_or] at hf
    obtain ⟨s, hexec, hcomp, hleft⟩ : ∃ s : OnLoop H,
        (OnLoop.system k h).exec (OnLoop.initial k handles)
          [.init init, .start 0 start, .loop] = some s ∧ s.completions = [.error start] ∧
          s.handles = insert h handles := OnLoop.exec_refused hi hf
    exact ⟨_, s, hexec, by simp, by simp, ⟨start, by simp [hcomp]⟩, hleft⟩
  | tcpListener backlog init bind listen =>
    simp only [Start.init] at hi
    simp only [Start.fails, hi, Bool.false_or] at hf
    cases hb : isError bind with
    | true => exact ⟨bind, by simp [tcpListener_run, hi, hb]⟩
    | false =>
      simp only [hb, Bool.false_or] at hf
      exact ⟨listen, by simp [tcpListener_run, hi, hb, hf]⟩
  | udpSocket init bind =>
    simp only [Start.init] at hi
    simp only [Start.fails, hi, Bool.false_or] at hf
    exact ⟨bind, by simp [udpSocket_run, hi, hf]⟩

/-- A start that fails leaves the handles of its loop as they were exactly when
the call that fails is `uv_*_init`: no other error exit closes the handle. -/
theorem handles_restored (f : Start) (hf : f.fails = true) (handles : Finset H) (h : H)
    (hn : h ∉ handles) :
    (∃ left, Reported h handles f left) ∧
      ((∀ left, Reported h handles f left → left = handles) ↔ isError f.init = true) := by
  cases hi : isError f.init with
  | true =>
    exact ⟨exists_reported_of_init hi, iff_of_true (fun left hr => reported_of_init hn hi hr) rfl⟩
  | false =>
    have hr : Reported h handles f (insert h handles) := reported_of_later hf hi
    refine ⟨⟨_, hr⟩, iff_of_false (fun hall => hn ?_) Bool.false_ne_true⟩
    rw [← hall _ hr]
    exact Finset.mem_insert_self h handles

/-- A datagram socket whose `uv_udp_init` fails. -/
theorem handles_restored_unbound :
    (∃ left : Finset ℕ, Reported 7 {3} (.udpSocket (-24) 0) left) ∧
      ∀ left : Finset ℕ, Reported 7 {3} (.udpSocket (-24) 0) left → left = {3} := by
  obtain ⟨hleft, hkept⟩ := handles_restored (.udpSocket (-24) 0) rfl ({3} : Finset ℕ) 7 (by decide)
  exact ⟨hleft, hkept.mpr rfl⟩

/-- A signal number that `SignalOnce` refuses: the handle 7 stays in the loop. -/
theorem signal_left_open :
    Reported 7 {3} (.event (EventOp.uponSignalScheduleOpState 0) 0 (-22)) ({7, 3} : Finset ℕ) ∧
      ({7, 3} : Finset ℕ) ≠ {3} := by
  refine ⟨⟨[.init 0, .start 0 (-22), .loop], _, rfl, ?_, ?_, ⟨-22, ?_⟩, rfl⟩, by decide⟩
  · simp
  · simp
  · exact List.mem_singleton.mpr rfl

end UvExec.OpenHandles
