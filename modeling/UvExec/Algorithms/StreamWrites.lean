import UvExec.Algorithms.RequestReceivers
import Mathlib.Data.List.Nodup
import Mathlib.Logic.Function.Basic

/-! # The bytes that are written to a stream (algorithms/write_receiver.hpp)

Any number of write operations on one socket. libuv is taken to send the bytes of
the first request in its write queue, to move it to the queue of the completed ones
when all of them are sent or the write fails, and to call back for those in order,
at any later time. The buffers stay as they are until then. -/

namespace UvExec.StreamWrites
open Lib

abbrev Bytes := RequestOp.Bytes

/-- A request that has left the write queue, with those of its bytes that are sent. -/
structure Landed (A : Type) where
  op : A
  status : Int
  bytes : Bytes
  deriving DecidableEq, Repr

/- `queue` is libuv's write queue, with the bytes of each request, of the first of
which `sent` are on the wire, and `completed` the queue of those that wait for their
callbacks. `issued` and `landed` are history: the order of the calls of `uv_write`
that succeeded, and of the callbacks. -/
structure State (A : Type) where
  ops : A → RequestOp.State Unit := fun _ => {}
  queue : List (A × Bytes) := []
  sent : ℕ := 0
  completed : List (Landed A) := []
  wire : Bytes := []
  issued : List A := []
  landed : List (Landed A) := []

inductive Action (A : Type) where
  | run (a : A)
  | start (a : A) (err : Int)
  | send (n : ℕ)
  | finish (status : Int)
  | callback
  deriving DecidableEq, Repr

/-- The requests that have left the write queue, called back for or not. -/
def State.finished {A : Type} (s : State A) : List (Landed A) := s.landed ++ s.completed

/-- libuv looks at `nbufs` buffers. -/
def requested : RequestOp.Call Unit → Bytes
  | .write bufs nbufs => (bufs.take nbufs.toNat).flatten
  | .udpSend _ _ _ | .tcpConnect _ | .udpConnect _ | .shutdown => []

section
variable {A : Type} [DecidableEq A]

abbrev State.setOp (s : State A) (a : A) (t : RequestOp.State Unit) : State A :=
  { s with ops := Function.update s.ops a t }

/-- The operation's thread in `set_value`, before and after the call. -/
def start (s : State A) (a : A) (err : Int) (call : RequestOp.Call Unit) (t : RequestOp.State Unit) :
    State A :=
  if isError err then s.setOp a t
  else
    { s.setOp a t with
      queue := s.queue ++ [(a, requested call)]
      issued := s.issued ++ [a] }

def step (data : A → RequestOp.Data) (s : State A) : Action A → Option (State A)
  | .run a => (RequestOp.step (.write (data a)) (s.ops a) .run).map (s.setOp a)
  | .start a err =>
    match (s.ops a).pc with
    | .start call =>
      (RequestOp.step (.write (data a)) (s.ops a) (.start err)).map (start s a err call)
    | .setValue | .forward _ | .complete _ | .idle => none
  | .send n =>
    match s.queue with
    | (_, bytes) :: _ =>
      if s.sent + n ≤ bytes.length then
        some { s with sent := s.sent + n, wire := s.wire ++ (bytes.drop s.sent).take n }
      else none
    | [] => none
  | .finish status =>
    match s.queue with
    | (a, bytes) :: rest =>
      -- a request succeeds when all of it has been sent
      if isError status = true ∨ s.sent = bytes.length then
        some
          { s with
            queue := rest
            sent := 0
            completed := s.completed ++ [⟨a, status, bytes.take s.sent⟩] }
      else none
    | [] => none
  | .callback =>
    match s.completed with
    | l :: rest =>
      (RequestOp.step (.write (data l.op)) (s.ops l.op) (.callback l.status)).map fun t =>
        { s.setOp l.op t with completed := rest, landed := s.landed ++ [l] }
    | [] => none

def system (data : A → RequestOp.Data) : System (State A) (Action A) where
  initial s := s = {}
  step := step data

/-! ### What the operations ask for -/

def Data.contents : RequestOp.Data → Bytes
  | .buffs buffs => buffs.flatten
  | .bytes buff => buff

def Data.count : RequestOp.Data → ℕ
  | .buffs buffs => buffs.length
  | .bytes _ => 1

def Data.buffers : RequestOp.Data → List Bytes
  | .buffs buffs => buffs
  | .bytes buff => [buff]

/-- The call of `uv_write` that an operation comes to. -/
def Data.call (d : RequestOp.Data) : RequestOp.Call Unit :=
  (RequestOp.Operation.write d).issue (Data.buffers d)

def Data.payload (d : RequestOp.Data) : Bytes := requested (Data.call d)

/-- The number of buffers is cast to `unsigned`. -/
theorem payload_eq {d : RequestOp.Data} (h : Data.count d < UInt32.size) : Data.payload d = Data.contents d := by
  cases d with
  | bytes buff => simp [Data.payload, Data.call, Data.buffers, RequestOp.Operation.issue, requested, Data.contents]
  | buffs buffs =>
    have hlt : buffs.length < UInt32.size := h
    have hcast : (UInt32.ofNat buffs.length).toNat = buffs.length := by
      rw [UInt32.toNat_ofNat']
      exact Nat.mod_eq_of_lt hlt
    simp [Data.payload, Data.call, Data.buffers, RequestOp.Operation.issue, requested, Data.contents, hcast]

/-- In `set_value`, before the call. -/
def Calling (d : RequestOp.Data) (pc : RequestOp.Pc Unit) : Prop :=
  pc = .setValue ∨ (∃ buff, pc = .forward buff ∧ d = .bytes buff) ∨ pc = .start (Data.call d)

theorem run_cases {d : RequestOp.Data} {t t' : RequestOp.State Unit}
    (h : RequestOp.step (.write d) t .run = some t') :
    (Calling d t.pc → ∃ pc, Calling d pc ∧ t' = { t with pc := pc }) ∧
    (∀ c, t.pc = .complete c → t' = { t with completions := t.completions ++ [c], pc := .idle }) ∧
    t.pc ≠ .idle := by
  cases hp : t.pc with
  | setValue =>
    simp only [RequestOp.step, RequestOp.runStep, hp] at h
    refine ⟨fun _ => ?_, by simp, by simp⟩
    cases d with
    | buffs buffs =>
      cases h
      exact ⟨_, Or.inr (Or.inr rfl), rfl⟩
    | bytes buff =>
      cases h
      exact ⟨_, Or.inr (Or.inl ⟨buff, rfl, rfl⟩), rfl⟩
  | forward buff =>
    simp only [RequestOp.step, RequestOp.runStep, hp, Option.some.injEq] at h
    refine ⟨fun hcalling => ?_, by simp, by simp⟩
    have hd : d = .bytes buff := by
      rcases hcalling with hset | ⟨b, hb, hd⟩ | hst
      · cases hset
      · cases hb
        exact hd
      · cases hst
    rw [← h, hd]
    exact ⟨_, Or.inr (Or.inr rfl), rfl⟩
  | complete c =>
    simp only [RequestOp.step, RequestOp.runStep, hp, Option.some.injEq] at h
    refine ⟨fun hcalling => ?_, ?_, by simp⟩
    · simp [Calling] at hcalling
    · intro c' hc
      cases hc
      exact h.symm
  | start call | idle => simp [RequestOp.step, RequestOp.runStep, hp] at h

/-! ### The invariant -/

/-- Where an operation is, and what the socket knows of it. -/
inductive Course (data : A → RequestOp.Data) (s : State A) (a : A) : Prop
  | calling : Calling (data a) (s.ops a).pc → (s.ops a).inFlight = 0 → (s.ops a).completions = [] →
      a ∉ s.issued → Course data s a
  | refused (err : Int) : isError err = true → (s.ops a).inFlight = 0 → a ∉ s.issued →
      (s.ops a).pc = .complete (.error err) ∧ (s.ops a).completions = [] ∨
        (s.ops a).pc = .idle ∧ (s.ops a).completions = [.error err] → Course data s a
  | queued : (a, Data.payload (data a)) ∈ s.queue → (s.ops a).pc = .idle → (s.ops a).inFlight = 1 →
      (s.ops a).completions = [] → Course data s a
  | completed (l : Landed A) : l ∈ s.completed → l.op = a → (s.ops a).pc = .idle →
      (s.ops a).inFlight = 1 → (s.ops a).completions = [] → Course data s a
  | landed (l : Landed A) : l ∈ s.landed → l.op = a → (s.ops a).inFlight = 0 →
      (s.ops a).pc = .complete (RequestOp.outcome l.status) ∧ (s.ops a).completions = [] ∨
        (s.ops a).pc = .idle ∧ (s.ops a).completions = [RequestOp.outcome l.status] → Course data s a

/-- The bytes of the first request that are on the wire. -/
def begun (s : State A) : Bytes :=
  match s.queue with
  | [] => []
  | (_, bytes) :: _ => bytes.take s.sent

structure WireInv (data : A → RequestOp.Data) (s : State A) : Prop where
  wire : s.wire = (s.finished.map Landed.bytes).flatten ++ begun s
  sent : ∀ a bytes rest, s.queue = (a, bytes) :: rest → s.sent ≤ bytes.length
  fresh : s.queue = [] → s.sent = 0
  order : s.finished.map Landed.op ++ s.queue.map Prod.fst = s.issued
  once : s.issued.Nodup
  payload : ∀ e ∈ s.queue, e.2 = Data.payload (data e.1)
  started : ∀ l ∈ s.finished, l.bytes <+: Data.payload (data l.op)
  whole : ∀ l ∈ s.finished, isError l.status = false → l.bytes = Data.payload (data l.op)
  course : ∀ a, Course data s a

variable {data : A → RequestOp.Data} {s s' : State A} {a b : A}

omit [DecidableEq A] in
/-- A step of one operation leaves the others where they are. -/
theorem Course.other (h : Course data s b) (hops : s'.ops b = s.ops b)
    (hissued : b ∈ s'.issued → b ∈ s.issued) (hqueue : ∀ e ∈ s.queue, e.1 = b → e ∈ s'.queue)
    (hcompleted : ∀ l ∈ s.completed, l.op = b → l ∈ s'.completed)
    (hlanded : ∀ l ∈ s.landed, l ∈ s'.landed) : Course data s' b := by
  cases h with
  | calling hc hin hcomp hnot =>
    rw [← hops] at hc hin hcomp
    exact .calling hc hin hcomp (mt hissued hnot)
  | refused err he hin hnot hor =>
    rw [← hops] at hin hor
    exact .refused err he hin (mt hissued hnot) hor
  | queued hmem hp hin hcomp =>
    rw [← hops] at hp hin hcomp
    exact .queued (hqueue _ hmem rfl) hp hin hcomp
  | completed l hl hop hp hin hcomp =>
    rw [← hops] at hp hin hcomp
    exact .completed l (hcompleted l hl hop) hop hp hin hcomp
  | landed l hl hop hin hor =>
    rw [← hops] at hin hor
    exact .landed l (hlanded l hl) hop hin hor

theorem setOp_self (t : RequestOp.State Unit) : (s.setOp a t).ops a = t := Function.update_self a t s.ops

theorem setOp_ne (t : RequestOp.State Unit) (h : b ≠ a) : (s.setOp a t).ops b = s.ops b :=
  Function.update_of_ne h t s.ops

/-- The operation has a completion to make, or has made it. -/
theorem ended_run {t t' : RequestOp.State Unit} {c : Completion Unit} {d : RequestOp.Data}
    (hor : t.pc = .complete c ∧ t.completions = [] ∨ t.pc = .idle ∧ t.completions = [c])
    (h : RequestOp.step (.write d) t .run = some t') :
    t'.inFlight = t.inFlight ∧ t'.pc = .idle ∧ t'.completions = [c] := by
  obtain ⟨-, hcomplete, hidle⟩ := run_cases h
  rcases hor with ⟨hp, hcomp⟩ | ⟨hp, -⟩
  · rw [hcomplete c hp]
    exact ⟨rfl, rfl, by simp [hcomp]⟩
  · exact (hidle hp).elim

theorem Course.run {t : RequestOp.State Unit} (hi : Course data s a)
    (h : RequestOp.step (.write (data a)) (s.ops a) .run = some t) : Course data (s.setOp a t) a := by
  cases hi with
  | calling hc hin hcomp hnot =>
    obtain ⟨pc, hpc, rfl⟩ := (run_cases h).1 hc
    exact .calling (by rwa [setOp_self]) (by rwa [setOp_self]) (by rwa [setOp_self]) hnot
  | refused err he hin hnot hor =>
    obtain ⟨hfl, hended⟩ := ended_run hor h
    refine .refused err he ?_ hnot ?_
    · rw [setOp_self]
      exact hfl.trans hin
    · rw [setOp_self]
      exact Or.inr hended
  | queued hmem hp hin hcomp => exact ((run_cases h).2.2 hp).elim
  | completed l hl hop hp hin hcomp => exact ((run_cases h).2.2 hp).elim
  | landed l hl hop hin hor =>
    obtain ⟨hfl, hended⟩ := ended_run hor h
    refine .landed l hl hop ?_ ?_
    · rw [setOp_self]
      exact hfl.trans hin
    · rw [setOp_self]
      exact Or.inr hended

theorem wireInv_run {t : RequestOp.State Unit} (hi : WireInv data s)
    (h : RequestOp.step (.write (data a)) (s.ops a) .run = some t) : WireInv data (s.setOp a t) := by
  refine ⟨hi.wire, hi.sent, hi.fresh, hi.order, hi.once, hi.payload, hi.started, hi.whole, ?_⟩
  intro b
  by_cases hb : b = a
  · rw [hb]
    exact (hi.course a).run h
  · exact (hi.course b).other (setOp_ne t hb) id (fun _ he _ => he) (fun _ hl _ => hl) fun _ hl => hl

omit [DecidableEq A] in
/-- Only an operation in `set_value` comes to the call. -/
theorem Course.calling_of_start {call : RequestOp.Call Unit} (h : Course data s a)
    (hp : (s.ops a).pc = .start call) :
    call = Data.call (data a) ∧ (s.ops a).inFlight = 0 ∧ (s.ops a).completions = [] ∧ a ∉ s.issued := by
  cases h with
  | calling hc hin hcomp hnot =>
    refine ⟨?_, hin, hcomp, hnot⟩
    simpa [Calling, hp] using hc
  | refused err he hin hnot hor => simp [hp] at hor
  | queued hmem hidle hin hcomp => simp [hp] at hidle
  | completed l hl hop hidle hin hcomp => simp [hp] at hidle
  | landed l hl hop hin hor => simp [hp] at hor

theorem wireInv_start {err : Int} {call : RequestOp.Call Unit} {t : RequestOp.State Unit}
    (hi : WireInv data s) (hp : (s.ops a).pc = .start call)
    (h : RequestOp.step (.write (data a)) (s.ops a) (.start err) = some t) :
    WireInv data (start s a err call t) := by
  obtain ⟨hcall, hin, hcomp, hnot⟩ := (hi.course a).calling_of_start hp
  have hasync : call.synchronous = false := by
    rw [hcall]
    rfl
  simp only [RequestOp.step, hp, hasync, Bool.or_false, Option.some.injEq] at h
  unfold start
  by_cases he : isError err = true
  · rw [if_pos he] at h
    rw [if_pos he, ← h]
    refine ⟨hi.wire, hi.sent, hi.fresh, hi.order, hi.once, hi.payload, hi.started, hi.whole, ?_⟩
    intro b
    by_cases hb : b = a
    · rw [hb]
      refine .refused err he ?_ hnot (Or.inl ?_)
      · rw [setOp_self]
        exact hin
      · rw [setOp_self]
        exact ⟨by simp [RequestOp.outcome, he], hcomp⟩
    · exact (hi.course b).other (setOp_ne _ hb) id (fun _ he _ => he) (fun _ hl _ => hl) fun _ hl => hl
  · rw [if_neg he] at h
    rw [if_neg he, ← h]
    refine ⟨?_, ?_, ?_, ?_, ?_, ?_, hi.started, hi.whole, ?_⟩
    · have hwire := hi.wire
      cases hq : s.queue with
      | nil => simpa [State.finished, begun, hq, hi.fresh hq] using hwire
      | cons e rest => simpa [State.finished, begun, hq] using hwire
    · intro a' bytes rest hq
      cases hq' : s.queue with
      | nil =>
        rw [hi.fresh hq']
        exact Nat.zero_le _
      | cons e rest' =>
        have he' : e = (a', bytes) := by
          simp only [hq', List.cons_append, List.cons.injEq] at hq
          exact hq.1
        exact hi.sent a' bytes rest' (by rw [hq', he'])
    · simp
    · have horder := hi.order
      show s.finished.map Landed.op ++ (s.queue ++ [(a, requested call)]).map Prod.fst = s.issued ++ [a]
      rw [List.map_append, ← List.append_assoc, horder]
      rfl
    · exact List.nodup_append.mpr ⟨hi.once, List.nodup_singleton a, by
        intro x hx y hy
        rw [List.mem_singleton.mp hy]
        exact fun heq => hnot (heq ▸ hx)⟩
    · intro e hmem
      rcases List.mem_append.mp hmem with hold | hnew
      · exact hi.payload e hold
      · rw [List.mem_singleton.mp hnew]
        simp [Data.payload, hcall]
    · intro b
      by_cases hb : b = a
      · rw [hb]
        refine .queued ?_ ?_ ?_ ?_
        · simp [Data.payload, hcall]
        · rw [setOp_self]
        · rw [setOp_self]
          simp [hin]
        · rw [setOp_self]
          exact hcomp
      · refine (hi.course b).other (setOp_ne _ hb) ?_ (fun _ he _ => List.mem_append_left _ he)
          (fun _ hl _ => hl) fun _ hl => hl
        intro hmem
        simpa [hb] using hmem

omit [DecidableEq A] in
theorem wireInv_send {n : ℕ} {bytes : Bytes} {rest : List (A × Bytes)} (hi : WireInv data s)
    (hq : s.queue = (a, bytes) :: rest) (hle : s.sent + n ≤ bytes.length) : WireInv data
      { s with sent := s.sent + n, wire := s.wire ++ (bytes.drop s.sent).take n } := by
  refine ⟨?_, ?_, by simp [hq], hi.order, hi.once, hi.payload, hi.started, hi.whole, ?_⟩
  · have hwire := hi.wire
    simp only [State.finished, begun, hq] at hwire ⊢
    rw [hwire, List.append_assoc, ← List.take_add]
  · intro a' bytes' rest' hq'
    rw [hq] at hq'
    cases hq'
    exact hle
  · intro b
    exact (hi.course b).other rfl id (fun _ he _ => he) (fun _ hl _ => hl) fun _ hl => hl

omit [DecidableEq A] in
/-- No request is in two of the queues, or called back for and in one. -/
theorem WireInv.apart (hi : WireInv data s) :
    (s.finished.map Landed.op).Nodup ∧ ∀ l ∈ s.finished, ∀ e ∈ s.queue, l.op ≠ e.1 := by
  have hnodup := hi.once
  rw [← hi.order, List.nodup_append] at hnodup
  obtain ⟨hfinished, -, hdisjoint⟩ := hnodup
  refine ⟨hfinished, fun l hl e he => ?_⟩
  exact hdisjoint l.op (List.mem_map_of_mem hl) e.1 (List.mem_map_of_mem he)

omit [DecidableEq A] in
theorem WireInv.mem_issued_of_finished {l : Landed A} (hi : WireInv data s) (hl : l ∈ s.finished) :
    l.op ∈ s.issued := by
  rw [← hi.order]
  exact List.mem_append_left _ (List.mem_map_of_mem hl)

omit [DecidableEq A] in
theorem WireInv.mem_issued_of_queued {e : A × Bytes} (hi : WireInv data s) (he : e ∈ s.queue) :
    e.1 ∈ s.issued := by
  rw [← hi.order]
  exact List.mem_append_right _ (List.mem_map_of_mem he)

omit [DecidableEq A] in
/-- The operation of a request in the write queue waits for it. -/
theorem WireInv.waiting_queued {e : A × Bytes} (hi : WireInv data s) (he : e ∈ s.queue) :
    (s.ops e.1).pc = .idle ∧ (s.ops e.1).inFlight = 1 ∧ (s.ops e.1).completions = [] := by
  obtain ⟨-, hapart⟩ := hi.apart
  have hissued := hi.mem_issued_of_queued he
  cases hi.course e.1 with
  | calling hc hin hcomp hfree => exact (hfree hissued).elim
  | refused err herr hin hfree hor => exact (hfree hissued).elim
  | queued hmem hp hin hcomp => exact ⟨hp, hin, hcomp⟩
  | completed l hl hop hp hin hcomp => exact ⟨hp, hin, hcomp⟩
  | landed l hl hop hin hor => exact (hapart l (List.mem_append_left _ hl) e he hop).elim

omit [DecidableEq A] in
/-- The operation of a request that is yet to be called back for waits for it. -/
theorem WireInv.waiting_completed {l : Landed A} (hi : WireInv data s) (hl : l ∈ s.completed) :
    (s.ops l.op).pc = .idle ∧ (s.ops l.op).inFlight = 1 ∧ (s.ops l.op).completions = [] := by
  obtain ⟨hnodup, hapart⟩ := hi.apart
  have hfinished : l ∈ s.finished := List.mem_append_right _ hl
  have hissued := hi.mem_issued_of_finished hfinished
  cases hi.course l.op with
  | calling hc hin hcomp hfree => exact (hfree hissued).elim
  | refused err herr hin hfree hor => exact (hfree hissued).elim
  | queued hmem hp hin hcomp => exact (hapart l hfinished _ hmem rfl).elim
  | completed l' hl' hop hp hin hcomp => exact ⟨hp, hin, hcomp⟩
  | landed l' hl' hop hin hor =>
    rw [State.finished, List.map_append, List.nodup_append] at hnodup
    exact (hnodup.2.2 l'.op (List.mem_map_of_mem hl') l.op (List.mem_map_of_mem hl) hop).elim

omit [DecidableEq A] in
theorem wireInv_finish {status : Int} {bytes : Bytes} {rest : List (A × Bytes)}
    (hi : WireInv data s) (hq : s.queue = (a, bytes) :: rest)
    (hok : isError status = true ∨ s.sent = bytes.length) : WireInv data
      { s with
        queue := rest
        sent := 0
        completed := s.completed ++ [⟨a, status, bytes.take s.sent⟩] } := by
  have hwaiting := hi.waiting_queued (e := (a, bytes)) (by simp [hq])
  have hpayload : bytes = Data.payload (data a) := hi.payload (a, bytes) (by simp [hq])
  have hnew : ∀ l ∈ s.landed ++ (s.completed ++ [⟨a, status, bytes.take s.sent⟩]),
      l ∈ s.finished ∨ l = ⟨a, status, bytes.take s.sent⟩ := by
    intro l hl
    rw [← List.append_assoc] at hl
    exact (List.mem_append.mp hl).imp_right List.mem_singleton.mp
  refine ⟨?_, fun _ _ _ _ => Nat.zero_le _, fun _ => rfl, ?_, hi.once, ?_, ?_, ?_, ?_⟩
  · have hwire := hi.wire
    simp only [begun, hq] at hwire
    have hnil : begun { s with
        queue := rest
        sent := 0
        completed := s.completed ++ [⟨a, status, bytes.take s.sent⟩] } = [] := by
      unfold begun
      split <;> simp
    rw [hnil]
    simpa [State.finished] using hwire
  · have horder := hi.order
    simpa [State.finished, hq] using horder
  · intro e he
    exact hi.payload e (by simp [hq, he])
  · intro l hl
    rcases hnew l hl with hold | rfl
    · exact hi.started l hold
    · rw [← hpayload]
      exact List.take_prefix _ _
  · intro l hl hl0
    rcases hnew l hl with hold | rfl
    · exact hi.whole l hold hl0
    · have hall : s.sent = bytes.length := by
        rcases hok with herr | hall
        · simp [hl0] at herr
        · exact hall
      rw [← hpayload, hall, List.take_length]
  · intro b
    by_cases hb : b = a
    · rw [hb]
      exact .completed ⟨a, status, bytes.take s.sent⟩ (by simp) rfl hwaiting.1 hwaiting.2.1 hwaiting.2.2
    · refine (hi.course b).other rfl id ?_ (fun _ hl _ => List.mem_append_left _ hl) fun _ hl => hl
      intro e he heq
      rw [hq] at he
      rcases List.mem_cons.mp he with rfl | hrest
      · exact (hb heq.symm).elim
      · exact hrest

theorem wireInv_callback {l : Landed A} {rest : List (Landed A)} {t : RequestOp.State Unit}
    (hi : WireInv data s) (hl : s.completed = l :: rest)
    (h : RequestOp.step (.write (data l.op)) (s.ops l.op) (.callback l.status) = some t) :
    WireInv data { s.setOp l.op t with completed := rest, landed := s.landed ++ [l] } := by
  have hmem : l ∈ s.completed := by simp [hl]
  obtain ⟨hp, hin, hcomp⟩ := hi.waiting_completed hmem
  simp only [RequestOp.step, hp, hin, Nat.lt_one_iff, if_true, Option.some.injEq] at h
  -- the request only goes from the one list to the other
  have hfinished : s.landed ++ [l] ++ rest = s.finished := by
    simp [State.finished, hl]
  refine ⟨?_, hi.sent, hi.fresh, ?_, hi.once, hi.payload, ?_, ?_, ?_⟩
  · simp only [State.finished, hfinished]
    exact hi.wire
  · simp only [State.finished, hfinished]
    exact hi.order
  · simp only [State.finished, hfinished]
    exact hi.started
  · simp only [State.finished, hfinished]
    exact hi.whole
  · intro b
    by_cases hb : b = l.op
    · rw [hb]
      refine .landed l (by simp) rfl ?_ (Or.inl ?_)
      · rw [← h]
        simp
      · rw [← h]
        simp [hcomp]
    · refine (hi.course b).other (setOp_ne t hb) id (fun _ he _ => he) ?_ fun _ hl => List.mem_append_left _ hl
      intro l' hl' hop
      rw [hl] at hl'
      rcases List.mem_cons.mp hl' with rfl | hrest
      · exact (hb hop.symm).elim
      · exact hrest

theorem wireInv_step {act : Action A} (hi : WireInv data s) (h : step data s act = some s') :
    WireInv data s' := by
  cases act with
  | run a =>
    obtain ⟨t, ht, rfl⟩ := Option.map_eq_some_iff.mp h
    exact wireInv_run hi ht
  | start a err =>
    simp only [step] at h
    cases hp : (s.ops a).pc with
    | start call =>
      simp only [hp] at h
      obtain ⟨t, ht, rfl⟩ := Option.map_eq_some_iff.mp h
      exact wireInv_start hi hp ht
    | setValue | forward | complete | idle => simp [hp] at h
  | send n =>
    simp only [step] at h
    cases hq : s.queue with
    | nil => simp [hq] at h
    | cons e rest =>
      simp only [hq, Option.ite_none_right_eq_some, Option.some.injEq] at h
      obtain ⟨hle, rfl⟩ := h
      have hinv := wireInv_send hi hq hle
      rw [hq] at hinv
      exact hinv
  | finish status =>
    simp only [step] at h
    cases hq : s.queue with
    | nil => simp [hq] at h
    | cons e rest =>
      simp only [hq, Option.ite_none_right_eq_some, Option.some.injEq] at h
      obtain ⟨hok, rfl⟩ := h
      exact wireInv_finish hi hq hok
  | callback =>
    simp only [step] at h
    cases hl : s.completed with
    | nil => simp [hl] at h
    | cons l rest =>
      simp only [hl] at h
      obtain ⟨t, ht, rfl⟩ := Option.map_eq_some_iff.mp h
      exact wireInv_callback hi hl ht

theorem reachable_wireInv (h : (system data).Reachable s) : WireInv data s := by
  refine System.Reachable.invariant (I := WireInv data) ?_ (fun _ _ _ hi hs => wireInv_step hi hs) h
  intro t ht
  rw [ht]
  refine ⟨rfl, by simp, fun _ => rfl, rfl, List.nodup_nil, by simp, by simp [State.finished],
    by simp [State.finished], ?_⟩
  intro a
  exact .calling (Or.inl rfl) rfl rfl (by simp)

/-! ### The wire -/

/-- The wire carries the requests in the order in which they were made, each at
most once and as its operation reports. -/
structure Intact (data : A → RequestOp.Data) (s : State A) : Prop where
  wire : s.wire = (s.finished.map Landed.bytes).flatten ++ begun s
  order : s.finished.map Landed.op ++ s.queue.map Prod.fst = s.issued
  once : s.issued.Nodup
  started : ∀ l ∈ s.finished, l.bytes <+: Data.contents (data l.op)
  begun : begun s = [] ∨ ∃ e ∈ s.queue.head?, begun s <+: Data.contents (data e.1)
  value : ∀ a, .value () ∈ (s.ops a).completions → Data.count (data a) < UInt32.size →
    ∃ l ∈ s.landed, l.op = a ∧ l.bytes = Data.contents (data a)
  error : ∀ a err, .error err ∈ (s.ops a).completions →
    a ∉ s.issued ∨ ∃ l ∈ s.landed, l.op = a ∧ l.status = err
  sent : (∀ a ∈ s.issued, .value () ∈ (s.ops a).completions ∧ Data.count (data a) < UInt32.size) →
    s.wire = (s.issued.map fun a => Data.contents (data a)).flatten

theorem begins_payload (d : RequestOp.Data) : Data.payload d <+: Data.contents d := by
  cases d with
  | bytes buff =>
    refine ⟨[], ?_⟩
    rw [List.append_nil]
    exact payload_eq (show 1 < UInt32.size by decide)
  | buffs buffs =>
    have hsplit := List.take_append_drop (UInt32.ofNat buffs.length).toNat buffs
    refine ⟨(buffs.drop (UInt32.ofNat buffs.length).toNat).flatten, ?_⟩
    change (buffs.take (UInt32.ofNat buffs.length).toNat).flatten ++ _ = buffs.flatten
    rw [← List.flatten_append, hsplit]

theorem outcome_value {err : Int} (h : RequestOp.outcome err = .value ()) : isError err = false := by
  unfold RequestOp.outcome at h
  split at h
  next => cases h
  next hok => simpa using hok

theorem outcome_error {status err : Int} (h : RequestOp.outcome status = .error err) : status = err := by
  unfold RequestOp.outcome at h
  split at h
  · cases h
    rfl
  · cases h

omit [DecidableEq A] in
/-- A completed operation was refused, or its request has come back. -/
theorem Course.of_completed {c : Completion Unit} (h : Course data s a) (hc : c ∈ (s.ops a).completions) :
    (∃ err, c = .error err ∧ a ∉ s.issued) ∨
      ∃ l ∈ s.landed, l.op = a ∧ c = RequestOp.outcome l.status := by
  cases h with
  | calling hcalling hin hcomp hnot => simp [hcomp] at hc
  | refused err he hin hnot hor =>
    rcases hor with ⟨-, hcomp⟩ | ⟨-, hcomp⟩
    · simp [hcomp] at hc
    · exact Or.inl ⟨err, by simpa [hcomp] using hc, hnot⟩
  | queued hmem hp hin hcomp => simp [hcomp] at hc
  | completed l hl hop hp hin hcomp => simp [hcomp] at hc
  | landed l hl hop hin hor =>
    rcases hor with ⟨-, hcomp⟩ | ⟨-, hcomp⟩
    · simp [hcomp] at hc
    · exact Or.inr ⟨l, hl, hop, by simpa [hcomp] using hc⟩

omit [DecidableEq A] in
theorem WireInv.landed_of_value (hi : WireInv data s) (hc : .value () ∈ (s.ops a).completions) :
    ∃ l ∈ s.landed, l.op = a ∧ isError l.status = false := by
  rcases (hi.course a).of_completed hc with ⟨err, herr, -⟩ | ⟨l, hl, hop, hout⟩
  · cases herr
  · exact ⟨l, hl, hop, outcome_value hout.symm⟩

omit [DecidableEq A] in
/-- Once all requests have come back without an error, nothing is queued. -/
theorem WireInv.all_landed (hi : WireInv data s)
    (hall : ∀ a ∈ s.issued, .value () ∈ (s.ops a).completions) :
    s.queue = [] ∧ ∀ l ∈ s.finished, isError l.status = false := by
  obtain ⟨hnodup, hapart⟩ := hi.apart
  constructor
  · cases hq : s.queue with
    | nil => rfl
    | cons e rest =>
      have hmem : e ∈ s.queue := by simp [hq]
      obtain ⟨l, hl, hop, -⟩ := hi.landed_of_value (hall e.1 (hi.mem_issued_of_queued hmem))
      exact (hapart l (List.mem_append_left _ hl) e hmem hop).elim
  · intro l hl
    obtain ⟨l', hl', hop, hok⟩ := hi.landed_of_value (hall l.op (hi.mem_issued_of_finished hl))
    have heq : l' = l := List.inj_on_of_nodup_map hnodup (List.mem_append_left _ hl') hl hop
    rw [← heq]
    exact hok

omit [DecidableEq A] in
/-- The bytes of the first request that are on the wire begin its data. -/
theorem WireInv.begun_prefix (hi : WireInv data s) :
    begun s = [] ∨ ∃ e ∈ s.queue.head?, begun s <+: Data.contents (data e.1) := by
  cases hq : s.queue with
  | nil =>
    left
    rw [begun, hq]
  | cons e rest =>
    right
    refine ⟨e, rfl, ?_⟩
    rw [begun, hq]
    have hpayload : e.2 = Data.payload (data e.1) := hi.payload e (by simp [hq])
    show e.2.take s.sent <+: _
    rw [hpayload]
    exact (List.take_prefix _ _).trans (begins_payload _)

/-- Any number of writes to one stream, in any interleaving. -/
theorem writes_intact (h : (system data).Reachable s) : Intact data s := by
  have hi := reachable_wireInv h
  refine ⟨hi.wire, hi.order, hi.once, ?_, hi.begun_prefix, ?_, ?_, ?_⟩
  · intro l hl
    exact (hi.started l hl).trans (begins_payload _)
  · intro a hc hcount
    obtain ⟨l, hl, hop, hok⟩ := hi.landed_of_value hc
    refine ⟨l, hl, hop, ?_⟩
    rw [hi.whole l (List.mem_append_left _ hl) hok, hop, payload_eq hcount]
  · intro a err hc
    rcases (hi.course a).of_completed hc with ⟨-, -, hnot⟩ | ⟨l, hl, hop, hout⟩
    · exact Or.inl hnot
    · exact Or.inr ⟨l, hl, hop, outcome_error hout.symm⟩
  · intro hall
    obtain ⟨hq, hok⟩ := hi.all_landed fun a ha => (hall a ha).1
    have hbytes : s.finished.map Landed.bytes = s.finished.map fun l => Data.contents (data l.op) := by
      refine List.map_congr_left fun l hl => ?_
      rw [hi.whole l hl (hok l hl), payload_eq (hall l.op (hi.mem_issued_of_finished hl)).2]
    have horder := hi.order
    rw [hq, List.map_nil, List.append_nil] at horder
    rw [hi.wire, begun, hq, List.append_nil, hbytes, ← horder, List.map_map]
    rfl

end

/-- The second write is made while the first one is on its way, and sent before the
callback of that. -/
def twoWrites : Bool → RequestOp.Data
  | false => .buffs [[1, 2], [3]]
  | true => .bytes [4]

def overlapping : List (Action Bool) :=
  [.run false, .start false 0, .send 2, .run true, .run true, .start true 0, .send 1, .finish 0,
    .send 1, .finish 0, .callback, .run false]

theorem writes_intact_overlapping : ∃ s, (system twoWrites).exec {} overlapping = some s ∧
    s.wire = [1, 2, 3, 4] ∧ (s.ops false).completions = [.value ()] ∧ s.completed = [⟨true, 0, [4]⟩] ∧
    Intact twoWrites s := by
  have hrun : ((system twoWrites).exec {} overlapping).map
      (fun s => (s.wire, (s.ops false).completions, s.completed)) =
      some ([1, 2, 3, 4], [.value ()], [⟨true, 0, [4]⟩]) := by decide
  obtain ⟨s, hs, hout⟩ := Option.map_eq_some_iff.mp hrun
  simp only [Prod.mk.injEq] at hout
  obtain ⟨hwire, hcomp, hcompleted⟩ := hout
  exact ⟨s, hs, hwire, hcomp, hcompleted, writes_intact (System.reachable_exec _ (.initial rfl) hs)⟩

end UvExec.StreamWrites
