import UvExec.Algorithms.DataAccounting
import UvExec.Algorithms.ReadStages
import UvExec.Lib.Memory

/-! # The datagrams of a socket (algorithms/receive_op_state.hpp)

One receiving operation after another on a datagram socket, with the memory that
`AllocateBuf` hands to libuv, the payloads that libuv writes there, and the endpoint
that `receive_from` copies the sender's address to. -/

namespace UvExec.Datagrams
open Lib

abbrev Bytes := List UInt8

/-- `sa_family`. -/
inductive Family where
  | inet
  | inet6
  deriving DecidableEq, Repr

/-- A `sockaddr`, of which the rest is only copied. -/
structure Address (A : Type) where
  family : Family
  rest : A
  deriving DecidableEq, Repr

structure Datagram (A : Type) where
  source : Address A
  payload : Bytes
  deriving DecidableEq, Repr

/-- `std::span<std::byte>`. -/
structure Span where
  data : ℕ
  size : ℕ
  deriving DecidableEq, Repr

/-- The endpoint of `receive_from` is an address of one family. -/
inductive Algorithm where
  | receive
  | receiveFrom (family : Family)
  deriving DecidableEq, Repr

abbrev Op (A : Type) := ReadOp.State Unit (Address A)

/-- What is the user's: the memory, the span that the predecessor sends, and the
endpoint, which need not be an address yet. -/
structure User (A : Type) where
  memory : ℕ → UInt8
  buff : Span
  endpoint : Option (Address A)

/-- What the program can see where an operation completes with a length. -/
structure Shown (A : Type) where
  bytes : Bytes
  endpoint : Option (Address A)
  deriving DecidableEq, Repr

/-- An operation that has completed. -/
structure Report (A : Type) where
  algorithm : Algorithm
  capacity : ℕ
  completions : List (Completion ℕ)
  held : Option (Datagram A)
  shown : Option (Shown A)
  dropped : List (Datagram A)
  deriving DecidableEq, Repr

/- `buf` is the member of the operation, and `incoming` what the socket holds.
`arrived`, `held`, `shown`, `dropped` and `past` are history: all the datagrams, the
one that the operation has taken, what memory and endpoint hold where it completes
with a length, those that nobody will be told of, and the operations before this
one. -/
structure State (A : Type) where
  algorithm : Algorithm
  op : Op A := { conditionState := () }
  user : User A
  buf : Span := ⟨0, 0⟩
  incoming : List (Datagram A) := []
  arrived : List (Datagram A) := []
  held : Option (Datagram A) := none
  shown : Option (Shown A) := none
  dropped : List (Datagram A) := []
  past : List (Report A) := []

/- `touch` is the user's code on the loop's thread, outside of the library's
callbacks. `fail` is a callback with an error. -/
inductive Action (A : Type) where
  | arrive (d : Datagram A)
  | touch (user : User A)
  | read
  | fail (err : Int)
  | op (a : ReadOp.Action (Address A))
  | next (algorithm : Algorithm)

/-- `UV_ENOBUFS`. -/
def uvEnobufs : Int := -105

/-- `UV_EINVAL`. -/
def uvEinval : Int := -22

variable {A : Type}

/-- `UvCopyInAddress` and `UvCopyIn6Address`, by the family that they copy. -/
def copyAddress (family : Family) (addr : Address A) : Int :=
  if addr.family ≠ family then uvEinval else 0

def Algorithm.opState : Algorithm → ReadOp.OpState Unit (Address A)
  | .receive => .receive
  | .receiveFrom family => .receiveFrom (copyAddress family)

/-- The endpoint after the callback. -/
def Algorithm.endpoint (k : Algorithm) (nrd : Int) (addr : Option (Address A))
    (old : Option (Address A)) : Option (Address A) :=
  match k, addr with
  | .receiveFrom family, some addr =>
    if 0 ≤ nrd ∧ copyAddress family addr = 0 then some addr else old
  | .receiveFrom _, none | .receive, _ => old

namespace State

abbrev move (s : State A) (t : Op A) : State A := { s with op := t }

abbrev drop (s : State A) (t : Op A) : State A :=
  { s with op := t, dropped := s.dropped ++ s.held.toList, held := none }

/-- libuv has written what fits of the datagram to the span. -/
def write (s : State A) (d : Datagram A) : User A :=
  { s.user with memory := Memory.store s.user.memory s.buf.data (d.payload.take s.buf.size) }

def seen (s : State A) (n : ℕ) : Bytes := Memory.load s.user.memory s.buf.data n

end State

def afterLoop (s : State A) (t : Op A) : State A :=
  match s.op.pc with
  | .testAndSet _ _ => if s.op.op.used then s.drop t else s.move t
  | .readStop nrd addr =>
    { s.move t with user :=
      { s.user with endpoint := s.algorithm.endpoint nrd addr s.user.endpoint } }
  | .complete (.value n) => { s.move t with shown := some ⟨s.seen n, s.user.endpoint⟩ }
  | _ => s.move t

def afterStep (s : State A) (a : ReadOp.Action (Address A)) (t : Op A) : State A :=
  match a with
  | .start _ => { s.move t with buf := s.user.buff }
  | .loop => afterLoop s t
  | .read _ _ | .apply | .requestStop | .callback => s.move t

def report (s : State A) : Report A where
  algorithm := s.algorithm
  capacity := s.buf.size
  completions := s.op.completions
  held := s.held
  shown := s.shown
  dropped := s.dropped

/-- What a callback carries is libuv's to say, and not that of `.op`. -/
def isRead : ReadOp.Action (Address A) → Bool
  | .read _ _ => true
  | .start _ | .loop | .apply | .requestStop | .callback => false

variable [DecidableEq A]

/-- The call of the read callback, `none` where libuv does not read. -/
def callback (s : State A) (nrd : Int) (addr : Option (Address A)) : Option (Op A) :=
  ReadOp.step s.algorithm.opState s.op (.read nrd addr)

def step (s : State A) : Action A → Option (State A)
  | .arrive d => some { s with incoming := s.incoming ++ [d], arrived := s.arrived ++ [d] }
  | .touch user =>
    if s.op.pc = .idle ∨ s.op.pc = .start then some { s with user := user } else none
  | .read =>
    if s.buf.size = 0 then (callback s uvEnobufs none).map s.move
    else match s.incoming with
      -- libuv also calls back once it finds nothing more
      | [] => (callback s 0 none).map s.move
      | d :: rest =>
        (callback s (min s.buf.size d.payload.length : ℕ) (some d.source)).map fun t =>
          { s.move t with user := s.write d, incoming := rest, held := some d }
  | .fail err => if isError err then (callback s err none).map s.move else none
  | .op a =>
    if isRead a then none
    else (ReadOp.step s.algorithm.opState s.op a).map (afterStep s a)
  | .next algorithm =>
    if s.op.completions ≠ [] ∧ s.op.pc = .idle then
      some { s with
        algorithm := algorithm
        op := { conditionState := () }
        held := none
        shown := none
        dropped := []
        past := s.past ++ [report s] }
    else none

def system : System (State A) (Action A) where
  initial s := ∃ algorithm user, s = { algorithm := algorithm, user := user }
  step := step

/-! ### Inversion -/

inductive Step (s : State A) : Action A → State A → Prop
  | arrive (d : Datagram A) : Step s (.arrive d)
      { s with incoming := s.incoming ++ [d], arrived := s.arrived ++ [d] }
  | touch (user : User A) : s.op.pc = .idle ∨ s.op.pc = .start →
      Step s (.touch user) { s with user := user }
  | nothing (a : Action A) (nrd : Int) (t : Op A) : nrd ≤ 0 →
      ReadOp.Step s.algorithm.opState s.op (.read nrd none) t → Step s a (s.move t)
  | read (d : Datagram A) (rest : List (Datagram A)) (t : Op A) : s.incoming = d :: rest →
      ReadOp.Step s.algorithm.opState s.op
        (.read (min s.buf.size d.payload.length : ℕ) (some d.source)) t →
      Step s .read { s.move t with user := s.write d, incoming := rest, held := some d }
  | op (a : ReadOp.Action (Address A)) (t : Op A) : isRead a = false →
      ReadOp.Step s.algorithm.opState s.op a t → Step s (.op a) (afterStep s a t)
  | next (algorithm : Algorithm) : s.op.completions ≠ [] → s.op.pc = .idle →
      Step s (.next algorithm)
        { s with
          algorithm := algorithm
          op := { conditionState := () }
          held := none
          shown := none
          dropped := []
          past := s.past ++ [report s] }

variable {s s' : State A} {a : Action A}

theorem step_cases (h : step s a = some s') : Step s a s' := by
  cases a with
  | arrive d =>
    cases h
    exact .arrive d
  | touch user =>
    simp only [step, Option.ite_none_right_eq_some, Option.some.injEq] at h
    obtain ⟨hor, rfl⟩ := h
    exact .touch user hor
  | read =>
    simp only [step] at h
    split at h
    next hsize =>
      obtain ⟨t, ht, rfl⟩ := Option.map_eq_some_iff.mp h
      exact .nothing _ uvEnobufs t (by decide) (ReadOp.step_cases ht)
    next hsize =>
      split at h
      next =>
        obtain ⟨t, ht, rfl⟩ := Option.map_eq_some_iff.mp h
        exact .nothing _ 0 t (by decide) (ReadOp.step_cases ht)
      next d rest hin =>
        obtain ⟨t, ht, rfl⟩ := Option.map_eq_some_iff.mp h
        exact .read d rest t hin (ReadOp.step_cases ht)
  | fail err =>
    simp only [step, Option.ite_none_right_eq_some] at h
    obtain ⟨herr, h⟩ := h
    obtain ⟨t, ht, rfl⟩ := Option.map_eq_some_iff.mp h
    have hneg : err ≤ 0 := by
      simp only [isError, decide_eq_true_eq] at herr
      omega
    exact .nothing _ err t hneg (ReadOp.step_cases ht)
  | op a =>
    simp only [step] at h
    split at h
    next => cases h
    next ha =>
      obtain ⟨t, ht, rfl⟩ := Option.map_eq_some_iff.mp h
      exact .op a t (by simpa using ha) (ReadOp.step_cases ht)
  | next algorithm =>
    simp only [step, Option.ite_none_right_eq_some, Option.some.injEq] at h
    obtain ⟨⟨hcomp, hp⟩, rfl⟩ := h
    exact .next algorithm hcomp hp

/-! ### The datagram that an operation has taken -/

/-- The arguments of the callback, which the thread still carries. -/
def carried : ReadOp.Pc (Address A) → Option (Int × Option (Address A))
  | .readCallback nrd addr | .condition nrd addr | .testAndSet nrd addr | .reset nrd addr
  | .readStop nrd addr => some (nrd, addr)
  | .start | .startError _ | .emplace | .setup | .setupDone | .idle | .resetUnsafe | .stopReadStop
  | .complete _ => none

/-- Once the callback is known to be about a datagram or an error. -/
def deciding : ReadOp.Pc (Address A) → Option (Int × Option (Address A))
  | .testAndSet nrd addr | .reset nrd addr | .readStop nrd addr => some (nrd, addr)
  | .readCallback _ _ | .condition _ _ | .start | .startError _ | .emplace | .setup | .setupDone
  | .idle | .resetUnsafe | .stopReadStop | .complete _ => none

/-- What the callback says of the datagram, which the span holds as far as it fits. -/
def Carries (s : State A) (nrd : Int) (addr : Option (Address A)) : Prop :=
  match s.held with
  | none => nrd ≤ 0 ∧ addr = none
  | some d => nrd = (min s.buf.size d.payload.length : ℕ) ∧ addr = some d.source ∧
    s.seen nrd.toNat = d.payload.take nrd.toNat

/-- `receive_from` has the sender of the datagram in its endpoint. -/
def Named (k : Algorithm) (endpoint : Option (Address A)) (d : Datagram A) : Prop :=
  ∀ family, k = .receiveFrom family → endpoint = some d.source ∧ d.source.family = family

/-- A completion with an error may cost the datagram of a sender that the endpoint
cannot hold. -/
def Misfit (k : Algorithm) (err : Int) (d : Datagram A) : Prop :=
  err = uvEinval ∧ ∃ family, k = .receiveFrom family ∧ d.source.family ≠ family

/-- What a completion, with what it shows of a datagram, says of the one that was
taken. -/
structure Told (r : Report A) : Prop where
  value : ∀ n, .value n ∈ r.completions → ∃ d endpoint, r.held = some d ∧
    n = min r.capacity d.payload.length ∧ r.shown = some ⟨d.payload.take n, endpoint⟩ ∧
    Named r.algorithm endpoint d
  error : ∀ err, .error err ∈ r.completions → ∀ d, r.held = some d → Misfit r.algorithm err d
  stopped : .stopped ∈ r.completions → r.held = none
  shown : r.shown ≠ none → ∃ n, .value n ∈ r.completions

/-- Only an operation that is stopped drops datagrams. -/
structure Report.Honest (r : Report A) : Prop extends Told r where
  dropped : r.dropped ≠ [] → r.completions = [.stopped]

def Report.taken (r : Report A) : List (Datagram A) := r.dropped ++ r.held.toList

/-- What the completion to come can say. -/
def Outcome (s : State A) : Completion ℕ → Prop
  | .value n => ∃ d, s.held = some d ∧ n = min s.buf.size d.payload.length ∧
    s.seen n = d.payload.take n ∧ Named s.algorithm s.user.endpoint d
  | .error err => ∀ d, s.held = some d → Misfit s.algorithm err d
  | .stopped => s.held = none

/-- The datagrams beside the operation that is at work. -/
structure DatagramInv (s : State A) : Prop where
  queue : s.arrived = s.past.flatMap Report.taken ++ s.dropped ++ s.held.toList ++ s.incoming
  flight : ∀ nrd addr, carried s.op.pc = some (nrd, addr) → Carries s nrd addr
  decided : ∀ nrd, deciding s.op.pc = some (nrd, none) → nrd ≠ 0
  complete : ∀ c, s.op.pc = .complete c → Outcome s c
  unheld : carried s.op.pc = none → (∀ c, s.op.pc ≠ .complete c) → s.op.completions = [] →
    s.held = none
  told : Told (report s)
  unasked : ∀ nrd addr, s.op.pc ≠ .condition nrd addr
  unstarted : s.op.pc = .start → s.op.reading = false
  stop : s.dropped ≠ [] → s.op.op.used = true ∧ s.op.op.taker = some .stop
  past : ∀ r ∈ s.past, r.Honest

omit [DecidableEq A] in
theorem Carries.none_of_addr {nrd : Int} (h : Carries s nrd none) : s.held = none := by
  unfold Carries at h
  split at h
  next hnone => exact hnone
  next d hd => cases h.2.1

omit [DecidableEq A] in
theorem stage_step (hst : ReadOp.Stage s.op) (hun : s.op.pc = .start → s.op.reading = false)
    (h : Step s a s') : ReadOp.Stage s'.op := by
  cases h with
  | arrive d | touch user hp => exact hst
  | nothing a nrd t hneg ht | read d rest t hin ht => exact ReadOp.stage_step hst hun ht
  | op act t ha ht =>
    have hop : (afterStep s act t).op = t := by
      cases act with
      | loop =>
        simp only [afterStep, afterLoop]
        repeat' split
        all_goals rfl
      | _ => rfl
    rw [hop]
    exact ReadOp.stage_step hst hun ht
  | next algorithm hcomp hp => exact ReadOp.stage_initial ()

/-! ### One step of the operation -/

section
variable {t : Op A}

omit [DecidableEq A] in
/-- A statement that only moves the thread, or the stop operation. -/
theorem DatagramInv.move (hi : DatagramInv s) (hcar : carried t.pc = carried s.op.pc)
    (hdec : ∀ nrd, deciding t.pc = some (nrd, none) → nrd ≠ 0)
    (hcomplete : ∀ c, t.pc = .complete c ↔ s.op.pc = .complete c)
    (hcomp : t.completions = s.op.completions) (hask : ∀ nrd addr, t.pc ≠ .condition nrd addr)
    (hun : t.pc = .start → t.reading = false)
    (hkept : s.op.op.used = true → t.op.used = true ∧ t.op.taker = s.op.op.taker) :
    DatagramInv (s.move t) := by
  refine ⟨hi.queue, ?_, hdec, ?_, ?_, ?_, hask, hun, ?_, hi.past⟩
  · intro nrd addr hp
    exact hi.flight nrd addr (hcar.symm.trans hp)
  · intro c hp
    exact hi.complete c ((hcomplete c).mp hp)
  · intro hnone hno hnil
    refine hi.unheld (hcar.symm.trans hnone) ?_ (hcomp.symm.trans hnil)
    intro c hp
    exact hno c ((hcomplete c).mpr hp)
  · have hreport : report (s.move t) = report s := by simp [report, hcomp]
    rw [hreport]
    exact hi.told
  · intro hd
    obtain ⟨hu, ht⟩ := hi.stop hd
    obtain ⟨hu', ht'⟩ := hkept hu
    exact ⟨hu', ht'.trans ht⟩

omit [DecidableEq A] in
/-- The thread leaves the callback, with a datagram only where it has lost the flag. -/
theorem DatagramInv.drop (hi : DatagramInv s) (hp : t.pc = .idle)
    (hcomp : t.completions = s.op.completions)
    (hkept : s.op.op.used = true → t.op.used = true ∧ t.op.taker = s.op.op.taker)
    (hnil : s.op.completions = [])
    (hstop : s.held ≠ none → t.op.used = true ∧ t.op.taker = some .stop) :
    DatagramInv (s.drop t) := by
  refine ⟨?_, by simp [hp, carried], by simp [hp, deciding], by simp [hp], fun _ _ _ => rfl, ?_,
    by simp [hp], by simp [hp], ?_, hi.past⟩
  · simpa using hi.queue
  · refine ⟨?_, ?_, fun _ => rfl, ?_⟩
    · simp [report, hcomp, hnil]
    · simp [report, hcomp, hnil]
    · intro hne
      obtain ⟨n, hn⟩ := hi.told.shown hne
      simp [report, hnil] at hn
  · intro hd
    cases hheld : s.held with
    | some d => exact hstop (by simp [hheld])
    | none =>
      obtain ⟨hu, ht⟩ := hi.stop (by simpa [hheld] using hd)
      obtain ⟨hu', ht'⟩ := hkept hu
      exact ⟨hu', ht'.trans ht⟩

omit [DecidableEq A] in
theorem drop_eq_move (s : State A) (t : Op A) (h : s.held = none) : s.drop t = s.move t := by
  cases s
  simp_all

omit [DecidableEq A] in
theorem readCallback_eq (k : Algorithm) (t : Op A) (nrd : Int) (addr : Option (Address A)) :
    k.opState.readCallback t nrd addr =
      if addr.isNone ∧ nrd = 0 then .idle else .testAndSet nrd addr := by
  cases k <;> rfl

omit [DecidableEq A] in
/-- A callback about nothing is over at once. -/
theorem datagramInv_readCallback {nrd : Int} {addr : Option (Address A)} (hi : DatagramInv s)
    (hst : ReadOp.Stage s.op) (hp : s.op.pc = .readCallback nrd addr) : DatagramInv (s.move
      { s.op with pc := s.algorithm.opState.readCallback s.op nrd addr }) := by
  rw [readCallback_eq]
  have hflight := hi.flight nrd addr (by rw [hp]; rfl)
  by_cases hnothing : addr.isNone ∧ nrd = 0
  · rw [if_pos hnothing]
    have haddr : addr = none := Option.isNone_iff_eq_none.mp hnothing.1
    rw [haddr] at hflight
    have hnone := hflight.none_of_addr
    have hdrop := hi.drop (t := { s.op with pc := .idle }) rfl rfl (fun hu => ⟨hu, rfl⟩)
      (hst.uncompleted (by simp [hp])) (fun hne => (hne hnone).elim)
    rwa [drop_eq_move s _ hnone] at hdrop
  · rw [if_neg hnothing]
    refine hi.move (by simp [hp, carried]) ?_ (by simp [hp]) rfl (by simp) (by simp)
      (fun hu => ⟨hu, rfl⟩)
    intro m hdec hzero
    simp only [deciding, Option.some.injEq, Prod.mk.injEq] at hdec
    exact hnothing ⟨by simp [hdec.2], hdec.1.trans hzero⟩

/-- The completion that is chosen fits the datagram, whose sender is in the endpoint
by then. -/
theorem outcome_of_carries {nrd : Int} {addr : Option (Address A)} (h : Carries s nrd addr)
    (hne : addr = none → nrd ≠ 0) (t : Op A) : Outcome
      { s.move t with user :=
        { s.user with endpoint := s.algorithm.endpoint nrd addr s.user.endpoint } }
      (s.algorithm.opState.outcome s.op nrd addr) := by
  unfold Carries at h
  split at h
  next hnone =>
    obtain ⟨hle, haddr⟩ := h
    have hzero := hne haddr
    have hneg : nrd < 0 := by omega
    have hout : s.algorithm.opState.outcome s.op nrd addr = .error nrd := by
      cases halg : s.algorithm <;> simp [Algorithm.opState, ReadOp.OpState.outcome, hneg]
    rw [hout]
    intro d hd
    simp [hnone] at hd
  next d hd =>
    obtain ⟨hn, haddr, hseen⟩ := h
    have hpos : ¬nrd < 0 := by omega
    have hlen : nrd.toNat = min s.buf.size d.payload.length := by omega
    cases halg : s.algorithm with
    | receive =>
      have hout : Algorithm.receive.opState.outcome s.op nrd addr = .value nrd.toNat := if_neg hpos
      rw [hout]
      exact ⟨d, hd, hlen, hseen, fun family hk => by simp [halg] at hk⟩
    | receiveFrom family =>
      simp only [Algorithm.opState, ReadOp.OpState.outcome, if_neg hpos, haddr, Option.elim_some]
      by_cases hf : d.source.family = family
      · have hok : copyAddress family d.source = 0 := by simp [copyAddress, hf]
        rw [hok, if_neg (by decide)]
        refine ⟨d, hd, hlen, hseen, ?_⟩
        intro f hk
        have hfam : family = f := by simpa [halg] using hk
        refine ⟨?_, hf.trans hfam⟩
        simp [Algorithm.endpoint, hok]
        omega
      · have herr : copyAddress family d.source = uvEinval := by simp [copyAddress, hf]
        rw [herr, if_pos (by decide)]
        intro e he
        have hde : d = e := by simpa [hd] using he
        exact ⟨rfl, family, halg, hde ▸ hf⟩

theorem datagramInv_readStop {nrd : Int} {addr : Option (Address A)} (hi : DatagramInv s)
    (hp : s.op.pc = .readStop nrd addr) : DatagramInv
      { s.move { s.op with
          reading := false, pc := .complete (s.algorithm.opState.outcome s.op nrd addr) } with
        user := { s.user with endpoint := s.algorithm.endpoint nrd addr s.user.endpoint } } := by
  have hflight := hi.flight nrd addr (by rw [hp]; rfl)
  have hne : addr = none → nrd ≠ 0 := by
    intro haddr
    exact hi.decided nrd (by rw [hp, haddr]; rfl)
  refine ⟨hi.queue, by simp [carried], by simp [deciding], ?_, fun _ hno _ => (hno _ rfl).elim, hi.told,
    by simp, by simp, hi.stop, hi.past⟩
  intro c hc
  cases hc
  exact outcome_of_carries hflight hne _

omit [DecidableEq A] in
/-- The operation completes its receiver; only a length comes with what can be seen. -/
theorem DatagramInv.finish {c : Completion ℕ} (hi : DatagramInv s) (hnil : s.op.completions = [])
    (hout : Outcome s c) (shown : Option (Shown A))
    (hvalue : ∀ n, c = .value n → shown = some ⟨s.seen n, s.user.endpoint⟩)
    (hother : (∀ n, c ≠ .value n) → shown = s.shown) :
    DatagramInv { s.move (s.op.complete c) with shown := shown } := by
  have hunshown : s.shown = none := by
    by_contra hne
    obtain ⟨n, hn⟩ := hi.told.shown hne
    simp [report, hnil] at hn
  refine ⟨hi.queue, by simp [carried], by simp [deciding], by simp, by simp, ?_, by simp, by simp,
    hi.stop, hi.past⟩
  refine ⟨?_, ?_, ?_, ?_⟩
  · intro n hn
    have hc : c = .value n := by simpa [report, hnil, eq_comm] using hn
    rw [hc] at hout
    obtain ⟨d, hd, hlen, hseen, hnamed⟩ := hout
    exact ⟨d, s.user.endpoint, hd, hlen, hseen ▸ hvalue n hc, hnamed⟩
  · intro err herr
    have hc : c = .error err := by simpa [report, hnil, eq_comm] using herr
    rw [hc] at hout
    exact hout
  · intro hstopped
    have hc : c = .stopped := by simpa [report, hnil, eq_comm] using hstopped
    rw [hc] at hout
    exact hout
  · intro hne
    by_contra hno
    have hnot : ∀ n, c ≠ .value n := by
      intro n hc
      exact hno ⟨n, by simp [report, hnil, hc]⟩
    exact hne ((hother hnot).trans hunshown)

omit [DecidableEq A] in
theorem datagramInv_complete {c : Completion ℕ} (hi : DatagramInv s) (hst : ReadOp.Stage s.op)
    (hp : s.op.pc = .complete c) : DatagramInv (afterLoop s (s.op.complete c)) := by
  have hnil := hst.uncompleted (by simp [hp])
  have hfinish := hi.finish hnil (hi.complete c hp)
  cases c with
  | value n =>
    have hafter : afterLoop s (s.op.complete (.value n)) =
        { s.move (s.op.complete (.value n)) with shown := some ⟨s.seen n, s.user.endpoint⟩ } := by
      simp [afterLoop, hp]
    rw [hafter]
    exact hfinish _ (fun m hm => by cases hm; rfl) (fun hno => (hno n rfl).elim)
  | error err =>
    have hafter : afterLoop s (s.op.complete (.error err)) = s.move (s.op.complete (.error err)) := by
      simp [afterLoop, hp]
    rw [hafter]
    exact hfinish s.shown (by simp) (fun _ => rfl)
  | stopped =>
    have hafter : afterLoop s (s.op.complete .stopped) = s.move (s.op.complete .stopped) := by
      simp [afterLoop, hp]
    rw [hafter]
    exact hfinish s.shown (by simp) (fun _ => rfl)

omit [DecidableEq A] in
/-- The error of a start costs no datagram. -/
theorem datagramInv_startError {err : Int} (hi : DatagramInv s) (hst : ReadOp.Stage s.op)
    (hp : s.op.pc = .startError err) : DatagramInv (s.move (s.op.complete (.error err))) := by
  have hnil := hst.uncompleted (by simp [hp])
  have hnone := hi.unheld (by simp [hp, carried]) (by simp [hp]) hnil
  refine hi.finish hnil ?_ s.shown (by simp) (fun _ => rfl)
  intro d hd
  simp [hnone] at hd

omit [DecidableEq A] in
/-- Nor does `StopCallback`. -/
theorem datagramInv_stopReadStop (hi : DatagramInv s) (hst : ReadOp.Stage s.op)
    (hp : s.op.pc = .stopReadStop) :
    DatagramInv (s.move { s.op with reading := false, pc := .complete .stopped }) := by
  have hnil := hst.uncompleted (by simp [hp])
  have hnone := hi.unheld (by simp [hp, carried]) (by simp [hp]) hnil
  refine ⟨hi.queue, by simp [carried], by simp [deciding], ?_, fun _ hno _ => (hno _ rfl).elim, hi.told,
    by simp, by simp, hi.stop, hi.past⟩
  intro c hc
  cases hc
  exact hnone

omit [DecidableEq A] in
/-- A start, with the span that the operation keeps. -/
theorem DatagramInv.start (h : DatagramInv (s.move t)) (hst : ReadOp.Stage s.op) (hp : s.op.pc = .start)
    (hcar : carried t.pc = none) (hc : ∀ c, t.pc ≠ .complete c)
    (hcomp : t.completions = s.op.completions) (b : Span) : DatagramInv { s.move t with buf := b } := by
  have hnil := hst.uncompleted (by simp [hp])
  refine ⟨h.queue, by simp [hcar], h.decided, fun c hpc => (hc c hpc).elim, h.unheld, ?_, h.unasked,
    h.unstarted, h.stop, h.past⟩
  refine ⟨by simp [report, hcomp, hnil], by simp [report, hcomp, hnil], by simp [report, hcomp, hnil], ?_⟩
  exact h.told.shown

theorem datagramInv_op {act : ReadOp.Action (Address A)} (hi : DatagramInv s)
    (hst : ReadOp.Stage s.op) (ha : isRead act = false)
    (h : ReadOp.Step s.algorithm.opState s.op act t) : DatagramInv (afterStep s act t) := by
  have hkept := (SocketReads.kept_of_step h).used
  cases h with
  | startFailed err hp he =>
    have hmove := hi.move (t := { s.op with pc := .startError err }) (by simp [hp, carried])
      (by simp [deciding]) (by simp [hp]) rfl (by simp) (by simp) hkept
    exact hmove.start hst hp rfl (by simp) rfl _
  | start err hp he =>
    have hmove := hi.move (t := { s.op with reading := true, pc := .emplace }) (by simp [hp, carried])
      (by simp [deciding]) (by simp [hp]) rfl (by simp) (by simp) hkept
    exact hmove.start hst hp rfl (by simp) rfl _
  | startError err hp =>
    have hafter (t : Op A) : afterStep s .loop t = s.move t := by simp [afterStep, afterLoop, hp]
    rw [hafter]
    exact datagramInv_startError hi hst hp
  | emplace hp | setup hp | setupDone hp | resetUnsafe op hp =>
    have hafter (t : Op A) : afterStep s .loop t = s.move t := by simp [afterStep, afterLoop, hp]
    rw [hafter]
    exact hi.move (by simp [hp, carried]) (by simp [deciding]) (by simp [hp]) rfl (by simp) (by simp) hkept
  | stopReadStop hp =>
    have hafter (t : Op A) : afterStep s .loop t = s.move t := by simp [afterStep, afterLoop, hp]
    rw [hafter]
    exact datagramInv_stopReadStop hi hst hp
  | readCallback nrd addr hp =>
    have hafter (t : Op A) : afterStep s .loop t = s.move t := by simp [afterStep, afterLoop, hp]
    rw [hafter]
    exact datagramInv_readCallback hi hst hp
  | condition nrd addr hp => exact (hi.unasked nrd addr hp).elim
  | lost nrd addr hp hu =>
    have hafter (t : Op A) : afterStep s .loop t = s.drop t := by simp [afterStep, afterLoop, hp, hu]
    rw [hafter]
    exact hi.drop rfl rfl hkept (hst.uncompleted (by simp [hp]))
      (fun _ => ⟨hu, hst.stop_of_used (by rw [hp]; rfl) hu⟩)
  | won nrd addr hp hu =>
    have hafter (t : Op A) : afterStep s .loop t = s.move t := by simp [afterStep, afterLoop, hp, hu]
    rw [hafter]
    refine hi.move (by simp [hp, carried]) ?_ (by simp [hp]) rfl (by simp) (by simp) hkept
    intro m hdec
    exact hi.decided m (by simpa [hp, deciding] using hdec)
  | reset nrd addr op hp hr =>
    have hafter (t : Op A) : afterStep s .loop t = s.move t := by simp [afterStep, afterLoop, hp]
    rw [hafter]
    refine hi.move (by simp [hp, carried]) ?_ (by simp [hp]) rfl (by simp) (by simp) hkept
    intro m hdec
    exact hi.decided m (by simpa [hp, deciding] using hdec)
  | readStop nrd addr hp =>
    have hafter : afterStep s .loop { s.op with
          reading := false, pc := .complete (s.algorithm.opState.outcome s.op nrd addr) } =
        { s.move { s.op with
            reading := false, pc := .complete (s.algorithm.opState.outcome s.op nrd addr) } with
          user := { s.user with endpoint := s.algorithm.endpoint nrd addr s.user.endpoint } } := by
      simp [afterStep, afterLoop, hp]
    rw [hafter]
    exact datagramInv_readStop hi hp
  | complete c hp => exact datagramInv_complete hi hst hp
  | read nrd addr hp hread => cases ha
  | apply hp hq =>
    exact hi.move (by simp [hp, carried]) (by simp [deciding]) (by simp [hp]) rfl (by simp) (by simp) hkept
  | requestStop =>
    exact hi.move rfl hi.decided (by simp) rfl hi.unasked hi.unstarted hkept
  | callback op hop =>
    exact hi.move rfl hi.decided (by simp) rfl hi.unasked hi.unstarted hkept

omit [DecidableEq A] in
/-- A callback without a datagram. -/
theorem datagramInv_nothing {nrd : Int} (hi : DatagramInv s) (hst : ReadOp.Stage s.op) (hneg : nrd ≤ 0)
    (h : ReadOp.Step s.algorithm.opState s.op (.read nrd none) t) : DatagramInv (s.move t) := by
  have hkept := (SocketReads.kept_of_step h).used
  cases h with
  | read _ _ hp hread =>
    have hnone := hi.unheld (by simp [hp, carried]) (by simp [hp]) (hst.uncompleted_of_reading hread)
    refine ⟨hi.queue, ?_, by simp [deciding], by simp, by simp [carried], hi.told, by simp, by simp,
      hi.stop, hi.past⟩
    intro m addr hcar
    simp only [carried, Option.some.injEq, Prod.mk.injEq] at hcar
    obtain ⟨rfl, rfl⟩ := hcar
    simp [Carries, hnone, hneg]

omit [DecidableEq A] in
theorem seen_write (s : State A) (d : Datagram A) :
    Memory.load (s.write d).memory s.buf.data (min s.buf.size d.payload.length) =
      d.payload.take (min s.buf.size d.payload.length) := by
  have hlen : (d.payload.take s.buf.size).length = min s.buf.size d.payload.length := List.length_take
  have hload := Memory.load_store s.user.memory s.buf.data (d.payload.take s.buf.size)
  rw [hlen] at hload
  have htake : d.payload.take (min s.buf.size d.payload.length) = d.payload.take s.buf.size :=
    List.take_eq_take_iff.mpr (by omega)
  rw [htake]
  exact hload

omit [DecidableEq A] in
/-- libuv has taken a datagram off the socket and written it to the span. -/
theorem datagramInv_read {d : Datagram A} {rest : List (Datagram A)} (hi : DatagramInv s)
    (hst : ReadOp.Stage s.op) (hin : s.incoming = d :: rest)
    (h : ReadOp.Step s.algorithm.opState s.op
      (.read (min s.buf.size d.payload.length : ℕ) (some d.source)) t) :
    DatagramInv { s.move t with user := s.write d, incoming := rest, held := some d } := by
  cases h with
  | read _ _ hp hread =>
    have hnil := hst.uncompleted_of_reading hread
    have hnone := hi.unheld (by simp [hp, carried]) (by simp [hp]) hnil
    refine ⟨?_, ?_, by simp [deciding], by simp, by simp [carried], ?_, by simp, by simp, hi.stop, hi.past⟩
    · have hqueue := hi.queue
      rw [hin, hnone] at hqueue
      simpa using hqueue
    · intro m addr hcar
      simp only [carried, Option.some.injEq, Prod.mk.injEq] at hcar
      obtain ⟨rfl, rfl⟩ := hcar
      exact ⟨rfl, rfl, seen_write s d⟩
    · exact ⟨by simp [report, hnil], by simp [report, hnil], by simp [report, hnil], hi.told.shown⟩

omit [DecidableEq A] in
theorem honest_report (hi : DatagramInv s) (hst : ReadOp.Stage s.op) (hcomp : s.op.completions ≠ []) :
    (report s).Honest where
  toTold := hi.told
  dropped hd := hst.completions_of_stop hcomp (hi.stop hd).2

omit [DecidableEq A] in
/-- The next operation finds the datagrams that the one before it has left. -/
theorem DatagramInv.next (hi : DatagramInv s) (hst : ReadOp.Stage s.op)
    (hcomp : s.op.completions ≠ []) (algorithm : Algorithm) : DatagramInv
      { s with
        algorithm := algorithm
        op := { conditionState := () }
        held := none
        shown := none
        dropped := []
        past := s.past ++ [report s] } := by
  refine ⟨?_, by simp [carried], by simp [deciding], by simp, fun _ _ _ => rfl, ?_, by simp, fun _ => rfl,
    by simp, ?_⟩
  · rw [hi.queue]
    simp [Report.taken, report]
  · exact ⟨by simp [report], by simp [report], fun _ => rfl, by simp [report]⟩
  · intro r hr
    rcases List.mem_append.mp hr with hmem | hlast
    · exact hi.past r hmem
    · rw [List.mem_singleton.mp hlast]
      exact honest_report hi hst hcomp

theorem datagramInv_step (hi : DatagramInv s) (hst : ReadOp.Stage s.op) (h : Step s a s') :
    DatagramInv s' := by
  cases h with
  | arrive d =>
    refine ⟨?_, hi.flight, hi.decided, hi.complete, hi.unheld, hi.told, hi.unasked, hi.unstarted, hi.stop,
      hi.past⟩
    have hqueue := hi.queue
    simp only [hqueue, List.append_assoc]
  | touch user hp =>
    have hquiet : carried s.op.pc = none ∧ ∀ c, s.op.pc ≠ .complete c := by
      rcases hp with hidle | hstart
      · simp [hidle, carried]
      · simp [hstart, carried]
    refine ⟨hi.queue, ?_, hi.decided, ?_, hi.unheld, hi.told, hi.unasked, hi.unstarted, hi.stop, hi.past⟩
    · intro nrd addr hcar
      rw [hquiet.1] at hcar
      cases hcar
    · intro c hc
      exact (hquiet.2 c hc).elim
  | nothing a nrd t hneg ht => exact datagramInv_nothing hi hst hneg ht
  | read d rest t hin ht => exact datagramInv_read hi hst hin ht
  | op act t ha ht => exact datagramInv_op hi hst ha ht
  | next algorithm hcomp hp => exact hi.next hst hcomp algorithm

end

/-! ### The whole socket -/

/-- No datagram is lost, made up, split or merged: each of those that have arrived, in
the order of their arrival, was taken by one operation or is still to be received. An
operation that completes with a length took one, and has shown as much of it as fits
its span. -/
structure Intact (s : State A) : Prop where
  queue : s.arrived = s.past.flatMap Report.taken ++ s.dropped ++ s.held.toList ++ s.incoming
  honest : ∀ r ∈ s.past, r.Honest
  current : s.op.completions ≠ [] → (report s).Honest
  kept : (∀ r ∈ s.past, r.completions ≠ [.stopped]) → s.op.op.taker ≠ some .stop →
    s.arrived = s.past.filterMap Report.held ++ s.held.toList ++ s.incoming

theorem reachable_datagramInv (h : (system : System (State A) (Action A)).Reachable s) :
    DatagramInv s ∧ ReadOp.Stage s.op := by
  refine System.Reachable.invariant (I := fun s => DatagramInv s ∧ ReadOp.Stage s.op) ?_ ?_ h
  · rintro s ⟨algorithm, user, rfl⟩
    refine ⟨⟨rfl, by simp [carried], by simp [deciding], by simp, fun _ _ _ => rfl, ?_, by simp,
      fun _ => rfl, by simp, by simp⟩, ReadOp.stage_initial ()⟩
    exact ⟨by simp [report], by simp [report], fun _ => rfl, by simp [report]⟩
  · intro s a s' ⟨hi, hst⟩ hstep
    have hs := step_cases hstep
    exact ⟨datagramInv_step hi hst hs, stage_step hst hi.unstarted hs⟩

omit [DecidableEq A] in
theorem taken_of_undropped {past : List (Report A)} (h : ∀ r ∈ past, r.Honest)
    (hstopped : ∀ r ∈ past, r.completions ≠ [.stopped]) :
    past.flatMap Report.taken = past.filterMap Report.held := by
  induction past with
  | nil => rfl
  | cons r past ih =>
    have hnil : r.dropped = [] := by
      by_contra hd
      exact hstopped r (by simp) ((h r (by simp)).dropped hd)
    have htail := ih (fun q hq => h q (by simp [hq])) (fun q hq => hstopped q (by simp [hq]))
    rw [List.flatMap_cons, htail, Report.taken, hnil]
    cases hheld : r.held with
    | none => simp [hheld]
    | some d => simp [hheld]

/-- Receiving from a socket with any operations, however they end. -/
theorem datagrams_intact (h : (system : System (State A) (Action A)).Reachable s) : Intact s := by
  obtain ⟨hi, hst⟩ := reachable_datagramInv h
  refine ⟨hi.queue, hi.past, honest_report hi hst, ?_⟩
  intro hpast htaker
  have hdrop : s.dropped = [] := by
    by_contra hd
    exact htaker (hi.stop hd).2
  have hqueue := hi.queue
  rw [taken_of_undropped hi.past hpast, hdrop] at hqueue
  simpa using hqueue

def twoBytes : State Unit where
  algorithm := .receive
  user := ⟨fun _ => 0, ⟨16, 2⟩, none⟩

/-- One operation, from its start to what the datagram completes it with. -/
def received : List (Action Unit) :=
  .op (.start 0) :: List.replicate 3 (.op .loop) ++ .read :: List.replicate 5 (.op .loop)

/-- The first datagram does not fit the span, the sender of the second not the
endpoint, and the third is empty. -/
def threeReceived : List (Action Unit) :=
  .arrive ⟨⟨.inet, ()⟩, [1, 2, 3]⟩ :: .arrive ⟨⟨.inet6, ()⟩, [4]⟩ :: .arrive ⟨⟨.inet, ()⟩, []⟩ ::
    received ++ .next (.receiveFrom .inet) :: received ++ .next (.receiveFrom .inet) :: received

theorem datagrams_intact_received : ∃ s : State Unit, system.exec twoBytes threeReceived = some s ∧
    s.past.map Report.completions = [[.value 2], [.error uvEinval]] ∧
    s.past.map Report.shown = [some ⟨[1, 2], none⟩, none] ∧
    s.op.completions = [.value 0] ∧ s.shown = some ⟨[], some ⟨.inet, ()⟩⟩ ∧ Intact s := by
  have hrun : (system.exec twoBytes threeReceived).map
      (fun s => (s.past.map Report.completions, s.op.completions)) =
      some ([[.value 2], [.error uvEinval]], [.value 0]) := by decide +kernel
  have htold : (system.exec twoBytes threeReceived).map (fun s => (s.past.map Report.shown, s.shown)) =
      some ([some ⟨[1, 2], none⟩, none], some ⟨[], some ⟨.inet, ()⟩⟩) := by decide +kernel
  obtain ⟨s, hs, hout⟩ := Option.map_eq_some_iff.mp hrun
  rw [hs, Option.map_some, Option.some.injEq] at htold
  simp only [Prod.mk.injEq] at hout htold
  obtain ⟨hpast, hcomp⟩ := hout
  obtain ⟨hshown, hlast⟩ := htold
  have hinit : (system : System (State Unit) (Action Unit)).initial twoBytes := ⟨_, _, rfl⟩
  have hreach := System.reachable_exec _ (.initial hinit) hs
  exact ⟨s, hs, hpast, hshown, hcomp, hlast, datagrams_intact hreach⟩

end UvExec.Datagrams
