import UvExec.Sockets.TcpListener
import Mathlib.Data.List.Basic
import Mathlib.Data.List.Nodup

/-! # Which accept gets the next connection (sockets/tcp_listener.hpp, tcp_listener.cpp)

`RegisterAccept` adds an accept in front of those that wait, and
`ConnectionCallback` takes the one in front. -/

namespace UvExec.TcpListener
open Lib
variable {A : Type} [DecidableEq A]

/-- A step that makes an accept wait. -/
def joins (s : State A) : Action A → ℕ
  | .register _ _ => if 0 < s.pendingConnections then 0 else 1
  | .setup _ | .connection _ | .loop | .uvAccept _ | .apply _ | .requestStop _ | .callback _ => 0

/-- A step that takes a connection to an accept. -/
def serves (s : State A) : Action A → ℕ
  | .connection status => if isError status || s.acceptList.isEmpty then 0 else 1
  | .register _ _ | .setup _ | .loop | .uvAccept _ | .apply _ | .requestStop _ | .callback _ => 0

/-- A step that takes a stopped accept from before `b`. -/
def withdraws (b : A) (s : State A) : Action A → ℕ
  | .apply a => if s.acceptList.idxOf a < s.acceptList.idxOf b then 1 else 0
  | .register _ _ | .setup _ | .connection _ | .loop | .uvAccept _ | .requestStop _ | .callback _ => 0

/-- The sum of `f` over a run. -/
def total (f : State A → Action A → ℕ) (s : State A) : List (Action A) → ℕ
  | [] => 0
  | act :: as => f s act + ((step s act).map fun s' => total f s' as).getD 0

/-- `b` is on the list in every state of the run. -/
def Waits (b : A) (s : State A) : List (Action A) → Prop
  | [] => b ∈ s.acceptList
  | act :: as => b ∈ s.acceptList ∧ ∀ s', step s act = some s' → Waits b s' as

/-- Those in front of `b` on the list. -/
abbrev ahead (b : A) (s : State A) : ℕ := s.acceptList.idxOf b

structure OrderInv (s : State A) : Prop where
  nodup : s.acceptList.Nodup
  fresh : ∀ a ∈ s.acceptList, (s.accept a).phase ≠ .fresh

variable {s s' : State A} {act : Action A} {a b : A}

theorem phase_setAccept {op : TAcceptOpState} (hop : op.phase ≠ .fresh)
    (h : (s.accept b).phase ≠ .fresh) : (Function.update s.accept a op b).phase ≠ .fresh := by
  by_cases hb : b = a
  · rw [hb, Function.update_self]
    exact hop
  · rwa [Function.update_of_ne hb]

/-- An accept that has been registered stays so. -/
theorem phase_kept (h : Step s act s') (hb : (s.accept b).phase ≠ .fresh) :
    (s'.accept b).phase ≠ .fresh := by
  cases h with
  | claim a err hp hf hpend | add a err hp hf hpend | listen a err hp hf hpend he
  | listenFailed a err hp hf hpend he =>
    exact phase_setAccept (by simp) hb
  | setup a hp hph => exact phase_setAccept (by simp) hb
  | connectionFailed | pend | pop | acceptLost | errorLost => exact hb
  | acceptWon a | acceptReset a | uvAccept a | errorWon a | errorReset a | setError a | setupDone a
  | apply a | stopReset a | setStopped a | requestStop a | callback a =>
    by_cases heq : b = a
    · rw [heq] at hb ⊢
      simpa using hb
    · simpa [Function.update_of_ne heq] using hb

theorem orderInv_step (hi : OrderInv s) (h : Step s act s') : OrderInv s' := by
  have hkept : ∀ b ∈ s.acceptList, (s'.accept b).phase ≠ .fresh :=
    fun b hb => phase_kept h (hi.fresh b hb)
  have hfront (a : A) (hf : (s.accept a).phase = .fresh) : (a :: s.acceptList).Nodup := by
    refine List.nodup_cons.mpr ⟨fun hmem => ?_, hi.nodup⟩
    exact hi.fresh a hmem hf
  cases h with
  | add a err hp hf hpend | listen a err hp hf hpend he | listenFailed a err hp hf hpend he =>
    refine ⟨hfront a hf, ?_⟩
    intro b hb
    rcases List.mem_cons.mp hb with rfl | hold
    · simp
    · exact hkept b hold
  | pop status a rest hp he hl =>
    have hnodup := hi.nodup
    rw [hl] at hnodup
    refine ⟨(List.nodup_cons.mp hnodup).2, ?_⟩
    intro b hb
    exact hkept b (by simp [hl, hb])
  | apply a hp hq =>
    refine ⟨hi.nodup.erase a, ?_⟩
    intro b hb
    exact hkept b (List.mem_of_mem_erase hb)
  | _ => exact ⟨hi.nodup, hkept⟩

theorem reachable_orderInv (h : system.Reachable s) : OrderInv s := by
  refine System.Reachable.invariant (I := OrderInv) ?_ (fun _ _ _ hi hs => orderInv_step hi (step_cases hs)) h
  intro t ht
  have hnil : t.acceptList = [] := by
    obtain ⟨backlog, rfl | ⟨bindErr, listenErr, rfl⟩⟩ := ht
    · rfl
    · simp only [bind]
      split <;> rfl
  exact ⟨by simp [hnil], by simp [hnil]⟩

/-! ### One step -/

theorem idxOf_erase_of_lt {l : List A} (h : l.idxOf a < l.idxOf b) (hb : b ∈ l) :
    (l.erase a).idxOf b + 1 = l.idxOf b := by
  induction l with
  | nil => cases hb
  | cons x l ih =>
    by_cases hx : x = a
    · have hne : x ≠ b := by
        intro heq
        simp [heq] at h
      rw [hx, List.erase_cons_head, List.idxOf_cons_ne l (hx ▸ hne)]
    · by_cases hxb : x = b
      · simp [hxb] at h
      · have hbl : b ∈ l := by simpa [Ne.symm hxb] using hb
        rw [List.idxOf_cons_ne l hx, List.idxOf_cons_ne l hxb] at h
        have hrec := ih (by omega) hbl
        rw [List.erase_cons_tail (by simpa using hx), List.idxOf_cons_ne _ hxb, List.idxOf_cons_ne l hxb]
        omega

theorem idxOf_erase_of_gt {l : List A} (h : l.idxOf b < l.idxOf a) : (l.erase a).idxOf b = l.idxOf b := by
  induction l with
  | nil => rfl
  | cons x l ih =>
    have hx : x ≠ a := by
      intro heq
      simp [heq] at h
    rw [List.erase_cons_tail (by simpa using hx)]
    by_cases hxb : x = b
    · simp [hxb]
    · rw [List.idxOf_cons_ne l hx, List.idxOf_cons_ne l hxb] at h
      rw [List.idxOf_cons_ne _ hxb, List.idxOf_cons_ne l hxb, ih (by omega)]

/-- While `b` waits, those that come are put in front of it, and those that go are
taken from there. -/
theorem ahead_step (hi : OrderInv s) (hb : b ∈ s.acceptList) (hb' : b ∈ s'.acceptList)
    (h : Step s act s') :
    ahead b s' + serves s act + withdraws b s act = ahead b s + joins s act := by
  have hne (a : A) (hf : (s.accept a).phase = .fresh) : a ≠ b := by
    intro heq
    exact hi.fresh b hb (heq ▸ hf)
  cases h with
  | claim a err hp hf hpend => simp [serves, withdraws, joins, hpend]
  | add a err hp hf hpend =>
    simp [serves, withdraws, joins, hpend, List.idxOf_cons_ne _ (hne a hf)]
  | listen a err hp hf hpend he | listenFailed a err hp hf hpend he =>
    have hnot : ¬0 < s.pendingConnections := by omega
    simp [serves, withdraws, joins, hnot, List.idxOf_cons_ne _ (hne a hf)]
  | connectionFailed status hp he => simp [serves, withdraws, joins, he]
  | pend status hp he hl => simp [hl] at hb
  | pop status a rest hp he hl =>
    have hnodup := hi.nodup
    rw [hl, List.nodup_cons] at hnodup
    have hab : a ≠ b := fun heq => hnodup.1 (heq ▸ hb')
    have hidx : ahead b s = rest.idxOf b + 1 := by
      rw [ahead, hl, List.idxOf_cons_ne rest hab]
    simp [serves, withdraws, joins, he, hl, hidx]
  | apply a hp hq =>
    simp only [serves, withdraws, joins, Nat.add_zero]
    by_cases hlt : s.acceptList.idxOf a < s.acceptList.idxOf b
    · rw [if_pos hlt]
      exact idxOf_erase_of_lt hlt hb
    · have hab : a ≠ b := by
        intro heq
        rw [heq] at hb'
        exact hi.nodup.not_mem_erase hb'
      have hgt : s.acceptList.idxOf b < s.acceptList.idxOf a := by
        have hinj := mt (List.idxOf_inj hb).mp hab.symm
        omega
      rw [if_neg hlt]
      exact idxOf_erase_of_gt hgt
  | _ => simp [serves, withdraws, joins]

/-! ### Runs -/

theorem total_cons (f : State A → Action A → ℕ) (as : List (Action A)) (h : step s act = some s') :
    total f s (act :: as) = f s act + total f s' as := by
  rw [total, h]
  rfl

theorem Waits.head {as : List (Action A)} (h : Waits b s as) : b ∈ s.acceptList := by
  cases as with
  | nil => exact h
  | cons act as => exact h.1

theorem Waits.cons {as : List (Action A)} (hb : b ∈ s.acceptList) (hs : step s act = some s')
    (h : Waits b s' as) : Waits b s (act :: as) := by
  refine ⟨hb, fun t ht => ?_⟩
  rw [hs] at ht
  exact Option.some.inj ht ▸ h

theorem ahead_exec {as : List (Action A)} (hr : system.Reachable s) (h : system.exec s as = some s')
    (hw : Waits b s as) :
    ahead b s' + total serves s as + total (withdraws b) s as = ahead b s + total joins s as := by
  induction as generalizing s with
  | nil =>
    rw [Option.some.inj h]
    rfl
  | cons act as ih =>
    obtain ⟨t, ht, hrest⟩ := Option.bind_eq_some_iff.mp h
    have htail := ih (hr.step act ht) hrest (hw.2 t ht)
    have hstep := ahead_step (reachable_orderInv hr) hw.1 (hw.2 t ht).head (step_cases ht)
    rw [total_cons _ _ ht, total_cons _ _ ht, total_cons _ _ ht]
    omega

/-- Service order: an accept that waits is given the next connection just when as
many others have been served or withdrawn before it as were in front of it or came
later. -/
theorem served_iff {as : List (Action A)} {status : Int} {t : State A} (hr : system.Reachable s)
    (h : system.exec s as = some s') (hw : Waits b s as) (hb : b ∈ s'.acceptList)
    (hs : step s' (.connection status) = some t) (hok : isError status = false) :
    t.pc = .accept b ↔
      total serves s as + total (withdraws b) s as = ahead b s + total joins s as := by
  have hcount := ahead_exec hr h hw
  have hpc : t.pc = .accept b ↔ ahead b s' = 0 := by
    cases step_cases hs with
    | connectionFailed status hp he => simp [he] at hok
    | pend status hp he hl => simp [hl] at hb
    | pop status a rest hp he hl =>
      simp only [ahead, hl, Pc.accept.injEq]
      constructor
      · intro heq
        simp [heq]
      · intro hzero
        by_contra hne
        rw [List.idxOf_cons_ne rest hne] at hzero
        omega
  rw [hpc]
  omega

/-- The accept `false` waits on a listener that is bound. -/
def oneWaiting : State Bool :=
  registerAccept ((bind (constructUnbound 1) 0 0).1.setAccept false { phase := .registered }) false 0

/-- The accept `true` comes later and is served first. -/
def laterServed : List (Action Bool) := [.register true 0, .connection 0, .loop, .loop, .uvAccept 0]

theorem served_iff_later : ∃ s t, system.exec oneWaiting laterServed = some s ∧
    step s (.connection 0) = some t ∧ t.pc = .accept false ∧ (t.pc = .accept false ↔
      total serves oneWaiting laterServed + total (withdraws false) oneWaiting laterServed =
        ahead false oneWaiting + total joins oneWaiting laterServed) := by
  have hreach : system.Reachable oneWaiting :=
    System.Reachable.step (.initial ⟨1, Or.inr ⟨0, 0, rfl⟩⟩) (.register false 0) rfl
  have hrun : ((system.exec oneWaiting laterServed).bind fun s =>
      (step s (.connection 0)).map fun t => (s.acceptList, t.pc)) = some ([false], .accept false) := by decide
  obtain ⟨s, hs, hnext⟩ := Option.bind_eq_some_iff.mp hrun
  obtain ⟨t, ht, hout⟩ := Option.map_eq_some_iff.mp hnext
  obtain ⟨hlist, hpc⟩ := Prod.mk.inj hout
  have hwaits : Waits false oneWaiting laterServed := by
    refine .cons (by decide) rfl (.cons (by decide) rfl (.cons (by decide) rfl ?_))
    exact .cons (by decide) rfl (.cons (by decide) rfl List.mem_cons_self)
  exact ⟨s, t, hs, ht, hpc, served_iff hreach hs hwaits (by simp [hlist]) ht rfl⟩

end UvExec.TcpListener
