import UvExec.Lib.IntegerType
import UvExec.Algorithms.EventOpState

/-! # When a timer is due (algorithms/after.hpp)

The duration or the time point that the user gives becomes a number of
milliseconds, which is clamped at 0 and handed to the operation as unsigned. -/

namespace UvExec.EventOp
open Lib

/-- A `std::chrono::duration` that converts to milliseconds without a cast: its
representation is integral, and its period is a multiple of a millisecond. -/
structure Duration where
  rep : IntegerType
  period : ℕ
  count : Int
  period_pos : 0 < period
  period_lt : period < 2 ^ 63
  count_holds : rep.Holds count
  deriving Repr

namespace Duration

/-- The milliseconds that the duration says. -/
def exact (d : Duration) : Int := d.count * d.period

/-- `std::common_type` of the representation, the one of milliseconds, and
`std::intmax_t`, which are both of 64 bits. -/
def common (rep : IntegerType) : IntegerType := if rep.bits < 64 then .int64 else rep

/-- The conversion to `std::chrono::milliseconds`. -/
def toMilliseconds (d : Duration) : Option Int :=
  if d.period = 1 then some (IntegerType.int64.cast d.count)
  else
    ((common d.rep).mul ((common d.rep).cast d.count) ((common d.rep).cast d.period)).map
      IntegerType.int64.cast

/-- The `Timeout` of the sender, of which the operation gets the count. -/
def timeout (d : Duration) : Option UInt64 :=
  d.toMilliseconds.map fun ms => UInt64.ofNat (max ms 0).toNat

end Duration

/-! ### The four customisations -/

inductive Customisation where
  | scheduleAfter
  | scheduleAt
  | after
  | at
  deriving DecidableEq, Repr

def Customisation.type : Customisation → ETimerType
  | .scheduleAfter | .after => .after
  | .scheduleAt | .at => .at

/-- The operation of the sender that `tag_invoke` makes; a time point is its time
since the epoch. -/
def Customisation.connect (d : Duration) : Customisation → Option OpState
  | .scheduleAfter => d.timeout.map (afterScheduleOpState .after)
  | .scheduleAt => d.timeout.map (afterScheduleOpState .at)
  | .after => d.timeout.map (afterOpState .after)
  | .at => d.timeout.map (afterOpState .at)

/-- libuv's time is unsigned, and a timeout that leads beyond it saturates. -/
def saturate (n : ℕ) : ℕ := min n (2 ^ 64 - 1)

/-- The time at which `uv_timer_start` makes the timer due. -/
def StartCall.due (now : UInt64) : StartCall → Option ℕ
  | .timerStart timeout => some (saturate (now.toNat + timeout.toNat))
  | .signalOnce _ => none

def Customisation.due (d : Duration) (now : UInt64) (c : Customisation) : Option ℕ :=
  (c.connect d).bind fun k => (k.event.start now).due now

/-- The time that the user asks for. -/
def Customisation.deadline (d : Duration) (now : UInt64) (c : Customisation) : ℕ :=
  match c.type with
  | .after => now.toNat + d.exact.toNat
  | .at => max now.toNat d.exact.toNat

/-- Nothing overflows or wraps on the way, and the timer is due at its deadline. -/
structure Exact (d : Duration) (now : UInt64) (c : Customisation) : Prop where
  converted : d.toMilliseconds = some d.exact
  timeout : ∃ t, d.timeout = some t ∧ (t.toNat : Int) = max d.exact 0
  armed : ∃ k t, c.connect d = some k ∧ k.event.start now = .timerStart t ∧
    now.toNat + t.toNat = c.deadline d now
  due : c.due d now = some (saturate (c.deadline d now))

/-- What two timers that are armed at one time of the loop are due to keep. -/
structure DeadlinesKept (now : UInt64) (d e : Duration) (c f : Customisation) : Prop where
  first : Exact d now c
  second : Exact e now f
  notBefore : ∀ n, c.due d now = some n → saturate (c.deadline d now) ≤ n
  ordered : c.deadline d now ≤ f.deadline e now → ∀ m n, c.due d now = some m →
    f.due e now = some n → m ≤ n
  agree : c.type = .after → f.type = .at → e.exact = now.toNat + d.exact →
    c.due d now = f.due e now

/-! ### The conversion -/

variable {d e : Duration} {now : UInt64} {c f : Customisation}

theorem common_cases (rep : IntegerType) :
    rep.bits < 64 ∧ Duration.common rep = .int64 ∨ 64 ≤ rep.bits ∧ Duration.common rep = rep := by
  unfold Duration.common
  split
  next h => exact Or.inl ⟨h, rfl⟩
  next h => exact Or.inr ⟨Nat.le_of_not_lt h, rfl⟩

theorem valueBits_le (t : IntegerType) : t.valueBits ≤ t.bits ∧ t.bits ≤ t.valueBits + 1 := by
  have hpos := t.bits_pos
  unfold IntegerType.valueBits
  split <;> omega

theorem count_holds_common (d : Duration) : (Duration.common d.rep).Holds d.count := by
  rcases common_cases d.rep with ⟨hlt, heq⟩ | ⟨-, heq⟩
  · rw [heq]
    refine d.count_holds.widen ?_ (Or.inl rfl)
    have hle := (valueBits_le d.rep).1
    have h63 : IntegerType.int64.valueBits = 63 := rfl
    omega
  · rw [heq]
    exact d.count_holds

/-- The common type holds what is not negative and less than `2 ^ 63`. -/
theorem holds_common_of_nonneg {rep : IntegerType} {n : Int} (h0 : 0 ≤ n) (h : IntegerType.int64.Holds n) :
    (Duration.common rep).Holds n := by
  rcases common_cases rep with ⟨-, heq⟩ | ⟨hle, heq⟩
  · rwa [heq]
  · rw [heq]
    refine h.widen ?_ (Or.inr h0)
    have hvalue := (valueBits_le rep).2
    have h63 : IntegerType.int64.valueBits = 63 := rfl
    omega

theorem period_holds_common (d : Duration) : (Duration.common d.rep).Holds d.period := by
  have hlt := d.period_lt
  exact holds_common_of_nonneg (by omega) (IntegerType.int64_holds.mpr ⟨by omega, by omega⟩)

theorem exact_holds_common (h : IntegerType.int64.Holds d.exact) :
    (Duration.common d.rep).Holds d.exact := by
  rcases common_cases d.rep with ⟨-, heq⟩ | ⟨hle, heq⟩
  · rwa [heq]
  · rw [heq]
    refine h.widen ?_ ?_
    · have hvalue := (valueBits_le d.rep).2
      have h63 : IntegerType.int64.valueBits = 63 := rfl
      omega
    · cases hs : d.rep.signed with
      | true => exact Or.inl rfl
      | false =>
        have h0 := ((IntegerType.holds_unsigned hs).mp d.count_holds).1
        exact Or.inr (Int.mul_nonneg h0 (by omega))

theorem toMilliseconds_eq_iff (d : Duration) :
    d.toMilliseconds = some d.exact ↔ IntegerType.int64.Holds d.exact := by
  unfold Duration.toMilliseconds
  split
  next h1 =>
    have hexact : d.exact = d.count := by simp [Duration.exact, h1]
    rw [hexact, Option.some.injEq, IntegerType.cast_eq_iff]
  next =>
    exact IntegerType.mul_cast_eq_iff (count_holds_common d) (period_holds_common d) exact_holds_common

/-! ### The timeout -/

theorem timeout_of_holds (h : IntegerType.int64.Holds d.exact) :
    ∃ t, d.timeout = some t ∧ (t.toNat : Int) = max d.exact 0 := by
  have hlt := (IntegerType.int64_holds.mp h).2
  have hsize : UInt64.size = 2 ^ 64 := rfl
  refine ⟨UInt64.ofNat (max d.exact 0).toNat, ?_, ?_⟩
  · rw [Duration.timeout, (toMilliseconds_eq_iff d).mpr h, Option.map_some]
  · rw [UInt64.toNat_ofNat_of_lt' (by omega)]
    omega

theorem connect_of_timeout {t : UInt64} (h : d.timeout = some t) :
    ∃ k, c.connect d = some k ∧ k.event = .timer c.type t := by
  cases c <;> exact ⟨_, by rw [Customisation.connect, h, Option.map_some], rfl⟩

theorem armed_of_timeout {t : UInt64} (ht : (t.toNat : Int) = max d.exact 0) :
    ∃ u, (Event.timer c.type t).start now = .timerStart u ∧ now.toNat + u.toNat = c.deadline d now := by
  cases htype : c.type with
  | after =>
    refine ⟨t, rfl, ?_⟩
    simp only [Customisation.deadline, htype]
    omega
  | «at» =>
    refine ⟨_, rfl, ?_⟩
    simp only [Customisation.deadline, htype]
    split
    next hgt =>
      have hlt : t.toNat < now.toNat := hgt
      have h0 : (0 : UInt64).toNat = 0 := rfl
      omega
    next hle =>
      have hle' : now.toNat ≤ t.toNat := Nat.le_of_not_lt hle
      rw [UInt64.toNat_sub_of_le t now hle']
      omega

theorem exact_iff (d : Duration) (now : UInt64) (c : Customisation) :
    Exact d now c ↔ IntegerType.int64.Holds d.exact := by
  constructor
  · exact fun h => (toMilliseconds_eq_iff d).mp h.converted
  · intro h
    obtain ⟨t, htime, ht⟩ := timeout_of_holds h
    obtain ⟨k, hk, hevent⟩ := connect_of_timeout (c := c) htime
    obtain ⟨u, hstart, hsum⟩ : ∃ u, (Event.timer c.type t).start now = .timerStart u ∧
        now.toNat + u.toNat = c.deadline d now := armed_of_timeout ht
    rw [← hevent] at hstart
    refine ⟨(toMilliseconds_eq_iff d).mpr h, ⟨t, htime, ht⟩, ⟨k, u, hk, hstart, hsum⟩, ?_⟩
    rw [Customisation.due, hk, Option.bind_some, hstart, StartCall.due, hsum]

theorem saturate_le {m n : ℕ} (h : m ≤ n) : saturate m ≤ saturate n := by
  unfold saturate
  omega

/-- Whatever the representations, the periods and the counts, the deadlines are kept
exactly when both are a signed number of milliseconds of 64 bits. -/
theorem deadlines_kept (now : UInt64) (d e : Duration) (c f : Customisation) :
    DeadlinesKept now d e c f ↔
      IntegerType.int64.Holds d.exact ∧ IntegerType.int64.Holds e.exact := by
  constructor
  · exact fun h => ⟨(exact_iff d now c).mp h.first, (exact_iff e now f).mp h.second⟩
  · rintro ⟨hd, he⟩
    have hc := (exact_iff d now c).mpr hd
    have hf := (exact_iff e now f).mpr he
    refine ⟨hc, hf, fun n hn => ?_, fun hle m n hm hn => ?_, fun hafter hat heq => ?_⟩
    · rw [hc.due] at hn
      exact Nat.le_of_eq (Option.some.inj hn)
    · rw [hc.due] at hm
      rw [hf.due] at hn
      obtain rfl := Option.some.inj hm
      obtain rfl := Option.some.inj hn
      exact saturate_le hle
    · rw [hc.due, hf.due]
      simp only [Customisation.deadline, hafter, hat, heq]
      congr 2
      omega

/-- An unsigned number of milliseconds from `2 ^ 63` on is due at once. -/
theorem due_at_once :
    let d : Duration := ⟨.uint64, 1, 2 ^ 63, by decide, by decide, by decide⟩
    Customisation.after.due d 5 = some 5 ∧ Customisation.after.deadline d 5 = 2 ^ 63 + 5 ∧
      ¬ DeadlinesKept 5 d d .after .after := by
  refine ⟨by decide, by decide, fun h => ?_⟩
  have hno := ((deadlines_kept _ _ _ _ _).mp h).1
  revert hno
  decide

end UvExec.EventOp
