import Mathlib.Data.Int.Cast.Lemmas

/-! # Integer types of a fixed width

Values are integers. A conversion to a type wraps; signed arithmetic that leaves
its type has no result, unsigned arithmetic wraps. -/

namespace UvExec.Lib

structure IntegerType where
  signed : Bool
  bits : ℕ
  bits_pos : 0 < bits
  deriving DecidableEq, Repr

namespace IntegerType

def int64 : IntegerType := ⟨true, 64, by decide⟩

def uint64 : IntegerType := ⟨false, 64, by decide⟩

/-- The bits that are not the sign. -/
def valueBits (t : IntegerType) : ℕ := if t.signed then t.bits - 1 else t.bits

def Holds (t : IntegerType) (n : Int) : Prop :=
  (if t.signed then -2 ^ t.valueBits ≤ n else 0 ≤ n) ∧ n < 2 ^ t.valueBits

instance (t : IntegerType) (n : Int) : Decidable (t.Holds n) :=
  inferInstanceAs (Decidable ((if t.signed then _ else _) ∧ _))

def cast (t : IntegerType) (n : Int) : Int :=
  if t.signed then n.bmod (2 ^ t.bits) else n % 2 ^ t.bits

def mul (t : IntegerType) (a b : Int) : Option Int :=
  if t.signed then if t.Holds (a * b) then some (a * b) else none else some (t.cast (a * b))

variable {t u : IntegerType} {a b n : Int}

theorem holds_signed (h : t.signed = true) :
    t.Holds n ↔ -2 ^ (t.bits - 1) ≤ n ∧ n < 2 ^ (t.bits - 1) := by
  simp [Holds, valueBits, h]

theorem holds_unsigned (h : t.signed = false) : t.Holds n ↔ 0 ≤ n ∧ n < 2 ^ t.bits := by
  simp [Holds, valueBits, h]

theorem int64_holds : int64.Holds n ↔ -2 ^ 63 ≤ n ∧ n < 2 ^ 63 := holds_signed rfl

/-- A type holds what one with fewer bits holds, if it is signed or that is not
negative. -/
theorem Holds.widen (h : t.Holds n) (hle : t.valueBits ≤ u.valueBits)
    (hneg : u.signed = true ∨ 0 ≤ n) : u.Holds n := by
  have hnat : 2 ^ t.valueBits ≤ 2 ^ u.valueBits := Nat.pow_le_pow_right (by decide) hle
  have hpow : (2 : Int) ^ t.valueBits ≤ 2 ^ u.valueBits := by exact_mod_cast hnat
  obtain ⟨hlow, hhigh⟩ := h
  have hlow' : -2 ^ t.valueBits ≤ n := by
    split at hlow
    · exact hlow
    · have hpos : (0 : Int) < 2 ^ t.valueBits := Int.pow_pos (by decide)
      omega
  refine ⟨?_, by omega⟩
  split
  · omega
  next hu => exact hneg.resolve_left hu

theorem pow_bits (t : IntegerType) : (2 ^ t.bits : ℕ) = 2 * 2 ^ (t.bits - 1) := by
  have hpos := t.bits_pos
  rw [← Nat.pow_succ', show (t.bits - 1).succ = t.bits by omega]

theorem cast_holds (t : IntegerType) (n : Int) : t.Holds (t.cast n) := by
  cases hs : t.signed with
  | true =>
    have hpow := t.pow_bits
    have hpos : 0 < 2 ^ t.bits := Nat.two_pow_pos t.bits
    have hle := Int.le_bmod (x := n) hpos
    have hlt := Int.bmod_lt (x := n) hpos
    rw [holds_signed hs, cast, if_pos hs]
    have hhalf : ((2 ^ (t.bits - 1) : ℕ) : Int) = 2 ^ (t.bits - 1) := by simp
    omega
  | false =>
    rw [holds_unsigned hs, cast, if_neg (by simp [hs])]
    have hpos : (0 : Int) < 2 ^ t.bits := Int.pow_pos (by decide)
    exact ⟨Int.emod_nonneg n (Int.ne_of_gt hpos), Int.emod_lt_of_pos n hpos⟩

theorem cast_of_holds (h : t.Holds n) : t.cast n = n := by
  cases hs : t.signed with
  | true =>
    rw [holds_signed hs] at h
    have hpow := t.pow_bits
    have hhalf : ((2 ^ (t.bits - 1) : ℕ) : Int) = 2 ^ (t.bits - 1) := by simp
    rw [cast, if_pos hs]
    exact Int.bmod_eq_of_le (by omega) (by omega)
  | false =>
    rw [holds_unsigned hs] at h
    rw [cast, if_neg (by simp [hs])]
    exact Int.emod_eq_of_lt h.1 h.2

/-- A conversion keeps just the values of its type. -/
theorem cast_eq_iff : t.cast n = n ↔ t.Holds n :=
  ⟨fun h => h ▸ t.cast_holds n, cast_of_holds⟩

theorem mul_of_holds (h : t.Holds (a * b)) : t.mul a b = some (a * b) := by
  simp [mul, h, cast_of_holds h]

/-- A product that is computed in one type and converted to another is exact just
when it is a value of the second, of which the first has all that can come up. -/
theorem mul_cast_eq_iff (ha : t.Holds a) (hb : t.Holds b) (hsub : u.Holds (a * b) → t.Holds (a * b)) :
    (t.mul (t.cast a) (t.cast b)).map u.cast = some (a * b) ↔ u.Holds (a * b) := by
  rw [cast_of_holds ha, cast_of_holds hb]
  constructor
  · intro h
    obtain ⟨x, -, hx⟩ := Option.map_eq_some_iff.mp h
    exact hx ▸ u.cast_holds x
  · intro h
    rw [mul_of_holds (hsub h), Option.map_some, cast_of_holds h]

end IntegerType
end UvExec.Lib
