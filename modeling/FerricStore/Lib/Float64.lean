import FerricStore.Lib.Bytes

/-!
# Binary64 numbers

A double is its 64 bits: a sign, an 11-bit exponent and a 52-bit fraction. Every finite double is a
whole multiple of the smallest subnormal, `2 ^ -1074`, so `units` is its exact magnitude as a
natural number; the infinities get the magnitude that follows the largest finite one. Comparisons
are comparisons of `value`.
-/

namespace FerricStore

/-- A binary64 number. -/
structure Float64 where
  bits : UInt64
  deriving DecidableEq, Repr

namespace Float64

variable (x : Float64)

/-- The bits below the sign. -/
def magnitude : Nat := x.bits.toNat % 2 ^ 63

/-- Whether the sign bit is set. -/
def negative : Bool := decide (2 ^ 63 ≤ x.bits.toNat)

/-- The magnitude bits of an infinity. -/
def infinityMagnitude : Nat := 2047 * 2 ^ 52

/-- Not a number. -/
def isNan : Bool := decide (infinityMagnitude < x.magnitude)

/-- What magnitude bits stand for, in units of the smallest subnormal. -/
def units (magnitude : Nat) : Nat :=
  if magnitude < 2 ^ 52 then magnitude
  else (2 ^ 52 + magnitude % 2 ^ 52) * 2 ^ (magnitude / 2 ^ 52 - 1)

/-- The value of a number, in units of the smallest subnormal. -/
def value : Int :=
  if x.negative then -(units x.magnitude : Int) else (units x.magnitude : Int)

/-- Equality as IEEE has it: `-0 = 0`, and a NaN is equal to nothing. -/
def eq (x y : Float64) : Bool := !x.isNan && !y.isNan && decide (x.value = y.value)

/-- `x > y` as IEEE has it. -/
def gt (x y : Float64) : Bool := !x.isNan && !y.isNan && decide (y.value < x.value)

/-- The place of a number in the total order of all bit patterns: negative ones downwards, then
positive ones upwards. -/
def totalKey : Nat :=
  if x.negative then 2 ^ 64 - 1 - x.bits.toNat else 2 ^ 63 + x.bits.toNat

/-- The number with the given sign and magnitude bits. -/
def ofParts (negative : Bool) (magnitude : Nat) : Float64 :=
  ⟨UInt64.ofNat ((if negative then 2 ^ 63 else 0) + magnitude)⟩

/-- Zero. -/
def zero : Float64 := ⟨0⟩

/-- The magnitude bits are ordered as what they stand for. -/
theorem units_strictMono : StrictMono units := by
  intro a b hab
  unfold units
  by_cases hb : b < 2 ^ 52
  · rw [if_pos (by omega), if_pos hb]
    exact hab
  · rw [if_neg hb]
    by_cases ha : a < 2 ^ 52
    · rw [if_pos ha]
      calc a < 2 ^ 52 * 1 := by omega
        _ ≤ (2 ^ 52 + b % 2 ^ 52) * 2 ^ (b / 2 ^ 52 - 1) :=
            Nat.mul_le_mul (Nat.le_add_right _ _) Nat.one_le_two_pow
    · rw [if_neg ha]
      rcases Nat.lt_or_ge (a / 2 ^ 52) (b / 2 ^ 52) with hexp | hexp
      · -- a larger exponent: the significand at least doubles
        have hpow : 2 ^ (a / 2 ^ 52 - 1) * 2 ≤ 2 ^ (b / 2 ^ 52 - 1) := by
          rw [← Nat.pow_succ]
          exact Nat.pow_le_pow_right (by decide) (by omega)
        calc (2 ^ 52 + a % 2 ^ 52) * 2 ^ (a / 2 ^ 52 - 1) < (2 ^ 52 * 2) * 2 ^ (a / 2 ^ 52 - 1) :=
              Nat.mul_lt_mul_of_pos_right (by omega) (Nat.two_pow_pos _)
          _ = 2 ^ 52 * (2 ^ (a / 2 ^ 52 - 1) * 2) := by ring
          _ ≤ (2 ^ 52 + b % 2 ^ 52) * 2 ^ (b / 2 ^ 52 - 1) :=
              Nat.mul_le_mul (Nat.le_add_right _ _) hpow
      · have heq : a / 2 ^ 52 = b / 2 ^ 52 := le_antisymm (Nat.div_le_div_right hab.le) hexp
        rw [heq]
        refine Nat.mul_lt_mul_of_pos_right ?_ (Nat.two_pow_pos _)
        omega

/-- The sign bit and the magnitude make up the bits. -/
theorem bits_eq : x.bits.toNat = (if x.negative then 2 ^ 63 else 0) + x.magnitude := by
  have hlt := x.bits.toNat_lt
  unfold negative magnitude
  by_cases h : 2 ^ 63 ≤ x.bits.toNat
  · rw [decide_eq_true h, if_pos rfl]
    omega
  · rw [decide_eq_false h]
    simp
    omega

end Float64

end FerricStore
