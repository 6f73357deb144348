import FerricStore.Lib.Bytes
import FerricStore.Lib.OrderedCode

/-!
# Decimal numerals of a fixed width

A natural number in ASCII digits, and its numeral padded with zeros to a width. Padded numerals of
one width are ordered as the numbers are, and a numeral is read back to its number.
-/

namespace FerricStore.Decimal

open OrderedCode (Below)

/-- The ASCII digit of a number below ten. -/
def digit (d : Nat) : UInt8 := UInt8.ofNat (48 + d)

/-- The digits of a number, at most as many as the fuel. -/
def digits : Nat → Nat → Bytes
  | 0, _ => []
  | fuel + 1, n => if n < 10 then [digit n] else digits fuel (n / 10) ++ [digit (n % 10)]

def ofNat (n : Nat) : Bytes := digits (n + 1) n

def ofInt : Int → Bytes
  | .ofNat n => ofNat n
  | .negSucc n => 45 :: ofNat (n + 1)

def padLeading (width : Nat) (bytes : Bytes) : Bytes :=
  List.replicate (width - bytes.length) 48 ++ bytes

/-- The last digits of a number. -/
def fixed : Nat → Nat → Bytes
  | 0, _ => []
  | width + 1, n => fixed width (n / 10) ++ [digit (n % 10)]

def isDigit (b : UInt8) : Bool := 48 ≤ b.toNat && b.toNat ≤ 57

/-- The number of a list of digits. -/
def toNat (bytes : Bytes) : Nat :=
  bytes.foldl (fun n b => 10 * n + (b.toNat - 48)) 0

@[simp] theorem length_fixed (width n : Nat) : (fixed width n).length = width := by
  induction width generalizing n with
  | zero => rfl
  | succ width ih => rw [fixed, List.length_append, ih, List.length_singleton]

theorem toNat_digit {d : Nat} (h : d < 10) : (digit d).toNat = 48 + d := by
  rw [digit, UInt8.toNat_ofNat_of_lt' (show 48 + d < 256 by omega)]

theorem isDigit_digit {d : Nat} (h : d < 10) : isDigit (digit d) = true := by
  rw [isDigit, toNat_digit h, Bool.and_eq_true, decide_eq_true_iff, decide_eq_true_iff]
  omega

theorem fixed_zero (width : Nat) : fixed width 0 = List.replicate width 48 := by
  induction width with
  | zero => rfl
  | succ width ih =>
    rw [fixed, Nat.zero_div, ih, List.replicate_succ']
    rfl

/-- A numeral that is padded to a width which holds it has the last digits of its number. -/
theorem padLeading_digits (width : Nat) : ∀ {fuel n : Nat}, n < 10 ^ (width + 1) →
    n < 10 ^ (fuel + 1) → padLeading (width + 1) (digits (fuel + 1) n) = fixed (width + 1) n := by
  induction width with
  | zero =>
    intro fuel n hn _
    rw [digits, if_pos (by simpa using hn), fixed, fixed, Nat.mod_eq_of_lt (by simpa using hn)]
    rfl
  | succ width ih =>
    intro fuel n hn hfuel
    by_cases hsmall : n < 10
    · rw [digits, if_pos hsmall, fixed, Nat.div_eq_of_lt hsmall, fixed_zero,
        Nat.mod_eq_of_lt hsmall]
      rfl
    · cases fuel with
      | zero => exact absurd (by simpa using hfuel) hsmall
      | succ fuel =>
        have hdiv : n / 10 < 10 ^ (width + 1) := by
          rw [Nat.div_lt_iff_lt_mul (by decide), ← pow_succ]
          exact hn
        have hdivFuel : n / 10 < 10 ^ (fuel + 1) := by
          rw [Nat.div_lt_iff_lt_mul (by decide), ← pow_succ]
          exact hfuel
        rw [digits, if_neg hsmall, fixed, ← ih hdiv hdivFuel, padLeading, padLeading,
          List.length_append, List.length_singleton, Nat.add_sub_add_right, List.append_assoc]

theorem padLeading_ofNat {width n : Nat} (h : n < 10 ^ (width + 1)) :
    padLeading (width + 1) (ofNat n) = fixed (width + 1) n :=
  padLeading_digits width h (n.lt_succ_self.trans (Nat.lt_pow_self (by decide)))

/-- Numerals of one width are ordered as their numbers. -/
theorem fixed_below {width : Nat} : ∀ {n m : Nat}, n < m → m < 10 ^ width →
    Below (fixed width n) (fixed width m) := by
  induction width with
  | zero =>
    intro n m hlt hm
    omega
  | succ width ih =>
    intro n m hlt hm
    rw [fixed, fixed]
    rcases Nat.lt_or_ge (n / 10) (m / 10) with hdiv | hdiv
    · refine (ih hdiv ?_).append _ _
      rw [Nat.div_lt_iff_lt_mul (by decide), ← pow_succ]
      exact hm
    · have heq : n / 10 = m / 10 := le_antisymm (Nat.div_le_div_right hlt.le) hdiv
      rw [heq]
      refine Below.prepend _ (OrderedCode.below_cons ?_ _ _)
      rw [UInt8.lt_iff_toNat_lt, toNat_digit (Nat.mod_lt _ (by decide)),
        toNat_digit (Nat.mod_lt _ (by decide))]
      omega

theorem all_isDigit_fixed (width n : Nat) : (fixed width n).all isDigit = true := by
  induction width generalizing n with
  | zero => rfl
  | succ width ih =>
    rw [fixed, List.all_append, ih, List.all_cons, isDigit_digit (Nat.mod_lt _ (by decide))]
    rfl

/-- A numeral is read back. -/
theorem toNat_fixed {width : Nat} : ∀ {n : Nat}, n < 10 ^ width → toNat (fixed width n) = n := by
  induction width with
  | zero =>
    intro n hn
    rw [Nat.lt_one_iff.mp hn]
    rfl
  | succ width ih =>
    intro n hn
    have hdiv : n / 10 < 10 ^ width := by
      rw [Nat.div_lt_iff_lt_mul (by decide), ← pow_succ]
      exact hn
    have hread := ih hdiv
    rw [toNat] at hread
    rw [fixed, toNat, List.foldl_append, hread]
    show 10 * (n / 10) + ((digit (n % 10)).toNat - 48) = n
    rw [toNat_digit (Nat.mod_lt _ (by decide))]
    omega

end FerricStore.Decimal
