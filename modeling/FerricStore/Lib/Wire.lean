import FerricStore.Lib.Bytes
import Mathlib.Data.Nat.Bitwise

/-!
# Varints and flag words

A varint has seven bits of a number in each byte, the lowest first, and the top bit of a byte says
that another one follows. A reader keeps the bits so far and the position of the next ones, and gives
up at a limit of bits. A flag word says which optional fields of a message follow.
-/

namespace FerricStore

/-- The varint of a number. -/
def varint (n : Nat) : Bytes :=
  if n < 128 then [UInt8.ofNat n] else UInt8.ofNat (n % 128 + 128) :: varint (n / 128)

/-- Reads a varint with the bits so far and the position of the next ones. -/
def readVarint (limit : Nat) : Bytes → Nat → Nat → Option (Nat × Bytes)
  | [], _, _ => none
  | byte :: rest, acc, shift =>
    if shift < limit then
      let value := acc ||| ((byte.toNat &&& 0x7F) <<< shift)
      if byte &&& 0x80 = 0 then some (value, rest) else readVarint limit rest value (shift + 7)
    else none

section Bits

theorem and_low (n : Nat) : n &&& 0x7F = n % 128 := Nat.and_two_pow_sub_one_eq_mod n 7

theorem or_top {n : Nat} (h : n < 128) : n ||| 0x80 = n + 128 := by
  have hor : 2 ^ 7 * 1 + n = 2 ^ 7 * 1 ||| n := Nat.two_pow_add_eq_or_of_lt h 1
  rw [Nat.or_comm, Nat.add_comm]
  exact hor.symm

/-- A byte has its top bit when it is at least 128. -/
theorem and_top (byte : UInt8) : byte &&& 0x80 = 0 ↔ byte.toNat < 128 := by
  have hand : byte.toNat &&& 128 = (byte.toNat.testBit 7).toNat * 128 :=
    Nat.and_two_pow byte.toNat 7
  have hlt := byte.toNat_lt
  rw [← UInt8.toNat_inj, UInt8.toNat_and]
  show byte.toNat &&& 128 = 0 ↔ _
  rw [hand, Nat.testBit_eq_decide_div_mod_eq]
  by_cases htop : byte.toNat / 2 ^ 7 % 2 = 1
  · rw [decide_eq_true htop]
    exact ⟨nofun, fun h => by omega⟩
  · rw [decide_eq_false htop]
    exact ⟨fun _ => by omega, fun _ => rfl⟩

theorem or_shiftLeft {acc shift : Nat} (h : acc < 2 ^ shift) (n : Nat) :
    acc ||| (n <<< shift) = acc + n * 2 ^ shift := by
  rw [Nat.or_comm, ← Nat.shiftLeft_add_eq_or_of_lt h, Nat.shiftLeft_eq, Nat.add_comm]

end Bits

/-- Reading a varint gives the number back, on top of the bits so far. -/
theorem readVarint_varint {limit : Nat} (n : Nat) {acc shift : Nat} (rest : Bytes)
    (hacc : acc < 2 ^ shift) (hshift : shift < limit) (hlimit : n * 2 ^ shift < 2 ^ limit) :
    readVarint limit (varint n ++ rest) acc shift = some (acc + n * 2 ^ shift, rest) := by
  induction n using Nat.strongRecOn generalizing acc shift with
  | ind n ih =>
    rw [varint]
    by_cases hlt : n < 128
    · have hbyte : (UInt8.ofNat n).toNat = n := by
        rw [UInt8.toNat_ofNat']
        omega
      rw [if_pos hlt, List.singleton_append, readVarint, if_pos hshift]
      simp [and_top, hbyte, hlt, and_low, or_shiftLeft hacc]
    · have hbyte : (UInt8.ofNat (n % 128 + 128)).toNat = n % 128 + 128 := by
        rw [UInt8.toNat_ofNat']
        omega
      have hlow : (n % 128 + 128) % 128 = n % 128 := by omega
      have hpow : 2 ^ (shift + 7) = 128 * 2 ^ shift := by rw [Nat.pow_add, Nat.mul_comm]
      -- the bits of this byte are below the position of the next ones
      have hnext : acc + n % 128 * 2 ^ shift < 2 ^ (shift + 7) := by
        have hle : (n % 128 + 1) * 2 ^ shift ≤ 128 * 2 ^ shift :=
          Nat.mul_le_mul_right _ (Nat.mod_lt n (by decide))
        rw [Nat.add_mul] at hle
        omega
      have hsplit : n % 128 * 2 ^ shift + n / 128 * 2 ^ (shift + 7) = n * 2 ^ shift := by
        rw [hpow, ← Nat.mul_assoc, ← Nat.add_mul, Nat.mod_add_div']
      have hmore : shift + 7 < limit := by
        refine (Nat.pow_lt_pow_iff_right (a := 2) (by decide)).mp (lt_of_le_of_lt ?_ hlimit)
        rw [hpow]
        exact Nat.mul_le_mul_right _ (by omega)
      rw [if_neg hlt, List.cons_append, readVarint, if_pos hshift]
      simp only [and_top, hbyte, and_low, hlow, or_shiftLeft hacc]
      rw [if_neg (by omega), ih (n / 128) (Nat.div_lt_self (by omega) (by decide)) hnext hmore
        (by omega), Nat.add_assoc, hsplit]

theorem bind_eq_some {α β : Type} {read : Option α} {next : α → Option β} {a : α} {b : β}
    (h : read = some a) (hnext : next a = some b) : (read >>= next) = some b := by
  rw [h]
  exact hnext

/-! ## Flag words -/

variable (flags position : Nat)

/-- A flag of a flag word. -/
def hasFlag : Bool := decide (flags &&& (1 <<< position) ≠ 0)

/-- Sets a flag under a condition. -/
def putFlag (condition : Bool) : Nat :=
  if condition then flags ||| (1 <<< position) else flags

theorem hasFlag_eq_testBit : hasFlag flags position = flags.testBit position := by
  rw [hasFlag, Nat.one_shiftLeft, Nat.and_two_pow]
  cases flags.testBit position <;> simp

@[simp] theorem hasFlag_zero (position : Nat) : hasFlag 0 position = false := by
  rw [hasFlag_eq_testBit, Nat.zero_testBit]

/-- The flags after one was set. -/
@[simp] theorem hasFlag_putFlag (flags position other : Nat) (condition : Bool) :
    hasFlag (putFlag flags position condition) other =
      (hasFlag flags other || (decide (position = other) && condition)) := by
  rw [putFlag]
  cases condition with
  | false => simp
  | true =>
    rw [if_pos rfl, hasFlag_eq_testBit, hasFlag_eq_testBit, Nat.testBit_or, Nat.one_shiftLeft,
      Nat.testBit_two_pow, Bool.and_true]

/-- Setting one of the low flags leaves a small word small. -/
theorem putFlag_lt {flags position width : Nat} {condition : Bool} (h : flags < 2 ^ width)
    (hposition : position < width) : putFlag flags position condition < 2 ^ width := by
  rw [putFlag]
  split
  · refine Nat.or_lt_two_pow h ?_
    rw [Nat.one_shiftLeft]
    exact Nat.pow_lt_pow_right (by decide) hposition
  · exact h

end FerricStore
