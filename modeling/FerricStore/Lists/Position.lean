import FerricStore.Lib.Decimal

/-!
# Positions of list elements

An element of a list is stored under its position, an integer that is encoded so that the byte order
of the keys is the order of the positions: a letter for the sign, twenty digits, and a fraction that
integer positions leave constant. A negative position is encoded by its complement.
-/

namespace FerricStore.Lists

open Decimal OrderedCode

def positionStep : Int := 1000000000

/-- The complement of a negative position. -/
def positionLimit : Nat := 99999999999999999999

/-- `encode_position` of an integer. -/
def encodePosition (position : Int) : Bytes :=
  if 0 ≤ position then
    80 :: (padLeading 20 (ofInt position) ++ 46 :: List.replicate 17 48)
  else
    78 :: (padLeading 20 (ofInt (positionLimit - position.natAbs)) ++ 46 :: List.replicate 17 57)

/-- `decode_position_safe`; a fraction other than that of an integer is not decoded here. -/
def decodePosition (encoded : Bytes) : Option Int :=
  match encoded with
  | [] => none
  | sign :: rest =>
    if rest.length = 38 ∧ (rest.drop 20).head? = some 46 ∧ (rest.take 20).all isDigit ∧
        (rest.drop 21).all isDigit then
      if sign = 80 ∧ toNat (rest.drop 21) = 0 then some (toNat (rest.take 20))
      else if sign = 78 ∧ toNat (rest.drop 21) = 99999999999999999 then
        some (-((positionLimit : Int) - toNat (rest.take 20)))
      else none
    else none

/-- A position that fits into twenty digits. -/
def Encodable (position : Int) : Prop := position.natAbs ≤ positionLimit

/-- The digits of an encoded position. -/
def positionDigits (position : Int) : Nat :=
  if 0 ≤ position then position.natAbs else positionLimit - position.natAbs

variable {position : Int}

theorem positionDigits_lt (h : Encodable position) : positionDigits position < 10 ^ 20 := by
  unfold Encodable positionLimit at h
  unfold positionDigits positionLimit
  split_ifs <;> omega

/-- An encodable position is a letter, twenty digits and a fraction. -/
theorem encodePosition_eq (h : Encodable position) : encodePosition position =
      (if 0 ≤ position then 80 else 78) :: (fixed 20 (positionDigits position) ++
        46 :: List.replicate 17 (if 0 ≤ position then 48 else 57)) := by
  have hlt := positionDigits_lt h
  unfold encodePosition
  by_cases hsign : 0 ≤ position
  · obtain ⟨n, rfl⟩ := Int.eq_ofNat_of_zero_le hsign
    rw [positionDigits, if_pos hsign, Int.natAbs_natCast] at hlt ⊢
    rw [if_pos hsign, if_pos hsign, if_pos hsign]
    show 80 :: (padLeading 20 (ofNat n) ++ _) = _
    rw [padLeading_ofNat hlt]
  · rw [positionDigits, if_neg hsign] at hlt ⊢
    have hcomplement : (positionLimit : Int) - position.natAbs =
        ((positionLimit - position.natAbs : Nat) : Int) := (Int.ofNat_sub h).symm
    rw [if_neg hsign, if_neg hsign, if_neg hsign, hcomplement]
    show 78 :: (padLeading 20 (ofNat _) ++ _) = _
    rw [padLeading_ofNat hlt]

variable {p q : Int}

/-- The order of the keys is the order of the positions. -/
theorem encodePosition_lt (hp : Encodable p) (hq : Encodable q) (h : p < q) :
    encodePosition p < encodePosition q := by
  rw [encodePosition_eq hp, encodePosition_eq hq]
  have hdigits := positionDigits_lt hq
  unfold Encodable at hp hq
  by_cases hsame : 0 ≤ p ↔ 0 ≤ q
  · have hlt : positionDigits p < positionDigits q := by
      unfold positionDigits
      split_ifs <;> omega
    simp only [hsame]
    generalize (if 0 ≤ q then 80 else 78 : UInt8) = letter
    generalize (46 :: List.replicate 17 (if 0 ≤ q then 48 else 57) : Bytes) = fraction
    have hbelow := ((fixed_below hlt hdigits).append fraction fraction).prepend [letter]
    rw [List.singleton_append, List.singleton_append] at hbelow
    exact hbelow.lt
  · have hneg : ¬ 0 ≤ p := by omega
    have hpos : 0 ≤ q := by omega
    rw [if_neg hneg, if_pos hpos]
    exact (below_cons (by decide) _ _).lt

theorem strictMonoOn_encodePosition : StrictMonoOn encodePosition {position | Encodable position} :=
  fun _ hp _ hq => encodePosition_lt hp hq

theorem encodePosition_lt_iff (hp : Encodable p) (hq : Encodable q) :
    encodePosition p < encodePosition q ↔ p < q :=
  strictMonoOn_encodePosition.lt_iff_lt hp hq

theorem encodePosition_inj (hp : Encodable p) (hq : Encodable q) :
    encodePosition p = encodePosition q ↔ p = q :=
  strictMonoOn_encodePosition.injOn.eq_iff hp hq

/-- An encoded position is decoded to itself. -/
theorem decodePosition_encodePosition (h : Encodable position) :
    decodePosition (encodePosition position) = some position := by
  rw [encodePosition_eq h]
  have htake : ∀ tail : Bytes, (fixed 20 (positionDigits position) ++ 46 :: tail).take 20 =
      fixed 20 (positionDigits position) :=
    fun tail => List.take_left' (length_fixed 20 _)
  have hdrop : ∀ tail : Bytes, (fixed 20 (positionDigits position) ++ 46 :: tail).drop 20 =
      46 :: tail :=
    fun tail => List.drop_left' (length_fixed 20 _)
  have hfraction : ∀ tail : Bytes, (fixed 20 (positionDigits position) ++ 46 :: tail).drop 21 =
      tail := by
    intro tail
    rw [show 21 = 20 + 1 from rfl, ← List.drop_drop, hdrop]
    rfl
  have hlength : ∀ b : UInt8, (fixed 20 (positionDigits position) ++
      46 :: List.replicate 17 b).length = 38 := by
    intro b
    rw [List.length_append, length_fixed, List.length_cons, List.length_replicate]
  unfold decodePosition
  dsimp only
  have hread := toNat_fixed (positionDigits_lt h)
  by_cases hsign : 0 ≤ position
  · rw [if_pos ⟨hlength _, by rw [hdrop]; rfl, by rw [htake]; exact all_isDigit_fixed _ _,
      by rw [hfraction, if_pos hsign]; decide⟩]
    rw [if_pos ⟨if_pos hsign, by rw [hfraction, if_pos hsign]; decide⟩, htake, hread,
      positionDigits, if_pos hsign, Int.natAbs_of_nonneg hsign]
  · rw [if_pos ⟨hlength _, by rw [hdrop]; rfl, by rw [htake]; exact all_isDigit_fixed _ _,
      by rw [hfraction, if_neg hsign]; decide⟩]
    rw [if_neg (fun hboth => absurd (hboth.1.symm.trans (if_neg hsign)) (by decide)),
      if_pos ⟨if_neg hsign, by rw [hfraction, if_neg hsign]; decide⟩, htake, hread,
      positionDigits, if_neg hsign]
    refine congrArg some ?_
    rw [Int.ofNat_sub h]
    omega

end FerricStore.Lists
