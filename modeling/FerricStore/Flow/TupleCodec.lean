import FerricStore.Lib.Float64
import FerricStore.Lib.OrderedCode
import FerricStore.Lib.Result

/-!
# Query tuples as ordered bytes

A tuple of values is encoded component by component, each under its direction, so that byte strings
compare as the tuples do. A component is a tag byte and a payload; for a descending component all
of its bytes are inverted, except the tags of null and missing, which come last in both directions.
`encodeComponent_agrees` states this for one component and `encode_order_isomorphism` for tuples,
with the decoder as the inverse.
-/

namespace FerricStore.Flow

open List

open OrderedCode (Agrees Below below_cons below_of_lt)

def nullTag : UInt8 := 0xFE

def missingTag : UInt8 := 0xFF

def falseTag : UInt8 := 0x20

def trueTag : UInt8 := 0x21

def integerTag : UInt8 := 0x30

def floatTag : UInt8 := 0x31

def binaryTag : UInt8 := 0x40

def signBit : Nat := 2 ^ 63

inductive Direction
  | asc
  | desc
  deriving DecidableEq

/-- The values of query tuples. -/
inductive Value
  | missing
  | null
  | boolean (value : Bool)
  | integer (value : Int)
  | float (value : Float64)
  | binary (value : Bytes)
  deriving DecidableEq

inductive CodecError
  | invalidTupleArity
  | unsupportedIndexField
  | integerOutOfRange
  | nonFiniteFloat
  | invalidTupleEncoding
  /-- Not a reason: the match of the bits against a float raises. -/
  | noMatch
  deriving DecidableEq

variable (bits : Nat)

/-- `bxor` with the sign bit, of a 64-bit number. -/
def flipSign : Nat := if bits < signBit then bits + signBit else bits - signBit

/-- `bnot` of a 64-bit number. -/
def complement : Nat := 2 ^ 64 - 1 - bits

variable (byte : UInt8)

/-- `bxor` of a byte with `0xFF`. -/
def invertByte : UInt8 := 255 - byte

variable (bytes : Bytes)

def maybeInvert : Direction → Bytes
  | .asc => bytes
  | .desc => bytes.map invertByte

/-- Zeros are followed by `0xFF`, so that two zeros can end a binary. The bulk replacement of long
binaries does the same. -/
def escape (value : Bytes) : Bytes :=
  value.flatMap fun byte => if byte = 0 then [0, 0xFF] else [byte]

/-- The 64-bit pattern that is ordered as the floats are. -/
def orderedFloat : Nat :=
  if bits < signBit then flipSign bits else complement bits

def encodeAscending : Value → Except CodecError Bytes
  | .missing => .ok [missingTag]
  | .null => .ok [nullTag]
  | .boolean false => .ok [falseTag]
  | .boolean true => .ok [trueTag]
  | .integer value =>
    if -(2 ^ 63) ≤ value ∧ value < 2 ^ 63 then
      .ok (integerTag :: beBytes 8 (flipSign (value % 2 ^ 64).toNat))
    else .error .integerOutOfRange
  | .float value =>
    let bits := if value.bits.toNat = signBit then 0 else value.bits.toNat
    if bits / 2 ^ 52 % 2 ^ 11 = 2047 then .error .nonFiniteFloat
    else .ok (floatTag :: beBytes 8 (orderedFloat bits))
  | .binary value => .ok (binaryTag :: (escape value ++ [0, 0]))

/-- One component. Null and missing are not inverted. -/
def encodeComponent (value : Value) (direction : Direction) : Except CodecError Bytes :=
  match value with
  | .missing => encodeAscending value
  | .null => encodeAscending value
  | _ => do
    let ascending ← encodeAscending value
    .ok (maybeInvert ascending direction)

variable {Field : Type} (valid : Field → Bool)

/-- The components in order; fields are checked first. -/
def encodePairs : List (Value × Field × Direction) → Except CodecError Bytes
  | [] => .ok []
  | (value, field, direction) :: rest =>
    if valid field then do
      let encoded ← encodeComponent value direction
      let others ← encodePairs rest
      .ok (encoded ++ others)
    else .error .unsupportedIndexField

def encode (values : List Value) (fields : List (Field × Direction)) : Except CodecError Bytes :=
  if values.length = fields.length then encodePairs valid (values.zip fields)
  else .error .invalidTupleArity

def encodePrefix (values : List Value) (fields : List (Field × Direction)) :
    Except CodecError Bytes :=
  if values.length ≤ fields.length then
    encodePairs valid (values.zip (fields.take values.length))
  else .error .invalidTupleArity

/-! ## Decoding -/

/-- A byte as it was before a possible inversion. -/
def readByte : Direction → UInt8
  | .asc => byte
  | .desc => invertByte byte

variable (encoded : Bytes)

def takeByte (direction : Direction) : Except CodecError (UInt8 × Bytes) :=
  match encoded with
  | byte :: rest => .ok (readByte byte direction, rest)
  | [] => .error .invalidTupleEncoding

def takeU64 (direction : Direction) : Except CodecError (Nat × Bytes) :=
  if encoded.length < 8 then .error .invalidTupleEncoding
  else .ok (beNat (maybeInvert (encoded.take 8) direction), encoded.drop 8)

/-- The bytes up to the two zeros. A zero that `0xFF` follows is a zero of the value. -/
def takeBinary (direction : Direction) : Bytes → Bytes → Except CodecError (Value × Bytes)
  | [], _ => .error .invalidTupleEncoding
  | first :: rest, done =>
    if readByte first direction = 0 then
      match rest with
      | [] => .error .invalidTupleEncoding
      | second :: tail =>
        if readByte second direction = 0 then .ok (.binary done.reverse, tail)
        else if readByte second direction = 0xFF then takeBinary direction tail (0 :: done)
        else .error .invalidTupleEncoding
    else takeBinary direction rest (readByte first direction :: done)

def decodeTag (tag : UInt8) (rest : Bytes) (direction : Direction) :
    Except CodecError (Value × Bytes) :=
  if tag = missingTag then .ok (.missing, rest)
  else if tag = nullTag then .ok (.null, rest)
  else if tag = falseTag then .ok (.boolean false, rest)
  else if tag = trueTag then .ok (.boolean true, rest)
  else if tag = integerTag then do
    let (ordered, tail) ← takeU64 rest direction
    let bits := flipSign ordered
    .ok (.integer (if bits < signBit then bits else (bits : Int) - 2 ^ 64), tail)
  else if tag = floatTag then do
    let (ordered, tail) ← takeU64 rest direction
    let bits := if ordered < signBit then complement ordered else flipSign ordered
    if bits / 2 ^ 52 % 2 ^ 11 = 2047 then .error .noMatch
    else .ok (.float ⟨UInt64.ofNat bits⟩, tail)
  else if tag = binaryTag then takeBinary direction rest []
  else .error .invalidTupleEncoding

def decodeComponent (direction : Direction) : Except CodecError (Value × Bytes) :=
  match encoded with
  | [] => .error .invalidTupleEncoding
  | first :: rest =>
    if first = nullTag then .ok (.null, rest)
    else if first = missingTag then .ok (.missing, rest)
    else do
      let (tag, rest) ← takeByte encoded direction
      decodeTag tag rest direction

/-- The components of a tuple in order, and what follows them. -/
def decodeAll : List Direction → Bytes → Except CodecError (List Value × Bytes)
  | [], encoded => .ok ([], encoded)
  | direction :: directions, encoded => do
    let (value, rest) ← decodeComponent encoded direction
    let (values, rest) ← decodeAll directions rest
    .ok (value :: values, rest)

/-! ## Comparison -/

def comparisonRank : Value → Option Nat
  | .boolean false => some 0
  | .boolean true => some 1
  | .integer value => if -(2 ^ 63) ≤ value ∧ value < 2 ^ 63 then some 2 else none
  | .float value => if value.bits.toNat / 2 ^ 52 % 2 ^ 11 = 2047 then none else some 3
  | .binary _ => some 4
  | .null => some 5
  | .missing => some 6

def compareTerms {τ : Type} [LinearOrder τ] (left right : τ) : Direction → Ordering
  | .asc => if left < right then .lt else if right < left then .gt else .eq
  | .desc => if left < right then .gt else if right < left then .lt else .eq

variable (left right : Value)

/-- Values of one rank: floats compare as numbers. -/
def compareSame (direction : Direction) : Ordering :=
  match left, right with
  | .integer left, .integer right => compareTerms left right direction
  | .float left, .float right => compareTerms left.value right.value direction
  | .binary left, .binary right => compareTerms left right direction
  | _, _ => .eq

def compareRanked (leftRank rightRank : Nat) (direction : Direction) : Ordering :=
  if leftRank = rightRank then compareSame left right direction
  else if 5 ≤ leftRank ∨ 5 ≤ rightRank then compareTerms leftRank rightRank .asc
  else compareTerms leftRank rightRank direction

/-- Values that have no rank are compared by their encodings, which fail. -/
def compareValues (direction : Direction) : Except CodecError Ordering :=
  match comparisonRank left, comparisonRank right with
  | some leftRank, some rightRank => .ok (compareRanked left right leftRank rightRank direction)
  | _, _ => do
    let leftEncoded ← encodeComponent left direction
    let rightEncoded ← encodeComponent right direction
    .ok (compareTerms leftEncoded rightEncoded .asc)

/-- Tuples compare by their first component that differs. -/
def compareTuples : List Value → List Value → List Direction → Except CodecError Ordering
  | left :: lefts, right :: rights, direction :: directions => do
    let first ← compareValues left right direction
    let others ← compareTuples lefts rights directions
    .ok (first.then others)
  | _, _, _ => .ok .eq

/-! ## Payloads -/

/-- Inversion reverses the order of bytes. -/
theorem toNat_invertByte : (invertByte byte).toNat = 255 - byte.toNat := by
  have hle : byte ≤ 255 := by
    have := byte.toNat_lt
    show byte.toNat ≤ 255
    omega
  rw [invertByte, UInt8.toNat_sub_of_le _ _ hle]
  rfl

theorem invertByte_strictAnti : StrictAnti invertByte := by
  intro a b hlt
  have hb := b.toNat_lt
  rw [UInt8.lt_iff_toNat_lt] at hlt ⊢
  rw [toNat_invertByte, toNat_invertByte]
  omega

/-- Inverting twice leads back. -/
theorem invertByte_invertByte : invertByte (invertByte byte) = byte := by
  have hb := byte.toNat_lt
  apply UInt8.toNat_inj.mp
  rw [toNat_invertByte, toNat_invertByte]
  omega

theorem escape_cons {byte : UInt8} (hbyte : byte ≠ 0) (value : Bytes) :
    escape (byte :: value) = byte :: escape value := by
  rw [escape, flatMap_cons, if_neg hbyte]
  rfl

/-- An escaped binary with its end is below that of a larger one. -/
theorem escape_below : ∀ {x y : Bytes}, x < y → Below (escape x ++ [0, 0]) (escape y ++ [0, 0])
  | [], [], h => absurd h (lt_irrefl _)
  | a :: x, [], h => nomatch h
  | [], b :: y, _ => by
    -- the end of the first is below an escaped zero and below any other byte
    by_cases hb : b = 0
    · subst hb
      exact ⟨[0], 0, 0xFF, [], escape y ++ [0, 0], rfl, rfl, by decide⟩
    · have hlt : (0 : UInt8) < b := UInt8.pos_iff_ne_zero.mpr hb
      rw [escape_cons hb]
      exact below_cons hlt _ _
  | a :: x, b :: y, h => by
    rcases cons_lt_cons_iff.mp h with hlt | ⟨rfl, hlt⟩
    · have hb : b ≠ 0 := by
        rintro rfl
        exact absurd hlt (by rw [UInt8.lt_iff_toNat_lt]; exact Nat.not_lt_zero _)
      rw [escape_cons hb, escape, flatMap_cons]
      by_cases ha : a = 0
      · rw [if_pos ha]
        exact below_cons (ha ▸ hlt) _ _
      · rw [if_neg ha]
        exact below_cons hlt _ _
    · rw [escape, escape, flatMap_cons, flatMap_cons, ← escape, ← escape,
        append_assoc, append_assoc]
      exact (escape_below hlt).prepend _

/-- Big-endian numbers of one width. -/
theorem beBytes_below {m n : Nat} (hm : m < 2 ^ 64) (hn : n < 2 ^ 64) (h : m < n) :
    Below (beBytes 8 m) (beBytes 8 n) := by
  refine below_of_lt (by simp) ?_
  rw [lt_iff_beNat_lt (by simp), beNat_beBytes 8 hm, beNat_beBytes 8 hn]
  exact h

/-- Flipping the sign bit of a two's complement number orders it. -/
theorem flipSign_integer {n : Int} (h : -(2 ^ 63) ≤ n ∧ n < 2 ^ 63) :
    (flipSign (n % 2 ^ 64).toNat : Int) = n + 2 ^ 63 := by
  rw [flipSign, signBit]
  split_ifs with hsmall
  · omega
  · omega

variable (x : Float64)

/-- The pattern of a float, with `-0` folded into `0`. -/
def foldedBits : Nat := if x.bits.toNat = signBit then 0 else x.bits.toNat

theorem foldedBits_lt : foldedBits x < 2 ^ 64 := by
  have := x.bits.toNat_lt
  rw [foldedBits]
  split_ifs <;> omega

/-- The signed magnitude of the bits of a float. -/
def signedMagnitude : Int := if x.negative then -(x.magnitude : Int) else x.magnitude

/-- Ordered patterns are signed magnitudes, moved to positive numbers. -/
theorem orderedFloat_eq : (orderedFloat (foldedBits x) : Int) =
      if signedMagnitude x < 0 then signedMagnitude x + 2 ^ 63 - 1
      else signedMagnitude x + 2 ^ 63 := by
  have hmagnitude : x.magnitude < 2 ^ 63 := Nat.mod_lt _ (by decide)
  have hbits := x.bits_eq
  rw [orderedFloat, flipSign, complement, signBit, signedMagnitude]
  cases hneg : x.negative with
  | true =>
    rw [hneg, if_pos rfl] at hbits
    rw [if_pos rfl]
    by_cases hzero : x.magnitude = 0
    · have hfolded : foldedBits x = 0 := if_pos (by rw [hbits, hzero]; rfl)
      rw [hfolded, hzero]
      rfl
    · have hfolded : foldedBits x = 2 ^ 63 + x.magnitude := by
        rw [foldedBits, signBit, if_neg (by omega), hbits]
      rw [hfolded, if_neg (by omega), if_pos (by omega)]
      omega
  | false =>
    rw [hneg, if_neg Bool.false_ne_true] at hbits
    have hfolded : foldedBits x = x.magnitude := by
      rw [foldedBits, signBit, if_neg (by omega), hbits, Nat.zero_add]
    rw [hfolded, if_pos hmagnitude, if_pos hmagnitude, if_neg Bool.false_ne_true, if_neg (by omega)]
    omega

/-- Values of floats are ordered as their signed magnitudes. -/
theorem value_lt_iff (x y : Float64) :
    x.value < y.value ↔ signedMagnitude x < signedMagnitude y := by
  have hmono := Float64.units_strictMono
  have hlt : ∀ a b, Float64.units a < Float64.units b ↔ a < b := fun a b => hmono.lt_iff_lt
  have hzero : Float64.units 0 = 0 := rfl
  have hx := hlt 0 x.magnitude
  have hxy := hlt x.magnitude y.magnitude
  have hyx := hlt y.magnitude x.magnitude
  rw [Float64.value, Float64.value, signedMagnitude, signedMagnitude]
  split_ifs <;> omega

theorem orderedFloat_lt_iff (x y : Float64) :
    orderedFloat (foldedBits x) < orderedFloat (foldedBits y) ↔ x.value < y.value := by
  rw [value_lt_iff, ← Int.ofNat_lt, orderedFloat_eq, orderedFloat_eq]
  split_ifs <;> omega

theorem orderedFloat_lt : orderedFloat (foldedBits x) < 2 ^ 64 := by
  rw [orderedFloat, complement, flipSign, signBit]
  split_ifs <;> omega

/-! ## Components -/

/-- An ascending code word is a tag and a payload. -/
def tagOf : Value → UInt8
  | .missing => missingTag
  | .null => nullTag
  | .boolean false => falseTag
  | .boolean true => trueTag
  | .integer _ => integerTag
  | .float _ => floatTag
  | .binary _ => binaryTag

/-- Values that have an encoding. -/
def Encodable : Value → Prop
  | .integer value => -(2 ^ 63) ≤ value ∧ value < 2 ^ 63
  | .float value => ¬value.bits.toNat / 2 ^ 52 % 2 ^ 11 = 2047
  | _ => True

def payloadOf : Value → Bytes
  | .integer value => beBytes 8 (flipSign (value % 2 ^ 64).toNat)
  | .float value => beBytes 8 (orderedFloat (foldedBits value))
  | .binary value => escape value ++ [0, 0]
  | _ => []

/-- Folding does not change whether a float is finite. -/
theorem foldedBits_exponent : foldedBits x / 2 ^ 52 % 2 ^ 11 = x.bits.toNat / 2 ^ 52 % 2 ^ 11 := by
  rw [foldedBits, signBit]
  split_ifs with h
  · rw [h]
    decide
  · rfl

variable {x y : Bytes}

theorem ok_eq_ok_iff {P : Prop} (hP : P) :
    (Except.ok y : Except CodecError Bytes) = .ok x ↔ P ∧ x = y :=
  ⟨fun h => ⟨hP, (Except.ok.inj h).symm⟩, fun h => congrArg _ h.2.symm⟩

variable {value : Value}

/-- What the ascending encoder computes. -/
theorem encodeAscending_eq_ok :
    encodeAscending value = .ok x ↔ Encodable value ∧ x = tagOf value :: payloadOf value := by
  cases value with
  | missing => exact ok_eq_ok_iff trivial
  | null => exact ok_eq_ok_iff trivial
  | boolean value =>
    cases value with
    | true => exact ok_eq_ok_iff trivial
    | false => exact ok_eq_ok_iff trivial
  | integer value =>
    rw [encodeAscending, Encodable]
    by_cases hrange : -(2 ^ 63) ≤ value ∧ value < 2 ^ 63
    · rw [if_pos hrange]
      exact ok_eq_ok_iff hrange
    · rw [if_neg hrange]
      exact ⟨nofun, fun h => absurd h.1 hrange⟩
  | float value =>
    show (if foldedBits value / 2 ^ 52 % 2 ^ 11 = 2047 then Except.error CodecError.nonFiniteFloat
      else Except.ok (floatTag :: beBytes 8 (orderedFloat (foldedBits value)))) = _ ↔ _
    rw [foldedBits_exponent, Encodable]
    by_cases hfinite : value.bits.toNat / 2 ^ 52 % 2 ^ 11 = 2047
    · rw [if_pos hfinite]
      exact ⟨nofun, fun h => absurd hfinite h.1⟩
    · rw [if_neg hfinite]
      exact ok_eq_ok_iff hfinite
  | binary value => exact ok_eq_ok_iff trivial

/-- The direction under which a component is written. -/
def writtenAs (value : Value) (direction : Direction) : Direction :=
  match value with
  | .missing => .asc
  | .null => .asc
  | _ => direction

variable {direction : Direction}

/-- What the encoder of components computes. -/
theorem encodeComponent_eq_ok : encodeComponent value direction = .ok x ↔ Encodable value ∧
        x = maybeInvert (tagOf value :: payloadOf value) (writtenAs value direction) := by
  have hother : (do
      let ascending ← encodeAscending value
      Except.ok (maybeInvert ascending direction)) = .ok x ↔
      Encodable value ∧ x = maybeInvert (tagOf value :: payloadOf value) direction := by
    rw [bind_eq_ok_iff]
    constructor
    · rintro ⟨ascending, hascending, hx⟩
      obtain ⟨hencodable, rfl⟩ := encodeAscending_eq_ok.mp hascending
      exact ⟨hencodable, (Except.ok.inj hx).symm⟩
    · rintro ⟨hencodable, rfl⟩
      exact ⟨_, encodeAscending_eq_ok.mpr ⟨hencodable, rfl⟩, rfl⟩
  cases value with
  | missing => exact ok_eq_ok_iff trivial
  | null => exact ok_eq_ok_iff trivial
  | boolean value => exact hother
  | integer value => exact hother
  | float value => exact hother
  | binary value => exact hother

/-- The ranks of values that have an encoding. -/
def rankOf : Value → Nat
  | .boolean false => 0
  | .boolean true => 1
  | .integer _ => 2
  | .float _ => 3
  | .binary _ => 4
  | .null => 5
  | .missing => 6

theorem comparisonRank_eq (h : Encodable value) : comparisonRank value = some (rankOf value) := by
  cases value with
  | boolean value => cases value <;> rfl
  | integer value => exact if_pos h
  | float value => exact if_neg h
  | _ => rfl

section

variable (direction : Direction)

/-- A comparison of terms agrees with code words that are below one another as the terms are. -/
theorem compareTerms_agrees {τ : Type} [LinearOrder τ] {a b : τ}
    (hlt : a < b → Below x y) (hgt : b < a → Below y x) (heq : a = b → x = y) :
    Agrees (compareTerms a b direction) (maybeInvert x direction) (maybeInvert y direction) := by
  have hasc : Agrees (compareTerms a b .asc) x y := by
    rw [compareTerms]
    split_ifs with hless hgreater
    · exact hlt hless
    · exact hgt hgreater
    · exact heq (le_antisymm (not_lt.mp hgreater) (not_lt.mp hless))
  cases direction with
  | asc => exact hasc
  | desc =>
    have hswap : compareTerms a b .desc = (compareTerms a b .asc).swap := by
      rw [compareTerms, compareTerms]
      split_ifs <;> rfl
    rw [hswap]
    exact hasc.map invertByte_strictAnti

/-- A comparison of terms agrees with numbers that are ordered as the terms are. -/
theorem compareTerms_agrees_beBytes {τ : Type} [LinearOrder τ] {a b : τ} {m n : Nat} (tag : UInt8)
    (hm : m < 2 ^ 64) (hn : n < 2 ^ 64) (hlt : m < n ↔ a < b) (hgt : n < m ↔ b < a) :
    Agrees (compareTerms a b direction) (maybeInvert (tag :: beBytes 8 m) direction)
      (maybeInvert (tag :: beBytes 8 n) direction) := by
  refine compareTerms_agrees direction (fun h => ?_) (fun h => ?_) (fun h => ?_)
  · exact (beBytes_below hm hn (hlt.mpr h)).prepend [tag]
  · exact (beBytes_below hn hm (hgt.mpr h)).prepend [tag]
  · have hmn : ¬m < n := fun hless => (hlt.mp hless).ne h
    have hnm : ¬n < m := fun hless => (hgt.mp hless).ne' h
    rw [le_antisymm (not_lt.mp hnm) (not_lt.mp hmn)]

/-- The tags in the order of the ranks. -/
def tagOfRank : Fin 7 → UInt8
  | 0 => falseTag
  | 1 => trueTag
  | 2 => integerTag
  | 3 => floatTag
  | 4 => binaryTag
  | 5 => nullTag
  | 6 => missingTag

/-- A tag as it is written: only the tags of null and missing are never inverted. -/
def leadByte (rank : Fin 7) (direction : Direction) : UInt8 :=
  if 5 ≤ rank then tagOfRank rank else readByte (tagOfRank rank) direction

theorem maybeInvert_cons (byte : UInt8) (bytes : Bytes) : maybeInvert (byte :: bytes) direction =
      readByte byte direction :: maybeInvert bytes direction := by
  cases direction <;> rfl

/-- Every component starts with the lead byte of its rank. -/
theorem lead_component (v : Value) : ∃ rank : Fin 7, rankOf v = rank ∧
      maybeInvert (tagOf v :: payloadOf v) (writtenAs v direction) =
        leadByte rank direction :: maybeInvert (payloadOf v) (writtenAs v direction) := by
  cases v with
  | missing => exact ⟨6, rfl, rfl⟩
  | null => exact ⟨5, rfl, rfl⟩
  | boolean value =>
    cases value with
    | true => exact ⟨1, rfl, maybeInvert_cons _ _ _⟩
    | false => exact ⟨0, rfl, maybeInvert_cons _ _ _⟩
  | integer value => exact ⟨2, rfl, maybeInvert_cons _ _ _⟩
  | float value => exact ⟨3, rfl, maybeInvert_cons _ _ _⟩
  | binary value => exact ⟨4, rfl, maybeInvert_cons _ _ _⟩

end

/-- How the first bytes of components of different ranks stand. -/
def LeadAgrees (o : Ordering) (a b : UInt8) : Prop :=
  match o with
  | .lt => a < b
  | .eq => False
  | .gt => b < a

instance (o : Ordering) (a b : UInt8) : Decidable (LeadAgrees o a b) := by
  cases o <;> unfold LeadAgrees <;> infer_instance

theorem LeadAgrees.agrees {o : Ordering} {a b : UInt8} (h : LeadAgrees o a b) (s t : Bytes) :
    Agrees o (a :: s) (b :: t) := by
  cases o with
  | lt => exact below_cons h s t
  | eq => exact h.elim
  | gt => exact below_cons h t s

/-- Lead bytes of different ranks compare as the ranks do. -/
theorem leadByte_agrees : ∀ (direction : Direction) (r r' : Fin 7), r ≠ r' →
    LeadAgrees (if 5 ≤ (r : Nat) ∨ 5 ≤ (r' : Nat) then compareTerms (r : Nat) r' .asc
      else compareTerms (r : Nat) r' direction) (leadByte r direction) (leadByte r' direction)
  | .asc => by decide
  | .desc => by decide

variable {v w : Value}

/-- Values of one rank are equal, or two integers, two floats or two binaries. -/
theorem eq_or_of_rankOf_eq (h : rankOf v = rankOf w) :
    (v = w ∧ payloadOf v = []) ∨ (∃ m n, v = .integer m ∧ w = .integer n) ∨
      (∃ x y, v = .float x ∧ w = .float y) ∨ ∃ left right, v = .binary left ∧ w = .binary right := by
  rcases v with _ | _ | (_ | _) | m | x | left <;> rcases w with _ | _ | (_ | _) | n | y | right <;>
    simp_all [rankOf, payloadOf]

/-- The payloads of values of one rank. -/
theorem compareSame_agrees (hv : Encodable v) (hw : Encodable w)
    (hrank : rankOf v = rankOf w) (direction : Direction) :
    Agrees (compareSame v w direction)
      (maybeInvert (tagOf v :: payloadOf v) (writtenAs v direction))
      (maybeInvert (tagOf w :: payloadOf w) (writtenAs w direction)) := by
  rcases eq_or_of_rankOf_eq hrank with ⟨rfl, hpayload⟩ | ⟨m, n, rfl, rfl⟩ | ⟨x, y, rfl, rfl⟩ |
    ⟨left, right, rfl, rfl⟩
  · -- values with no payload are equal when their ranks are
    have heq : compareSame v v direction = .eq := by
      cases v with
      | integer | float | binary =>
        exact absurd (congrArg List.length hpayload) (by simp [payloadOf])
      | _ => rfl
    rw [heq]
    rfl
  · -- the code of an integer that is in range is a number that grows with it
    have hm := flipSign_integer hv
    have hn := flipSign_integer hw
    obtain ⟨hv₁, hv₂⟩ : -(2 ^ 63) ≤ m ∧ m < 2 ^ 63 := hv
    obtain ⟨hw₁, hw₂⟩ : -(2 ^ 63) ≤ n ∧ n < 2 ^ 63 := hw
    exact compareTerms_agrees_beBytes direction integerTag (by omega) (by omega) (by omega)
      (by omega)
  · exact compareTerms_agrees_beBytes direction floatTag (orderedFloat_lt x)
      (orderedFloat_lt y) (orderedFloat_lt_iff x y) (orderedFloat_lt_iff y x)
  · exact compareTerms_agrees direction (fun hlt => (escape_below hlt).prepend [binaryTag])
      (fun hgt => (escape_below hgt).prepend [binaryTag]) (fun heq => by rw [heq])

/-- Code words of components stand as the comparison of values says. -/
theorem encodeComponent_agrees
    (hx : encodeComponent v direction = .ok x) (hy : encodeComponent w direction = .ok y) :
    ∃ o, compareValues v w direction = .ok o ∧ Agrees o x y := by
  obtain ⟨hv, rfl⟩ := encodeComponent_eq_ok.mp hx
  obtain ⟨hw, rfl⟩ := encodeComponent_eq_ok.mp hy
  refine ⟨compareRanked v w (rankOf v) (rankOf w) direction, ?_, ?_⟩
  · rw [compareValues, comparisonRank_eq hv, comparisonRank_eq hw]
  · rw [compareRanked]
    by_cases hrank : rankOf v = rankOf w
    · rw [if_pos hrank]
      exact compareSame_agrees hv hw hrank direction
    · obtain ⟨r, hr, hleadv⟩ := lead_component direction v
      obtain ⟨r', hr', hleadw⟩ := lead_component direction w
      rw [if_neg hrank, hleadv, hleadw, hr, hr']
      refine (leadByte_agrees direction r r' fun h => hrank ?_).agrees _ _
      rw [hr, hr', h]

/-! ## Decoding what was encoded -/

/-- Reading a byte undoes writing it. -/
theorem readByte_readByte (direction : Direction) :
    readByte (readByte byte direction) direction = byte := by
  cases direction with
  | asc => rfl
  | desc => exact invertByte_invertByte byte

theorem maybeInvert_maybeInvert (direction : Direction) :
    maybeInvert (maybeInvert bytes direction) direction = bytes := by
  cases direction with
  | asc => rfl
  | desc =>
    rw [maybeInvert, maybeInvert, map_map]
    exact map_id'' invertByte_invertByte bytes

theorem length_maybeInvert (direction : Direction) :
    (maybeInvert bytes direction).length = bytes.length := by
  cases direction with
  | asc => rfl
  | desc => exact length_map _

/-- Eight bytes that were written are read back. -/
theorem takeU64_beBytes {n : Nat} (hn : n < 2 ^ 64) (direction : Direction) (rest : Bytes) :
    takeU64 (maybeInvert (beBytes 8 n) direction ++ rest) direction = .ok (n, rest) := by
  have hlen : (maybeInvert (beBytes 8 n) direction).length = 8 := by
    rw [length_maybeInvert, length_beBytes]
  rw [takeU64, if_neg (by rw [length_append, hlen]; omega), take_left' hlen,
    drop_left' hlen, maybeInvert_maybeInvert, beNat_beBytes 8 hn]

/-- An escaped binary is read back up to its end. -/
theorem takeBinary_escape (direction : Direction) (value done rest : Bytes) :
    takeBinary direction (maybeInvert (escape value ++ [0, 0]) direction ++ rest) done =
      .ok (.binary (done.reverse ++ value), rest) := by
  induction value generalizing done with
  | nil =>
    show takeBinary direction (maybeInvert (0 :: 0 :: []) direction ++ rest) done = _
    rw [maybeInvert_cons, maybeInvert_cons, cons_append, cons_append, takeBinary.eq_def]
    dsimp only
    rw [readByte_readByte, if_pos rfl, if_pos rfl, append_nil]
    cases direction <;> rfl
  | cons byte value ih =>
    by_cases hbyte : byte = 0
    · subst hbyte
      show takeBinary direction
        (maybeInvert (0 :: 0xFF :: (escape value ++ [0, 0])) direction ++ rest) done = _
      rw [maybeInvert_cons, maybeInvert_cons, cons_append, cons_append, takeBinary.eq_def]
      dsimp only
      rw [readByte_readByte, readByte_readByte, if_pos rfl, if_neg (by decide), if_pos rfl, ih,
        reverse_cons, append_assoc]
      rfl
    · rw [escape_cons hbyte, cons_append, maybeInvert_cons, cons_append, takeBinary.eq_def]
      dsimp only
      rw [readByte_readByte, if_neg hbyte, ih, reverse_cons, append_assoc]
      rfl

/-- What the decoder reads for a value: `-0` was folded into `0`. -/
def folded : Value → Value
  | .float value => .float ⟨UInt64.ofNat (foldedBits value)⟩
  | value => value

theorem flipSign_flipSign {bits : Nat} (h : bits < 2 ^ 64) : flipSign (flipSign bits) = bits := by
  rw [flipSign, flipSign, signBit]
  split_ifs <;> omega

/-- Ordered patterns are read back. -/
theorem unorder_orderedFloat {bits : Nat} (h : bits < 2 ^ 64) :
    (if orderedFloat bits < signBit then complement (orderedFloat bits)
      else flipSign (orderedFloat bits)) = bits := by
  rw [orderedFloat, complement, complement, flipSign, flipSign, signBit]
  split_ifs <;> omega

theorem exists_orderedFloat {n : Nat} (h : n < 2 ^ 64) :
    ∃ value : UInt64, orderedFloat value.toNat = n := by
  refine ⟨.ofNat (if n < signBit then complement n else flipSign n), ?_⟩
  rw [UInt64.toNat_ofNat', orderedFloat, complement, complement, flipSign, flipSign, signBit]
  split_ifs <;> omega

/-- Decoding after the tag of a value that has an encoding. -/
theorem decodeTag_payload (hv : Encodable v) (direction : Direction) (rest : Bytes) :
    decodeTag (tagOf v) (maybeInvert (payloadOf v) direction ++ rest) direction =
      .ok (folded v, rest) := by
  cases v with
  | missing => cases direction <;> rfl
  | null => cases direction <;> rfl
  | boolean value => cases value <;> cases direction <;> rfl
  | integer value =>
    have hflip := flipSign_integer hv
    obtain ⟨hv₁, hv₂⟩ : -(2 ^ 63) ≤ value ∧ value < 2 ^ 63 := hv
    show (takeU64 _ direction >>= _) = _
    rw [payloadOf, takeU64_beBytes (by omega), ok_bind]
    dsimp only
    have hvalue : (if (value % 2 ^ 64).toNat < signBit then ((value % 2 ^ 64).toNat : Int)
        else ((value % 2 ^ 64).toNat : Int) - 2 ^ 64) = value := by
      rw [signBit]
      split_ifs <;> omega
    rw [flipSign_flipSign (by omega), hvalue]
    rfl
  | float value =>
    show (takeU64 _ direction >>= _) = _
    rw [payloadOf, takeU64_beBytes (orderedFloat_lt value), ok_bind]
    dsimp only
    rw [unorder_orderedFloat (foldedBits_lt value), foldedBits_exponent, if_neg hv]
    rfl
  | binary value => exact takeBinary_escape direction value [] rest

theorem readByte_eq_iff {a b : UInt8} : readByte a direction = b ↔ a = readByte b direction := by
  constructor
  · rintro rfl
    exact (readByte_readByte a direction).symm
  · rintro rfl
    exact readByte_readByte b direction

/-- Values other than null and missing are written under the direction, with other tags. -/
theorem writtenAs_eq (v : Value) (direction : Direction) : v = .null ∨ v = .missing ∨
    writtenAs v direction = direction ∧ readByte (tagOf v) direction ≠ nullTag ∧
      readByte (tagOf v) direction ≠ missingTag := by
  cases v with
  | missing | null => simp
  | boolean value => cases value <;> cases direction <;> decide
  | _ =>
    rw [tagOf]
    exact .inr (.inr ⟨rfl, by cases direction <;> decide, by cases direction <;> decide⟩)

/-- The decoder returns an encoded value and what follows it. -/
theorem decodeComponent_encodeComponent (hx : encodeComponent v direction = .ok x) (rest : Bytes) :
    decodeComponent (x ++ rest) direction = .ok (folded v, rest) := by
  obtain ⟨hv, rfl⟩ := encodeComponent_eq_ok.mp hx
  obtain rfl | rfl | ⟨hwritten, hnull, hmissing⟩ := writtenAs_eq v direction
  · rfl
  · rfl
  · rw [hwritten, maybeInvert_cons, cons_append, decodeComponent, if_neg hnull, if_neg hmissing,
      takeByte, ok_bind]
    dsimp only
    rw [readByte_readByte, decodeTag_payload hv]

/-! ## Encoding what was decoded -/

theorem beBytes_beNat {bs : Bytes} {width : Nat} (h : bs.length = width) :
    beBytes width (beNat bs) = bs := by
  have hnat := beNat_reverse bs.reverse
  rw [reverse_reverse] at hnat
  rw [beBytes, hnat, leBytes_leNat (length_reverse.trans h), reverse_reverse]

theorem takeU64_written (direction : Direction) :
    takeU64 bytes direction = .error .invalidTupleEncoding ∨
      ∃ n < 2 ^ 64, ∃ rest, bytes = maybeInvert (beBytes 8 n) direction ++ rest := by
  by_cases hlen : bytes.length < 8
  · exact .inl (if_pos hlen)
  · have htake : (maybeInvert (bytes.take 8) direction).length = 8 := by
      rw [length_maybeInvert, length_take]
      omega
    have hlt := beNat_lt (maybeInvert (bytes.take 8) direction)
    rw [htake] at hlt
    refine .inr ⟨_, hlt, bytes.drop 8, ?_⟩
    rw [beBytes_beNat htake, maybeInvert_maybeInvert, take_append_drop]

/-- A binary that is read is escaped in what it is read from. -/
theorem takeBinary_written (direction : Direction) (bytes done : Bytes) :
    takeBinary direction bytes done = .error .invalidTupleEncoding ∨
      ∃ value rest, bytes = maybeInvert (escape value ++ [0, 0]) direction ++ rest := by
  fun_induction takeBinary direction bytes done with
  | case1 | case2 | case5 => exact .inl rfl
  | case3 done first hfirst second tail hsecond =>
    refine .inr ⟨[], tail, ?_⟩
    rw [readByte_eq_iff.mp hfirst, readByte_eq_iff.mp hsecond]
    cases direction <;> rfl
  | case4 done first hfirst second tail _ hsecond ih =>
    refine ih.imp_right ?_
    rintro ⟨value, rest, rfl⟩
    refine ⟨0 :: value, rest, ?_⟩
    rw [readByte_eq_iff.mp hfirst, readByte_eq_iff.mp hsecond]
    cases direction <;> rfl
  | case6 first tail done hfirst ih =>
    refine ih.imp_right ?_
    rintro ⟨value, rest, rfl⟩
    refine ⟨readByte first direction :: value, rest, ?_⟩
    rw [escape_cons hfirst, cons_append, maybeInvert_cons, readByte_readByte]
    rfl

/-- The bits of an infinity, of no number, or of `-0`: no float is encoded to them. -/
def ForeignBits : Prop := bits < 2 ^ 64 ∧ (bits / 2 ^ 52 % 2 ^ 11 = 2047 ∨ bits = signBit)

/-- What follows a tag is refused, or it is the payload of a value, or foreign bits. -/
theorem decodeTag_written (tag : UInt8) (bytes : Bytes) (direction : Direction) :
    decodeTag tag bytes direction = .error .invalidTupleEncoding ∨
      (∃ bits rest, ForeignBits bits ∧ tag = floatTag ∧
        bytes = maybeInvert (beBytes 8 (orderedFloat bits)) direction ++ rest) ∨
      ∃ v rest, Encodable v ∧ folded v = v ∧ tag = tagOf v ∧
        bytes = maybeInvert (payloadOf v) direction ++ rest := by
  unfold decodeTag
  split_ifs with h₁ h₂ h₃ h₄ h₅ h₆ h₇
  · exact .inr (.inr ⟨.missing, bytes, trivial, rfl, h₁, by cases direction <;> rfl⟩)
  · exact .inr (.inr ⟨.null, bytes, trivial, rfl, h₂, by cases direction <;> rfl⟩)
  · exact .inr (.inr ⟨.boolean false, bytes, trivial, rfl, h₃, by cases direction <;> rfl⟩)
  · exact .inr (.inr ⟨.boolean true, bytes, trivial, rfl, h₄, by cases direction <;> rfl⟩)
  · obtain hshort | ⟨n, hn, rest, rfl⟩ := takeU64_written bytes direction
    · exact .inl (by rw [hshort, error_bind])
    · obtain ⟨value, hvalue⟩ : ∃ value : Int, value + 2 ^ 63 = n := ⟨n - 2 ^ 63, by omega⟩
      have hrange : -(2 ^ 63) ≤ value ∧ value < 2 ^ 63 := by omega
      obtain rfl : flipSign (value % 2 ^ 64).toNat = n := by
        have := flipSign_integer hrange
        omega
      exact .inr (.inr ⟨.integer value, rest, hrange, rfl, h₅, rfl⟩)
  · obtain hshort | ⟨n, hn, rest, rfl⟩ := takeU64_written bytes direction
    · exact .inl (by rw [hshort, error_bind])
    · obtain ⟨value, rfl⟩ := exists_orderedFloat hn
      by_cases hforeign : ForeignBits value.toNat
      · exact .inr (.inl ⟨value.toNat, rest, hforeign, h₆, rfl⟩)
      · obtain ⟨hfinite, hzero⟩ := not_or.mp (not_and.mp hforeign value.toNat_lt)
        have hfolded : foldedBits ⟨value⟩ = value.toNat := if_neg hzero
        refine .inr (.inr ⟨.float ⟨value⟩, rest, hfinite, ?_, h₆, ?_⟩)
        · rw [folded, hfolded, UInt64.ofNat_toNat]
        · rw [payloadOf, hfolded]
  · refine (takeBinary_written direction bytes []).imp_right ?_
    rintro ⟨value, rest, rfl⟩
    exact .inr ⟨.binary value, rest, trivial, rfl, h₇, rfl⟩
  · exact .inl rfl

/-- Bytes that no value is encoded to and that are not refused: null and missing with inverted tags,
and floats of foreign bits, for which the source raises or gives `-0`. -/
def Foreign (direction : Direction) : Prop :=
  (direction = .desc ∧ ∃ rest, encoded = 0 :: rest ∨ encoded = 1 :: rest) ∨
    ∃ bits rest, ForeignBits bits ∧
      encoded = maybeInvert (floatTag :: beBytes 8 (orderedFloat bits)) direction ++ rest

/-- The decoder refuses the bytes, or they start with the encoding of the value that it returns. -/
def DecodesCanonically (direction : Direction) : Prop :=
  decodeComponent encoded direction = .error .invalidTupleEncoding ∨
    ∃ v x rest, decodeComponent encoded direction = .ok (v, rest) ∧
      encodeComponent v direction = .ok x ∧ encoded = x ++ rest

variable {encoded}

theorem decodesCanonically_of_not_foreign (hforeign : ¬Foreign encoded direction) :
    DecodesCanonically encoded direction := by
  cases encoded with
  | nil => exact .inl rfl
  | cons first bytes =>
    by_cases hnull : first = nullTag
    · exact .inr ⟨.null, _, bytes, if_pos hnull, rfl, by rw [hnull]; rfl⟩
    by_cases hmissing : first = missingTag
    · exact .inr ⟨.missing, _, bytes, by rw [hmissing]; rfl, rfl, by rw [hmissing]; rfl⟩
    obtain hinvalid | ⟨bits, rest, hbits, htag, rfl⟩ | ⟨v, rest, hv, hfolded, htag, rfl⟩ :=
      decodeTag_written (readByte first direction) bytes direction
    · exact .inl (by rw [decodeComponent, if_neg hnull, if_neg hmissing]; exact hinvalid)
    · refine absurd (.inr ⟨bits, rest, hbits, ?_⟩) hforeign
      rw [maybeInvert_cons, ← readByte_eq_iff.mp htag, cons_append]
    · obtain rfl := readByte_eq_iff.mp htag
      obtain rfl | rfl | ⟨hwritten, -, -⟩ := writtenAs_eq v direction
      · cases direction with
        | asc => exact absurd rfl hnull
        | desc => exact absurd (.inl ⟨rfl, rest, .inr rfl⟩) hforeign
      · cases direction with
        | asc => exact absurd rfl hmissing
        | desc => exact absurd (.inl ⟨rfl, rest, .inl rfl⟩) hforeign
      · have hx : encodeComponent v direction = .ok _ := encodeComponent_eq_ok.mpr ⟨hv, rfl⟩
        rw [hwritten] at hx
        rw [← cons_append, ← maybeInvert_cons]
        refine .inr ⟨v, _, rest, ?_, hx, rfl⟩
        rw [decodeComponent_encodeComponent hx, hfolded]

/-- The bits of a float are decoded to that float, or to nothing if it is no number. -/
theorem decodeComponent_float {bits : Nat} (hbits : bits < 2 ^ 64) (rest : Bytes) :
    decodeComponent (maybeInvert (floatTag :: beBytes 8 (orderedFloat bits)) direction ++ rest)
        direction =
      if bits / 2 ^ 52 % 2 ^ 11 = 2047 then .error .noMatch
      else .ok (.float ⟨UInt64.ofNat bits⟩, rest) := by
  have hordered : orderedFloat bits < 2 ^ 64 := by
    rw [orderedFloat, complement, flipSign, signBit]
    split_ifs <;> omega
  rw [maybeInvert_cons, cons_append, decodeComponent, if_neg (by cases direction <;> decide),
    if_neg (by cases direction <;> decide), takeByte, ok_bind]
  dsimp only
  rw [readByte_readByte]
  show (takeU64 _ direction >>= _) = _
  rw [takeU64_beBytes hordered, ok_bind]
  dsimp only
  rw [unorder_orderedFloat hbits]

/-- A value that is decoded from its own encoding has no `-0`. -/
theorem DecodesCanonically.folded_eq {rest : Bytes} (h : DecodesCanonically encoded direction)
    (hdecode : decodeComponent encoded direction = .ok (v, rest)) :
    folded v = v ∧ ∃ x, encodeComponent v direction = .ok x ∧ encoded = x ++ rest := by
  rcases h with herror | ⟨w, x, rest', hok, hencode, rfl⟩
  · exact nomatch herror.symm.trans hdecode
  · cases hok.symm.trans hdecode
    have hback := decodeComponent_encodeComponent hencode rest
    exact ⟨(Prod.mk.inj (Except.ok.inj (hback.symm.trans hdecode))).1, x, hencode, rfl⟩

theorem not_foreign_of_decodesCanonically (h : DecodesCanonically encoded direction) :
    ¬Foreign encoded direction := by
  rintro (⟨rfl, rest, rfl | rfl⟩ | ⟨bits, rest, ⟨hlt, hbits⟩, rfl⟩)
  · obtain ⟨-, x, hx, heq⟩ := h.folded_eq (v := .missing) rfl
    cases hx
    exact absurd (List.cons.inj heq).1 (by decide)
  · obtain ⟨-, x, hx, heq⟩ := h.folded_eq (v := .null) rfl
    cases hx
    exact absurd (List.cons.inj heq).1 (by decide)
  · have hdecode : decodeComponent (maybeInvert (floatTag :: beBytes 8 (orderedFloat bits))
        direction ++ rest) direction = _ := decodeComponent_float hlt rest
    by_cases hnan : bits / 2 ^ 52 % 2 ^ 11 = 2047
    · rw [if_pos hnan] at hdecode
      rcases h with herror | ⟨_, _, _, hok, -⟩
      · exact nomatch herror.symm.trans hdecode
      · exact nomatch hok.symm.trans hdecode
    · obtain rfl := hbits.resolve_left hnan
      rw [if_neg hnan] at hdecode
      exact absurd (h.folded_eq hdecode).1 (by decide)

/-- The decoder refuses bytes or returns a value whose encoding they start with, exactly for the
bytes that are not foreign. An encoding is decoded whatever follows it. -/
theorem decode_component_canonical (encoded : Bytes) (direction : Direction) :
    (DecodesCanonically encoded direction ↔ ¬Foreign encoded direction) ∧
    ∀ v x, encodeComponent v direction = .ok x →
      decodeComponent (x ++ encoded) direction = .ok (folded v, encoded) :=
  ⟨⟨not_foreign_of_decodesCanonically, decodesCanonically_of_not_foreign⟩,
    fun _ _ hx => decodeComponent_encodeComponent hx encoded⟩

/-- A binary of one byte in the ascending order, and one with a zero byte in the descending order. -/
theorem decode_component_canonical_binary :
    (∃ v x rest, decodeComponent [0x40, 7, 0, 0, 9] .asc = .ok (v, rest) ∧
        encodeComponent v .asc = .ok x ∧ [0x40, 7, 0, 0, 9] = x ++ rest) ∧
      decodeComponent [0xBF, 0xFF, 0, 0xF8, 0xFF, 0xFF, 9] .desc = .ok (.binary [0, 7], [9]) := by
  refine ⟨((decode_component_canonical _ .asc).1.mpr ?_).resolve_left (by decide +kernel),
    (decode_component_canonical [9] .desc).2 (.binary [0, 7]) _ rfl⟩
  rintro (⟨hdesc, -⟩ | ⟨bits, rest, -, heq⟩)
  · cases hdesc
  · exact absurd (List.cons.inj heq).1 (by decide)

/-- An infinity, null with its tag inverted, and `-0`. -/
theorem decode_component_foreign :
    decodeComponent [0x31, 0xFF, 0xF0, 0, 0, 0, 0, 0, 0] .asc = .error .noMatch ∧
      decodeComponent [1] .desc = .ok (.null, []) ∧ encodeComponent .null .desc = .ok [0xFE] ∧
      decodeComponent [0x31, 0x7F, 0xFF, 0xFF, 0xFF, 0xFF, 0xFF, 0xFF, 0xFF] .asc =
        .ok (.float ⟨0x8000000000000000⟩, []) ∧
      encodeComponent (.float ⟨0x8000000000000000⟩) .asc =
        .ok [0x31, 0x80, 0, 0, 0, 0, 0, 0, 0] := by
  decide +kernel

/-! ## Tuples -/

variable {pairs : List (Value × Field × Direction)}

/-- The fields of the pairs that are encoded. -/
theorem encodePairs_cons_eq_ok {field : Field} :
    encodePairs valid ((v, field, direction) :: pairs) = .ok x ↔
      valid field = true ∧ ∃ first others, encodeComponent v direction = .ok first ∧
        encodePairs valid pairs = .ok others ∧ x = first ++ others := by
  rw [encodePairs]
  constructor
  · intro h
    split_ifs at h with hvalid
    obtain ⟨first, hfirst, h⟩ := bind_eq_ok_iff.mp h
    obtain ⟨others, hothers, h⟩ := bind_eq_ok_iff.mp h
    exact ⟨hvalid, first, others, hfirst, hothers, (Except.ok.inj h).symm⟩
  · rintro ⟨hvalid, first, others, hfirst, hothers, rfl⟩
    rw [if_pos hvalid, hfirst, ok_bind, hothers, ok_bind]

variable {fields : List (Field × Direction)}

/-- Encodings of tuples stand as the comparison of the tuples says. -/
theorem encodePairs_agrees {values values' : List Value} (hlen : values.length = fields.length)
    (hlen' : values'.length = fields.length)
    (hx : encodePairs valid (values.zip fields) = .ok x)
    (hy : encodePairs valid (values'.zip fields) = .ok y) :
    ∃ o, compareTuples values values' (fields.map Prod.snd) = .ok o ∧ Agrees o x y := by
  induction fields generalizing values values' x y with
  | nil =>
    obtain rfl := length_eq_zero_iff.mp hlen
    obtain rfl := length_eq_zero_iff.mp hlen'
    exact ⟨.eq, rfl, (Except.ok.inj hx).symm.trans (Except.ok.inj hy)⟩
  | cons column fields ih =>
    obtain ⟨v, values, rfl⟩ := exists_cons_of_length_eq_add_one hlen
    obtain ⟨w, values', rfl⟩ := exists_cons_of_length_eq_add_one hlen'
    obtain ⟨_, first, others, hfirst, hothers, rfl⟩ := (encodePairs_cons_eq_ok valid).mp hx
    obtain ⟨_, first', others', hfirst', hothers', rfl⟩ := (encodePairs_cons_eq_ok valid).mp hy
    obtain ⟨o, ho, hagrees⟩ := encodeComponent_agrees hfirst hfirst'
    obtain ⟨o', ho', hagrees'⟩ := ih (Nat.succ.inj hlen) (Nat.succ.inj hlen') hothers hothers'
    refine ⟨o.then o', ?_, hagrees.append hagrees'⟩
    rw [map_cons, compareTuples, ho, ok_bind, ho', ok_bind]

/-- Decoding the components in order returns the values and the rest. -/
theorem decodeAll_encodePairs {values : List Value} (hlen : values.length = fields.length)
    (hx : encodePairs valid (values.zip fields) = .ok x) (rest : Bytes) :
    decodeAll (fields.map Prod.snd) (x ++ rest) = .ok (values.map folded, rest) := by
  induction fields generalizing values x with
  | nil =>
    obtain rfl := length_eq_zero_iff.mp hlen
    obtain rfl : [] = x := Except.ok.inj hx
    rfl
  | cons column fields ih =>
    obtain ⟨v, values, rfl⟩ := exists_cons_of_length_eq_add_one hlen
    obtain ⟨_, first, others, hfirst, hothers, rfl⟩ := (encodePairs_cons_eq_ok valid).mp hx
    rw [map_cons, decodeAll, append_assoc, decodeComponent_encodeComponent hfirst, ok_bind]
    dsimp only
    rw [ih (Nat.succ.inj hlen) hothers, ok_bind]
    rfl

/-- An encoding splits at any component. -/
theorem encodePairs_append {pairs' : List (Value × Field × Direction)}
    (hx : encodePairs valid (pairs ++ pairs') = .ok x) :
    ∃ y z, encodePairs valid pairs = .ok y ∧ encodePairs valid pairs' = .ok z ∧ x = y ++ z := by
  induction pairs generalizing x with
  | nil => exact ⟨[], x, rfl, hx, rfl⟩
  | cons pair pairs ih =>
    obtain ⟨hvalid, first, others, hfirst, hothers, rfl⟩ := (encodePairs_cons_eq_ok valid).mp hx
    obtain ⟨y, z, hy, hz, rfl⟩ := ih hothers
    exact ⟨first ++ y, z,
      (encodePairs_cons_eq_ok valid).mpr ⟨hvalid, first, y, hfirst, hy, rfl⟩, hz,
      (append_assoc _ _ _).symm⟩

/-- The encoding of tuples keeps their order: the bytes compare as the tuples do, no encoding is a
proper start of another, the encoding of the first values is a start of an encoding exactly when
the first components compare equal, and decoding leads back. -/
theorem encode_order_isomorphism (fields : List (Field × Direction)) (values : List Value)
    (x : Bytes) (hx : encode valid values fields = .ok x) :
    (∀ values' y, encode valid values' fields = .ok y →
      ∃ o, compareTuples values values' (fields.map Prod.snd) = .ok o ∧
        (x < y ↔ o = .lt) ∧ (x = y ↔ o = .eq) ∧ (y < x ↔ o = .gt) ∧ (x <+: y → x = y)) ∧
    (∀ first y, encodePrefix valid first fields = .ok y →
      ∃ o, compareTuples first (values.take first.length)
          ((fields.take first.length).map Prod.snd) = .ok o ∧ (y <+: x ↔ o = .eq)) ∧
    ∀ rest, decodeAll (fields.map Prod.snd) (x ++ rest) = .ok (values.map folded, rest) := by
  rw [encode] at hx
  split_ifs at hx with hlen
  refine ⟨fun values' y hy => ?_, fun first y hy => ?_, decodeAll_encodePairs valid hlen hx⟩
  · rw [encode] at hy
    split_ifs at hy with hlen'
    obtain ⟨o, ho, hagrees⟩ := encodePairs_agrees valid hlen hlen' hx hy
    refine ⟨o, ho, hagrees.lt_iff, hagrees.eq_iff, hagrees.gt_iff, fun hstart => ?_⟩
    have heq := (hagrees.start_iff []).mp (by rwa [append_nil])
    exact hagrees.eq_iff.mpr heq
  · rw [encodePrefix] at hy
    split_ifs at hy with hle
    -- the full encoding is that of its first components with the rest behind
    have hsplit : values.zip fields = (values.take first.length).zip (fields.take first.length) ++
          (values.drop first.length).zip (fields.drop first.length) := by
      rw [← zip_append (by rw [length_take, length_take, hlen]), take_append_drop, take_append_drop]
    rw [hsplit] at hx
    obtain ⟨z, t, hz, _, rfl⟩ := encodePairs_append valid hx
    obtain ⟨o, ho, hagrees⟩ := encodePairs_agrees valid (by rw [length_take, Nat.min_eq_left hle])
      (by rw [length_take, length_take, hlen]) hy hz
    exact ⟨o, ho, hagrees.start_iff t⟩

/-- Two descending components, the first a binary with a zero byte, the second null. -/
theorem encode_order_isomorphism_pair :
    ∃ x y, encode (fun _ : Unit => true) [.binary [0, 7], .null] [((), .desc), ((), .desc)] = .ok x ∧
      encode (fun _ : Unit => true) [.binary [0], .integer 5] [((), .desc), ((), .desc)] = .ok y ∧
      ∃ o, compareTuples [.binary [0, 7], .null] [.binary [0], .integer 5] [.desc, .desc] = .ok o ∧
        (x < y ↔ o = .lt) := by
  obtain ⟨o, ho, hlt, _⟩ := (encode_order_isomorphism (fun _ : Unit => true)
    [((), .desc), ((), .desc)] [.binary [0, 7], .null] _ rfl).1 [.binary [0], .integer 5] _ rfl
  exact ⟨_, _, rfl, rfl, o, ho, hlt⟩

end FerricStore.Flow
