import FerricStore.Lib.Wire

/-!
# The primitives of the Flow formats

Integers and binaries of the Flow formats are written with a varint of the value, or of the length,
plus one, so that zero stands for an absent one. They are written by a Rust and an Elixir encoder. The
Elixir encoder has clauses of their own for short varints.
-/

namespace FerricStore.Flow

/-- The values of a Rust `u64`. -/
def u64Size : Nat := 2 ^ 64

namespace Rust

/-- `encode_varint` -/
def encodeVarint (value : Nat) : Bytes :=
  if 0x80 ≤ value then (UInt8.ofNat value ||| 0x80) :: encodeVarint (value >>> 7)
  else [UInt8.ofNat value]
decreasing_by
  rw [Nat.shiftRight_eq_div_pow]
  omega

/-- `encode_int`: the increment is checked. -/
def encodeInt : Option Nat → Option Bytes
  | some value => if value + 1 < u64Size then some (encodeVarint (value + 1)) else none
  | none => some [0]

/-- `encode_bin`: the increment of the length saturates. -/
def encodeBin : Option Bytes → Bytes
  | some value => encodeVarint (min (value.length + 1) (u64Size - 1)) ++ value
  | none => [0]

/-- `encode_flagged_int` -/
def encodeFlaggedInt (flags position : Nat) (value : Option Nat) : Option Bytes :=
  if hasFlag flags position then encodeInt value else some []

/-- `encode_flagged_bin` -/
def encodeFlaggedBin (flags position : Nat) (value : Option Bytes) : Bytes :=
  if hasFlag flags position then encodeBin value else []

end Rust

namespace Elixir

/-- `encode_varint` -/
def encodeVarint (value : Nat) : Bytes :=
  let group (shift : Nat) : UInt8 := UInt8.ofNat (((value >>> shift) &&& 0x7F) ||| 0x80)
  if value < 128 then [UInt8.ofNat value]
  else if value < 16384 then [group 0, UInt8.ofNat (value >>> 7)]
  else if value < 2097152 then [group 0, group 7, UInt8.ofNat (value >>> 14)]
  else if value < 268435456 then [group 0, group 7, group 14, UInt8.ofNat (value >>> 21)]
  else if value < 34359738368 then
    [group 0, group 7, group 14, group 21, UInt8.ofNat (value >>> 28)]
  else if value < 4398046511104 then
    [group 0, group 7, group 14, group 21, group 28, UInt8.ofNat (value >>> 35)]
  else group 0 :: encodeVarint (value >>> 7)
decreasing_by
  rw [Nat.shiftRight_eq_div_pow]
  omega

/-- `encode_int` -/
def encodeInt : Option Nat → Bytes
  | some value => if value < 127 then [UInt8.ofNat (value + 1)] else encodeVarint (value + 1)
  | none => [0]

/-- `encode_bin` -/
def encodeBin : Option Bytes → Bytes
  | some value =>
    if value.length < 127 then UInt8.ofNat (value.length + 1) :: value
    else encodeVarint (value.length + 1) ++ value
  | none => [0]

variable (flags position : Nat)

/-- `encode_flagged_int` -/
def encodeFlaggedInt (value : Option Nat) : Bytes :=
  if hasFlag flags position then encodeInt value else []

/-- `encode_flagged_bin` -/
def encodeFlaggedBin (value : Option Bytes) : Bytes :=
  if hasFlag flags position then encodeBin value else []

/-- `decode_varint` -/
def decodeVarint (bytes : Bytes) : Option (Nat × Bytes) := readVarint 70 bytes 0 0

/-- A binary of a length at the front. -/
def takeBin (length : Nat) (rest : Bytes) : Option (Option Bytes × Bytes) :=
  if length ≤ rest.length then some (some (rest.take length), rest.drop length) else none

/-- `decode_int` -/
def decodeInt (bytes : Bytes) : Option (Option Nat × Bytes) :=
  match bytes with
  | [] => none
  | encoded :: rest =>
    if encoded = 0 then some (none, rest)
    else if encoded.toNat < 128 then some (some (encoded.toNat - 1), rest)
    else
      match decodeVarint bytes with
      | none => none
      | some (0, rest) => some (none, rest)
      | some (value + 1, rest) => some (some value, rest)

/-- `decode_bin` -/
def decodeBin (bytes : Bytes) : Option (Option Bytes × Bytes) :=
  match bytes with
  | [] => none
  | encoded :: rest =>
    if encoded = 0 then some (none, rest)
    else if encoded.toNat < 128 then takeBin (encoded.toNat - 1) rest
    else
      match decodeVarint bytes with
      | none => none
      | some (0, rest) => some (none, rest)
      | some (length + 1, rest) => takeBin length rest

/-- `decode_flagged_int` -/
def decodeFlaggedInt (rest : Bytes) (default : Option Nat) : Option (Option Nat × Bytes) :=
  if hasFlag flags position then decodeInt rest else some (default, rest)

/-- `decode_flagged_bin` -/
def decodeFlaggedBin (rest : Bytes) (default : Option Bytes) : Option (Option Bytes × Bytes) :=
  if hasFlag flags position then decodeBin rest else some (default, rest)

end Elixir

/-! ## Both encoders write varints -/

variable (value : Nat)

/-- The low bits of a number with the top bit of a byte. -/
theorem ofNat_or_top : UInt8.ofNat value ||| 0x80 = UInt8.ofNat (value % 128 + 128) := by
  have hbits : ∀ n < 256, n ||| 128 = n % 128 + 128 := by decide +kernel
  rw [← UInt8.toNat_inj, UInt8.toNat_or, UInt8.toNat_ofNat', UInt8.toNat_ofNat']
  have hor := hbits (value % 256) (Nat.mod_lt _ (by decide))
  refine hor.trans ?_
  omega

/-- The Rust encoder writes a varint. -/
theorem Rust.encodeVarint_eq : Rust.encodeVarint value = varint value := by
  induction value using Nat.strongRecOn with
  | ind value ih =>
    rw [Rust.encodeVarint, varint]
    by_cases hlt : value < 128
    · rw [if_neg (by omega), if_pos hlt]
    · have hshift : value >>> 7 = value / 128 := Nat.shiftRight_eq_div_pow value 7
      rw [if_pos (by omega), if_neg hlt, hshift, ih _ (by omega), ofNat_or_top]

theorem varint_cons {value : Nat} (h : 128 ≤ value) :
    varint value = UInt8.ofNat (value % 128 + 128) :: varint (value / 128) := by
  rw [varint, if_neg (by omega)]

theorem varint_single {value : Nat} (h : value < 128) : varint value = [UInt8.ofNat value] := by
  rw [varint, if_pos h]

/-- The Elixir encoder writes a varint. -/
theorem Elixir.encodeVarint_eq : Elixir.encodeVarint value = varint value := by
  induction value using Nat.strongRecOn with
  | ind value ih =>
    have hgroup : ∀ n, (n &&& 0x7F) ||| 0x80 = n % 128 + 128 := fun n => by
      rw [and_low, or_top (Nat.mod_lt _ (by decide))]
    have hshift : ∀ k, value >>> k = value / 2 ^ k := Nat.shiftRight_eq_div_pow value
    -- the groups of seven bits, one after another
    have hdiv : ∀ k, value / 2 ^ k / 128 = value / 2 ^ (k + 7) := fun k => by
      rw [Nat.div_div_eq_div_mul, Nat.pow_add]
    have hzero : value = value / 2 ^ 0 := by rw [Nat.pow_zero, Nat.div_one]
    have hcons : ∀ k, 128 ≤ value / 2 ^ k → varint (value / 2 ^ k) =
        UInt8.ofNat (value / 2 ^ k % 128 + 128) :: varint (value / 2 ^ (k + 7)) := fun k hk => by
      rw [varint_cons hk, hdiv]
    have hsingle : ∀ k, value / 2 ^ k < 128 → varint (value / 2 ^ k) =
        [UInt8.ofNat (value / 2 ^ k)] := fun k hk => varint_single hk
    rw [Elixir.encodeVarint]
    simp only [hgroup, hshift]
    split_ifs with h1 h2 h3 h4 h5 h6
    · rw [varint_single h1]
    · conv_rhs => rw [hzero, hcons 0 (by omega), hsingle 7 (by omega)]
    · conv_rhs => rw [hzero, hcons 0 (by omega), hcons 7 (by omega), hsingle 14 (by omega)]
    · conv_rhs => rw [hzero, hcons 0 (by omega), hcons 7 (by omega), hcons 14 (by omega),
        hsingle 21 (by omega)]
    · conv_rhs => rw [hzero, hcons 0 (by omega), hcons 7 (by omega), hcons 14 (by omega),
        hcons 21 (by omega), hsingle 28 (by omega)]
    · conv_rhs => rw [hzero, hcons 0 (by omega), hcons 7 (by omega), hcons 14 (by omega),
        hcons 21 (by omega), hcons 28 (by omega), hsingle 35 (by omega)]
    · rw [ih _ (by omega)]
      conv_rhs => rw [hzero, hcons 0 (by omega)]

/-! ## The two encoders agree -/

/-- An integer that is absent or below the largest `u64`. -/
def FitsInt (value : Option Nat) : Prop := ∀ n ∈ value, n + 1 < u64Size

/-- A binary whose length can be written. -/
def FitsBin (value : Option Bytes) : Prop := ∀ bytes ∈ value, bytes.length + 1 < u64Size

@[simp] theorem fitsInt_none : FitsInt none := nofun

@[simp] theorem fitsBin_none : FitsBin none := nofun

@[simp] theorem fitsInt_some {value : Nat} : FitsInt (some value) ↔ value + 1 < u64Size := by
  simp [FitsInt]

@[simp] theorem fitsBin_some {value : Bytes} :
    FitsBin (some value) ↔ value.length + 1 < u64Size := by
  simp [FitsBin]

theorem fitsInt_of_lt_two_pow {flags width : Nat} (h : flags < 2 ^ width) (hwidth : width < 64) :
    FitsInt (some flags) :=
  fitsInt_some.mpr (lt_of_le_of_lt h (Nat.pow_lt_pow_right (by decide) hwidth))

/-- The Elixir encoding of a present integer. -/
theorem Elixir.encodeInt_some : Elixir.encodeInt (some value) = varint (value + 1) := by
  rw [Elixir.encodeInt]
  split
  · rw [varint_single (by omega)]
  · exact Elixir.encodeVarint_eq _

/-- The Elixir encoding of a present binary. -/
theorem Elixir.encodeBin_some (value : Bytes) :
    Elixir.encodeBin (some value) = varint (value.length + 1) ++ value := by
  rw [Elixir.encodeBin]
  split
  · rw [varint_single (by omega)]
    rfl
  · rw [Elixir.encodeVarint_eq]

/-- The encoders agree on integers. -/
theorem encodeInt_agrees {value : Option Nat} (h : FitsInt value) :
    Rust.encodeInt value = some (Elixir.encodeInt value) := by
  cases value with
  | none => rfl
  | some value =>
    rw [Rust.encodeInt, if_pos (h value rfl), Rust.encodeVarint_eq, Elixir.encodeInt_some]

variable {value : Option Bytes}

/-- The encoders agree on binaries. -/
theorem encodeBin_agrees (h : FitsBin value) : Rust.encodeBin value = Elixir.encodeBin value := by
  cases value with
  | none => rfl
  | some value =>
    have hle : value.length + 1 ≤ u64Size - 1 := by
      have := h value rfl
      omega
    rw [Rust.encodeBin, min_eq_left hle, Rust.encodeVarint_eq, Elixir.encodeBin_some]

/-- The encoders agree on optional integers. -/
theorem encodeFlaggedInt_agrees {value : Option Nat} (h : FitsInt value) (flags position : Nat) :
    Rust.encodeFlaggedInt flags position value =
      some (Elixir.encodeFlaggedInt flags position value) := by
  rw [Rust.encodeFlaggedInt, Elixir.encodeFlaggedInt]
  split
  · exact encodeInt_agrees h
  · rfl

theorem encodeFlaggedBin_agrees (h : FitsBin value) (flags position : Nat) :
    Rust.encodeFlaggedBin flags position value = Elixir.encodeFlaggedBin flags position value := by
  rw [Rust.encodeFlaggedBin, Elixir.encodeFlaggedBin, encodeBin_agrees h]

/-! ## Reading back -/

namespace Elixir

/-- The first byte of a varint: it is not zero, and it is below 128 when it is the only one. -/
theorem varint_succ (value : Nat) : ∃ first rest, varint (value + 1) = first :: rest ∧ first ≠ 0 ∧
    (first.toNat < 128 → rest = [] ∧ first.toNat = value + 1) := by
  by_cases hlt : value + 1 < 128
  · have hbyte : (UInt8.ofNat (value + 1)).toNat = value + 1 := by
      rw [UInt8.toNat_ofNat']
      omega
    refine ⟨_, _, varint_single hlt, fun hzero => ?_, fun _ => ⟨rfl, hbyte⟩⟩
    rw [hzero] at hbyte
    cases hbyte
  · have hbyte : (UInt8.ofNat ((value + 1) % 128 + 128)).toNat = (value + 1) % 128 + 128 := by
      rw [UInt8.toNat_ofNat']
      omega
    refine ⟨_, _, varint_cons (by omega), fun hzero => ?_, fun hbelow => by omega⟩
    rw [hzero] at hbyte
    exact absurd hbyte (by simp)

theorem decodeVarint_varint {value : Nat} (h : value < u64Size) (rest : Bytes) :
    decodeVarint (varint value ++ rest) = some (value, rest) := by
  have hlimit := h.trans (Nat.pow_lt_pow_right (n := 70) (by decide) (by decide))
  refine (readVarint_varint value rest (by decide) (by decide) (by simpa using hlimit)).trans ?_
  simp

/-- An integer is read back. -/
theorem decodeInt_encodeInt {value : Option Nat} (h : FitsInt value) (rest : Bytes) :
    decodeInt (encodeInt value ++ rest) = some (value, rest) := by
  cases value with
  | none => rfl
  | some value =>
    have hread := decodeVarint_varint (h value rfl) rest
    obtain ⟨first, more, heq, hne, hsingle⟩ := varint_succ value
    rw [encodeInt_some]
    rw [heq, List.cons_append] at hread ⊢
    rw [decodeInt, if_neg hne]
    by_cases hlt : first.toNat < 128
    · obtain ⟨rfl, hvalue⟩ := hsingle hlt
      rw [if_pos hlt, hvalue]
      rfl
    · rw [if_neg hlt, hread]

theorem takeBin_append (value rest : Bytes) :
    takeBin value.length (value ++ rest) = some (some value, rest) := by
  rw [takeBin, if_pos (by simp), List.take_left, List.drop_left]

/-- A binary is read back. -/
theorem decodeBin_encodeBin (h : FitsBin value) (rest : Bytes) :
    decodeBin (encodeBin value ++ rest) = some (value, rest) := by
  cases value with
  | none => rfl
  | some value =>
    have hread := decodeVarint_varint (h value rfl) (value ++ rest)
    obtain ⟨first, more, heq, hne, hsingle⟩ := varint_succ value.length
    rw [encodeBin_some, List.append_assoc]
    rw [heq, List.cons_append] at hread ⊢
    rw [decodeBin, if_neg hne]
    by_cases hlt : first.toNat < 128
    · obtain ⟨rfl, hvalue⟩ := hsingle hlt
      rw [if_pos hlt, hvalue]
      exact takeBin_append value rest
    · rw [if_neg hlt, hread]
      exact takeBin_append value rest

/-- An optional integer is read back, or its default. -/
theorem decodeFlaggedInt_encode {value : Option Nat} (h : FitsInt value) (flags position : Nat)
    (default : Option Nat) (rest : Bytes) :
    decodeFlaggedInt flags position (encodeFlaggedInt flags position value ++ rest) default =
      some (if hasFlag flags position then value else default, rest) := by
  rw [decodeFlaggedInt, encodeFlaggedInt]
  cases hasFlag flags position with
  | true => exact decodeInt_encodeInt h rest
  | false => rfl

/-- An optional binary is read back, or its default. -/
theorem decodeFlaggedBin_encode (h : FitsBin value) (flags position : Nat)
    (default : Option Bytes) (rest : Bytes) :
    decodeFlaggedBin flags position (encodeFlaggedBin flags position value ++ rest) default =
      some (if hasFlag flags position then value else default, rest) := by
  rw [decodeFlaggedBin, encodeFlaggedBin]
  cases hasFlag flags position with
  | true => exact decodeBin_encodeBin h rest
  | false => rfl

end Elixir

end FerricStore.Flow
