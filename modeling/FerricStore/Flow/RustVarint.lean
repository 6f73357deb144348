import FerricStore.Flow.Primitives

/-!
# The varints that the Rust decoder reads

The Rust decoder reads at most ten bytes and refuses what does not fit a `u64` and what ends in a zero
byte. So it reads exactly the varints of the encoders, and the Elixir decoder, which has no such
checks, reads the same from what the Rust decoder accepts.
-/

namespace FerricStore.Flow

open Option

namespace Rust

/-- The loop of `decode_varint` with the rounds that are left, the index of the byte and the bits so
far. -/
def decodeVarintLoop : Nat → Nat → Bytes → Nat → Option (Nat × Bytes)
  | 0, _, _, _ => none
  | _ + 1, _, [], _ => none
  | rounds + 1, index, byte :: rest, result =>
    if index = 9 ∧ byte &&& 0xFE ≠ 0 then none
    else
      let result := result ||| (((byte.toNat &&& 0x7F) <<< (7 * index)) % u64Size)
      if byte &&& 0x80 = 0 then
        if 0 < index ∧ byte = 0 then none else some (result, rest)
      else decodeVarintLoop rounds (index + 1) rest result

/-- `decode_varint` -/
def decodeVarint (input : Bytes) : Option (Nat × Bytes) := decodeVarintLoop 10 0 input 0

/-- `decode_int` -/
def decodeInt (input : Bytes) : Option (Option Nat × Bytes) := do
  let (encoded, rest) ← decodeVarint input
  if encoded = 0 then some (none, rest) else some (some (encoded - 1), rest)

/-- `decode_bin` -/
def decodeBin (input : Bytes) : Option (Option Bytes × Bytes) := do
  let (encodedLen, rest) ← decodeVarint input
  if encodedLen = 0 then some (none, rest)
  else if rest.length < encodedLen - 1 then none
  else some (some (rest.take (encodedLen - 1)), rest.drop (encodedLen - 1))

end Rust

/-! ## One byte -/

theorem and_rest (byte : UInt8) : byte &&& 0xFE = 0 ↔ byte.toNat ≤ 1 := by
  have hbits : ∀ n : Fin 256, n.val &&& 254 = 0 ↔ n.val ≤ 1 := by decide +kernel
  rw [← UInt8.toNat_inj, UInt8.toNat_and]
  exact hbits ⟨byte.toNat, byte.toNat_lt⟩

/-- The bits of a byte fit where the loop puts them. -/
theorem bits_fit {index : Nat} (hindex : index ≤ 9) {bits : Nat} (hbits : bits < 128)
    (hlast : index = 9 → bits ≤ 1) : bits * 2 ^ (7 * index) + 2 ^ (7 * index) ≤ u64Size := by
  have hpow : (bits + 1) * 2 ^ (7 * index) ≤ 2 ^ 64 := by
    by_cases hnine : index = 9
    · subst hnine
      have : (bits + 1) * 2 ^ 63 ≤ 2 * 2 ^ 63 := Nat.mul_le_mul_right _ (by omega)
      exact this.trans (by norm_num)
    · calc (bits + 1) * 2 ^ (7 * index) ≤ 2 ^ 7 * 2 ^ (7 * index) :=
            Nat.mul_le_mul_right _ (by omega)
        _ = 2 ^ (7 + 7 * index) := (Nat.pow_add 2 7 _).symm
        _ ≤ 2 ^ 64 := Nat.pow_le_pow_right (by decide) (by omega)
  rw [Nat.add_mul, Nat.one_mul] at hpow
  exact hpow

/-- The bits so far with those of a byte. -/
theorem result_eq {index result : Nat} (hindex : index ≤ 9) (hresult : result < 2 ^ (7 * index))
    {byte : UInt8} (hlast : index = 9 → byte.toNat ≤ 1) :
    result ||| (((byte.toNat &&& 0x7F) <<< (7 * index)) % u64Size) =
        result + byte.toNat % 128 * 2 ^ (7 * index) ∧
      result + byte.toNat % 128 * 2 ^ (7 * index) < u64Size := by
  have hfit := bits_fit hindex (Nat.mod_lt byte.toNat (show 128 > 0 by decide))
    (fun hnine => (Nat.mod_le _ _).trans (hlast hnine))
  have hsmall : (byte.toNat % 128) <<< (7 * index) < u64Size := by
    omega
  rw [and_low, Nat.mod_eq_of_lt hsmall, or_shiftLeft hresult]
  exact ⟨rfl, by omega⟩

/-! ## The loop -/

variable {bytes rest : Bytes}

/-- A byte in front of a varint's end is all of the varint, or it holds the low bits and another
varint those above. -/
theorem cons_eq_varint_append {byte : UInt8} {n : Nat} : byte :: bytes = varint n ++ rest ↔
      byte.toNat < 128 ∧ n = byte.toNat ∧ bytes = rest ∨
      128 ≤ byte.toNat ∧ ∃ high ≠ 0, n = byte.toNat % 128 + 128 * high ∧
        bytes = varint high ++ rest := by
  constructor
  · intro h
    by_cases hlt : n < 128
    · rw [varint_single hlt] at h
      obtain ⟨rfl, rfl⟩ := List.cons.inj h
      exact .inl (by simp only [UInt8.toNat_ofNat', and_true]; omega)
    · rw [varint_cons (by omega)] at h
      obtain ⟨rfl, rfl⟩ := List.cons.inj h
      rw [UInt8.toNat_ofNat']
      exact .inr ⟨by omega, n / 128, by omega, by omega, rfl⟩
  · rintro (⟨hlt, rfl, rfl⟩ | ⟨hge, high, hne, rfl, rfl⟩)
    · rw [varint_single hlt, UInt8.ofNat_toNat]
      rfl
    · have hbyte := byte.toNat_lt
      have hmod : (byte.toNat % 128 + 128 * high) % 128 + 128 = byte.toNat := by omega
      have hdiv : (byte.toNat % 128 + 128 * high) / 128 = high := by omega
      have hlarge : 128 ≤ byte.toNat % 128 + 128 * high := by omega
      rw [varint_cons hlarge, hmod, hdiv, UInt8.ofNat_toNat]
      rfl

/-- The loop accepts exactly the varints, of more than zero when it is not the first byte. -/
theorem decodeVarintLoop_eq_some {rounds index result value : Nat} (hrounds : rounds + index = 10)
    (hresult : result < 2 ^ (7 * index)) :
    Rust.decodeVarintLoop rounds index bytes result = some (value, rest) ↔
      ∃ n, bytes = varint n ++ rest ∧ value = result + n * 2 ^ (7 * index) ∧ value < u64Size ∧
        (0 < index → n ≠ 0) := by
  induction rounds generalizing index bytes result with
  | zero =>
    refine ⟨fun h => (by cases h), ?_⟩
    rintro ⟨n, -, hvalue, hlt, hne⟩
    obtain rfl : index = 10 := by omega
    unfold u64Size at hlt
    omega
  | succ rounds ih =>
    cases bytes with
    | nil =>
      refine ⟨fun h => (by cases h), ?_⟩
      rintro ⟨n, hbytes, -⟩
      rw [varint] at hbytes
      split at hbytes <;> cases hbytes
    | cons byte bytes =>
      simp only [cons_eq_varint_append]
      rw [Rust.decodeVarintLoop]
      by_cases hlarge : index = 9 ∧ byte &&& 0xFE ≠ 0
      · rw [if_pos hlarge]
        obtain ⟨rfl, hbyte⟩ := hlarge
        rw [ne_eq, and_rest] at hbyte
        refine ⟨fun h => (by cases h), ?_⟩
        rintro ⟨n, hbytes, hvalue, hlt, -⟩
        unfold u64Size at hlt
        omega
      · rw [if_neg hlarge]
        have hlast : index = 9 → byte.toNat ≤ 1 := fun hnine =>
          (and_rest byte).mp (not_not.mp fun hne => hlarge ⟨hnine, hne⟩)
        obtain ⟨heq, hlt⟩ := result_eq (by omega) hresult hlast
        simp only [heq, and_top]
        by_cases hend : byte.toNat < 128
        · -- the last byte
          rw [if_pos hend, Nat.mod_eq_of_lt hend]
          rw [Nat.mod_eq_of_lt hend] at hlt
          constructor
          · intro h
            split at h
            · cases h
            · rename_i hzero
              cases h
              exact ⟨byte.toNat, .inl ⟨hend, rfl, rfl⟩, rfl, hlt, fun hpos hnone =>
                hzero ⟨hpos, UInt8.toNat_inj.mp hnone⟩⟩
          · rintro ⟨n, ⟨-, rfl, rfl⟩ | ⟨hge, -⟩, rfl, -, hne⟩
            · exact if_neg fun hzero => hne hzero.1 (by rw [hzero.2]; rfl)
            · omega
        · rw [if_neg hend]
          have hpow : 2 ^ (7 * (index + 1)) = 128 * 2 ^ (7 * index) := by
            rw [Nat.mul_add, Nat.pow_add, Nat.mul_comm]
          have hnext : result + byte.toNat % 128 * 2 ^ (7 * index) < 2 ^ (7 * (index + 1)) := by
            have hle : (byte.toNat % 128 + 1) * 2 ^ (7 * index) ≤ 128 * 2 ^ (7 * index) :=
              Nat.mul_le_mul_right _ (Nat.mod_lt _ (by decide))
            rw [Nat.add_mul] at hle
            omega
          have hsplit : ∀ high, result + byte.toNat % 128 * 2 ^ (7 * index) +
              high * 2 ^ (7 * (index + 1)) =
              result + (byte.toNat % 128 + 128 * high) * 2 ^ (7 * index) := fun high => by
            ring
          rw [ih (by omega) hnext]
          constructor
          · rintro ⟨high, hbytes, hvalue, hsmall, hne⟩
            have hpositive := hne (Nat.succ_pos _)
            exact ⟨_, .inr ⟨by omega, high, hpositive, rfl, hbytes⟩, hvalue.trans (hsplit high),
              hsmall, fun _ => by omega⟩
          · rintro ⟨n, ⟨hsingle, -⟩ | ⟨-, high, hne, rfl, hbytes⟩, hvalue, hsmall, -⟩
            · omega
            · exact ⟨high, hbytes, hvalue.trans (hsplit high).symm, hsmall, fun _ => hne⟩

/-! ## Reading and writing -/

theorem varint_zero : varint 0 = [0] := varint_single (by decide)

/-- The Rust decoder reads exactly the varints of a `u64`. -/
theorem Rust.decodeVarint_eq_some {value : Nat} : Rust.decodeVarint bytes = some (value, rest) ↔
      bytes = varint value ++ rest ∧ value < u64Size := by
  simp [Rust.decodeVarint, decodeVarintLoop_eq_some (show 10 + 0 = 10 from rfl) Nat.one_pos]

theorem Rust.decodeVarint_zero (rest : Bytes) : Rust.decodeVarint ([0] ++ rest) = some (0, rest) :=
  Rust.decodeVarint_eq_some.mpr ⟨by rw [varint_zero], by decide⟩

/-- The Rust decoder reads exactly the integers that the Elixir encoder writes. -/
theorem Rust.decodeInt_eq_some {value : Option Nat} : Rust.decodeInt bytes = some (value, rest) ↔
      bytes = Elixir.encodeInt value ++ rest ∧ FitsInt value := by
  constructor
  · intro h
    obtain ⟨⟨encoded, left⟩, hread, hnext⟩ := bind_eq_some_iff.mp h
    obtain ⟨hbytes, hlt⟩ := Rust.decodeVarint_eq_some.mp hread
    rcases encoded with _ | encoded
    · cases hnext
      exact ⟨hbytes.trans (by rw [varint_zero]; rfl), nofun⟩
    · cases hnext
      refine ⟨by rw [Elixir.encodeInt_some]; exact hbytes, fun n hn => ?_⟩
      obtain rfl := mem_some.mp hn
      exact hlt
  · rintro ⟨rfl, hfits⟩
    cases value with
    | none => exact bind_eq_some (Rust.decodeVarint_zero rest) rfl
    | some value =>
      rw [Elixir.encodeInt_some]
      exact bind_eq_some (Rust.decodeVarint_eq_some.mpr ⟨rfl, hfits value rfl⟩) rfl

/-- The Rust decoder reads exactly the binaries that the Elixir encoder writes. -/
theorem Rust.decodeBin_eq_some {value : Option Bytes} : Rust.decodeBin bytes = some (value, rest) ↔
      bytes = Elixir.encodeBin value ++ rest ∧ FitsBin value := by
  constructor
  · intro h
    obtain ⟨⟨encoded, left⟩, hread, hnext⟩ := bind_eq_some_iff.mp h
    obtain ⟨hbytes, hlt⟩ := Rust.decodeVarint_eq_some.mp hread
    rcases encoded with _ | length
    · cases hnext
      exact ⟨hbytes.trans (by rw [varint_zero]; rfl), nofun⟩
    · simp only [Nat.add_sub_cancel, Nat.succ_ne_zero, if_false] at hnext
      by_cases hshort : left.length < length
      · rw [if_pos hshort] at hnext
        cases hnext
      · rw [if_neg hshort] at hnext
        cases hnext
        have hlength : (left.take length).length = length := by simp; omega
        refine ⟨?_, fun n hn => ?_⟩
        · rw [Elixir.encodeBin_some, hlength, List.append_assoc, List.take_append_drop]
          exact hbytes
        · obtain rfl := mem_some.mp hn
          rw [hlength]
          exact hlt
  · rintro ⟨rfl, hfits⟩
    cases value with
    | none => exact bind_eq_some (Rust.decodeVarint_zero rest) rfl
    | some value =>
      rw [Elixir.encodeBin_some, List.append_assoc]
      refine bind_eq_some (Rust.decodeVarint_eq_some.mpr ⟨rfl, hfits value rfl⟩) ?_
      simp

end FerricStore.Flow
