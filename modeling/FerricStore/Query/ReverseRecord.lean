import FerricStore.Query.ProjectionExact
import FerricStore.SegmentLog.Records

/-!
# Reverse records of both forms

A reverse record lists the entry keys of a state key. Keys that are too short for the compact form
are written as an external term instead, and the decoders tell the two forms apart by the first byte.
Every record is read back as it was written, and no bytes at all make a decoder return a key of
another run.
-/

namespace FerricStore.Query

open Option List

/-- The external term format, of the tuples that reverse records are: `TermCodec`. -/
structure TermCodec where
  encode : Bytes → List Bytes → Nat → Bytes
  decode : Bytes → Option (Bytes × List Bytes × Nat)

/-- A term is read back. Its first byte is the version of the format, a byte string has a tag and
four bytes of length, and the rest of the tuple is short. -/
structure TermCodec.Restores (codec : TermCodec) (stateKey : Bytes) (keys : List Bytes)
    (expireAtMs : Nat) : Prop where
  decode_encode : codec.decode (codec.encode stateKey keys expireAtMs) =
    some (stateKey, keys, expireAtMs)
  version : (codec.encode stateKey keys expireAtMs).head? = some 131
  length : (codec.encode stateKey keys expireAtMs).length ≤
    stateKey.length + (keys.map fun key => key.length + 5).sum + 1024

namespace Reverse

variable (env : QueryEnv) (codec : TermCodec)

/-- `encode_reverse_value` with its fallback; invalid keys raise. -/
def encodeValue (stateKey : Bytes) (keys : List Bytes) (expireAtMs : Nat) : Option Bytes := do
  let id ← env.runIdFromStateKey stateKey
  if stateKey ≠ [] ∧ stateKey.length ≤ 65535 ∧ expireAtMs < 2 ^ 64 ∧
      ValidReverseKeys env keys id then
    match encodeReverseValue env stateKey keys expireAtMs with
    | some blob => some blob
    | none => some (codec.encode stateKey keys expireAtMs)
  else none

/-- `decode_reverse_payload` of both forms -/
def decodePayload (blob : Bytes) : Option (Bytes × List Bytes × Nat) :=
  if blob.head? = some 0xC2 then decodeReversePayload env blob else codec.decode blob

/-- `decode_reverse_state` of both forms -/
def decodeState (blob expectedStateKey : Bytes) : Option (List Bytes × Nat) :=
  if 132607 < blob.length ∨ expectedStateKey = [] ∨ 65535 < expectedStateKey.length then none
  else do
    let id ← env.runIdFromStateKey expectedStateKey
    let (stateKey, keys, expireAtMs) ← decodePayload env codec blob
    if stateKey = expectedStateKey ∧ expireAtMs < 2 ^ 64 ∧ ValidReverseKeys env keys id then
      some (keys, expireAtMs)
    else none

/-- `reverse_key`: `flow-composite-reverse:1:` and the hash of the state key -/
def reverseKey (stateKey : Bytes) : Bytes :=
  [102, 108, 111, 119, 45, 99, 111, 109, 112, 111, 115, 105, 116, 101, 45, 114, 101, 118, 101, 114,
    115, 101, 58, 49, 58] ++ env.sha256 stateKey

/-- `decode_reverse_row` -/
def decodeRow (key blob : Bytes) : Option (Bytes × List Bytes × Nat) :=
  if 132607 < blob.length then none
  else do
    let (stateKey, keys, expireAtMs) ← decodePayload env codec blob
    let id ← env.runIdFromStateKey stateKey
    if stateKey ≠ [] ∧ stateKey.length ≤ 65535 ∧ expireAtMs < 2 ^ 64 ∧
        key = reverseKey env stateKey ∧ ValidReverseKeys env keys id then
      some (stateKey, keys, expireAtMs)
    else none

variable {env codec} {stateKey blob : Bytes} {keys : List Bytes} {expireAtMs : Nat}

section

variable (h : encodeReverseValue env stateKey keys expireAtMs = some blob)
include h

theorem decodePayload_compact :
    decodePayload env codec blob = some (stateKey, keys, expireAtMs) := by
  have hpayload := decodeReversePayload_encode h
  rw [decodePayload, if_pos, hpayload]
  cases blob with
  | nil => cases hpayload
  | cons version rest =>
    by_contra hversion
    rw [decodeReversePayload, if_pos fun heq => hversion (congrArg some heq)] at hpayload
    cases hpayload

theorem length_compact_le : blob.length ≤ 132607 := by
  by_contra hlength
  have hstate := decodeReverseState_encode h
  rw [decodeReverseState, if_pos (Nat.lt_of_not_le hlength)] at hstate
  cases hstate

end

theorem length_term_le {id : Bytes} (h : codec.Restores stateKey keys expireAtMs)
    (hstateKey : stateKey.length ≤ 65535) (hkeys : ValidReverseKeys env keys id) :
    (codec.encode stateKey keys expireAtMs).length ≤ 132607 := by
  have hsum := sum_le_card_nsmul (keys.map fun key => key.length + 5) 516 (by
    intro size hsize
    obtain ⟨key, hkey, rfl⟩ := mem_map.mp hsize
    exact Nat.add_le_add_right (hkeys.2.2.2 key hkey).1 5)
  have hcount := hkeys.2.1
  have hlength := h.length
  rw [length_map, smul_eq_mul] at hsum
  omega

/-- What is written in either form is read back. -/
theorem decodeState_encodeValue {id : Bytes} (hid : env.runIdFromStateKey stateKey = some id)
    (hpresent : stateKey ≠ []) (hstateKey : stateKey.length ≤ 65535) (hexpire : expireAtMs < 2 ^ 64)
    (hkeys : ValidReverseKeys env keys id) (hterm : codec.Restores stateKey keys expireAtMs) :
    ∃ blob, encodeValue env codec stateKey keys expireAtMs = some blob ∧
      decodeState env codec blob stateKey = some (keys, expireAtMs) := by
  have hread : ∀ blob : Bytes, blob.length ≤ 132607 →
      decodePayload env codec blob = some (stateKey, keys, expireAtMs) →
      decodeState env codec blob stateKey = some (keys, expireAtMs) := by
    intro blob hlength hpayload
    rw [decodeState, if_neg (by simp [hpresent]; omega), hid, hpayload]
    exact if_pos ⟨rfl, hexpire, hkeys⟩
  rw [encodeValue, hid, bind_eq_bind, bind_some, if_pos ⟨hpresent, hstateKey, hexpire, hkeys⟩]
  cases hcompact : encodeReverseValue env stateKey keys expireAtMs with
  | some blob =>
    exact ⟨blob, rfl, hread blob (length_compact_le hcompact) (decodePayload_compact hcompact)⟩
  | none =>
    refine ⟨_, rfl, hread _ (length_term_le hterm hstateKey hkeys) ?_⟩
    rw [decodePayload, hterm.version, if_neg (by decide)]
    exact hterm.decode_encode

end Reverse

/-- Reverse records are lossless, and no bytes decode to a key of another run. -/
theorem reverse_records_lossless (env : QueryEnv) (codec : TermCodec) :
    (∀ stateKey id keys expireAtMs, env.runIdFromStateKey stateKey = some id → stateKey ≠ [] →
      stateKey.length ≤ 65535 → expireAtMs < 2 ^ 64 → ValidReverseKeys env keys id →
      codec.Restores stateKey keys expireAtMs →
      ∃ blob, Reverse.encodeValue env codec stateKey keys expireAtMs = some blob ∧
        Reverse.decodeState env codec blob stateKey = some (keys, expireAtMs)) ∧
    (∀ blob stateKey keys expireAtMs,
      Reverse.decodeState env codec blob stateKey = some (keys, expireAtMs) →
      ∃ id, env.runIdFromStateKey stateKey = some id ∧
        ∀ key ∈ keys, identitySuffix env id <:+ key) ∧
    ∀ row blob stateKey keys expireAtMs,
      Reverse.decodeRow env codec row blob = some (stateKey, keys, expireAtMs) →
      ∃ id, env.runIdFromStateKey stateKey = some id ∧
        ∀ key ∈ keys, identitySuffix env id <:+ key := by
  refine ⟨fun stateKey id keys expireAtMs => Reverse.decodeState_encodeValue, ?_, ?_⟩
  · intro blob stateKey keys expireAtMs h
    unfold Reverse.decodeState at h
    split at h
    · cases h
    · obtain ⟨id, hid, h⟩ := bind_eq_some_iff.mp h
      obtain ⟨⟨found, keys', expire⟩, -, h⟩ := bind_eq_some_iff.mp h
      dsimp only at h
      split at h
      · rename_i hvalid
        cases h
        exact ⟨id, hid, fun key hkey => (hvalid.2.2.2.2.2 key hkey).2.2.2.2⟩
      · cases h
  · intro row blob stateKey keys expireAtMs h
    unfold Reverse.decodeRow at h
    split at h
    · cases h
    · obtain ⟨⟨found, keys', expire⟩, -, h⟩ := bind_eq_some_iff.mp h
      obtain ⟨id, hid, h⟩ := bind_eq_some_iff.mp h
      split at h
      · rename_i hvalid
        cases h
        exact ⟨id, hid, fun key hkey => (hvalid.2.2.2.2.2.2.2 key hkey).2.2.2.2⟩
      · cases h

/-! ## The external term of a reverse record -/

namespace ExternalTerm

open SegmentLog (termInteger peekNonNegInteger digits peek_termInteger)

/-- The atom `flow_composite_reverse` and the number one behind the tag of a tuple of five. -/
def front : Bytes :=
  [131, 104, 5, 119, 22, 102, 108, 111, 119, 95, 99, 111, 109, 112, 111, 115, 105, 116, 101, 95, 114,
    101, 118, 101, 114, 115, 101, 97, 1]

/-- A byte string. -/
def binary (bytes : Bytes) : Bytes := 109 :: (beBytes 4 bytes.length ++ bytes)

/-- `term_to_binary` of the tuple of a reverse record with keys. -/
def encode (stateKey : Bytes) (keys : List Bytes) (expireAtMs : Nat) : Bytes :=
  front ++ (binary stateKey ++ (108 :: (beBytes 4 keys.length ++
    (keys.flatMap binary ++ (106 :: termInteger expireAtMs)))))

/-- Reads a byte string. -/
def readBinary : Bytes → Option (Bytes × Bytes)
  | 109 :: rest => do
    let size ← splitBytes 4 rest
    splitBytes (beNat size.1) size.2
  | _ => none

/-- Reads a number of byte strings. -/
def readBinaries : Nat → Bytes → Option (List Bytes × Bytes)
  | 0, bytes => some ([], bytes)
  | count + 1, bytes => do
    let (first, rest) ← readBinary bytes
    let (others, rest) ← readBinaries count rest
    some (first :: others, rest)

/-- Reads the integer that a term ends with. -/
def readInteger (bytes : Bytes) : Option Nat :=
  match peekNonNegInteger bytes with
  | .ok n => if bytes = termInteger n then some n else none
  | .error _ => none

/-- `binary_to_term`, of what `term_to_binary` writes for such a tuple. -/
def decode (bytes : Bytes) : Option (Bytes × List Bytes × Nat) := do
  let first ← splitBytes front.length bytes
  if first.1 ≠ front then none
  else do
    let stateKey ← readBinary first.2
    let tag ← splitBytes 1 stateKey.2
    let count ← splitBytes 4 tag.2
    let keys ← readBinaries (beNat count.1) count.2
    let last ← splitBytes 1 keys.2
    let expireAtMs ← readInteger last.2
    if tag.1 = [108] ∧ last.1 = [106] then some (stateKey.1, keys.1, expireAtMs) else none

/-- The external term format. -/
def codec : TermCodec := ⟨encode, decode⟩

theorem readBinary_append {bytes : Bytes} (h : bytes.length < 256 ^ 4) (rest : Bytes) :
    readBinary (binary bytes ++ rest) = some (bytes, rest) := by
  rw [binary, cons_append, append_assoc, readBinary, splitBytes_append (length_beBytes _ _),
    bind_eq_bind, bind_some, beNat_beBytes 4 h, splitBytes_append rfl]

/-- Byte strings are read back, by induction on them. -/
theorem readBinaries_append {keys : List Bytes} (h : ∀ key ∈ keys, key.length < 256 ^ 4)
    (rest : Bytes) :
    readBinaries keys.length (keys.flatMap binary ++ rest) = some (keys, rest) := by
  induction keys with
  | nil => rfl
  | cons key keys ih =>
    obtain ⟨hkey, hkeys⟩ := forall_mem_cons.mp h
    rw [flatMap_cons, append_assoc, length_cons, readBinaries, readBinary_append hkey,
      bind_eq_bind, bind_some]
    dsimp only
    rw [ih hkeys]
    rfl

theorem digits_le_eight {n : Nat} (h : n < 2 ^ 64) : digits n ≤ 8 := by
  have := Nat.log_lt_of_lt_pow' (b := 256) (x := 8) (by omega) (show n < 256 ^ 8 by omega)
  unfold digits
  omega

theorem readInteger_termInteger {n : Nat} (h : n < 2 ^ 64) : readInteger (termInteger n) = some n := by
  have hdigits := digits_le_eight h
  have hpeek := @peek_termInteger n (by omega) []
  rw [append_nil] at hpeek
  rw [readInteger, hpeek]
  exact if_pos rfl

theorem length_flatMap_binary (keys : List Bytes) :
    (keys.flatMap binary).length = (keys.map fun key => key.length + 5).sum := by
  rw [length_flatMap]
  refine congrArg sum (map_congr_left fun key _ => ?_)
  rw [binary, length_cons, length_append, length_beBytes]
  omega

/-- The term of a record is read back. -/
theorem codec_restores {stateKey : Bytes} {keys : List Bytes} {expireAtMs : Nat}
    (hstateKey : stateKey.length < 256 ^ 4) (hcount : keys.length < 256 ^ 4)
    (hkeys : ∀ key ∈ keys, key.length < 256 ^ 4) (hexpire : expireAtMs < 2 ^ 64) :
    codec.Restores stateKey keys expireAtMs := by
  refine ⟨?_, rfl, ?_⟩
  · show decode (encode stateKey keys expireAtMs) = _
    have hlist : ∀ rest : Bytes, splitBytes 1 (108 :: rest) = some ([108], rest) := fun _ => rfl
    have hnil : ∀ rest : Bytes, splitBytes 1 (106 :: rest) = some ([106], rest) := fun _ => rfl
    rw [decode, encode, splitBytes_append rfl, bind_eq_bind, bind_some, if_neg (not_not.mpr rfl),
      readBinary_append hstateKey, bind_some, hlist, bind_some,
      splitBytes_append (length_beBytes _ _), bind_some, beNat_beBytes 4 hcount,
      readBinaries_append hkeys, bind_eq_bind, bind_some, hnil, bind_some,
      readInteger_termInteger hexpire, bind_eq_bind, bind_some, if_pos ⟨rfl, rfl⟩]
  · have hdigits := digits_le_eight hexpire
    have hinteger : (termInteger expireAtMs).length ≤ 11 := by
      unfold SegmentLog.termInteger
      split_ifs <;> simp <;> omega
    show (encode stateKey keys expireAtMs).length ≤ _
    simp only [encode, length_append, length_cons, binary, length_beBytes, ← length_flatMap_binary,
      show front.length = 29 from rfl]
    omega

end ExternalTerm

/-- A key of a run with a definition of zeros and a body. -/
def sampleKey (body : Bytes) : Bytes :=
  globalStoragePrefix ++ (replicate 40 0 ++ (body ++ identitySuffix shortEnv [1]))

/-- A key that is too short for the compact form. -/
def shortKey : Bytes := globalStoragePrefix ++ identitySuffix shortEnv [1]

/-- Three keys, each coded against the one before it, and a key that makes the record an external
term. -/
theorem reverse_records_lossless_short :
    (∃ blob, Reverse.encodeValue shortEnv ExternalTerm.codec [65, 1]
        [sampleKey [4, 5, 6], sampleKey [4, 5, 7, 8], sampleKey [4]] 7 = some blob ∧
      blob.head? = some 0xC2 ∧
      Reverse.decodeState shortEnv ExternalTerm.codec blob [65, 1] =
        some ([sampleKey [4, 5, 6], sampleKey [4, 5, 7, 8], sampleKey [4]], 7)) ∧
    ∃ blob, Reverse.encodeValue shortEnv ExternalTerm.codec [65, 1] [shortKey, sampleKey []] 7 =
        some blob ∧ blob.head? = some 131 ∧
      Reverse.decodeState shortEnv ExternalTerm.codec blob [65, 1] =
        some ([shortKey, sampleKey []], 7) := by
  obtain ⟨hlossless, -⟩ := reverse_records_lossless shortEnv ExternalTerm.codec
  constructor
  · obtain ⟨blob, hblob, hstate⟩ := hlossless [65, 1] [1]
      [sampleKey [4, 5, 6], sampleKey [4, 5, 7, 8], sampleKey [4]] 7 rfl (by decide) (by decide)
      (by decide) (by decide +kernel)
      (ExternalTerm.codec_restores (by decide) (by decide) (by decide +kernel) (by decide))
    have hhead : (Reverse.encodeValue shortEnv ExternalTerm.codec [65, 1]
        [sampleKey [4, 5, 6], sampleKey [4, 5, 7, 8], sampleKey [4]] 7).bind List.head? =
        some 0xC2 := by decide +kernel
    rw [hblob] at hhead
    exact ⟨blob, hblob, hhead, hstate⟩
  · obtain ⟨blob, hblob, hstate⟩ := hlossless [65, 1] [1] [shortKey, sampleKey []] 7 rfl (by decide)
      (by decide) (by decide) (by decide +kernel)
      (ExternalTerm.codec_restores (by decide) (by decide) (by decide +kernel) (by decide))
    have hhead : (Reverse.encodeValue shortEnv ExternalTerm.codec [65, 1]
        [shortKey, sampleKey []] 7).bind List.head? = some 131 := by decide +kernel
    rw [hblob] at hhead
    exact ⟨blob, hblob, hhead, hstate⟩

end FerricStore.Query
