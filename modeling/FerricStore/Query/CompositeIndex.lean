import FerricStore.Flow.TupleCodec
import FerricStore.Lib.SortedMap

/-!
# Composite index keys

A definition projects a record to index keys: its storage prefix, the scope of the record, one
component for each field and the identity of the run. The keys of a record are listed in its reverse
value, in which each key is written against the one before it. `decodeReverseState_encode` states that
the reverse value is lossless.
-/

namespace FerricStore.Query

open Option List

open FerricStore.Flow (Value Direction CodecError encodeComponent)

/-! ## Fields and definitions -/

inductive ValueType
  | integer
  | keyword
  | dynamic
  deriving DecidableEq

inductive Field
  | partitionKey
  | runId
  | eventId
  | type
  | state
  | version
  | priority
  | createdAtMs
  | updatedAtMs
  | nextRunAtMs
  | leaseDeadlineMs
  | attempts
  | runState
  | maxActiveMs
  | parentFlowId
  | rootFlowId
  | correlationId
  | attribute (name : Bytes)
  | stateMeta (state name : Bytes)
  deriving DecidableEq

/-- `Field.value_type` -/
def Field.valueType : Field → ValueType
  | .version | .priority | .createdAtMs | .updatedAtMs | .nextRunAtMs | .leaseDeadlineMs
  | .attempts | .maxActiveMs => .integer
  | .attribute _ | .stateMeta _ _ => .dynamic
  | _ => .keyword

inductive Encoding
  | hashed
  | ordered
  deriving DecidableEq

structure FieldSpec where
  field : Field
  direction : Direction
  encoding : Encoding
  deriving DecidableEq

structure IndexDefinition where
  version : Nat
  fields : List FieldSpec
  fingerprint : Bytes
  countPrefixes : List Nat
  scopeBytes : Nat
  deriving DecidableEq

/-- `flow-composite-index:1:` -/
def globalStoragePrefix : Bytes :=
  [102, 108, 111, 119, 45, 99, 111, 109, 112, 111, 115, 105, 116, 101, 45, 105, 110, 100, 101, 120,
    58, 49, 58]

namespace IndexDefinition

def storagePrefix (d : IndexDefinition) : Bytes :=
  globalStoragePrefix ++ (beBytes 8 d.version ++ d.fingerprint)

end IndexDefinition

/-- The bytes that the length of a key is computed with. -/
def Encoding.bytes : Encoding → Nat
  | .hashed => 33
  | .ordered => 9

/-- `scope_storage_bytes` -/
def scopeStorageBytes (scopeBytes : Nat) : Nat := if scopeBytes = 0 then 0 else 3 + scopeBytes

variable (d : IndexDefinition)

/-- `prefix_bytes` of `CompositeCounter` -/
def prefixBytes (prefixLength : Nat) : Nat :=
  d.storagePrefix.length + scopeStorageBytes d.scopeBytes +
    ((d.fields.take prefixLength).map fun spec => spec.encoding.bytes).sum

/-- `entry_key_bytes` of `CompositeCounter` -/
def entryKeyBytes : Nat :=
  d.storagePrefix.length + scopeStorageBytes d.scopeBytes +
    (d.fields.map fun spec => spec.encoding.bytes).sum + 33

/-- `IndexDefinition.validate` -/
structure IndexDefinition.Valid : Prop where
  version : 0 < d.version ∧ d.version < 2 ^ 64
  fingerprint : d.fingerprint.length = 32
  fieldCount : 2 ≤ d.fields.length ∧ d.fields.length ≤ 8
  tenant : ∃ rest, d.fields = ⟨.partitionKey, .asc, .hashed⟩ :: rest
  unique : (d.fields.map FieldSpec.field).Nodup
  encodings : ∀ spec ∈ d.fields, (spec.encoding = .hashed → spec.direction = .asc) ∧
    (spec.encoding = .ordered → spec.field.valueType = .integer)
  countPrefixes : d.countPrefixes.Nodup ∧ ∀ prefixLength ∈ d.countPrefixes,
    0 < prefixLength ∧ prefixLength ≤ d.fields.length ∧
      ∀ spec ∈ d.fields.take prefixLength, spec.encoding = .hashed
  scope : d.scopeBytes ≤ 256
  budget : entryKeyBytes d ≤ 511

/-! ## Records -/

/-- What `Field.fetch` finds. -/
inductive Fetched
  | missing
  | scalar (value : Value)
  | list (values : List Value)

/-- A record: its run id, its logical partition and its scope where it has them, and its fields. -/
structure Record where
  id : Option Bytes
  partition : Option Bytes
  scopePrefix : Option Bytes
  fetch : Field → Fetched

inductive EntryError
  | invalidCompositeRecord
  | unscopedRecord
  | invalidCompositeScope
  | invalidIndexValueType
  | tooManyCompositeEntries
  | compositeKeyTooLarge
  | invalidTupleArity
  | invalidCoveringProjection
  | codec (reason : CodecError)

/-- What the projection is computed with: the hash, the keys of flow states and the values of the
entries, which carry what the index covers. -/
structure QueryEnv where
  sha256 : Bytes → Bytes
  length_sha256 : ∀ bytes, (sha256 bytes).length = 32
  stateKey : Bytes → Option Bytes → Bytes → Bytes
  runIdFromStateKey : Bytes → Option Bytes
  encodeEntryValue : IndexDefinition → Record → Bytes → Nat → Except EntryError Bytes

/-- `encode_scope_prefix` -/
def encodeScopePrefix : Option Bytes → Except EntryError Bytes
  | none => if d.scopeBytes = 0 then .ok [] else .error .invalidCompositeScope
  | some scope =>
    if 0 < d.scopeBytes ∧ scope.length = d.scopeBytes then
      .ok (0x70 :: (beBytes 2 d.scopeBytes ++ scope))
    else .error .invalidCompositeScope

/-- `record_version` -/
def recordVersion (r : Record) : Except EntryError Nat :=
  match r.fetch .version with
  | .scalar (.integer value) =>
    if 0 ≤ value ∧ value ≤ 9007199254740991 then .ok value.toNat
    else .error .invalidCompositeRecord
  | .missing => .ok 0
  | _ => .error .invalidCompositeRecord

/-- `Attributes.valid_scalar?`, of a value that is there -/
def validScalar : Value → Bool
  | .binary value => decide (value.length ≤ 256)
  | .integer value => decide (-(2 ^ 63) ≤ value ∧ value < 2 ^ 63)
  | .float value => decide (value.bits.toNat / 2 ^ 52 % 2 ^ 11 ≠ 2047)
  | _ => true

/-- `Attributes.valid_list?` -/
def validList (values : List Value) : Bool :=
  decide (values ≠ [] ∧ values.length ≤ 16 ∧ values.Nodup) &&
    values.all fun value => match value with
      | .binary value => decide (value.length ≤ 256)
      | _ => false

/-- `projected_values`, of the record with its logical partition -/
def projectedValues (r : Record) (partition : Bytes) : Field → Except EntryError (List Value)
  | .partitionKey => .ok [.binary partition]
  | .attribute name =>
    match r.fetch (.attribute name) with
    | .missing => .ok [.missing]
    | .scalar value => .ok [value]
    | .list values => if validList values then .ok values else .error .invalidIndexValueType
  | field =>
    match r.fetch field with
    | .missing => .ok [.missing]
    | .scalar value => .ok [value]
    | .list _ => .error .invalidIndexValueType

/-- `field_value_sets` -/
def fieldValueSets (r : Record) (partition : Bytes) : Except EntryError (List (List Value)) := do
  let valueSets ← d.fields.mapM fun spec => projectedValues r partition spec.field
  match valueSets with
  | [.binary tenant] :: _ => if tenant = [] then .error .unscopedRecord else .ok valueSets
  | _ => .error .unscopedRecord

/-- `validate_projection_cardinality` -/
def validateCardinality : List (List Value) → Nat → Except EntryError Unit
  | [], _ => .ok ()
  | values :: rest, count =>
    if 0 < values.length ∧ count ≤ 128 / values.length then
      validateCardinality rest (count * values.length)
    else .error .tooManyCompositeEntries

/-- `cartesian_values` -/
def cartesianValues : List (List Value) → List (List Value)
  | [] => [[]]
  | values :: rest => values.flatMap fun value => (cartesianValues rest).map (value :: ·)

/-- `validate_component_type` -/
def validateComponentType (field : Field) (value : Value) : Except EntryError Unit :=
  match value with
  | .missing => .ok ()
  | .null => .ok ()
  | value =>
    match field.valueType, value with
    | .integer, .integer _ => .ok ()
    | .keyword, .binary _ => .ok ()
    | .dynamic, value => if validScalar value then .ok () else .error .invalidIndexValueType
    | _, _ => .error .invalidIndexValueType

variable (env : QueryEnv)

/-- A component under `encode_components` -/
def encodeKeyComponent (spec : FieldSpec) (value : Value) : Except EntryError Bytes := do
  validateComponentType spec.field value
  match spec.encoding with
  | .hashed =>
    let canonical ← (encodeComponent value .asc).mapError .codec
    pure (0x50 :: env.sha256 canonical)
  | .ordered => (encodeComponent value spec.direction).mapError .codec

/-- `encode_components` -/
def encodeComponents (env : QueryEnv) : List Value → List FieldSpec → Except EntryError Bytes
  | [], [] => .ok []
  | value :: values, spec :: specs => do
    let component ← encodeKeyComponent env spec value
    let others ← encodeComponents env values specs
    pure (component ++ others)
  | _, _ => .error .invalidTupleArity

/-- The identity suffix of an entry key. -/
def identitySuffix (id : Bytes) : Bytes := 0x60 :: env.sha256 id

/-- `entry_keys` -/
def entryKeys (d : IndexDefinition) (scope : Bytes) (valueSets : List (List Value))
    (id : Bytes) : Except EntryError (List Bytes) := do
  let keys ← (cartesianValues valueSets).mapM fun values => do
    let encoded ← encodeComponents env values d.fields
    let key := d.storagePrefix ++ (scope ++ (encoded ++ identitySuffix env id))
    if key.length ≤ 511 then pure key else throw .compositeKeyTooLarge
  pure keys.eraseDups

/-- `CompositeIndex.entries`, of a valid definition: the keys and their values. -/
def entries (d : IndexDefinition) (r : Record) (stateKey : Bytes)
    (expireAtMs : Nat) : Except EntryError (List (Bytes × Bytes)) := do
  if stateKey = [] ∨ 65535 < stateKey.length ∨ 2 ^ 64 ≤ expireAtMs then
    throw .invalidCompositeRecord
  let id ← orFail r.id .invalidCompositeRecord
  let partition ← orFail r.partition .unscopedRecord
  if ¬ (env.runIdFromStateKey stateKey = some id ∧
      env.stateKey id r.scopePrefix partition = stateKey) then throw .invalidCompositeRecord
  let scope ← encodeScopePrefix d r.scopePrefix
  let _ ← recordVersion r
  let valueSets ← fieldValueSets d r partition
  validateCardinality valueSets 1
  let keys ← entryKeys env d scope valueSets id
  let value ← env.encodeEntryValue d r stateKey expireAtMs
  pure (keys.map fun key => (key, value))

/-! ## Reverse values -/

/-- `:binary.longest_common_prefix` of two binaries -/
def commonLength : Bytes → Bytes → Nat
  | x :: xs, y :: ys => if x = y then commonLength xs ys + 1 else 0
  | _, _ => 0

/-- The keys of `encode_compact_reverse`, each against the one before it. -/
def encodeReverseKeys : List Bytes → Bytes → Option Bytes
  | [], _ => some []
  | key :: rest, previous =>
    if key.length < 96 ∨ 65535 < key.length - 96 then none
    else
      let body := slice key 63 (key.length - 96)
      let shared := commonLength previous body
      let suffix := body.drop shared
      (encodeReverseKeys rest body).map fun others =>
        slice key 23 40 ++ (beBytes 2 shared ++ (beBytes 2 suffix.length ++ (suffix ++ others)))

/-- `max_run_id_bytes`: the largest key without the fixed part of the key of a state in a partition -/
def maxRunIdBytes : Nat := 65535 - 52

/-- `entry_key_matches_id?` -/
def EntryKeyMatchesId (key id : Bytes) : Prop :=
  id ≠ [] ∧ id.length ≤ maxRunIdBytes ∧ identitySuffix env id <:+ key

instance (env : QueryEnv) (key id : Bytes) : Decidable (EntryKeyMatchesId env key id) :=
  inferInstanceAs (Decidable (_ ∧ _))

/-- `valid_reverse_keys?` -/
def ValidReverseKeys (keys : List Bytes) (id : Bytes) : Prop :=
  keys ≠ [] ∧ keys.length ≤ 128 ∧ keys.Nodup ∧ ∀ key ∈ keys, key.length ≤ 511 ∧
    globalStoragePrefix <+: key ∧ EntryKeyMatchesId env key id

instance (env : QueryEnv) (keys : List Bytes) (id : Bytes) :
    Decidable (ValidReverseKeys env keys id) :=
  inferInstanceAs (Decidable (_ ∧ _))

/-- The checksummed part of a reverse value. -/
def reverseBody (stateKey : Bytes) (count : Nat) (entries : Bytes) (expireAtMs : Nat) : Bytes :=
  beBytes 8 expireAtMs ++ (beBytes 2 stateKey.length ++ (stateKey ++ (beBytes 2 count ++ entries)))

/-- `encode_reverse_value`; invalid keys raise. -/
def encodeReverseValue (stateKey : Bytes) (keys : List Bytes) (expireAtMs : Nat) : Option Bytes :=
  match env.runIdFromStateKey stateKey with
  | none => none
  | some id =>
    if stateKey ≠ [] ∧ stateKey.length ≤ 65535 ∧ expireAtMs < 2 ^ 64 ∧
        ValidReverseKeys env keys id then
      (encodeReverseKeys keys []).map fun entries =>
        let body := reverseBody stateKey keys.length entries expireAtMs
        0xC2 :: (beBytes 4 (crc32 body) ++ body)
    else none

/-- A number of bytes and what is left. -/
def splitBytes (count : Nat) (bytes : Bytes) : Option (Bytes × Bytes) :=
  if count ≤ bytes.length then some (bytes.take count, bytes.drop count) else none

/-- `decode_compact_reverse_keys` -/
def decodeReverseKeys (identity : Bytes) : Nat → Bytes → Bytes → Option (List Bytes)
  | 0, entries, _ => if entries = [] then some [] else none
  | count + 1, entries, previous => do
    let (definition, rest) ← splitBytes 40 entries
    let (shared, rest) ← splitBytes 2 rest
    let (suffixBytes, rest) ← splitBytes 2 rest
    if previous.length < beNat shared then none
    else do
      let (suffix, rest) ← splitBytes (beNat suffixBytes) rest
      let body := previous.take (beNat shared) ++ suffix
      let keys ← decodeReverseKeys identity count rest body
      pure ((globalStoragePrefix ++ (definition ++ (body ++ identity))) :: keys)

/-- `decode_reverse_payload`: the state key, the keys and the expiry. -/
def decodeReversePayload : Bytes → Option (Bytes × List Bytes × Nat)
  | [] => none
  | version :: blob => do
    if version ≠ 0xC2 then none
    else do
      let (checksum, body) ← splitBytes 4 blob
      if crc32 body ≠ beNat checksum then none
      else do
        let (expireAtMs, rest) ← splitBytes 8 body
        let (stateKeyBytes, rest) ← splitBytes 2 rest
        if beNat stateKeyBytes = 0 then none
        else do
          let (stateKey, rest) ← splitBytes (beNat stateKeyBytes) rest
          let (count, entries) ← splitBytes 2 rest
          if beNat count = 0 ∨ 128 < beNat count then none
          else do
            let id ← env.runIdFromStateKey stateKey
            let keys ← decodeReverseKeys (identitySuffix env id) (beNat count) entries []
            pure (stateKey, keys, beNat expireAtMs)

/-- `decode_reverse_state` -/
def decodeReverseState (blob expectedStateKey : Bytes) : Option (List Bytes × Nat) :=
  if 132607 < blob.length then none
  else do
    let id ← env.runIdFromStateKey expectedStateKey
    let (stateKey, keys, expireAtMs) ← decodeReversePayload env blob
    if stateKey = expectedStateKey ∧ ValidReverseKeys env keys id then pure (keys, expireAtMs)
    else none

/-! ## Reverse values are lossless -/

variable {env}

@[simp] theorem splitBytes_append {count : Nat} {first rest : Bytes} (h : first.length = count) :
    splitBytes count (first ++ rest) = some (first, rest) := by
  rw [splitBytes, if_pos (by simp [h])]
  simp [← h]

theorem take_commonLength : ∀ (x y : Bytes), x.take (commonLength x y) = y.take (commonLength x y)
  | [], _ => by simp [commonLength]
  | _ :: _, [] => by simp [commonLength]
  | x :: xs, y :: ys => by
    rw [commonLength]
    split
    · rename_i h
      rw [take_succ_cons, take_succ_cons, h, take_commonLength xs ys]
    · rfl

theorem commonLength_le_left : ∀ (x y : Bytes), commonLength x y ≤ x.length
  | [], _ => by simp [commonLength]
  | _ :: _, [] => by simp [commonLength]
  | x :: xs, y :: ys => by
    rw [commonLength]
    split
    · exact Nat.succ_le_succ (commonLength_le_left xs ys)
    · exact Nat.zero_le _

theorem commonLength_le_right : ∀ (x y : Bytes), commonLength x y ≤ y.length
  | [], _ => by simp [commonLength]
  | _ :: _, [] => by simp [commonLength]
  | x :: xs, y :: ys => by
    rw [commonLength]
    split
    · exact Nat.succ_le_succ (commonLength_le_right xs ys)
    · exact Nat.zero_le _

theorem length_identitySuffix (id : Bytes) : (identitySuffix env id).length = 33 := by
  rw [identitySuffix, length_cons, env.length_sha256]

/-- A key of the family is its four parts. -/
theorem key_parts {key id : Bytes} (hlength : 96 ≤ key.length) (hglobal : globalStoragePrefix <+: key)
    (hidentity : identitySuffix env id <:+ key) :
    globalStoragePrefix ++ (slice key 23 40 ++
      (slice key 63 (key.length - 96) ++ identitySuffix env id)) = key := by
  have hfront : globalStoragePrefix = key.take 23 := prefix_iff_eq_take.mp hglobal
  have hback : identitySuffix env id = key.drop (key.length - 33) := by
    have := suffix_iff_eq_drop.mp hidentity
    rwa [length_identitySuffix] at this
  have hend : key.drop (key.length - 33) = (key.drop 63).drop (key.length - 96) := by
    rw [drop_drop]
    congr 1
    omega
  have hmiddle : (key.drop 23).drop 40 = key.drop 63 := by rw [drop_drop]
  rw [hfront, hback, hend, slice, slice, take_append_drop, ← hmiddle, take_append_drop,
    take_append_drop]

variable {keys : List Bytes}

/-- Keys that are written against each other are read back. -/
theorem decodeReverseKeys_encode {id : Bytes} :
    ∀ {previous entries : Bytes}, encodeReverseKeys keys previous = some entries →
      (∀ key ∈ keys, globalStoragePrefix <+: key ∧ identitySuffix env id <:+ key) →
      decodeReverseKeys (identitySuffix env id) keys.length entries previous = some keys := by
  induction keys with
  | nil =>
    intro previous entries hencode _
    cases hencode
    rfl
  | cons key rest ih =>
    intro previous entries hencode hkeys
    rw [encodeReverseKeys] at hencode
    split at hencode
    · exact nomatch hencode
    · obtain ⟨others, hothers, rfl⟩ := map_eq_some_iff.mp hencode
      have hrest := ih hothers (forall_mem_cons.mp hkeys).2
      obtain ⟨hglobal, hidentity⟩ := hkeys key mem_cons_self
      have hparts := @key_parts env key id (by omega) hglobal hidentity
      set body := slice key 63 (key.length - 96) with hbody
      have hbodyLength : body.length ≤ 65535 := by
        rw [hbody, length_slice]
        omega
      have hcommon := commonLength_le_right previous body
      have hshared : commonLength previous body < 256 ^ 2 := by omega
      have hsuffix : (body.drop (commonLength previous body)).length < 256 ^ 2 := by
        rw [length_drop]
        omega
      have hdefinition : (slice key 23 40).length = 40 := length_slice_of_le (by omega)
      have hwhole : previous.take (commonLength previous body) ++
          body.drop (commonLength previous body) = body := by
        rw [take_commonLength, take_append_drop]
      have hle := commonLength_le_left previous body
      simp only [length_cons, decodeReverseKeys, splitBytes_append hdefinition,
        splitBytes_append (length_beBytes _ _), bind_eq_bind, bind_some,
        beNat_beBytes 2 hshared, beNat_beBytes 2 hsuffix, if_neg (Nat.not_lt.mpr hle),
        splitBytes_append rfl, hwhole, hrest, hparts]
      rfl

theorem length_encodeReverseKeys :
    ∀ {previous entries : Bytes}, encodeReverseKeys keys previous = some entries →
      (∀ key ∈ keys, key.length ≤ 511) → entries.length ≤ keys.length * 459 := by
  induction keys with
  | nil =>
    intro previous entries hencode _
    cases hencode
    simp
  | cons key rest ih =>
    intro previous entries hencode hkeys
    rw [encodeReverseKeys] at hencode
    split at hencode
    · exact nomatch hencode
    · obtain ⟨others, hothers, rfl⟩ := map_eq_some_iff.mp hencode
      have hrest := ih hothers (forall_mem_cons.mp hkeys).2
      have hkey := hkeys key mem_cons_self
      have hslice : (slice key 23 40).length ≤ 40 := by
        rw [length_slice]
        omega
      have hbody : (slice key 63 (key.length - 96)).length ≤ key.length - 96 := by
        rw [length_slice]
        omega
      simp only [length_append, length_beBytes, length_drop, length_cons]
      omega

section

variable {stateKey blob : Bytes} {expireAtMs : Nat}
  (hencode : encodeReverseValue env stateKey keys expireAtMs = some blob)
include hencode

/-- What a reverse value says is what was written. -/
theorem decodeReversePayload_encode :
    decodeReversePayload env blob = some (stateKey, keys, expireAtMs) := by
  unfold encodeReverseValue at hencode
  split at hencode
  · cases hencode
  · rename_i id hid
    split at hencode
    · rename_i hvalid
      obtain ⟨entries, hentries, rfl⟩ := map_eq_some_iff.mp hencode
      obtain ⟨hpresent, hlength, hexpire, hne, hcount, -, hkeys⟩ := hvalid
      have hdecode := decodeReverseKeys_encode hentries fun key hkey =>
        ⟨(hkeys key hkey).2.1, (hkeys key hkey).2.2.2.2⟩
      have hpos : 0 < keys.length := length_pos_of_ne_nil hne
      have hkeyPos : 0 < stateKey.length := length_pos_of_ne_nil hpresent
      have hkeyBytes : stateKey.length < 256 ^ 2 := by omega
      have hcountBytes : keys.length < 256 ^ 2 := by omega
      have hexpireBytes : expireAtMs < 256 ^ 8 := by omega
      have hcountOk : ¬ (keys.length = 0 ∨ 128 < keys.length) := by omega
      simp only [decodeReversePayload, ne_eq, not_true_eq_false, if_false, bind_eq_bind,
        splitBytes_append (length_beBytes _ _), bind_some, beNat_beBytes 4 (crc32_lt _),
        reverseBody, beNat_beBytes 2 hkeyBytes, if_neg hkeyPos.ne', splitBytes_append rfl,
        beNat_beBytes 2 hcountBytes, if_neg hcountOk, hid, hdecode, beNat_beBytes 8 hexpireBytes]
      rfl
    · exact nomatch hencode

/-- The reverse value is lossless. -/
theorem decodeReverseState_encode :
    decodeReverseState env blob stateKey = some (keys, expireAtMs) := by
  have hpayload := decodeReversePayload_encode hencode
  unfold encodeReverseValue at hencode
  split at hencode
  · cases hencode
  · rename_i id hid
    split at hencode
    · rename_i hvalid
      obtain ⟨-, hlength, -, hvalid⟩ := hvalid
      obtain ⟨entries, hentries, hblob⟩ := map_eq_some_iff.mp hencode
      have hentriesLength := length_encodeReverseKeys hentries fun key hkey => (hvalid.2.2.2 key hkey).1
      have hcount := hvalid.2.1
      have hsize : blob.length ≤ 132607 := by
        rw [← hblob]
        simp only [reverseBody, length_cons, length_append, length_beBytes]
        omega
      rw [decodeReverseState, if_neg (Nat.not_lt.mpr hsize), hid, hpayload]
      simp [hvalid]
    · exact nomatch hencode

end

end FerricStore.Query
