import FerricStore.Lib.Bytes
import FerricStore.Lib.Result

/-!
# The record format of the append log

A record is a 26-byte header (checksum, timestamp, expiry, key size, value size), the key and the
value, all little-endian. A tombstone has the value size `u32::MAX` and no value bytes. The
checksum covers everything after itself. `encodeRecordInto` and `encodeTombstoneInto` are the two
encoders of `log.rs`; `decodeRecord` is our own statement of what a record at the front of a byte
string is, against which every reader is compared. The checksum function is a parameter.
-/

namespace FerricStore.Log

/-- Header bytes before the key. -/
def headerSize : Nat := 26

/-- The value size that marks a tombstone, `u32::MAX`. -/
def tombstone : Nat := 4294967295

/-- The largest value a record may hold, 512 MiB. -/
def maxValueSize : Nat := 512 * 1024 * 1024

/-- Bodies above this size are checked against the file length before they are read. -/
def bodyLenFileSizeCheckThreshold : Nat := 64 * 1024

/-- The buffer size of the streaming readers. -/
def streamReadChunkSize : Nat := 64 * 1024

/-- A file offset the operating system accepts is below this bound. -/
def maxOffset : Nat := 2 ^ 63

/-- The failures of the log, one constructor for each message of the source. -/
inductive LogError where
  | keyTooLarge (len : Nat)
  | valueTooLarge (len : Nat)
  | valueTooLargeInRecord (valueSize : Nat)
  | batchLengthOverflow
  | overflow (what : String)
  | truncated (label : String) (len : Nat)
  | truncatedHeader (read : Nat)
  | shortRead (label : String) (expected got : Nat)
  | pastEnd (what : String) (stop fileLen : Nat)
  | crcMismatch (stored computed : Nat)
  | requestedLive (offset : Nat)
  | ambiguousTail (validEnd fileLen : Nat) (why : String)
  | grewWhileRecovering (validEnd fileLen : Nat)
  | io (cause : String)
  | rollbackFailed (context cause rollback : String)
  deriving DecidableEq, Repr

/-- A failure that could not be undone. -/
def LogError.isRollbackFailed : LogError → Bool
  | .rollbackFailed _ _ _ => true
  | _ => false

/-- The message of a failure, as the source formats it. -/
def LogError.text : LogError → String
  | .keyTooLarge len => s!"key too large: {len} bytes (max 65535)"
  | .valueTooLarge len => s!"value too large: {len} bytes (max 536870912)"
  | .valueTooLargeInRecord size =>
    s!"value too large in log record: {size} bytes (max 536870912)"
  | .batchLengthOverflow => "batch record length overflow"
  | .overflow what => s!"{what} overflow"
  | .truncated label len => s!"truncated record {label}: expected {len} bytes"
  | .truncatedHeader read => s!"truncated record header: expected 26 bytes, got {read}"
  | .shortRead label expected got => s!"pread {label} short read: expected {expected} B, got {got} B"
  | .pastEnd what stop fileLen =>
    s!"record {what} extends past end of file: end={stop}, file_len={fileLen}"
  | .crcMismatch stored computed => s!"CRC mismatch: stored={stored}, computed={computed}"
  | .requestedLive offset =>
    s!"requested live offset {offset} was not found or contained a tombstone; expected live record"
  | .ambiguousTail validEnd fileLen why =>
    s!"ambiguous truncated tail at {validEnd} bytes; preserving {fileLen} bytes ({why})"
  | .grewWhileRecovering validEnd fileLen =>
    s!"log grew while recovering: scanned through {validEnd} bytes, expected {fileLen}"
  | .io cause => cause
  | .rollbackFailed context cause rollback => s!"{context}: {cause}; {rollback}"

/-- The failures whose text starts with `truncated record `: the file ended inside a record. -/
def LogError.isTruncatedRecord : LogError → Bool
  | .truncated _ _ => true
  | .truncatedHeader _ => true
  | _ => false

/-- A log computation. -/
abbrev Result (α : Type) := Except LogError α

/-- A decoded record; no value means a tombstone. -/
structure Record where
  timestampMs : UInt64
  expireAtMs : UInt64
  key : Bytes
  value : Option Bytes
  deriving DecidableEq, Repr

/-- The fields of a header, and the 22 header bytes under the checksum. -/
structure Header where
  storedCrc : Nat
  timestampMs : UInt64
  expireAtMs : UInt64
  keySize : Nat
  valueSizeRaw : Nat
  covered : Bytes
  deriving DecidableEq, Repr

/-- Reads the five fields where every reader of the source reads them. -/
def Header.parse (header : Bytes) : Header where
  storedCrc := leNat (slice header 0 4)
  timestampMs := UInt64.ofNat (leNat (slice header 4 8))
  expireAtMs := UInt64.ofNat (leNat (slice header 12 8))
  keySize := leNat (slice header 20 2)
  valueSizeRaw := leNat (slice header 22 4)
  covered := header.drop 4

/-- Whether the header announces a tombstone. -/
def Header.isTombstone (h : Header) : Bool :=
  h.valueSizeRaw == tombstone

/-- The header at the front of a byte string. -/
def frontHeader (rest : Bytes) : Header :=
  Header.parse (slice rest 0 headerSize)

/-- The record a header makes with its key and value bytes. -/
def Header.record (h : Header) (key value : Bytes) : Record :=
  ⟨h.timestampMs, h.expireAtMs, key, if h.isTombstone then none else some value⟩

/-- The number of value bytes a header announces: none for a tombstone, and a failure above the
limit. -/
def decodedValueSize (valueSizeRaw : Nat) (isTombstone : Bool) : Result Nat :=
  if isTombstone then .ok 0
  else if valueSizeRaw > maxValueSize then .error (.valueTooLargeInRecord valueSizeRaw)
  else .ok valueSizeRaw

/-- Adds two `u64` values, or gives nothing on overflow. -/
def checkedAdd (a b : Nat) : Option Nat :=
  if a + b < 2 ^ 64 then some (a + b) else none

/-- The body length of a record. -/
def checkedRecordBodyLen (keySize valueSize : Nat) : Result Nat :=
  orFail (checkedAdd keySize valueSize) (.overflow "record body length")

/-- Refuses keys and values the format cannot hold. -/
def validateKvSizes (key value : Bytes) : Result Unit :=
  if key.length > 65535 then .error (.keyTooLarge key.length)
  else if value.length > maxValueSize then .error (.valueTooLarge value.length)
  else .ok ()

/-- The length of a live record. -/
def recordLen (keyLen valueLen : Nat) : Nat :=
  headerSize + keyLen + valueLen

/-- The length of a tombstone. -/
def tombstoneLen (keyLen : Nat) : Nat :=
  headerSize + keyLen

/-- The header bytes after the checksum. -/
def headerTail (nowMs expireAtMs : UInt64) (keySize valueSize : Nat) : Bytes :=
  leBytes 8 nowMs.toNat ++ (leBytes 8 expireAtMs.toNat ++ (leBytes 2 keySize ++ leBytes 4 valueSize))

section Checksum

variable (crc : Bytes → UInt32)

/-- Appends a checksum and what it covers. -/
def sealInto (buf body : Bytes) : Bytes :=
  buf ++ (leBytes 4 (crc body).toNat ++ body)

/-- Appends a live record. -/
def encodeRecordInto (buf key value : Bytes) (expireAtMs nowMs : UInt64) : Bytes :=
  sealInto crc buf (headerTail nowMs expireAtMs key.length value.length ++ (key ++ value))

/-- Appends a tombstone: no expiry, the sentinel value size and no value bytes. -/
def encodeTombstoneInto (buf key : Bytes) (nowMs : UInt64) : Bytes :=
  sealInto crc buf (headerTail nowMs 0 key.length tombstone ++ key)

/-- A live record on its own. -/
def encodeRecord (key value : Bytes) (expireAtMs nowMs : UInt64) : Bytes :=
  encodeRecordInto crc [] key value expireAtMs nowMs

/-- A tombstone on its own. -/
def encodeTombstone (key : Bytes) (nowMs : UInt64) : Bytes :=
  encodeTombstoneInto crc [] key nowMs

/-- What a record at the front of `rest` is, and how many bytes it takes: a header with an allowed
value size, the whole body, and the checksum of everything after the checksum field. -/
def decodeRecord (rest : Bytes) : Option (Record × Nat) :=
  let h := frontHeader rest
  match decodedValueSize h.valueSizeRaw h.isTombstone with
  | .error _ => none
  | .ok valueSize =>
    let key := slice rest headerSize h.keySize
    let value := slice rest (headerSize + h.keySize) valueSize
    if headerSize + h.keySize + valueSize ≤ rest.length ∧
        (crc (h.covered ++ (key ++ value))).toNat = h.storedCrc then
      some (h.record key value, headerSize + h.keySize + valueSize)
    else none

@[simp] theorem length_headerTail (nowMs expireAtMs : UInt64) (keySize valueSize : Nat) :
    (headerTail nowMs expireAtMs keySize valueSize).length = 22 := by
  simp [headerTail]

/-- Parsing an encoded header gives its fields back. -/
theorem parse_header {check keySize valueSize : Nat} {nowMs expireAtMs : UInt64}
    (hcheck : check < 2 ^ 32) (hkey : keySize < 2 ^ 16) (hvalue : valueSize < 2 ^ 32) :
    Header.parse (leBytes 4 check ++ headerTail nowMs expireAtMs keySize valueSize) =
      ⟨check, nowMs, expireAtMs, keySize, valueSize,
        headerTail nowMs expireAtMs keySize valueSize⟩ := by
  have hnow : leNat (leBytes 8 nowMs.toNat) = nowMs.toNat := leNat_leBytes 8 nowMs.toNat_lt
  have hexp : leNat (leBytes 8 expireAtMs.toNat) = expireAtMs.toNat :=
    leNat_leBytes 8 expireAtMs.toNat_lt
  simp only [Header.parse, headerTail, slice, leBytes, List.cons_append, List.nil_append,
    List.drop_succ_cons, List.drop_zero, List.take_succ_cons, List.take_zero] at hnow hexp ⊢
  have h4 := leNat_leBytes 4 hcheck
  have h2 := leNat_leBytes 2 hkey
  have h4' := leNat_leBytes 4 hvalue
  simp only [leBytes] at h4 h2 h4'
  simp only [h4, h2, h4', hnow, hexp, UInt64.ofNat_toNat]

/-- A size within the limit is announced as it is, and a tombstone announces none. -/
theorem decoded_value_size_of_le {raw size : Nat} (hsize : (if raw = tombstone then 0 else raw) = size)
    (hmax : size ≤ maxValueSize) : decodedValueSize raw (raw == tombstone) = .ok size := by
  unfold decodedValueSize
  by_cases hraw : raw = tombstone
  · simp_all
  · rw [if_neg hraw] at hsize
    subst hsize
    rw [if_neg (by simpa using hraw), if_neg (by omega)]

/-- A sealed header and body decode to the record they spell, whatever follows. -/
theorem decode_sealed (key value after : Bytes) (nowMs expireAtMs : UInt64) {valueSize : Nat}
    (hkey : key.length < 2 ^ 16) (hraw : valueSize < 2 ^ 32)
    (hsize : (if valueSize = tombstone then 0 else valueSize) = value.length)
    (hmax : value.length ≤ maxValueSize) :
    decodeRecord crc
        (sealInto crc [] (headerTail nowMs expireAtMs key.length valueSize ++ (key ++ value))
          ++ after) =
      some (⟨nowMs, expireAtMs, key, if valueSize = tombstone then none else some value⟩,
        headerSize + key.length + value.length) := by
  set tail := headerTail nowMs expireAtMs key.length valueSize with htail
  have hlen : tail.length = 22 := length_headerTail _ _ _ _
  set check := (crc (tail ++ (key ++ value))).toNat with hcheck
  have hheader : slice (leBytes 4 check ++ (tail ++ (key ++ (value ++ after)))) 0 headerSize =
      leBytes 4 check ++ tail := by
    rw [← List.append_assoc]
    exact slice_front (by simp [hlen, headerSize])
  have hparse : Header.parse (leBytes 4 check ++ tail) =
      ⟨check, nowMs, expireAtMs, key.length, valueSize, tail⟩ :=
    parse_header (UInt32.toNat_lt _) hkey hraw
  have hkeySlice : slice (leBytes 4 check ++ (tail ++ (key ++ (value ++ after)))) headerSize
      key.length = key := by
    exact slice_middle (by simp [hlen]) rfl
  have hvalueSlice : slice (leBytes 4 check ++ (tail ++ (key ++ (value ++ after))))
      (headerSize + key.length) value.length = value := by
    rw [← List.append_assoc, ← List.append_assoc]
    exact slice_middle (by simp [hlen, headerSize]; omega) rfl
  have hwhole : sealInto crc [] (tail ++ (key ++ value)) ++ after =
      leBytes 4 check ++ (tail ++ (key ++ (value ++ after))) := by
    simp [sealInto, hcheck]
  have htotal : (leBytes 4 check ++ (tail ++ (key ++ (value ++ after)))).length =
      headerSize + key.length + value.length + after.length := by
    simp [hlen, headerSize]
    omega
  have hdecoded := decoded_value_size_of_le hsize hmax
  rw [hwhole, decodeRecord, frontHeader, hheader, hparse]
  simp only [Header.isTombstone, hdecoded, hkeySlice, hvalueSlice, htotal]
  rw [if_pos ⟨by omega, hcheck.symm⟩]
  simp [Header.record, Header.isTombstone]

/-- A validated live record decodes to what was written. -/
theorem decode_encode_record {key value after : Bytes} {expireAtMs nowMs : UInt64}
    (h : validateKvSizes key value = .ok ()) :
    decodeRecord crc (encodeRecord crc key value expireAtMs nowMs ++ after) =
      some (⟨nowMs, expireAtMs, key, some value⟩, recordLen key.length value.length) := by
  obtain ⟨hkey, hvalue⟩ : key.length ≤ 65535 ∧ value.length ≤ maxValueSize := by
    unfold validateKvSizes at h
    split at h
    · cases h
    · split at h
      · cases h
      · omega
  have hnot : value.length ≠ tombstone := by
    simp only [maxValueSize] at hvalue
    simp only [tombstone]
    omega
  have hraw : value.length < 2 ^ 32 := by
    simp only [maxValueSize] at hvalue
    omega
  have hdecode := decode_sealed crc key value after nowMs expireAtMs (by omega) hraw
    (by simp [hnot]) hvalue
  simpa [encodeRecord, encodeRecordInto, hnot, recordLen] using hdecode

/-- A validated tombstone decodes to what was written. -/
theorem decode_encode_tombstone {key after : Bytes} {nowMs : UInt64}
    (h : validateKvSizes key [] = .ok ()) :
    decodeRecord crc (encodeTombstone crc key nowMs ++ after) =
      some (⟨nowMs, 0, key, none⟩, tombstoneLen key.length) := by
  have hkey : key.length ≤ 65535 := by
    unfold validateKvSizes at h
    split at h
    · cases h
    · omega
  have hraw : tombstone < 2 ^ 32 := by decide
  have hdecode := decode_sealed crc key [] after nowMs 0 (by omega) hraw (by simp) (by simp)
  simpa [encodeTombstone, encodeTombstoneInto, tombstoneLen] using hdecode

variable {rest : Bytes} {record : Record} {len : Nat}

/-- The parts of a byte string that starts with a record. -/
theorem decode_record_iff : decodeRecord crc rest = some (record, len) ↔ ∃ valueSize,
        decodedValueSize (frontHeader rest).valueSizeRaw (frontHeader rest).isTombstone =
          .ok valueSize ∧
        len = headerSize + (frontHeader rest).keySize + valueSize ∧ len ≤ rest.length ∧
        (crc ((frontHeader rest).covered ++ (slice rest headerSize (frontHeader rest).keySize ++
          slice rest (headerSize + (frontHeader rest).keySize) valueSize))).toNat =
            (frontHeader rest).storedCrc ∧
        record = (frontHeader rest).record (slice rest headerSize (frontHeader rest).keySize)
          (slice rest (headerSize + (frontHeader rest).keySize) valueSize) := by
  unfold decodeRecord
  cases hvalue : decodedValueSize (frontHeader rest).valueSizeRaw (frontHeader rest).isTombstone with
  | error e => simp [hvalue]
  | ok valueSize =>
    simp only [hvalue, Except.ok.injEq, exists_eq_left', Option.ite_none_right_eq_some,
      Option.some.injEq, Prod.mk.injEq]
    constructor
    · rintro ⟨⟨hfit, hcrc⟩, hrecord, hlen⟩
      exact ⟨hlen.symm, hlen ▸ hfit, hcrc, hrecord.symm⟩
    · rintro ⟨hlen, hfit, hcrc, hrecord⟩
      exact ⟨⟨hlen ▸ hfit, hcrc⟩, hrecord.symm, hlen.symm⟩

theorem decode_record_len
    (h : decodeRecord crc rest = some (record, len)) : headerSize ≤ len ∧ len ≤ rest.length := by
  obtain ⟨_, _, hlen, hle, _⟩ := (decode_record_iff crc).mp h
  omega

/-- A record is found again wherever its bytes stand. -/
theorem decode_record_take (after : Bytes) (h : decodeRecord crc rest = some (record, len)) :
    decodeRecord crc (rest.take len ++ after) = some (record, len) := by
  obtain ⟨valueSize, hvalue, hlen, hle, hcrc, hrecord⟩ := (decode_record_iff crc).mp h
  have hslice : ∀ start n, start + n ≤ len →
      slice (rest.take len ++ after) start n = slice rest start n := by
    intro start n hn
    rw [slice_append_left (by simp; omega), slice_take hn]
  have hheader : frontHeader (rest.take len ++ after) = frontHeader rest := by
    rw [frontHeader, hslice _ _ (by omega), frontHeader]
  have hkey := hslice headerSize (frontHeader rest).keySize (by omega)
  have hval := hslice (headerSize + (frontHeader rest).keySize) valueSize (by omega)
  refine (decode_record_iff crc).mpr ⟨valueSize, ?_, ?_, ?_, ?_, ?_⟩
  · rw [hheader, hvalue]
  · rw [hheader, hlen]
  · simp
    omega
  · rw [hheader, hkey, hval, hcrc]
  · rw [hheader, hkey, hval, hrecord]

end Checksum

end FerricStore.Log
