import FerricStore.Log.Writer

/-!
# The readers of the append log

The five readers of `log.rs`: the point reader, the sequential reader, the metadata reader, the
keyed value reader and the raw copier. Each parses the header on its own and has its own bounds
and checksum steps. One lemma for each says that it accepts an offset exactly when `decodeRecord`
does there, and returns the fields of that record; the agreement of any two readers is then a
consequence.
-/

namespace FerricStore.Log

open Option List

/-- An open file. The operating system keeps its length below the offset bound. -/
structure File where
  bytes : Bytes
  len_lt : bytes.length < maxOffset

/-- The metadata of a record whose value was checked but not kept. -/
structure RecordMetadata where
  timestampMs : UInt64
  expireAtMs : UInt64
  key : Bytes
  valueSize : Nat
  isTombstone : Bool
  offset : Nat
  recordSize : Nat
  deriving DecidableEq, Repr

/-- Where the raw copier put a record. -/
structure RawCopyResult where
  offset : Nat
  recordSize : Nat
  valueSize : Nat
  isTombstone : Bool
  deriving DecidableEq, Repr

variable (file : File)

/-- Positioned read of `len` bytes: nothing at the end of the file, a failure when the file ends
inside them. The loop of the source reads again after a short read and finds the end. -/
def readExactAtOrEof (len offset : Nat) (label : String) : Result (Option Bytes) :=
  if len = 0 then .ok (some [])
  else if maxOffset ≤ offset then .error (.io "Invalid argument (os error 22)")
  else
    let got := slice file.bytes offset len
    if got.length = len then .ok (some got)
    else if got = [] then .ok none
    else .error (.shortRead label len got.length)

/-- Positioned read that must not meet the end of the file. -/
def readExactAtRequired (len offset : Nat) (label : String) : Result Bytes := do
  match ← readExactAtOrEof file len offset label with
  | some got => .ok got
  | none => .error (.shortRead label len 0)

/-- Reads a part whose offset is only computed when the part has bytes. -/
def readPart (len : Nat) (start : Option Nat) (what label : String) : Result Bytes :=
  if len > 0 then do
    let start ← orFail start (.overflow what)
    readExactAtRequired file len start label
  else .ok []

/-- The early check of a large part against the file length. -/
def checkExtent (len : Nat) (start : Option Nat) (startWhat endWhat what : String) : Result Unit :=
  if len > bodyLenFileSizeCheckThreshold then do
    let start ← orFail start (.overflow startWhat)
    let stop ← orFail (checkedAdd start len) (.overflow endWhat)
    if stop > file.bytes.length then .error (.pastEnd what stop file.bytes.length) else .ok ()
  else .ok ()

/-- Streams `remaining` bytes in chunks, as `read_exact_vec` and `hash_exact` do. -/
def streamLoop (label : String) (len : Nat) : Nat → Nat → Bytes → Bytes → Result (Bytes × Bytes)
  | 0, _, out, rest => .ok (out, rest)
  | fuel + 1, remaining, out, rest =>
    if remaining = 0 then .ok (out, rest)
    else
      let toRead := min remaining streamReadChunkSize
      if rest.length < toRead then .error (.truncated label len)
      else streamLoop label len fuel (remaining - toRead) (out ++ rest.take toRead)
        (rest.drop toRead)

/-- Reads `len` bytes from a stream; returns them and what is left of the stream. -/
def readExactVec (rest : Bytes) (len : Nat) (label : String) : Result (Bytes × Bytes) :=
  streamLoop label len len len [] rest

/-- Feeds `len` bytes of a stream to the hasher. -/
def hashExact (rest : Bytes) (len : Nat) (hasher : Bytes) (label : String) :
    Result (Bytes × Bytes) := do
  let (got, rest) ← streamLoop label len len len [] rest
  return (hasher ++ got, rest)

/-- Collects a header from a stream: nothing at its end, a failure when it ends inside. -/
def readRecordHeaderLoop : Nat → Bytes → Bytes → Result (Option (Bytes × Bytes))
  | 0, header, rest => .ok (some (header, rest))
  | fuel + 1, header, rest =>
    if header.length < headerSize then
      let got := rest.take (headerSize - header.length)
      if got = [] then
        if header = [] then .ok none else .error (.truncatedHeader header.length)
      else readRecordHeaderLoop fuel (header ++ got) (rest.drop got.length)
    else .ok (some (header, rest))

/-- Reads a header from a stream. -/
def readRecordHeader (rest : Bytes) : Result (Option (Bytes × Bytes)) :=
  readRecordHeaderLoop (headerSize + 1) [] rest

section Checksum

variable (crc : Bytes → UInt32)

/-- Compares the checksum of the hashed bytes with the stored one. -/
def checkCrc (hasher : Bytes) (stored : Nat) : Result Unit :=
  if (crc hasher).toNat = stored then .ok () else .error (.crcMismatch stored (crc hasher).toNat)

variable (file : File)

/-- The point reader after the header: key and value in one read. -/
def preadBody (offset : Nat) (h : Header) : Result (Option Record) := do
  let valueSize ← decodedValueSize h.valueSizeRaw h.isTombstone
  let bodyLen ← checkedRecordBodyLen h.keySize valueSize
  checkExtent file bodyLen (checkedAdd offset headerSize) "record body offset"
    "record body end offset" "body"
  let body ← readPart file bodyLen (checkedAdd offset headerSize) "record body offset" "body"
  let key := body.take h.keySize
  let value := body.drop h.keySize
  checkCrc crc (h.covered ++ (key ++ if h.isTombstone then [] else value)) h.storedCrc
  return some (h.record key value)

/-- The point reader. -/
def preadRecord (offset : Nat) : Result (Option Record) := do
  match ← readExactAtOrEof file headerSize offset "header" with
  | none => .ok none
  | some header => preadBody crc file offset (Header.parse header)

variable (rest : Bytes)

/-- The value of a record in a stream; a tombstone has none to read. -/
def streamValue (h : Header) (valueSize : Nat) : Result (Bytes × Bytes) :=
  if h.isTombstone then .ok ([], rest) else readExactVec rest valueSize "value"

/-- The sequential reader after the header: key and value streamed one after the other. -/
def readNextBody (h : Header) : Result (Option (Record × Bytes)) := do
  let valueSize ← decodedValueSize h.valueSizeRaw h.isTombstone
  let (key, rest) ← readExactVec rest h.keySize "key"
  let (value, rest) ← streamValue rest h valueSize
  checkCrc crc (h.covered ++ (key ++ if h.isTombstone then [] else value)) h.storedCrc
  return some (h.record key value, rest)

/-- The sequential reader. -/
def readNextRecord : Result (Option (Record × Bytes)) := do
  match ← readRecordHeader rest with
  | none => .ok none
  | some (header, rest) => readNextBody crc rest (Header.parse header)

/-- Feeds the value of a record in a stream to the hasher; a tombstone has none. -/
def hashValue (h : Header) (valueSize : Nat) (hasher : Bytes) : Result (Bytes × Bytes) :=
  if h.isTombstone then .ok (hasher, rest) else hashExact rest valueSize hasher "value"

/-- The metadata reader after the header: the value goes through the hasher only. -/
def readNextMetadataBody (offset : Nat) (h : Header) :
    Result (Option (RecordMetadata × Bytes)) := do
  let valueSize ← decodedValueSize h.valueSizeRaw h.isTombstone
  let (key, rest) ← readExactVec rest h.keySize "key"
  let (hasher, rest) ← hashValue rest h valueSize (h.covered ++ key)
  checkCrc crc hasher h.storedCrc
  return some (⟨h.timestampMs, h.expireAtMs, key, if h.isTombstone then 0 else h.valueSizeRaw,
    h.isTombstone, offset,
    headerSize + h.keySize + if h.isTombstone then 0 else valueSize⟩, rest)

/-- The metadata reader. -/
def readNextRecordMetadata (offset : Nat) : Result (Option (RecordMetadata × Bytes)) := do
  match ← readRecordHeader rest with
  | none => .ok none
  | some (header, rest) => readNextMetadataBody crc rest offset (Header.parse header)

/-- The keyed value reader once the key has matched. A tombstone has the value size 0, which is
never above the threshold of the early check. -/
def preadKeyedValue (offset : Nat) (key : Bytes) (h : Header) : Result (Option (Option Bytes)) := do
  let valueSize ← decodedValueSize h.valueSizeRaw h.isTombstone
  let valueStart := (checkedAdd offset headerSize).bind (checkedAdd · h.keySize)
  checkExtent file valueSize valueStart "keyed pread value offset" "keyed pread value end" "value"
  let value ← readPart file valueSize valueStart "keyed pread value offset" "value"
  checkCrc crc (h.covered ++ (key ++ if h.isTombstone then [] else value)) h.storedCrc
  return some (if h.isTombstone then none else some value)

/-- The keyed value reader after the header: compares the key first, and returns nothing for
another key. -/
def preadKeyedBody (offset : Nat) (expectedKey : Bytes) (h : Header) :
    Result (Option (Option Bytes)) := do
  let key ← readPart file h.keySize (checkedAdd offset headerSize) "keyed pread key offset" "key"
  if key ≠ expectedKey then .ok none else preadKeyedValue crc file offset key h

/-- The keyed value reader. -/
def preadValueForKey (offset : Nat) (expectedKey : Bytes) : Result (Option (Option Bytes)) := do
  match ← readExactAtOrEof file headerSize offset "header" with
  | none => .ok none
  | some header => preadKeyedBody crc file offset expectedKey (Header.parse header)

/-- Streams a range of the source into the writer and the hasher, chunk by chunk. -/
def copyHashedRange (file : File) (label : String) :
    Nat → LogWriter → Nat → Nat → Bytes → Result Bytes × LogWriter
  | 0, w, _, _, hasher => (.ok hasher, w)
  | fuel + 1, w, readOffset, remaining, hasher =>
    if remaining = 0 then (.ok hasher, w)
    else
      let chunkLen := min remaining streamReadChunkSize
      match readExactAtOrEof file chunkLen readOffset label with
      | .error e => (.error e, w)
      | .ok none => (.error (.shortRead label chunkLen 0), w)
      | .ok (some chunk) =>
        match w.writeRaw chunk with
        | (.error e, w) => (.error e, w)
        | (.ok _, w) =>
          match checkedAdd readOffset chunkLen with
          | none => (.error (.overflow ("raw copy " ++ label ++ " offset")), w)
          | some next =>
            copyHashedRange file label fuel w next (remaining - chunkLen)
              (hasher ++ chunk)

/-- The body of a raw copy: key and value streamed after the header, then the checksum. -/
def copyBody (w : LogWriter) (offset : Nat) (h : Header) (valueSize : Nat) :
    Result Unit × LogWriter :=
  match checkedAdd offset headerSize with
  | none => (.error (.overflow "raw copy key offset"), w)
  | some keyOffset =>
    match copyHashedRange file "key" h.keySize w keyOffset h.keySize h.covered with
    | (.error e, w) => (.error e, w)
    | (.ok hasher, w) =>
      if h.isTombstone then (checkCrc crc hasher h.storedCrc, w)
      else
        match checkedAdd keyOffset h.keySize with
        | none => (.error (.overflow "raw copy value offset"), w)
        | some valueOffset =>
          match copyHashedRange file "value" valueSize w valueOffset valueSize hasher with
          | (.error e, w) => (.error e, w)
          | (.ok hasher, w) => (checkCrc crc hasher h.storedCrc, w)

/-- What the raw copier does before it writes: the value size, or nothing for a tombstone that is
not wanted. -/
def copyPlanBody (offset : Nat) (copyTombstone : Bool) (h : Header) : Result (Option Nat) := do
  let valueSize ← decodedValueSize h.valueSizeRaw h.isTombstone
  if h.isTombstone && !copyTombstone then do
    let keyOffset ← orFail (checkedAdd offset headerSize) (.overflow "skipped tombstone key offset")
    let key ← readPart file h.keySize (some keyOffset) "" "tombstone key"
    checkCrc crc (h.covered ++ key) h.storedCrc
    return none
  else
    let bodyLen ← checkedRecordBodyLen h.keySize valueSize
    checkExtent file bodyLen (checkedAdd offset headerSize) "raw copy body offset"
      "raw copy body end" "body"
    return some valueSize

/-- The raw copier after the header: writes the header, streams the body, and rolls the
destination back when the body or its checksum fails. -/
def copyRecordBody (w : LogWriter) (offset : Nat) (copyTombstone : Bool)
    (header : Bytes) (h : Header) : Result (Option RawCopyResult) × LogWriter :=
  match copyPlanBody crc file offset copyTombstone h with
  | .error e => (.error e, w)
  | .ok none => (.ok none, w)
  | .ok (some valueSize) =>
    match w.writeRaw header with
    | (.error e, w) => (.error e, w)
    | (.ok newOffset, w) =>
      match copyBody crc file w offset h valueSize with
      | (.ok (), w) =>
        (.ok (some ⟨newOffset, headerSize + (h.keySize + valueSize), valueSize,
          h.isTombstone⟩), w)
      | (.error cause, w) =>
        match w.rollbackTo newOffset with
        | (.ok (), w) => (.error cause, w)
        | (.error rollback, w) =>
          (.error (.rollbackFailed "raw copy failed" cause.text rollback.text), w)

/-- The raw copier. -/
def copyRecordRaw (w : LogWriter) (offset : Nat) (copyTombstone : Bool) :
    Result (Option RawCopyResult) × LogWriter :=
  match readExactAtOrEof file headerSize offset "header" with
  | .error e => (.error e, w)
  | .ok none => (.ok none, w)
  | .ok (some header) => copyRecordBody crc file w offset copyTombstone header (Header.parse header)

/-! ## What the reads return -/

variable {file} {label : String}

/-- A positioned read succeeds exactly when the bytes are there. -/
theorem read_exact_at_or_eof_some_iff {len offset : Nat} {got : Bytes} (hlen : 0 < len) :
    readExactAtOrEof file len offset label = .ok (some got) ↔
      offset + len ≤ file.bytes.length ∧ got = slice file.bytes offset len := by
  have hlt := file.len_lt
  have hslice := length_slice file.bytes offset len
  unfold readExactAtOrEof
  by_cases hfit : offset + len ≤ file.bytes.length
  · rw [if_neg (by omega), if_neg (by omega), if_pos (by omega)]
    simp [hfit, eq_comm]
  · simp only [hfit, false_and, iff_false]
    split_ifs <;> first | omega | simp

/-- A part is read exactly when its bytes are there. -/
theorem read_part_ok_iff {len start : Nat} {what label : String} {got : Bytes}
    (hstart : start ≤ file.bytes.length) :
    readPart file len (some start) what label = .ok got ↔
      start + len ≤ file.bytes.length ∧ got = slice file.bytes start len := by
  unfold readPart
  split
  · rename_i hlen
    simp only [orFail_some, ok_bind, readExactAtRequired, bind_eq_ok_iff]
    constructor
    · rintro ⟨found, hread, hgot⟩
      cases found with
      | none => cases hgot
      | some found =>
        cases hgot
        exact (read_exact_at_or_eof_some_iff hlen).mp hread
    · intro h
      exact ⟨some got, (read_exact_at_or_eof_some_iff hlen).mpr h, rfl⟩
  · obtain rfl : len = 0 := by omega
    simp only [slice, take_zero, Except.ok.injEq]
    constructor
    · intro h
      exact ⟨by omega, h.symm⟩
    · intro h
      exact h.2.symm

/-- Below the offset bound two offsets of a file can be added. -/
theorem checked_add_of_le {a b : Nat} (h : a + b ≤ file.bytes.length) :
    checkedAdd a b = some (a + b) := by
  have hlt := file.len_lt
  simp only [maxOffset] at hlt
  rw [checkedAdd, if_pos (by omega)]

/-- The early check lets through what is there. -/
theorem check_extent_ok {len start : Nat} {startWhat endWhat what : String}
    (h : start + len ≤ file.bytes.length) :
    checkExtent file len (some start) startWhat endWhat what = .ok () := by
  unfold checkExtent
  split
  · rw [orFail_some, ok_bind, checked_add_of_le h, orFail_some, ok_bind, if_neg (by omega)]
  · rfl

variable {len : Nat}

/-- A read asks for at least a byte, and for no more than what remains. -/
theorem read_size {remaining : Nat} (h : remaining ≠ 0) :
    ∃ size, min remaining streamReadChunkSize = size ∧ 0 < size ∧ size ≤ remaining := by
  refine ⟨_, rfl, ?_, Nat.min_le_left _ _⟩
  simp only [streamReadChunkSize]
  omega

/-- Streaming takes the asked bytes off the stream, or fails when the stream is shorter. -/
theorem stream_loop_eq : ∀ {fuel remaining : Nat} {out rest : Bytes},
    remaining ≤ fuel → streamLoop label len fuel remaining out rest =
      if remaining ≤ rest.length then .ok (out ++ rest.take remaining, rest.drop remaining)
      else .error (.truncated label len) := by
  intro fuel
  induction fuel with
  | zero =>
    intro remaining out rest hfuel
    obtain rfl : remaining = 0 := by omega
    simp [streamLoop]
  | succ fuel ih =>
    intro remaining out rest hfuel
    unfold streamLoop
    by_cases hzero : remaining = 0
    · simp [hzero]
    · obtain ⟨size, hsize, hpos, hle⟩ := read_size hzero
      rw [if_neg hzero, hsize]
      by_cases hshort : rest.length < size
      · rw [if_pos hshort, if_neg (by omega)]
      · rw [if_neg hshort, ih (by omega), length_drop, append_assoc, drop_drop,
          ← take_add, Nat.add_sub_cancel' hle]
        by_cases hfit : remaining ≤ rest.length
        · rw [if_pos (by omega), if_pos hfit]
        · rw [if_neg (by omega), if_neg hfit]

/-- Reading from a stream succeeds exactly when the bytes are there. -/
theorem read_exact_vec_eq (len : Nat) (label : String) : readExactVec rest len label =
      if len ≤ rest.length then .ok (rest.take len, rest.drop len)
      else .error (.truncated label len) := by
  rw [readExactVec, stream_loop_eq le_rfl, nil_append]

/-- Hashing from a stream takes the same bytes. -/
theorem hash_exact_eq (len : Nat) (hasher : Bytes) (label : String) :
    hashExact rest len hasher label =
      if len ≤ rest.length then .ok (hasher ++ rest.take len, rest.drop len)
      else .error (.truncated label len) := by
  rw [hashExact, stream_loop_eq le_rfl]
  split <;> simp

/-- The header loop finds nothing at the end, fails inside a header, and takes 26 bytes else. -/
theorem read_record_header_eq : readRecordHeader rest = if rest = [] then .ok none
      else if rest.length < headerSize then .error (.truncatedHeader rest.length)
      else .ok (some (slice rest 0 headerSize, rest.drop headerSize)) := by
  rw [readRecordHeader, readRecordHeaderLoop, if_pos (by simp [headerSize])]
  simp only [length_nil, Nat.sub_zero, take_eq_nil_iff, nil_append]
  by_cases hnil : rest = []
  · simp [hnil]
  · rw [if_neg (by simp [hnil, headerSize]), if_neg hnil]
    by_cases hshort : rest.length < headerSize
    · -- the first read empties the stream, the second finds its end
      rw [if_pos hshort, take_of_length_le (by omega), drop_length, headerSize,
        readRecordHeaderLoop, if_pos hshort]
      simp [hnil]
    · have hfull : (rest.take headerSize).length = headerSize := by
        rw [length_take]
        omega
      rw [if_neg hshort, hfull, slice, drop_zero]
      conv_lhs => rw [headerSize, readRecordHeaderLoop, if_neg (by rw [← headerSize, hfull]; omega)]
      rfl

/-! ## What each reader accepts -/

theorem check_crc_ok_iff {hasher : Bytes} {stored : Nat} {u : Unit} :
    checkCrc crc hasher stored = .ok u ↔ (crc hasher).toNat = stored := by
  unfold checkCrc
  split <;> simp_all

variable {h : Header}

/-- A tombstone announces no value bytes. -/
theorem decoded_value_size_tombstone {size : Nat} (htomb : h.isTombstone = true)
    (hsize : decodedValueSize h.valueSizeRaw h.isTombstone = .ok size) : size = 0 := by
  rw [htomb] at hsize
  cases hsize
  rfl

/-- Key sizes are 16-bit. -/
theorem front_header_key_size_lt : (frontHeader rest).keySize < 2 ^ 16 := by
  have hlen : (slice (slice rest 0 headerSize) 20 2).length ≤ 2 := by
    rw [length_slice]
    omega
  calc (frontHeader rest).keySize < 256 ^ (slice (slice rest 0 headerSize) 20 2).length := leNat_lt _
    _ ≤ 256 ^ 2 := Nat.pow_le_pow_right (by norm_num) hlen
    _ = 2 ^ 16 := by norm_num

variable {valueSize : Nat}

/-- An allowed value size is at most the limit, so a body length never overflows. -/
theorem checked_record_body_len_ok (hkey : h.keySize < 2 ^ 16)
    (hvalue : decodedValueSize h.valueSizeRaw h.isTombstone = .ok valueSize) :
    checkedRecordBodyLen h.keySize valueSize = .ok (h.keySize + valueSize) := by
  have hsize : valueSize ≤ maxValueSize := by
    unfold decodedValueSize at hvalue
    split_ifs at hvalue <;> cases hvalue <;> omega
  simp only [maxValueSize] at hsize
  rw [checkedRecordBodyLen, checkedAdd, if_pos (by omega), orFail_some]

variable {offset : Nat}

/-- Reading the header of a file at an offset. -/
theorem read_header_iff {header : Bytes} :
    readExactAtOrEof file headerSize offset "header" = .ok (some header) ↔
      headerSize ≤ (file.bytes.drop offset).length ∧
        header = slice (file.bytes.drop offset) 0 headerSize := by
  rw [read_exact_at_or_eof_some_iff (by simp [headerSize]), slice_drop, Nat.add_zero, length_drop]
  apply and_congr_left
  intro _
  simp only [headerSize]
  omega

/-- What a header and the bytes it stands in front of must satisfy to be a record with that value
size. -/
def Whole (h : Header) (valueSize : Nat) : Prop :=
  decodedValueSize h.valueSizeRaw h.isTombstone = .ok valueSize ∧
    headerSize + h.keySize + valueSize ≤ rest.length ∧
    (crc (h.covered ++ (slice rest headerSize h.keySize ++
      slice rest (headerSize + h.keySize) valueSize))).toNat = h.storedCrc

/-- The record behind a header, in the bytes that it stands in front of. -/
abbrev Header.recordIn (h : Header) (rest : Bytes) (valueSize : Nat) : Record :=
  h.record (slice rest headerSize h.keySize) (slice rest (headerSize + h.keySize) valueSize)

variable {rest} {record : Record}

theorem Whole.header_le (hwhole : Whole crc rest h valueSize) : headerSize ≤ rest.length := by
  have := hwhole.2.1
  omega

/-- A whole record has its header. -/
theorem header_and_iff {body : Prop} {found : Nat → Prop}
    (hbody : headerSize ≤ rest.length → (body ↔ ∃ valueSize, Whole crc rest h valueSize ∧
      found valueSize)) :
    headerSize ≤ rest.length ∧ body ↔ ∃ valueSize, Whole crc rest h valueSize ∧ found valueSize := by
  constructor
  · exact fun ⟨hheader, hfound⟩ => (hbody hheader).mp hfound
  · intro hfound
    obtain ⟨valueSize, hwhole, -⟩ := id hfound
    exact ⟨hwhole.header_le crc, (hbody (hwhole.header_le crc)).mpr hfound⟩

/-- A byte string starts with a record exactly when its header is whole. -/
theorem decode_record_whole : decodeRecord crc rest = some (record, len) ↔
      ∃ valueSize, Whole crc rest (frontHeader rest) valueSize ∧
        len = headerSize + (frontHeader rest).keySize + valueSize ∧
        record = (frontHeader rest).recordIn rest valueSize := by
  rw [decode_record_iff]
  apply exists_congr
  intro valueSize
  constructor
  · rintro ⟨hvalue, rfl, hfit, hcrc, hrecord⟩
    exact ⟨⟨hvalue, hfit, hcrc⟩, rfl, hrecord⟩
  · rintro ⟨⟨hvalue, hfit, hcrc⟩, rfl, hrecord⟩
    exact ⟨hvalue, rfl, hfit, hcrc, hrecord⟩

/-- The value bytes of a tombstone are empty already. -/
theorem live_value_eq (rest : Bytes) (start : Nat)
    (hvalue : decodedValueSize h.valueSizeRaw h.isTombstone = .ok valueSize) :
    (if h.isTombstone then [] else slice rest start valueSize) = slice rest start valueSize := by
  split
  · rename_i htomb
    rw [decoded_value_size_tombstone htomb hvalue, slice, take_zero]
  · rfl

/-- The key and the value inside a body read in one piece. -/
theorem body_parts (bytes : Bytes) (offset keySize valueSize : Nat) :
    (slice bytes (offset + headerSize) (keySize + valueSize)).take keySize =
        slice (bytes.drop offset) headerSize keySize ∧
      (slice bytes (offset + headerSize) (keySize + valueSize)).drop keySize =
        slice (bytes.drop offset) (headerSize + keySize) valueSize := by
  simp [slice, take_take, drop_take, Nat.add_assoc]

/-- The body of a record starts inside a file that holds its header. -/
theorem body_start_le (hheader : headerSize ≤ (file.bytes.drop offset).length) :
    offset + headerSize ≤ file.bytes.length := by
  rw [length_drop] at hheader
  simp only [headerSize] at hheader ⊢
  omega

/-- The early check refuses nothing that the read would find. -/
theorem extent_and_read_iff {start : Nat} {startWhat endWhat kind what label : String}
    {found : Bytes → Prop} (hstart : start ≤ file.bytes.length) :
    (∃ u, checkExtent file len (some start) startWhat endWhat kind = .ok u ∧
      ∃ got, readPart file len (some start) what label = .ok got ∧ found got) ↔
      start + len ≤ file.bytes.length ∧ found (slice file.bytes start len) := by
  simp only [read_part_ok_iff hstart, and_assoc, exists_and_left, exists_eq_left]
  exact ⟨fun ⟨_, _, hfound⟩ => hfound, fun hfound => ⟨(), check_extent_ok hfound.1, hfound⟩⟩

/-- The point reader accepts a whole record, and nothing else. -/
theorem pread_body_iff
    (hheader : headerSize ≤ (file.bytes.drop offset).length) (hkey : h.keySize < 2 ^ 16) :
    preadBody crc file offset h = .ok (some record) ↔
      ∃ valueSize, Whole crc (file.bytes.drop offset) h valueSize ∧
        record = h.recordIn (file.bytes.drop offset) valueSize := by
  have hstart := body_start_le hheader
  simp only [preadBody, bind_eq_ok_iff, checked_add_of_le hstart, Whole, and_assoc]
  refine exists_congr fun valueSize => and_congr_right fun hvalue => ?_
  obtain ⟨hk, hv⟩ := body_parts file.bytes offset h.keySize valueSize
  have hfit : offset + headerSize + (h.keySize + valueSize) ≤ file.bytes.length ↔
      headerSize + h.keySize + valueSize ≤ (file.bytes.drop offset).length := by
    rw [length_drop]
    omega
  simp [checked_record_body_len_ok hkey hvalue, extent_and_read_iff hstart, check_crc_ok_iff, hk,
    hv, live_value_eq _ _ hvalue, hfit, @eq_comm _ _ record]

/-- The point reader accepts exactly the records of the format. -/
theorem pread_record_iff : preadRecord crc file offset = .ok (some record) ↔
      ∃ len, decodeRecord crc (file.bytes.drop offset) = some (record, len) := by
  simp only [preadRecord, bind_eq_ok_iff, Option.exists, Except.ok.injEq, reduceCtorEq, and_false,
    false_or, read_header_iff, and_assoc, exists_and_left, exists_eq_left, decode_record_whole,
    @exists_comm Nat]
  exact header_and_iff crc fun hfit => pread_body_iff crc hfit (front_header_key_size_lt _)

/-- A header is taken off a stream exactly when the stream has one. -/
theorem read_record_header_some_iff {rest header later : Bytes} :
    readRecordHeader rest = .ok (some (header, later)) ↔
      headerSize ≤ rest.length ∧ header = slice rest 0 headerSize ∧
        later = rest.drop headerSize := by
  rw [read_record_header_eq]
  by_cases hnil : rest = []
  · simp [hnil, headerSize]
  · rw [if_neg hnil]
    by_cases hshort : rest.length < headerSize
    · rw [if_pos hshort]
      simp
      omega
    · rw [if_neg hshort]
      simp only [Except.ok.injEq, some.injEq, Prod.mk.injEq]
      constructor
      · rintro ⟨rfl, rfl⟩
        exact ⟨by omega, rfl, rfl⟩
      · rintro ⟨-, rfl, rfl⟩
        exact ⟨rfl, rfl⟩

/-- Bytes are taken off a stream exactly when the stream has them. -/
theorem read_exact_vec_ok_iff {rest got later : Bytes} :
    readExactVec rest len label = .ok (got, later) ↔
      len ≤ rest.length ∧ got = rest.take len ∧ later = rest.drop len := by
  rw [read_exact_vec_eq]
  split <;> simp_all [eq_comm]

/-- The hasher takes bytes off a stream exactly when the stream has them. -/
theorem hash_exact_ok_iff {rest hasher hashed later : Bytes} :
    hashExact rest len hasher label = .ok (hashed, later) ↔
      len ≤ rest.length ∧ hashed = hasher ++ rest.take len ∧ later = rest.drop len := by
  rw [hash_exact_eq]
  split <;> simp_all [eq_comm]

section

variable (hvalue : decodedValueSize h.valueSizeRaw h.isTombstone = .ok valueSize)
include hvalue

/-- The value of a record is taken off a stream exactly when the stream has it. -/
theorem stream_value_ok_iff {rest value later : Bytes} :
    streamValue rest h valueSize = .ok (value, later) ↔
      valueSize ≤ rest.length ∧ value = rest.take valueSize ∧ later = rest.drop valueSize := by
  unfold streamValue
  split
  · rename_i htomb
    obtain rfl := decoded_value_size_tombstone htomb hvalue
    simp [eq_comm]
  · exact read_exact_vec_ok_iff

/-- The value of a record is hashed off a stream exactly when the stream has it. -/
theorem hash_value_ok_iff {rest hasher hashed later : Bytes} :
    hashValue rest h valueSize hasher = .ok (hashed, later) ↔
      valueSize ≤ rest.length ∧ hashed = hasher ++ rest.take valueSize ∧
        later = rest.drop valueSize := by
  unfold hashValue
  split
  · rename_i htomb
    obtain rfl := decoded_value_size_tombstone htomb hvalue
    simp [eq_comm]
  · exact hash_exact_ok_iff

end

variable {later : Bytes}

/-- The sequential reader accepts a whole record, and leaves what follows it. -/
theorem read_next_body_iff (hheader : headerSize ≤ rest.length) :
    readNextBody crc (rest.drop headerSize) h = .ok (some (record, later)) ↔
      ∃ valueSize, Whole crc rest h valueSize ∧ record = h.recordIn rest valueSize ∧
        later = rest.drop (headerSize + h.keySize + valueSize) := by
  simp only [readNextBody, bind_eq_ok_iff, Whole, Header.recordIn, and_assoc]
  refine exists_congr fun valueSize => and_congr_right fun hvalue => ?_
  have hlive := live_value_eq rest (headerSize + h.keySize) hvalue
  have hfit : headerSize + h.keySize + valueSize ≤ rest.length ↔
      h.keySize ≤ rest.length - headerSize ∧
        valueSize ≤ rest.length - (headerSize + h.keySize) := by omega
  simp only [slice] at hlive ⊢
  simp [hfit, check_crc_ok_iff, read_exact_vec_ok_iff, stream_value_ok_iff hvalue, and_assoc, hlive,
    @eq_comm _ record, @eq_comm _ later]

/-- The sequential reader accepts exactly the records of the format. -/
theorem read_next_record_iff : readNextRecord crc rest = .ok (some (record, later)) ↔
      ∃ len, decodeRecord crc rest = some (record, len) ∧ later = rest.drop len := by
  simp only [readNextRecord, bind_eq_ok_iff, Option.exists, Prod.exists, Except.ok.injEq,
    reduceCtorEq, and_false, false_or, read_record_header_some_iff, and_assoc, exists_and_left,
    exists_eq_left, decode_record_whole, ← exists_and_right, @exists_comm Nat]
  exact header_and_iff crc fun hfit => read_next_body_iff crc hfit

/-- The metadata of a record of a given length at an offset. -/
def Record.metadata (record : Record) (offset len : Nat) : RecordMetadata :=
  ⟨record.timestampMs, record.expireAtMs, record.key, (record.value.getD []).length,
    record.value.isNone, offset, len⟩

/-- The metadata reader accepts a whole record, and reports its metadata. -/
theorem read_next_metadata_body_iff {found : RecordMetadata} (hheader : headerSize ≤ rest.length) :
    readNextMetadataBody crc (rest.drop headerSize) offset h = .ok (some (found, later)) ↔
      ∃ valueSize, Whole crc rest h valueSize ∧
        found = (h.recordIn rest valueSize).metadata offset (headerSize + h.keySize + valueSize) ∧
        later = rest.drop (headerSize + h.keySize + valueSize) := by
  simp only [readNextMetadataBody, bind_eq_ok_iff, Whole, and_assoc]
  refine exists_congr fun valueSize => and_congr_right fun hvalue => ?_
  have hfit : headerSize + h.keySize + valueSize ≤ rest.length ↔
      h.keySize ≤ rest.length - headerSize ∧
        valueSize ≤ rest.length - (headerSize + h.keySize) := by omega
  have hmetadata (hfit : headerSize + h.keySize + valueSize ≤ rest.length) :
      (⟨h.timestampMs, h.expireAtMs, slice rest headerSize h.keySize,
        if h.isTombstone then 0 else h.valueSizeRaw, h.isTombstone, offset,
        headerSize + h.keySize + if h.isTombstone then 0 else valueSize⟩ : RecordMetadata) =
      (h.recordIn rest valueSize).metadata offset (headerSize + h.keySize + valueSize) := by
    by_cases htomb : h.isTombstone
    · simp [Record.metadata, Header.record, htomb, decoded_value_size_tombstone htomb hvalue]
    · have hraw : h.valueSizeRaw = valueSize := by
        unfold decodedValueSize at hvalue
        split_ifs at hvalue
        cases hvalue
        rfl
      simp [Record.metadata, Header.record, htomb, hraw, length_slice_of_le hfit]
  simp only [slice] at hmetadata ⊢
  simp only [check_crc_ok_iff, Prod.exists, read_exact_vec_ok_iff, hash_value_ok_iff hvalue,
    pure_eq_ok, Except.ok.injEq, some.injEq, Prod.mk.injEq, length_drop, drop_drop, and_assoc,
    append_assoc, exists_and_left, exists_eq_left, exists_const]
  rw [← and_assoc, ← hfit]
  refine and_congr_right fun hfit => ?_
  rw [hmetadata hfit, @eq_comm _ found, @eq_comm _ later]

/-- The metadata reader accepts exactly the records of the format. -/
theorem read_next_record_metadata_iff (offset : Nat) {found : RecordMetadata} :
    readNextRecordMetadata crc rest offset = .ok (some (found, later)) ↔
      ∃ record len, decodeRecord crc rest = some (record, len) ∧
        found = record.metadata offset len ∧ later = rest.drop len := by
  simp only [readNextRecordMetadata, bind_eq_ok_iff, Option.exists, Prod.exists, Except.ok.injEq,
    reduceCtorEq, and_false, false_or, read_record_header_some_iff, and_assoc, exists_and_left,
    exists_eq_left, decode_record_whole, ← exists_and_right, @exists_comm _ Nat]
  exact header_and_iff crc fun hfit => read_next_metadata_body_iff crc hfit

/-- The metadata reader finds nothing only at the end of the stream. -/
theorem read_next_record_metadata_none_iff :
    readNextRecordMetadata crc rest offset = .ok none ↔ rest = [] := by
  unfold readNextRecordMetadata
  rw [read_record_header_eq]
  split_ifs with hnil hshort
  · simp [hnil]
  · simp [hnil]
  · simp only [hnil, iff_false, ok_bind, readNextMetadataBody, bind_eq_ok_iff, pure_eq_ok]
    rintro ⟨_, _, _, _, _, _, _, _, h⟩
    cases h

/-- Inside a record the metadata reader reports a torn record. -/
theorem read_next_record_metadata_torn {len n : Nat}
    (offset : Nat) (hdecode : decodeRecord crc rest = some (record, len)) (hpos : 0 < n)
    (hn : n < len) :
    ∃ e, readNextRecordMetadata crc (rest.take n) offset = .error e ∧
      e.isTruncatedRecord = true := by
  obtain ⟨valueSize, ⟨hvalue, hfit, -⟩, rfl, -⟩ := (decode_record_whole crc).mp hdecode
  have hlen : (rest.take n).length = n := by
    rw [length_take]
    omega
  have hnil : rest.take n ≠ [] := ne_nil_of_length_pos (by omega)
  unfold readNextRecordMetadata
  rw [read_record_header_eq, if_neg hnil, hlen]
  by_cases hshort : n < headerSize
  · rw [if_pos hshort]
    exact ⟨_, rfl, rfl⟩
  · rw [if_neg hshort, slice_take (by omega), ok_bind]
    change ∃ e, readNextMetadataBody crc _ offset (frontHeader rest) = .error e ∧ _
    unfold readNextMetadataBody
    rw [hvalue, ok_bind, read_exact_vec_eq, length_drop, hlen]
    by_cases hkey : (frontHeader rest).keySize ≤ n - headerSize
    · rw [if_pos hkey, ok_bind]
      dsimp only
      by_cases htomb : (frontHeader rest).isTombstone
      · have := decoded_value_size_tombstone htomb hvalue
        omega
      · rw [hashValue, if_neg htomb, hash_exact_eq, if_neg (by
          simp only [length_drop, hlen]
          omega)]
        exact ⟨_, rfl, rfl⟩
    · rw [if_neg hkey]
      exact ⟨_, rfl, rfl⟩

/-- The keyed value reader accepts a whole record under its own key. -/
theorem pread_keyed_body_iff {key : Bytes}
    {value : Option Bytes} (hheader : headerSize ≤ (file.bytes.drop offset).length) :
    preadKeyedBody crc file offset key h = .ok (some value) ↔
      ∃ valueSize, Whole crc (file.bytes.drop offset) h valueSize ∧
        key = slice (file.bytes.drop offset) headerSize h.keySize ∧
        value = if h.isTombstone then none
          else some (slice (file.bytes.drop offset) (headerSize + h.keySize) valueSize) := by
  have hstart := body_start_le hheader
  simp only [preadKeyedBody, bind_eq_ok_iff, checked_add_of_le hstart, read_part_ok_iff hstart,
    and_assoc, exists_and_left, exists_eq_left, Whole, slice_drop]
  by_cases hkey : offset + headerSize + h.keySize ≤ file.bytes.length
  · simp only [hkey, true_and]
    by_cases hmatch : slice file.bytes (offset + headerSize) h.keySize = key
    · rw [if_neg (not_not.mpr hmatch)]
      simp only [preadKeyedValue, bind_eq_ok_iff, checked_add_of_le hstart, bind_some,
        checked_add_of_le hkey]
      refine exists_congr fun valueSize => and_congr_right fun hvalue => ?_
      have hfit : offset + headerSize + h.keySize + valueSize ≤ file.bytes.length ↔
          headerSize + h.keySize + valueSize ≤ (file.bytes.drop offset).length := by
        rw [length_drop]
        omega
      simp [extent_and_read_iff hkey, check_crc_ok_iff, live_value_eq _ _ hvalue, hfit, hmatch,
        ← Nat.add_assoc, @eq_comm _ _ value]
    · rw [if_pos hmatch]
      exact iff_of_false nofun fun ⟨_, _, _, _, heq, _⟩ => hmatch heq.symm
  · refine iff_of_false (fun hand => hkey hand.1) fun ⟨_, _, hfit, _⟩ => hkey ?_
    rw [length_drop] at hfit
    omega

/-- The keyed value reader accepts exactly the records of the format, under their own key. -/
theorem pread_value_for_key_iff {key : Bytes} {value : Option Bytes} :
    preadValueForKey crc file offset key = .ok (some value) ↔
      ∃ record len, decodeRecord crc (file.bytes.drop offset) = some (record, len) ∧
        record.key = key ∧ record.value = value := by
  simp only [preadValueForKey, bind_eq_ok_iff, Option.exists, Except.ok.injEq, reduceCtorEq,
    and_false, false_or, read_header_iff, and_assoc, exists_and_left, exists_eq_left,
    decode_record_whole, ← exists_and_right, @exists_comm _ Nat, @eq_comm _ _ key,
    @eq_comm _ _ value]
  exact header_and_iff crc fun hfit => pread_keyed_body_iff crc hfit

/-! ## The raw copier -/

/-- A writer whose coming writes go through, with room for `len` more bytes. -/
def LogWriter.Ready (w : LogWriter) (len : Nat) : Prop :=
  w.backend.Ready len

variable {w w' : LogWriter}

/-- The writer and its backend stand at the end of the file. -/
def LogWriter.AtEnd (w : LogWriter) : Prop :=
  w.offset = w.backend.file.length ∧ w.backend.offset = w.backend.file.length

/-- A write that succeeds appends its bytes and reports where they start, and one whose failure was
rolled back leaves the writer at the end of the file. -/
theorem write_raw_spec {data : Bytes} {result : Result Nat} : w.writeRaw data = (result, w') →
    match result with
    | .ok start => start = w.backend.file.length ∧ w'.backend.file = w.backend.file ++ data
    | .error e => w.backend.file <+: w'.backend.file ∧ (e.isRollbackFailed = false → w.AtEnd →
        w'.backend.file = w.backend.file ∧ w'.AtEnd) := by
  intro h
  unfold LogWriter.writeRaw LogWriter.publish at h
  split at h <;> rename_i b hrun <;> cases h
  · obtain ⟨hstart, hfile, -⟩ := Backend.append_spec hrun
    exact ⟨hstart, hfile⟩
  · obtain ⟨hkept, hundone⟩ := Backend.append_spec hrun
    refine ⟨hkept, fun hother hend => ?_⟩
    obtain ⟨hfile, hnext⟩ := hundone hother
    rw [LogWriter.AtEnd, hfile]
    exact ⟨rfl, hend.1, hnext.elim (·.trans hend.2) id⟩

/-- A ready writer takes the bytes it has room for and stays ready for the others. -/
theorem write_raw_ready (data : Bytes) (len : Nat) (h : w.Ready (data.length + len)) :
    ∃ w', w.writeRaw data = (.ok w.backend.file.length, w') ∧ w'.Ready len := by
  obtain ⟨b, happend, hready⟩ := Backend.append_ready data len h
  exact ⟨⟨b, b.offset⟩, by simp only [LogWriter.writeRaw, LogWriter.publish, happend], hready⟩

/-- A range that was copied is in the source, and its bytes were appended and hashed. One that fails
keeps what was in the file. -/
theorem copy_hashed_range_spec :
    ∀ {fuel remaining start : Nat} {w w' : LogWriter} {hasher : Bytes} {result : Result Bytes},
      remaining ≤ fuel → start ≤ file.bytes.length →
      copyHashedRange file label fuel w start remaining hasher = (result, w') →
      match result with
      | .ok hashed => start + remaining ≤ file.bytes.length ∧
          hashed = hasher ++ slice file.bytes start remaining ∧
          w'.backend.file = w.backend.file ++ slice file.bytes start remaining
      | .error _ => w.backend.file <+: w'.backend.file := by
  intro fuel
  induction fuel with
  | zero =>
    intro remaining start w w' hasher result hfuel hstart h
    obtain rfl : remaining = 0 := by omega
    cases h
    simp [slice, hstart]
  | succ fuel ih =>
    intro remaining start w w' hasher result hfuel hstart h
    unfold copyHashedRange at h
    by_cases hzero : remaining = 0
    · rw [if_pos hzero] at h
      cases h
      simp [slice, hzero, hstart]
    · obtain ⟨size, hsize, hpos, hle⟩ := read_size hzero
      rw [if_neg hzero, hsize] at h
      dsimp only at h
      split at h
      · cases h
        exact prefix_rfl
      · cases h
        exact prefix_rfl
      · rename_i chunk hread
        obtain ⟨hfit, rfl⟩ := (read_exact_at_or_eof_some_iff hpos).mp hread
        split at h <;> rename_i w₁ hwrite
        · cases h
          exact (write_raw_spec hwrite).1
        · obtain ⟨-, hfile⟩ := write_raw_spec hwrite
          rw [checked_add_of_le hfit] at h
          have hrest := ih (by omega) hfit h
          cases result with
          | ok hashed =>
            obtain ⟨hend, rfl, hfile'⟩ := hrest
            have hsplit := slice_add file.bytes start size (remaining - size)
            rw [Nat.add_sub_cancel' hle] at hsplit
            refine ⟨by omega, ?_, ?_⟩
            · rw [hsplit, append_assoc]
            · rw [hfile', hfile, hsplit, append_assoc]
          | error e => exact IsPrefix.trans ⟨_, hfile.symm⟩ hrest

/-- A range that is in the source is copied to a ready writer. -/
theorem copy_hashed_range_ready (label : String) (len : Nat) :
    ∀ (fuel : Nat) {remaining start : Nat} {w : LogWriter} (hasher : Bytes),
      start + remaining ≤ file.bytes.length → w.Ready (remaining + len) →
      ∃ hashed w', copyHashedRange file label fuel w start remaining hasher = (.ok hashed, w') ∧
        w'.Ready len := by
  intro fuel
  induction fuel with
  | zero =>
    intro remaining start w hasher hfit hready
    exact ⟨hasher, w, rfl, hready.1, by have := hready.2; omega⟩
  | succ fuel ih =>
    intro remaining start w hasher hfit hready
    unfold copyHashedRange
    by_cases hzero : remaining = 0
    · rw [if_pos hzero]
      exact ⟨hasher, w, rfl, hready.1, by have := hready.2; omega⟩
    · obtain ⟨size, hsize, hpos, hle⟩ := read_size hzero
      have hnext : start + size ≤ file.bytes.length := by omega
      have hread : readExactAtOrEof file size start label =
          .ok (some (slice file.bytes start size)) :=
        (read_exact_at_or_eof_some_iff hpos).mpr ⟨hnext, rfl⟩
      have hroom : w.Ready ((slice file.bytes start size).length + (remaining - size + len)) := by
        rw [length_slice_of_le hnext]
        exact ⟨hready.1, by have := hready.2; omega⟩
      obtain ⟨w₁, hwrite, hready₁⟩ := write_raw_ready _ _ hroom
      rw [if_neg hzero, hsize]
      dsimp only
      rw [hread]
      dsimp only
      rw [hwrite]
      rw [checked_add_of_le hnext]
      exact ih _ (by omega) hready₁

/-- What a raw copy reports of a record. -/
def Record.copied (record : Record) (offset len : Nat) : RawCopyResult :=
  ⟨offset, len, (record.value.getD []).length, record.value.isNone⟩

/-- A body that was copied makes a whole record with its header. One that fails keeps what was in the
file. -/
theorem copy_body_spec {result : Result Unit} (hheader : offset + headerSize ≤ file.bytes.length)
    (hvalue : decodedValueSize h.valueSizeRaw h.isTombstone = .ok valueSize) :
    copyBody crc file w offset h valueSize = (result, w') →
    match result with
    | .ok _ => Whole crc (file.bytes.drop offset) h valueSize ∧ w'.backend.file =
        w.backend.file ++ slice file.bytes (offset + headerSize) (h.keySize + valueSize)
    | .error _ => w.backend.file <+: w'.backend.file := by
  intro hcopy
  unfold copyBody at hcopy
  rw [checked_add_of_le hheader] at hcopy
  dsimp only at hcopy
  split at hcopy <;> rename_i hasher w₁ hkeyCopy <;>
    have hspec := copy_hashed_range_spec le_rfl hheader hkeyCopy
  · cases hcopy
    exact hspec
  · obtain ⟨hkey, rfl, hfile⟩ := hspec
    simp only [Whole, length_drop, slice_drop, ← Nat.add_assoc]
    split at hcopy
    · rename_i htomb
      obtain rfl := decoded_value_size_tombstone htomb hvalue
      rw [Prod.mk.injEq] at hcopy
      obtain ⟨hcrc, rfl⟩ := hcopy
      cases result with
      | error e => exact ⟨_, hfile.symm⟩
      | ok _ =>
        rw [check_crc_ok_iff] at hcrc
        refine ⟨⟨hvalue, by omega, ?_⟩, hfile⟩
        rw [← hcrc]
        simp [slice]
    · rw [checked_add_of_le hkey] at hcopy
      dsimp only at hcopy
      split at hcopy <;> rename_i hasher w₂ hvalueCopy <;>
        have hspec := copy_hashed_range_spec le_rfl hkey hvalueCopy
      · cases hcopy
        exact IsPrefix.trans ⟨_, hfile.symm⟩ hspec
      · obtain ⟨hend, rfl, hfile'⟩ := hspec
        rw [hfile, append_assoc, ← slice_add] at hfile'
        rw [Prod.mk.injEq] at hcopy
        obtain ⟨hcrc, rfl⟩ := hcopy
        cases result with
        | error e => exact ⟨_, hfile'.symm⟩
        | ok _ =>
          rw [check_crc_ok_iff, append_assoc] at hcrc
          exact ⟨⟨hvalue, by omega, hcrc⟩, hfile'⟩

/-- The body of a whole record is copied to a ready writer. -/
theorem copy_body_ready (hwhole : Whole crc (file.bytes.drop offset) h valueSize)
    (hready : w.Ready (h.keySize + valueSize)) :
    ∃ w', copyBody crc file w offset h valueSize = (.ok (), w') := by
  have hheader := body_start_le (hwhole.header_le crc)
  obtain ⟨hvalue, hfit, hcrc⟩ := hwhole
  simp only [length_drop, slice_drop] at hfit hcrc
  have hkey : offset + headerSize + h.keySize ≤ file.bytes.length := by omega
  have hend : offset + headerSize + h.keySize + valueSize ≤ file.bytes.length := by omega
  obtain ⟨hasher, w₁, hkeyCopy, hready₁⟩ :=
    copy_hashed_range_ready "key" valueSize h.keySize h.covered hkey hready
  obtain ⟨-, rfl, -⟩ := copy_hashed_range_spec le_rfl hheader hkeyCopy
  unfold copyBody
  rw [checked_add_of_le hheader]
  dsimp only
  rw [hkeyCopy]
  dsimp only
  split
  · rename_i htomb
    obtain rfl := decoded_value_size_tombstone htomb hvalue
    refine ⟨w₁, ?_⟩
    rw [Prod.mk.injEq, check_crc_ok_iff]
    refine ⟨?_, rfl⟩
    rw [← hcrc]
    simp [slice]
  · rw [checked_add_of_le hkey]
    dsimp only
    obtain ⟨hasher, w₂, hvalueCopy, -⟩ := copy_hashed_range_ready "value" 0 valueSize
      (h.covered ++ slice file.bytes (offset + headerSize) h.keySize) hend hready₁
    obtain ⟨-, rfl, -⟩ := copy_hashed_range_spec le_rfl hkey hvalueCopy
    refine ⟨w₂, ?_⟩
    rw [hvalueCopy, Prod.mk.injEq, check_crc_ok_iff]
    refine ⟨?_, rfl⟩
    rw [← hcrc, append_assoc, Nat.add_assoc]

/-- What the copier plans to copy has an allowed value size. -/
theorem copy_plan_body_ok {flag : Bool}
    (hplan : copyPlanBody crc file offset flag h = .ok (some valueSize)) :
    decodedValueSize h.valueSizeRaw h.isTombstone = .ok valueSize := by
  obtain ⟨size, hsize, hplan⟩ := bind_eq_ok_iff.mp hplan
  split at hplan
  · obtain ⟨_, _, hplan⟩ := bind_eq_ok_iff.mp hplan
    obtain ⟨_, _, hplan⟩ := bind_eq_ok_iff.mp hplan
    obtain ⟨_, _, hplan⟩ := bind_eq_ok_iff.mp hplan
    cases hplan
  · obtain ⟨_, _, hplan⟩ := bind_eq_ok_iff.mp hplan
    obtain ⟨_, _, hplan⟩ := bind_eq_ok_iff.mp hplan
    cases hplan
    exact hsize

/-- A whole record is planned to be copied when tombstones are wanted. -/
theorem copy_plan_body_whole
    (hkey : h.keySize < 2 ^ 16) (hwhole : Whole crc (file.bytes.drop offset) h valueSize) :
    copyPlanBody crc file offset true h = .ok (some valueSize) := by
  have hheader := body_start_le (hwhole.header_le crc)
  obtain ⟨hvalue, hfit, -⟩ := hwhole
  simp only [length_drop] at hfit
  unfold copyPlanBody
  rw [hvalue, ok_bind, if_neg (by simp), checked_record_body_len_ok hkey hvalue, ok_bind,
    checked_add_of_le hheader, check_extent_ok (by omega), ok_bind, pure_eq_ok]

/-- The report of a copied record is read off its header. -/
theorem copied_eq (hwhole : Whole crc rest h valueSize) :
    (h.recordIn rest valueSize).copied offset (headerSize + h.keySize + valueSize) =
      ⟨offset, headerSize + (h.keySize + valueSize), valueSize, h.isTombstone⟩ := by
  obtain ⟨hvalue, hfit, -⟩ := hwhole
  by_cases htomb : h.isTombstone
  · simp [Record.copied, Header.record, htomb, decoded_value_size_tombstone htomb hvalue]
  · simp [Record.copied, Header.record, htomb, length_slice_of_le hfit, Nat.add_assoc]

/-- A record that was copied is a record of the format, and its bytes were appended. A copy that
fails is taken back. -/
theorem copy_record_raw_spec {flag : Bool} {result : Result (Option RawCopyResult)} :
    copyRecordRaw crc file w offset flag = (result, w') →
    match result with
    | .ok (some copied) => ∃ record len,
        decodeRecord crc (file.bytes.drop offset) = some (record, len) ∧
        copied = record.copied w.backend.file.length len ∧
        w'.backend.file = w.backend.file ++ slice file.bytes offset len
    | .ok none => w' = w
    | .error e => e.isRollbackFailed = false → w.AtEnd →
        w'.backend.file = w.backend.file ∧ w'.AtEnd := by
  intro hcopy
  unfold copyRecordRaw at hcopy
  split at hcopy
  · cases hcopy
    exact fun _ hend => ⟨rfl, hend⟩
  · cases hcopy
    rfl
  · rename_i header hread
    obtain ⟨hheader, rfl⟩ := read_header_iff.mp hread
    have hstart := body_start_le hheader
    change copyRecordBody crc file w offset flag _ (frontHeader (file.bytes.drop offset)) = _ at hcopy
    unfold copyRecordBody at hcopy
    split at hcopy
    · cases hcopy
      exact fun _ hend => ⟨rfl, hend⟩
    · cases hcopy
      rfl
    · rename_i valueSize hplan
      split at hcopy <;> rename_i newOffset w₁ hwrite
      · cases hcopy
        exact (write_raw_spec hwrite).2
      · obtain ⟨rfl, hfile⟩ := write_raw_spec hwrite
        split at hcopy <;> rename_i w₂ hbody <;>
          have hspec := copy_body_spec crc hstart (copy_plan_body_ok crc hplan) hbody
        · cases hcopy
          obtain ⟨hwhole, hfile'⟩ := hspec
          refine ⟨_, _, (decode_record_whole crc).mpr ⟨valueSize, hwhole, rfl, rfl⟩,
            (copied_eq crc hwhole).symm, ?_⟩
          rw [hfile', hfile, append_assoc, slice_drop, Nat.add_zero, ← slice_add, Nat.add_assoc]
        · have hkept := IsPrefix.trans ⟨_, hfile.symm⟩ hspec
          unfold LogWriter.rollbackTo at hcopy
          split at hcopy <;> rename_i hrolled <;> split at hrolled <;> rename_i hlocked <;>
            cases hrolled <;> cases hcopy
          · obtain ⟨hback, hoffset⟩ := (Backend.rollback_locked_spec hkept hlocked).2 rfl
            refine fun _ _ => ⟨hback, ?_⟩
            rw [LogWriter.AtEnd, hback]
            exact ⟨rfl, hoffset⟩
          · exact nofun

/-- A raw copy appends one whole record of the source, or nothing. One that fails leaves the
destination as it was, and what is written next is placed where the copy would have been. -/
theorem copy_record_all_or_nothing {flag : Bool} {result : Result (Option RawCopyResult)}
    (hend : w.AtEnd) : copyRecordRaw crc file w offset flag = (result, w') →
    match result with
    | .ok (some copied) => ∃ record len,
        decodeRecord crc (file.bytes.drop offset) = some (record, len) ∧
        copied = record.copied w.backend.file.length len ∧
        w'.backend.file = w.backend.file ++ slice file.bytes offset len
    | .ok none => w' = w
    | .error e => e.isRollbackFailed = false →
        w'.backend.file = w.backend.file ∧ w'.AtEnd ∧
        ∀ data placed w'', w'.writeRaw data = (.ok placed, w'') → placed = w.offset := by
  intro hcopy
  have hspec := copy_record_raw_spec crc hcopy
  rcases result with e | - | copied
  · intro hother
    obtain ⟨hfile, hend'⟩ := hspec hother hend
    refine ⟨hfile, hend', fun data placed w'' hwrite => ?_⟩
    rw [(write_raw_spec hwrite).1, hfile, hend.1]
  · exact hspec
  · exact hspec

/-- A record whose checksum is wrong is refused after its header went out, and is taken back. -/
theorem copy_record_all_or_nothing_bad_crc :
    let w : LogWriter := ⟨⟨[7], 1, [], [], []⟩, 1⟩
    copyRecordRaw (fun _ => 0) ⟨1 :: replicate 25 0, by decide⟩ w 0 true =
      (.error (.crcMismatch 1 0), w) ∧ w.AtEnd := by
  intro w
  have hcopy : copyRecordRaw (fun _ => 0) ⟨1 :: replicate 25 0, by decide⟩ w 0 true =
      (.error (.crcMismatch 1 0), w) := by decide +kernel
  exact ⟨hcopy, (copy_record_all_or_nothing _ ⟨rfl, rfl⟩ hcopy rfl).2.1⟩

/-- Every record of the format is copied to a ready writer. -/
theorem copy_record_raw_ready {offset len : Nat}
    (hdecode : decodeRecord crc (file.bytes.drop offset) = some (record, len))
    (hready : w.Ready len) :
    ∃ w', copyRecordRaw crc file w offset true =
      (.ok (some (record.copied w.backend.file.length len)), w') := by
  obtain ⟨valueSize, hwhole, rfl, rfl⟩ := (decode_record_whole crc).mp hdecode
  have hfit := hwhole.header_le crc
  have hroom : w.Ready ((slice (file.bytes.drop offset) 0 headerSize).length +
      ((frontHeader (file.bytes.drop offset)).keySize + valueSize)) := by
    rw [length_slice_of_le (by omega), ← Nat.add_assoc]
    exact hready
  obtain ⟨w₁, hwrite, hready₁⟩ := write_raw_ready _ _ hroom
  obtain ⟨w₂, hbody⟩ := copy_body_ready crc hwhole hready₁
  refine ⟨w₂, ?_⟩
  unfold copyRecordRaw
  rw [read_header_iff.mpr ⟨hfit, rfl⟩]
  change copyRecordBody crc file w offset true _ (frontHeader (file.bytes.drop offset)) = _
  unfold copyRecordBody
  rw [copy_plan_body_whole crc (front_header_key_size_lt _) hwhole]
  rw [hwrite]
  dsimp only
  rw [hbody, copied_eq crc hwhole]

/-- Reads records until the end of the stream; a torn record ends the scan, any other failure is
returned. -/
def iterTolerantLoop : Nat → Bytes → Result (List Record)
  | 0, _ => .ok []
  | fuel + 1, rest =>
    match readNextRecord crc rest with
    | .ok (some (record, rest)) => do
      let records ← iterTolerantLoop fuel rest
      return record :: records
    | .ok none => .ok []
    | .error e => if e.isTruncatedRecord then .ok [] else .error e

/-- Scans the records from an offset on. Each record takes at least a header, so the file length
bounds the number of rounds. -/
def iterFromOffsetTolerant (file : File) (offset : Nat) : Result (List Record) :=
  iterTolerantLoop crc (file.bytes.length + 1) (file.bytes.drop offset)

/-- One page of record metadata: at most `limit` records, the offset after them, and whether the
end of the stream or a torn record was met. -/
def iterMetadataPageTolerant : Nat → Bytes → Nat → Result (List RecordMetadata × Nat × Bool)
  | 0, _, offset => .ok ([], offset, false)
  | limit + 1, rest, offset =>
    match readNextRecordMetadata crc rest offset with
    | .ok (some (record, rest)) => do
      let next ← orFail (checkedAdd offset record.recordSize) (.overflow "record offset")
      let (records, stop, done) ← iterMetadataPageTolerant limit rest next
      return (record :: records, stop, done)
    | .ok none => .ok ([], offset, true)
    | .error e => if e.isTruncatedRecord then .ok ([], offset, true) else .error e

end Checksum

end FerricStore.Log
