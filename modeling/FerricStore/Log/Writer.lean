import FerricStore.Log.Record

/-!
# Appending to the log

`Backend` is the synchronous writer of `io_backend/mod.rs`: it appends at the current end of the
file and rolls the file back when a write or a sync fails. Which writes, syncs and truncations
fail is part of the state, so a statement about every backend covers every failure. `LogWriter`
holds the four batch appends of `log.rs`. The clock is a parameter: entry `i` of a batch is
stamped `clock i`.
-/

namespace FerricStore.Log

open List

/-- The destination file, the backend's own write position, and what its coming system calls do: a
write goes through or stops after some bytes, a sync or a truncation succeeds or fails. A list
that has run out means success. -/
structure Backend where
  file : Bytes
  offset : Nat
  writes : List (Option Nat) := []
  syncs : List Bool := []
  truncations : List Bool := []
  deriving DecidableEq, Repr

namespace Backend

variable (b : Backend)

/-- `file.write_all` at the end of the file. A write past the offset bound is refused whole. -/
def writeAll (data : Bytes) : Bool × Backend :=
  let next := { b with writes := b.writes.tail }
  if maxOffset ≤ b.file.length + data.length then (false, next)
  else
    match b.writes with
    | some written :: _ => (false, { next with file := b.file ++ data.take written })
    | _ => (true, { next with file := b.file ++ data })

/-- `file.sync_data`. -/
def syncData : Bool × Backend :=
  (b.syncs.headD true, { b with syncs := b.syncs.tail })

/-- Cuts the file back to `offset` and syncs it. -/
def rollbackLocked (offset : Nat) : Bool × Backend :=
  let next := { b with truncations := b.truncations.tail }
  if b.truncations.headD true then (true, { next with file := resize b.file offset, offset := offset })
  else (false, next)

/-- The failure of an append: the file is rolled back to where the append started. -/
def failAt (start : Nat) : Result Nat × Backend :=
  match b.rollbackLocked start with
  | (true, b) => (.error (.io "append failed"), b)
  | (false, b) =>
    (.error (.rollbackFailed "append failed" "write" "durable rollback failed"), b)

/-- Appends `data` and returns where it starts. -/
def append (b : Backend) (data : Bytes) : Result Nat × Backend :=
  let start := b.file.length
  match checkedAdd start data.length with
  | none => (.error (.io "append file offset overflow"), b)
  | some stop =>
    match b.writeAll data with
    | (true, b) => (.ok start, { b with offset := stop })
    | (false, b) => b.failAt start

/-- Writes the buffers one after another; stops at the first failure. -/
def writeBuffers (b : Backend) : List Bytes → Bool × Backend
  | [] => (true, b)
  | buffer :: rest =>
    match b.writeAll buffer with
    | (true, b) => b.writeBuffers rest
    | (false, b) => (false, b)

/-- Where each of the buffers starts when the first starts at `running`. -/
def bufferOffsets (running : Nat) : List Bytes → List Nat
  | [] => []
  | buffer :: rest => running :: bufferOffsets (running + buffer.length) rest

/-- Appends the buffers and syncs once; any failure rolls all of them back. -/
def appendBatchAndSync (buffers : List Bytes) : Result (List Nat) × Backend :=
  let start := b.file.length
  let stop := start + buffers.flatten.length
  if 2 ^ 64 ≤ stop then (.error (.io "append file offset overflow"), b)
  else
    match b.writeBuffers buffers with
    | (false, b) => ((b.failAt start).1.map fun _ => [], (b.failAt start).2)
    | (true, b) =>
      match b.syncData with
      | (false, b) => ((b.failAt start).1.map fun _ => [], (b.failAt start).2)
      | (true, b) => (.ok (bufferOffsets start buffers), { b with offset := stop })

/-- Appends one buffer and syncs. -/
def appendAndSync (data : Bytes) : Result Nat × Backend :=
  match b.appendBatchAndSync [data] with
  | (.ok offsets, b) => (.ok (offsets.headD 0), b)
  | (.error e, b) => (.error e, b)

variable {b b' : Backend}

/-- A write keeps what is in the file, and one that goes through appends its bytes below the offset
bound. -/
theorem write_all_spec {data : Bytes} {done : Bool} (h : b.writeAll data = (done, b')) :
    b.file <+: b'.file ∧
      (done = true → b'.file = b.file ++ data ∧ b'.file.length < maxOffset) := by
  unfold writeAll at h
  split_ifs at h with hbound
  · cases h
    exact ⟨prefix_rfl, nofun⟩
  · split at h
    · cases h
      exact ⟨prefix_append _ _, nofun⟩
    · cases h
      exact ⟨prefix_append _ _, fun _ => ⟨rfl, by rw [length_append]; omega⟩⟩

/-- Rolling back to what was in the file leaves just that. -/
theorem rollback_locked_spec {before : Bytes} {done : Bool} (hbefore : before <+: b.file)
    (h : b.rollbackLocked before.length = (done, b')) :
    before <+: b'.file ∧ (done = true → b'.file = before ∧ b'.offset = before.length) := by
  unfold rollbackLocked at h
  split_ifs at h
  · have hresize : resize b.file before.length = before := by
      obtain ⟨rest, hrest⟩ := hbefore
      simp [resize, ← hrest]
    cases h
    rw [hresize]
    exact ⟨prefix_rfl, fun _ => ⟨rfl, rfl⟩⟩
  · cases h
    exact ⟨hbefore, fun hdone => absurd hdone Bool.false_ne_true⟩

/-- An append that succeeds reports where its bytes start, and one whose failure was rolled back
leaves what was in the file. -/
theorem append_spec {data : Bytes} {result : Result Nat} : b.append data = (result, b') →
    match result with
    | .ok start =>
      start = b.file.length ∧ b'.file = b.file ++ data ∧ b'.file.length < maxOffset
    | .error e => b.file <+: b'.file ∧ (e.isRollbackFailed = false →
        b'.file = b.file ∧ (b'.offset = b.offset ∨ b'.offset = b.file.length)) := by
  intro h
  unfold append failAt at h
  dsimp only at h
  split at h
  · cases h
    exact ⟨prefix_rfl, fun _ => ⟨rfl, .inl rfl⟩⟩
  · split at h <;> rename_i hwrite <;> obtain ⟨hkept, hdone⟩ := write_all_spec hwrite
    · cases h
      exact ⟨rfl, hdone rfl⟩
    · split at h <;> rename_i hrolled <;> cases h <;>
        obtain ⟨hkept, hback⟩ := rollback_locked_spec hkept hrolled
      · obtain ⟨hfile, hoffset⟩ := hback rfl
        exact ⟨hkept, fun _ => ⟨hfile, .inr hoffset⟩⟩
      · exact ⟨hkept, nofun⟩

variable {buffers : List Bytes}

/-- Buffers that were all written stand one after another. -/
theorem write_buffers_ok (h : b.writeBuffers buffers = (true, b')) :
    b'.file = b.file ++ buffers.flatten ∧
      (b.file.length < maxOffset → b'.file.length < maxOffset) := by
  induction buffers generalizing b with
  | nil =>
    cases h
    exact ⟨by simp, id⟩
  | cons buffer rest ih =>
    unfold writeBuffers at h
    split at h
    · rename_i b₁ hwrite
      obtain ⟨hfile, hlen⟩ := (write_all_spec hwrite).2 rfl
      obtain ⟨hfile', hlen'⟩ := ih h
      exact ⟨by rw [hfile', hfile, append_assoc, flatten_cons], fun _ => hlen' hlen⟩
    · cases h

/-- A synced append that succeeds reports where each of its buffers starts. -/
theorem append_batch_and_sync_ok {offsets : List Nat}
    (h : b.appendBatchAndSync buffers = (.ok offsets, b')) :
    offsets = bufferOffsets b.file.length buffers ∧ b'.file = b.file ++ buffers.flatten ∧
      (b.file.length < maxOffset → b'.file.length < maxOffset) := by
  have hfail : ∀ (b : Backend) (start : Nat),
      (b.failAt start).1.map (fun _ => ([] : List Nat)) ≠ .ok offsets := by
    intro b start
    unfold failAt
    split <;> simp [Except.map]
  unfold appendBatchAndSync at h
  dsimp only at h
  split_ifs at h
  · cases h
  · split at h
    · exact absurd (congrArg Prod.fst h) (hfail _ _)
    · rename_i b₁ hwrite
      split at h
      · exact absurd (congrArg Prod.fst h) (hfail _ _)
      · rename_i b₂ hsync
        cases h
        obtain ⟨-, rfl⟩ := Prod.mk.inj hsync
        exact ⟨rfl, (write_buffers_ok hwrite).1, (write_buffers_ok hwrite).2⟩

/-- A backend whose coming writes go through, with room for `len` more bytes. -/
def Ready (b : Backend) (len : Nat) : Prop :=
  b.writes = [] ∧ b.file.length + len < maxOffset

section

variable {b : Backend} (data : Bytes) (len : Nat) (h : b.Ready (data.length + len))
include h

/-- A ready backend takes the bytes it has room for. -/
theorem write_all_ready :
    ∃ b', b.writeAll data = (true, b') ∧ b'.Ready len ∧ b'.syncs = b.syncs := by
  obtain ⟨hwrites, hroom⟩ := h
  refine ⟨⟨b.file ++ data, b.offset, [], b.syncs, b.truncations⟩, ?_, ⟨rfl, ?_⟩, rfl⟩
  · unfold writeAll
    rw [if_neg (by omega), hwrites]
    rfl
  · rw [length_append]
    omega

/-- A ready backend appends. -/
theorem append_ready : ∃ b', b.append data = (.ok b.file.length, b') ∧ b'.Ready len := by
  obtain ⟨b', hwrite, hready, -⟩ := write_all_ready data len h
  have hadd : checkedAdd b.file.length data.length = some (b.file.length + data.length) := by
    have hroom := h.2
    simp only [maxOffset] at hroom
    rw [checkedAdd, if_pos (by omega)]
  refine ⟨⟨b'.file, b.file.length + data.length, b'.writes, b'.syncs, b'.truncations⟩, ?_, hready⟩
  unfold append
  dsimp only
  rw [hadd]
  rw [hwrite]

end

/-- A ready backend writes all the buffers. -/
theorem write_buffers_ready : ∀ {b : Backend}, b.Ready buffers.flatten.length →
      ∃ b', b.writeBuffers buffers = (true, b') ∧ b'.syncs = b.syncs := by
  induction buffers with
  | nil =>
    intro b h
    exact ⟨b, rfl, rfl⟩
  | cons buffer rest ih =>
    intro b h
    rw [flatten_cons, length_append] at h
    obtain ⟨b₁, hwrite, hready, hsyncs⟩ := write_all_ready buffer _ h
    obtain ⟨b₂, hrest, hsyncs'⟩ := ih hready
    refine ⟨b₂, ?_, hsyncs'.trans hsyncs⟩
    unfold writeBuffers
    rw [hwrite]
    exact hrest

/-- A ready backend whose coming syncs succeed appends and syncs. -/
theorem append_batch_and_sync_ready {b : Backend} (buffers : List Bytes)
    (h : b.Ready buffers.flatten.length) (hsync : b.syncs = []) :
    ∃ offsets b', b.appendBatchAndSync buffers = (.ok offsets, b') := by
  obtain ⟨b₁, hwrite, hsyncs⟩ := write_buffers_ready h
  have hroom := h.2
  simp only [maxOffset] at hroom
  unfold appendBatchAndSync
  rw [if_neg (by omega), hwrite]
  simp [syncData, hsyncs, hsync]

end Backend

/-- A log writer: its backend and the position it reports. -/
structure LogWriter where
  backend : Backend
  offset : Nat
  deriving DecidableEq, Repr

/-- An entry of a mixed batch. -/
inductive BatchWrite where
  | put (key value : Bytes) (expireAtMs : UInt64)
  | delete (key : Bytes)
  deriving DecidableEq, Repr

/-- Where an entry of a mixed batch was written. -/
inductive BatchWriteResult where
  | put (offset valueLen : Nat)
  | delete (offset recordSize : Nat)
  deriving DecidableEq, Repr

/-- Checks one entry of a mixed batch; a tombstone is checked with an empty value. -/
def BatchWrite.validate : BatchWrite → Result Unit
  | .put key value _ => validateKvSizes key value
  | .delete key => validateKvSizes key []

/-- The record length of an entry. -/
def BatchWrite.len : BatchWrite → Nat
  | .put key value _ => recordLen key.length value.length
  | .delete key => tombstoneLen key.length

/-- Checks every entry of a mixed batch. -/
def validateBatchWrites : List BatchWrite → Result Unit
  | [] => .ok ()
  | entry :: rest => do
    entry.validate
    validateBatchWrites rest

/-- The combined length of a batch, with the overflow check of the source. -/
def batchLen (lens : List Nat) : Result Nat :=
  lens.foldlM (fun acc len => orFail (checkedAdd acc len) .batchLengthOverflow) 0

/-- Walks a mixed batch from `running` and reports where each entry starts. -/
def batchWriteResults (running : Nat) : List BatchWrite → List BatchWriteResult
  | [] => []
  | .put key value expireAtMs :: rest =>
    .put running value.length ::
      batchWriteResults (running + BatchWrite.len (.put key value expireAtMs)) rest
  | .delete key :: rest =>
    .delete running (headerSize + key.length) ::
      batchWriteResults (running + BatchWrite.len (.delete key)) rest

/-- Walks a batch of values from `running` and reports where each entry starts. -/
def valueResults (running : Nat) : List (Bytes × Bytes × UInt64) → List (Nat × Nat)
  | [] => []
  | (key, value, _) :: rest =>
    (running, value.length) :: valueResults (running + recordLen key.length value.length) rest

section Checksum

variable (crc : Bytes → UInt32)

/-- Appends the encoding of one entry. -/
def BatchWrite.encodeInto (buf : Bytes) (nowMs : UInt64) : BatchWrite → Bytes
  | .put key value expireAtMs => encodeRecordInto crc buf key value expireAtMs nowMs
  | .delete key => encodeTombstoneInto crc buf key nowMs

/-- Appends the encodings of a mixed batch, entry by entry. -/
def encodeEntriesInto (clock : Nat → UInt64) (buf : Bytes) : List BatchWrite → Bytes
  | [] => buf
  | entry :: rest =>
    encodeEntriesInto (fun i => clock (i + 1)) (entry.encodeInto crc buf (clock 0)) rest

variable (clock : Nat → UInt64)

/-- The encoding of a mixed batch. -/
def encodeBatchWrites (entries : List BatchWrite) : Result Bytes := do
  let _ ← batchLen (entries.map BatchWrite.len)
  return encodeEntriesInto crc clock [] entries

/-- A batch of values as a mixed batch of puts. -/
def putsOf (entries : List (Bytes × Bytes × UInt64)) : List BatchWrite :=
  entries.map fun (key, value, expireAtMs) => .put key value expireAtMs

namespace LogWriter

/-- Runs a backend append and copies the backend's position into the writer on success. -/
def publish {α : Type} (w : LogWriter) (run : Result α × Backend) : Result α × LogWriter :=
  match run with
  | (.ok a, b) => (.ok a, ⟨b, b.offset⟩)
  | (.error e, b) => (.error e, ⟨b, w.offset⟩)

variable (w : LogWriter)

/-- Appends pre-encoded bytes. -/
def writeRaw (data : Bytes) : Result Nat × LogWriter :=
  w.publish (w.backend.append data)

/-- Cuts the destination back and moves the writer there. -/
def rollbackTo (offset : Nat) : Result Unit × LogWriter :=
  match w.backend.rollbackLocked offset with
  | (true, b) => (.ok (), ⟨b, offset⟩)
  | (false, b) => (.error (.io "rollback failed"), ⟨b, w.offset⟩)

/-- The buffers of a synced batch of values, one for each record. -/
def encodeEach (clock : Nat → UInt64) : List (Bytes × Bytes × UInt64) → List Bytes
  | [] => []
  | (key, value, expireAtMs) :: rest =>
    encodeRecord crc key value expireAtMs (clock 0) ::
      encodeEach (fun i => clock (i + 1)) rest

/-- A batch of values, written and synced: one buffer for each record. -/
def writeBatch (entries : List (Bytes × Bytes × UInt64)) : Result (List (Nat × Nat)) × LogWriter :=
  match validateBatchWrites (putsOf entries) with
  | .error e => (.error e, w)
  | .ok () =>
    match w.publish (w.backend.appendBatchAndSync (encodeEach crc clock entries)) with
    | (.ok offsets, w) => (.ok (offsets.zip (entries.map fun entry => entry.2.1.length)), w)
    | (.error e, w) => (.error e, w)

/-- A batch of values, written as one combined buffer without a sync. -/
def writeBatchNosync
    (entries : List (Bytes × Bytes × UInt64)) : Result (List (Nat × Nat)) × LogWriter :=
  if entries = [] then (.ok [], w)
  else
    match validateBatchWrites (putsOf entries) with
    | .error e => (.error e, w)
    | .ok () =>
      match encodeBatchWrites crc clock (putsOf entries) with
      | .error e => (.error e, w)
      | .ok combined =>
        match w.backend.append combined with
        | (.ok start, b) => (.ok (valueResults start entries), ⟨b, b.offset⟩)
        | (.error e, b) => (.error e, ⟨b, b.offset⟩)

/-- A mixed batch, written as one combined buffer without a sync. -/
def writeOpsBatchNosync (entries : List BatchWrite) : Result (List BatchWriteResult) × LogWriter :=
  if entries = [] then (.ok [], w)
  else
    match validateBatchWrites entries with
    | .error e => (.error e, w)
    | .ok () =>
      match encodeBatchWrites crc clock entries with
      | .error e => (.error e, w)
      | .ok combined =>
        match w.backend.append combined with
        | (.ok start, b) => (.ok (batchWriteResults start entries), ⟨b, b.offset⟩)
        | (.error e, b) => (.error e, ⟨b, b.offset⟩)

/-- A mixed batch, written as one combined buffer and synced. -/
def writeOpsBatch (entries : List BatchWrite) : Result (List BatchWriteResult) × LogWriter :=
  if entries = [] then (.ok [], w)
  else
    match validateBatchWrites entries with
    | .error e => (.error e, w)
    | .ok () =>
      match encodeBatchWrites crc clock entries with
      | .error e => (.error e, w)
      | .ok combined =>
        match w.publish (w.backend.appendAndSync combined) with
        | (.ok start, w) => (.ok (batchWriteResults start entries), w)
        | (.error e, w) => (.error e, w)

end LogWriter

/-! ## What a batch writes -/

/-- The record a batch entry stands for. -/
def BatchWrite.record (nowMs : UInt64) : BatchWrite → Record
  | .put key value expireAtMs => ⟨nowMs, expireAtMs, key, some value⟩
  | .delete key => ⟨nowMs, 0, key, none⟩

/-- What a batch reports of an entry written at an offset. -/
def BatchWrite.result (offset : Nat) : BatchWrite → BatchWriteResult
  | .put _ value _ => .put offset value.length
  | .delete key => .delete offset (headerSize + key.length)

open BatchWrite

open LogWriter

/-- Encoding into a buffer appends to it. -/
theorem encode_into_append (buf : Bytes) (nowMs : UInt64) (entry : BatchWrite) :
    entry.encodeInto crc buf nowMs = buf ++ entry.encodeInto crc [] nowMs := by
  cases entry <;>
    simp [encodeInto, encodeRecordInto, encodeTombstoneInto, sealInto]

/-- An entry takes the bytes its length says. -/
theorem length_encode_into (nowMs : UInt64) (entry : BatchWrite) :
    (entry.encodeInto crc [] nowMs).length = entry.len := by
  cases entry <;>
    simp [encodeInto, encodeRecordInto, encodeTombstoneInto, sealInto, len,
      recordLen, tombstoneLen, headerSize] <;> omega

variable {entry : BatchWrite}

/-- A validated entry decodes to its record, whatever follows. -/
theorem decode_encode_into (h : entry.validate = .ok ()) (nowMs : UInt64) (after : Bytes) :
    decodeRecord crc (entry.encodeInto crc [] nowMs ++ after) =
      some (entry.record nowMs, entry.len) := by
  cases entry with
  | put key value expireAtMs => exact decode_encode_record crc h
  | delete key => exact decode_encode_tombstone crc h

/-- Encoding a batch into a buffer appends to it. -/
theorem encode_entries_into_append (buf : Bytes) (entries : List BatchWrite) :
    encodeEntriesInto crc clock buf entries = buf ++ encodeEntriesInto crc clock [] entries := by
  induction entries generalizing clock buf with
  | nil => simp [encodeEntriesInto]
  | cons entry rest ih =>
    rw [encodeEntriesInto, ih, encodeEntriesInto, ih _ (entry.encodeInto crc [] (clock 0)),
      encode_into_append, append_assoc]

/-- The encoding of a batch is that of its first entry followed by that of the others. -/
theorem encode_entries_into_cons (entry : BatchWrite) (rest : List BatchWrite) :
    encodeEntriesInto crc clock [] (entry :: rest) = entry.encodeInto crc [] (clock 0) ++
        encodeEntriesInto crc (fun i => clock (i + 1)) [] rest := by
  rw [encodeEntriesInto, encode_entries_into_append]

/-- A batch takes the sum of its entries' lengths. -/
theorem length_encode_entries_into (entries : List BatchWrite) :
    (encodeEntriesInto crc clock [] entries).length = (entries.map len).sum := by
  induction entries generalizing clock with
  | nil => rfl
  | cons entry rest ih =>
    rw [encode_entries_into_cons, length_append, length_encode_into, ih, map_cons, sum_cons]

/-- A batch passes validation exactly when each of its entries does. -/
theorem validate_batch_writes_cons {rest : List BatchWrite} :
    validateBatchWrites (entry :: rest) = .ok () ↔
      entry.validate = .ok () ∧ validateBatchWrites rest = .ok () := by
  rw [validateBatchWrites, bind_eq_ok_iff]
  exact ⟨fun ⟨_, h⟩ => h, fun h => ⟨(), h⟩⟩

/-- The first entry of a batch is reported at its start. -/
theorem batch_write_results_cons (running : Nat) (entry : BatchWrite) (rest : List BatchWrite) :
    batchWriteResults running (entry :: rest) =
      entry.result running :: batchWriteResults (running + entry.len) rest := by
  cases entry <;> rfl

/-- Every entry of a batch is reported. -/
theorem length_batch_write_results (running : Nat) (entries : List BatchWrite) :
    (batchWriteResults running entries).length = entries.length := by
  induction entries generalizing running with
  | nil => rfl
  | cons entry rest ih => rw [batch_write_results_cons, length_cons, ih, length_cons]

/-- Every entry of a written batch decodes at the offset that was reported for it. -/
theorem decode_batch (before : Bytes) {entries : List BatchWrite}
    (hvalid : validateBatchWrites entries = .ok ()) {i : Nat} (hentry : entries[i]? = some entry) :
    ∃ offset, (batchWriteResults before.length entries)[i]? = some (entry.result offset) ∧
      decodeRecord crc ((before ++ encodeEntriesInto crc clock [] entries).drop offset) =
        some (entry.record (clock i), entry.len) := by
  induction entries generalizing clock before i with
  | nil => simp at hentry
  | cons first rest ih =>
    obtain ⟨hfirst, hrest⟩ := validate_batch_writes_cons.mp hvalid
    rw [batch_write_results_cons, encode_entries_into_cons]
    cases i with
    | zero =>
      obtain rfl : first = entry := by simpa using hentry
      refine ⟨before.length, by simp, ?_⟩
      rw [drop_left, decode_encode_into crc hfirst]
    | succ i =>
      have hlen : (before ++ first.encodeInto crc [] (clock 0)).length =
          before.length + first.len := by
        rw [length_append, length_encode_into]
      obtain ⟨offset, hresult, hdecode⟩ := ih (fun i => clock (i + 1))
        (before ++ first.encodeInto crc [] (clock 0)) hrest (by simpa using hentry)
      rw [hlen] at hresult
      refine ⟨offset, by simpa using hresult, ?_⟩
      rwa [append_assoc] at hdecode

section

variable (entries : List (Bytes × Bytes × UInt64))

/-- A batch of values is reported as the batch of puts it is. -/
theorem value_results_eq (running : Nat) :
    (valueResults running entries).map (fun found => .put found.1 found.2) =
      batchWriteResults running (putsOf entries) := by
  induction entries generalizing running with
  | nil => rfl
  | cons entry rest ih =>
    simp [valueResults, ih, putsOf, batchWriteResults, len]

/-- The buffers of a synced batch of values spell the batch of puts it is. -/
theorem flatten_encode_each : (encodeEach crc clock entries).flatten =
      encodeEntriesInto crc clock [] (putsOf entries) := by
  induction entries generalizing clock with
  | nil => rfl
  | cons entry rest ih =>
    obtain ⟨key, value, expireAtMs⟩ := entry
    rw [encodeEach, flatten_cons, ih]
    exact (encode_entries_into_cons crc clock (.put key value expireAtMs) (putsOf rest)).symm

/-- The buffers of a synced batch of values start where the batch of puts is reported. -/
theorem buffer_offsets_encode_each (running : Nat) :
    (Backend.bufferOffsets running (encodeEach crc clock entries)).zip
      (entries.map fun entry => entry.2.1.length) = valueResults running entries := by
  induction entries generalizing clock running with
  | nil => rfl
  | cons entry rest ih =>
    obtain ⟨key, value, expireAtMs⟩ := entry
    have hlen : (encodeRecord crc key value expireAtMs (clock 0)).length =
        recordLen key.length value.length :=
      length_encode_into crc (clock 0) (.put key value expireAtMs)
    simp [encodeEach, Backend.bufferOffsets, valueResults, hlen, ih]

end

/-- The length check of a batch passes when the combined length fits a `u64`. -/
theorem batch_len_ok {lens : List Nat} (h : lens.sum < 2 ^ 64) : batchLen lens = .ok lens.sum := by
  have hfold : ∀ acc, acc + lens.sum < 2 ^ 64 →
      lens.foldlM (fun acc len => orFail (checkedAdd acc len) LogError.batchLengthOverflow) acc =
        .ok (acc + lens.sum) := by
    clear h
    induction lens with
    | nil => simp
    | cons len rest ih =>
      intro acc hacc
      rw [sum_cons] at hacc
      rw [foldlM_cons, checkedAdd, if_pos (by omega), orFail_some, ok_bind,
        ih _ (by omega), sum_cons, Nat.add_assoc]
  simpa [batchLen] using hfold 0 (by omega)

/-- The four batch appends of the log. -/
inductive BatchAppend where
  | writeBatch (entries : List (Bytes × Bytes × UInt64))
  | writeBatchNosync (entries : List (Bytes × Bytes × UInt64))
  | writeOpsBatchNosync (entries : List BatchWrite)
  | writeOpsBatch (entries : List BatchWrite)
  deriving DecidableEq, Repr

/-- The entries of a batch append; a batch of values is a batch of puts. -/
def BatchAppend.entries : BatchAppend → List BatchWrite
  | .writeBatch entries => putsOf entries
  | .writeBatchNosync entries => putsOf entries
  | .writeOpsBatchNosync entries => entries
  | .writeOpsBatch entries => entries

/-- The report of a batch of values in the form of a mixed batch. -/
def asOps (run : Result (List (Nat × Nat)) × LogWriter) :
    Result (List BatchWriteResult) × LogWriter :=
  (run.1.map (map fun found => .put found.1 found.2), run.2)

/-- Runs a batch append. -/
def BatchAppend.run (w : LogWriter) : BatchAppend → Result (List BatchWriteResult) × LogWriter
  | .writeBatch entries => asOps (w.writeBatch crc clock entries)
  | .writeBatchNosync entries => asOps (w.writeBatchNosync crc clock entries)
  | .writeOpsBatchNosync entries => w.writeOpsBatchNosync crc clock entries
  | .writeOpsBatch entries => w.writeOpsBatch crc clock entries

/-- What a batch append that succeeds has done: its entries passed validation, stand encoded after
the old end of the file, and are reported where they start. -/
structure Appended (w : LogWriter) (entries : List BatchWrite)
    (results : List BatchWriteResult) (w' : LogWriter) : Prop where
  valid : validateBatchWrites entries = .ok ()
  results_eq : results = batchWriteResults w.backend.file.length entries
  file_eq : w'.backend.file = w.backend.file ++ encodeEntriesInto crc clock [] entries
  len_lt : w.backend.file.length < maxOffset → w'.backend.file.length < maxOffset

/-- An empty batch is appended by doing nothing. -/
theorem appended_nil (w : LogWriter) : Appended crc clock w [] [] w :=
  ⟨rfl, rfl, by simp [encodeEntriesInto], id⟩

/-- The encoded batch, once the length check has passed. -/
theorem encode_batch_writes_ok {clock : Nat → UInt64} {entries : List BatchWrite} {combined : Bytes}
    (h : encodeBatchWrites crc clock entries = .ok combined) :
    combined = encodeEntriesInto crc clock [] entries := by
  obtain ⟨_, _, h⟩ := bind_eq_ok_iff.mp h
  exact (Except.ok.inj h).symm

variable {clock} {w w' : LogWriter}

/-- A synced batch of values that succeeds. -/
theorem write_batch_ok {entries : List (Bytes × Bytes × UInt64)} {found : List (Nat × Nat)}
    (h : w.writeBatch crc clock entries = (.ok found, w')) :
    Appended crc clock w (putsOf entries) (found.map fun pair => .put pair.1 pair.2) w' := by
  unfold writeBatch publish at h
  split at h
  · cases h
  · rename_i hvalid
    split at h
    · rename_i hrun
      split at hrun
      · rename_i happend
        cases hrun
        cases h
        obtain ⟨rfl, hfile, hlen⟩ := Backend.append_batch_and_sync_ok happend
        rw [flatten_encode_each] at hfile
        exact ⟨hvalid, by rw [buffer_offsets_encode_each, value_results_eq], hfile, hlen⟩
      · cases hrun
    · cases h

/-- A batch of values without a sync is the mixed batch of its puts. -/
theorem write_batch_nosync_eq (clock : Nat → UInt64) (w : LogWriter)
    (entries : List (Bytes × Bytes × UInt64)) :
    asOps (w.writeBatchNosync crc clock entries) =
      w.writeOpsBatchNosync crc clock (putsOf entries) := by
  have hnil : putsOf entries = [] ↔ entries = [] := map_eq_nil_iff
  unfold writeBatchNosync writeOpsBatchNosync
  simp only [hnil]
  split_ifs
  · rfl
  · rcases validateBatchWrites (putsOf entries) with _ | _
    · rfl
    rcases encodeBatchWrites crc clock (putsOf entries) with _ | combined
    · rfl
    rcases happend : w.backend.append combined with ⟨_ | start, b⟩ <;> simp only [happend]
    · rfl
    · exact Prod.ext (congrArg Except.ok (value_results_eq entries start)) rfl

variable {results : List BatchWriteResult}

/-- A mixed batch without a sync that succeeds. -/
theorem write_ops_batch_nosync_ok {entries : List BatchWrite}
    (h : w.writeOpsBatchNosync crc clock entries = (.ok results, w')) :
    Appended crc clock w entries results w' := by
  unfold writeOpsBatchNosync at h
  split at h
  · rename_i hnil
    cases h
    rw [hnil]
    exact appended_nil crc clock w
  · split at h
    · cases h
    · rename_i hvalid
      split at h
      · cases h
      · rename_i hencode
        obtain rfl := encode_batch_writes_ok crc hencode
        split at h
        · rename_i happend
          cases h
          obtain ⟨rfl, hfile, hlen⟩ := Backend.append_spec happend
          exact ⟨hvalid, rfl, hfile, fun _ => hlen⟩
        · cases h

/-- A synced mixed batch that succeeds. -/
theorem write_ops_batch_ok {entries : List BatchWrite}
    (h : w.writeOpsBatch crc clock entries = (.ok results, w')) :
    Appended crc clock w entries results w' := by
  unfold writeOpsBatch publish at h
  split at h
  · rename_i hnil
    cases h
    rw [hnil]
    exact appended_nil crc clock w
  · split at h
    · cases h
    · rename_i hvalid
      split at h
      · cases h
      · rename_i hencode
        obtain rfl := encode_batch_writes_ok crc hencode
        split at h
        · rename_i hrun
          split at hrun
          · rename_i happend
            cases hrun
            cases h
            unfold Backend.appendAndSync at happend
            split at happend
            · rename_i hsync
              cases happend
              obtain ⟨rfl, hfile, hlen⟩ := Backend.append_batch_and_sync_ok hsync
              exact ⟨hvalid, rfl, by simpa using hfile, hlen⟩
            · cases happend
          · cases hrun
        · cases h

/-- Every batch append that succeeds has written its entries where it reports them. -/
theorem batch_append_ok {batch : BatchAppend} (h : batch.run crc clock w = (.ok results, w')) :
    Appended crc clock w batch.entries results w' := by
  cases batch with
  | writeBatch entries =>
    rcases hrun : w.writeBatch crc clock entries with ⟨_ | found, last⟩
    all_goals
      rw [BatchAppend.run, hrun] at h
      cases h
    exact write_batch_ok crc hrun
  | writeBatchNosync entries =>
    exact write_ops_batch_nosync_ok crc ((write_batch_nosync_eq crc clock w entries).symm.trans h)
  | writeOpsBatchNosync entries => exact write_ops_batch_nosync_ok crc h
  | writeOpsBatch entries => exact write_ops_batch_ok crc h

/-- A validated batch is appended by a backend that is ready for it and whose syncs succeed. -/
theorem batch_append_ready (clock : Nat → UInt64) {w : LogWriter} {batch : BatchAppend}
    (hvalid : validateBatchWrites batch.entries = .ok ())
    (hready : w.backend.Ready (batch.entries.map len).sum)
    (hsync : w.backend.syncs = []) :
    ∃ results w', batch.run crc clock w = (.ok results, w') := by
  have hlen := length_encode_entries_into crc clock batch.entries
  have hencode : encodeBatchWrites crc clock batch.entries =
      .ok (encodeEntriesInto crc clock [] batch.entries) := by
    have hroom := hready.2
    simp only [maxOffset] at hroom
    rw [encodeBatchWrites, batch_len_ok (by omega), ok_bind, pure_eq_ok]
  have hroom : w.backend.Ready ((encodeEntriesInto crc clock [] batch.entries).length + 0) := by
    rw [hlen]
    exact hready
  obtain ⟨b, happend, -⟩ := Backend.append_ready _ 0 hroom
  have hnosync : ∃ results w',
      w.writeOpsBatchNosync crc clock batch.entries = (.ok results, w') := by
    simp only [writeOpsBatchNosync, hvalid, hencode, happend]
    split <;> exact ⟨_, _, rfl⟩
  cases batch with
  | writeBatch entries =>
    simp only [BatchAppend.entries] at hvalid hroom
    rw [← flatten_encode_each] at hroom
    obtain ⟨offsets, b, hrun⟩ := Backend.append_batch_and_sync_ready _ hroom hsync
    simp only [BatchAppend.run, writeBatch, hvalid, hrun]
    exact ⟨_, _, rfl⟩
  | writeBatchNosync entries =>
    rw [BatchAppend.run, write_batch_nosync_eq]
    exact hnosync
  | writeOpsBatchNosync entries => exact hnosync
  | writeOpsBatch entries =>
    simp only [BatchAppend.entries] at hvalid hencode hroom
    obtain ⟨offsets, b, hrun⟩ := Backend.append_batch_and_sync_ready
      [encodeEntriesInto crc clock [] entries] (by simpa using hroom) hsync
    simp only [BatchAppend.run, writeOpsBatch, hvalid, hencode, Backend.appendAndSync, hrun]
    split <;> exact ⟨_, _, rfl⟩

end Checksum

end FerricStore.Log
