import FerricStore.Log.Readers

/-!
# The readers agree with the writers and with each other

Five readers parse a record with code of their own: the point reader, the keyed value reader, the
sequential reader, the metadata reader and the raw copier. `Reader.report` runs one of them at an
offset and collects what it tells about the record. All of them accept exactly the offsets where
`decodeRecord` finds a record, and what each reports is its view of that record; the batch appends
write records that decode to their entries at the offsets they return.
-/

namespace FerricStore.Log

open List

/-- A reader of the record at an offset: the keyed reader with the key it expects, the raw copier
with the writer it copies to. -/
inductive Reader where
  | point
  | keyed (expectedKey : Bytes)
  | sequential
  | metadata
  | rawCopy (dest : LogWriter)

/-- What a reader tells about the record it returned; a field that it does not return is absent. -/
structure Report where
  key : Option Bytes
  value : Option (Option Bytes)
  valueSize : Nat
  isTombstone : Bool
  expireAtMs : Option UInt64
  recordSize : Option Nat
  deriving DecidableEq, Repr

/-- Two optional fields do not contradict each other. -/
def SameIfBoth {α : Type} (a b : Option α) : Prop :=
  ∀ x y, a = some x → b = some y → x = y

/-- Two reports are equal in every field that both have. -/
structure Report.Agrees (a b : Report) : Prop where
  key : SameIfBoth a.key b.key
  value : SameIfBoth a.value b.value
  valueSize : a.valueSize = b.valueSize
  isTombstone : a.isTombstone = b.isTombstone
  expireAtMs : SameIfBoth a.expireAtMs b.expireAtMs
  recordSize : SameIfBoth a.recordSize b.recordSize

/-- What a reader would tell about a record of a given length. -/
def Reader.view (record : Record) (len : Nat) : Reader → Report
  | .point => ⟨some record.key, some record.value, (record.value.getD []).length,
      record.value.isNone, some record.expireAtMs, none⟩
  | .keyed _ => ⟨some record.key, some record.value, (record.value.getD []).length,
      record.value.isNone, none, none⟩
  | .sequential => ⟨some record.key, some record.value, (record.value.getD []).length,
      record.value.isNone, some record.expireAtMs, some len⟩
  | .metadata => ⟨some record.key, none, (record.value.getD []).length,
      record.value.isNone, some record.expireAtMs, some len⟩
  | .rawCopy _ => ⟨some record.key, some record.value, (record.value.getD []).length,
      record.value.isNone, some record.expireAtMs, some len⟩

section Checksum

variable (crc : Bytes → UInt32)

/-- Runs a reader at an offset. The sequential reader's record length is how far it moved in the
stream; what the raw copier copied is read back from its destination. -/
def Reader.report (file : File) (offset : Nat) : Reader → Option Report
  | .point =>
    match preadRecord crc file offset with
    | .ok (some record) => some ⟨some record.key, some record.value,
        (record.value.getD []).length, record.value.isNone, some record.expireAtMs, none⟩
    | _ => none
  | .keyed expectedKey =>
    match preadValueForKey crc file offset expectedKey with
    | .ok (some value) => some ⟨some expectedKey, some value, (value.getD []).length,
        value.isNone, none, none⟩
    | _ => none
  | .sequential =>
    match readNextRecord crc (file.bytes.drop offset) with
    | .ok (some (record, later)) => some ⟨some record.key, some record.value,
        (record.value.getD []).length, record.value.isNone, some record.expireAtMs,
        some ((file.bytes.drop offset).length - later.length)⟩
    | _ => none
  | .metadata =>
    match readNextRecordMetadata crc (file.bytes.drop offset) offset with
    | .ok (some (found, _)) => some ⟨some found.key, none, found.valueSize, found.isTombstone,
        some found.expireAtMs, some found.recordSize⟩
    | _ => none
  | .rawCopy dest =>
    match copyRecordRaw crc file dest offset true with
    | (.ok (some copied), dest) =>
      match readNextRecord crc (dest.backend.file.drop copied.offset) with
      | .ok (some (record, _)) => some ⟨some record.key, some record.value, copied.valueSize,
          copied.isTombstone, some record.expireAtMs, some copied.recordSize⟩
      | _ => none
    | _ => none

/-- A reader asked in a way that lets it answer: the keyed reader for the key of the record that
is there, the raw copier with room in a destination whose writes go through. -/
def Reader.Suits (file : File) (offset : Nat) : Reader → Prop
  | .keyed expectedKey => ∀ record len,
      decodeRecord crc (file.bytes.drop offset) = some (record, len) → record.key = expectedKey
  | .rawCopy dest => dest.Ready (file.bytes.length - offset)
  | _ => True

/-- Whatever a reader returns is its view of the record that is there. -/
theorem report_sound {file : File} {offset : Nat} {reader : Reader} {report : Report}
    (h : reader.report crc file offset = some report) :
    ∃ record len, decodeRecord crc (file.bytes.drop offset) = some (record, len) ∧
      report = reader.view record len := by
  cases reader with
  | point =>
    simp only [Reader.report] at h
    split at h
    · rename_i record hread
      cases h
      obtain ⟨len, hdecode⟩ := (pread_record_iff crc).mp hread
      exact ⟨record, len, hdecode, rfl⟩
    · cases h
  | keyed expectedKey =>
    simp only [Reader.report] at h
    split at h
    · rename_i value hread
      cases h
      obtain ⟨record, len, hdecode, rfl, rfl⟩ := (pread_value_for_key_iff crc).mp hread
      exact ⟨record, len, hdecode, rfl⟩
    · cases h
  | sequential =>
    simp only [Reader.report] at h
    split at h
    · rename_i record later hread
      cases h
      obtain ⟨len, hdecode, rfl⟩ := (read_next_record_iff crc).mp hread
      have hlen := (decode_record_len crc hdecode).2
      refine ⟨record, len, hdecode, ?_⟩
      simp only [length_drop] at hlen ⊢
      rw [Nat.sub_sub_self hlen]
      rfl
    · cases h
  | metadata =>
    simp only [Reader.report] at h
    split at h
    · rename_i found later hread
      cases h
      obtain ⟨record, len, hdecode, rfl, -⟩ := (read_next_record_metadata_iff crc _).mp hread
      exact ⟨record, len, hdecode, rfl⟩
    · cases h
  | rawCopy dest =>
    simp only [Reader.report] at h
    split at h
    · rename_i copied dest' hcopy
      obtain ⟨record, len, hdecode, rfl, hfile⟩ := copy_record_raw_spec crc hcopy
      split at h
      · rename_i found later hread
        cases h
        obtain ⟨len', hfound, -⟩ := (read_next_record_iff crc).mp hread
        -- the copied bytes start with the record they were copied from
        have hcopied := decode_record_take crc [] hdecode
        rw [Record.copied, hfile, drop_left, slice] at hfound
        rw [append_nil, hfound] at hcopied
        cases hcopied
        exact ⟨record, len, hdecode, rfl⟩
      · cases h
    · cases h

/-- Every reader that suits returns the record that is there. -/
theorem report_complete {file : File} {offset len : Nat} {reader : Reader} {record : Record}
    (hdecode : decodeRecord crc (file.bytes.drop offset) = some (record, len))
    (hsuits : reader.Suits crc file offset) :
    reader.report crc file offset = some (reader.view record len) := by
  have hlen := (decode_record_len crc hdecode).2
  cases reader with
  | point =>
    have hread := (pread_record_iff crc).mpr ⟨len, hdecode⟩
    simp only [Reader.report, hread]
    rfl
  | keyed expectedKey =>
    obtain rfl := hsuits record len hdecode
    have hread := (pread_value_for_key_iff crc).mpr ⟨record, len, hdecode, rfl, rfl⟩
    simp only [Reader.report, hread]
    rfl
  | sequential =>
    have hread := (read_next_record_iff crc).mpr ⟨len, hdecode, rfl⟩
    simp only [Reader.report, hread]
    simp only [length_drop] at hlen ⊢
    rw [Nat.sub_sub_self hlen]
    rfl
  | metadata =>
    have hread := (read_next_record_metadata_iff crc offset).mpr ⟨record, len, hdecode, rfl, rfl⟩
    simp only [Reader.report, hread]
    rfl
  | rawCopy dest =>
    have hroom : dest.Ready len := by
      refine ⟨hsuits.1, ?_⟩
      have := hsuits.2
      rw [length_drop] at hlen
      omega
    obtain ⟨dest', hcopy⟩ := copy_record_raw_ready crc hdecode hroom
    obtain ⟨record', len', hdecode', -, hfile⟩ := copy_record_raw_spec crc hcopy
    have hcopied := decode_record_take crc [] hdecode
    rw [hdecode] at hdecode'
    cases hdecode'
    have hread : readNextRecord crc (dest'.backend.file.drop dest.backend.file.length) =
        .ok (some (record, ((file.bytes.drop offset).take len).drop len)) := by
      rw [hfile, drop_left]
      rw [append_nil] at hcopied
      exact (read_next_record_iff crc).mpr ⟨len, hcopied, rfl⟩
    simp only [Reader.report, hcopy]
    simp only [Record.copied, hread]
    rfl

section

variable (clock : Nat → UInt64) {entries : List BatchWrite}
  (hvalid : validateBatchWrites entries = .ok ())
include hvalid

/-- Scanning the records of a validated batch gives them back in order. -/
theorem iter_tolerant_batch {fuel : Nat} (hfuel : entries.length < fuel) :
    iterTolerantLoop crc fuel (encodeEntriesInto crc clock [] entries) =
      .ok (entries.mapIdx fun i entry => entry.record (clock i)) := by
  induction entries generalizing clock fuel with
  | nil =>
    obtain ⟨fuel, rfl⟩ := Nat.exists_eq_add_of_lt hfuel
    simp [encodeEntriesInto, iterTolerantLoop, readNextRecord, read_record_header_eq]
  | cons entry rest ih =>
    obtain ⟨hentry, hrest⟩ := validate_batch_writes_cons.mp hvalid
    obtain ⟨fuel, rfl⟩ : ∃ n, fuel = n + 1 := ⟨fuel - 1, by rw [length_cons] at hfuel; omega⟩
    have hdecode := decode_encode_into crc hentry (clock 0)
      (encodeEntriesInto crc (fun i => clock (i + 1)) [] rest)
    have hread := (read_next_record_iff crc).mpr ⟨entry.len, hdecode, rfl⟩
    rw [← length_encode_into crc (clock 0) entry, drop_left] at hread
    rw [encode_entries_into_cons, iterTolerantLoop, hread]
    simp only
    rw [ih _ hrest (by simpa using hfuel), ok_bind, mapIdx_cons]
    rfl

/-- The metadata of a batch that was written from an offset on. -/
def batchMetadata (clock : Nat → UInt64) (offset : Nat) : List BatchWrite → List RecordMetadata
  | [] => []
  | entry :: rest =>
    (entry.record (clock 0)).metadata offset entry.len ::
      batchMetadata (fun i => clock (i + 1)) (offset + entry.len) rest

/-- A page of metadata over a validated batch lists the batch and reaches its end. -/
theorem iter_metadata_batch {limit offset : Nat} (hlimit : entries.length < limit)
    (hfit : offset + (entries.map BatchWrite.len).sum < maxOffset) :
    iterMetadataPageTolerant crc limit (encodeEntriesInto crc clock [] entries) offset =
      .ok (batchMetadata clock offset entries, offset + (entries.map BatchWrite.len).sum, true) := by
  induction entries generalizing clock limit offset with
  | nil =>
    obtain ⟨limit, rfl⟩ := Nat.exists_eq_add_of_lt hlimit
    simp [encodeEntriesInto, iterMetadataPageTolerant, readNextRecordMetadata,
      read_record_header_eq, batchMetadata]
  | cons entry rest ih =>
    obtain ⟨hentry, hrest⟩ := validate_batch_writes_cons.mp hvalid
    obtain ⟨limit, rfl⟩ : ∃ n, limit = n + 1 := ⟨limit - 1, by rw [length_cons] at hlimit; omega⟩
    rw [map_cons, sum_cons] at hfit
    have hdecode := decode_encode_into crc hentry (clock 0)
      (encodeEntriesInto crc (fun i => clock (i + 1)) [] rest)
    have hread := (read_next_record_metadata_iff crc offset).mpr
      ⟨entry.record (clock 0), entry.len, hdecode, rfl, rfl⟩
    rw [← length_encode_into crc (clock 0) entry, drop_left,
      length_encode_into crc (clock 0) entry] at hread
    have hadd : checkedAdd offset entry.len = some (offset + entry.len) := by
      simp only [maxOffset] at hfit
      rw [checkedAdd, if_pos (by omega)]
    rw [encode_entries_into_cons, iterMetadataPageTolerant, hread]
    simp only [Record.metadata, hadd, orFail_some, ok_bind]
    rw [ih _ hrest (by simpa using hlimit) (by omega), ok_bind, map_cons, sum_cons]
    simp [batchMetadata, Record.metadata, Nat.add_assoc]

end

/-- The offsets that a batch append returns for a validated batch are where all the readers return
its entries, a scan from the old end lists exactly the batch, and on any file the readers accept
the same offsets and never contradict each other. -/
theorem batch_readers_agree (clock : Nat → UInt64) (w : LogWriter) (batch : BatchAppend)
    (hlen : w.backend.file.length < maxOffset)
    (hvalid : validateBatchWrites batch.entries = .ok ()) :
    (w.backend.Ready (batch.entries.map BatchWrite.len).sum → w.backend.syncs = [] →
      ∃ results w', batch.run crc clock w = (.ok results, w')) ∧
    (∀ results w', batch.run crc clock w = (.ok results, w') →
      ∃ file : File, file.bytes = w'.backend.file ∧ w.backend.file <+: file.bytes ∧
        results.length = batch.entries.length ∧
        (∀ (i : Nat) (entry : BatchWrite), batch.entries[i]? = some entry →
          ∃ offset, results[i]? = some (entry.result offset) ∧
            ∀ reader : Reader, reader.Suits crc file offset → reader.report crc file offset =
                some (reader.view (entry.record (clock i)) entry.len)) ∧
        iterFromOffsetTolerant crc file w.backend.file.length =
          .ok (batch.entries.mapIdx fun i entry => entry.record (clock i)) ∧
        ∀ limit, batch.entries.length < limit →
          iterMetadataPageTolerant crc limit (file.bytes.drop w.backend.file.length)
              w.backend.file.length =
            .ok (batchMetadata clock w.backend.file.length batch.entries, file.bytes.length,
              true)) ∧
    (∀ (file : File) (offset : Nat) (r₁ r₂ : Reader),
      (∀ a b, r₁.report crc file offset = some a → r₂.report crc file offset = some b →
        a.Agrees b) ∧
      (r₁.Suits crc file offset → r₂.Suits crc file offset →
        ((r₁.report crc file offset).isSome ↔ (r₂.report crc file offset).isSome))) := by
  refine ⟨fun hready hsync => batch_append_ready crc clock hvalid hready hsync, ?_, ?_⟩
  · intro results w' hrun
    obtain ⟨-, hresults, hfile, hbound⟩ := batch_append_ok crc hrun
    have htotal : w'.backend.file.length =
        w.backend.file.length + (batch.entries.map BatchWrite.len).sum := by
      rw [hfile, length_append, length_encode_entries_into]
    have hsuffix : w'.backend.file.drop w.backend.file.length =
        encodeEntriesInto crc clock [] batch.entries := by
      rw [hfile, drop_left]
    refine ⟨⟨w'.backend.file, hbound hlen⟩, rfl, ⟨_, hfile.symm⟩, ?_, ?_, ?_, ?_⟩
    · rw [hresults, length_batch_write_results]
    · intro i entry hentry
      obtain ⟨offset, hresult, hdecode⟩ := decode_batch crc clock w.backend.file hvalid hentry
      rw [← hfile] at hdecode
      exact ⟨offset, hresults ▸ hresult, fun reader hsuits => report_complete crc hdecode hsuits⟩
    · -- each record takes a header at least, so the file length bounds the number of records
      have hcount : batch.entries.length ≤ (batch.entries.map BatchWrite.len).sum := by
        rw [← length_map BatchWrite.len]
        refine length_le_sum_of_one_le _ fun len hmem => ?_
        obtain ⟨entry, -, rfl⟩ := mem_map.mp hmem
        cases entry <;> simp only [BatchWrite.len, recordLen, tombstoneLen, headerSize] <;> omega
      simp only [iterFromOffsetTolerant]
      rw [hsuffix]
      exact iter_tolerant_batch crc clock hvalid (by omega)
    · intro limit hlimit
      have hroom := hbound hlen
      rw [htotal] at hroom
      simp only [hsuffix, htotal]
      exact iter_metadata_batch crc clock hvalid hlimit hroom
  · intro file offset r₁ r₂
    refine ⟨?_, ?_⟩
    · intro a b ha hb
      obtain ⟨record, len, hdecode, rfl⟩ := report_sound crc ha
      obtain ⟨record', len', hdecode', rfl⟩ := report_sound crc hb
      rw [hdecode] at hdecode'
      cases hdecode'
      cases r₁ <;> cases r₂ <;>
        exact ⟨by simp [SameIfBoth, Reader.view], by simp [SameIfBoth, Reader.view], rfl, rfl,
          by simp [SameIfBoth, Reader.view], by simp [SameIfBoth, Reader.view]⟩
    · intro h₁ h₂
      have haccepts : ∀ reader : Reader, reader.Suits crc file offset →
          ((reader.report crc file offset).isSome ↔
            (decodeRecord crc (file.bytes.drop offset)).isSome) := by
        intro reader hsuits
        simp only [Option.isSome_iff_exists]
        constructor
        · rintro ⟨report, hreport⟩
          obtain ⟨record, len, hdecode, -⟩ := report_sound crc hreport
          exact ⟨_, hdecode⟩
        · rintro ⟨⟨record, len⟩, hdecode⟩
          exact ⟨_, report_complete crc hdecode hsuits⟩
      rw [haccepts r₁ h₁, haccepts r₂ h₂]

/-- A put and a tombstone of its key, appended to an empty log: the point reader returns the
tombstone at the offset that was reported for it. -/
theorem batch_readers_agree_put_delete : ∃ (file : File) (w' : LogWriter),
      BatchAppend.run (fun _ => 7) (fun _ => 1) ⟨⟨[], 0, [], [], []⟩, 0⟩
          (.writeOpsBatch [.put [97] [1, 2] 5, .delete [97]]) =
        (.ok [.put 0 2, .delete 29 27], w') ∧
      file.bytes = w'.backend.file ∧
      Reader.report (fun _ => 7) file 29 .point =
        some ⟨some [97], some none, 0, true, some 0, none⟩ := by
  have hagree := batch_readers_agree (fun _ => 7) (fun _ => 1) ⟨⟨[], 0, [], [], []⟩, 0⟩
    (.writeOpsBatch [.put [97] [1, 2] 5, .delete [97]]) (by decide) (by decide)
  have hrun : BatchAppend.run (fun _ => 7) (fun _ => 1) ⟨⟨[], 0, [], [], []⟩, 0⟩
      (.writeOpsBatch [.put [97] [1, 2] 5, .delete [97]]) = (.ok [.put 0 2, .delete 29 27], _) :=
    rfl
  obtain ⟨file, hfile, -, -, hread, -⟩ := hagree.2.1 _ _ hrun
  obtain ⟨offset, hresult, hreport⟩ := hread 1 (.delete [97]) rfl
  cases hresult
  exact ⟨file, _, hrun, hfile, hreport .point trivial⟩

end Checksum

end FerricStore.Log
