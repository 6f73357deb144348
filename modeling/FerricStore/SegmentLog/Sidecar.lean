import FerricStore.SegmentLog.Truncate

/-!
# The offset sidecar of a segment

Beside each segment file stands an index file with one row for each index of the segment: the offset
and the size of its frame. Rows are written after the frames, in the order of the frames, and a row
that is lost leaves the slot as it was. A lookup takes the location from the in-memory registry, from
a row that is intact and points at a frame of its size and index, or from a scan of the segment file.

A Raft log has one frame of an index. An apply-projection log may have several, and its scan returns
the last one; there a row of an older frame also passes the checks.
-/

namespace FerricStore.SegmentLog

open Option List

/-- `segment_append_kind` -/
inductive AppendKind where
  | raftLog
  | segmentProjection
  | applyProjection
  deriving DecidableEq, Repr

/-- Where a frame is: segment ordinal, offset in the file and encoded size. -/
structure Location where
  ordinal : Nat
  offset : Nat
  size : Nat
  deriving DecidableEq, Repr

/-- A frame of a segment file. -/
structure Frame where
  index : Nat
  offset : Nat
  size : Nat
  deriving DecidableEq, Repr

/-- The bytes of `?OFFSET_INDEX_MAGIC`. -/
def offsetIndexMagic : Bytes := [0xF0, 0x0D, 0x20, 0x26]

namespace Frame

/-- `offset_index_record` accepts the frame. -/
def encodable (frame : Frame) : Bool :=
  frame.index < 2 ^ 64 && frame.offset < 2 ^ 64 && recordHeaderSize ≤ frame.size &&
    frame.size < 2 ^ 32

/-- The checked part of a row. -/
def body (frame : Frame) : Bytes :=
  offsetIndexMagic ++ (beBytes 8 frame.index ++ (beBytes 8 frame.offset ++
    beBytes 4 frame.size))

/-- `offset_index_record` -/
def row (frame : Frame) : Bytes := frame.body ++ beBytes 4 (crc32 frame.body)

/-- The location of the frame in a segment. -/
def location (ordinal : Nat) (frame : Frame) : Location := ⟨ordinal, frame.offset, frame.size⟩

end Frame

/-- `decode_offset_index_record` -/
def decodeOffsetIndexRecord (index ordinal : Nat) (row : Bytes) : Option Location :=
  let size := beNat (slice row 20 4)
  if row.length = 28 ∧ slice row 0 4 = offsetIndexMagic ∧
      beNat (slice row 4 8) = index ∧ recordHeaderSize ≤ size ∧
      crc32 (slice row 0 24) = beNat (slice row 24 4) then
    some ⟨ordinal, beNat (slice row 12 8), size⟩
  else none

/-- `offset_index_frame_matches`: the first bytes at the offset are those of a frame of this size and
index. -/
def offsetIndexFrameMatches (content : Bytes) (index : Nat) (location : Location) : Bool :=
  let start := slice content location.offset (min location.size 40)
  decide (recordHeaderSize ≤ start.length) &&
    decide (beNat (slice start 0 4) + recordHeaderSize = location.size) &&
    decide (peekRecordIndex (start.drop recordHeaderSize) = .ok index)

/-- `locate_disk_record_offset_fd` from an offset on, with the bytes that are left of the file. The
fuel bounds the records. -/
def locateDiskRecord (recordsPerSegment ordinal : Nat) (kind : AppendKind) (wanted : Nat) :
    Nat → Nat → Bytes → Option Location → Except ScanError (Option Location)
  | 0, _, _, latest => .ok latest
  | fuel + 1, offset, rest, latest =>
    if rest.length < recordHeaderSize then .ok latest
    else
      let len := beNat (slice rest 0 4)
      let crc := beNat (slice rest 4 4)
      if rest.length < recordHeaderSize + len then .ok latest
      else if maxRecordBytes < len then .error (.recordTooLarge offset len)
      else
        let payload := slice rest recordHeaderSize len
        if crc32 payload ≠ crc then .error (.crcMismatch offset)
        else do
          let index ← peekRecordIndex payload
          validateRecordSegmentOrdinal recordsPerSegment ordinal index
          let next := locateDiskRecord recordsPerSegment ordinal kind wanted fuel
            (offset + (recordHeaderSize + len)) (rest.drop (recordHeaderSize + len))
          if index = wanted then
            let here := some ⟨ordinal, offset, recordHeaderSize + len⟩
            if kind = .applyProjection then next here else .ok here
          else if index < wanted then next latest
          else if kind = .applyProjection then next latest
          else .ok none

/-- What lookups read: the segment files, the rows that were written to each index file (slot and
bytes, in the order of the writes), whether the index files are distrusted, and the registry. -/
structure OffsetState where
  disk : Disk
  sidecars : Nat → List (Nat × Bytes)
  untrusted : Bool
  registry : Nat → Option Location

/-- The row in a slot: what was written there last. -/
def readSlot (writes : List (Nat × Bytes)) (slot : Nat) : Option Bytes :=
  (writes.reverse.find? fun write => write.1 = slot).map Prod.snd

namespace OffsetState

variable (recordsPerSegment : Nat) (kind : AppendKind) (s : OffsetState) (index : Nat)

/-- `lookup_trusted_offset_index` -/
def lookupTrustedOffsetIndex : Option Location :=
  let ordinal := segmentOrdinal recordsPerSegment index
  match (readSlot (s.sidecars ordinal) (index % recordsPerSegment)).bind
      (decodeOffsetIndexRecord index ordinal) with
  | some location =>
    if offsetIndexFrameMatches (s.disk.content ordinal) index location then some location
    else none
  | none => none

/-- `lookup_offset` -/
def lookupOffset : Option Location :=
  match s.registry index with
  | some location => some location
  | none => if s.untrusted then none else s.lookupTrustedOffsetIndex recordsPerSegment index

/-- `locate_offset_on_disk` -/
def locateOffsetOnDisk : Except ScanError (Option Location) :=
  let ordinal := segmentOrdinal recordsPerSegment index
  let content := s.disk.content ordinal
  locateDiskRecord recordsPerSegment ordinal kind index (content.length + 1) 0 content none

/-- `lookup_or_locate_offset` -/
def lookupOrLocateOffset : Except ScanError (Option Location) :=
  match s.lookupOffset recordsPerSegment index with
  | some location => .ok (some location)
  | none => s.locateOffsetOnDisk recordsPerSegment kind index

end OffsetState

/-! ## What appends write -/

/-- The frames of records from an offset on. -/
def framesFrom (offset : Nat) : List Record → List Frame
  | [] => []
  | record :: rest =>
    ⟨record.index, offset, (encodeRecord record).length⟩ ::
      framesFrom (offset + (encodeRecord record).length) rest

/-- The last frame of an index. -/
def lastFrame (index : Nat) (frames : List Frame) : Option Frame :=
  frames.reverse.find? fun frame => frame.index = index

section

variable (recordsPerSegment : Nat) (records : List Record)

/-- The frames of a segment after records were appended. -/
def segmentFrames (ordinal : Nat) : List Frame :=
  framesFrom 0 (recordsOf recordsPerSegment ordinal records)

/-- The writes of rows to the index file of a segment, one for each frame that has a row. -/
def rowFrames (ordinal : Nat) : List Frame :=
  (segmentFrames recordsPerSegment records ordinal).filter Frame.encodable

/-- The state after records were appended. Of the row writes those of `survived` are left, and the
registry still has the locations of the indexes in `registered`. -/
def appended (survived : Nat → List Frame) (untrusted : Bool)
    (registered : Nat → Bool) : OffsetState where
  disk := writeRecords recordsPerSegment ⟨0, .empty⟩ records
  sidecars ordinal := (survived ordinal).map fun frame =>
    (frame.index % recordsPerSegment, frame.row)
  untrusted
  registry index :=
    let ordinal := segmentOrdinal recordsPerSegment index
    if registered index then
      (lastFrame index (segmentFrames recordsPerSegment records ordinal)).map
        (Frame.location ordinal)
    else none

end

/-! ## The last frame of an index -/

/-- A later frame of the index goes before the first one. -/
theorem lastFrame_cons (index : Nat) (frame : Frame) (frames : List Frame) :
    lastFrame index (frame :: frames) =
      (lastFrame index frames).or (if frame.index = index then some frame else none) := by
  rw [lastFrame, lastFrame, reverse_cons, List.find?_append]
  congr 1
  by_cases heq : frame.index = index <;> simp [heq]

variable {frame : Frame} {frames : List Frame}

theorem lastFrame_eq_some {index : Nat}
    (h : lastFrame index frames = some frame) : frame ∈ frames ∧ frame.index = index :=
  ⟨mem_reverse.mp (mem_of_find?_eq_some h), by simpa using List.find?_some h⟩

theorem lastFrame_eq_none {index : Nat}
    (h : ∀ frame ∈ frames, frame.index ≠ index) : lastFrame index frames = none :=
  List.find?_eq_none.mpr fun frame hmem => by simpa using h frame (mem_reverse.mp hmem)

/-- Where no two frames have one index, a frame is the last of its index. -/
theorem lastFrame_of_mem (hunique : frames.Pairwise fun a b => a.index < b.index)
    (hmem : frame ∈ frames) : lastFrame frame.index frames = some frame := by
  induction frames with
  | nil => exact absurd hmem not_mem_nil
  | cons first frames ih =>
    obtain ⟨hfirst, hrest⟩ := pairwise_cons.mp hunique
    rw [lastFrame_cons]
    rcases mem_cons.mp hmem with rfl | hmem
    · rw [lastFrame_eq_none fun later hlater => (hfirst later hlater).ne', if_pos rfl]
      rfl
    · rw [ih hrest hmem]
      rfl

/-- Frames have the indexes of their records. -/
theorem map_index_framesFrom (offset : Nat) (records : List Record) :
    (framesFrom offset records).map Frame.index = records.map Record.index := by
  induction records generalizing offset with
  | nil => rfl
  | cons record records ih => rw [framesFrom, map_cons, map_cons, ih]

variable {records : List Record}

/-- The frames of records in order are in order. -/
theorem pairwise_framesFrom (offset : Nat) (h : records.Pairwise fun a b => a.index < b.index) :
    (framesFrom offset records).Pairwise fun a b => a.index < b.index := by
  have hindexes : (records.map Record.index).Pairwise (· < ·) := pairwise_map.mpr h
  rw [← map_index_framesFrom offset] at hindexes
  exact pairwise_map.mp hindexes

/-- A frame has the index of a record. -/
theorem exists_record_of_frame {offset : Nat}
    (h : frame ∈ framesFrom offset records) : ∃ record ∈ records, record.index = frame.index := by
  have hindex := mem_map_of_mem (f := Frame.index) h
  rw [map_index_framesFrom] at hindex
  exact mem_map.mp hindex

/-! ## The scan -/

section Scan

variable {perSegment ordinal wanted : Nat} {kind : AppendKind} {fuel offset : Nat}

/-- The scan at a record. -/
theorem locateDisk_record {record : Record} {rest : Bytes}
    (latest : Option Location) (hfits : record.Fits)
    (hordinal : segmentOrdinal perSegment record.index = ordinal) :
    locateDiskRecord perSegment ordinal kind wanted (fuel + 1) offset
        (encodeRecord record ++ rest) latest =
      (if record.index = wanted then
        if kind = .applyProjection then
          locateDiskRecord perSegment ordinal kind wanted fuel
            (offset + (encodeRecord record).length) rest
            (some ⟨ordinal, offset, (encodeRecord record).length⟩)
        else .ok (some ⟨ordinal, offset, (encodeRecord record).length⟩)
      else if record.index < wanted ∨ kind = .applyProjection then
        locateDiskRecord perSegment ordinal kind wanted fuel
          (offset + (encodeRecord record).length) rest latest
      else .ok none) := by
  have hmax : record.payload.length ≤ maxRecordBytes := hfits
  have hvalid : validateRecordSegmentOrdinal perSegment ordinal record.index = .ok () :=
    if_pos hordinal
  rw [locateDiskRecord, if_neg (by simp; omega)]
  simp only [slice_length_encodeRecord hfits.lt, slice_crc_encodeRecord, slice_payload_encodeRecord]
  rw [if_neg (by simp), if_neg (by omega), if_neg (by simp), peek_payload hfits]
  simp only [ok_bind, hvalid, drop_encodeRecord, length_encodeRecord]
  by_cases hlt : record.index < wanted <;> simp [hlt]

/-- The records of a segment that are in it and not too large. -/
def Scannable (recordsPerSegment ordinal : Nat) (records : List Record) : Prop :=
  ∀ record ∈ records, record.Fits ∧ segmentOrdinal recordsPerSegment record.index = ordinal

/-- The scan of an apply-projection log returns the last frame of the index. -/
theorem locateDisk_projection
    (latest : Option Location) (hscan : Scannable perSegment ordinal records)
    (hfuel : records.length < fuel) :
    locateDiskRecord perSegment ordinal .applyProjection wanted fuel offset
        (encodeRecords records) latest =
      .ok (((lastFrame wanted (framesFrom offset records)).map (Frame.location ordinal)).or
        latest) := by
  induction records generalizing fuel offset latest with
  | nil =>
    obtain ⟨fuel, rfl⟩ : ∃ f, fuel = f + 1 := ⟨fuel - 1, by simp at hfuel; omega⟩
    rfl
  | cons record records ih =>
    obtain ⟨fuel, rfl⟩ : ∃ f, fuel = f + 1 := ⟨fuel - 1, by simp at hfuel; omega⟩
    obtain ⟨⟨hfits, hordinal⟩, hrest⟩ := forall_mem_cons.mp hscan
    have hlater : records.length < fuel := by simpa using hfuel
    rw [encodeRecords, flatMap_cons, locateDisk_record latest hfits hordinal,
      ← encodeRecords, framesFrom, lastFrame_cons]
    by_cases heq : record.index = wanted
    · -- the frame found here stands until a later one is found
      rw [if_pos heq, if_pos rfl, ih _ hrest hlater, if_pos heq]
      cases lastFrame wanted (framesFrom (offset + (encodeRecord record).length) records) <;> rfl
    · rw [if_neg heq, if_pos (.inr rfl), ih _ hrest hlater, if_neg heq, or_none]

/-- The scan of a log with one frame of an index returns it. -/
theorem locateDisk_unique
    (hkind : kind ≠ .applyProjection) (hscan : Scannable perSegment ordinal records)
    (hsorted : records.Pairwise fun a b => a.index < b.index) (hfuel : records.length < fuel) :
    locateDiskRecord perSegment ordinal kind wanted fuel offset (encodeRecords records) none =
      .ok ((lastFrame wanted (framesFrom offset records)).map (Frame.location ordinal)) := by
  induction records generalizing fuel offset with
  | nil =>
    obtain ⟨fuel, rfl⟩ : ∃ f, fuel = f + 1 := ⟨fuel - 1, by simp at hfuel; omega⟩
    rfl
  | cons record records ih =>
    obtain ⟨fuel, rfl⟩ : ∃ f, fuel = f + 1 := ⟨fuel - 1, by simp at hfuel; omega⟩
    obtain ⟨⟨hfits, hordinal⟩, hrest⟩ := forall_mem_cons.mp hscan
    obtain ⟨hfirst, hsorted⟩ := pairwise_cons.mp hsorted
    have hlater : records.length < fuel := by simpa using hfuel
    rw [encodeRecords, flatMap_cons, locateDisk_record none hfits hordinal,
      ← encodeRecords, framesFrom, lastFrame_cons]
    -- from the wanted index on, no later record has it
    have hnone : wanted ≤ record.index →
        lastFrame wanted (framesFrom (offset + (encodeRecord record).length) records) = none := by
      refine fun hle => lastFrame_eq_none fun frame hframe => ?_
      obtain ⟨later, hmem, hindex⟩ := exists_record_of_frame hframe
      have := hfirst later hmem
      omega
    rcases lt_trichotomy record.index wanted with hlt | heq | hgt
    · rw [if_neg hlt.ne, if_pos (.inl hlt), ih hrest hsorted hlater, if_neg hlt.ne, or_none]
    · rw [if_pos heq, if_neg hkind, hnone heq.ge, if_pos heq]
      rfl
    · rw [if_neg hgt.ne', if_neg (by simp [hkind]; omega), hnone hgt.le, if_neg hgt.ne']
      rfl

end Scan

/-! ## The rows -/

/-- A row is decoded for its own index, and gives the location of its frame. -/
theorem decode_row {index ordinal : Nat} (hencodable : frame.encodable = true) :
    decodeOffsetIndexRecord index ordinal frame.row =
      if frame.index = index then some (frame.location ordinal) else none := by
  simp only [Frame.encodable, Bool.and_eq_true, decide_eq_true_eq] at hencodable
  obtain ⟨⟨⟨hindex, hoffset⟩, hheader⟩, hsize⟩ := hencodable
  have hbody : frame.body.length = 24 := by simp [Frame.body, offsetIndexMagic]
  have hmagicAt : slice frame.row 0 4 = offsetIndexMagic := rfl
  have hindexAt : slice frame.row 4 8 = beBytes 8 frame.index := by
    simp only [Frame.row, Frame.body, append_assoc]
    exact slice_middle rfl (length_beBytes _ _)
  have hoffsetAt : slice frame.row 12 8 = beBytes 8 frame.offset := by
    have hsplit : frame.row = (offsetIndexMagic ++ beBytes 8 frame.index) ++
        (beBytes 8 frame.offset ++ (beBytes 4 frame.size ++ beBytes 4 (crc32 frame.body))) := by
      simp [Frame.row, Frame.body]
    rw [hsplit]
    exact slice_middle (by simp [offsetIndexMagic]) (length_beBytes _ _)
  have hsizeAt : slice frame.row 20 4 = beBytes 4 frame.size := by
    have hsplit : frame.row = (offsetIndexMagic ++ (beBytes 8 frame.index ++
        beBytes 8 frame.offset)) ++ (beBytes 4 frame.size ++ beBytes 4 (crc32 frame.body)) := by
      simp [Frame.row, Frame.body]
    rw [hsplit]
    exact slice_middle (by simp [offsetIndexMagic]) (length_beBytes _ _)
  have hbodyAt : slice frame.row 0 24 = frame.body := @slice_middle _ _ [] _ _ rfl hbody
  have hcrcAt : slice frame.row 24 4 = beBytes 4 (crc32 frame.body) := by
    rw [Frame.row, ← append_nil (beBytes 4 _)]
    exact slice_middle hbody (length_beBytes _ _)
  have hlength : frame.row.length = 28 := by rw [Frame.row, length_append, hbody, length_beBytes]
  rw [decodeOffsetIndexRecord]
  simp only [hmagicAt, hindexAt, hoffsetAt, hsizeAt, hbodyAt, hcrcAt, beNat_beBytes 8 hindex,
    beNat_beBytes 8 hoffset, beNat_beBytes 4 hsize, beNat_beBytes 4 (crc32_lt _)]
  by_cases heq : frame.index = index
  · rw [if_pos ⟨hlength, trivial, heq, hheader, trivial⟩, if_pos heq]
    rfl
  · rw [if_neg fun h => heq h.2.2.1, if_neg heq]

/-! ## Frames and bytes -/

/-- The first bytes of a payload have its index, if that has no more than eight digits. -/
theorem peek_take_payload {record : Record} (hindex : record.index < 2 ^ 64) :
    peekRecordIndex (record.payload.take 32) = .ok record.index := by
  have hdigits : digits record.index ≤ 8 := by
    have := Nat.log_lt_of_lt_pow' (b := 256) (x := 8) (by omega)
      (show record.index < 256 ^ 8 by omega)
    unfold digits
    omega
  have hlength : (termInteger record.index).length ≤ 29 := by
    unfold termInteger
    split_ifs <;> simp <;> omega
  have htake : record.payload.take 32 = 131 :: 104 :: 2 ::
      (termInteger record.index ++ record.entry.take (29 - (termInteger record.index).length)) := by
    simp only [Record.payload, take_succ_cons, take_append, take_of_length_le hlength]
  rw [htake]
  exact peek_termInteger (by omega) _

/-- The bytes at a frame pass the check of its row. -/
theorem frame_matches {offset ordinal : Nat} {before : Bytes} {records : List Record}
    (hfits : ∀ record ∈ records, record.Fits) (hbefore : before.length = offset)
    (hmem : frame ∈ framesFrom offset records) (hindex : frame.index < 2 ^ 64) :
    offsetIndexFrameMatches (before ++ encodeRecords records) frame.index
      (frame.location ordinal) = true := by
  induction records generalizing offset before with
  | nil => exact absurd hmem not_mem_nil
  | cons record records ih =>
    obtain ⟨hrecord, hrest⟩ := forall_mem_cons.mp hfits
    rw [encodeRecords, flatMap_cons]
    rcases mem_cons.mp hmem with rfl | hlater
    · have hstart : slice (before ++ (encodeRecord record ++ records.flatMap encodeRecord)) offset
          (min (encodeRecord record).length 40) = beBytes 4 record.payload.length ++
            (beBytes 4 (crc32 record.payload) ++ record.payload.take 32) := by
        have hsplit : encodeRecord record ++ records.flatMap encodeRecord =
            (encodeRecord record).take (min (encodeRecord record).length 40) ++
              ((encodeRecord record).drop (min (encodeRecord record).length 40) ++
                records.flatMap encodeRecord) := by
          rw [← append_assoc, take_append_drop]
        rw [hsplit, slice_middle hbefore (by rw [length_take]; omega), length_encodeRecord,
          encodeRecord]
        simp only [take_append, length_beBytes, recordHeaderSize]
        rw [take_of_length_le (by rw [length_beBytes]; omega),
          take_of_length_le (by rw [length_beBytes]; omega)]
        congr 2
        rw [show min (8 + record.payload.length) 40 - 4 - 4 = min record.payload.length 32 by omega,
          take_eq_take_iff]
        omega
      rw [offsetIndexFrameMatches]
      simp only [Frame.location, hstart]
      rw [Bool.and_eq_true, Bool.and_eq_true]
      refine ⟨⟨decide_eq_true (by simp [recordHeaderSize]; omega), decide_eq_true ?_⟩,
        decide_eq_true ?_⟩
      · rw [slice, drop_zero, take_left' (length_beBytes _ _), beNat_beBytes 4 hrecord.lt,
          length_encodeRecord]
        omega
      · rw [← append_assoc, drop_left' (by simp [recordHeaderSize])]
        exact peek_take_payload hindex
    · rw [← append_assoc]
      exact ih hrest (by rw [length_append, hbefore]) hlater

/-- The frames of records stand one after another. -/
theorem pairwise_offset_framesFrom (offset : Nat) (records : List Record) :
    (framesFrom offset records).Pairwise (fun a b => a.offset < b.offset) ∧
      ∀ frame ∈ framesFrom offset records, offset ≤ frame.offset := by
  induction records generalizing offset with
  | nil => exact ⟨.nil, nofun⟩
  | cons record records ih =>
    obtain ⟨hpairwise, hle⟩ := ih (offset + (encodeRecord record).length)
    have hpos : 0 < (encodeRecord record).length := by
      rw [length_encodeRecord, recordHeaderSize]
      omega
    refine ⟨pairwise_cons.mpr ⟨fun frame hframe => ?_, hpairwise⟩,
      forall_mem_cons.mpr ⟨le_rfl, fun frame hframe => ?_⟩⟩
    · show offset < frame.offset
      have := hle frame hframe
      omega
    · have := hle frame hframe
      omega

/-- Two frames at one location are the same. -/
theorem frame_eq_of_location {offset ordinal : Nat} {frame' : Frame}
    (h : frame ∈ framesFrom offset records) (h' : frame' ∈ framesFrom offset records)
    (heq : frame.location ordinal = frame'.location ordinal) : frame = frame' := by
  have hnodup : ((framesFrom offset records).map Frame.offset).Nodup :=
    (pairwise_map.mpr (pairwise_offset_framesFrom offset records).1).imp Nat.ne_of_lt
  exact inj_on_of_nodup_map hnodup h h' (congrArg Location.offset heq)

section Lookup

variable {recordsPerSegment perSegment : Nat} {records : List Record} {survived : Nat → List Frame}

/-- The slot of an index has the last row of the index: no other index of the segment has it. -/
theorem readSlot_eq {index : Nat} (hordinal : ∀ frame ∈ frames,
      segmentOrdinal perSegment frame.index = segmentOrdinal perSegment index) :
    readSlot (frames.map fun frame => (frame.index % perSegment, frame.row))
      (index % perSegment) = (lastFrame index frames).map Frame.row := by
  rw [readSlot, ← map_reverse, List.find?_map, Option.map_map, lastFrame]
  have hslot : ∀ frame ∈ frames.reverse,
      ((fun write : Nat × Bytes => decide (write.1 = index % perSegment)) ∘
        fun frame => (frame.index % perSegment, frame.row)) frame =
        decide (frame.index = index) := by
    intro frame hmem
    have hdiv : frame.index / perSegment = index / perSegment :=
      hordinal frame (mem_reverse.mp hmem)
    show decide (frame.index % perSegment = index % perSegment) = _
    refine decide_eq_decide.mpr ⟨fun hmod => ?_, fun heq => by rw [heq]⟩
    rw [← Nat.div_add_mod frame.index perSegment, hdiv, hmod, Nat.div_add_mod]
  rw [List.find?_congr hslot]
  rfl

/-- The scan returns the last frame of the index. -/
theorem locateOffsetOnDisk_eq {kind : AppendKind} (hfits : ∀ record ∈ records, record.Fits)
    (hunique : kind ≠ .applyProjection → records.Pairwise fun a b => a.index < b.index)
    (untrusted : Bool) (registered : Nat → Bool) (index : Nat) :
    (appended perSegment records survived untrusted registered).locateOffsetOnDisk
        perSegment kind index =
      .ok ((lastFrame index (segmentFrames perSegment records
        (segmentOrdinal perSegment index))).map
          (Frame.location (segmentOrdinal perSegment index))) := by
  have hscan : Scannable perSegment (segmentOrdinal perSegment index)
      (recordsOf perSegment (segmentOrdinal perSegment index) records) := by
    intro record hmem
    obtain ⟨hrecord, hordinal⟩ := mem_filter.mp hmem
    exact ⟨hfits record hrecord, by simpa using hordinal⟩
  have hfuel := Nat.lt_succ_of_le
    (length_le_encodeRecords (recordsOf perSegment (segmentOrdinal perSegment index) records))
  rw [OffsetState.locateOffsetOnDisk, appended, content_writeRecords,
    show Disk.content ⟨0, SortedMap.empty⟩ (segmentOrdinal perSegment index) = [] from rfl,
    nil_append, segmentFrames]
  by_cases hkind : kind = .applyProjection
  · rw [hkind, locateDisk_projection none hscan hfuel, or_none]
  · exact locateDisk_unique hkind hscan ((hunique hkind).filter _) hfuel

/-- The row of a segment that is accepted for an index is its last row. -/
theorem lookupTrusted_eq {s : OffsetState} {index : Nat}
    (hrows : s.sidecars (segmentOrdinal perSegment index) =
      frames.map fun frame => (frame.index % perSegment, frame.row))
    (hencodable : ∀ frame ∈ frames, frame.encodable = true) (hordinal : ∀ frame ∈ frames,
      segmentOrdinal perSegment frame.index = segmentOrdinal perSegment index)
    (hmatches : ∀ frame ∈ frames, offsetIndexFrameMatches
      (s.disk.content (segmentOrdinal perSegment index)) frame.index
      (frame.location (segmentOrdinal perSegment index)) = true) :
    s.lookupTrustedOffsetIndex perSegment index =
      (lastFrame index frames).map (Frame.location (segmentOrdinal perSegment index)) := by
  rw [OffsetState.lookupTrustedOffsetIndex, hrows, readSlot_eq hordinal]
  cases hlast : lastFrame index frames with
  | none => rfl
  | some frame =>
    obtain ⟨hmem, hindex⟩ := lastFrame_eq_some hlast
    have hfound := hmatches frame hmem
    rw [hindex] at hfound
    rw [map_some, bind_some, decode_row (hencodable frame hmem), if_pos hindex]
    dsimp only
    rw [if_pos hfound, map_some]

/-- The rows that survived are rows of frames of the segment. -/
theorem mem_survived {ordinal : Nat}
    (hsurvived : frames.Sublist (rowFrames perSegment records ordinal))
    (hmem : frame ∈ frames) : frame ∈ segmentFrames perSegment records ordinal ∧
      frame.encodable = true ∧ segmentOrdinal perSegment frame.index = ordinal := by
  obtain ⟨hsegment, hencodable⟩ := mem_filter.mp (hsurvived.subset hmem)
  obtain ⟨record, hrecord, hindex⟩ := exists_record_of_frame hsegment
  have hordinal := (mem_filter.mp hrecord).2
  rw [hindex] at hordinal
  exact ⟨hsegment, hencodable, of_decide_eq_true hordinal⟩

/-- What a lookup returns: the last frame of an index that is registered, or that is looked up without
the index files; else the frame of its last row that survived, and without one the last frame. -/
theorem lookupOrLocate_eq {kind : AppendKind} (hfits : ∀ record ∈ records, record.Fits)
    (hunique : kind ≠ .applyProjection → records.Pairwise fun a b => a.index < b.index)
    (hsurvived : ∀ ordinal, (survived ordinal).Sublist
      (rowFrames perSegment records ordinal))
    (untrusted : Bool) (registered : Nat → Bool) (index : Nat) :
    (appended perSegment records survived untrusted registered).lookupOrLocateOffset
        perSegment kind index =
      .ok (((if untrusted = true ∨ registered index = true then none
          else lastFrame index (survived (segmentOrdinal perSegment index))).or
        (lastFrame index (segmentFrames perSegment records (segmentOrdinal perSegment index)))).map
          (Frame.location (segmentOrdinal perSegment index))) := by
  set ordinal := segmentOrdinal perSegment index
  set s := appended perSegment records survived untrusted registered with hs
  have hscan : s.locateOffsetOnDisk perSegment kind index = .ok _ :=
    locateOffsetOnDisk_eq hfits hunique untrusted registered index
  have hcontent : s.disk.content ordinal = [] ++ encodeRecords (recordsOf perSegment ordinal records) :=
    content_writeRecords _ _ _
  have hrow : s.lookupTrustedOffsetIndex perSegment index =
      (lastFrame index (survived ordinal)).map (Frame.location ordinal) := by
    refine lookupTrusted_eq rfl (fun frame hmem => (mem_survived (hsurvived ordinal) hmem).2.1)
      (fun frame hmem => (mem_survived (hsurvived ordinal) hmem).2.2) fun frame hmem => ?_
    obtain ⟨hsegment, hencodable, -⟩ := mem_survived (hsurvived ordinal) hmem
    simp only [Frame.encodable, Bool.and_eq_true, decide_eq_true_eq] at hencodable
    rw [hcontent]
    exact frame_matches (fun record hmem => hfits record (mem_of_mem_filter hmem)) rfl hsegment
      hencodable.1.1.1
  rw [OffsetState.lookupOrLocateOffset, hscan, OffsetState.lookupOffset, hrow]
  have hregistry : s.registry index = if registered index then
      (lastFrame index (segmentFrames perSegment records ordinal)).map (Frame.location ordinal)
      else none := rfl
  rw [hregistry]
  cases hlast : lastFrame index (segmentFrames perSegment records ordinal) with
  | some frame =>
    cases registered index <;> cases untrusted <;>
      cases lastFrame index (survived ordinal) <;> rfl
  | none =>
    -- without a frame of the index there is no row of it either
    have hnone : lastFrame index (survived ordinal) = none := by
      refine lastFrame_eq_none fun frame hmem heq => ?_
      have hframe := (mem_survived (hsurvived ordinal) hmem).1
      have := List.find?_eq_none.mp hlast frame (mem_reverse.mpr hframe)
      simp [heq] at this
    rw [hnone]
    cases registered index <;> cases untrusted <;> rfl

/-- Whatever row writes are lost, a lookup returns what the scan of the segment file returns (the last
frame of the index, or that there is none) if and only if the index files are distrusted, the index
is registered, or its last row that survived is the row of its last frame. In a log with one frame of
an index that is always so. -/
theorem lookup_eq_scan {kind : AppendKind} (hfits : ∀ record ∈ records, record.Fits)
    (hunique : kind ≠ .applyProjection → records.Pairwise fun a b => a.index < b.index)
    (hsurvived : ∀ ordinal, (survived ordinal).Sublist
      (rowFrames recordsPerSegment records ordinal))
    (untrusted : Bool) (registered : Nat → Bool) (index : Nat) :
    let s := appended recordsPerSegment records survived untrusted registered
    let ordinal := segmentOrdinal recordsPerSegment index
    let latest := ∀ frame, lastFrame index (survived ordinal) = some frame →
      lastFrame index (segmentFrames recordsPerSegment records ordinal) = some frame
    (s.lookupOrLocateOffset recordsPerSegment kind index =
        s.locateOffsetOnDisk recordsPerSegment kind index ↔
          untrusted = true ∨ registered index = true ∨ latest) ∧
      (kind ≠ .applyProjection → latest) ∧
      s.locateOffsetOnDisk recordsPerSegment kind index =
        .ok ((lastFrame index (segmentFrames recordsPerSegment records ordinal)).map
          (Frame.location ordinal)) := by
  intro s ordinal latest
  have hscan : s.locateOffsetOnDisk recordsPerSegment kind index = _ :=
    locateOffsetOnDisk_eq hfits hunique untrusted registered index
  have hlookup : s.lookupOrLocateOffset recordsPerSegment kind index = _ :=
    lookupOrLocate_eq hfits hunique hsurvived untrusted registered index
  refine ⟨?_, fun hkind frame hframe => ?_, hscan⟩
  · have hassoc : (untrusted = true ∨ registered index = true ∨ latest) ↔
        (untrusted = true ∨ registered index = true) ∨ latest := by tauto
    rw [hlookup, hscan, hassoc]
    by_cases hdirect : untrusted = true ∨ registered index = true
    · rw [if_pos hdirect]
      exact iff_of_true rfl (.inl hdirect)
    · rw [if_neg hdirect, or_iff_right hdirect]
      cases hrow : lastFrame index (survived (segmentOrdinal recordsPerSegment index)) with
      | none => exact iff_of_true rfl fun frame hframe => nomatch hrow.symm.trans hframe
      | some row =>
        have hmem := (mem_survived (hsurvived ordinal) (lastFrame_eq_some hrow).1).1
        refine ⟨fun heq frame hframe => ?_, fun h => ?_⟩
        · -- another frame would be at another location
          obtain rfl : row = frame := some.inj (hrow.symm.trans hframe)
          have hlocation := Except.ok.inj heq
          obtain ⟨last, hlast, hsame⟩ := map_eq_some_iff.mp hlocation.symm
          rw [hlast, frame_eq_of_location (lastFrame_eq_some hlast).1 hmem hsame]
        · rw [h row hrow]
          rfl
  · -- the only frame of the index
    obtain ⟨hmem, rfl⟩ := lastFrame_eq_some hframe
    exact lastFrame_of_mem (pairwise_framesFrom 0 ((hunique hkind).filter _))
      (mem_survived (hsurvived _) hmem).1

end Lookup

/-- An apply-projection log with two frames of an index, of which the second has its row, and a frame
of another index without one. -/
theorem lookup_eq_scan_lost_row :
    let records : List Record := [⟨0, [7]⟩, ⟨0, [8]⟩, ⟨1, [9]⟩]
    let s := appended 4 records (fun ordinal => ((rowFrames 4 records ordinal).drop 1).take 1) false
      fun _ => false
    s.lookupOrLocateOffset 4 .applyProjection 0 = s.locateOffsetOnDisk 4 .applyProjection 0 := by
  intro records s
  have hfits : ∀ record ∈ records, record.Fits := by decide +kernel
  have h := @lookup_eq_scan 4 records (fun ordinal => ((rowFrames 4 records ordinal).drop 1).take 1)
    .applyProjection hfits (fun h => absurd rfl h)
    (fun ordinal => (take_sublist _ _).trans (drop_sublist _ _)) false (fun _ => false) 0
  refine h.1.mpr (.inr (.inr fun frame hframe => ?_))
  have hrow : lastFrame 0 (((rowFrames 4 records 0).drop 1).take 1) =
      lastFrame 0 (segmentFrames 4 records 0) := by decide +kernel
  exact hrow.symm.trans hframe

/-- An apply-projection log with two frames of an index, of which only the first has its row: the
lookup returns the older frame and the scan the last one. -/
theorem stale_row_is_returned :
    let records : List Record := [⟨0, [7]⟩, ⟨0, [8]⟩]
    let s := appended 4 records (fun ordinal => (rowFrames 4 records ordinal).take 1) false
      fun _ => false
    s.lookupOrLocateOffset 4 .applyProjection 0 = .ok (some ⟨0, 0, 14⟩) ∧
      s.locateOffsetOnDisk 4 .applyProjection 0 = .ok (some ⟨0, 14, 14⟩) := by
  decide +kernel

end FerricStore.SegmentLog
