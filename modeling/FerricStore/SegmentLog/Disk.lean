import FerricStore.Lib.SortedMap
import FerricStore.SegmentLog.Records

/-!
# The segment files of a Raft log

The records of a log are spread over segment files by their index. An append groups its records by
segment and extends one file after another, a truncation cuts the file of its index and empties the
later ones, a trim raises a floor and deletes the files below it, and opening the log scans the files
from the floor on, in order, and cuts what was torn.
-/

namespace FerricStore.SegmentLog

open List

/-- The directory of a log: its trim floor and its segment files by ordinal. -/
structure Disk where
  floor : Nat
  files : SortedMap Nat Bytes

namespace Disk

/-- Disks with the same floor and the same files are equal. -/
theorem ext_get {d d' : Disk} (hfloor : d.floor = d'.floor)
    (hget : ∀ ordinal, d.files.get ordinal = d'.files.get ordinal) : d = d' := by
  obtain ⟨floor, files⟩ := d
  obtain ⟨floor', files'⟩ := d'
  obtain rfl : floor = floor' := hfloor
  obtain rfl : files = files' := SortedMap.ext hget
  rfl

/-- The bytes of a segment file; a missing file has none. -/
def content (d : Disk) (ordinal : Nat) : Bytes := (d.files.get ordinal).getD []

/-- Bytes are appended to a segment file, which is created if it is missing. -/
def extend (d : Disk) (ordinal : Nat) (bytes : Bytes) : Disk :=
  { d with files := d.files.put ordinal (d.content ordinal ++ bytes) }

/-- A segment file is truncated. -/
def cut (d : Disk) (ordinal size : Nat) : Disk :=
  { d with files := d.files.put ordinal ((d.content ordinal).take size) }

end Disk

/-- Records of one segment, newest first, as `group_records` collects them. -/
abbrev Group := Nat × List Record

/-- `{non_monotonic_segment_group, Index, Ordinal, NextOrdinal}` -/
structure NonMonotonicSegmentGroup where
  index : Nat
  ordinal : Nat
  nextOrdinal : Nat
  deriving DecidableEq, Repr

section

variable (recordsPerSegment : Nat)

/-- `group_records_loop` -/
def groupRecordsLoop : List Record → Nat → List Record → List Group →
    Except NonMonotonicSegmentGroup (List Group)
  | [], ordinal, recordsRev, acc => .ok ((ordinal, recordsRev) :: acc).reverse
  | record :: rest, ordinal, recordsRev, acc =>
    let nextOrdinal := segmentOrdinal recordsPerSegment record.index
    if nextOrdinal = ordinal then groupRecordsLoop rest ordinal (record :: recordsRev) acc
    else if ordinal < nextOrdinal then
      groupRecordsLoop rest nextOrdinal [record] ((ordinal, recordsRev) :: acc)
    else .error ⟨record.index, ordinal, nextOrdinal⟩

/-- `group_records` -/
def groupRecords : List Record → Except NonMonotonicSegmentGroup (List Group)
  | [] => .ok []
  | record :: rest =>
    groupRecordsLoop recordsPerSegment rest (segmentOrdinal recordsPerSegment record.index)
      [record] []

/-- The bytes that are written for a group. -/
def Group.bytes (group : Group) : Bytes := encodeRecords group.2.reverse

variable (d : Disk)

/-- `write_record_group_list`, when every write succeeds. -/
def writeGroups (groups : List Group) : Disk :=
  groups.foldl (fun d group => d.extend group.1 group.bytes) d

/-- An append that is not interrupted. -/
def appendRecords (batch : List Record) : Except NonMonotonicSegmentGroup Disk :=
  (groupRecords recordsPerSegment batch).map (writeGroups d)

/-- The disks that an append leaves when it is killed: some groups are written, and of the next one a
part of the bytes. -/
inductive KilledAppend (d : Disk) (batch : List Record) : Disk → Prop where
  | idle : KilledAppend d batch d
  | writing {done rest : List Group} {group : Group} (count : Nat) :
      groupRecords recordsPerSegment batch = .ok (done ++ group :: rest) →
      KilledAppend d batch ((writeGroups d done).extend group.1 (group.bytes.take count))

/-- `scan_raft_segment_paths` with `maybe_truncate` after each segment. -/
def scanSegmentPaths : List (Nat × Bytes) → Scan → Disk → Except ScanError (Scan × Disk)
  | [], scan, d => .ok (scan, d)
  | (ordinal, bytes) :: rest, scan, d => do
    let (scan, validBytes) ←
      scanSegment recordsPerSegment ordinal (bytes.length + 1) 0 bytes scan
    scanSegmentPaths rest scan
      (if validBytes < bytes.length then d.cut ordinal validBytes else d)

/-- The segment files from the one of the trim floor on. -/
def Disk.livePaths : List (Nat × Bytes) :=
  d.files.entries.dropWhile fun path => path.1 < d.floor / recordsPerSegment

/-- The scan of `load_raft_segments_bounded`. -/
def openLog : Except ScanError (Scan × Disk) :=
  scanSegmentPaths recordsPerSegment (d.livePaths recordsPerSegment) .empty d

/-- Where a segment file has the record of an index, by going from record to record. -/
def locateOffset (index : Nat) : Nat → Nat → Bytes → Except ScanError (Option Nat)
  | 0, _, _ => .ok none
  | fuel + 1, offset, rest =>
    if rest.length < recordHeaderSize then .ok none
    else
      let len := beNat (slice rest 0 4)
      let crc := beNat (slice rest 4 4)
      if maxRecordBytes < len then .error (.recordTooLarge offset len)
      else if rest.length < recordHeaderSize + len then .ok none
      else
        let payload := slice rest recordHeaderSize len
        if crc32 payload ≠ crc then .error (.crcMismatch offset)
        else do
          let found ← peekRecordIndex payload
          if found = index then .ok (some offset)
          else
            locateOffset index fuel (offset + (recordHeaderSize + len))
              (rest.drop (recordHeaderSize + len))

/-- `truncate_segment_paths_from`: the file truncations, in the order in which they are done. -/
def truncateSteps (targetOrdinal targetOffset : Nat) : List (Nat × Bytes) → List (Nat × Nat)
  | [] => []
  | (ordinal, _) :: rest =>
    if ordinal < targetOrdinal then truncateSteps targetOrdinal targetOffset rest
    else if ordinal = targetOrdinal then
      (ordinal, targetOffset) :: rest.map fun path => (path.1, 0)
    else (ordinal, 0) :: rest.map fun path => (path.1, 0)

/-- The file truncations of `truncate_disk_tail_from` for an index of the log. -/
def Disk.truncateStepsFrom (index : Nat) : List (Nat × Nat) :=
  let ordinal := segmentOrdinal recordsPerSegment index
  let bytes := d.content ordinal
  match locateOffset index (bytes.length + 1) 0 bytes with
  | .ok (some offset) => truncateSteps ordinal offset d.files.entries
  | _ => []

/-- File truncations, one after another. -/
def Disk.runCuts (steps : List (Nat × Nat)) : Disk :=
  steps.foldl (fun d step => d.cut step.1 step.2) d

/-- A truncation that is not interrupted. -/
def Disk.truncate (index : Nat) : Disk :=
  d.runCuts (d.truncateStepsFrom recordsPerSegment index)

/-- `delete_segments_below_floor`. A file that could not be deleted is kept. -/
def Disk.deleteSegmentsBelowFloor (kept : Nat → Bool) : Disk :=
  { d with
    files := ⟨d.files.entries.filter fun path =>
      decide (d.floor / recordsPerSegment ≤ path.1) || kept path.1,
      d.files.sorted.filter _⟩ }

/-- `trim_to`: raises the floor and deletes the segment files below it. -/
def Disk.trim (index : Nat) (kept : Nat → Bool) : Disk :=
  deleteSegmentsBelowFloor recordsPerSegment { d with floor := max d.floor index } kept

/-- The disk side of `open`: the scan, and the deletion of the segment files below the floor. -/
def openAndDelete (kept : Nat → Bool) : Except ScanError (Scan × Disk) := do
  let (scan, d) ← openLog recordsPerSegment d
  .ok (scan, d.deleteSegmentsBelowFloor recordsPerSegment kept)

/-- The records of a segment. -/
def recordsOf (ordinal : Nat) (records : List Record) : List Record :=
  records.filter fun record => segmentOrdinal recordsPerSegment record.index = ordinal

end

/-! ## Records by segment -/

variable {ordinal : Nat}

section Grouping

variable {perSegment : Nat} {records : List Record}

/-- Indexes grow. -/
theorem Follows.lt {last : Nat} (h : Follows (some last) records) :
    ∀ record ∈ records, last < record.index := by
  induction records generalizing last with
  | nil => simp
  | cons first records ih =>
    have hfirst := h.1 last rfl
    intro record hrecord
    rcases mem_cons.mp hrecord with rfl | hrest
    · omega
    · have := ih h.2 record hrest
      omega

/-- Records that follow one on another are grouped by segment already. -/
theorem recordsOf_append_rest {last : Option Nat} (h : Follows last records)
    (hle : ∀ record ∈ records, ordinal ≤ segmentOrdinal perSegment record.index) :
    recordsOf perSegment ordinal records ++
      records.filter (fun record => segmentOrdinal perSegment record.index ≠ ordinal) =
        records := by
  induction records generalizing last with
  | nil => rfl
  | cons record records ih =>
    simp only [mem_cons, forall_eq_or_imp] at hle
    have hrest := ih h.2 hle.2
    by_cases heq : segmentOrdinal perSegment record.index = ordinal
    · simp only [recordsOf] at hrest ⊢
      rw [filter_cons_of_pos (by simpa using heq), filter_cons_of_neg (by simp [heq]),
        cons_append, hrest]
    · -- the first record is past the segment, and so are the later ones
      have hlater : ∀ later ∈ records, segmentOrdinal perSegment later.index ≠ ordinal := by
        intro later hlater
        have hindex := h.2.lt later hlater
        have : segmentOrdinal perSegment record.index ≤
            segmentOrdinal perSegment later.index := Nat.div_le_div_right hindex.le
        omega
      have hnone : recordsOf perSegment ordinal (record :: records) = [] := by
        simpa [recordsOf, heq] using hlater
      have hall : (record :: records).filter
          (fun record => segmentOrdinal perSegment record.index ≠ ordinal) =
          record :: records := by
        simpa [heq] using hlater
      rw [hnone, hall, nil_append]

theorem recordsOf_eq_nil (h : ∀ record ∈ records, segmentOrdinal perSegment record.index ≠ ordinal) :
    recordsOf perSegment ordinal records = [] :=
  filter_eq_nil_iff.mpr fun record hrecord => by simpa using h record hrecord

/-- A selection that keeps the records of a segment. -/
theorem recordsOf_filter {keep : Record → Bool}
    (h : ∀ record ∈ records, segmentOrdinal perSegment record.index = ordinal → keep record) :
    recordsOf perSegment ordinal (records.filter keep) = recordsOf perSegment ordinal records := by
  rw [recordsOf, filter_filter, recordsOf]
  refine filter_congr fun record hrecord => ?_
  by_cases heq : segmentOrdinal perSegment record.index = ordinal
  · simp [heq, h record hrecord heq]
  · simp [heq]

/-- The records of one segment are those of the rest without another one. -/
theorem recordsOf_rest {other : Nat} (hne : other ≠ ordinal) : recordsOf perSegment other
      (records.filter fun record => segmentOrdinal perSegment record.index ≠ ordinal) =
        recordsOf perSegment other records :=
  recordsOf_filter fun _ _ heq => by simpa [heq] using hne

/-- The records of one segment in a concatenation. -/
theorem recordsOf_append (ordinal : Nat) (records more : List Record) :
    recordsOf perSegment ordinal (records ++ more) =
      recordsOf perSegment ordinal records ++ recordsOf perSegment ordinal more :=
  filter_append records more

/-- The last index after more records. -/
def lastIndex (last : Option Nat) (records : List Record) : Option Nat :=
  records.foldl (fun _ record => some record.index) last

/-- Records follow on records. -/
theorem follows_append {last : Option Nat} {records more : List Record} :
    Follows last (records ++ more) ↔ Follows last records ∧ Follows (lastIndex last records) more := by
  induction records generalizing last with
  | nil => simp [Follows, lastIndex]
  | cons record records ih =>
    rw [cons_append, Follows, Follows, ih, and_assoc]
    rfl

/-- A scan knows the last index. -/
theorem Scan.last_addAll (scan : Scan) (records : List Record) :
    (scan.addAll records).last = lastIndex scan.last records := by
  induction records generalizing scan with
  | nil => rfl
  | cons record records ih => exact ih (scan.add record.index)

end Grouping

/-! ## Opening a log -/

section Opening

variable {perSegment : Nat}

/-- A truncated file. -/
@[simp] theorem Disk.get_cut (d : Disk) (ordinal size other : Nat) :
    (d.cut ordinal size).files.get other =
      if other = ordinal then some ((d.content ordinal).take size) else d.files.get other :=
  SortedMap.get_put ..

/-- Every record has bytes. -/
theorem length_le_encodeRecords (records : List Record) :
    records.length ≤ (encodeRecords records).length := by
  induction records with
  | nil => simp
  | cons record records ih =>
    simp only [encodeRecords, flatMap_cons, length_append, length_cons,
      length_encodeRecord, recordHeaderSize] at ih ⊢
    omega

/-- What is valid of a file stays. -/
theorem Disk.get_maybe_cut (d : Disk) {valid torn : Bytes}
    (hget : d.files.get ordinal = some (valid ++ torn)) (other : Nat) :
    (if valid.length < (valid ++ torn).length then d.cut ordinal valid.length else d).files.get
      other = if other = ordinal then some valid else d.files.get other := by
  split
  case isTrue =>
    rw [Disk.get_cut, Disk.content, hget, Option.getD_some, take_left]
  case isFalse hlength =>
    obtain rfl : torn = [] := length_eq_zero_iff.mp (by
      rw [length_append] at hlength
      omega)
    by_cases heq : other = ordinal
    · rw [if_pos heq, heq, hget, append_nil]
    · rw [if_neg heq]

variable {records : List Record}

/-- The scan of the segment files finds the records, and cuts each file to its records. -/
theorem scan_segment_paths {paths : List (Nat × Bytes)} {scan : Scan}
    {d : Disk} (hsorted : Entries.Sorted paths)
    (hfiles : ∀ path ∈ paths, d.files.get path.1 = some path.2)
    (hbytes : ∀ path ∈ paths, ∃ torn, Torn torn ∧
      path.2 = encodeRecords (recordsOf perSegment path.1 records) ++ torn)
    (hfollows : Follows scan.last records) (hfits : ∀ record ∈ records, record.Fits)
    (hpath : ∀ record ∈ records, ∃ path ∈ paths, path.1 = segmentOrdinal perSegment record.index) :
    ∃ d', scanSegmentPaths perSegment paths scan d = .ok (scan.addAll records, d') ∧
      d'.floor = d.floor ∧
      (∀ ordinal ∈ paths.map Prod.fst, d'.files.get ordinal =
        some (encodeRecords (recordsOf perSegment ordinal records))) ∧
      ∀ ordinal ∉ paths.map Prod.fst, d'.files.get ordinal = d.files.get ordinal := by
  induction paths generalizing records scan d with
  | nil =>
    obtain rfl : records = [] := by
      refine eq_nil_iff_forall_not_mem.mpr fun record hrecord => ?_
      obtain ⟨path, hmem, -⟩ := hpath record hrecord
      cases hmem
    exact ⟨d, rfl, rfl, by simp, fun _ _ => rfl⟩
  | cons path paths ih =>
    obtain ⟨ordinal, bytes⟩ := path
    obtain ⟨hfirst, hrest⟩ := pairwise_cons.mp hsorted
    have hle : ∀ record ∈ records, ordinal ≤ segmentOrdinal perSegment record.index := by
      intro record hrecord
      obtain ⟨path, hmem, hordinal⟩ := hpath record hrecord
      rcases mem_cons.mp hmem with rfl | hmem
      · exact hordinal.le
      · exact hordinal ▸ (hfirst path hmem).le
    have hsplit := recordsOf_append_rest hfollows hle
    obtain ⟨torn, htorn, hcontent⟩ := hbytes (ordinal, bytes) mem_cons_self
    obtain rfl : bytes = encodeRecords (recordsOf perSegment ordinal records) ++ torn := hcontent
    -- this segment holds the first of the records, and the other files the rest
    have hmine : ∀ record ∈ recordsOf perSegment ordinal records,
        segmentOrdinal perSegment record.index = ordinal := fun record hrecord => by
      simpa using (mem_filter.mp hrecord).2
    have hfollows' := hfollows
    rw [← hsplit, follows_append] at hfollows'
    have hmineFits : ∀ record ∈ recordsOf perSegment ordinal records, record.Fits :=
      fun record hrecord => hfits record (mem_of_mem_filter hrecord)
    have hlength := length_le_encodeRecords (recordsOf perSegment ordinal records)
    set scan' := scan.addAll (recordsOf perSegment ordinal records) with hscan'
    set d₁ := if (encodeRecords (recordsOf perSegment ordinal records)).length <
      (encodeRecords (recordsOf perSegment ordinal records) ++ torn).length then
        d.cut ordinal (encodeRecords (recordsOf perSegment ordinal records)).length
      else d with hd₁
    have hget := d.get_maybe_cut (hfiles (ordinal, _) mem_cons_self)
    have hne : ∀ path ∈ paths, path.1 ≠ ordinal := fun path hmem => (hfirst path hmem).ne'
    obtain ⟨d', hrun, hfloor, hinside, houtside⟩ := @ih
      (records.filter (fun record => segmentOrdinal perSegment record.index ≠ ordinal))
      scan' d₁ hrest
      (fun path hmem => by
        rw [hd₁, hget, if_neg (hne path hmem)]
        exact hfiles path (mem_cons_of_mem _ hmem))
      (fun path hmem => by
        rw [recordsOf_rest (hne path hmem)]
        exact hbytes path (mem_cons_of_mem _ hmem))
      (by rw [hscan', Scan.last_addAll]; exact hfollows'.2)
      (fun record hrecord => hfits record (mem_of_mem_filter hrecord))
      (fun record hrecord => by
        obtain ⟨hrecord, hother⟩ := mem_filter.mp hrecord
        obtain ⟨path, hmem, hordinal⟩ := hpath record hrecord
        rcases mem_cons.mp hmem with rfl | hmem
        · exact absurd hordinal.symm (by simpa using hother)
        · exact ⟨path, hmem, hordinal⟩)
    refine ⟨d', ?_, ?_, fun other hother => ?_, fun other hother => ?_⟩
    · rw [scanSegmentPaths, scan_records htorn hmineFits hmine hfollows'.1
        (by rw [length_append]; omega), Nat.zero_add, ok_bind]
      show scanSegmentPaths perSegment paths scan' d₁ = _
      rw [hrun]
      simp only [hscan', Scan.addAll, ← foldl_append, hsplit]
    · rw [hfloor, hd₁]
      split <;> rfl
    · by_cases heq : other = ordinal
      · have hnot : other ∉ paths.map Prod.fst := fun hmem => by
          obtain ⟨path, hmem, hpath⟩ := mem_map.mp hmem
          exact hne path hmem (hpath.trans heq)
        rw [houtside other hnot, hget, if_pos heq, heq]
      · rw [hinside other ((mem_cons.mp hother).resolve_left heq), recordsOf_rest heq]
    · obtain ⟨heq, hnot⟩ := not_or.mp (mt mem_cons.mpr hother)
      rw [houtside other hnot, hget, if_neg heq]

/-- The files from an ordinal on. -/
theorem mem_dropWhile_lt {paths : List (Nat × Bytes)} (hsorted : Entries.Sorted paths)
    {bound : Nat} {path : Nat × Bytes} :
    path ∈ paths.dropWhile (fun path => path.1 < bound) ↔ path ∈ paths ∧ bound ≤ path.1 := by
  induction paths with
  | nil => simp
  | cons first paths ih =>
    obtain ⟨hfirst, hrest⟩ := pairwise_cons.mp hsorted
    by_cases hlt : first.1 < bound
    · rw [dropWhile_cons_of_pos (by simpa using hlt), ih hrest, mem_cons]
      constructor
      · exact fun h => ⟨.inr h.1, h.2⟩
      · rintro ⟨rfl | hmem, hle⟩
        · omega
        · exact ⟨hmem, hle⟩
    · rw [dropWhile_cons_of_neg (by simpa using hlt)]
      refine ⟨fun hmem => ⟨hmem, ?_⟩, And.left⟩
      rcases mem_cons.mp hmem with rfl | hmem
      · omega
      · have := hfirst path hmem
        omega

/-- What a directory shows of a log: the records from the segment of the floor on, in the files of
their segments, and after them a record that was cut short. -/
structure ShowsTorn (recordsPerSegment : Nat) (d : Disk) (records : List Record) : Prop where
  follows : Follows none records
  fits : ∀ record ∈ records, record.Fits
  live : ∀ record ∈ records,
    d.floor / recordsPerSegment ≤ segmentOrdinal recordsPerSegment record.index
  bytes : ∀ ordinal, d.floor / recordsPerSegment ≤ ordinal → ∃ torn, Torn torn ∧
    d.content ordinal = encodeRecords (recordsOf recordsPerSegment ordinal records) ++ torn

/-- The file of a record exists. -/
theorem ShowsTorn.exists_file {d : Disk}
    (h : ShowsTorn perSegment d records) {record : Record} (hrecord : record ∈ records) :
    ∃ bytes, d.files.get (segmentOrdinal perSegment record.index) = some bytes := by
  obtain ⟨torn, -, hbytes⟩ := h.bytes _ (h.live record hrecord)
  cases hget : d.files.get (segmentOrdinal perSegment record.index) with
  | some bytes => exact ⟨bytes, rfl⟩
  | none =>
    rw [Disk.content, hget, Option.getD_none] at hbytes
    have hlength := length_le_encodeRecords
      (recordsOf perSegment (segmentOrdinal perSegment record.index) records)
    have hmine : record ∈ recordsOf perSegment (segmentOrdinal perSegment record.index) records :=
      mem_filter.mpr ⟨hrecord, by simp⟩
    have hpos := length_pos_of_mem hmine
    rw [(append_eq_nil_iff.mp hbytes.symm).1, length_nil] at hlength
    omega

/-- Opening a log finds its records and cuts what was torn. -/
theorem open_log {d : Disk} (h : ShowsTorn perSegment d records) :
    ∃ d', openLog perSegment d = .ok (Scan.empty.addAll records, d') ∧
      d'.floor = d.floor ∧ ∀ ordinal, d'.files.get ordinal =
        if d.floor / perSegment ≤ ordinal then
          (d.files.get ordinal).map fun _ =>
            encodeRecords (recordsOf perSegment ordinal records)
        else d.files.get ordinal := by
  have hsorted : Entries.Sorted (d.livePaths perSegment) :=
    d.files.sorted.sublist (dropWhile_sublist _)
  have hmem : ∀ path, path ∈ d.livePaths perSegment ↔
      d.files.get path.1 = some path.2 ∧ d.floor / perSegment ≤ path.1 := by
    intro path
    rw [SortedMap.get_eq_some_iff]
    exact mem_dropWhile_lt d.files.sorted
  obtain ⟨d', hrun, hfloor, hinside, houtside⟩ := scan_segment_paths hsorted
    (fun path hpath => ((hmem path).mp hpath).1)
    (fun path hpath => by
      obtain ⟨hfile, hlive⟩ := (hmem path).mp hpath
      obtain ⟨torn, htorn, hbytes⟩ := h.bytes path.1 hlive
      rw [Disk.content, hfile] at hbytes
      exact ⟨torn, htorn, hbytes⟩)
    (show Follows Scan.empty.last records from h.follows) h.fits
    (fun record hrecord => by
      obtain ⟨bytes, hbytes⟩ := h.exists_file hrecord
      exact ⟨(_, bytes), (hmem _).mpr ⟨hbytes, h.live record hrecord⟩, rfl⟩)
  have hkey : ∀ ordinal, ordinal ∈ (d.livePaths perSegment).map Prod.fst ↔
      (d.files.get ordinal).isSome ∧ d.floor / perSegment ≤ ordinal := by
    intro ordinal
    simp only [mem_map, hmem, Option.isSome_iff_exists]
    constructor
    · rintro ⟨path, ⟨hfile, hlive⟩, rfl⟩
      exact ⟨⟨path.2, hfile⟩, hlive⟩
    · rintro ⟨⟨bytes, hfile⟩, hlive⟩
      exact ⟨(ordinal, bytes), ⟨hfile, hlive⟩, rfl⟩
  refine ⟨d', hrun, hfloor, fun ordinal => ?_⟩
  by_cases hlive : d.floor / perSegment ≤ ordinal
  · rw [if_pos hlive]
    cases hfile : d.files.get ordinal with
    | none => rw [houtside ordinal (by simp [hkey, hfile]), hfile, Option.map_none]
    | some bytes => rw [hinside ordinal (by simp [hkey, hfile, hlive]), Option.map_some]
  · rw [if_neg hlive, houtside ordinal (by simp [hkey, hlive])]

end Opening

end FerricStore.SegmentLog
