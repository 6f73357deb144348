import FerricStore.Lib.Bytes
import FerricStore.Lib.LastWriter

/-!
# Segments of a shard and the keydir

A segment is a log file with a number: records one after the other, each a put or a tombstone. The
keydir has a row for every live key, which says where its record is. It is recovered by scanning
the segments in the order of their numbers, or through hint files: a hint lists the puts of the
bytes that were in the segment when it was built, tombstones are read from the segment itself, and
what was appended since is replayed at the end.
-/

namespace FerricStore.Store

open LastWriter (newest replay)

structure LogRecord where
  key : Bytes
  value : Bytes
  expireAtMs : Nat
  tombstone : Bool
  deriving DecidableEq

def logHeaderSize : Nat := 26

def LogRecord.size (record : LogRecord) : Nat :=
  logHeaderSize + record.key.length + record.value.length

structure Segment where
  fid : Nat
  records : List LogRecord
  deriving DecidableEq

/-- A record with its segment and offset, as a scan reports it. -/
structure Placed where
  fid : Nat
  offset : Nat
  record : LogRecord
  deriving DecidableEq

def Placed.key (entry : Placed) : Bytes := entry.record.key

/-- The records of a segment from an offset on. -/
def placedFrom (fid : Nat) : Nat → List LogRecord → List Placed
  | _, [] => []
  | offset, record :: rest => ⟨fid, offset, record⟩ :: placedFrom fid (offset + record.size) rest

def totalSize (records : List LogRecord) : Nat := (records.map LogRecord.size).sum

/-- A scan of a whole segment. -/
def Segment.scan (segment : Segment) : List Placed := placedFrom segment.fid 0 segment.records

/-- The row of a key. -/
structure Row where
  fileId : Nat
  offset : Nat
  valueSize : Nat
  expireAtMs : Nat
  deriving DecidableEq

abbrev Keydir := Bytes → Option Row

/-- The row that a record gets. -/
def Placed.row (entry : Placed) : Option Row :=
  if entry.record.tombstone then none
  else some ⟨entry.fid, entry.offset, entry.record.value.length, entry.record.expireAtMs⟩

variable (keydir : Keydir)

def recoverRecord (entry : Placed) : Keydir :=
  Function.update keydir entry.key entry.row

variable (entries : List Placed)

def recoverLogRecords : Keydir :=
  entries.foldl recoverRecord keydir

/-- Recovery without hints: every segment is scanned. -/
def recoverFromLogs (segments : List Segment) : Keydir :=
  segments.foldl (fun keydir segment => recoverLogRecords keydir segment.scan) fun _ => none

/-! ## Hints -/

/-- A segment, with the number of records that its hint covers if it has one. -/
structure HintedSegment extends Segment where
  covered : Option Nat

variable (segment : HintedSegment)

/-- The entries of a hint: all puts of the covered records. -/
def HintedSegment.hint (covered : Nat) : List Placed :=
  (placedFrom segment.fid 0 (segment.records.take covered)).filter fun entry =>
    !entry.record.tombstone

/-- What was appended after the hint was built. -/
def HintedSegment.tail (covered : Nat) : List Placed :=
  placedFrom segment.fid (totalSize (segment.records.take covered)) (segment.records.drop covered)

/-- A tombstone removes a row that lies before it. -/
def recoverHintTombstone (entry : Placed) : Keydir :=
  match keydir entry.key with
  | some row =>
    if row.fileId < entry.fid ∨ (row.fileId = entry.fid ∧ row.offset < entry.offset) then
      Function.update keydir entry.key none
    else keydir
  | none => keydir

def recoverTombstones : Keydir :=
  (entries.filter fun entry => entry.record.tombstone).foldl recoverHintTombstone keydir

/-- A segment is loaded from its hint, with all its tombstones, or scanned. -/
def recoverSegment : Keydir :=
  match segment.covered with
  | some covered =>
    recoverTombstones (recoverLogRecords keydir (segment.hint covered)) segment.scan
  | none => recoverLogRecords keydir segment.scan

def replayHintedTail : Keydir :=
  match segment.covered with
  | some covered => recoverLogRecords keydir (segment.tail covered)
  | none => keydir

/-- Recovery through hints: the tails are replayed after all segments. -/
def recoverFromHints (segments : List HintedSegment) : Keydir :=
  segments.foldl replayHintedTail (segments.foldl recoverSegment fun _ => none)

/-! ## Scans -/

theorem placedFrom_append (fid offset : Nat) (records others : List LogRecord) :
    placedFrom fid offset (records ++ others) =
      placedFrom fid offset records ++ placedFrom fid (offset + totalSize records) others := by
  induction records generalizing offset with
  | nil => rfl
  | cons record records ih =>
    rw [List.cons_append, placedFrom, placedFrom, ih, List.cons_append]
    have hsize : offset + record.size + totalSize records =
        offset + totalSize (record :: records) := by
      rw [totalSize, totalSize, List.map_cons, List.sum_cons]
      omega
    rw [hsize]

/-- Entries of a scan are in the segment, and from the starting offset on. -/
theorem mem_placedFrom {fid offset : Nat} {records : List LogRecord} {entry : Placed}
    (h : entry ∈ placedFrom fid offset records) : entry.fid = fid ∧ offset ≤ entry.offset := by
  induction records generalizing offset with
  | nil => cases h
  | cons record records ih =>
    rcases List.mem_cons.mp h with rfl | hrest
    · exact ⟨rfl, le_refl _⟩
    · obtain ⟨hfid, hoffset⟩ := ih hrest
      exact ⟨hfid, by omega⟩

/-- The offsets of a scan increase. -/
theorem placedFrom_increasing (fid offset : Nat) (records : List LogRecord) :
    (placedFrom fid offset records).Pairwise fun a b => a.offset < b.offset := by
  induction records generalizing offset with
  | nil => exact List.Pairwise.nil
  | cons record records ih =>
    refine List.Pairwise.cons (fun entry hentry => ?_) (ih _)
    have hle := (mem_placedFrom hentry).2
    show offset < entry.offset
    rw [LogRecord.size, logHeaderSize] at hle
    omega

theorem recoverLogRecords_eq :
    recoverLogRecords keydir entries = replay Placed.key Placed.row keydir entries := rfl

/-- A loop over scans is one replay of all their entries. -/
theorem foldl_recoverLogRecords {σ : Type} (scan : σ → List Placed) (segments : List σ)
    (keydir : Keydir) :
    segments.foldl (fun keydir segment => recoverLogRecords keydir (scan segment)) keydir =
      recoverLogRecords keydir (segments.flatMap scan) := by
  induction segments generalizing keydir with
  | nil => rfl
  | cons segment segments ih =>
    rw [List.foldl_cons, ih, List.flatMap_cons, recoverLogRecords, recoverLogRecords,
      recoverLogRecords, List.foldl_append]

/-- The row of a key after a recovery from the logs is that of its newest record. -/
theorem recoverFromLogs_apply (segments : List Segment) (key : Bytes) :
    recoverFromLogs segments key =
      (newest Placed.key key (segments.flatMap Segment.scan)).bind Placed.row := by
  rw [recoverFromLogs, foldl_recoverLogRecords Segment.scan, recoverLogRecords_eq,
    LastWriter.replay_apply]
  cases newest Placed.key key (segments.flatMap Segment.scan) <;> rfl

end FerricStore.Store
