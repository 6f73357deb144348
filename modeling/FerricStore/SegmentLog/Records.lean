import FerricStore.Lib.Bytes
import FerricStore.Lib.Result

/-!
# Records of a segment file

A record is written as a header, with the length and the checksum of its payload, and the payload:
the external term of the pair of its index and its entry. Recovery reads the index from the first
bytes of the payload without decoding the entry, so an entry is kept as its encoded bytes here. A
scan of a segment goes from record to record and stops without an error only where the file ends
within a header or before the length that a header announces.
-/

namespace FerricStore.SegmentLog

open List

/-- A record: its index and its encoded entry. -/
structure Record where
  index : Nat
  entry : Bytes
  deriving DecidableEq, Repr

/-- `?RECORD_HEADER_SIZE` -/
def recordHeaderSize : Nat := 8

/-- `?MAX_RECORD_BYTES` -/
def maxRecordBytes : Nat := 1073741824

/-- The digits of a number in base 256. -/
def digits (n : Nat) : Nat := Nat.log 256 n + 1

/-- A nonnegative integer in the external term format. -/
def termInteger (n : Nat) : Bytes :=
  if n < 256 then [97, UInt8.ofNat n]
  else if n < 2 ^ 31 then 98 :: beBytes 4 n
  else if digits n < 256 then 110 :: UInt8.ofNat (digits n) :: 0 :: leBytes (digits n) n
  else 111 :: (beBytes 4 (digits n) ++ 0 :: leBytes (digits n) n)

namespace Record

/-- `encode_external_term` of the pair of index and entry. -/
def payload (record : Record) : Bytes :=
  131 :: 104 :: 2 :: (termInteger record.index ++ record.entry)

/-- The payload is not longer than recovery accepts. -/
def Fits (record : Record) : Prop := record.payload.length ≤ maxRecordBytes

instance (record : Record) : Decidable record.Fits := inferInstanceAs (Decidable (_ ≤ _))

end Record

/-- `encode_record` -/
def encodeRecord (record : Record) : Bytes :=
  beBytes 4 record.payload.length ++ (beBytes 4 (crc32 record.payload) ++ record.payload)

/-- Why a scan refuses a segment. -/
inductive ScanError where
  | recordTooLarge (offset len : Nat)
  | crcMismatch (offset : Nat)
  | badRecordEnvelope
  | badRecordIndex
  | segmentOrdinalMismatch (index expected actual : Nat)
  | duplicateRecordIndex (index : Nat)
  | nonContiguousRecordIndex (previous index : Nat)
  deriving DecidableEq, Repr

/-- `peek_non_neg_integer` -/
def peekNonNegInteger : Bytes → Except ScanError Nat
  | 97 :: value :: _ => .ok value.toNat
  | 98 :: rest =>
    if 4 ≤ rest.length ∧ beNat (rest.take 4) < 2 ^ 31 then .ok (beNat (rest.take 4))
    else .error .badRecordIndex
  | 110 :: size :: 0 :: rest =>
    if size.toNat ≤ rest.length then .ok (leNat (rest.take size.toNat))
    else .error .badRecordIndex
  | 111 :: rest =>
    if 5 ≤ rest.length ∧ slice rest 4 1 = [0] ∧ beNat (rest.take 4) ≤ rest.length - 5 then
      .ok (leNat (slice rest 5 (beNat (rest.take 4))))
    else .error .badRecordIndex
  | _ => .error .badRecordIndex

/-- `peek_record_index` -/
def peekRecordIndex : Bytes → Except ScanError Nat
  | 131 :: 104 :: 2 :: rest => peekNonNegInteger rest
  | 131 :: 105 :: 0 :: 0 :: 0 :: 2 :: rest => peekNonNegInteger rest
  | _ => .error .badRecordEnvelope

/-- What a scan has found so far: the first and the last index and the number of records. -/
structure Scan where
  first : Option Nat
  last : Option Nat
  count : Nat
  deriving DecidableEq, Repr

namespace Scan

/-- Nothing is scanned. -/
def empty : Scan := ⟨none, none, 0⟩

/-- One more record. -/
def add (scan : Scan) (index : Nat) : Scan :=
  ⟨scan.first.or (some index), some index, scan.count + 1⟩

end Scan

/-- `segment_ordinal` -/
def segmentOrdinal (recordsPerSegment index : Nat) : Nat := index / recordsPerSegment

/-- `validate_record_segment_ordinal` -/
def validateRecordSegmentOrdinal (recordsPerSegment expected index : Nat) : Except ScanError Unit :=
  if segmentOrdinal recordsPerSegment index = expected then .ok ()
  else .error (.segmentOrdinalMismatch index expected (segmentOrdinal recordsPerSegment index))

/-- `recovered_index_contiguous`, the check of a Raft log. -/
def recoveredIndexContiguous : Option Nat → Nat → Except ScanError Unit
  | none, _ => .ok ()
  | some previous, index =>
    if index = previous + 1 then .ok ()
    else if index = previous then .error (.duplicateRecordIndex index)
    else .error (.nonContiguousRecordIndex previous index)

/-- `scan_raft_segment_fd` from an offset on, with the bytes that are left of the file: what was found
and the valid bytes. The fuel bounds the records. -/
def scanSegment (recordsPerSegment ordinal : Nat) :
    Nat → Nat → Bytes → Scan → Except ScanError (Scan × Nat)
  | 0, offset, _, scan => .ok (scan, offset)
  | fuel + 1, offset, rest, scan =>
    if rest.length < recordHeaderSize then .ok (scan, offset)
    else
      let len := beNat (slice rest 0 4)
      let crc := beNat (slice rest 4 4)
      if maxRecordBytes < len then .error (.recordTooLarge offset len)
      else if rest.length < recordHeaderSize + len then .ok (scan, offset)
      else
        let payload := slice rest recordHeaderSize len
        if crc32 payload ≠ crc then .error (.crcMismatch offset)
        else do
          let index ← peekRecordIndex payload
          validateRecordSegmentOrdinal recordsPerSegment ordinal index
          recoveredIndexContiguous scan.last index
          scanSegment recordsPerSegment ordinal fuel (offset + (recordHeaderSize + len))
            (rest.drop (recordHeaderSize + len)) (scan.add index)

section Encoding

@[simp] theorem length_encodeRecord (record : Record) :
    (encodeRecord record).length = recordHeaderSize + record.payload.length := by
  simp [encodeRecord, recordHeaderSize]
  omega

theorem lt_pow_digits (n : Nat) : n < 256 ^ digits n := Nat.lt_pow_succ_log_self (by omega) n

/-- The digits are part of the payload, so a payload of at most 1 GiB counts them in four bytes. -/
theorem digits_le_length (n : Nat) : digits n ≤ (termInteger n).length + 3 := by
  unfold termInteger
  split
  · have : digits n ≤ 1 := by
      unfold digits
      rw [Nat.log_of_lt (by assumption)]
    simp
    omega
  · split
    · have : digits n ≤ 4 := by
        have := Nat.log_lt_of_lt_pow (b := 256) (x := 4) (by omega) (show n < 256 ^ 4 by omega)
        unfold digits
        omega
      simp
      omega
    · split <;> simp <;> omega

/-- The index of an integer term followed by anything. -/
theorem peek_termInteger {n : Nat} (h : digits n < 256 ^ 4) (rest : Bytes) :
    peekNonNegInteger (termInteger n ++ rest) = .ok n := by
  unfold termInteger
  split
  case isTrue hsmall => simp [peekNonNegInteger, Nat.mod_eq_of_lt hsmall]
  case isFalse =>
    split
    case isTrue hsigned =>
      have htake : (beBytes 4 n ++ rest).take 4 = beBytes 4 n := by simp
      have hvalue : beNat (beBytes 4 n) = n := beNat_beBytes 4 (by omega)
      simp [peekNonNegInteger, htake, hvalue]
      omega
    case isFalse =>
      split
      case isTrue hdigits =>
        have hsize : (UInt8.ofNat (digits n)).toNat = digits n := by
          simpa using Nat.mod_eq_of_lt hdigits
        have htake : (leBytes (digits n) n ++ rest).take (digits n) = leBytes (digits n) n := by
          simp
        simp [peekNonNegInteger, hsize, htake, leNat_leBytes _ (lt_pow_digits n)]
      case isFalse =>
        have htake : (beBytes 4 (digits n) ++ 0 :: (leBytes (digits n) n ++ rest)).take 4 =
            beBytes 4 (digits n) := by simp
        have hsize : beNat (beBytes 4 (digits n)) = digits n := beNat_beBytes 4 h
        have hzero : slice (beBytes 4 (digits n) ++ ([0] ++ (leBytes (digits n) n ++ rest))) 4 1 =
            [0] := slice_middle (by simp) rfl
        have hdigits : slice ((beBytes 4 (digits n) ++ [0]) ++ (leBytes (digits n) n ++ rest)) 5
            (digits n) = leBytes (digits n) n := slice_middle (by simp) (by simp)
        rw [append_assoc] at hdigits
        simp only [cons_append, nil_append] at hzero hdigits
        simp [peekNonNegInteger, htake, hsize, hzero, hdigits, leNat_leBytes _ (lt_pow_digits n)]
        omega

/-- The index of a payload. -/
theorem peek_payload {record : Record} (hfits : record.Fits) :
    peekRecordIndex record.payload = .ok record.index := by
  have hdigits := digits_le_length record.index
  simp only [Record.Fits, Record.payload, maxRecordBytes, length_cons, length_append] at hfits
  exact peek_termInteger (by omega) record.entry

end Encoding

/-- Indexes that follow one on another, after the last one if there is one. -/
def Follows : Option Nat → List Record → Prop
  | _, [] => True
  | last, record :: rest =>
    (∀ previous, last = some previous → record.index = previous + 1) ∧
      Follows (some record.index) rest

/-- What a scan has found after a list of records. -/
def Scan.addAll (scan : Scan) (records : List Record) : Scan :=
  records.foldl (fun scan record => scan.add record.index) scan

/-- The bytes of a list of records. -/
def encodeRecords (records : List Record) : Bytes := records.flatMap encodeRecord

/-- The bytes that a write of a record leaves when it is cut short. -/
def Torn (bytes : Bytes) : Prop :=
  ∃ record : Record, record.Fits ∧ ∃ count < (encodeRecord record).length,
    bytes = (encodeRecord record).take count

theorem torn_nil : Torn [] := ⟨⟨0, []⟩, by decide, 0, by simp [recordHeaderSize], rfl⟩

section Scanning

variable {perSegment ordinal fuel offset : Nat} {scan : Scan} {record : Record}

theorem slice_length_encodeRecord (h : record.payload.length < 256 ^ 4)
    (rest : Bytes) : beNat (slice (encodeRecord record ++ rest) 0 4) = record.payload.length := by
  exact beNat_beBytes 4 h

theorem Record.Fits.lt (h : record.Fits) : record.payload.length < 256 ^ 4 := by
  have : record.payload.length ≤ 1073741824 := h
  omega

section

variable (record : Record) (rest : Bytes)

theorem slice_crc_encodeRecord :
    beNat (slice (encodeRecord record ++ rest) 4 4) = crc32 record.payload := by
  exact beNat_beBytes 4 (crc32_lt _)

/-- The payload after a header. -/
theorem slice_payload_encodeRecord :
    slice (encodeRecord record ++ rest) recordHeaderSize record.payload.length = record.payload := by
  have h : encodeRecord record ++ rest =
      (beBytes 4 record.payload.length ++ beBytes 4 (crc32 record.payload)) ++
        (record.payload ++ rest) := by simp [encodeRecord]
  rw [h]
  exact slice_middle (by simp [recordHeaderSize]) rfl

/-- What follows a record. -/
theorem drop_encodeRecord :
    (encodeRecord record ++ rest).drop (recordHeaderSize + record.payload.length) = rest := by
  rw [← length_encodeRecord, drop_left]

end

variable {rest : Bytes}

/-- A scan goes over a record that belongs to the segment and follows the last one. -/
theorem scan_record (hfits : record.Fits)
    (hordinal : segmentOrdinal perSegment record.index = ordinal)
    (hfollows : ∀ previous, scan.last = some previous → record.index = previous + 1) :
    scanSegment perSegment ordinal (fuel + 1) offset (encodeRecord record ++ rest) scan =
      scanSegment perSegment ordinal fuel (offset + (encodeRecord record).length) rest
        (scan.add record.index) := by
  have hmax : record.payload.length ≤ maxRecordBytes := hfits
  have hcontiguous : recoveredIndexContiguous scan.last record.index = .ok () := by
    cases hlast : scan.last with
    | none => rfl
    | some previous => rw [recoveredIndexContiguous, if_pos (hfollows previous hlast)]
  have hvalidate : validateRecordSegmentOrdinal perSegment ordinal record.index = .ok () :=
    if_pos hordinal
  rw [scanSegment, if_neg (by simp; omega)]
  simp only [slice_length_encodeRecord hfits.lt, slice_crc_encodeRecord, slice_payload_encodeRecord]
  rw [if_neg (by omega), if_neg (by simp), if_neg (by simp), peek_payload hfits]
  simp [hvalidate, hcontiguous]

/-- A scan ends without an error at the bytes of a record that was cut short. -/
theorem scan_torn (h : Torn rest) :
    scanSegment perSegment ordinal fuel offset rest scan = .ok (scan, offset) := by
  obtain ⟨record, hfits, count, hcount, rfl⟩ := h
  cases fuel with
  | zero => rfl
  | succ fuel =>
    rw [length_encodeRecord] at hcount
    have hlen : ((encodeRecord record).take count).length = count := by
      rw [length_take, length_encodeRecord]
      omega
    rw [scanSegment, hlen]
    split
    case isTrue => rfl
    case isFalse hheader =>
      -- the header is whole, so the length that it announces is the length of the payload
      have hannounced : beNat (slice ((encodeRecord record).take count) 0 4) =
          record.payload.length := by
        rw [slice_take (by simp only [recordHeaderSize] at hheader; omega)]
        simpa using slice_length_encodeRecord hfits.lt []
      have hmax : record.payload.length ≤ maxRecordBytes := hfits
      simp only [hannounced]
      rw [if_neg (by omega), if_pos hcount]

/-- A scan goes over the records of its segment and ends at a record that was cut short. -/
theorem scan_records {records : List Record} (hrest : Torn rest)
    (hfits : ∀ record ∈ records, record.Fits)
    (hordinal : ∀ record ∈ records, segmentOrdinal perSegment record.index = ordinal)
    (hfollows : Follows scan.last records) (hfuel : records.length ≤ fuel) :
    scanSegment perSegment ordinal fuel offset (encodeRecords records ++ rest) scan =
      .ok (scan.addAll records, offset + (encodeRecords records).length) := by
  induction records generalizing fuel offset scan with
  | nil => exact scan_torn hrest
  | cons record records ih =>
    obtain ⟨fuel, rfl⟩ : ∃ f, fuel = f + 1 := ⟨fuel - 1, by simp only [length_cons] at hfuel; omega⟩
    simp only [mem_cons, forall_eq_or_imp] at hfits hordinal
    rw [encodeRecords, flatMap_cons, append_assoc, scan_record hfits.1 hordinal.1 hfollows.1]
    rw [← encodeRecords, ih hfits.2 hordinal.2 hfollows.2 (by simpa using hfuel)]
    simp [Scan.addAll, Nat.add_assoc]

end Scanning

end FerricStore.SegmentLog
