import FerricStore.SegmentLog.Recovery

/-!
# Truncation, trims and the logs that are reached

A truncation cuts the file of its index and then empties the later files, one after another. Trims
and whole truncations keep a log that the next open accepts, and so does a killed append to any log
that is reached by appends, truncations and trims. A killed truncation does so when the later files
hold no records; otherwise it leaves a gap between the cut file and the next one.
-/

namespace FerricStore.SegmentLog

open List Disk

variable {recordsPerSegment perSegment : Nat}

/-! ## Where a record is -/

variable {record : Record}

/-- The search for an index at a record. -/
theorem locate_record {index fuel offset : Nat} {rest : Bytes} (hfits : record.Fits) :
    locateOffset index (fuel + 1) offset (encodeRecord record ++ rest) =
      if record.index = index then .ok (some offset)
      else locateOffset index fuel (offset + (encodeRecord record).length) rest := by
  have hmax : record.payload.length ≤ maxRecordBytes := hfits
  rw [locateOffset, if_neg (by simp; omega)]
  simp only [slice_length_encodeRecord hfits.lt, slice_crc_encodeRecord, slice_payload_encodeRecord]
  rw [if_neg (by omega), if_neg (by simp), if_neg (by simp), peek_payload hfits]
  simp

/-- The search for an index finds the bytes of the records before it. -/
theorem locate_offset {index fuel offset : Nat} {before after : List Record}
    (hfits : ∀ r ∈ before ++ record :: after, r.Fits) (hindex : record.index = index)
    (hbefore : ∀ r ∈ before, r.index ≠ index) (hfuel : before.length < fuel) :
    locateOffset index fuel offset (encodeRecords (before ++ record :: after)) =
      .ok (some (offset + (encodeRecords before).length)) := by
  induction before generalizing fuel offset with
  | nil =>
    obtain ⟨fuel, rfl⟩ : ∃ f, fuel = f + 1 := ⟨fuel - 1, by simp at hfuel; omega⟩
    rw [nil_append, encodeRecords, flatMap_cons,
      locate_record (hfits record (by simp)), if_pos hindex]
    rfl
  | cons first before ih =>
    obtain ⟨fuel, rfl⟩ : ∃ f, fuel = f + 1 := ⟨fuel - 1, by simp at hfuel; omega⟩
    rw [cons_append, encodeRecords, flatMap_cons,
      locate_record (hfits first (by simp)), if_neg (hbefore first mem_cons_self),
      ← encodeRecords, ih (forall_mem_cons.mp hfits).2
        (forall_mem_cons.mp hbefore).2 (by simpa using hfuel)]
    simp [encodeRecords, Nat.add_assoc]

/-! ## Cutting files -/

/-- The bytes of a file after one was cut. -/
theorem Disk.content_cut (d : Disk) (ordinal size other : Nat) :
    (d.cut ordinal size).content other =
      if other = ordinal then (d.content ordinal).take size else d.content other := by
  rw [content, get_cut]
  split <;> rfl

/-- Files that are emptied. -/
theorem Disk.content_empty (d : Disk) (paths : List (Nat × Bytes)) (ordinal : Nat) :
    (d.runCuts (paths.map fun path => (path.1, 0))).content ordinal =
      if ∃ path ∈ paths, path.1 = ordinal then [] else d.content ordinal := by
  induction paths generalizing d with
  | nil => simp [runCuts]
  | cons path paths ih =>
    show ((d.cut path.1 0).runCuts _).content ordinal = _
    rw [ih, content_cut]
    by_cases heq : ordinal = path.1
    · simp [heq]
    · have hiff : (∃ p ∈ path :: paths, p.1 = ordinal) ↔ ∃ p ∈ paths, p.1 = ordinal := by
        simp [Ne.symm heq]
      rw [if_neg heq]
      exact if_congr hiff.symm rfl rfl

variable {d : Disk}

/-- Emptying files that are empty changes no contents. -/
theorem Disk.content_runCuts_of_empty {steps : List (Nat × Nat)}
    (h : ∀ step ∈ steps, d.content step.1 = []) (ordinal : Nat) :
    (d.runCuts steps).content ordinal = d.content ordinal := by
  induction steps generalizing d with
  | nil => rfl
  | cons step steps ih =>
    have hcut : ∀ other, (d.cut step.1 step.2).content other = d.content other := by
      intro other
      rw [content_cut]
      split
      case isTrue heq => rw [heq, h step mem_cons_self, take_nil]
      case isFalse => rfl
    show ((d.cut step.1 step.2).runCuts steps).content ordinal = _
    rw [ih fun other hother => by rw [hcut, h other (mem_cons_of_mem _ hother)], hcut]

/-- A truncation cuts the file of its index first and then empties the later ones. -/
theorem truncateSteps_eq {paths : List (Nat × Bytes)} (hsorted : Entries.Sorted paths)
    (offset : Nat) {ordinal : Nat} {bytes : Bytes} (hmem : (ordinal, bytes) ∈ paths) :
    ∃ later : List (Nat × Bytes), truncateSteps ordinal offset paths =
        (ordinal, offset) :: later.map (fun path => (path.1, 0)) ∧
      ∀ path, path ∈ later ↔ path ∈ paths ∧ ordinal < path.1 := by
  induction paths with
  | nil => cases hmem
  | cons first paths ih =>
    obtain ⟨hfirst, hrest⟩ := pairwise_cons.mp hsorted
    rw [truncateSteps]
    rcases mem_cons.mp hmem with rfl | hmem
    · rw [if_neg (by omega), if_pos rfl]
      refine ⟨paths, rfl, fun path => ⟨fun h => ⟨mem_cons_of_mem _ h, hfirst path h⟩, ?_⟩⟩
      rintro ⟨hpath, hlt⟩
      rcases mem_cons.mp hpath with rfl | hpath
      · exact absurd hlt (lt_irrefl _)
      · exact hpath
    · have hlt : first.1 < ordinal := hfirst _ hmem
      obtain ⟨later, hsteps, hlater⟩ := ih hrest hmem
      rw [if_pos hlt, hsteps]
      refine ⟨later, rfl, fun path => (hlater path).trans ?_⟩
      constructor
      · exact fun h => ⟨mem_cons_of_mem _ h.1, h.2⟩
      · rintro ⟨hpath, hpathLt⟩
        rcases mem_cons.mp hpath with rfl | hpath
        · omega
        · exact ⟨hpath, hpathLt⟩

/-- The floor stays in a truncation. -/
@[simp] theorem Disk.floor_runCuts (d : Disk) (steps : List (Nat × Nat)) :
    (d.runCuts steps).floor = d.floor := by
  induction steps generalizing d with
  | nil => rfl
  | cons step steps ih => exact ih _

/-! ## Parts of a log -/

variable {last : Option Nat} {records : List Record}

/-- Later records have larger indexes. -/
theorem Follows.pairwise (h : Follows last records) :
    records.Pairwise fun a b => a.index < b.index := by
  induction records generalizing last with
  | nil => exact List.Pairwise.nil
  | cons record records ih => exact pairwise_cons.mpr ⟨h.2.lt, ih h.2⟩

/-- The records before an index follow one on another. -/
theorem Follows.filter_lt (h : Follows last records)
    (index : Nat) : Follows last (records.filter fun record => record.index < index) := by
  induction records generalizing last with
  | nil => trivial
  | cons record records ih =>
    by_cases hlt : record.index < index
    · rw [filter_cons_of_pos (by simpa using hlt)]
      exact ⟨h.1, ih h.2⟩
    · have hnone : (record :: records).filter (fun record => record.index < index) = [] := by
        refine filter_eq_nil_iff.mpr fun later hlater => ?_
        simp only [decide_eq_true_eq]
        rcases mem_cons.mp hlater with rfl | hlater
        · exact hlt
        · have := h.2.lt later hlater
          omega
      rw [hnone]
      trivial

/-- The records from a segment on follow one on another. -/
theorem Follows.filter_ordinal (h : Follows last records) (bound : Nat) :
    Follows none (records.filter fun record =>
      bound ≤ segmentOrdinal perSegment record.index) := by
  induction records generalizing last with
  | nil => trivial
  | cons record records ih =>
    by_cases hle : bound ≤ segmentOrdinal perSegment record.index
    · have hall : (record :: records).filter (fun record =>
          bound ≤ segmentOrdinal perSegment record.index) = record :: records := by
        refine filter_eq_self.mpr fun later hlater => ?_
        simp only [decide_eq_true_eq]
        rcases mem_cons.mp hlater with rfl | hlater
        · exact hle
        · exact hle.trans (Nat.div_le_div_right (h.2.lt later hlater).le)
      rw [hall]
      exact ⟨nofun, h.2⟩
    · rw [filter_cons_of_neg (by simpa using hle)]
      exact ih h.2

section Target

variable {target : Nat} (htarget : segmentOrdinal perSegment record.index = target)
include htarget

/-- The records of the segment of an index, up to the record of the index. -/
theorem recordsOf_split (h : Follows last records) (hrecord : record ∈ records) :
    ∃ before after, recordsOf perSegment target records = before ++ record :: after ∧
      (∀ r ∈ before, r.index ≠ record.index) ∧
      recordsOf perSegment target (records.filter fun r => r.index < record.index) = before := by
  have hmine : record ∈ recordsOf perSegment target records :=
    mem_filter.mpr ⟨hrecord, decide_eq_true htarget⟩
  obtain ⟨before, after, hsplit⟩ := append_of_mem hmine
  have hsorted : (recordsOf perSegment target records).Pairwise fun a b => a.index < b.index :=
    h.pairwise.filter _
  rw [hsplit, pairwise_append, pairwise_cons] at hsorted
  obtain ⟨-, ⟨hafter, -⟩, hbefore⟩ := hsorted
  have hlt : ∀ r ∈ before, r.index < record.index := fun r hr =>
    hbefore r hr record mem_cons_self
  refine ⟨before, after, hsplit, fun r hr => (hlt r hr).ne, ?_⟩
  rw [recordsOf, filter_comm, ← recordsOf, hsplit, filter_append,
    filter_eq_self.mpr (by simpa using hlt), filter_eq_nil_iff.mpr, append_nil]
  intro r hr
  rcases mem_cons.mp hr with rfl | hr
  · simp
  · have := hafter r hr
    simp only [decide_eq_true_eq]
    omega

/-! ## Truncation -/

variable (h : Shows perSegment d records)
include h

/-- The file truncations of a truncation at an index of the log. -/
theorem Shows.truncateSteps (hrecord : record ∈ records) :
    ∃ (before after : List Record) (later : List (Nat × Bytes)),
      d.content target = encodeRecords (before ++ record :: after) ∧
      recordsOf perSegment target (records.filter fun r => r.index < record.index) = before ∧
      d.truncateStepsFrom perSegment record.index =
        (target, (encodeRecords before).length) :: later.map (fun path => (path.1, 0)) ∧
      ∀ path, path ∈ later ↔ path ∈ d.files.entries ∧ target < path.1 := by
  obtain ⟨before, after, hsplit, hbefore, hfilter⟩ := recordsOf_split htarget h.follows hrecord
  have hcontent := h.bytes target (htarget ▸ h.live record hrecord)
  obtain ⟨bytes, hbytes⟩ := h.showsTorn.exists_file hrecord
  rw [htarget] at hbytes
  have hfits : ∀ r ∈ before ++ record :: after, r.Fits := fun r hr => by
    rw [← hsplit] at hr
    exact h.fits r (mem_of_mem_filter hr)
  have hlength := length_le_encodeRecords (before ++ record :: after)
  have hlocate : locateOffset record.index ((d.content target).length + 1) 0 (d.content target) =
      .ok (some (encodeRecords before).length) := by
    rw [hcontent, hsplit, locate_offset hfits rfl hbefore (by
      rw [length_append, length_cons] at hlength
      omega), Nat.zero_add]
  obtain ⟨later, hsteps, hlater⟩ := truncateSteps_eq d.files.sorted
    (encodeRecords before).length (SortedMap.get_eq_some_iff.mp hbytes)
  refine ⟨before, after, later, by rw [hcontent, hsplit], hfilter, ?_, hlater⟩
  rw [truncateStepsFrom, htarget, hlocate]
  exact hsteps

/-- A cut file and empty later files show the records before an index. -/
theorem Shows.of_truncated {d' : Disk} (hfloor : d'.floor = d.floor)
    (hbelow : ∀ ordinal, ordinal < target → d'.content ordinal = d.content ordinal)
    (hat : d'.content target =
      encodeRecords (recordsOf perSegment target (records.filter fun r => r.index < record.index)))
    (habove : ∀ ordinal, target < ordinal → d'.content ordinal = []) :
    Shows perSegment d' (records.filter fun r => r.index < record.index) where
  follows := h.follows.filter_lt record.index
  fits r hr := h.fits r (mem_of_mem_filter hr)
  live r hr := hfloor ▸ h.live r (mem_of_mem_filter hr)
  bytes ordinal hordinal := by
    rw [hfloor] at hordinal
    rcases lt_trichotomy ordinal target with hlt | rfl | hgt
    · -- a smaller segment holds only smaller indexes
      rw [hbelow ordinal hlt, h.bytes ordinal hordinal, recordsOf_filter fun r _ heq => ?_]
      refine decide_eq_true (not_le.mp fun hle => ?_)
      have : segmentOrdinal perSegment record.index ≤ segmentOrdinal perSegment r.index :=
        Nat.div_le_div_right hle
      omega
    · exact hat
    · rw [habove ordinal hgt, recordsOf_eq_nil fun r hr => ?_]
      · rfl
      · have hlt : r.index < record.index := by simpa using (mem_filter.mp hr).2
        have : segmentOrdinal perSegment r.index ≤ segmentOrdinal perSegment record.index :=
          Nat.div_le_div_right hlt.le
        omega

/-- A whole truncation shows the records before its index. -/
theorem Shows.truncate (hrecord : record ∈ records) :
    Shows perSegment (d.truncate perSegment record.index)
      (records.filter fun r => r.index < record.index) := by
  obtain ⟨before, after, later, hcontent, hfilter, hsteps, hlater⟩ :=
    h.truncateSteps htarget hrecord
  have hrun : ∀ ordinal, (d.truncate perSegment record.index).content ordinal =
      if ∃ path ∈ later, path.1 = ordinal then [] else
        (d.cut target (encodeRecords before).length).content ordinal := by
    intro ordinal
    rw [Disk.truncate, hsteps]
    exact content_empty _ later ordinal
  have hnot : ∀ ordinal, ordinal ≤ target → ¬ ∃ path ∈ later, path.1 = ordinal := by
    rintro ordinal hle ⟨path, hpath, rfl⟩
    have := ((hlater path).mp hpath).2
    omega
  refine h.of_truncated htarget (floor_runCuts _ _) (fun ordinal hlt => ?_) ?_
    fun ordinal hgt => ?_
  · rw [hrun, if_neg (hnot ordinal hlt.le), content_cut, if_neg (by omega)]
  · rw [hrun, if_neg (hnot _ le_rfl), content_cut, if_pos rfl, hcontent, hfilter,
      encodeRecords_append, take_left]
  · rw [hrun]
    split
    case isTrue => rfl
    case isFalse hnone =>
      rw [content_cut, if_neg (by omega), content, SortedMap.get, Entries.get_eq_none,
        Option.getD_none]
      refine fun path hpath heq => hnone ⟨path, (hlater path).mpr ⟨hpath, ?_⟩, heq⟩
      omega

/-- A truncation that is killed between two file truncations, when the later segments hold no
records: the log is the old one, or the one up to the index. -/
theorem Shows.truncate_killed (hrecord : record ∈ records)
    (hlast : ∀ r ∈ records, segmentOrdinal perSegment r.index ≤ target) (count : Nat) :
    let d' := d.runCuts ((d.truncateStepsFrom perSegment record.index).take count)
    Shows perSegment d' records ∨
      Shows perSegment d' (records.filter fun r => r.index < record.index) := by
  obtain ⟨before, after, later, hcontent, hfilter, hsteps, hlater⟩ :=
    h.truncateSteps htarget hrecord
  have hempty : ∀ ordinal, target < ordinal → d.content ordinal = [] := by
    intro ordinal hgt
    rw [h.bytes ordinal ((h.live record hrecord).trans (htarget.trans_le hgt.le)),
      recordsOf_eq_nil fun r hr => ((hlast r hr).trans_lt hgt).ne]
    rfl
  cases count with
  | zero => exact .inl h
  | succ count =>
    rw [hsteps, take_succ_cons]
    right
    -- the first file truncation is the one that counts
    have hrun : ∀ ordinal, (d.runCuts ((target, (encodeRecords before).length) ::
        (later.map fun path => (path.1, 0)).take count)).content ordinal =
        (d.cut target (encodeRecords before).length).content ordinal := by
      intro ordinal
      refine content_runCuts_of_empty (d := d.cut target (encodeRecords before).length)
        (fun step hstep => ?_) ordinal
      obtain ⟨path, hpath, rfl⟩ := mem_map.mp (mem_of_mem_take hstep)
      have hlt := ((hlater path).mp hpath).2
      rw [content_cut, if_neg (by simp only; omega)]
      exact hempty path.1 hlt
    refine h.of_truncated htarget (floor_runCuts _ _) (fun ordinal hlt => ?_) ?_
      fun ordinal hgt => ?_
    · rw [hrun, content_cut, if_neg (by omega)]
    · rw [hrun, content_cut, if_pos rfl, hcontent, hfilter, encodeRecords_append, take_left]
    · rw [hrun, content_cut, if_neg (by omega), hempty ordinal hgt]

end Target

/-- The segment files from the floor on stay when those below it are deleted. -/
theorem get_deleteSegmentsBelowFloor (kept : Nat → Bool) {ordinal : Nat}
    (hlive : d.floor / perSegment ≤ ordinal) :
    (d.deleteSegmentsBelowFloor perSegment kept).files.get ordinal = d.files.get ordinal := by
  refine Option.ext fun bytes => ?_
  rw [SortedMap.get_eq_some_iff, SortedMap.get_eq_some_iff, deleteSegmentsBelowFloor]
  simp only [mem_filter, Bool.or_eq_true, decide_eq_true_eq]
  exact ⟨And.left, fun hmem => ⟨hmem, .inl hlive⟩⟩

/-- A trim shows the records from the segment of the floor on. -/
theorem Shows.trim (h : Shows perSegment d records) (index : Nat) (kept : Nat → Bool) :
    Shows perSegment (d.trim perSegment index kept) (records.filter fun record =>
      max d.floor index / perSegment ≤ segmentOrdinal perSegment record.index) where
  follows := h.follows.filter_ordinal _
  fits record hrecord := h.fits record (mem_of_mem_filter hrecord)
  live record hrecord := of_decide_eq_true (mem_filter.mp hrecord).2
  bytes ordinal hordinal := by
    have hfloor : max d.floor index / perSegment ≤ ordinal := hordinal
    have hget : (d.trim perSegment index kept).files.get ordinal = d.files.get ordinal :=
      get_deleteSegmentsBelowFloor kept hfloor
    have hold : d.floor / perSegment ≤ ordinal :=
      (Nat.div_le_div_right (le_max_left _ _)).trans hfloor
    rw [content, hget, recordsOf_filter fun _ _ heq => by simpa [heq] using hfloor]
    exact h.bytes ordinal hold

/-! ## The logs that are reached -/

/-- The directories that appends, truncations and trims reach, with the records that are on disk from
the segment of the floor on. An append numbers its records after the last one, a truncation keeps a
record that is not trimmed, and a trim stays within the log. -/
inductive Reached (recordsPerSegment : Nat) : Disk → List Record → Prop where
  | empty : Reached recordsPerSegment ⟨0, .empty⟩ []
  | append {d d' : Disk} {records batch : List Record} : Reached recordsPerSegment d records →
      Follows (lastIndex none records) batch →
      (records = [] → ∀ record ∈ batch, d.floor ≤ record.index) →
      (∀ record ∈ batch, record.Fits) → appendRecords recordsPerSegment d batch = .ok d' →
      Reached recordsPerSegment d' (records ++ batch)
  | truncate {d : Disk} {records : List Record} {record first : Record} :
      Reached recordsPerSegment d records → record ∈ records → first ∈ records →
      d.floor ≤ first.index → first.index < record.index →
      Reached recordsPerSegment (d.truncate recordsPerSegment record.index)
        (records.filter fun r => r.index < record.index)
  | trim {d : Disk} {records : List Record} {last : Record} (index : Nat) (kept : Nat → Bool) :
      Reached recordsPerSegment d records → last ∈ records → d.floor ≤ last.index →
      index ≤ last.index →
      Reached recordsPerSegment (d.trim recordsPerSegment index kept)
        (records.filter fun record =>
          max d.floor index / recordsPerSegment ≤ segmentOrdinal recordsPerSegment record.index)

/-- New records are not below the floor. -/
theorem floor_le_of_follows {records batch : List Record}
    (hvisible : records ≠ [] → ∃ record ∈ records, d.floor ≤ record.index)
    (hrecords : Follows none records) (hfollows : Follows (lastIndex none records) batch)
    (hstart : records = [] → ∀ record ∈ batch, d.floor ≤ record.index) :
    ∀ record ∈ batch, d.floor ≤ record.index := by
  by_cases hempty : records = []
  · exact hstart hempty
  · obtain ⟨old, hold, hfloor⟩ := hvisible hempty
    intro record hrecord
    have hsorted := (follows_append.mpr ⟨hrecords, hfollows⟩).pairwise
    have := (pairwise_append.mp hsorted).2.2 old hold record hrecord
    omega

/-- A reached directory shows its records, and one that is not trimmed if it has any. -/
theorem Reached.shows (h : Reached perSegment d records) :
    Shows perSegment d records ∧ (records ≠ [] → ∃ record ∈ records, d.floor ≤ record.index) := by
  induction h with
  | empty => exact ⟨⟨trivial, by simp, by simp, fun _ _ => rfl⟩, fun h => absurd rfl h⟩
  | @append d d' records batch hreached hfollows hstart hfits happend ih =>
    obtain ⟨hshows, hvisible⟩ := ih
    have hlive := floor_le_of_follows hvisible hshows.follows hfollows hstart
    obtain rfl : writeRecords perSegment d batch = d' :=
      Except.ok.inj ((appendRecords_eq hfollows).symm.trans happend)
    refine ⟨hshows.write hfollows hfits hlive, fun hne => ?_⟩
    rw [floor_writeRecords]
    by_cases hempty : records = []
    · obtain ⟨record, hrecord⟩ := exists_mem_of_ne_nil _ hne
      rw [hempty, nil_append] at hrecord ⊢
      exact ⟨record, hrecord, hlive record hrecord⟩
    · obtain ⟨record, hrecord, hfloor⟩ := hvisible hempty
      exact ⟨record, mem_append_left _ hrecord, hfloor⟩
  | @truncate d records record first hreached hrecord hfirst hfloor hlt ih =>
    refine ⟨ih.1.truncate rfl hrecord, fun _ => ⟨first, ?_, ?_⟩⟩
    · exact mem_filter.mpr ⟨hfirst, by simpa using hlt⟩
    · rw [Disk.truncate, Disk.floor_runCuts]
      exact hfloor
  | @trim d records last index kept hreached hlast hfloor hindex ih =>
    refine ⟨ih.1.trim index kept, fun _ => ⟨last, ?_, ?_⟩⟩
    · exact mem_filter.mpr ⟨hlast, decide_eq_true (Nat.div_le_div_right (max_le hfloor hindex))⟩
    · exact max_le hfloor hindex

/-- A killed append never damages a reached log: the next open succeeds and cuts only torn bytes, the
log then holds the old records and a first part of the batch, and appending the rest completes the
append, also across another open. -/
theorem killed_append_recovers {d d' : Disk} {records batch : List Record}
    (hreached : Reached recordsPerSegment d records)
    (hfollows : Follows (lastIndex none records) batch)
    (hstart : records = [] → ∀ record ∈ batch, d.floor ≤ record.index)
    (hfits : ∀ record ∈ batch, record.Fits) (hkilled : KilledAppend recordsPerSegment d batch d') :
    ∃ whole ≤ batch.length, ∃ opened full, openLog recordsPerSegment d' =
        .ok (Scan.empty.addAll (records ++ batch.take whole), opened) ∧
      Shows recordsPerSegment opened (records ++ batch.take whole) ∧ opened.floor = d.floor ∧
      (∀ ordinal, opened.content ordinal <+: d'.content ordinal) ∧
      appendRecords recordsPerSegment d batch = .ok full ∧
      appendRecords recordsPerSegment opened (batch.drop whole) = .ok full ∧
      openLog recordsPerSegment full = .ok (Scan.empty.addAll (records ++ batch), full) := by
  obtain ⟨hshows, hvisible⟩ := hreached.shows
  have hlive := floor_le_of_follows hvisible hshows.follows hfollows hstart
  obtain ⟨whole, hwhole, opened, hopen, hopened, hfloor, hprefix, hrest⟩ :=
    hshows.killed_open hfollows hfits hlive hkilled
  have hfull : appendRecords recordsPerSegment d batch =
      .ok (writeRecords recordsPerSegment d batch) := appendRecords_eq hfollows
  exact ⟨whole, hwhole, opened, _, hopen, hopened, hfloor, hprefix, hfull, hrest.trans hfull,
    (hshows.write hfollows hfits hlive).open_eq⟩

/-- A killed append of two records in two segments, with a part of the second one written. -/
theorem killed_append_recovers_two : ∃ whole ≤ 2, ∃ opened, openLog 1
      (((⟨0, .empty⟩ : Disk).extend 0 (encodeRecord ⟨0, [7]⟩)).extend 1
        ((encodeRecord ⟨1, [8]⟩).take 5)) =
      .ok (Scan.empty.addAll (([⟨0, [7]⟩, ⟨1, [8]⟩] : List Record).take whole), opened) := by
  have hkilled : KilledAppend 1 ⟨0, .empty⟩ [⟨0, [7]⟩, ⟨1, [8]⟩]
      (((⟨0, .empty⟩ : Disk).extend 0 (encodeRecord ⟨0, [7]⟩)).extend 1
        ((encodeRecord ⟨1, [8]⟩).take 5)) :=
    @KilledAppend.writing 1 _ _ [(0, [⟨0, [7]⟩])] [] (1, [⟨1, [8]⟩]) 5 rfl
  obtain ⟨whole, hwhole, opened, full, hopen, -⟩ := killed_append_recovers Reached.empty
    (by simp [Follows, lastIndex]) (by simp) (by decide) hkilled
  exact ⟨whole, hwhole, opened, hopen⟩

/-- Appends, truncations and trims leave a log whose live segments hold exactly its records, numbered
without a gap. Opening it finds these records and leaves the live segments and the floor; all that it
changes is that it deletes segment files below the floor that the trims could not delete. -/
theorem reached_log_opens {recordsPerSegment : Nat} {d : Disk} {records : List Record}
    (kept : Nat → Bool) (h : Reached recordsPerSegment d records) :
    openAndDelete recordsPerSegment d kept =
        .ok (Scan.empty.addAll records, d.deleteSegmentsBelowFloor recordsPerSegment kept) ∧
      (d.deleteSegmentsBelowFloor recordsPerSegment kept).floor = d.floor ∧
      Follows none records ∧
      ∀ ordinal, d.floor / recordsPerSegment ≤ ordinal →
        (d.deleteSegmentsBelowFloor recordsPerSegment kept).files.get ordinal =
            d.files.get ordinal ∧
          d.content ordinal = encodeRecords (recordsOf recordsPerSegment ordinal records) := by
  have hshows := h.shows.1
  refine ⟨?_, rfl, hshows.follows, fun ordinal hlive => ?_⟩
  · rw [openAndDelete, hshows.open_eq]
    rfl
  · exact ⟨get_deleteSegmentsBelowFloor kept hlive, hshows.bytes ordinal hlive⟩

/-- Four records in a segment each, the last one truncated, and a trim of the first that could not
delete its file. -/
def trimmedDisk : Disk :=
  ((writeRecords 1 ⟨0, .empty⟩ [⟨0, [7]⟩, ⟨1, [8]⟩, ⟨2, [9]⟩, ⟨3, [9]⟩]).truncate 1 3).trim 1 1
    fun _ => true

theorem reached_trimmedDisk : Reached 1 trimmedDisk [⟨1, [8]⟩, ⟨2, [9]⟩] := by
  have hfollows : Follows none [(⟨0, [7]⟩ : Record), ⟨1, [8]⟩, ⟨2, [9]⟩, ⟨3, [9]⟩] := by
    simp [Follows]
  have happended := (@Reached.empty 1).append hfollows (by simp) (by decide)
    (appendRecords_eq hfollows)
  have htruncated : Reached 1 ((writeRecords 1 ⟨0, .empty⟩
      [⟨0, [7]⟩, ⟨1, [8]⟩, ⟨2, [9]⟩, ⟨3, [9]⟩]).truncate 1 3) [⟨0, [7]⟩, ⟨1, [8]⟩, ⟨2, [9]⟩] :=
    @Reached.truncate 1 _ _ ⟨3, [9]⟩ ⟨0, [7]⟩ happended (by decide) (by decide) (by decide)
      (by decide)
  have hfloor : ((writeRecords 1 ⟨0, .empty⟩
      [⟨0, [7]⟩, ⟨1, [8]⟩, ⟨2, [9]⟩, ⟨3, [9]⟩]).truncate 1 3).floor = 0 := floor_runCuts _ _
  rw [trimmedDisk]
  generalize (writeRecords 1 ⟨0, .empty⟩ _).truncate 1 3 = d at htruncated hfloor ⊢
  have htrimmed := @Reached.trim 1 d _ ⟨2, [9]⟩ 1 (fun _ => true) htruncated (by decide)
    (hfloor.trans_le (Nat.zero_le _)) (by decide)
  rw [hfloor] at htrimmed
  exact htrimmed

/-- Opening it finds the two records between, and deletes the file of the trimmed one. -/
theorem reached_log_opens_one :
    (trimmedDisk.files.get 0).isSome ∧
      ∃ opened, openAndDelete 1 trimmedDisk (fun _ => false) = .ok (⟨some 1, some 2, 2⟩, opened) ∧
        opened.files.get 0 = none ∧ opened.files.get 1 = trimmedDisk.files.get 1 := by
  obtain ⟨hopen, -, -, hlive⟩ := reached_log_opens (fun _ => false) reached_trimmedDisk
  exact ⟨by decide +kernel, _, hopen, by decide +kernel, (hlive 1 (by decide +kernel)).1⟩

/-- A killed truncation never makes a log unreadable when the segments after the one of its index hold
no records: wherever it is killed, the next open succeeds and the log holds the old records up to
some last index, from the one before the index on. -/
theorem killed_truncate_recovers {d : Disk} {records : List Record} {record : Record}
    (h : Shows recordsPerSegment d records) (hrecord : record ∈ records) (hpos : 0 < record.index)
    (hlast : ∀ r ∈ records, segmentOrdinal recordsPerSegment r.index ≤
      segmentOrdinal recordsPerSegment record.index) (count : Nat) :
    ∃ last, record.index - 1 ≤ last ∧ (∃ r ∈ records, last ≤ r.index) ∧ openLog recordsPerSegment
          (d.runCuts ((d.truncateStepsFrom recordsPerSegment record.index).take count)) =
        .ok (Scan.empty.addAll (records.filter fun r => r.index ≤ last),
          d.runCuts ((d.truncateStepsFrom recordsPerSegment record.index).take count)) ∧
      Shows recordsPerSegment
        (d.runCuts ((d.truncateStepsFrom recordsPerSegment record.index).take count))
        (records.filter fun r => r.index ≤ last) := by
  rcases h.truncate_killed rfl hrecord hlast count with hold | hcut
  · -- nothing was cut yet
    obtain ⟨top, htop, hmax⟩ := Finset.exists_max_image records.toFinset Record.index
      ⟨record, mem_toFinset.mpr hrecord⟩
    have hall : records.filter (fun r => r.index ≤ top.index) = records :=
      filter_eq_self.mpr fun r hr => by simpa using hmax r (mem_toFinset.mpr hr)
    have hle := hmax record (mem_toFinset.mpr hrecord)
    refine ⟨top.index, by omega, ⟨top, mem_toFinset.mp htop, le_rfl⟩, ?_⟩
    rw [hall]
    exact ⟨hold.open_eq, hold⟩
  · have hsame : (records.filter fun r => r.index ≤ record.index - 1) =
        records.filter fun r => r.index < record.index := by
      refine filter_congr fun r _ => ?_
      rw [decide_eq_decide]
      omega
    refine ⟨record.index - 1, le_rfl, ⟨record, hrecord, by omega⟩, ?_⟩
    rw [hsame]
    exact ⟨hcut.open_eq, hcut⟩

/-- A truncation within the only segment, killed after its file truncation. -/
theorem killed_truncate_recovers_one : ∃ last, 0 ≤ last ∧
      Shows 4 ((writeRecords 4 ⟨0, .empty⟩ [⟨0, [7]⟩, ⟨1, [8]⟩]).runCuts
        (((writeRecords 4 ⟨0, .empty⟩ [⟨0, [7]⟩, ⟨1, [8]⟩]).truncateStepsFrom 4 1).take 1))
        (([⟨0, [7]⟩, ⟨1, [8]⟩] : List Record).filter fun r => r.index ≤ last) := by
  have hempty : Shows 4 ⟨0, .empty⟩ [] := (@Reached.empty 4).shows.1
  have hshows : Shows 4 (writeRecords 4 ⟨0, .empty⟩ [⟨0, [7]⟩, ⟨1, [8]⟩])
      ([] ++ [⟨0, [7]⟩, ⟨1, [8]⟩]) :=
    hempty.write (by simp [Follows, lastIndex]) (by decide) (by simp)
  obtain ⟨last, hle, -, -, h⟩ := @killed_truncate_recovers 4 _ _ ⟨1, [8]⟩ hshows (by simp)
    (by decide) (by decide) 1
  exact ⟨last, hle, h⟩

/-- Three segments of two records, truncated at index 1 and killed after the first file truncation:
the next open finds the gap between the indexes 0 and 2 and refuses the log. -/
theorem killed_truncate_leaves_gap : (openLog 2 ((writeRecords 2 ⟨0, .empty⟩
        [⟨0, []⟩, ⟨1, []⟩, ⟨2, []⟩, ⟨3, []⟩, ⟨4, []⟩, ⟨5, []⟩]).runCuts
      (((writeRecords 2 ⟨0, .empty⟩
        [⟨0, []⟩, ⟨1, []⟩, ⟨2, []⟩, ⟨3, []⟩, ⟨4, []⟩, ⟨5, []⟩]).truncateStepsFrom 2 1).take 1))).map
      Prod.fst = .error (.nonContiguousRecordIndex 0 2) := by
  decide +kernel

section

variable (hover : maxRecordBytes < record.payload.length) (hlt : record.payload.length < 256 ^ 4)
include hover hlt

/-- A scan refuses a record above the limit, whole as it is. -/
theorem scan_oversized {ordinal fuel offset : Nat} {scan : Scan} :
    scanSegment perSegment ordinal (fuel + 1) offset (encodeRecord record) scan =
      .error (.recordTooLarge offset record.payload.length) := by
  have hlen := slice_length_encodeRecord hlt []
  rw [append_nil] at hlen
  rw [scanSegment, if_neg (by rw [length_encodeRecord]; omega)]
  simp only [hlen]
  rw [if_pos hover]

/-- A log with one record above the limit is refused. -/
theorem open_oversized : openLog 1 ((⟨0, .empty⟩ : Disk).extend 0 (encodeRecord record)) =
      .error (.recordTooLarge 0 record.payload.length) := by
  have hpaths : livePaths 1 ((⟨0, .empty⟩ : Disk).extend 0 (encodeRecord record)) =
      [(0, encodeRecord record)] := by
    simp [livePaths, extend, content, SortedMap.put, SortedMap.empty, SortedMap.get,
      Entries.put, Entries.get]
  rw [openLog, hpaths, scanSegmentPaths, scan_oversized hover hlt]
  rfl

end

theorem length_payload_replicate (length : Nat) :
    (Record.mk 0 (replicate length 0)).payload.length = length + 5 := by
  simp [Record.payload, termInteger]

/-- An append of one record is killed at its end. -/
theorem killedAppend_one (record : Record) :
    KilledAppend 1 ⟨0, .empty⟩ [record] ((⟨0, .empty⟩ : Disk).extend
      (segmentOrdinal 1 record.index) (encodeRecord record)) := by
  have h := @KilledAppend.writing 1 ⟨0, .empty⟩ [record] [] []
    (segmentOrdinal 1 record.index, [record]) (encodeRecord record).length rfl
  have hbytes : Group.bytes (segmentOrdinal 1 record.index, [record]) = encodeRecord record := by
    simp [Group.bytes, encodeRecords]
  rw [hbytes, take_length] at h
  exact h

/-- An append of a record above 1 GiB that is killed at its end: the next open refuses the log. -/
theorem oversized_append_refused :
    ∃ d', KilledAppend 1 ⟨0, .empty⟩ [⟨0, replicate 1073741824 0⟩] d' ∧
      openLog 1 d' = .error (.recordTooLarge 0 1073741829) := by
  have hlength := length_payload_replicate 1073741824
  refine ⟨_, killedAppend_one _, ?_⟩
  have h := @open_oversized ⟨0, replicate 1073741824 0⟩
    (by rw [hlength, maxRecordBytes]; omega) (by rw [hlength]; omega)
  rw [hlength] at h
  exact h

end FerricStore.SegmentLog
