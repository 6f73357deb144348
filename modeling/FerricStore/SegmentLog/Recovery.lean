import FerricStore.SegmentLog.Disk

/-!
# Killed appends

An append writes its records group by group, a group for each segment. A killed append leaves the
groups before the kill and a part of the bytes of the next one. The next open cuts that part at the
last whole record: the log then shows the old records and a first part of the batch.
-/

namespace FerricStore.SegmentLog

open List Disk

variable {perSegment : Nat}

/-! ## What an append writes -/

section

variable (d : Disk) (ordinal : Nat)

@[simp] theorem Disk.get_extend (bytes : Bytes) (other : Nat) :
    (d.extend ordinal bytes).files.get other =
      if other = ordinal then some (d.content ordinal ++ bytes) else d.files.get other :=
  SortedMap.get_put ..

/-- The bytes of a file after bytes were appended to one. -/
theorem Disk.content_extend (bytes : Bytes) (other : Nat) : (d.extend ordinal bytes).content other =
      d.content other ++ if other = ordinal then bytes else [] := by
  rw [content, get_extend]
  split
  case isTrue heq => rw [heq, Option.getD_some]
  case isFalse => rw [append_nil, content]

/-- Two appends to one file. -/
theorem Disk.extend_extend (bytes more : Bytes) :
    (d.extend ordinal bytes).extend ordinal more = d.extend ordinal (bytes ++ more) := by
  refine ext_get rfl fun other => ?_
  simp only [get_extend, content_extend, if_true, append_assoc]
  split <;> rfl

/-- The records of a batch, one after another. -/
def writeRecords (recordsPerSegment : Nat) (d : Disk) (records : List Record) : Disk :=
  records.foldl (fun d record =>
    d.extend (segmentOrdinal recordsPerSegment record.index) (encodeRecord record)) d

variable (records : List Record)

@[simp] theorem floor_writeRecords : (writeRecords perSegment d records).floor = d.floor := by
  induction records generalizing d with
  | nil => rfl
  | cons record records ih => exact ih _

theorem writeRecords_append (records more : List Record) :
    writeRecords perSegment d (records ++ more) =
      writeRecords perSegment (writeRecords perSegment d records) more :=
  foldl_append

/-- Every file gets its own records. -/
theorem content_writeRecords : (writeRecords perSegment d records).content ordinal =
      d.content ordinal ++ encodeRecords (recordsOf perSegment ordinal records) := by
  induction records generalizing d with
  | nil => exact (append_nil _).symm
  | cons record records ih =>
    show (writeRecords perSegment (d.extend _ _) records).content ordinal = _
    rw [ih, content_extend, append_assoc]
    simp only [recordsOf, filter_cons]
    by_cases heq : ordinal = segmentOrdinal perSegment record.index
    · rw [if_pos heq, if_pos (by simpa using heq.symm)]
      rfl
    · rw [if_neg heq, if_neg (by simpa using Ne.symm heq)]
      rfl

/-- A file exists when it did before or one of the records belongs to it. -/
theorem isSome_writeRecords :
    ((writeRecords perSegment d records).files.get ordinal).isSome ↔ (d.files.get ordinal).isSome ∨
        ∃ record ∈ records, segmentOrdinal perSegment record.index = ordinal := by
  induction records generalizing d with
  | nil => simp [writeRecords]
  | cons record records ih =>
    show ((writeRecords perSegment (d.extend _ _) records).files.get ordinal).isSome ↔ _
    rw [ih, get_extend]
    by_cases heq : ordinal = segmentOrdinal perSegment record.index
    · simp [heq]
    · simp [heq, Ne.symm heq]

end

variable {d d' : Disk}

/-- A disk is known from which files exist and what they hold. -/
theorem Disk.ext_content (hfloor : d.floor = d'.floor)
    (hexist : ∀ ordinal, (d.files.get ordinal).isSome ↔ (d'.files.get ordinal).isSome)
    (hcontent : ∀ ordinal, d.content ordinal = d'.content ordinal) : d = d' := by
  refine ext_get hfloor fun ordinal => ?_
  have hexist := hexist ordinal
  have hcontent := hcontent ordinal
  simp only [content] at hcontent
  cases hget : d.files.get ordinal <;> cases hget' : d'.files.get ordinal <;> simp_all

theorem encodeRecords_append (records more : List Record) :
    encodeRecords (records ++ more) = encodeRecords records ++ encodeRecords more :=
  flatMap_append

variable {ordinal : Nat} {records : List Record}

/-- The bytes of records of one segment are appended to its file. -/
theorem extend_encodeRecords
    (hordinal : ∀ record ∈ records, segmentOrdinal perSegment record.index = ordinal)
    (torn : Bytes) :
    d.extend ordinal (encodeRecords records ++ torn) =
      (writeRecords perSegment d records).extend ordinal torn := by
  induction records generalizing d with
  | nil => rfl
  | cons record records ih =>
    simp only [mem_cons, forall_eq_or_imp] at hordinal
    have hbytes : encodeRecords (record :: records) ++ torn =
        encodeRecord record ++ (encodeRecords records ++ torn) := by
      simp [encodeRecords]
    rw [hbytes, ← extend_extend, ih hordinal.2]
    show _ = (writeRecords perSegment (d.extend _ _) records).extend ordinal torn
    rw [hordinal.1]

/-- Nothing is appended to a file that exists. -/
theorem Disk.extend_nil (h : (d.files.get ordinal).isSome) : d.extend ordinal [] = d := by
  refine ext_content rfl (fun other => ?_) fun other => ?_
  · by_cases heq : other = ordinal
    · simp [heq, h]
    · simp [heq]
  · rw [content_extend]
    split <;> simp

/-- A group of records is not empty and of one segment. -/
def Group.Of (recordsPerSegment : Nat) (group : Group) : Prop :=
  group.2 ≠ [] ∧ ∀ record ∈ group.2, segmentOrdinal recordsPerSegment record.index = group.1

/-- Writing groups is writing their records. -/
theorem writeGroups_eq {groups : List Group} (hgroups : ∀ group ∈ groups, group.Of perSegment) :
    writeGroups d groups =
      writeRecords perSegment d (groups.flatMap fun group => group.2.reverse) := by
  induction groups generalizing d with
  | nil => rfl
  | cons group groups ih =>
    simp only [mem_cons, forall_eq_or_imp] at hgroups
    obtain ⟨⟨hnonempty, hordinal⟩, hrest⟩ := hgroups
    have hordinal' : ∀ record ∈ group.2.reverse,
        segmentOrdinal perSegment record.index = group.1 := fun record hrecord =>
      hordinal record (mem_reverse.mp hrecord)
    have hwritten : d.extend group.1 group.bytes = writeRecords perSegment d group.2.reverse := by
      have h := extend_encodeRecords (d := d) hordinal' []
      rw [append_nil] at h
      rw [Group.bytes, h, extend_nil]
      obtain ⟨record, hrecord⟩ := exists_mem_of_ne_nil group.2 hnonempty
      exact (isSome_writeRecords d _ _).mpr
        (.inr ⟨record, mem_reverse.mpr hrecord, hordinal record hrecord⟩)
    show writeGroups (d.extend group.1 group.bytes) groups = _
    rw [ih hrest, hwritten, flatMap_cons, writeRecords_append]

/-- The loop of `group_records` on records whose segments do not go back. -/
theorem groupRecordsLoop_ok {rest recordsRev : List Record} {acc : List Group}
    {last : Nat} (hfollows : Follows (some last) rest)
    (hlast : ordinal = segmentOrdinal perSegment last)
    (hcurrent : Group.Of perSegment (ordinal, recordsRev))
    (hacc : ∀ group ∈ acc, group.Of perSegment) :
    ∃ groups, groupRecordsLoop perSegment rest ordinal recordsRev acc = .ok groups ∧
      (∀ group ∈ groups, group.Of perSegment) ∧
      groups.flatMap (fun group => group.2.reverse) =
        acc.reverse.flatMap (fun group => group.2.reverse) ++ (recordsRev.reverse ++ rest) := by
  induction rest generalizing ordinal recordsRev acc last with
  | nil =>
    refine ⟨_, rfl, ?_, ?_⟩
    · exact fun group hgroup =>
        forall_mem_cons.mpr ⟨hcurrent, hacc⟩ group (mem_reverse.mp hgroup)
    · simp
  | cons record rest ih =>
    rw [groupRecordsLoop]
    have hindex := hfollows.1 last rfl
    split
    case isTrue heq =>
      have hcurrent' : Group.Of perSegment (ordinal, record :: recordsRev) :=
        ⟨cons_ne_nil _ _, by simpa [heq] using hcurrent.2⟩
      obtain ⟨groups, hrun, hof, hflat⟩ := ih hfollows.2 heq.symm hcurrent' hacc
      exact ⟨groups, hrun, hof, by simpa using hflat⟩
    case isFalse hne =>
      have hle : ordinal ≤ segmentOrdinal perSegment record.index := by
        rw [hlast]
        exact Nat.div_le_div_right (by omega)
      rw [if_pos (by omega)]
      have hcurrent' : Group.Of perSegment
          (segmentOrdinal perSegment record.index, [record]) := ⟨by simp, by simp⟩
      obtain ⟨groups, hrun, hof, hflat⟩ := ih hfollows.2 rfl hcurrent'
        (forall_mem_cons.mpr ⟨hcurrent, hacc⟩)
      exact ⟨groups, hrun, hof, by simpa using hflat⟩

variable {batch : List Record} {last : Option Nat}

/-- The groups of records that follow one on another. -/
theorem groupRecords_ok (perSegment : Nat) (h : Follows last batch) :
    ∃ groups, groupRecords perSegment batch = .ok groups ∧ (∀ group ∈ groups, group.Of perSegment) ∧
      groups.flatMap (fun group => group.2.reverse) = batch := by
  cases batch with
  | nil => exact ⟨[], rfl, by simp, rfl⟩
  | cons record rest =>
    have hcurrent : Group.Of perSegment
        (segmentOrdinal perSegment record.index, [record]) := ⟨by simp, by simp⟩
    obtain ⟨groups, hrun, hof, hflat⟩ := groupRecordsLoop_ok h.2 rfl hcurrent (forall_mem_nil _)
    exact ⟨groups, hrun, hof, by simpa using hflat⟩

/-- An append writes its records. -/
theorem appendRecords_eq (h : Follows last batch) :
    appendRecords perSegment d batch = .ok (writeRecords perSegment d batch) := by
  obtain ⟨groups, hrun, hof, hflat⟩ := groupRecords_ok perSegment h
  rw [appendRecords, hrun]
  show Except.ok (writeGroups d groups) = _
  rw [writeGroups_eq hof, hflat]

/-- A part of the bytes of records is some of the records and a part of the next one. -/
theorem take_encodeRecords (hfits : ∀ record ∈ records, record.Fits)
    (count : Nat) : ∃ whole ≤ records.length, ∃ torn, Torn torn ∧
      (encodeRecords records).take count = encodeRecords (records.take whole) ++ torn := by
  induction records generalizing count with
  | nil => exact ⟨0, le_rfl, [], torn_nil, by simp [encodeRecords]⟩
  | cons record records ih =>
    simp only [mem_cons, forall_eq_or_imp] at hfits
    by_cases hlt : count < (encodeRecord record).length
    · refine ⟨0, Nat.zero_le _, _, ⟨record, hfits.1, count, hlt, rfl⟩, ?_⟩
      rw [encodeRecords, flatMap_cons, take_append_of_le_length hlt.le]
      rfl
    · obtain ⟨whole, hwhole, torn, htorn, hbytes⟩ :=
        ih hfits.2 (count - (encodeRecord record).length)
      refine ⟨whole + 1, by simpa using hwhole, torn, htorn, ?_⟩
      rw [encodeRecords, flatMap_cons, take_append,
        take_of_length_le (by omega), ← encodeRecords, hbytes, take_succ_cons,
        encodeRecords, encodeRecords, flatMap_cons, append_assoc]

/-- A killed append has written some of the records and a part of the next one. -/
theorem KilledAppend.written (hfollows : Follows last batch) (hfits : ∀ record ∈ batch, record.Fits)
    (h : KilledAppend perSegment d batch d') :
    ∃ whole ≤ batch.length, d' = writeRecords perSegment d (batch.take whole) ∨
      ∃ torn, Torn torn ∧ ∃ record ∈ batch,
        d' = (writeRecords perSegment d (batch.take whole)).extend
          (segmentOrdinal perSegment record.index) torn := by
  cases h with
  | idle => exact ⟨0, Nat.zero_le _, .inl rfl⟩
  | @writing done rest group count hgroups =>
    obtain ⟨groups, hrun, hof, hflat⟩ := groupRecords_ok perSegment hfollows
    obtain rfl : done ++ group :: rest = groups := Except.ok.inj (hgroups.symm.trans hrun)
    have hdone : ∀ g ∈ done, g.Of perSegment := fun g hg => hof g (by simp [hg])
    obtain ⟨hnonempty, hordinal⟩ := hof group (by simp)
    rw [flatMap_append, flatMap_cons] at hflat
    have hgroupFits : ∀ record ∈ group.2.reverse, record.Fits := fun record hrecord =>
      hfits record (by
        rw [← hflat]
        exact mem_append_right _ (mem_append_left _ hrecord))
    obtain ⟨whole, hwhole, torn, htorn, hbytes⟩ := take_encodeRecords hgroupFits count
    have htake : batch.take ((done.flatMap fun group => group.2.reverse).length + whole) =
        (done.flatMap fun group => group.2.reverse) ++ group.2.reverse.take whole := by
      rw [← hflat, take_length_add_append, take_append_of_le_length hwhole]
    obtain ⟨record, hrecord⟩ := exists_mem_of_ne_nil group.2 hnonempty
    refine ⟨(done.flatMap fun group => group.2.reverse).length + whole, ?_,
      .inr ⟨torn, htorn, record, by simp [← hflat, hrecord], ?_⟩⟩
    · rw [← hflat]
      simp only [length_append]
      omega
    · rw [writeGroups_eq hdone, Group.bytes, hbytes, extend_encodeRecords
        (fun r hr => hordinal r (mem_reverse.mp (mem_of_mem_take hr))), htake,
        writeRecords_append, hordinal record hrecord]

/-! ## The log of a directory -/

/-- A directory that shows the records of a log and nothing torn. -/
structure Shows (recordsPerSegment : Nat) (d : Disk) (records : List Record) : Prop where
  follows : Follows none records
  fits : ∀ record ∈ records, record.Fits
  live : ∀ record ∈ records,
    d.floor / recordsPerSegment ≤ segmentOrdinal recordsPerSegment record.index
  bytes : ∀ ordinal, d.floor / recordsPerSegment ≤ ordinal →
    d.content ordinal = encodeRecords (recordsOf recordsPerSegment ordinal records)

/-- Nothing torn is a case of something torn. -/
theorem Shows.showsTorn (h : Shows perSegment d records) : ShowsTorn perSegment d records where
  follows := h.follows
  fits := h.fits
  live := h.live
  bytes ordinal hlive := ⟨[], torn_nil, by rw [h.bytes ordinal hlive, append_nil]⟩

/-- Opening a log that shows its records changes nothing. -/
theorem Shows.open_eq (h : Shows perSegment d records) :
    openLog perSegment d = .ok (Scan.empty.addAll records, d) := by
  obtain ⟨d', hopen, hfloor, hget⟩ := open_log h.showsTorn
  have heq : d' = d := ext_get hfloor fun ordinal => by
    rw [hget]
    split
    case isTrue hlive =>
      have hbytes := h.bytes ordinal hlive
      rw [content] at hbytes
      cases hfile : d.files.get ordinal with
      | none => rfl
      | some bytes => rw [hfile, Option.getD_some] at hbytes; rw [hbytes, Option.map_some]
    case isFalse => rfl
  rw [hopen, heq]

/-- Opening a log cuts exactly what was torn. -/
theorem ShowsTorn.open_shows (h : ShowsTorn perSegment d records) :
    ∃ d', openLog perSegment d = .ok (Scan.empty.addAll records, d') ∧
      Shows perSegment d' records ∧ d'.floor = d.floor ∧
      (∀ ordinal, (d'.files.get ordinal).isSome ↔ (d.files.get ordinal).isSome) ∧
      (∀ ordinal, d'.content ordinal <+: d.content ordinal) ∧
      ∀ ordinal, ordinal < d.floor / perSegment → d'.content ordinal = d.content ordinal := by
  obtain ⟨d', hopen, hfloor, hget⟩ := open_log h
  have hcontent : ∀ ordinal, d.floor / perSegment ≤ ordinal →
      d'.content ordinal = encodeRecords (recordsOf perSegment ordinal records) := by
    intro ordinal hlive
    rw [content, hget, if_pos hlive]
    cases hfile : d.files.get ordinal with
    | some bytes => rfl
    | none =>
      obtain ⟨torn, -, hbytes⟩ := h.bytes ordinal hlive
      rw [content, hfile, Option.getD_none] at hbytes
      exact (append_eq_nil_iff.mp hbytes.symm).1.symm
  refine ⟨d', hopen, ⟨h.follows, h.fits, ?_, ?_⟩, hfloor, fun ordinal => ?_, fun ordinal => ?_,
    fun ordinal hlt => by rw [content, hget, if_neg (by omega), content]⟩
  · rw [hfloor]
    exact h.live
  · rw [hfloor]
    exact hcontent
  · rw [hget]
    split <;> simp
  · by_cases hlive : d.floor / perSegment ≤ ordinal
    · obtain ⟨torn, -, hbytes⟩ := h.bytes ordinal hlive
      rw [hcontent ordinal hlive, hbytes]
      exact prefix_append _ _
    · rw [content, hget, if_neg hlive]
      exact prefix_refl _

/-- More records show after the old ones. -/
theorem Shows.write (h : Shows perSegment d records)
    (hfollows : Follows (lastIndex none records) batch) (hfits : ∀ record ∈ batch, record.Fits)
    (hlive : ∀ record ∈ batch, d.floor ≤ record.index) :
    Shows perSegment (writeRecords perSegment d batch) (records ++ batch) where
  follows := follows_append.mpr ⟨h.follows, hfollows⟩
  fits record hrecord := (mem_append.mp hrecord).elim (h.fits record) (hfits record)
  live record hrecord := by
    rw [floor_writeRecords]
    rcases mem_append.mp hrecord with hrecord | hrecord
    · exact h.live record hrecord
    · exact Nat.div_le_div_right (hlive record hrecord)
  bytes ordinal hordinal := by
    rw [floor_writeRecords] at hordinal
    rw [content_writeRecords, h.bytes ordinal hordinal, recordsOf_append, encodeRecords_append]

/-- Files below the floor are not written. -/
theorem content_writeRecords_of_lt
    (hlive : ∀ record ∈ batch, d.floor ≤ record.index) (hlt : ordinal < d.floor / perSegment) :
    (writeRecords perSegment d batch).content ordinal = d.content ordinal := by
  have hnone : recordsOf perSegment ordinal batch = [] := by
    refine recordsOf_eq_nil fun record hrecord => ?_
    have : d.floor / perSegment ≤ segmentOrdinal perSegment record.index :=
      Nat.div_le_div_right (hlive record hrecord)
    omega
  rw [content_writeRecords, hnone]
  exact append_nil _

section

variable (h : Shows perSegment d records) (hfollows : Follows (lastIndex none records) batch)
  (hfits : ∀ record ∈ batch, record.Fits) (hlive : ∀ record ∈ batch, d.floor ≤ record.index)
  (hkilled : KilledAppend perSegment d batch d')
include h hfollows hfits hlive hkilled

/-- A killed append shows some of its records and something torn. -/
theorem Shows.killed :
    ∃ whole ≤ batch.length, ShowsTorn perSegment d' (records ++ batch.take whole) ∧
      d'.floor = d.floor ∧
      (∀ ordinal, ordinal < d.floor / perSegment → d'.content ordinal = d.content ordinal) ∧
      ∀ ordinal, (d'.files.get ordinal).isSome ∨
          (∃ record ∈ batch.drop whole, segmentOrdinal perSegment record.index = ordinal) ↔
        (d.files.get ordinal).isSome ∨
          ∃ record ∈ batch, segmentOrdinal perSegment record.index = ordinal := by
  obtain ⟨whole, hwhole, hwritten⟩ := hkilled.written hfollows hfits
  have htaken : ∀ record ∈ batch.take whole, record ∈ batch := fun _ => mem_of_mem_take
  have hsplit := take_append_drop whole batch
  have hfollows' : Follows (lastIndex none records) (batch.take whole) := by
    rw [← hsplit, follows_append] at hfollows
    exact hfollows.1
  have hlive' : ∀ record ∈ batch.take whole, d.floor ≤ record.index := fun record hrecord =>
    hlive record (htaken record hrecord)
  have hshows := h.write hfollows' (fun record hrecord => hfits record (htaken record hrecord))
    hlive'
  have hexist : ∀ ordinal,
      ((writeRecords perSegment d (batch.take whole)).files.get ordinal).isSome ∨
        (∃ record ∈ batch.drop whole, segmentOrdinal perSegment record.index = ordinal) ↔
      (d.files.get ordinal).isSome ∨
        ∃ record ∈ batch, segmentOrdinal perSegment record.index = ordinal := by
    intro ordinal
    rw [isSome_writeRecords]
    nth_rewrite 3 [← hsplit]
    simp only [mem_append, or_and_right, exists_or, or_assoc]
  refine ⟨whole, hwhole, ?_⟩
  rcases hwritten with rfl | ⟨torn, htorn, record, hrecord, rfl⟩
  · exact ⟨hshows.showsTorn, floor_writeRecords _ _,
      fun ordinal hlt => content_writeRecords_of_lt hlive' hlt, hexist⟩
  · refine ⟨⟨hshows.follows, hshows.fits, hshows.live, fun ordinal hordinal => ?_⟩,
      floor_writeRecords _ _, fun ordinal hlt => ?_, fun ordinal => ?_⟩
    · rw [content_extend, hshows.bytes ordinal hordinal]
      split
      case isTrue => exact ⟨torn, htorn, rfl⟩
      case isFalse => exact ⟨[], torn_nil, rfl⟩
    · have hle : d.floor / perSegment ≤ segmentOrdinal perSegment record.index :=
        Nat.div_le_div_right (hlive record hrecord)
      rw [content_extend, if_neg (by omega), append_nil, content_writeRecords_of_lt hlive' hlt]
    · rw [get_extend]
      by_cases heq : ordinal = segmentOrdinal perSegment record.index
      · simp only [heq, if_true, Option.isSome_some, true_or, true_iff]
        exact .inr ⟨record, hrecord, rfl⟩
      · rw [if_neg heq]
        exact hexist ordinal

/-- After a killed append the next open cuts what was torn; the rest of the batch then completes the
append. -/
theorem Shows.killed_open : ∃ whole ≤ batch.length, ∃ opened, openLog perSegment d' =
        .ok (Scan.empty.addAll (records ++ batch.take whole), opened) ∧
      Shows perSegment opened (records ++ batch.take whole) ∧ opened.floor = d.floor ∧
      (∀ ordinal, opened.content ordinal <+: d'.content ordinal) ∧
      appendRecords perSegment opened (batch.drop whole) = appendRecords perSegment d batch := by
  obtain ⟨whole, hwhole, htorn, hfloor, hbelow, hexist⟩ := h.killed hfollows hfits hlive hkilled
  obtain ⟨opened, hopen, hshows, hfloor', hexist', hprefix, hbelow'⟩ := htorn.open_shows
  refine ⟨whole, hwhole, opened, hopen, hshows, hfloor'.trans hfloor, hprefix, ?_⟩
  have hsplit := take_append_drop whole batch
  have hrest : Follows (lastIndex (lastIndex none records) (batch.take whole))
      (batch.drop whole) := by
    rw [← hsplit, follows_append] at hfollows
    exact hfollows.2
  rw [appendRecords_eq hrest, appendRecords_eq hfollows]
  have hdropped : ∀ record ∈ batch.drop whole, record ∈ batch := fun _ => mem_of_mem_drop
  refine congrArg _ (ext_content ?_ (fun ordinal => ?_) fun ordinal => ?_)
  · rw [floor_writeRecords, floor_writeRecords, hfloor', hfloor]
  · rw [isSome_writeRecords, hexist', hexist, isSome_writeRecords]
  · by_cases hlt : ordinal < d.floor / perSegment
    · rw [content_writeRecords_of_lt hlive hlt, content_writeRecords_of_lt (fun record hrecord => by
          rw [hfloor', hfloor]
          exact hlive record (hdropped record hrecord)) (by rw [hfloor', hfloor]; exact hlt),
        hbelow' ordinal (by rw [hfloor]; exact hlt), hbelow ordinal hlt]
    · rw [content_writeRecords, content_writeRecords,
        hshows.bytes ordinal (by rw [hfloor', hfloor]; omega), h.bytes ordinal (by omega),
        ← encodeRecords_append, ← encodeRecords_append, ← recordsOf_append, ← recordsOf_append,
        append_assoc, hsplit]

end

end FerricStore.SegmentLog
