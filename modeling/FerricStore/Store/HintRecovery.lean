import FerricStore.Store.Segment

/-!
# Recovery through hints against recovery from the logs

Loading a segment from its hint and its tombstones is as good as scanning it for a key that does
not occur in the segment's tail (`recoverSegment_apply`). The tails are replayed after all segments
and without looking at the rows that are there, so a tail record wins over records of the key in
later segments: the two recoveries give a key the same row exactly when the newest record of the
key in the tails is its newest record of all, or both are tombstones
(`recoverFromHints_eq_iff`).
-/

namespace FerricStore.Store

open LastWriter Option List HintedSegment

open LastWriter (newest replay)

/-- The order of records in the logs. -/
def Placed.Before (a b : Placed) : Prop := a.fid < b.fid ∨ (a.fid = b.fid ∧ a.offset < b.offset)

/-- The place of a row is before a record. -/
def Row.Before (row : Row) (entry : Placed) : Prop :=
  row.fileId < entry.fid ∨ (row.fileId = entry.fid ∧ row.offset < entry.offset)

instance (row : Row) (entry : Placed) : Decidable (row.Before entry) := by
  unfold Row.Before
  infer_instance

/-- All records in the order of the logs. -/
def stream (segments : List Segment) : List Placed := segments.flatMap Segment.scan

variable (segment : HintedSegment)

/-- The records of a segment that its hint does not cover. -/
def HintedSegment.uncovered : List Placed :=
  segment.covered.elim [] segment.tail

variable (segments : List HintedSegment)

/-- All records that are replayed at the end. -/
def tails : List Placed :=
  segments.flatMap uncovered

/-- A scan is the covered records and the tail. -/
theorem scan_eq_covered_append_tail (covered : Nat) :
    segment.scan = placedFrom segment.fid 0 (segment.records.take covered) ++
      segment.tail covered := by
  conv_lhs => rw [Segment.scan, ← take_append_drop covered segment.records]
  rw [placedFrom_append, Nat.zero_add]
  rfl

theorem uncovered_sublist : segment.uncovered.Sublist segment.scan := by
  rw [uncovered]
  cases segment.covered with
  | none => exact nil_sublist _
  | some covered =>
    rw [scan_eq_covered_append_tail segment covered]
    exact sublist_append_right _ _

/-- Records are in order when the numbers of the segments are. -/
theorem stream_ordered (segments : List Segment)
    (hincreasing : segments.Pairwise fun a b => a.fid < b.fid) :
    (stream segments).Pairwise Placed.Before := by
  refine pairwise_flatMap.mpr ⟨fun segment _ => ?_, hincreasing.imp fun {a b} hlt => ?_⟩
  · refine (placedFrom_increasing segment.fid 0 segment.records).imp_of_mem ?_
    intro x y hx hy hlt
    exact Or.inr ⟨(mem_placedFrom hx).1.trans (mem_placedFrom hy).1.symm, hlt⟩
  · intro x hx y hy
    refine Or.inl ?_
    rwa [(mem_placedFrom hx).1, (mem_placedFrom hy).1]

/-- Records at one place are one record. -/
theorem eq_of_same_place {log : List Placed} (hordered : log.Pairwise Placed.Before)
    {a b : Placed} (ha : a ∈ log) (hb : b ∈ log) (hfid : a.fid = b.fid)
    (hoffset : a.offset = b.offset) : a = b := by
  by_contra hne
  have hsymmetric : Std.Symm fun x y : Placed => x.Before y ∨ y.Before x := ⟨fun _ _ h => h.symm⟩
  have hor := (hordered.imp fun {x y} h => (Or.inl h : x.Before y ∨ y.Before x)).forall ha hb hne
  rw [Placed.Before, Placed.Before] at hor
  omega

/-! ## Tombstones of a segment -/

/-- One tombstone. -/
theorem recoverHintTombstone_apply (keydir : Keydir) (entry : Placed) (key : Bytes) :
    recoverHintTombstone keydir entry key = (keydir key).bind fun row =>
        if entry.key = key ∧ row.Before entry then none else some row := by
  rw [recoverHintTombstone]
  by_cases hkey : entry.key = key
  · subst hkey
    cases hrow : keydir entry.key with
    | none => exact hrow
    | some row =>
      dsimp only
      rw [bind_some]
      by_cases hbefore : row.fileId < entry.fid ∨
          (row.fileId = entry.fid ∧ row.offset < entry.offset)
      · rw [if_pos hbefore, if_pos ⟨rfl, hbefore⟩, Function.update_self]
      · rw [if_neg hbefore, if_neg fun h => hbefore h.2, hrow]
  · have hsame : ∀ row : Row,
        (if entry.key = key ∧ row.Before entry then none else some row) = some row :=
      fun row => if_neg fun h => hkey h.1
    simp only [hsame]
    rw [show (keydir key).bind (fun row => some row) = keydir key from bind_fun_some _]
    cases keydir entry.key with
    | none => rfl
    | some row =>
      dsimp only
      split_ifs
      · exact Function.update_of_ne (Ne.symm hkey) _ _
      · rfl

variable {keydir : Keydir} {entries : List Placed} {key : Bytes}

/-- A key loses its row exactly to a tombstone of it that lies behind the row. -/
theorem recoverTombstones_apply :
    recoverTombstones keydir entries key = (keydir key).bind fun row =>
      if ∃ entry ∈ entries, entry.record.tombstone = true ∧ entry.key = key ∧ row.Before entry
      then none else some row := by
  rw [recoverTombstones]
  induction entries generalizing keydir with
  | nil => simp
  | cons entry entries ih =>
    rw [filter_cons]
    simp only [mem_cons, exists_eq_or_imp]
    split_ifs with htombstone
    · rw [foldl_cons, ih, recoverHintTombstone_apply, bind_assoc]
      congr 1
      funext row
      by_cases hbehind : entry.key = key ∧ row.Before entry
      · rw [if_pos hbehind, if_pos (.inl ⟨htombstone, hbehind⟩)]
        rfl
      · simp [hbehind]
    · simp [ih, htombstone]

/-- A key keeps its row when no tombstone of it lies behind the row. -/
theorem recoverTombstones_keep
    (hkeep : ∀ row, keydir key = some row → ∀ entry ∈ entries, entry.record.tombstone = true →
      entry.key = key → ¬row.Before entry) :
    recoverTombstones keydir entries key = keydir key := by
  rw [recoverTombstones_apply]
  cases hrow : keydir key with
  | none => rfl
  | some row =>
    refine if_neg ?_
    rintro ⟨entry, hentry, htombstone, hkey, hbefore⟩
    exact hkeep row hrow entry hentry htombstone hkey hbefore

/-! ## Segments -/

/-- A segment gives a key that is not in its tail what a scan of the segment gives it. -/
theorem recoverSegment_apply {segment : HintedSegment}
    (hbefore : ∀ row, keydir key = some row → row.fileId < segment.fid)
    (htail : newest Placed.key key segment.uncovered = none) :
    recoverSegment keydir segment key =
      (newest Placed.key key segment.scan).elim (keydir key) Placed.row := by
  rw [recoverSegment]
  rw [uncovered] at htail
  cases hcovered : segment.covered with
  | none =>
    dsimp only
    rw [recoverLogRecords_eq, replay_apply]
  | some covered =>
    rw [hcovered] at htail
    dsimp only
    have hscan := scan_eq_covered_append_tail segment covered
    have hnewest : newest Placed.key key segment.scan =
        newest Placed.key key (placedFrom segment.fid 0 (segment.records.take covered)) := by
      rw [hscan, newest_append, show newest Placed.key key (segment.tail covered) = none
        from htail, none_or]
    have hhint : ∀ entry ∈ segment.hint covered,
        entry ∈ segment.scan ∧ entry.record.tombstone = false := fun entry hentry => by
      obtain ⟨hmem, hput⟩ := mem_filter.mp hentry
      rw [hscan]
      exact ⟨mem_append_left _ hmem, by simpa using hput⟩
    have hloaded : recoverLogRecords keydir (segment.hint covered) key =
        (newest Placed.key key (segment.hint covered)).elim (keydir key) Placed.row := by
      rw [recoverLogRecords_eq, replay_apply]
    have hordered : segment.scan.Pairwise Placed.Before := by
      have := stream_ordered [segment.toSegment] (pairwise_singleton _ _)
      rwa [stream, flatMap_singleton] at this
    cases hlast : newest Placed.key key segment.scan with
    | none =>
      have habsent := newest_eq_none_iff.mp hlast
      have hnone : newest Placed.key key (segment.hint covered) = none :=
        newest_eq_none_iff.mpr fun entry hentry => habsent entry (hhint entry hentry).1
      rw [recoverTombstones_keep, hloaded, hnone]
      intro row _ entry hentry _ hkey
      exact absurd hkey (habsent entry hentry)
    | some last =>
      obtain ⟨hmem, hkey⟩ := mem_of_newest hlast
      have hfid : last.fid = segment.fid := (mem_placedFrom hmem).1
      cases htombstone : last.record.tombstone with
      | false =>
        -- the hint ends with this record, and all tombstones of the key are before it
        have hnewestHint : newest Placed.key key (segment.hint covered) = some last :=
          newest_filter (hnewest ▸ hlast) _ (by simp [htombstone])
        rw [recoverTombstones_keep, hloaded, hnewestHint]
        intro row hrow entry hentry hentryTombstone hentryKey
        rw [hloaded, hnewestHint] at hrow
        rw [elim_some] at hrow
        rw [Placed.row, htombstone] at hrow
        cases hrow
        rcases eq_or_before_newest hlast hordered hentry hentryKey with rfl | hless
        · rw [htombstone] at hentryTombstone
          cases hentryTombstone
        · rw [Row.Before]
          rw [Placed.Before] at hless
          dsimp only
          omega
      | true =>
        -- whatever row the key has, this tombstone lies behind it
        have hnone : last.row = none := if_pos htombstone
        rw [elim_some, hnone, recoverTombstones_apply]
        cases hrow : recoverLogRecords keydir (segment.hint covered) key with
        | none => rfl
        | some row =>
          refine if_pos ⟨last, hmem, htombstone, hkey, ?_⟩
          rw [hloaded] at hrow
          cases hfound : newest Placed.key key (segment.hint covered) with
          | none =>
            rw [hfound] at hrow
            exact Or.inl (hfid ▸ hbefore row hrow)
          | some hinted =>
            rw [hfound] at hrow
            obtain ⟨hhinted, hhintedKey⟩ := mem_of_newest hfound
            obtain ⟨hinScan, hput⟩ := hhint hinted hhinted
            rw [elim_some] at hrow
            rw [Placed.row, hput] at hrow
            cases hrow
            rcases eq_or_before_newest hlast hordered hinScan hhintedKey with
              rfl | hless
            · rw [htombstone] at hput
              cases hput
            · exact hless

/-- All segments, for a key that is in no tail. -/
theorem foldl_recoverSegment_apply {segments : List HintedSegment}
    (hincreasing : segments.Pairwise fun a b => a.fid < b.fid)
    (hbefore : ∀ row, keydir key = some row → ∀ segment ∈ segments, row.fileId < segment.fid)
    (htails : newest Placed.key key (tails segments) = none) :
    segments.foldl recoverSegment keydir key =
      (newest Placed.key key (stream (segments.map toSegment))).elim (keydir key) Placed.row := by
  induction segments generalizing keydir with
  | nil => rfl
  | cons segment segments ih =>
    obtain ⟨hfirst, hrest⟩ := pairwise_cons.mp hincreasing
    rw [tails, flatMap_cons, ← tails, newest_append, or_eq_none_iff] at htails
    have hstep := recoverSegment_apply
      (fun row hrow => hbefore row hrow segment mem_cons_self) htails.2
    have hnext : ∀ row, recoverSegment keydir segment key = some row →
        ∀ other ∈ segments, row.fileId < other.fid := by
      intro row hrow other hother
      rw [hstep] at hrow
      cases hlast : newest Placed.key key segment.scan with
      | none =>
        rw [hlast] at hrow
        exact hbefore row hrow other (mem_cons_of_mem _ hother)
      | some last =>
        rw [hlast] at hrow
        obtain ⟨hmem, _⟩ := mem_of_newest hlast
        rw [elim_some] at hrow
        rw [Placed.row] at hrow
        split_ifs at hrow
        cases hrow
        show last.fid < other.fid
        rw [(mem_placedFrom hmem).1]
        exact hfirst other hother
    have hstream : stream ((segment :: segments).map toSegment) =
        segment.scan ++ stream (segments.map toSegment) := rfl
    rw [foldl_cons, ih hrest hnext htails.1, hstep, hstream, newest_append]
    cases newest Placed.key key (stream (segments.map toSegment)) <;> rfl

/-- The tails are one replay. -/
theorem foldl_replayHintedTail (keydir : Keydir) :
    segments.foldl replayHintedTail keydir = recoverLogRecords keydir (tails segments) := by
  have hstep : replayHintedTail =
      fun keydir segment => recoverLogRecords keydir (uncovered segment) := by
    funext keydir segment
    rw [replayHintedTail, uncovered]
    cases segment.covered <;> rfl
  rw [hstep, foldl_recoverLogRecords uncovered]
  rfl

theorem tails_sublist : (tails segments).Sublist (stream (segments.map toSegment)) := by
  induction segments with
  | nil => exact nil_sublist _
  | cons segment segments ih => exact (uncovered_sublist segment).append ih

/-- Two records give a key the same row when they are one, or both remove it. -/
theorem row_eq_iff {a b : Placed} (hsame : a.fid = b.fid → a.offset = b.offset → a = b) :
    a.row = b.row ↔ a = b ∨ (a.record.tombstone = true ∧ b.record.tombstone = true) := by
  refine ⟨fun hrow => ?_, fun h => ?_⟩
  · rw [Placed.row, Placed.row] at hrow
    split_ifs at hrow with ha hb hb
    · exact Or.inr ⟨ha, hb⟩
    · obtain ⟨hfid, hoffset, _⟩ := Row.mk.inj (some.inj hrow)
      exact Or.inl (hsame hfid hoffset)
  · rcases h with rfl | ⟨ha, hb⟩
    · rfl
    · rw [Placed.row, Placed.row, if_pos ha, if_pos hb]

/-- Recovery through hints gives a key the row that recovery from the logs gives it exactly when
the newest record of the key in the tails is its newest record of all, or both are tombstones. -/
theorem recoverFromHints_eq_iff (segments : List HintedSegment)
    (hincreasing : segments.Pairwise fun a b => a.fid < b.fid) (key : Bytes) :
    recoverFromHints segments key = recoverFromLogs (segments.map toSegment) key ↔
      ∀ late, newest Placed.key key (tails segments) = some late →
        ∃ last, newest Placed.key key (stream (segments.map toSegment)) = some last ∧
          (late = last ∨ (late.record.tombstone = true ∧ last.record.tombstone = true)) := by
  rw [recoverFromHints, foldl_replayHintedTail, recoverLogRecords_eq, replay_apply,
    recoverFromLogs_apply, ← stream]
  cases hlate : newest Placed.key key (tails segments) with
  | none =>
    refine iff_of_true ?_ nofun
    rw [elim_none, foldl_recoverSegment_apply hincreasing
      (fun row (h : (none : Option Row) = some row) => nomatch h) hlate]
    cases newest Placed.key key (stream (segments.map toSegment)) <;> rfl
  | some late =>
    obtain ⟨hmem, hkey⟩ := mem_of_newest hlate
    have hinStream := (tails_sublist segments).subset hmem
    obtain ⟨last, hlast⟩ : ∃ last, newest Placed.key late.key _ = some last :=
      exists_newest hinStream
    rw [hkey] at hlast
    have hordered := stream_ordered (segments.map toSegment) (pairwise_map.mpr hincreasing)
    have hrow := row_eq_iff (a := late) (b := last) fun hfid hoffset =>
      eq_of_same_place hordered hinStream (mem_of_newest hlast).1 hfid hoffset
    rw [hlast, bind_some, elim_some, hrow]
    refine ⟨fun h late' hlate' => ?_, fun h => ?_⟩
    · cases hlate'
      exact ⟨last, rfl, h⟩
    · obtain ⟨last', hlast', h'⟩ := h late rfl
      cases hlast'
      exact h'

/-- A segment whose hint covers its only record, and a later one. -/
theorem recoverFromHints_eq_covered :
    recoverFromHints [⟨⟨1, [⟨[7], [1], 0, false⟩]⟩, some 1⟩, ⟨⟨2, [⟨[7], [2], 0, false⟩]⟩, none⟩]
        [7] =
      recoverFromLogs [⟨1, [⟨[7], [1], 0, false⟩]⟩, ⟨2, [⟨[7], [2], 0, false⟩]⟩] [7] :=
  (recoverFromHints_eq_iff
    [⟨⟨1, [⟨[7], [1], 0, false⟩]⟩, some 1⟩, ⟨⟨2, [⟨[7], [2], 0, false⟩]⟩, none⟩] (by decide) [7]).mpr
    nofun

/-- A record that was appended to a segment after its hint hides the record of a later segment. -/
theorem hinted_tail_hides_later_segment :
    recoverFromLogs [⟨1, [⟨[5], [], 0, false⟩, ⟨[7], [1], 0, false⟩]⟩,
        ⟨2, [⟨[7], [2, 2], 0, false⟩]⟩] [7] = some ⟨2, 0, 2, 0⟩ ∧
      recoverFromHints [⟨⟨1, [⟨[5], [], 0, false⟩, ⟨[7], [1], 0, false⟩]⟩, some 1⟩,
        ⟨⟨2, [⟨[7], [2, 2], 0, false⟩]⟩, none⟩] [7] = some ⟨1, 27, 1, 0⟩ :=
  ⟨by decide, by decide⟩

end FerricStore.Store
