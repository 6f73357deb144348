import FerricStore.Lib.Kill
import FerricStore.Store.Compaction
import FerricStore.Store.HintRecovery

/-!
# Compaction keeps what a recovery sees

A record is hidden at a time when it is a tombstone or has expired. Compaction of a segment leaves
every key its newest record, or drops records of the key only when the newest one is hidden and the
newest in the lower segments is hidden too (`newest_copied`). This needs a keydir that tracks the
segment: a row into it, or no row, says what the newest record of the key is. A compaction that
drops an expired record leaves its row behind, and such a row makes a later compaction take a
record for superseded that still masks another (`stale_row_resurrects`).
-/

namespace FerricStore.Store

open LastWriter List LogRecord

open Kill (runSteps)
open LastWriter (newest)

/-! ## Records and what they show -/

variable (record : LogRecord)

/-- A record that shows nothing at a time. -/
def LogRecord.hidden (now : Nat) : Bool :=
  record.tombstone || record.expired now

/-- The value that a record shows at a time. -/
def LogRecord.visible (now : Nat) : Option Bytes :=
  if record.hidden now then none else some record.value

theorem LogRecord.hidden_mono {record : LogRecord} {cutoff now : Nat} (hle : cutoff ≤ now)
    (h : record.hidden cutoff = true) : record.hidden now = true := by
  simp only [hidden, expired, Bool.or_eq_true, Bool.and_eq_true, decide_eq_true_eq] at h ⊢
  exact h.imp_right fun hexpired => ⟨hexpired.1, hexpired.2.trans hle⟩

theorem dependencyState_live_iff (cutoff : Nat) :
    dependencyState record cutoff = .live ↔ record.hidden cutoff = false := by
  rw [dependencyState, LogRecord.hidden, LogRecord.expired]
  cases record.tombstone with
  | true => simp
  | false =>
    by_cases hzero : record.expireAtMs = 0
    · simp [hzero]
    · by_cases hlt : cutoff < record.expireAtMs
      · simp [hlt]
      · simp [hlt]

/-- All records in the order of the logs, without their places. -/
def recordsOf (segments : List Segment) : List LogRecord := segments.flatMap Segment.records

theorem map_record_placedFrom (fid offset : Nat) (records : List LogRecord) :
    (placedFrom fid offset records).map Placed.record = records := by
  induction records generalizing offset with
  | nil => rfl
  | cons record records ih => rw [placedFrom, map_cons, ih]

theorem map_record_stream (segments : List Segment) :
    (stream segments).map Placed.record = recordsOf segments := by
  rw [stream, recordsOf, map_flatMap]
  exact congrArg (segments.flatMap ·) (funext fun segment => map_record_placedFrom _ _ _)

theorem newest_map_record (key : Bytes) (entries : List Placed) :
    newest LogRecord.key key (entries.map Placed.record) =
      (newest Placed.key key entries).map Placed.record := by
  rw [newest, newest, filter_map, getLast?_map]
  rfl

variable {segments : List Segment}

/-- What a recovery shows of a key is what its newest record shows. -/
theorem recoveredValue_eq
    (hincreasing : segments.Pairwise fun a b => a.fid < b.fid) (now : Nat) (key : Bytes) :
    recoveredValue segments now key =
      (newest LogRecord.key key (recordsOf segments)).bind fun record => record.visible now := by
  rw [recoveredValue, recoverFromLogs_apply, ← map_record_stream, newest_map_record, ← stream]
  cases hlast : newest Placed.key key (stream segments) with
  | none => rfl
  | some last =>
    rw [Option.bind_some, Option.map_some, Option.bind_some, Placed.row, visible, LogRecord.hidden]
    cases htombstone : last.record.tombstone with
    | true => rfl
    | false =>
      rw [if_neg Bool.false_ne_true, Option.bind_some, Bool.false_or, expired]
      by_cases hexpired : 0 < last.record.expireAtMs ∧ last.record.expireAtMs ≤ now
      · rw [if_pos hexpired, if_pos (by simpa using hexpired)]
      · rw [if_neg hexpired, if_neg (by simpa using hexpired)]
        have hmem := (mem_of_newest hlast).1
        -- the record at the row's place is the newest one
        cases hfind : (stream segments).find? fun entry =>
            decide (entry.fid = last.fid) && decide (entry.offset = last.offset) with
        | none => exact absurd (find?_eq_none.mp hfind last hmem) (by simp)
        | some found =>
          have hplace := find?_some hfind
          simp only [Bool.and_eq_true, decide_eq_true_eq] at hplace
          rw [eq_of_same_place (stream_ordered segments hincreasing)
            (mem_of_find?_eq_some hfind) hmem hplace.1 hplace.2]
          rfl

/-! ## The catalogue -/

/-- The candidates before any lower segment was read. -/
theorem foldl_recordSource_apply (masking : List Placed) (key : Bytes) :
    masking.foldl recordSource (fun _ => none) key =
      (newest Placed.key key masking).map fun entry => ⟨entry.offset, .missing, none⟩ := by
  have hreplay : masking.foldl recordSource (fun _ => none) key =
      (newest Placed.key key masking).elim none
        fun entry => some (⟨entry.offset, .missing, none⟩ : Candidate) :=
    replay_apply _ (fun _ => none) masking key
  rw [hreplay]
  cases newest Placed.key key masking <;> rfl

variable {entry : Placed} {key : Bytes}

/-- A record of another key leaves a candidate alone. -/
theorem observeLower_of_ne (cutoff : Nat) (catalog : Catalog)
    (hkey : entry.key ≠ key) : observeLower cutoff catalog entry key = catalog key := by
  rw [observeLower]
  cases catalog entry.key with
  | none => rfl
  | some candidate =>
    dsimp only
    split_ifs
    · exact Function.update_of_ne hkey.symm _ _
    · rfl

variable {catalog : Catalog}

section

variable (cutoff : Nat) {fid : Nat} {candidate : Candidate}
  (hcandidate : catalog key = some candidate)
include hcandidate

/-- A candidate after a segment was read. -/
theorem foldl_observeLower_apply (entries : List Placed) (hfid : ∀ entry ∈ entries, entry.fid = fid) :
    entries.foldl (observeLower cutoff) catalog key =
      if candidate.resolvedFid = none ∨ candidate.resolvedFid = some fid then
        (newest Placed.key key entries).elim (some candidate) fun entry =>
          some ⟨candidate.offset, dependencyState entry.record cutoff, some fid⟩
      else some candidate := by
  induction entries using reverseRecOn with
  | nil =>
    rw [foldl_nil, hcandidate]
    split_ifs <;> rfl
  | append_singleton entries entry ih =>
    have hrest := ih fun other hother => hfid other (mem_append_left _ hother)
    have hentry : entry.fid = fid := hfid entry (by simp)
    rw [foldl_append, foldl_cons, foldl_nil, newest_concat]
    by_cases hkey : entry.key = key
    · subst hkey
      rw [if_pos rfl, observeLower, hrest]
      by_cases hopen : candidate.resolvedFid = none ∨ candidate.resolvedFid = some fid
      · rw [if_pos hopen, if_pos hopen, Option.elim_some]
        cases newest Placed.key entry.key entries with
        | none =>
          rw [Option.elim_none]
          dsimp only
          rw [hentry, if_pos hopen, Function.update_self]
        | some older =>
          rw [Option.elim_some]
          dsimp only
          rw [hentry, if_pos (Or.inr rfl), Function.update_self]
      · rw [if_neg hopen, if_neg hopen]
        dsimp only
        rw [hentry, if_neg hopen, hrest, if_neg hopen]
    · rw [observeLower_of_ne cutoff _ hkey, hrest, if_neg hkey]

/-- A resolved candidate is left alone by other segments. -/
theorem foldl_observe_resolved (hresolved : candidate.resolvedFid = some fid)
    (hother : ∀ segment ∈ segments, segment.fid ≠ fid) :
    segments.foldl (fun catalog segment => segment.scan.foldl (observeLower cutoff) catalog)
      catalog key = some candidate := by
  induction segments generalizing catalog with
  | nil => exact hcandidate
  | cons segment segments ih =>
    refine ih ?_ (forall_mem_cons.mp hother).2
    have hclosed : ¬(candidate.resolvedFid = none ∨ candidate.resolvedFid = some segment.fid) := by
      rw [hresolved]
      rintro (h | h)
      · cases h
      · exact hother segment mem_cons_self (Option.some.inj h).symm
    have hstep := foldl_observeLower_apply cutoff hcandidate
      segment.scan (fun entry hentry => (mem_placedFrom hentry).1)
    rwa [if_neg hclosed] at hstep

end

/-- An open candidate is resolved by the newest record of its key in the lower segments. -/
theorem foldl_observe_open (cutoff : Nat) {offset : Nat}
    (hcandidate : catalog key = some ⟨offset, .missing, none⟩)
    (hdistinct : segments.Pairwise fun a b => b.fid ≠ a.fid) :
    ∃ resolved, segments.foldl
        (fun catalog segment => segment.scan.foldl (observeLower cutoff) catalog) catalog key =
      some ⟨offset, (newest LogRecord.key key (recordsOf segments.reverse)).elim .missing
        fun record => dependencyState record cutoff, resolved⟩ := by
  induction segments generalizing catalog with
  | nil => exact ⟨none, hcandidate⟩
  | cons segment segments ih =>
    obtain ⟨hfirst, hrest⟩ := pairwise_cons.mp hdistinct
    have hstep := foldl_observeLower_apply cutoff hcandidate
      segment.scan (fun entry hentry => (mem_placedFrom hentry).1)
    have hrecords : newest LogRecord.key key (recordsOf (segment :: segments).reverse) =
        ((newest Placed.key key segment.scan).map Placed.record).or
          (newest LogRecord.key key (recordsOf segments.reverse)) := by
      rw [← newest_map_record, Segment.scan, map_record_placedFrom, ← newest_append,
        reverse_cons, recordsOf, flatMap_append, flatMap_singleton]
      rfl
    rw [foldl_cons, hrecords]
    cases hfound : newest Placed.key key segment.scan with
    | none =>
      rw [hfound, Option.elim_none] at hstep
      exact ih hstep hrest
    | some last =>
      rw [hfound, Option.elim_some] at hstep
      exact ⟨some segment.fid, foldl_observe_resolved cutoff hstep rfl hfirst⟩

/-! ## One segment -/

/-- The numbers of the segments increase. -/
def Increasing (segments : List Segment) : Prop := segments.Pairwise fun a b => a.fid < b.fid

/-- Segments around one of them. -/
structure Around (segments lower upper : List Segment) (segment : Segment) : Prop where
  eq : segments = lower ++ segment :: upper
  below : ∀ other ∈ lower, other.fid < segment.fid
  above : ∀ other ∈ upper, segment.fid < other.fid

theorem exists_around (hincreasing : Increasing segments)
    {segment : Segment} (hmem : segment ∈ segments) :
    ∃ lower upper, Around segments lower upper segment := by
  obtain ⟨lower, upper, rfl⟩ := append_of_mem hmem
  obtain ⟨_, hupper, hcross⟩ := pairwise_append.mp hincreasing
  exact ⟨lower, upper, rfl, fun other hother => hcross other hother segment mem_cons_self,
    (pairwise_cons.mp hupper).1⟩

namespace Around

variable {lower upper : List Segment} {segment : Segment}

section

variable (h : Around segments lower upper segment)
include h

theorem lowerCompactionFiles_eq : lowerCompactionFiles segments segment.fid = lower.reverse := by
  rw [lowerCompactionFiles, h.eq, filter_append, filter_cons_of_neg (by simp),
    filter_eq_self.mpr (fun other hother => decide_eq_true (h.below other hother)),
    filter_eq_nil_iff.mpr
      (fun other hother => by simpa using (h.above other hother).le), append_nil]

theorem map_replace (replacement : Segment) :
    (segments.map fun other => if other.fid = segment.fid then replacement else other) =
      lower ++ replacement :: upper := by
  rw [h.eq, map_append, map_cons, if_pos rfl,
    map_congr_left fun other hother => if_neg (h.below other hother).ne,
    map_congr_left fun other hother => if_neg (h.above other hother).ne', map_id',
    map_id']

theorem filter_ne :
    (segments.filter fun other => decide (other.fid ≠ segment.fid)) = lower ++ upper := by
  rw [h.eq, filter_append, filter_cons_of_neg (by simp),
    filter_eq_self.mpr (fun other hother => decide_eq_true (h.below other hother).ne),
    filter_eq_self.mpr (fun other hother => decide_eq_true (h.above other hother).ne')]

theorem newest_eq (key : Bytes) : newest LogRecord.key key (recordsOf segments) =
      (newest LogRecord.key key (recordsOf upper)).or ((newest LogRecord.key key segment.records).or
          (newest LogRecord.key key (recordsOf lower))) := by
  rw [h.eq, recordsOf, flatMap_append, flatMap_cons, newest_append, newest_append, Option.or_assoc]
  rfl

end

end Around

variable (flow : FlowStates)

/-- The keydir has the row of the newest record of a key that lies in the segment, or no row for a
record that has expired by the cutoff. -/
def Tracks (shard : Shard) (fid cutoff : Nat) : Prop :=
  ∀ key, flow.stateKey key = false → ∀ last, newest Placed.key key (stream shard.segments) = some last →
    last.fid = fid →
      shard.keydir key = last.row ∨
        (shard.keydir key = none ∧ last.record.expired cutoff = true)

variable {flow} {shard : Shard} {segment : Segment} {cutoff : Nat} {last : Placed}
  {page : CompactionPage} {records : List Placed}

/-- Copied records are records of the segment that are live or masking. -/
theorem mem_copied (h : entry ∈ page.copied records) :
    entry ∈ page.live ∨ entry ∈ page.masking ∨ entry ∈ page.tombstones := by
  rw [CompactionPage.copied] at h
  split_ifs at h
  · exact (mem_append.mp h).imp_right Or.inl
  · have hkept := (mem_filter.mp h).2
    simp only [Bool.or_eq_true, decide_eq_true_eq] at hkept
    exact or_assoc.mp hkept

/-- A live record that is the newest of its key is the newest that is copied, when no record of the
key is copied only to mask. -/
theorem newest_copied_of_live {p : Placed → Bool}
    (hlive : page.live = records.filter p) (hlast : newest Placed.key key records = some last)
    (hp : p last = true) (hmasking : newest Placed.key key page.masking = none) :
    newest Placed.key key (page.copied records) = some last := by
  have hnewest := newest_filter hlast p hp
  rw [CompactionPage.copied]
  split_ifs
  · rw [newest_append, hmasking, Option.none_or, hlive, hnewest]
  · refine newest_filter hlast _ ?_
    have hmem : last ∈ page.live := by
      rw [hlive]
      exact (mem_of_newest hnewest).1
    simp [hmem]

/-- A masking record that is the newest of its key is the newest that is copied, when no live
record of the key is. -/
theorem newest_copied_of_masking {p q : Placed → Bool} (hmasking : page.masking = records.filter p)
    (htombstones : page.tombstones = records.filter q)
    (hlast : newest Placed.key key records = some last) (hkept : p last = true ∨ q last = true) :
    newest Placed.key key (page.copied records) = some last := by
  have hmem := (mem_of_newest hlast).1
  rw [CompactionPage.copied]
  split_ifs with hempty
  · have hp : p last = true := by
      refine hkept.resolve_right fun hq => ?_
      have : last ∈ page.tombstones := by
        rw [htombstones]
        exact mem_filter.mpr ⟨hmem, hq⟩
      rw [isEmpty_iff.mp hempty] at this
      cases this
    rw [newest_append, hmasking, newest_filter hlast p hp, Option.some_or]
  · refine newest_filter hlast _ ?_
    rcases hkept with hp | hq
    · have : last ∈ page.masking := by
        rw [hmasking]
        exact mem_filter.mpr ⟨hmem, hp⟩
      simp [this]
    · have : last ∈ page.tombstones := by
        rw [htombstones]
        exact mem_filter.mpr ⟨hmem, hq⟩
      simp [this]

/-- A hot record of a key is where the row says, and the row has not expired. -/
theorem row_of_currentHotEntry {keydir : Keydir} (h : currentHotEntry keydir cutoff entry = true) :
    ∃ row, keydir entry.key = some row ∧ row.offset = entry.offset ∧
      (row.expireAtMs = 0 ∨ cutoff < row.expireAtMs) := by
  rw [currentHotEntry, Bool.and_eq_true] at h
  cases hrow : keydir entry.key with
  | none =>
    rw [hrow] at h
    exact absurd h.2 Bool.false_ne_true
  | some row =>
    rw [hrow] at h
    have hmatch := h.2
    simp only [Bool.and_eq_true, Bool.or_eq_true, decide_eq_true_eq] at hmatch
    exact ⟨row, rfl, hmatch.1.1.2, hmatch.2⟩

variable {lower upper : List Segment}

section Row

variable (hrow : shard.keydir key = last.row ∨
  (shard.keydir key = none ∧ last.record.expired cutoff = true))
include hrow

/-- The newest record of a key that is not hidden is copied. -/
theorem newest_copied_of_shown (hlast : newest Placed.key key segment.scan = some last)
    (hshown : last.record.hidden cutoff = false) :
    newest Placed.key key ((resolveCompactionPage flow shard segment.fid cutoff
      segment.scan).copied segment.scan) = some last := by
  obtain ⟨hmem, hlastKey⟩ := mem_of_newest hlast
  rw [LogRecord.hidden, Bool.or_eq_false_iff] at hshown
  obtain ⟨hput, hunexpired⟩ := hshown
  have hkeydir : shard.keydir key =
      some ⟨last.fid, last.offset, last.record.value.length, last.record.expireAtMs⟩ := by
    refine (hrow.resolve_right fun h => ?_).trans (if_neg (by rw [hput]; exact Bool.false_ne_true))
    rw [hunexpired] at h
    exact Bool.false_ne_true h.2
  have hhot : currentHotEntry shard.keydir cutoff last = true := by
    rw [currentHotEntry, hlastKey, hkeydir, hput]
    rw [expired, Bool.and_eq_false_iff, decide_eq_false_iff_not,
      decide_eq_false_iff_not] at hunexpired
    simp only [Bool.not_false, decide_true, Bool.and_self, Bool.true_and, Bool.or_eq_true,
      decide_eq_true_eq]
    omega
  refine newest_copied_of_live rfl hlast (by rw [hhot, Bool.true_or]) ?_
  -- an expired record of the key that the row points at would be the newest one
  refine newest_eq_none_iff.mpr fun entry hentry hentryKey => ?_
  obtain ⟨hscan, hmasks⟩ := mem_filter.mp hentry
  simp only [compactionMasking, compactionExpiredNewest, Bool.and_eq_true, Bool.or_eq_true,
    Bool.not_eq_true'] at hmasks
  obtain ⟨⟨hentryPut, hmask, _⟩, _⟩ := hmasks
  rw [hentryPut, hentryKey, hkeydir] at hmask
  simp only [Bool.false_eq_true, false_or, Bool.and_eq_true, decide_eq_true_eq] at hmask
  have hordered := stream_ordered [segment] (pairwise_singleton _ _)
  rw [stream, flatMap_singleton] at hordered
  obtain rfl := eq_of_same_place hordered hmem hscan
    ((mem_placedFrom hmem).1.trans (mem_placedFrom hscan).1.symm) hmask.2.2
  rw [hunexpired] at hmask
  exact Bool.false_ne_true hmask.1.1.2

section

variable (hhidden : last.record.hidden cutoff = true)
include hhidden

/-- A hidden newest record masks. -/
theorem compactionMasking_of_hidden (hkey : flow.stateKey key = false) (hlastKey : last.key = key) :
    compactionMasking flow shard.keydir cutoff last = true := by
  rw [compactionMasking, compactionExpiredNewest, hlastKey, hkey]
  cases htombstone : last.record.tombstone with
  | true => rfl
  | false =>
    rw [LogRecord.hidden, htombstone, Bool.false_or] at hhidden
    rcases hrow with hkeydir | ⟨hkeydir, _⟩
    · rw [hkeydir, Placed.row, htombstone, if_neg Bool.false_ne_true, hhidden]
      simp
    · rw [hkeydir, hhidden]
      rfl

/-- No record of a key is hot when its newest record is hidden. -/
theorem currentHotEntry_of_hidden (hentryKey : entry.key = key) :
    currentHotEntry shard.keydir cutoff entry = false := by
  by_contra hhot
  obtain ⟨row, hkeydir, _, hunexpired⟩ := row_of_currentHotEntry (Bool.not_eq_false _ ▸ hhot)
  rw [hentryKey] at hkeydir
  rcases hrow with hlast | ⟨hnone, _⟩
  · rw [hlast, Placed.row] at hkeydir
    split_ifs at hkeydir with htombstone
    cases hkeydir
    simp only [LogRecord.hidden, LogRecord.expired, Bool.or_eq_true, Bool.and_eq_true,
      decide_eq_true_eq] at hhidden
    have hexpired := hhidden.resolve_left htombstone
    dsimp only at hunexpired
    omega
  · rw [hnone] at hkeydir
    cases hkeydir

/-- A hidden newest record is copied, or no record of the key is and the newest record in the lower
segments is hidden too. -/
theorem newest_copied_of_hidden (h : Around shard.segments lower upper segment)
    (hdistinct : lower.reverse.Pairwise fun a b => b.fid ≠ a.fid) (hkey : flow.stateKey key = false)
    (hlast : newest Placed.key key segment.scan = some last) :
    newest Placed.key key ((resolveCompactionPage flow shard segment.fid cutoff
        segment.scan).copied segment.scan) = some last ∨
      (newest Placed.key key ((resolveCompactionPage flow shard segment.fid cutoff
        segment.scan).copied segment.scan) = none ∧
        ∀ record, newest LogRecord.key key (recordsOf lower) = some record →
          record.hidden cutoff = true) := by
  obtain ⟨hmem, hlastKey⟩ := mem_of_newest hlast
  have hmasks := compactionMasking_of_hidden hrow hhidden hkey hlastKey
  have hnotLive : ∀ entry : Placed, entry.key = key →
      (currentHotEntry shard.keydir cutoff entry || coldEntry flow shard.keydir entry) = false := by
    intro entry hentry
    rw [currentHotEntry_of_hidden hrow hhidden hentry, coldEntry, hentry, hkey]
    simp
  set masking := segment.scan.filter (compactionMasking flow shard.keydir cutoff)
  set catalog := resolveCatalog shard.segments segment.fid cutoff masking with hresolve
  -- the newest record is the candidate of the key
  obtain ⟨resolved, hcatalog⟩ : ∃ resolved, catalog key =
      some ⟨last.offset, (newest LogRecord.key key (recordsOf lower)).elim .missing
        fun record => dependencyState record cutoff, resolved⟩ := by
    rw [hresolve, resolveCatalog, h.lowerCompactionFiles_eq]
    have hcandidate := foldl_recordSource_apply masking key
    rw [newest_filter hlast _ hmasks, Option.map_some] at hcandidate
    have hopen := foldl_observe_open cutoff hcandidate hdistinct
    rwa [reverse_reverse] at hopen
  by_cases hlive : (newest LogRecord.key key (recordsOf lower)).elim Dependency.missing
      (fun record => dependencyState record cutoff) = .live
  · left
    have hneeded : neededOffset catalog last = true := by
      rw [neededOffset, hlastKey, hcatalog]
      simp [hlive]
    refine newest_copied_of_masking rfl rfl hlast ?_
    cases htombstone : last.record.tombstone with
    | true =>
      refine Or.inr ?_
      dsimp only
      rw [hmasks, hneeded]
      rfl
    | false =>
      refine Or.inl ?_
      dsimp only
      rw [hmasks, hneeded, hnotLive last hlastKey]
      rfl
  · right
    refine ⟨newest_eq_none_iff.mpr fun entry hentry hentryKey => ?_,
      fun record hrecord => ?_⟩
    · have hnotNeeded : neededOffset catalog entry = false := by
        rw [neededOffset, hentryKey, hcatalog]
        simp [hlive]
      rcases mem_copied hentry with hkept | hkept | hkept
      · have hlive := (mem_filter.mp hkept).2
        rw [hnotLive entry hentryKey] at hlive
        cases hlive
      all_goals
        have hneeded := (mem_filter.mp hkept).2
        dsimp only at hneeded
        rw [hnotNeeded] at hneeded
        simp at hneeded
    · rw [hrecord, Option.elim_some, dependencyState_live_iff] at hlive
      exact Bool.not_eq_false _ ▸ hlive

end

end Row

/-! ## One compaction -/

/-- The value that a key shows at a time. -/
def shown (segments : List Segment) (now : Nat) (key : Bytes) : Option Bytes :=
  (newest LogRecord.key key (recordsOf segments)).bind fun record => record.visible now

/-- The records that a compaction leaves in a segment. -/
def keptRecords (flow : FlowStates) (shard : Shard) (segment : Segment) (cutoff : Nat) :
    List LogRecord :=
  ((resolveCompactionPage flow shard segment.fid cutoff segment.scan).copied segment.scan).map
    Placed.record

/-- Compaction changes nothing, or leaves the kept records between the other segments, where a
segment without records may be missing. -/
theorem compactSegment_segments (h : Around shard.segments lower upper segment) :
    (compactSegment flow shard segment cutoff).segments = shard.segments ∨
      (compactSegment flow shard segment cutoff).segments =
        lower ++ ⟨segment.fid, keptRecords flow shard segment cutoff⟩ :: upper ∨
      (keptRecords flow shard segment cutoff = [] ∧
        (compactSegment flow shard segment cutoff).segments = lower ++ upper) := by
  rw [compactSegment]
  split_ifs with hempty htombstones
  · refine Or.inr (Or.inr ⟨?_, h.filter_ne⟩)
    rw [Bool.and_eq_true, List.isEmpty_iff, List.isEmpty_iff] at hempty
    rw [keptRecords, CompactionPage.copied, if_pos htombstones, hempty.1, hempty.2]
    rfl
  · exact Or.inl rfl
  · exact Or.inr (Or.inl (h.map_replace _))

section

variable {segments lower upper : List Segment} (h : Around segments lower upper segment)
include h

/-- The numbers of lower segments, from the highest down. -/
theorem Around.distinct (hincreasing : Increasing segments) :
    lower.reverse.Pairwise fun a b => b.fid ≠ a.fid := by
  rw [Increasing, h.eq] at hincreasing
  exact pairwise_reverse.mpr ((pairwise_append.mp hincreasing).1.imp fun hlt => hlt.ne)

/-- The newest record of a key in a segment that has it, when no later segment does. -/
theorem Around.newest_stream (hupper : newest LogRecord.key key (recordsOf upper) = none)
    (hlast : newest Placed.key key segment.scan = some last) :
    newest Placed.key key (stream segments) = some last := by
  have hnone : newest Placed.key key (stream upper) = none := by
    rw [← map_record_stream, newest_map_record, Option.map_eq_none_iff] at hupper
    exact hupper
  rw [h.eq, stream, flatMap_append, flatMap_cons, newest_append,
    newest_append, ← stream, hnone, Option.none_or, hlast, Option.some_or]

end

variable {now : Nat}

section

variable (hincreasing : Increasing shard.segments) (htracks : Tracks flow shard segment.fid cutoff)
  (hkey : flow.stateKey key = false) (hnow : cutoff ≤ now)
include hincreasing htracks hkey hnow

/-- A compaction under a keydir that tracks the segment leaves every key what it shows, from the
cutoff on. -/
theorem shown_kept (h : Around shard.segments lower upper segment) :
    shown (lower ++ ⟨segment.fid, keptRecords flow shard segment cutoff⟩ :: upper) now key =
      shown shard.segments now key := by
  have haround : Around (lower ++ ⟨segment.fid, keptRecords flow shard segment cutoff⟩ :: upper)
      lower upper ⟨segment.fid, keptRecords flow shard segment cutoff⟩ := ⟨rfl, h.below, h.above⟩
  rw [shown, shown, haround.newest_eq, h.newest_eq]
  cases hupper : newest LogRecord.key key (recordsOf upper) with
  | some record => rfl
  | none =>
    have hscan : newest LogRecord.key key segment.records =
        (newest Placed.key key segment.scan).map Placed.record := by
      rw [← newest_map_record, Segment.scan, map_record_placedFrom]
    rw [Option.none_or, Option.none_or, hscan, keptRecords, newest_map_record]
    cases hlast : newest Placed.key key segment.scan with
    | none =>
      -- copied records are records of the segment
      have hcopied : newest Placed.key key ((resolveCompactionPage flow shard segment.fid cutoff
          segment.scan).copied segment.scan) = none := by
        refine newest_eq_none_iff.mpr fun entry hentry => ?_
        refine newest_eq_none_iff.mp hlast entry ?_
        rcases mem_copied hentry with hkept | hkept | hkept <;>
          exact (mem_filter.mp hkept).1
      rw [hcopied]
    | some last =>
      have hfid : last.fid = segment.fid := (mem_placedFrom (mem_of_newest hlast).1).1
      have hrow := htracks key hkey last (h.newest_stream hupper hlast) hfid
      cases hhidden : last.record.hidden cutoff with
      | false => rw [newest_copied_of_shown hrow hlast hhidden]
      | true =>
        rcases newest_copied_of_hidden hrow hhidden h (h.distinct hincreasing) hkey hlast with
          hcopied | ⟨hcopied, hlower⟩
        · rw [hcopied]
        · -- nothing is copied, and the record that appears shows nothing either
          have hlastNone : last.record.visible now = none :=
            if_pos (LogRecord.hidden_mono hnow hhidden)
          rw [hcopied, Option.map_none, Option.none_or, Option.map_some, Option.some_or,
            Option.bind_some, hlastNone]
          cases hrecord : newest LogRecord.key key (recordsOf lower) with
          | none => rfl
          | some record =>
            exact if_pos (LogRecord.hidden_mono hnow (hlower record hrecord))

theorem shown_compactSegment (hmem : segment ∈ shard.segments) :
    shown (compactSegment flow shard segment cutoff).segments now key =
      shown shard.segments now key := by
  obtain ⟨lower, upper, h⟩ := exists_around hincreasing hmem
  have hkept := shown_kept hincreasing htracks hkey hnow h
  rcases @compactSegment_segments flow shard segment cutoff lower upper h with
    heq | heq | ⟨hnil, heq⟩
  · rw [heq]
  · rw [heq, hkept]
  · -- a missing segment and an empty one show the same
    rw [heq, ← hkept, hnil, shown, shown, recordsOf, recordsOf, flatMap_append,
      flatMap_append, flatMap_cons]
    rfl

end

/-! ## Runs -/

/-- What a compaction needs of the shard that it finds. -/
def Op.Meets (flow : FlowStates) (op : Op) (shard : Shard) : Prop :=
  match op with
  | .compact fid cutoff => Tracks flow shard fid cutoff
  | _ => True

/-- Every compaction of a run finds a keydir that tracks its segment. -/
def RunMeets (flow : FlowStates) : List Op → Shard → Prop
  | [], _ => True
  | op :: ops, shard => op.Meets flow shard ∧ RunMeets flow ops (op.exec flow shard)

/-- Segments as a run keeps them: there is an active one, and the numbers increase. -/
structure WellFormed (segments : List Segment) : Prop where
  increasing : Increasing segments
  nonempty : segments ≠ []

/-- Appending keeps the numbers and adds one record at the end. -/
theorem appendRecord_eq (hnonempty : segments ≠ []) (record : LogRecord) :
    ∃ front active, segments = front ++ [active] ∧
      appendRecord segments record = front ++ [⟨active.fid, active.records ++ [record]⟩] := by
  refine ⟨segments.dropLast, segments.getLast hnonempty,
    (dropLast_append_getLast hnonempty).symm, ?_⟩
  rw [appendRecord, getLast?_eq_some_getLast hnonempty]

variable {others : List Segment}

theorem Increasing.congr (h : Increasing segments)
    (hfids : segments.map Segment.fid = others.map Segment.fid) : Increasing others := by
  have hincreasing : (segments.map Segment.fid).Pairwise (· < ·) := pairwise_map.mpr h
  rw [hfids] at hincreasing
  exact pairwise_map.mp hincreasing

theorem WellFormed.appendRecord (h : WellFormed segments)
    (record : LogRecord) : WellFormed (appendRecord segments record) := by
  obtain ⟨front, active, rfl, heq⟩ := appendRecord_eq h.nonempty record
  rw [heq]
  exact ⟨h.increasing.congr (by simp), by simp⟩

theorem shown_appendRecord (h : WellFormed segments)
    (record : LogRecord) (now : Nat) (key : Bytes) :
    shown (appendRecord segments record) now key =
      if record.key = key then record.visible now else shown segments now key := by
  obtain ⟨front, active, rfl, heq⟩ := appendRecord_eq h.nonempty record
  have hrecords : recordsOf (front ++ [⟨active.fid, active.records ++ [record]⟩]) =
      recordsOf (front ++ [active]) ++ [record] := by
    simp [recordsOf]
  rw [heq, shown, shown, hrecords, newest_concat]
  split_ifs <;> rfl

/-- Segments with a new active one. -/
def rotated (segments : List Segment) (fid : Nat) : List Segment :=
  if segments.all fun segment => decide (segment.fid < fid) then segments ++ [⟨fid, []⟩]
  else segments

theorem WellFormed.rotated (h : WellFormed segments) (fid : Nat) :
    WellFormed (rotated segments fid) := by
  rw [Store.rotated]
  split_ifs with hbelow
  · refine ⟨pairwise_append.mpr ⟨h.increasing, pairwise_singleton _ _, ?_⟩, by simp⟩
    intro other hother last hlast
    rw [mem_singleton.mp hlast]
    exact of_decide_eq_true (all_eq_true.mp hbelow other hother)
  · exact h

theorem shown_rotated (segments : List Segment) (fid now : Nat) (key : Bytes) :
    shown (rotated segments fid) now key = shown segments now key := by
  rw [rotated]
  split_ifs
  · simp [shown, recordsOf]
  · rfl

/-- Compaction of a segment that is not active leaves well-formed segments. -/
theorem WellFormed.compactSegment (h : WellFormed shard.segments) (hmem : segment ∈ shard.segments)
    (hactive : isActive shard.segments segment.fid = false) :
    WellFormed (compactSegment flow shard segment cutoff).segments := by
  obtain ⟨lower, upper, haround⟩ := exists_around h.increasing hmem
  have hincreasing := h.increasing
  rw [haround.eq] at hincreasing
  have hnonempty : upper ≠ [] := by
    rintro rfl
    rw [isActive, haround.eq, getLast?_concat] at hactive
    simp at hactive
  rcases @compactSegment_segments flow shard segment cutoff lower upper haround with
    heq | heq | ⟨_, heq⟩
  · rw [heq]
    exact h
  · rw [heq]
    exact ⟨hincreasing.congr (by simp), by simp⟩
  · rw [heq]
    exact ⟨hincreasing.sublist ((sublist_cons_self _ _).append_left _), by simp [hnonempty]⟩

/-- The segments after an operation that compacts nothing are those of a run without compaction. -/
theorem Op.exec_segments {op : Op} (hop : ∀ fid cutoff, op ≠ .compact fid cutoff) :
    (op.exec flow shard).segments = op.append shard.segments := by
  cases op with
  | put | delete => rfl
  | dropExpired key now =>
    rw [Op.exec]
    cases shard.keydir key with
    | none => rfl
    | some row =>
      dsimp only
      split_ifs <;> rfl
  | rotate fid =>
    rw [Op.exec, Op.append]
    split_ifs <;> rfl
  | compact fid cutoff => exact absurd rfl (hop fid cutoff)

theorem WellFormed.append (h : WellFormed segments) (op : Op) :
    WellFormed (op.append segments) := by
  cases op with
  | put | delete => exact h.appendRecord _
  | dropExpired | compact => exact h
  | rotate fid => exact h.rotated fid

/-- Segments that show the same go on to show the same. -/
theorem shown_append {segments : List Segment} (h : WellFormed segments)
    (hothers : WellFormed others)
    (hsame : shown segments now key = shown others now key) (op : Op) :
    shown (op.append segments) now key = shown (op.append others) now key := by
  cases op with
  | put | delete =>
    rw [Op.append, Op.append, shown_appendRecord h, shown_appendRecord hothers, hsame]
  | dropExpired | compact => exact hsame
  | rotate fid =>
    show shown (rotated segments fid) now key = shown (rotated others fid) now key
    rw [shown_rotated, shown_rotated, hsame]

/-- One operation of a run, beside the same operation without compaction. -/
theorem exec_step {op : Op} (h : WellFormed shard.segments)
    (hothers : WellFormed others) (hmeets : op.Meets flow shard) (hkey : flow.stateKey key = false)
    (hnow : ∀ fid cutoff, op = .compact fid cutoff → cutoff ≤ now)
    (hsame : shown shard.segments now key = shown others now key) :
    WellFormed (op.exec flow shard).segments ∧
      shown (op.exec flow shard).segments now key = shown (op.append others) now key := by
  by_cases hop : ∃ fid cutoff, op = .compact fid cutoff
  · obtain ⟨fid, cutoff, rfl⟩ := hop
    rw [Op.exec, Op.append]
    split_ifs with hactive
    · exact ⟨h, hsame⟩
    · cases hfind : shard.segments.find? fun segment => decide (segment.fid = fid) with
      | none => exact ⟨h, hsame⟩
      | some segment =>
        have hmem := mem_of_find?_eq_some hfind
        have hfid : segment.fid = fid := by simpa using find?_some hfind
        subst hfid
        refine ⟨h.compactSegment hmem (Bool.not_eq_true _ ▸ hactive), ?_⟩
        exact (shown_compactSegment h.increasing hmeets hkey (hnow segment.fid cutoff rfl)
          hmem).trans hsame
  · have hnot : ∀ fid cutoff, op ≠ .compact fid cutoff := fun fid cutoff heq => hop ⟨fid, cutoff, heq⟩
    rw [Op.exec_segments hnot]
    exact ⟨h.append op, shown_append h hothers hsame op⟩

/-- In every run whose compactions find a keydir that tracks their segment, recovery from the logs
gives every key that holds no Flow state the value that recovery from the uncompacted logs gives
it, at every time not before a cutoff of the run. -/
theorem compaction_preserves_recovery (flow : FlowStates) (ops : List Op) (shard : Shard)
    (hsegments : WellFormed shard.segments) (hmeets : RunMeets flow ops shard) (key : Bytes)
    (hkey : flow.stateKey key = false) (now : Nat)
    (hnow : ∀ fid cutoff, Op.compact fid cutoff ∈ ops → cutoff ≤ now) :
    recoveredValue (runSteps (Op.exec flow) ops shard).segments now key =
      recoveredValue (runSteps Op.append ops shard.segments) now key := by
  have hrun : ∀ (ops : List Op) (shard : Shard) (others : List Segment),
      WellFormed shard.segments → WellFormed others → RunMeets flow ops shard →
      (∀ fid cutoff, Op.compact fid cutoff ∈ ops → cutoff ≤ now) →
      shown shard.segments now key = shown others now key →
      WellFormed (runSteps (Op.exec flow) ops shard).segments ∧
        WellFormed (runSteps Op.append ops others) ∧
        shown (runSteps (Op.exec flow) ops shard).segments now key =
          shown (runSteps Op.append ops others) now key := by
    intro ops
    induction ops with
    | nil => exact fun shard others h hothers _ _ hsame => ⟨h, hothers, hsame⟩
    | cons op ops ih =>
      intro shard others h hothers hmeets hnow hsame
      obtain ⟨hwell, hshown⟩ := exec_step h hothers hmeets.1 hkey
        (fun fid cutoff heq => hnow fid cutoff (by rw [heq]; exact mem_cons_self)) hsame
      exact ih (op.exec flow shard) (op.append others) hwell (hothers.append op) hmeets.2
        (fun fid cutoff hmem => hnow fid cutoff (mem_cons_of_mem _ hmem)) hshown
  obtain ⟨hwell, hothers, hsame⟩ := hrun ops shard shard.segments hsegments hsegments hmeets hnow rfl
  rw [recoveredValue_eq hwell.increasing, recoveredValue_eq hothers.increasing]
  exact hsame

/-- A keydir that was just recovered tracks every segment. -/
theorem tracks_recovered (flow : FlowStates) (segments : List Segment) (fid cutoff : Nat) :
    Tracks flow ⟨segments, recoverFromLogs segments⟩ fid cutoff := by
  intro key _ last hlast _
  left
  show recoverFromLogs segments key = last.row
  rw [recoverFromLogs_apply, ← stream, hlast, Option.bind_some]

/-- A tombstone above a live value, compacted under the recovered keydir. -/
theorem compaction_preserves_recovery_tombstone :
    recoveredValue (runSteps (Op.exec ⟨fun _ => false, fun _ => false⟩) [.compact 2 100]
        ⟨[⟨1, [⟨[7], [1], 0, false⟩]⟩, ⟨2, [⟨[7], [], 0, true⟩]⟩, ⟨3, []⟩],
          recoverFromLogs [⟨1, [⟨[7], [1], 0, false⟩]⟩, ⟨2, [⟨[7], [], 0, true⟩]⟩, ⟨3, []⟩]⟩).segments
        100 [7] =
      recoveredValue (runSteps Op.append [.compact 2 100]
        [⟨1, [⟨[7], [1], 0, false⟩]⟩, ⟨2, [⟨[7], [], 0, true⟩]⟩, ⟨3, []⟩]) 100 [7] :=
  compaction_preserves_recovery ⟨fun _ => false, fun _ => false⟩ [.compact 2 100]
    ⟨[⟨1, [⟨[7], [1], 0, false⟩]⟩, ⟨2, [⟨[7], [], 0, true⟩]⟩, ⟨3, []⟩],
      recoverFromLogs [⟨1, [⟨[7], [1], 0, false⟩]⟩, ⟨2, [⟨[7], [], 0, true⟩]⟩, ⟨3, []⟩]⟩
    ⟨by unfold Increasing; decide, by simp⟩ ⟨tracks_recovered _ _ 2 100, trivial⟩ [7] rfl 100
    (by simp)

/-- A live value, an expired one above it and another expired one above that. The first compaction
drops the newest because the one below has expired too, but its row stays; the second takes the
remaining expired value for superseded, and the old value is back. -/
theorem stale_row_resurrects : recoveredValue (runSteps (Op.exec ⟨fun _ => false, fun _ => false⟩)
        [.compact 3 100, .compact 2 100]
        ⟨[⟨1, [⟨[7], [1], 0, false⟩]⟩, ⟨2, [⟨[7], [2], 100, false⟩]⟩,
            ⟨3, [⟨[7], [3], 100, false⟩]⟩, ⟨4, []⟩],
          recoverFromLogs [⟨1, [⟨[7], [1], 0, false⟩]⟩, ⟨2, [⟨[7], [2], 100, false⟩]⟩,
            ⟨3, [⟨[7], [3], 100, false⟩]⟩, ⟨4, []⟩]⟩).segments 100 [7] = some [1] ∧
      recoveredValue [⟨1, [⟨[7], [1], 0, false⟩]⟩, ⟨2, [⟨[7], [2], 100, false⟩]⟩,
        ⟨3, [⟨[7], [3], 100, false⟩]⟩, ⟨4, []⟩] 100 [7] = none :=
  ⟨by decide +kernel, by decide +kernel⟩

/-! ## Restarts -/

section Restart

variable {flow : FlowStates} {shard : Shard} {segments : List Segment} {cutoff : Nat}

/-- A restart finds the row of every key, and besides only rows of records that had expired. -/
def Rebuilds (cutoff : Nat) (shard : Shard) : Prop :=
  ∀ key, shard.keydir key = recoverFromLogs shard.segments key ∨
    shard.keydir key = none ∧ ∃ row ∈ recoverFromLogs shard.segments key,
      0 < row.expireAtMs ∧ row.expireAtMs ≤ cutoff

theorem recoverFromLogs_appendRecord (h : WellFormed segments) (record : LogRecord) :
    recoverFromLogs (appendRecord segments record) = Function.update (recoverFromLogs segments)
      record.key ((nextPlace segments record).bind Placed.row) := by
  obtain ⟨front, active, rfl, heq⟩ := appendRecord_eq h.nonempty record
  have hstream : stream (front ++ [⟨active.fid, active.records ++ [record]⟩]) =
      stream (front ++ [active]) ++ [⟨active.fid, totalSize active.records, record⟩] := by
    simp [stream, Segment.scan, placedFrom_append, placedFrom]
  funext key
  rw [heq, recoverFromLogs_apply, ← stream, hstream, newest_concat]
  by_cases hkey : record.key = key
  · subst hkey
    simp [nextPlace, Placed.key]
  · rw [Function.update_of_ne (Ne.symm hkey), recoverFromLogs_apply]
    simp [Placed.key, hkey, stream]

/-- A new record and its row. -/
theorem Rebuilds.put (h : Rebuilds cutoff shard) (hsegments : WellFormed shard.segments)
    {record : LogRecord} {row : Option Row}
    (hrow : row = (nextPlace shard.segments record).bind Placed.row) :
    Rebuilds cutoff ⟨appendRecord shard.segments record,
      Function.update shard.keydir record.key row⟩ := by
  intro key
  rw [recoverFromLogs_appendRecord hsegments, ← hrow]
  by_cases hkey : key = record.key
  · exact .inl (by simp [hkey])
  · simpa [Function.update_of_ne hkey] using h key

theorem Rebuilds.exec {op : Op} (h : Rebuilds cutoff shard) (hsegments : WellFormed shard.segments)
    (hop : ∀ fid cutoff, op ≠ .compact fid cutoff)
    (hdrop : ∀ key now, op = .dropExpired key now → now ≤ cutoff) :
    Rebuilds cutoff (op.exec flow shard) := by
  cases op with
  | put key value expireAtMs => exact h.put hsegments rfl
  | delete key =>
    refine h.put hsegments ?_
    rw [nextPlace]
    cases shard.segments.getLast? <;> rfl
  | dropExpired key now =>
    rw [Op.exec]
    split
    · rename_i row hrow
      split_ifs with hexpired
      · intro other
        by_cases hkey : other = key
        · subst hkey
          have hrecovered := (h other).resolve_right fun hnone => by simp [hrow] at hnone
          exact .inr ⟨Function.update_self .., row, hrecovered ▸ hrow,
            hexpired.1, hexpired.2.trans (hdrop other now rfl)⟩
        · simpa [Function.update_of_ne hkey] using h other
      · exact h
    · exact h
  | rotate fid =>
    rw [Op.exec]
    split_ifs
    · intro key
      simpa [recoverFromLogs_apply, Segment.scan, placedFrom] using h key
    · exact h
  | compact fid cutoff => exact absurd rfl (hop fid cutoff)

/-- What a restart rebuilds tracks every segment. -/
theorem Rebuilds.tracks (h : Rebuilds cutoff shard) (fid : Nat) : Tracks flow shard fid cutoff := by
  intro key _ last hlast _
  have hrecovered : recoverFromLogs shard.segments key = last.row := by
    rw [recoverFromLogs_apply, ← stream, hlast, Option.bind_some]
  rcases h key with hsame | ⟨hnone, row, hrow, hpositive, hpast⟩
  · exact .inl (hsame.trans hrecovered)
  · rw [hrecovered, Placed.row, Option.mem_def, Option.ite_none_left_eq_some] at hrow
    cases hrow.2
    exact .inr ⟨hnone, by simp [LogRecord.expired, hpositive, hpast]⟩

end Restart

/-- Until the first compaction after a start, a restart would rebuild the keydir, but for dropped rows
of records that had expired, and that compaction changes no value that a recovery finds. -/
theorem restart_and_first_compaction (flow : FlowStates) (segments : List Segment) (ops : List Op)
    (cutoff : Nat) (hsegments : WellFormed segments)
    (hops : ∀ fid now, Op.compact fid now ∉ ops)
    (hdrops : ∀ key now, Op.dropExpired key now ∈ ops → now ≤ cutoff) :
    let shard := runSteps (Op.exec flow) ops ⟨segments, recoverFromLogs segments⟩
    Rebuilds cutoff shard ∧ ∀ fid now key, flow.stateKey key = false → cutoff ≤ now →
      recoveredValue ((Op.compact fid cutoff).exec flow shard).segments now key =
        recoveredValue shard.segments now key := by
  intro shard
  have hstart : Rebuilds cutoff ⟨segments, recoverFromLogs segments⟩ := fun key => .inl rfl
  obtain ⟨hwell, hrebuilds⟩ : WellFormed shard.segments ∧ Rebuilds cutoff shard := by
    refine foldlRecOn (motive := fun shard => WellFormed shard.segments ∧ Rebuilds cutoff shard)
      ops _ ⟨hsegments, hstart⟩ fun shard h op hmem => ?_
    have hop : ∀ fid now, op ≠ .compact fid now := fun fid now heq => hops fid now (heq ▸ hmem)
    refine ⟨?_, h.2.exec h.1 hop fun key now heq => hdrops key now (heq ▸ hmem)⟩
    rw [Op.exec_segments hop]
    exact h.1.append op
  refine ⟨hrebuilds, fun fid now key hkey hnow => ?_⟩
  have hmeets : (Op.compact fid cutoff).Meets flow shard := hrebuilds.tracks fid
  obtain ⟨hcompacted, hsame⟩ := exec_step hwell hwell hmeets hkey (fun fid now heq => by
    cases heq
    exact hnow) rfl
  rw [recoveredValue_eq hcompacted.increasing, recoveredValue_eq hwell.increasing]
  exact hsame

/-- The row of a put that has expired was dropped. The compaction drops its record and keeps the other
one of the segment, and a recovery finds what it found before. -/
theorem restart_and_first_compaction_dropped :
    let flow : FlowStates := ⟨fun _ => false, fun _ => false⟩
    let shard := runSteps (Op.exec flow)
      [.put [7] [1] 5, .put [8] [2] 0, .dropExpired [7] 9, .rotate 2]
      ⟨[⟨1, []⟩], recoverFromLogs [⟨1, []⟩]⟩
    let compacted := (Op.compact 1 9).exec flow shard
    shard.keydir [7] = none ∧ compacted.segments.map (fun segment => segment.records.length) = [1, 0] ∧
      Rebuilds 9 shard ∧ ∀ now key, 9 ≤ now →
        recoveredValue compacted.segments now key = recoveredValue shard.segments now key := by
  intro flow shard compacted
  obtain ⟨hrebuilds, hvalues⟩ := restart_and_first_compaction flow [⟨1, []⟩]
    [.put [7] [1] 5, .put [8] [2] 0, .dropExpired [7] 9, .rotate 2] 9
    ⟨pairwise_singleton _ _, by simp⟩ (by simp) (by simp)
  exact ⟨rfl, by decide +kernel, hrebuilds, fun now key => hvalues 1 now key rfl⟩

end FerricStore.Store
