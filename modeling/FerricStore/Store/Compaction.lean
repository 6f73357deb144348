import FerricStore.Store.Segment

/-!
# Compaction of a segment

Compaction rewrites a segment with the records that are still needed. A put is kept when the row of
its key points at it and it has not expired. A tombstone is kept while it masks a live record in a
lower segment, and so is an expired put that is the newest record of its key: a catalogue takes the
last such record of each key and resolves it against the lower segments, from the highest down. The
rows that point at kept puts are moved to the new offsets.
-/

namespace FerricStore.Store

open LastWriter (newest)

/-- Which keys hold Flow states, and which of their records the cold catalogue knows. -/
structure FlowStates where
  stateKey : Bytes → Bool
  cold : Placed → Bool

/-- A put that has an expiry, and the cutoff has reached it. -/
def LogRecord.expired (record : LogRecord) (cutoff : Nat) : Bool :=
  decide (0 < record.expireAtMs) && decide (record.expireAtMs ≤ cutoff)

variable (flow : FlowStates) (keydir : Keydir) (cutoff : Nat) (entry : Placed)

def compactionExpiredNewest : Bool :=
  !entry.record.tombstone && entry.record.expired cutoff && !flow.stateKey entry.key &&
    match keydir entry.key with
    | none => true
    | some row => decide (row.fileId = entry.fid) && decide (row.offset = entry.offset)

/-- Records that the catalogue treats as tombstones. -/
def compactionMasking : Bool :=
  entry.record.tombstone || compactionExpiredNewest flow keydir cutoff entry

/-! ## The tombstone catalogue -/

inductive Dependency
  | missing
  | live
  | tombstone
  | expired
  deriving DecidableEq

structure Candidate where
  offset : Nat
  state : Dependency
  resolvedFid : Option Nat
  deriving DecidableEq

abbrev Catalog := Bytes → Option Candidate

def dependencyState (record : LogRecord) (cutoff : Nat) : Dependency :=
  if record.tombstone then .tombstone
  else if record.expireAtMs = 0 then .live
  else if cutoff < record.expireAtMs then .live
  else .expired

/-- The last masking record of each key is its candidate. -/
def recordSource (catalog : Catalog) (entry : Placed) : Catalog :=
  Function.update catalog entry.key (some ⟨entry.offset, .missing, none⟩)

/-- A candidate is resolved by the first lower segment that has its key, and by the last record
there. -/
def observeLower (catalog : Catalog) (entry : Placed) : Catalog :=
  match catalog entry.key with
  | none => catalog
  | some candidate =>
    if candidate.resolvedFid = none ∨ candidate.resolvedFid = some entry.fid then
      Function.update catalog entry.key
        (some ⟨candidate.offset, dependencyState entry.record cutoff, some entry.fid⟩)
    else catalog

variable (segments : List Segment)

/-- The lower segments, from the highest down. -/
def lowerCompactionFiles (fid : Nat) : List Segment :=
  (segments.filter fun segment => decide (segment.fid < fid)).reverse

def resolveCatalog (fid cutoff : Nat) (masking : List Placed) : Catalog :=
  (lowerCompactionFiles segments fid).foldl
    (fun catalog segment => segment.scan.foldl (observeLower cutoff) catalog)
    (masking.foldl recordSource fun _ => none)

/-- A masking record that is the candidate of its key and masks a live record. -/
def neededOffset (catalog : Catalog) (entry : Placed) : Bool :=
  match catalog entry.key with
  | some candidate => decide (candidate.offset = entry.offset) && decide (candidate.state = .live)
  | none => false

/-! ## Planning and publishing -/

structure Shard where
  segments : List Segment
  keydir : Keydir

/-- A put whose row is in the keydir and has not expired. -/
def currentHotEntry : Bool :=
  !entry.record.tombstone &&
    match keydir entry.key with
    | some row =>
      decide (row.fileId = entry.fid) && decide (row.offset = entry.offset) &&
        decide (row.valueSize = entry.record.value.length) &&
        (decide (row.expireAtMs = 0) || decide (cutoff < row.expireAtMs))
    | none => false

/-- A put of a Flow state that sleeps outside of the keydir. -/
def coldEntry : Bool :=
  !entry.record.tombstone && (keydir entry.key).isNone && flow.stateKey entry.key && flow.cold entry

structure CompactionPage where
  live : List Placed
  masking : List Placed
  tombstones : List Placed

def resolveCompactionPage (shard : Shard) (fid cutoff : Nat) (records : List Placed) :
    CompactionPage :=
  let masks := compactionMasking flow shard.keydir cutoff
  let catalog := resolveCatalog shard.segments fid cutoff (records.filter masks)
  let isLive := fun entry => currentHotEntry shard.keydir cutoff entry ||
    coldEntry flow shard.keydir entry
  let needed := fun entry => masks entry && neededOffset catalog entry
  { live := records.filter isLive
    masking := records.filter fun entry => !entry.record.tombstone && needed entry && !isLive entry
    tombstones := records.filter fun entry => entry.record.tombstone && needed entry }

/-- Without tombstones the kept puts are copied as they are listed; with tombstones everything is
copied in the order of the source. -/
def CompactionPage.copied (page : CompactionPage) (records : List Placed) : List Placed :=
  if page.tombstones.isEmpty then page.live ++ page.masking
  else records.filter fun entry =>
    decide (entry ∈ page.live) || decide (entry ∈ page.masking) || decide (entry ∈ page.tombstones)

/-- A row that points at the old place of a record is moved. -/
def relocateExact (key : Bytes) (fid oldOffset newOffset : Nat) : Keydir :=
  match keydir key with
  | some row =>
    if row.fileId = fid ∧ row.offset = oldOffset then
      Function.update keydir key (some { row with offset := newOffset })
    else keydir
  | none => keydir

def updateCompactedLocations (fid : Nat) (plan : List (Placed × Placed)) : Keydir :=
  plan.foldl (fun keydir moved =>
    if moved.1.record.tombstone then keydir
    else relocateExact keydir moved.1.key fid moved.1.offset moved.2.offset) keydir

/-- A segment without kept puts is removed, unless tombstones are needed: then it stays. -/
def compactSegment (shard : Shard) (segment : Segment) (cutoff : Nat) : Shard :=
  let page := resolveCompactionPage flow shard segment.fid cutoff segment.scan
  let copied := page.copied segment.scan
  if page.live.isEmpty && page.masking.isEmpty then
    if page.tombstones.isEmpty then
      { shard with segments := shard.segments.filter fun other => decide (other.fid ≠ segment.fid) }
    else shard
  else
    let records := copied.map Placed.record
    { segments := shard.segments.map fun other =>
        if other.fid = segment.fid then ⟨segment.fid, records⟩ else other
      keydir := updateCompactedLocations shard.keydir segment.fid
        (copied.zip (placedFrom segment.fid 0 records)) }

/-! ## Runs of a shard -/

inductive Op
  | put (key value : Bytes) (expireAtMs : Nat)
  | delete (key : Bytes)
  | dropExpired (key : Bytes) (now : Nat)
  | rotate (fid : Nat)
  | compact (fid cutoff : Nat)

/-- Appends to the active segment, the last one. -/
def appendRecord (record : LogRecord) : List Segment :=
  match segments.getLast? with
  | some active => segments.dropLast ++ [⟨active.fid, active.records ++ [record]⟩]
  | none => segments

/-- The place that the next record gets. -/
def nextPlace (record : LogRecord) : Option Placed :=
  segments.getLast?.map fun active => ⟨active.fid, totalSize active.records, record⟩

def isActive (fid : Nat) : Bool :=
  decide (segments.getLast?.map Segment.fid = some fid)

def Op.exec (op : Op) (shard : Shard) : Shard :=
  match op with
  | .put key value expireAtMs =>
    let record : LogRecord := ⟨key, value, expireAtMs, false⟩
    { segments := appendRecord shard.segments record
      keydir := Function.update shard.keydir key
        ((nextPlace shard.segments record).bind Placed.row) }
  | .delete key =>
    { segments := appendRecord shard.segments ⟨key, [], 0, true⟩
      keydir := Function.update shard.keydir key none }
  | .dropExpired key now =>
    match shard.keydir key with
    | some row =>
      if 0 < row.expireAtMs ∧ row.expireAtMs ≤ now then
        { shard with keydir := Function.update shard.keydir key none }
      else shard
    | none => shard
  | .rotate fid =>
    if shard.segments.all fun segment => decide (segment.fid < fid) then
      { shard with segments := shard.segments ++ [⟨fid, []⟩] }
    else shard
  | .compact fid cutoff =>
    if isActive shard.segments fid then shard
    else
      match shard.segments.find? fun segment => decide (segment.fid = fid) with
      | some segment => compactSegment flow shard segment cutoff
      | none => shard

/-- The segments that the operation leaves when nothing is ever compacted. -/
def Op.append (op : Op) (segments : List Segment) : List Segment :=
  match op with
  | .put key value expireAtMs => appendRecord segments ⟨key, value, expireAtMs, false⟩
  | .delete key => appendRecord segments ⟨key, [], 0, true⟩
  | .rotate fid =>
    if segments.all fun segment => decide (segment.fid < fid) then segments ++ [⟨fid, []⟩]
    else segments
  | .dropExpired _ _ => segments
  | .compact _ _ => segments

/-- The value that a key has at a time after a recovery from the logs. -/
def recoveredValue (now : Nat) (key : Bytes) : Option Bytes :=
  (recoverFromLogs segments key).bind fun row =>
    if 0 < row.expireAtMs ∧ row.expireAtMs ≤ now then none
    else ((segments.flatMap Segment.scan).find? fun entry =>
      decide (entry.fid = row.fileId) && decide (entry.offset = row.offset)).map fun entry =>
        entry.record.value

end FerricStore.Store
