import FerricStore.SegmentLog.Truncate

/-!
# The latest configuration of a log

`config` answers from a cache: the latest configuration entry, or that there is none up to a
watermark. Appends, truncations and trims keep the cache, and an open rebuilds it from what it
decodes: the retained tail of the log, and older payloads of at most 4096 bytes that contain the text
`config`. `latest_config_of_run` is the result: as long as every open decodes the latest configuration
of the log, `config` returns it. A larger payload before the retained tail is the exception.
-/

namespace FerricStore.SegmentLog

open List

/-- The cached answer. -/
inductive Cache (γ : Type) where
  | undefined
  | config (index : Nat) (value : γ)
  | notFound (watermark : Nat)
  deriving DecidableEq, Repr

/-- A log with its trim floor, the records on disk from the segment of the floor on, the end of the
log (one past its last index) and the cache. -/
structure ConfigLog (γ : Type) where
  floor : Nat
  records : List Record
  stop : Option Nat
  cache : Cache γ

/-- The bytes of the text `config`. -/
def configText : Bytes := [99, 111, 110, 102, 105, 103]

/-- `config_from_entry` of an encoded entry. The name of the tag is part of an encoded configuration
entry. -/
structure ConfigDecoder (γ : Type) where
  configOf : Bytes → Option γ
  text : ∀ {entry : Bytes} {value : γ}, configOf entry = some value → configText <:+: entry

variable {γ : Type}

namespace Cache

/-- `cache_latest_config` -/
def latestConfig (cache : Cache γ) (index : Nat) (value : γ) : Cache γ :=
  match cache with
  | .config existing _ => if index < existing then cache else .config index value
  | _ => .config index value

/-- `cache_latest_config_not_found` -/
def latestConfigNotFound (cache : Cache γ) (last : Nat) : Cache γ :=
  match cache with
  | .config _ _ => cache
  | .notFound watermark => .notFound (max watermark last)
  | .undefined => .notFound last

/-- `cache_latest_config_not_found_if_missing` -/
def latestConfigNotFoundIfMissing (cache : Cache γ) : Option Nat → Cache γ
  | none => cache
  | some last =>
    match cache with
    | .undefined => .notFound last
    | _ => cache

end Cache

/-- `config_candidate_payload` -/
def configCandidatePayload (payload : Bytes) : Bool :=
  decide (payload.length ≤ 4096) && decide (configText <:+: payload)

section Operations

variable (decoder : ConfigDecoder γ)

/-- `update_latest_config_from_record` -/
def updateFromRecord (cache : Cache γ) (record : Record) : Cache γ :=
  match decoder.configOf record.entry with
  | some value => cache.latestConfig record.index value
  | none => cache

/-- Records update the cache, one after another. -/
def cacheRecords (cache : Cache γ) (records : List Record) : Cache γ :=
  records.foldl (updateFromRecord decoder) cache

/-- `update_latest_config_from_records` -/
def updateFromRecords (cache : Cache γ) (records : List Record) : Cache γ :=
  if records.any fun record => (decoder.configOf record.entry).isSome then
    cacheRecords decoder cache records
  else
    match lastIndex none records with
    | none => cache
    | some last => cache.latestConfigNotFound last

namespace ConfigLog

variable (s : ConfigLog γ)

/-- `get`: an entry that is not below the floor. -/
def get (index : Nat) : Option Bytes :=
  if index < s.floor then none
  else (s.records.find? fun record => record.index = index).map Record.entry

/-- `config_from_index`: searches backwards, from the index before `stop` to the first one. -/
def configFromIndex (s : ConfigLog γ) (first : Nat) : Nat → Option (Nat × γ)
  | 0 => none
  | index + 1 =>
    if index < first then none
    else
      match (s.get index).bind decoder.configOf with
      | some value => some (index, value)
      | none => s.configFromIndex first index

/-- `first_index`: the first record on disk, or the floor if that is larger. -/
def first : Nat := max (s.records.head?.elim 0 Record.index) s.floor

/-- `config` -/
def config (s : ConfigLog γ) : Option (Nat × γ) :=
  match s.stop with
  | none => none
  | some stop =>
    match s.cache with
    | .config index value =>
      if index < stop then some (index, value) else s.configFromIndex decoder s.first stop
    | .notFound watermark =>
      if stop ≤ watermark + 1 then none else s.configFromIndex decoder s.first stop
    | .undefined => s.configFromIndex decoder s.first stop

/-- What `rebuild_latest_config_cache` caches when it searches the log. -/
def searchCache (stop : Nat) : Cache γ :=
  match s.configFromIndex decoder s.first stop with
  | some (index, value) => .config index value
  | none => .undefined

/-- `rebuild_latest_config_cache` -/
def rebuildCache : Cache γ :=
  match s.stop with
  | none => .undefined
  | some stop =>
    match s.cache with
    | .config index _ => if index < stop then s.cache else s.searchCache decoder stop
    | .notFound watermark =>
      if stop ≤ watermark + 1 then s.cache else s.searchCache decoder stop
    | .undefined => s.searchCache decoder stop

/-- The records that an open keeps in memory. -/
def retainedTail (minEntries : Nat) : List Record :=
  match lastIndex none s.records with
  | none => []
  | some last =>
    (s.records.drop (s.records.length - minEntries)).filter fun record =>
      max (last + 1 - minEntries) s.floor ≤ record.index

/-- The records that an open decodes. -/
def decoded (minEntries : Nat) : List Record :=
  (s.records.filter fun record => configCandidatePayload record.payload) ++
    s.retainedTail minEntries

/-- The cache after an open. -/
def openCache (minEntries : Nat) : Cache γ :=
  (cacheRecords decoder .undefined (s.decoded minEntries)).latestConfigNotFoundIfMissing
    (lastIndex none s.records)

/-- There is a configuration entry at an index that is not trimmed. -/
def ConfigAt (index : Nat) (value : γ) : Prop :=
  s.floor ≤ index ∧
    ∃ record ∈ s.records, record.index = index ∧ decoder.configOf record.entry = some value

end ConfigLog

end Operations

/-- An operation of the log. -/
inductive ConfigOp where
  | append (batch : List Record)
  | truncate (index : Nat)
  | trim (index : Nat)
  | reopen (minEntries : Nat)
  | query

namespace ConfigOp

/-- What an operation does. -/
def apply (recordsPerSegment : Nat) (decoder : ConfigDecoder γ) (s : ConfigLog γ) :
    ConfigOp → ConfigLog γ
  | .append batch =>
    { s with
      records := s.records ++ batch
      stop := (lastIndex none batch).elim s.stop fun last => some (last + 1)
      cache := updateFromRecords decoder s.cache batch }
  | .truncate index =>
    -- an index that is not in the log is refused, unless the log ends before it
    if (∃ record ∈ s.records, record.index = index) ∨ ∀ record ∈ s.records, record.index < index
    then
      let cut := { s with
        records := s.records.filter fun record => record.index < index
        stop := some index }
      { cut with cache := cut.rebuildCache decoder }
    else s
  | .trim index =>
    let floor := max s.floor index
    let cut := { s with
      floor
      records := s.records.filter fun record =>
        floor / recordsPerSegment ≤ segmentOrdinal recordsPerSegment record.index }
    { cut with cache := cut.rebuildCache decoder }
  | .reopen minEntries =>
    { s with
      stop := (lastIndex none s.records).map (· + 1)
      cache := s.openCache decoder minEntries }
  | .query =>
    -- `config` caches what a search finds, and that it finds nothing
    match s.config decoder with
    | some (index, value) => { s with cache := s.cache.latestConfig index value }
    | none =>
      match s.stop with
      | some (last + 1) => { s with cache := s.cache.latestConfigNotFound last }
      | _ => s

/-- An append numbers its records upwards from the end of the log. -/
def Numbered (s : ConfigLog γ) : ConfigOp → Prop
  | .append batch => (batch.Pairwise fun a b => a.index < b.index) ∧
      ∀ record ∈ batch, ∀ stop, s.stop = some stop → stop ≤ record.index
  | _ => True

/-- An open decodes the latest configuration of the log: its payload has at most 4096 bytes, or it is
in the retained tail. -/
def DecodesLatest (decoder : ConfigDecoder γ) (s : ConfigLog γ) : ConfigOp → Prop
  | .reopen minEntries => ∀ record ∈ s.records, s.floor ≤ record.index →
      (decoder.configOf record.entry).isSome →
      (∀ index value, s.ConfigAt decoder index value → index ≤ record.index) →
      record.payload.length ≤ 4096 ∨ record ∈ s.retainedTail minEntries
  | _ => True

end ConfigOp

/-- The logs that operations reach from an empty one when every operation meets a condition. -/
inductive ConfigRun (recordsPerSegment : Nat) (decoder : ConfigDecoder γ)
    (condition : ConfigLog γ → ConfigOp → Prop) : ConfigLog γ → Prop where
  | empty : ConfigRun recordsPerSegment decoder condition ⟨0, [], none, .undefined⟩
  | step {s : ConfigLog γ} (op : ConfigOp) : ConfigRun recordsPerSegment decoder condition s →
      condition s op → ConfigRun recordsPerSegment decoder condition
        (op.apply recordsPerSegment decoder s)

/-! ## The cache over records -/

section Proofs

variable {decoder : ConfigDecoder γ} {records : List Record}

open ConfigOp

variable (cache : Cache γ)

/-- Records without a configuration leave the cache. -/
theorem cacheRecords_none (h : ∀ record ∈ records, decoder.configOf record.entry = none) :
    cacheRecords decoder cache records = cache := by
  induction records with
  | nil => rfl
  | cons record records ih =>
    rw [forall_mem_cons] at h
    rw [cacheRecords, foldl_cons, updateFromRecord, h.1]
    exact ih h.2

/-- No configuration above an index is cached. -/
def Cache.Raised (index : Nat) : Prop :=
  ∀ existing value, cache = .config existing value → existing ≤ index

/-- A configuration is cached, and never below the one that was cached. -/
theorem Cache.latestConfig_eq (index : Nat) (value : γ) :
    ∃ top found, cache.latestConfig index value = .config top found ∧ index ≤ top ∧
      cache.Raised top ∧ (cache = .config top found ∨ (top = index ∧ found = value)) := by
  cases cache with
  | undefined | notFound =>
    exact ⟨index, value, rfl, le_rfl, nofun, .inr ⟨rfl, rfl⟩⟩
  | config existing held =>
    by_cases hlt : index < existing
    · refine ⟨existing, held, if_pos hlt, hlt.le, fun _ _ h => ?_, .inl rfl⟩
      exact (Cache.config.inj h).1 ▸ le_rfl
    · refine ⟨index, value, if_neg hlt, le_rfl, fun _ _ h => ?_, .inr ⟨rfl, rfl⟩⟩
      have := (Cache.config.inj h).1
      omega

/-- Records with a configuration leave their latest one, or a later one that was cached. -/
theorem cacheRecords_some (h : ∃ record ∈ records, decoder.configOf record.entry ≠ none) :
    ∃ top found, cacheRecords decoder cache records = .config top found ∧
      (∀ record ∈ records, decoder.configOf record.entry ≠ none → record.index ≤ top) ∧
      (cache = .config top found ∨
        ∃ record ∈ records, record.index = top ∧ decoder.configOf record.entry = some found) := by
  induction records using reverseRecOn with
  | nil =>
    obtain ⟨_, hmem, _⟩ := h
    exact absurd hmem not_mem_nil
  | append_singleton before record ih =>
    have hlater : ∀ {top found}, (cache = .config top found ∨ ∃ earlier ∈ before,
        earlier.index = top ∧ decoder.configOf earlier.entry = some found) →
        cache = .config top found ∨ ∃ earlier ∈ before ++ [record],
          earlier.index = top ∧ decoder.configOf earlier.entry = some found :=
      fun hfrom => hfrom.imp_right fun ⟨earlier, hmem, h⟩ => ⟨earlier, mem_append_left _ hmem, h⟩
    rw [cacheRecords, foldl_append, foldl_cons, foldl_nil, ← cacheRecords, updateFromRecord]
    cases hvalue : decoder.configOf record.entry with
    | none =>
      have hnone : ¬decoder.configOf record.entry ≠ none := not_not.mpr hvalue
      simp only [mem_append, mem_singleton, or_and_right, exists_or, exists_eq_left, hnone,
        or_false] at h
      obtain ⟨top, found, heq, hle, hfrom⟩ := ih h
      refine ⟨top, found, heq, fun other hmem hne => ?_, hlater hfrom⟩
      rcases mem_append.mp hmem with hmem | hmem
      · exact hle other hmem hne
      · rw [mem_singleton.mp hmem] at hne
        exact absurd hvalue hne
    | some value =>
      obtain ⟨top, found, heq, hindex, hraised, hfrom⟩ :=
        (cacheRecords decoder cache before).latestConfig_eq record.index value
      refine ⟨top, found, heq, fun other hmem hne => ?_, ?_⟩
      · rcases mem_append.mp hmem with hmem | hmem
        · obtain ⟨mid, held, hmid, hle, _⟩ := ih ⟨other, hmem, hne⟩
          exact (hle other hmem hne).trans (hraised mid held hmid)
        · rw [mem_singleton.mp hmem]
          exact hindex
      · rcases hfrom with hold | ⟨rfl, rfl⟩
        · by_cases hbefore : ∃ earlier ∈ before, decoder.configOf earlier.entry ≠ none
          · obtain ⟨mid, held, hmid, _, hfrom⟩ := ih hbefore
            obtain ⟨rfl, rfl⟩ := Cache.config.inj (hmid.symm.trans hold)
            exact hlater hfrom
          · rw [cacheRecords_none _ fun earlier hmem =>
              not_not.mp fun hne => hbefore ⟨earlier, hmem, hne⟩] at hold
            exact .inl hold
        · exact .inr ⟨record, by simp, rfl, hvalue⟩

/-! ## The search -/

/-- The log is in order and ends at its end. -/
structure ConfigLog.Ordered (s : ConfigLog γ) : Prop where
  sorted : s.records.Pairwise fun a b => a.index < b.index
  below : ∀ record ∈ s.records, ∃ stop, s.stop = some stop ∧ record.index < stop

variable {index : Nat} {value : γ} {s : ConfigLog γ}

/-- `get` reads the configuration entries of the log. -/
theorem ConfigLog.get_bind_eq_some (h : s.Ordered) :
    (s.get index).bind decoder.configOf = some value ↔ s.ConfigAt decoder index value := by
  rw [ConfigLog.get]
  by_cases hfloor : index < s.floor
  · rw [if_pos hfloor]
    exact ⟨nofun, fun h => absurd h.1 (by omega)⟩
  · rw [if_neg hfloor, Option.bind_eq_some_iff]
    constructor
    · rintro ⟨entry, hentry, hvalue⟩
      obtain ⟨record, hfind, rfl⟩ := Option.map_eq_some_iff.mp hentry
      have hindex := find?_some hfind
      exact ⟨by omega, record, mem_of_find?_eq_some hfind, by simpa using hindex, hvalue⟩
    · rintro ⟨_, record, hmem, rfl, hvalue⟩
      refine ⟨record.entry, Option.map_eq_some_iff.mpr ⟨record, ?_, rfl⟩, hvalue⟩
      cases hfind : s.records.find? fun other => other.index = record.index with
      | none => exact absurd (find?_eq_none.mp hfind record hmem) (by simp)
      | some other =>
        have hindex : other.index = record.index := by simpa using find?_some hfind
        rw [inj_on_of_nodup_map (pairwise_map.mpr (h.sorted.imp ne_of_lt))
          (mem_of_find?_eq_some hfind) hmem hindex]

/-- No record is before the first index. -/
theorem ConfigLog.first_le (h : s.Ordered)
    (hat : s.ConfigAt decoder index value) : s.first ≤ index := by
  obtain ⟨hfloor, record, hmem, rfl, _⟩ := hat
  refine max_le ?_ hfloor
  have hsorted := h.sorted
  cases hrecords : s.records with
  | nil => exact Nat.zero_le _
  | cons head rest =>
    rw [hrecords] at hmem hsorted
    rcases mem_cons.mp hmem with rfl | hmem
    · exact le_rfl
    · exact ((pairwise_cons.mp hsorted).1 record hmem).le

/-- The search finds the last configuration entry before its end. -/
theorem ConfigLog.configFromIndex_eq (decoder : ConfigDecoder γ) (h : s.Ordered) (stop : Nat) :
    (∀ index value, s.configFromIndex decoder s.first stop = some (index, value) →
      index < stop ∧ s.ConfigAt decoder index value ∧
        ∀ other found, s.ConfigAt decoder other found → other < stop → other ≤ index) ∧
    (s.configFromIndex decoder s.first stop = none →
      ∀ index value, s.ConfigAt decoder index value → stop ≤ index) := by
  induction stop with
  | zero =>
    exact ⟨nofun, fun _ _ _ _ => Nat.zero_le _⟩
  | succ index ih =>
    rw [ConfigLog.configFromIndex]
    by_cases hfirst : index < s.first
    · rw [if_pos hfirst]
      refine ⟨nofun, fun _ other value hat => ?_⟩
      have := s.first_le h hat
      omega
    · rw [if_neg hfirst]
      cases hget : (s.get index).bind decoder.configOf with
      | some value =>
        refine ⟨fun other found heq => ?_, nofun⟩
        cases heq
        exact ⟨Nat.lt_succ_self _, (s.get_bind_eq_some h).mp hget,
          fun _ _ _ hlt => Nat.le_of_lt_succ hlt⟩
      | none =>
        -- nothing at this index: what is before the end is before this index
        have hskip : ∀ other found, s.ConfigAt decoder other found → other ≠ index := by
          rintro other found hat rfl
          rw [(s.get_bind_eq_some h).mpr hat] at hget
          cases hget
        refine ⟨fun top value heq => ?_, fun heq other value hat => ?_⟩
        · obtain ⟨hlt, hat, hlatest⟩ := ih.1 top value heq
          refine ⟨hlt.trans (Nat.lt_succ_self _), hat, fun other found hother hlt' => ?_⟩
          have := hskip other found hother
          exact hlatest other found hother (by omega)
        · have := ih.2 heq other value hat
          have := hskip other value hat
          omega

/-! ## What the cache knows -/

/-- A cached configuration is the latest one of the log, and a cached miss is one of the whole log. -/
def Cache.Covers (decoder : ConfigDecoder γ) (s : ConfigLog γ) : Cache γ → Prop
  | .config index value => (∃ stop, s.stop = some stop ∧ index < stop) ∧
      (s.floor ≤ index → s.ConfigAt decoder index value) ∧
      ∀ other found, s.ConfigAt decoder other found → other ≤ index
  | .notFound watermark => (∀ stop, s.stop = some stop → stop ≤ watermark + 1) ∧
      ∀ index value, ¬s.ConfigAt decoder index value
  | .undefined => ∀ index value, ¬s.ConfigAt decoder index value

/-- The log is in order, and the cache covers it. -/
structure ConfigLog.Covered (decoder : ConfigDecoder γ) (s : ConfigLog γ) : Prop where
  ordered : s.Ordered
  cache : s.cache.Covers decoder s

/-- Configuration entries are before the end of the log. -/
theorem ConfigLog.Ordered.lt_stop (h : s.Ordered) {index stop : Nat}
    (hat : s.ConfigAt decoder index value) (hstop : s.stop = some stop) : index < stop := by
  obtain ⟨_, record, hmem, rfl, _⟩ := hat
  obtain ⟨stop', hstop', hlt⟩ := h.below record hmem
  rw [hstop] at hstop'
  exact (Option.some.inj hstop') ▸ hlt

/-- A log without an end has no configuration. -/
theorem ConfigLog.Ordered.no_config (h : s.Ordered) (hstop : s.stop = none)
    (index : Nat) (value : γ) : ¬s.ConfigAt decoder index value := by
  rintro ⟨_, record, hmem, _, _⟩
  obtain ⟨_, hsome, _⟩ := h.below record hmem
  rw [hstop] at hsome
  cases hsome

section

variable (decoder : ConfigDecoder γ) (h : s.Ordered) {stop : Nat} (hstop : s.stop = some stop)
include h hstop

/-- A search up to the end of the log covers it. -/
theorem ConfigLog.search_covers :
    (∀ index value, s.configFromIndex decoder s.first stop = some (index, value) →
      Cache.Covers decoder s (.config index value)) ∧
    (s.configFromIndex decoder s.first stop = none →
      ∀ index value, ¬s.ConfigAt decoder index value) := by
  obtain ⟨hsome, hnone⟩ := ConfigLog.configFromIndex_eq decoder h stop
  refine ⟨fun index value heq => ?_, fun heq index value hat => ?_⟩
  · obtain ⟨hlt, hat, hlatest⟩ := hsome index value heq
    exact ⟨⟨stop, hstop, hlt⟩, fun _ => hat, fun other found hother =>
      hlatest other found hother (h.lt_stop hother hstop)⟩
  · have := hnone heq index value hat
    have := h.lt_stop hat hstop
    omega

/-- What is cached after a search covers the log. -/
theorem ConfigLog.searchCache_covers : (s.searchCache decoder stop).Covers decoder s := by
  obtain ⟨hsome, hnone⟩ := ConfigLog.search_covers decoder h hstop
  rw [ConfigLog.searchCache]
  cases hsearch : s.configFromIndex decoder s.first stop with
  | none => exact hnone hsearch
  | some found => exact hsome found.1 found.2 hsearch

end

/-- `config` returns what covers the log. -/
theorem ConfigLog.config_covers (h : s.Ordered) (hcache : s.cache.Covers decoder s) :
    (∀ index value, s.config decoder = some (index, value) →
      Cache.Covers decoder s (.config index value)) ∧
    (s.config decoder = none → ∀ index value, ¬s.ConfigAt decoder index value) := by
  rw [ConfigLog.config]
  cases hstop : s.stop with
  | none => exact ⟨nofun, fun _ => h.no_config hstop⟩
  | some stop =>
    have hsearch := ConfigLog.search_covers decoder h hstop
    cases hvalue : s.cache with
    | undefined => exact hsearch
    | notFound watermark =>
      rw [hvalue] at hcache
      show (∀ _ _, ite _ _ _ = _ → _) ∧ (ite _ _ _ = _ → _)
      rw [if_pos (hcache.1 stop hstop)]
      exact ⟨nofun, fun _ => hcache.2⟩
    | config index value =>
      rw [hvalue] at hcache
      obtain ⟨stop', hstop', hlt⟩ := hcache.1
      obtain rfl : stop = stop' := Option.some.inj (hstop.symm.trans hstop')
      show (∀ _ _, ite _ _ _ = _ → _) ∧ (ite _ _ _ = _ → _)
      rw [if_pos hlt]
      refine ⟨fun _ _ heq => ?_, nofun⟩
      cases heq
      exact hcache

/-! ## The operations keep what the cache knows -/

/-- A log that lost configuration entries only below its floor or from its end on. -/
theorem ConfigLog.rebuild_covers {s cut : ConfigLog γ} (hcache : s.cache.Covers decoder s)
    (hcut : cut.Ordered) (hsame : cut.cache = s.cache) (hfloor : s.floor ≤ cut.floor)
    (hold : ∀ index value, cut.ConfigAt decoder index value → s.ConfigAt decoder index value)
    (hkept : ∀ index value stop, s.ConfigAt decoder index value → cut.floor ≤ index →
      cut.stop = some stop → index < stop → cut.ConfigAt decoder index value) :
    (cut.rebuildCache decoder).Covers decoder cut := by
  rw [ConfigLog.rebuildCache]
  cases hstop : cut.stop with
  | none => exact hcut.no_config hstop
  | some stop =>
    have hsearch := ConfigLog.searchCache_covers decoder hcut hstop
    rw [hsame]
    cases hvalue : s.cache with
    | undefined => exact hsearch
    | notFound watermark =>
      rw [hvalue] at hcache
      show (ite _ _ _ : Cache γ).Covers decoder cut
      split
      · rename_i hle
        refine ⟨fun stop' hstop' => ?_, fun index value hat =>
          hcache.2 index value (hold index value hat)⟩
        exact Option.some.inj (hstop.symm.trans hstop') ▸ hle
      · exact hsearch
    | config index value =>
      rw [hvalue] at hcache
      show (ite _ _ _ : Cache γ).Covers decoder cut
      split
      · rename_i hlt
        refine ⟨⟨stop, hstop, hlt⟩, fun hle => ?_, fun other found hat =>
          hcache.2.2 other found (hold other found hat)⟩
        exact hkept index value stop (hcache.2.1 (hfloor.trans hle)) hle hstop hlt
      · exact hsearch

/-- The last index of records is that of the last one. -/
theorem lastIndex_eq : lastIndex none records = records.getLast?.map Record.index := by
  induction records using reverseRecOn with
  | nil => rfl
  | append_singleton before final _ =>
    rw [lastIndex, foldl_append, getLast?_concat]
    rfl

/-- The last index of records in order. -/
theorem le_lastIndex (h : records.Pairwise fun a b => a.index < b.index) :
    ∀ record ∈ records, ∃ last, lastIndex none records = some last ∧ record.index ≤ last := by
  intro record hmem
  have hne := ne_nil_of_mem hmem
  rw [lastIndex_eq, getLast?_eq_some_getLast hne]
  exact ⟨_, rfl, (h.imp le_of_lt).rel_getLast hmem⟩

/-- The last index of no records. -/
theorem lastIndex_eq_none : lastIndex none records = none ↔ records = [] := by
  rw [lastIndex_eq, Option.map_eq_none_iff, getLast?_eq_none_iff]

section Append

variable {batch : List Record} {perSegment : Nat}

/-- The configuration entries after an append. -/
theorem configAt_append : ((append batch).apply perSegment decoder s).ConfigAt decoder index value ↔
      s.ConfigAt decoder index value ∨ (s.floor ≤ index ∧ ∃ record ∈ batch, record.index = index ∧
        decoder.configOf record.entry = some value) := by
  simp [ConfigLog.ConfigAt, apply, or_and_right, exists_or, and_or_left]

section

variable (hnumbered : (append batch).Numbered s)
include hnumbered

/-- A batch that is not empty ends at or after the end of the log. -/
theorem stop_le_lastIndex {last stop : Nat}
    (hlast : lastIndex none batch = some last) (hstop : s.stop = some stop) : stop ≤ last := by
  have hne : batch ≠ [] := fun hnil => by simp [lastIndex_eq_none.mpr hnil] at hlast
  obtain ⟨new, hnew⟩ := exists_mem_of_ne_nil _ hne
  obtain ⟨last', hlast', hle⟩ := le_lastIndex hnumbered.1 new hnew
  obtain rfl : last = last' := Option.some.inj (hlast.symm.trans hlast')
  exact (hnumbered.2 new hnew stop hstop).trans hle

/-- The log after an append is in order. -/
theorem ConfigLog.Ordered.append (decoder : ConfigDecoder γ) (h : s.Ordered) :
    ((append batch).apply perSegment decoder s).Ordered := by
  obtain ⟨hsorted, hfrom⟩ := hnumbered
  refine ⟨pairwise_append.mpr ⟨h.sorted, hsorted, fun old hold new hnew => ?_⟩,
    fun record hmem => ?_⟩
  · obtain ⟨stop, hstop, hlt⟩ := h.below old hold
    exact hlt.trans_le (hfrom new hnew stop hstop)
  · simp only [apply]
    cases hlast : lastIndex none batch with
    | none =>
      rw [lastIndex_eq_none] at hlast
      subst hlast
      refine h.below record ?_
      simpa [apply] using hmem
    | some last =>
      refine ⟨last + 1, rfl, ?_⟩
      rcases mem_append.mp hmem with hold | hnew
      · -- an old record is before the new ones
        obtain ⟨stop, hstop, hlt⟩ := h.below record hold
        have := stop_le_lastIndex ⟨hsorted, hfrom⟩ hlast hstop
        omega
      · obtain ⟨last', hlast', hle⟩ := le_lastIndex hsorted record hnew
        obtain rfl : last = last' := Option.some.inj (hlast.symm.trans hlast')
        omega

/-- A batch with a configuration replaces the cached answer. -/
theorem covers_append_config (h : s.Ordered) (hcache : s.cache.Covers decoder s)
    (hconfig : ∃ record ∈ batch, decoder.configOf record.entry ≠ none) :
    (cacheRecords decoder s.cache batch).Covers decoder
      ((append batch).apply perSegment decoder s) := by
  have hordered : ((append batch).apply perSegment decoder s).Ordered := h.append hnumbered decoder
  obtain ⟨top, found, heq, hle, hsource⟩ := cacheRecords_some s.cache hconfig
  obtain ⟨new, hnew, hne⟩ := hconfig
  have hfrom : ∃ record ∈ batch, record.index = top ∧
      decoder.configOf record.entry = some found := by
    refine hsource.resolve_left fun hold => ?_
    rw [hold] at hcache
    obtain ⟨stop, hstop, hlt⟩ := hcache.1
    have := hnumbered.2 new hnew stop hstop
    have := hle new hnew hne
    omega
  rw [heq]
  refine ⟨?_, fun hfloor => ?_, fun other value hat => ?_⟩
  · obtain ⟨record, hmem, rfl, _⟩ := hfrom
    exact hordered.below record (mem_append_right _ hmem)
  · exact configAt_append.mpr (.inr ⟨hfloor, hfrom⟩)
  · rcases configAt_append.mp hat with hold | ⟨_, record, hmem, rfl, hvalue⟩
    · obtain ⟨_, record, hmem, rfl, _⟩ := hold
      obtain ⟨stop, hstop, hlt⟩ := h.below record hmem
      have := hnumbered.2 new hnew stop hstop
      have := hle new hnew hne
      omega
    · exact hle record hmem (by simp [hvalue])

/-- An append covers the log. -/
theorem covers_append (h : s.Ordered) (hcache : s.cache.Covers decoder s) :
    (updateFromRecords decoder s.cache batch).Covers decoder
      ((append batch).apply perSegment decoder s) := by
  rw [updateFromRecords]
  by_cases hconfig : ∃ record ∈ batch, decoder.configOf record.entry ≠ none
  · rw [if_pos (by simpa [any_eq_true, Option.isSome_iff_ne_none] using hconfig)]
    exact covers_append_config hnumbered h hcache hconfig
  · rw [if_neg (by simpa [any_eq_true, Option.isSome_iff_ne_none] using hconfig)]
    -- the configuration entries stay the same
    have hsame : ∀ index value, ((append batch).apply perSegment decoder s).ConfigAt
        decoder index value ↔ s.ConfigAt decoder index value := fun index value => by
      refine configAt_append.trans (or_iff_left ?_)
      rintro ⟨_, record, hmem, _, hvalue⟩
      exact hconfig ⟨record, hmem, by simp [hvalue]⟩
    cases hlast : lastIndex none batch with
    | none =>
      rw [lastIndex_eq_none] at hlast
      subst hlast
      have hid : (append []).apply perSegment decoder s = s := by
        simp [apply, updateFromRecords, lastIndex]
      rw [hid]
      exact hcache
    | some last =>
      have hstop : ((append batch).apply perSegment decoder s).stop = some (last + 1) := by
        simp [apply, hlast]
      show (s.cache.latestConfigNotFound last).Covers decoder _
      cases hvalue : s.cache with
      | undefined =>
        rw [hvalue] at hcache
        refine ⟨fun stop hstop' => ?_, fun index value hat =>
          hcache index value ((hsame index value).mp hat)⟩
        exact (Option.some.inj (hstop.symm.trans hstop')).ge
      | notFound watermark =>
        rw [hvalue] at hcache
        refine ⟨fun stop hstop' => ?_, fun index value hat =>
          hcache.2 index value ((hsame index value).mp hat)⟩
        have := Option.some.inj (hstop.symm.trans hstop')
        omega
      | config index value =>
        rw [hvalue] at hcache
        obtain ⟨⟨stop, hold, hlt⟩, hat, hlatest⟩ := hcache
        refine ⟨⟨last + 1, hstop, ?_⟩, fun hfloor => (hsame _ _).mpr (hat hfloor),
          fun other found hother => hlatest other found ((hsame _ _).mp hother)⟩
        have := stop_le_lastIndex hnumbered hlast hold
        omega

end

end Append

section Cuts

variable {perSegment : Nat}

/-- What is kept of the log is in order. -/
theorem ConfigLog.Ordered.filter (h : s.Ordered) (keep : Record → Bool) {cut : ConfigLog γ}
    (hrecords : cut.records = s.records.filter keep)
    (hstop : ∀ record ∈ cut.records, ∃ stop, cut.stop = some stop ∧ record.index < stop) :
    cut.Ordered :=
  ⟨hrecords ▸ h.sorted.filter _, hstop⟩

section

variable (h : s.Ordered) (hcache : s.cache.Covers decoder s)
include h hcache

/-- A truncation keeps the order and what the cache knows. -/
theorem covers_truncate (index : Nat) :
    ((truncate index).apply perSegment decoder s).Covered decoder := by
  simp only [apply]
  split
  · have hordered : ConfigLog.Ordered { s with
        records := s.records.filter fun record => record.index < index
        stop := some index } := by
      refine h.filter _ rfl fun record hmem => ⟨index, rfl, ?_⟩
      simpa using (mem_filter.mp hmem).2
    refine ⟨⟨hordered.sorted, hordered.below⟩, ?_⟩
    refine ConfigLog.rebuild_covers hcache hordered rfl le_rfl ?_ ?_
    · rintro other value ⟨hfloor, record, hmem, hindex, hvalue⟩
      exact ⟨hfloor, record, (mem_filter.mp hmem).1, hindex, hvalue⟩
    · rintro other value stop ⟨_, record, hmem, rfl, hvalue⟩ hfloor hstop hlt
      obtain rfl : index = stop := Option.some.inj hstop
      exact ⟨hfloor, record, mem_filter.mpr ⟨hmem, by simpa using hlt⟩, rfl, hvalue⟩
  · exact ⟨h, hcache⟩

/-- A trim keeps the order and what the cache knows. -/
theorem covers_trim (index : Nat) : ((trim index).apply perSegment decoder s).Covered decoder := by
  have hordered : ConfigLog.Ordered { s with
      floor := max s.floor index
      records := s.records.filter fun record => max s.floor index / perSegment ≤
        segmentOrdinal perSegment record.index } :=
    h.filter _ rfl fun record hmem => h.below record (mem_filter.mp hmem).1
  refine ⟨⟨hordered.sorted, hordered.below⟩, ?_⟩
  refine ConfigLog.rebuild_covers hcache hordered rfl (le_max_left _ _) ?_ ?_
  · rintro other value ⟨hfloor, record, hmem, hindex, hvalue⟩
    exact ⟨(le_max_left _ _).trans hfloor, record, (mem_filter.mp hmem).1, hindex, hvalue⟩
  · rintro other value stop ⟨_, record, hmem, rfl, hvalue⟩ hfloor _ _
    -- the segment of an index that is not trimmed is kept
    have hsegment : max s.floor index / perSegment ≤
        segmentOrdinal perSegment record.index := Nat.div_le_div_right hfloor
    exact ⟨hfloor, record, mem_filter.mpr ⟨hmem, decide_eq_true hsegment⟩, rfl, hvalue⟩

/-- A query keeps the order and what the cache knows. -/
theorem covers_query : (query.apply perSegment decoder s).Covered decoder := by
  obtain ⟨hsome, hnone⟩ := s.config_covers h hcache
  cases hconfig : s.config decoder with
  | some found =>
    have happly : query.apply perSegment decoder s =
        { s with cache := s.cache.latestConfig found.1 found.2 } := by
      simp [apply, hconfig]
    obtain ⟨top, value, heq, _, _, hfrom⟩ := s.cache.latestConfig_eq found.1 found.2
    rw [happly, heq]
    refine ⟨⟨h.sorted, h.below⟩, ?_⟩
    rcases hfrom with hold | ⟨rfl, rfl⟩
    · rw [hold] at hcache
      exact hcache
    · exact hsome _ _ hconfig
  | none =>
    have hnothing := hnone hconfig
    rcases hstop : s.stop with _ | _ | last
    iterate 2
      have happly : query.apply perSegment decoder s = s := by
        simp [apply, hconfig, hstop]
      exact happly.symm ▸ ⟨h, hcache⟩
    · have happly : query.apply perSegment decoder s =
          { s with cache := s.cache.latestConfigNotFound last } := by
        simp [apply, hconfig, hstop]
      have hend : ∀ stop, s.stop = some stop → stop = last + 1 := fun stop hstop' =>
        Option.some.inj (hstop'.symm.trans hstop)
      rw [happly]
      refine ⟨⟨h.sorted, h.below⟩, ?_⟩
      show (s.cache.latestConfigNotFound last).Covers decoder s
      cases hvalue : s.cache with
      | config index value =>
        rw [hvalue] at hcache
        exact hcache
      | notFound watermark =>
        refine ⟨fun stop hstop' => ?_, hnothing⟩
        have := hend stop hstop'
        omega
      | undefined => exact ⟨fun stop hstop' => (hend stop hstop').le, hnothing⟩

end

variable {minEntries : Nat}

/-- The retained tail is a part of the log. -/
theorem mem_of_mem_decoded {record : Record}
    (h : record ∈ s.decoded minEntries) : record ∈ s.records := by
  rcases mem_append.mp h with hscan | htail
  · exact (mem_filter.mp hscan).1
  · rw [ConfigLog.retainedTail] at htail
    cases hlast : lastIndex none s.records with
    | none => simp [hlast] at htail
    | some last =>
      simp only [hlast] at htail
      exact mem_of_mem_drop (mem_filter.mp htail).1

section

variable (h : s.Ordered) (hlatest : (reopen minEntries).DecodesLatest decoder s)
include h hlatest

/-- The latest configuration of the log is decoded. -/
theorem exists_decoded (hat : s.ConfigAt decoder index value) :
    ∃ record ∈ s.decoded minEntries, decoder.configOf record.entry ≠ none ∧
      index ≤ record.index := by
  have ⟨_, record, hmem, _, _⟩ := hat
  obtain ⟨stop, hstop, _⟩ := h.below record hmem
  -- a search of the log would find the latest one
  cases hsearch : s.configFromIndex decoder s.first stop with
  | none => exact absurd hat ((ConfigLog.search_covers decoder h hstop).2 hsearch index value)
  | some found =>
    obtain ⟨_, hfound, _⟩ := (ConfigLog.configFromIndex_eq decoder h stop).1 found.1 found.2 hsearch
    obtain ⟨_, _, hmax⟩ := (ConfigLog.search_covers decoder h hstop).1 found.1 found.2 hsearch
    obtain ⟨hfloor, top, htop, hindex, hvalue⟩ := hfound
    rw [← hindex] at hfloor hmax
    have hseen := hlatest top htop hfloor (by simp [hvalue]) hmax
    refine ⟨top, mem_append.mpr (hseen.imp (fun hsmall => ?_) id), by simp [hvalue],
      hmax index value hat⟩
    have hinfix : configText <:+: top.payload := (decoder.text hvalue).trans
      (List.IsSuffix.isInfix ⟨131 :: 104 :: 2 :: termInteger top.index, rfl⟩)
    exact mem_filter.mpr ⟨htop, by simp [configCandidatePayload, hsmall, hinfix]⟩

/-- An open that decodes the latest configuration covers the log. -/
theorem covers_reopen : ((reopen minEntries).apply perSegment decoder s).Covered decoder := by
  have hbelow : ∀ record ∈ s.records, ∃ stop,
      (lastIndex none s.records).map (· + 1) = some stop ∧ record.index < stop := by
    intro record hmem
    obtain ⟨last, hlast, hle⟩ := le_lastIndex h.sorted record hmem
    exact ⟨last + 1, by rw [hlast]; rfl, Nat.lt_succ_of_le hle⟩
  refine ⟨⟨h.sorted, hbelow⟩, ?_⟩
  show (s.openCache decoder minEntries).Covers decoder _
  rw [ConfigLog.openCache]
  by_cases hconfig : ∃ record ∈ s.decoded minEntries, decoder.configOf record.entry ≠ none
  · obtain ⟨top, found, heq, hle, hsource⟩ := cacheRecords_some .undefined hconfig
    obtain ⟨record, hmem, rfl, hvalue⟩ := hsource.resolve_left nofun
    have hkeep : (Cache.config record.index found).latestConfigNotFoundIfMissing
        (lastIndex none s.records) = .config record.index found := by
      cases lastIndex none s.records <;> rfl
    rw [heq, hkeep]
    refine ⟨hbelow record (mem_of_mem_decoded hmem), fun hfloor =>
      ⟨hfloor, record, mem_of_mem_decoded hmem, rfl, hvalue⟩, fun other value hat => ?_⟩
    obtain ⟨top, htop, hsome, hother⟩ := exists_decoded h hlatest hat
    exact hother.trans (hle top htop hsome)
  · have hnothing : ∀ index value, ¬s.ConfigAt decoder index value := fun index value hat => by
      obtain ⟨top, htop, hsome, _⟩ := exists_decoded h hlatest hat
      exact hconfig ⟨top, htop, hsome⟩
    rw [cacheRecords_none _ fun record hmem =>
      not_not.mp fun hne => hconfig ⟨record, hmem, hne⟩]
    cases hlast : lastIndex none s.records with
    | none => exact hnothing
    | some last =>
      refine ⟨fun stop hstop => ?_, hnothing⟩
      simp only [apply, hlast, Option.map_some, Option.some.injEq] at hstop
      exact hstop.ge

end

end Cuts

/-! ## Runs -/

/-- Every operation keeps the order and what the cache knows. -/
theorem covers_apply {perSegment : Nat} (h : s.Ordered)
    (hcache : s.cache.Covers decoder s) {op : ConfigOp} (hnumbered : op.Numbered s)
    (hlatest : op.DecodesLatest decoder s) :
    (op.apply perSegment decoder s).Covered decoder := by
  cases op with
  | append batch => exact ⟨h.append hnumbered decoder, covers_append hnumbered h hcache⟩
  | truncate index => exact covers_truncate h hcache index
  | trim index => exact covers_trim h hcache index
  | reopen minEntries => exact covers_reopen h hlatest
  | query => exact covers_query h hcache

/-- In every run whose opens decode the latest configuration, the log is in order and the cache covers
it. -/
theorem ConfigRun.covers {perSegment : Nat} (h : ConfigRun perSegment decoder
      (fun s op => op.Numbered s ∧ op.DecodesLatest decoder s) s) :
    s.Covered decoder := by
  induction h with
  | empty => exact ⟨⟨List.Pairwise.nil, by simp⟩, by simp [Cache.Covers, ConfigLog.ConfigAt]⟩
  | step op _ hcondition ih => exact covers_apply ih.1 ih.2 hcondition.1 hcondition.2

/-- In every run whose opens decode the latest configuration, `config` returns the configuration entry
of the log with the highest index whenever the log has one. -/
theorem latest_config_of_run {s : ConfigLog γ} {recordsPerSegment : Nat}
    (h : ConfigRun recordsPerSegment decoder
      (fun s op => op.Numbered s ∧ op.DecodesLatest decoder s) s)
    {index : Nat} {value : γ} (hat : s.ConfigAt decoder index value) :
    ∃ top latest, s.config decoder = some (top, latest) ∧ s.ConfigAt decoder top latest ∧
      ∀ other found, s.ConfigAt decoder other found → other ≤ top := by
  obtain ⟨hordered, hcache⟩ := h.covers
  obtain ⟨hsome, hnone⟩ := s.config_covers hordered hcache
  cases hconfig : s.config decoder with
  | none => exact absurd hat (hnone hconfig index value)
  | some found =>
    obtain ⟨_, hfound, hmax⟩ := hsome found.1 found.2 hconfig
    exact ⟨found.1, found.2, rfl, hfound (hat.1.trans (hmax index value hat)), hmax⟩

end Proofs

/-- A decoder of entries that start with the text `config`. -/
def textDecoder : ConfigDecoder Unit where
  configOf entry := if entry.take 6 = configText then some () else none
  text {entry} {_} h := by
    have htake : entry.take 6 = configText := by
      by_contra hne
      simp [hne] at h
    exact htake ▸ (List.take_prefix 6 entry).isInfix

/-- A configuration is found after an open that does not retain it. -/
theorem latest_config_of_run_reopened :
    let batch : List Record := [⟨0, configText⟩, ⟨1, [7]⟩]
    let s : ConfigLog Unit := (ConfigOp.reopen 1).apply 4 textDecoder
      ((ConfigOp.append batch).apply 4 textDecoder ⟨0, [], none, .undefined⟩)
    s.retainedTail 1 = [⟨1, [7]⟩] ∧ ∃ top latest, s.config textDecoder = some (top, latest) ∧
        s.ConfigAt textDecoder top latest ∧
        ∀ other found, s.ConfigAt textDecoder other found → other ≤ top := by
  intro batch s
  have hsmall : ∀ record ∈ batch, record.payload.length ≤ 4096 := by decide +kernel
  have hrun : ConfigRun 4 textDecoder
      (fun s op => op.Numbered s ∧ op.DecodesLatest textDecoder s) s :=
    .step (.reopen 1) (.step (.append batch) .empty ⟨⟨by decide, nofun⟩, trivial⟩)
      ⟨trivial, fun record hmem _ _ _ => .inl (hsmall record hmem)⟩
  exact ⟨by decide +kernel,
    latest_config_of_run hrun ⟨le_rfl, ⟨0, configText⟩, mem_cons_self, rfl, rfl⟩⟩

/-- The configuration of a record of more than 4096 bytes is lost by an open that retains only the
record after it. -/
theorem open_loses_large_config :
    ∃ s : ConfigLog Unit, ConfigRun 4 textDecoder (fun s op => op.Numbered s) s ∧
      s.ConfigAt textDecoder 0 () ∧ s.config textDecoder = none := by
  let large : Record := ⟨0, configText ++ replicate 4096 0⟩
  let batch : List Record := [large, ⟨1, [7]⟩]
  refine ⟨_, .step (.reopen 1) (.step (.append batch) .empty ?_) trivial, ?_, ?_⟩
  · exact ⟨by decide +kernel, nofun⟩
  · exact ⟨le_rfl, large, mem_cons_self, rfl, by decide +kernel⟩
  · decide +kernel

end FerricStore.SegmentLog
