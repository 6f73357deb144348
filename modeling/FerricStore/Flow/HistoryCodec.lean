import FerricStore.Flow.Primitives

/-!
# History snapshots of a Flow

A history entry is stored without the identity of its flow and without the fields that a reader can
fill in: counters that are zero, times equal to the time of the event, empty binaries. Flags say which
fields follow. The Rust encoder writes what is stored, an Elixir encoder is its reference, and an
Elixir decoder reads a snapshot back that encodes to the stored bytes again.
-/

namespace FerricStore.Flow

open Option List Elixir

/-- A history snapshot, in the order of `encode_history_snapshot`. -/
structure HistorySnapshot where
  event : Option Bytes
  version : Option Nat
  nowMs : Option Nat
  id : Option Bytes
  type : Option Bytes
  state : Option Bytes
  priority : Option Nat
  attempts : Option Nat
  fencingToken : Option Nat
  createdAtMs : Option Nat
  updatedAtMs : Option Nat
  nextRunAtMs : Option Nat
  leaseDeadlineMs : Option Nat
  leaseOwner : Option Bytes
  payloadRef : Option Bytes
  parentFlowId : Option Bytes
  rootFlowId : Option Bytes
  correlationId : Option Bytes
  resultRef : Option Bytes
  errorRef : Option Bytes
  rewoundToEventId : Option Bytes
  metaFields : List (Option Bytes × Option Bytes)
  deriving DecidableEq, Repr

/-- The magic `FSH2`. -/
def historyMagic : Bytes := [70, 83, 72, 50]

namespace HistoryFlag

/-- The positions of the flags. -/
def priority : Nat := 0
@[inherit_doc priority] def attempts : Nat := 1
@[inherit_doc priority] def fencingToken : Nat := 2
@[inherit_doc priority] def createdAtMs : Nat := 3
@[inherit_doc priority] def updatedAtMs : Nat := 4
@[inherit_doc priority] def nextRunAtMs : Nat := 5
@[inherit_doc priority] def leaseDeadlineMs : Nat := 6
@[inherit_doc priority] def leaseOwner : Nat := 7
@[inherit_doc priority] def payloadRef : Nat := 8
@[inherit_doc priority] def resultRef : Nat := 9
@[inherit_doc priority] def errorRef : Nat := 10
@[inherit_doc priority] def rewoundToEventId : Nat := 11
@[inherit_doc priority] def metaFields : Nat := 12

end HistoryFlag

namespace Elixir

/-- `is_integer(value) and value != omitted` -/
def isIntegerNot (value omitted : Option Nat) : Bool := value.isSome && decide (value ≠ omitted)

/-- `nonempty_binary?` -/
def nonemptyBinary (value : Option Bytes) : Bool := value.isSome && decide (value ≠ some [])

/-- `encode_history_meta` -/
def encodeHistoryMeta (fields : List (Option Bytes × Option Bytes)) : Bytes :=
  match fields with
  | [] => [1]
  | _ :: _ => encodeInt (some fields.length) ++
      fields.flatMap fun field => encodeBin field.1 ++ encodeBin field.2

/-- `encode_history_flags` -/
def encodeHistoryFlags (s : HistorySnapshot) : Nat :=
  let flags := putFlag 0 HistoryFlag.priority (isIntegerNot s.priority (some 0))
  let flags := putFlag flags HistoryFlag.attempts (isIntegerNot s.attempts (some 0))
  let flags := putFlag flags HistoryFlag.fencingToken (isIntegerNot s.fencingToken (some 0))
  let flags := putFlag flags HistoryFlag.createdAtMs (isIntegerNot s.createdAtMs s.nowMs)
  let flags := putFlag flags HistoryFlag.updatedAtMs (isIntegerNot s.updatedAtMs s.nowMs)
  let flags := putFlag flags HistoryFlag.nextRunAtMs s.nextRunAtMs.isSome
  let flags := putFlag flags HistoryFlag.leaseDeadlineMs (isIntegerNot s.leaseDeadlineMs (some 0))
  let flags := putFlag flags HistoryFlag.leaseOwner (nonemptyBinary s.leaseOwner)
  let flags := putFlag flags HistoryFlag.payloadRef (nonemptyBinary s.payloadRef)
  let flags := putFlag flags HistoryFlag.resultRef (nonemptyBinary s.resultRef)
  let flags := putFlag flags HistoryFlag.errorRef (nonemptyBinary s.errorRef)
  let flags := putFlag flags HistoryFlag.rewoundToEventId (nonemptyBinary s.rewoundToEventId)
  putFlag flags HistoryFlag.metaFields (decide (s.metaFields ≠ []))

/-- The fields after the magic and the flags. -/
def historyFields (flags : Nat) (s : HistorySnapshot) : Bytes :=
  encodeBin s.event ++ (encodeInt s.version ++ (encodeInt s.nowMs ++ (encodeBin s.state ++
  (encodeFlaggedInt flags HistoryFlag.priority s.priority ++
  (encodeFlaggedInt flags HistoryFlag.attempts s.attempts ++
  (encodeFlaggedInt flags HistoryFlag.fencingToken s.fencingToken ++
  (encodeFlaggedInt flags HistoryFlag.createdAtMs s.createdAtMs ++
  (encodeFlaggedInt flags HistoryFlag.updatedAtMs s.updatedAtMs ++
  (encodeFlaggedInt flags HistoryFlag.nextRunAtMs s.nextRunAtMs ++
  (encodeFlaggedInt flags HistoryFlag.leaseDeadlineMs s.leaseDeadlineMs ++
  (encodeFlaggedBin flags HistoryFlag.leaseOwner s.leaseOwner ++
  (encodeFlaggedBin flags HistoryFlag.payloadRef s.payloadRef ++
  (encodeFlaggedBin flags HistoryFlag.resultRef s.resultRef ++
  (encodeFlaggedBin flags HistoryFlag.errorRef s.errorRef ++
  (encodeFlaggedBin flags HistoryFlag.rewoundToEventId s.rewoundToEventId ++
  (if hasFlag flags HistoryFlag.metaFields then encodeHistoryMeta s.metaFields else []
  ))))))))))))))))

/-- `encode_history_parts_elixir` -/
def encodeHistoryParts (s : HistorySnapshot) : Bytes :=
  let flags := encodeHistoryFlags s
  historyMagic ++ (encodeInt (some flags) ++ historyFields flags s)

/-- `decode_history_meta_pairs` -/
def decodeHistoryMetaPairs : Nat → Bytes → Option (List (Option Bytes × Option Bytes) × Bytes)
  | 0, rest => some ([], rest)
  | count + 1, rest => do
    let (key, rest) ← decodeBin rest
    let (value, rest) ← decodeBin rest
    let (fields, rest) ← decodeHistoryMetaPairs count rest
    some ((key, value) :: fields, rest)

/-- `decode_history_meta` -/
def decodeHistoryMeta (rest : Bytes) : Option (List (Option Bytes × Option Bytes) × Bytes) := do
  let (count, rest) ← decodeInt rest
  decodeHistoryMetaPairs (← count) rest

/-- `decode_history_meta_for_flags` -/
def decodeHistoryMetaForFlags (flags : Nat) (rest : Bytes) :
    Option (List (Option Bytes × Option Bytes) × Bytes) :=
  if hasFlag flags HistoryFlag.metaFields then decodeHistoryMeta rest else some ([], rest)

/-- `decode_history_parts_bin` -/
def decodeHistoryParts (rest : Bytes) : Option HistorySnapshot := do
  let (flags, rest) ← decodeInt rest
  let flags ← flags
  let (event, rest) ← decodeBin rest
  let (version, rest) ← decodeInt rest
  let (nowMs, rest) ← decodeInt rest
  let (state, rest) ← decodeBin rest
  let (priority, rest) ← decodeFlaggedInt flags HistoryFlag.priority rest (some 0)
  let (attempts, rest) ← decodeFlaggedInt flags HistoryFlag.attempts rest (some 0)
  let (fencingToken, rest) ← decodeFlaggedInt flags HistoryFlag.fencingToken rest (some 0)
  let (createdAtMs, rest) ← decodeFlaggedInt flags HistoryFlag.createdAtMs rest nowMs
  let (updatedAtMs, rest) ← decodeFlaggedInt flags HistoryFlag.updatedAtMs rest nowMs
  let (nextRunAtMs, rest) ← decodeFlaggedInt flags HistoryFlag.nextRunAtMs rest none
  let (leaseDeadlineMs, rest) ← decodeFlaggedInt flags HistoryFlag.leaseDeadlineMs rest none
  let (leaseOwner, rest) ← decodeFlaggedBin flags HistoryFlag.leaseOwner rest none
  let (payloadRef, rest) ← decodeFlaggedBin flags HistoryFlag.payloadRef rest none
  let (resultRef, rest) ← decodeFlaggedBin flags HistoryFlag.resultRef rest none
  let (errorRef, rest) ← decodeFlaggedBin flags HistoryFlag.errorRef rest none
  let (rewoundToEventId, rest) ← decodeFlaggedBin flags HistoryFlag.rewoundToEventId rest none
  let (metaFields, rest) ← decodeHistoryMetaForFlags flags rest
  if rest = [] then
    some {
      event, version, nowMs, state, priority, attempts, fencingToken, createdAtMs, updatedAtMs,
      nextRunAtMs, leaseDeadlineMs, leaseOwner, payloadRef, resultRef, errorRef, rewoundToEventId,
      metaFields
      id := none, type := none, parentFlowId := none, rootFlowId := none, correlationId := none }
  else none

/-- `decode_history_snapshot` -/
def decodeHistorySnapshot (value : Bytes) : Option HistorySnapshot :=
  if value.take 4 = historyMagic then decodeHistoryParts (value.drop 4) else none

end Elixir

namespace Rust

/-- `matches!(value, Some(v) if v != omitted)` -/
def isSomeNot (value : Option Nat) (omitted : Nat) : Bool :=
  match value with
  | some v => decide (v ≠ omitted)
  | none => false

/-- `matches!((value, now_ms), (Some(v), Some(now)) if v != now)` -/
def bothDiffer : Option Nat → Option Nat → Bool
  | some v, some now => decide (v ≠ now)
  | _, _ => false

/-- `matches!(value, Some(v) if !v.is_empty())` -/
def isSomeNonempty : Option Bytes → Bool
  | some v => !v.isEmpty
  | none => false

/-- `encode_history_flags` -/
def encodeHistoryFlags (s : HistorySnapshot) (metaEncoded : Bytes) : Nat :=
  let flags := putFlag 0 HistoryFlag.priority (isSomeNot s.priority 0)
  let flags := putFlag flags HistoryFlag.attempts (isSomeNot s.attempts 0)
  let flags := putFlag flags HistoryFlag.fencingToken (isSomeNot s.fencingToken 0)
  let flags := putFlag flags HistoryFlag.createdAtMs (bothDiffer s.createdAtMs s.nowMs)
  let flags := putFlag flags HistoryFlag.updatedAtMs (bothDiffer s.updatedAtMs s.nowMs)
  let flags := putFlag flags HistoryFlag.nextRunAtMs s.nextRunAtMs.isSome
  let flags := putFlag flags HistoryFlag.leaseDeadlineMs (isSomeNot s.leaseDeadlineMs 0)
  let flags := putFlag flags HistoryFlag.leaseOwner (isSomeNonempty s.leaseOwner)
  let flags := putFlag flags HistoryFlag.payloadRef (isSomeNonempty s.payloadRef)
  let flags := putFlag flags HistoryFlag.resultRef (isSomeNonempty s.resultRef)
  let flags := putFlag flags HistoryFlag.errorRef (isSomeNonempty s.errorRef)
  let flags := putFlag flags HistoryFlag.rewoundToEventId (isSomeNonempty s.rewoundToEventId)
  putFlag flags HistoryFlag.metaFields (!metaEncoded.isEmpty && decide (metaEncoded ≠ [1]))

/-- `encode_flow_history_compact` -/
def encodeFlowHistoryCompact (event : Bytes) (s : HistorySnapshot) (metaEncoded : Bytes) :
    Option Bytes := do
  let flags := encodeHistoryFlags s metaEncoded
  let flagsOut ← encodeInt (some flags)
  let version ← encodeInt s.version
  let nowMs ← encodeInt s.nowMs
  let priority ← encodeFlaggedInt flags HistoryFlag.priority s.priority
  let attempts ← encodeFlaggedInt flags HistoryFlag.attempts s.attempts
  let fencingToken ← encodeFlaggedInt flags HistoryFlag.fencingToken s.fencingToken
  let createdAtMs ← encodeFlaggedInt flags HistoryFlag.createdAtMs s.createdAtMs
  let updatedAtMs ← encodeFlaggedInt flags HistoryFlag.updatedAtMs s.updatedAtMs
  let nextRunAtMs ← encodeFlaggedInt flags HistoryFlag.nextRunAtMs s.nextRunAtMs
  let leaseDeadlineMs ← encodeFlaggedInt flags HistoryFlag.leaseDeadlineMs s.leaseDeadlineMs
  some (historyMagic ++ (flagsOut ++ (encodeBin (some event) ++ (version ++ (nowMs ++
    (encodeBin s.state ++ (priority ++ (attempts ++ (fencingToken ++ (createdAtMs ++ (updatedAtMs ++
    (nextRunAtMs ++ (leaseDeadlineMs ++
    (encodeFlaggedBin flags HistoryFlag.leaseOwner s.leaseOwner ++
    (encodeFlaggedBin flags HistoryFlag.payloadRef s.payloadRef ++
    (encodeFlaggedBin flags HistoryFlag.resultRef s.resultRef ++
    (encodeFlaggedBin flags HistoryFlag.errorRef s.errorRef ++
    (encodeFlaggedBin flags HistoryFlag.rewoundToEventId s.rewoundToEventId ++
    (if hasFlag flags HistoryFlag.metaFields then metaEncoded else [])))))))))))))))))))

end Rust

/-- `encode_history_snapshot`: the metadata is encoded in Elixir and the rest in Rust, which needs a
binary as the event. -/
def encodeHistorySnapshot (s : HistorySnapshot) : Option Bytes := do
  Rust.encodeFlowHistoryCompact (← s.event) s (Elixir.encodeHistoryMeta s.metaFields)

/-! ## What is stored -/

variable {s : HistorySnapshot}

namespace HistorySnapshot

/-- The snapshot has an event and a time, integers below the largest `u64` and binaries and metadata
that can be counted with a `u64`. -/
structure Valid (s : HistorySnapshot) : Prop where
  event : s.event.isSome
  nowMs : s.nowMs.isSome
  ints : ∀ value ∈ [s.version, s.nowMs, s.priority, s.attempts, s.fencingToken, s.createdAtMs,
    s.updatedAtMs, s.nextRunAtMs, s.leaseDeadlineMs], FitsInt value
  bins : ∀ value ∈ [s.event, s.state, s.leaseOwner, s.payloadRef, s.resultRef, s.errorRef,
    s.rewoundToEventId], FitsBin value
  metaCount : FitsInt (some s.metaFields.length)
  metaBins : ∀ field ∈ s.metaFields, FitsBin field.1 ∧ FitsBin field.2

/-- What a stored snapshot keeps: no identity, no empty binary and no lease deadline of zero, and
zero or the time of the event for what was absent. -/
def stored (s : HistorySnapshot) : HistorySnapshot where
  event := s.event
  version := s.version
  nowMs := s.nowMs
  id := none
  type := none
  state := s.state
  priority := s.priority.or (some 0)
  attempts := s.attempts.or (some 0)
  fencingToken := s.fencingToken.or (some 0)
  createdAtMs := s.createdAtMs.or s.nowMs
  updatedAtMs := s.updatedAtMs.or s.nowMs
  nextRunAtMs := s.nextRunAtMs
  leaseDeadlineMs := s.leaseDeadlineMs.filter (· ≠ 0)
  leaseOwner := s.leaseOwner.filter (· ≠ [])
  payloadRef := s.payloadRef.filter (· ≠ [])
  parentFlowId := none
  rootFlowId := none
  correlationId := none
  resultRef := s.resultRef.filter (· ≠ [])
  errorRef := s.errorRef.filter (· ≠ [])
  rewoundToEventId := s.rewoundToEventId.filter (· ≠ [])
  metaFields := s.metaFields

end HistorySnapshot

/-! ## The two encoders agree -/

section Agreement

theorem isSomeNot_eq (value : Option Nat) :
    Rust.isSomeNot value 0 = isIntegerNot value (some 0) := by
  cases value <;> simp [Rust.isSomeNot, isIntegerNot]

theorem bothDiffer_eq (value : Option Nat) {now : Option Nat} (h : now.isSome) :
    Rust.bothDiffer value now = isIntegerNot value now := by
  obtain ⟨now, rfl⟩ := isSome_iff_exists.mp h
  cases value <;> simp [Rust.bothDiffer, isIntegerNot]

theorem isSomeNonempty_eq (value : Option Bytes) :
    Rust.isSomeNonempty value = nonemptyBinary value := by
  cases value with
  | none => rfl
  | some value => cases value <;> simp [Rust.isSomeNonempty, nonemptyBinary]

/-- The encoding of metadata tells whether there is any. -/
theorem encodeHistoryMeta_flag (fields : List (Option Bytes × Option Bytes)) :
    (!(encodeHistoryMeta fields).isEmpty &&
      decide (encodeHistoryMeta fields ≠ [1])) = decide (fields ≠ []) := by
  cases fields with
  | nil => rfl
  | cons field fields =>
    obtain ⟨first, more, heq, _, hsingle⟩ := varint_succ (field :: fields).length
    rw [encodeHistoryMeta, encodeInt_some, heq, cons_append]
    -- a first byte of one would be a count of zero
    have hne : first ≠ 1 := by
      rintro rfl
      have := (hsingle (by decide)).2
      simp at this
    simp [hne]

/-- The flags of the encoders agree. -/
theorem encodeHistoryFlags_agrees (h : s.nowMs.isSome) :
    Rust.encodeHistoryFlags s (encodeHistoryMeta s.metaFields) = encodeHistoryFlags s := by
  simp only [Rust.encodeHistoryFlags, encodeHistoryFlags, isSomeNot_eq,
    bothDiffer_eq _ h, isSomeNonempty_eq, encodeHistoryMeta_flag]

theorem encodeHistoryFlags_lt (s : HistorySnapshot) : encodeHistoryFlags s < 2 ^ 13 := by
  repeat' refine putFlag_lt ?_ (by decide)
  decide

theorem fitsInt_flags (s : HistorySnapshot) : FitsInt (some (encodeHistoryFlags s)) :=
  fitsInt_of_lt_two_pow (encodeHistoryFlags_lt s) (by decide)

/-- Both encoders write the same bytes. -/
theorem encodeHistorySnapshot_eq (h : s.Valid) :
    encodeHistorySnapshot s = some (encodeHistoryParts s) := by
  obtain ⟨event, hevent⟩ := isSome_iff_exists.mp h.event
  have hints := h.ints
  have hbins := h.bins
  simp only [forall_mem_cons] at hints hbins
  obtain ⟨hversion, hnow, hpriority, hattempts, hfencing, hcreated, hupdated, hnext, hlease, -⟩ :=
    hints
  obtain ⟨heventFits, hstate, howner, hpayload, hresult, herror, hrewound, -⟩ := hbins
  rw [encodeHistorySnapshot, hevent]
  rw [hevent] at heventFits
  simp only [bind_eq_bind, bind_some, Rust.encodeFlowHistoryCompact,
    encodeHistoryFlags_agrees h.nowMs, encodeInt_agrees (fitsInt_flags s),
    encodeInt_agrees hversion, encodeInt_agrees hnow, encodeFlaggedInt_agrees hpriority,
    encodeFlaggedInt_agrees hattempts, encodeFlaggedInt_agrees hfencing,
    encodeFlaggedInt_agrees hcreated, encodeFlaggedInt_agrees hupdated,
    encodeFlaggedInt_agrees hnext, encodeFlaggedInt_agrees hlease, encodeBin_agrees heventFits,
    encodeBin_agrees hstate, encodeFlaggedBin_agrees howner, encodeFlaggedBin_agrees hpayload,
    encodeFlaggedBin_agrees hresult, encodeFlaggedBin_agrees herror,
    encodeFlaggedBin_agrees hrewound]
  rw [encodeHistoryParts, historyFields, hevent]

end Agreement

/-! ## Reading back -/

namespace Elixir

open HistoryFlag in
/-- Which fields follow. -/
theorem history_flags (s : HistorySnapshot) :
    let flags := encodeHistoryFlags s
    (hasFlag flags priority = isIntegerNot s.priority (some 0) ∧
      hasFlag flags attempts = isIntegerNot s.attempts (some 0) ∧
      hasFlag flags fencingToken = isIntegerNot s.fencingToken (some 0) ∧
      hasFlag flags createdAtMs = isIntegerNot s.createdAtMs s.nowMs ∧
      hasFlag flags updatedAtMs = isIntegerNot s.updatedAtMs s.nowMs ∧
      hasFlag flags nextRunAtMs = s.nextRunAtMs.isSome) ∧
    (hasFlag flags leaseDeadlineMs = isIntegerNot s.leaseDeadlineMs (some 0) ∧
      hasFlag flags leaseOwner = nonemptyBinary s.leaseOwner ∧
      hasFlag flags payloadRef = nonemptyBinary s.payloadRef ∧
      hasFlag flags resultRef = nonemptyBinary s.resultRef ∧
      hasFlag flags errorRef = nonemptyBinary s.errorRef ∧
      hasFlag flags rewoundToEventId = nonemptyBinary s.rewoundToEventId ∧
      hasFlag flags metaFields = decide (s.metaFields ≠ [])) := by
  simp [encodeHistoryFlags, priority, attempts, fencingToken, createdAtMs, updatedAtMs, nextRunAtMs,
    leaseDeadlineMs, leaseOwner, payloadRef, resultRef, errorRef, rewoundToEventId, metaFields]

/-- An omitted integer is read as its default. -/
theorem read_default (value now : Option Nat) :
    (if isIntegerNot value now then value else now) = value.or now := by
  cases value with
  | none => simp [isIntegerNot]
  | some value => by_cases heq : some value = now <;> simp [isIntegerNot, heq]

variable (value : Option Nat)

theorem read_present : (if value.isSome then value else none) = value := by
  cases value <;> rfl

/-- A deadline of zero is read as absent. -/
theorem read_deadline :
    (if isIntegerNot value (some 0) then value else none) = value.filter (· ≠ 0) := by
  cases value with
  | none => rfl
  | some value => by_cases hzero : value = 0 <;> simp [isIntegerNot, hzero, Option.filter]

/-- An empty binary is read as absent. -/
theorem read_binary (value : Option Bytes) :
    (if nonemptyBinary value then value else none) = value.filter (· ≠ []) := by
  cases value with
  | none => rfl
  | some value => by_cases hempty : value = [] <;> simp [nonemptyBinary, hempty, Option.filter]

/-- Metadata pairs are read back. -/
theorem decodeHistoryMetaPairs_encode {fields : List (Option Bytes × Option Bytes)} (rest : Bytes)
    (h : ∀ field ∈ fields, FitsBin field.1 ∧ FitsBin field.2) :
    decodeHistoryMetaPairs fields.length
      ((fields.flatMap fun field => encodeBin field.1 ++ encodeBin field.2) ++ rest) =
      some (fields, rest) := by
  induction fields with
  | nil => rfl
  | cons field fields ih =>
    obtain ⟨hfield, hfields⟩ := forall_mem_cons.mp h
    rw [length_cons, flatMap_cons, decodeHistoryMetaPairs]
    simp [decodeBin_encodeBin hfield.1, decodeBin_encodeBin hfield.2, ih hfields]

/-- Metadata is read back, and its absence as no metadata. -/
theorem decodeHistoryMetaForFlags_encode (h : s.Valid) {flags : Nat}
    (hflag : hasFlag flags HistoryFlag.metaFields = decide (s.metaFields ≠ [])) :
    decodeHistoryMetaForFlags flags
      (if hasFlag flags HistoryFlag.metaFields then encodeHistoryMeta s.metaFields else []) =
      some (s.metaFields, []) := by
  have hcount := h.metaCount
  have hbins := h.metaBins
  rw [decodeHistoryMetaForFlags, hflag]
  cases hfields : s.metaFields with
  | nil => rfl
  | cons field fields =>
    rw [hfields] at hcount hbins
    have hpairs := decodeHistoryMetaPairs_encode [] hbins
    rw [append_nil] at hpairs
    rw [decide_eq_true (cons_ne_nil _ _), if_pos rfl, if_pos rfl, encodeHistoryMeta,
      decodeHistoryMeta, decodeInt_encodeInt hcount]
    exact hpairs

/-- A stored snapshot is read back. -/
theorem decode_encodeHistoryParts (h : s.Valid) :
    decodeHistorySnapshot (encodeHistoryParts s) = some s.stored := by
  have hints := h.ints
  have hbins := h.bins
  simp only [forall_mem_cons] at hints hbins
  obtain ⟨hversion, hnow, hpriority, hattempts, hfencing, hcreated, hupdated, hnext, hlease, -⟩ :=
    hints
  obtain ⟨hevent, hstate, howner, hpayload, hresult, herror, hrewound, -⟩ := hbins
  obtain ⟨⟨f0, f1, f2, f3, f4, f5⟩, f6, f7, f8, f9, f10, f11, f12⟩ := history_flags s
  -- field by field, in the order in which they are written
  refine bind_eq_some (decodeInt_encodeInt (fitsInt_flags s) _) ?_
  refine bind_eq_some rfl ?_
  refine bind_eq_some (decodeBin_encodeBin hevent _) ?_
  refine bind_eq_some (decodeInt_encodeInt hversion _) ?_
  refine bind_eq_some (decodeInt_encodeInt hnow _) ?_
  refine bind_eq_some (decodeBin_encodeBin hstate _) ?_
  refine bind_eq_some (decodeFlaggedInt_encode hpriority _ _ _ _) ?_
  refine bind_eq_some (decodeFlaggedInt_encode hattempts _ _ _ _) ?_
  refine bind_eq_some (decodeFlaggedInt_encode hfencing _ _ _ _) ?_
  refine bind_eq_some (decodeFlaggedInt_encode hcreated _ _ _ _) ?_
  refine bind_eq_some (decodeFlaggedInt_encode hupdated _ _ _ _) ?_
  refine bind_eq_some (decodeFlaggedInt_encode hnext _ _ _ _) ?_
  refine bind_eq_some (decodeFlaggedInt_encode hlease _ _ _ _) ?_
  refine bind_eq_some (decodeFlaggedBin_encode howner _ _ _ _) ?_
  refine bind_eq_some (decodeFlaggedBin_encode hpayload _ _ _ _) ?_
  refine bind_eq_some (decodeFlaggedBin_encode hresult _ _ _ _) ?_
  refine bind_eq_some (decodeFlaggedBin_encode herror _ _ _ _) ?_
  refine bind_eq_some (decodeFlaggedBin_encode hrewound _ _ _ _) ?_
  refine bind_eq_some (decodeHistoryMetaForFlags_encode h f12) ?_
  simp only [f0, f1, f2, f3, f4, f5, f6, f7, f8, f9, f10, f11, read_default,
    read_present, read_deadline, read_binary, if_true]
  rfl

/-- What a default fills in is omitted. -/
theorem isIntegerNot_or (value default : Option Nat) :
    isIntegerNot (value.or default) default = isIntegerNot value default := by
  cases value with
  | none => simp [isIntegerNot]
  | some value => rfl

/-- A deadline of zero is omitted. -/
theorem isIntegerNot_filter :
    isIntegerNot (value.filter (· ≠ 0)) (some 0) = isIntegerNot value (some 0) := by
  cases value with
  | none => rfl
  | some value => by_cases hzero : value = 0 <;> simp [isIntegerNot, hzero, Option.filter]

/-- An empty binary is omitted. -/
theorem nonemptyBinary_filter (value : Option Bytes) :
    nonemptyBinary (value.filter (· ≠ [])) = nonemptyBinary value := by
  cases value with
  | none => rfl
  | some value => by_cases hempty : value = [] <;> simp [nonemptyBinary, hempty, Option.filter]

/-- The stored snapshot has the flags of the original. -/
theorem encodeHistoryFlags_stored (s : HistorySnapshot) :
    encodeHistoryFlags s.stored = encodeHistoryFlags s := by
  simp only [encodeHistoryFlags, HistorySnapshot.stored, isIntegerNot_or, isIntegerNot_filter,
    nonemptyBinary_filter]
  rfl

section Omitted

variable {flags position : Nat}

/-- What is read for an omitted integer is not written. -/
theorem encodeFlaggedInt_ite {present : Bool} (h : hasFlag flags position = present)
    (value default : Option Nat) :
    encodeFlaggedInt flags position (if present then value else default) =
      encodeFlaggedInt flags position value := by
  rw [encodeFlaggedInt, encodeFlaggedInt, h]
  cases present <;> rfl

/-- What is read for an omitted binary is not written. -/
theorem encodeFlaggedBin_ite {present : Bool} (h : hasFlag flags position = present)
    (value default : Option Bytes) :
    encodeFlaggedBin flags position (if present then value else default) =
      encodeFlaggedBin flags position value := by
  rw [encodeFlaggedBin, encodeFlaggedBin, h]
  cases present <;> rfl

end Omitted

/-- The stored snapshot encodes to the stored bytes. -/
theorem encodeHistoryParts_stored (s : HistorySnapshot) :
    encodeHistoryParts s.stored = encodeHistoryParts s := by
  obtain ⟨⟨f0, f1, f2, f3, f4, _⟩, f6, f7, f8, f9, f10, f11, _⟩ := history_flags s
  rw [encodeHistoryParts, encodeHistoryParts, encodeHistoryFlags_stored]
  simp only [historyFields, HistorySnapshot.stored, ← read_default, ← read_deadline, ← read_binary,
    encodeFlaggedInt_ite f0, encodeFlaggedInt_ite f1, encodeFlaggedInt_ite f2,
    encodeFlaggedInt_ite f3, encodeFlaggedInt_ite f4, encodeFlaggedInt_ite f6,
    encodeFlaggedBin_ite f7, encodeFlaggedBin_ite f8, encodeFlaggedBin_ite f9,
    encodeFlaggedBin_ite f10, encodeFlaggedBin_ite f11]

end Elixir

/-! ## Snapshots survive storage -/

theorem FitsInt.or {value default : Option Nat} (h : FitsInt value) (hdefault : FitsInt default) :
    FitsInt (value.or default) := by
  cases value with
  | none => exact hdefault
  | some value => exact h

theorem FitsInt.filter {value : Option Nat} (h : FitsInt value) (keep : Nat → Bool) :
    FitsInt (value.filter keep) := fun n hn => h n (mem_filter_iff.mp hn).1

theorem FitsBin.filter {value : Option Bytes} (h : FitsBin value) (keep : Bytes → Bool) :
    FitsBin (value.filter keep) := fun n hn => h n (mem_filter_iff.mp hn).1

/-- What is stored of a valid snapshot is valid. -/
theorem HistorySnapshot.Valid.stored (h : s.Valid) : s.stored.Valid := by
  have hzero : FitsInt (some 0) := fitsInt_some.mpr (by decide)
  have hints := h.ints
  have hbins := h.bins
  simp only [forall_mem_cons] at hints hbins
  obtain ⟨hversion, hnow, hpriority, hattempts, hfencing, hcreated, hupdated, hnext, hlease, -⟩ :=
    hints
  obtain ⟨hevent, hstate, howner, hpayload, hresult, herror, hrewound, -⟩ := hbins
  refine { h with ints := ?_, bins := ?_ }
  · simp only [forall_mem_cons]
    exact ⟨hversion, hnow, hpriority.or hzero, hattempts.or hzero, hfencing.or hzero,
      hcreated.or hnow, hupdated.or hnow, hnext, hlease.filter _, forall_mem_nil _⟩
  · simp only [forall_mem_cons]
    exact ⟨hevent, hstate, howner.filter _, hpayload.filter _, hresult.filter _, herror.filter _,
      hrewound.filter _, forall_mem_nil _⟩

/-- History snapshots survive storage: both encoders write the same bytes, the decoder reads from
them what is stored of the snapshot, and that encodes to the same bytes again. -/
theorem history_snapshot_survives {s : HistorySnapshot} (h : s.Valid) :
    encodeHistorySnapshot s = some (Elixir.encodeHistoryParts s) ∧
      Elixir.decodeHistorySnapshot (Elixir.encodeHistoryParts s) = some s.stored ∧
      encodeHistorySnapshot s.stored = some (Elixir.encodeHistoryParts s) := by
  refine ⟨encodeHistorySnapshot_eq h, decode_encodeHistoryParts h, ?_⟩
  rw [encodeHistorySnapshot_eq h.stored, encodeHistoryParts_stored]

/-- A snapshot with some of its fields and one pair of metadata. -/
theorem history_snapshot_survives_claimed :
    let s : HistorySnapshot := {
      event := some [99], version := some 3, nowMs := some 1000, id := some [1], type := none
      state := some [], priority := some 0, attempts := some 200, fencingToken := none
      createdAtMs := some 1000, updatedAtMs := some 900, nextRunAtMs := some 0
      leaseDeadlineMs := some 0, leaseOwner := some [], payloadRef := some [7]
      parentFlowId := none, rootFlowId := none, correlationId := none, resultRef := none
      errorRef := none, rewoundToEventId := none, metaFields := [(some [1], some [])] }
    s.stored.leaseDeadlineMs = none ∧ encodeHistorySnapshot s = some (Elixir.encodeHistoryParts s) ∧
      Elixir.decodeHistorySnapshot (Elixir.encodeHistoryParts s) = some s.stored ∧
      encodeHistorySnapshot s.stored = some (Elixir.encodeHistoryParts s) := by
  intro s
  refine ⟨rfl, history_snapshot_survives (s := s) ⟨rfl, rfl, ?_, ?_, ?_, ?_⟩⟩
  all_goals simp [s, u64Size]

end FerricStore.Flow
