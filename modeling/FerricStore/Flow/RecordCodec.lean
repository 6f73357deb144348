import FerricStore.Flow.RustVarint
import Mathlib.Logic.Function.Basic

/-!
# State records of a Flow

A record has six required fields, optional integers and binaries in a fixed order, and a sidecar
that is an encoded binary of its own. Flags say which optional fields follow: four counters are left
out when they are zero, a root that is the flow itself is a flag, and an empty sidecar is left out. A
Rust and an Elixir encoder write records; a Rust decoder with checks of its own and an Elixir decoder
read them.
-/

namespace FerricStore.Flow

/-- The optional integers of a record. -/
inductive RecordInt where
  | attempts
  | fencingToken
  | nextRunAtMs
  | priority
  | ttlMs
  | historyHotMaxEvents
  | historyMaxEvents
  | retentionTtlMs
  | terminalRetentionUntilMs
  | maxActiveMs
  | leaseDeadlineMs
  deriving DecidableEq, Repr

/-- The optional binaries of a record, apart from its root. -/
inductive RecordBin where
  | partitionKey
  | payloadRef
  | parentFlowId
  | parentPartitionKey
  | correlationId
  | resultRef
  | errorRef
  | leaseOwner
  | leaseToken
  | runState
  | rewoundToEventId
  deriving DecidableEq, Repr

/-- The position of the flag of an integer. -/
def RecordInt.flag : RecordInt → Nat
  | .attempts => 0
  | .fencingToken => 1
  | .nextRunAtMs => 2
  | .priority => 3
  | .ttlMs => 4
  | .historyHotMaxEvents => 5
  | .historyMaxEvents => 6
  | .retentionTtlMs => 7
  | .terminalRetentionUntilMs => 8
  | .maxActiveMs => 24
  | .leaseDeadlineMs => 20

/-- The value of an integer that is left out. -/
def RecordInt.omitted : RecordInt → Option Nat
  | .attempts | .fencingToken | .priority | .leaseDeadlineMs => some 0
  | _ => none

/-- The position of the flag of a binary. -/
def RecordBin.flag : RecordBin → Nat
  | .partitionKey => 9
  | .payloadRef => 10
  | .parentFlowId => 11
  | .parentPartitionKey => 12
  | .correlationId => 15
  | .resultRef => 16
  | .errorRef => 17
  | .leaseOwner => 18
  | .leaseToken => 19
  | .runState => 21
  | .rewoundToEventId => 22

/-- The flag of a root that is written. -/
def rootFlowIdFlag : Nat := 13

/-- The flag of a root that is the flow itself. -/
def rootFlowIdSelfFlag : Nat := 14

/-- The flag of a sidecar that is written. -/
def sidecarFlag : Nat := 23

/-- A field that a flag stands for. -/
inductive Slot where
  | int (field : RecordInt)
  | bin (field : RecordBin)
  | root
  deriving DecidableEq, Repr

/-- The order in which the flags are set and the fields are written and read. -/
def wireOrder : List Slot :=
  [.int .attempts, .int .fencingToken, .int .nextRunAtMs, .int .priority, .int .ttlMs,
    .int .historyHotMaxEvents, .int .historyMaxEvents, .int .retentionTtlMs,
    .int .terminalRetentionUntilMs, .int .maxActiveMs, .bin .partitionKey, .bin .payloadRef,
    .bin .parentFlowId, .bin .parentPartitionKey, .root, .bin .correlationId, .bin .resultRef,
    .bin .errorRef, .bin .leaseOwner, .bin .leaseToken, .int .leaseDeadlineMs, .bin .runState,
    .bin .rewoundToEventId]

/-- A record: the sidecar is kept as it is encoded. -/
structure FlowRecord where
  id : Option Bytes
  type : Option Bytes
  state : Option Bytes
  version : Option Nat
  createdAtMs : Option Nat
  updatedAtMs : Option Nat
  int : RecordInt → Option Nat
  bin : RecordBin → Option Bytes
  rootFlowId : Option Bytes
  sidecar : Bytes

/-- The magic `FSF5`. -/
def recordMagic : Bytes := [70, 83, 70, 53]

/-- `EMPTY_CHILD_GROUPS_ENCODED`, the encoded binary of an empty JSON map. -/
def emptyChildGroups : Bytes := [4, 74, 123, 125]

/-- The payload of an empty sidecar. -/
def emptyPayload : Bytes := [74, 123, 125]

/-- `MAX_EXACT_INTEGER` -/
def maxExactInteger : Nat := 2 ^ 53 - 1

namespace FlowRecord

/-- A required binary is present and not empty. -/
def requiredBin (value : Option Bytes) : Bool := value.elim false fun bytes => !bytes.isEmpty

/-- A required integer is present and exact as a float. -/
def requiredInt (value : Option Nat) : Bool := value.elim false fun n => decide (n ≤ maxExactInteger)

/-- The checks of the required fields. -/
def required (r : FlowRecord) : Bool :=
  requiredBin r.id && requiredBin r.type && requiredBin r.state && requiredInt r.version &&
    requiredInt r.createdAtMs && requiredInt r.updatedAtMs

/-- Sets an integer. -/
def setInt (r : FlowRecord) (field : RecordInt) (value : Option Nat) : FlowRecord :=
  { r with int := Function.update r.int field value }

/-- Sets a binary. -/
def setBin (r : FlowRecord) (field : RecordBin) (value : Option Bytes) : FlowRecord :=
  { r with bin := Function.update r.bin field value }

end FlowRecord

/-! ## The encoders -/

namespace Rust

/-- `flag_int` and `flag_int_present` -/
def flagInt (field : RecordInt) (value : Option Nat) : Bool :=
  match value, field.omitted with
  | some v, some omitted => decide (v ≠ omitted)
  | some _, none => true
  | none, _ => false

/-- `encoded_child_groups_empty` -/
def encodedChildGroupsEmpty (encoded : Bytes) : Bool :=
  match decodeBin encoded with
  | some (none, rest) => rest.isEmpty
  | some (some value, rest) => rest.isEmpty && decide (value = emptyPayload)
  | none => false

/-- The flag of a field in `encode_record_flags`. -/
def putSlotFlag (r : FlowRecord) (flags : Nat) : Slot → Nat
  | .int field => putFlag flags field.flag (flagInt field (r.int field))
  | .bin field => putFlag flags field.flag (r.bin field).isSome
  | .root =>
    match r.id, r.rootFlowId with
    | some id, some root =>
      if id = root then putFlag flags rootFlowIdSelfFlag true
      else putFlag flags rootFlowIdFlag true
    | none, some _ => putFlag flags rootFlowIdFlag true
    | _, none => flags

/-- `encode_record_flags` -/
def encodeRecordFlags (r : FlowRecord) : Nat :=
  putFlag (wireOrder.foldl (putSlotFlag r) 0) sidecarFlag (!encodedChildGroupsEmpty r.sidecar)

/-- Writes a field. -/
def encodeSlot (flags : Nat) (r : FlowRecord) : Slot → Option Bytes
  | .int field => encodeFlaggedInt flags field.flag (r.int field)
  | .bin field => some (encodeFlaggedBin flags field.flag (r.bin field))
  | .root => some (encodeFlaggedBin flags rootFlowIdFlag r.rootFlowId)

/-- Writes fields, one after another. -/
def encodeSlots (flags : Nat) (r : FlowRecord) : List Slot → Option Bytes
  | [] => some []
  | slot :: slots => do
    let out ← encodeSlot flags r slot
    let rest ← encodeSlots flags r slots
    some (out ++ rest)

/-- `encode_flow_record_compact` -/
def encodeFlowRecordCompact (r : FlowRecord) : Option Bytes :=
  if r.required then do
    let flags := encodeRecordFlags r
    let flagsOut ← encodeInt (some flags)
    let version ← encodeInt r.version
    let createdAtMs ← encodeInt r.createdAtMs
    let updatedAtMs ← encodeInt r.updatedAtMs
    let fields ← encodeSlots flags r wireOrder
    some (recordMagic ++ (flagsOut ++ (encodeBin r.id ++ (encodeBin r.type ++ (encodeBin r.state ++
      (version ++ (createdAtMs ++ (updatedAtMs ++ (fields ++
        (if hasFlag flags sidecarFlag then r.sidecar else []))))))))))
  else none

end Rust

namespace Elixir

variable (r : FlowRecord)

/-- `is_binary(value) and condition` for a root. -/
def rootIs (same : Bool) : Bool :=
  r.rootFlowId.isSome && (decide (r.rootFlowId = r.id) == same)

/-- The flag of a field in `encode_record_flags`. -/
def putSlotFlag (flags : Nat) : Slot → Nat
  | .int field =>
    putFlag flags field.flag ((r.int field).isSome && decide (r.int field ≠ field.omitted))
  | .bin field => putFlag flags field.flag (r.bin field).isSome
  | .root =>
    if rootIs r true then putFlag flags rootFlowIdSelfFlag true
    else if r.rootFlowId.isSome then putFlag flags rootFlowIdFlag true
    else flags

/-- `encode_record_flags` -/
def encodeRecordFlags : Nat :=
  putFlag (wireOrder.foldl (putSlotFlag r) 0) sidecarFlag (decide (r.sidecar ≠ emptyChildGroups))

/-- Writes a field. -/
def encodeSlot (flags : Nat) (r : FlowRecord) : Slot → Bytes
  | .int field => encodeFlaggedInt flags field.flag (r.int field)
  | .bin field => encodeFlaggedBin flags field.flag (r.bin field)
  | .root => encodeFlaggedBin flags rootFlowIdFlag r.rootFlowId

/-- `encode_record_elixir` -/
def encodeRecord : Bytes :=
  let flags := encodeRecordFlags r
  recordMagic ++ (encodeInt (some flags) ++ (encodeBin r.id ++ (encodeBin r.type ++
    (encodeBin r.state ++ (encodeInt r.version ++ (encodeInt r.createdAtMs ++
    (encodeInt r.updatedAtMs ++ (wireOrder.flatMap (encodeSlot flags r) ++
      (if hasFlag flags sidecarFlag then r.sidecar else [])))))))))

end Elixir

/-! ## The decoders -/

section Decoders

variable (readInt : Bytes → Option (Option Nat × Bytes))
  (readBin : Bytes → Option (Option Bytes × Bytes))

/-- Reads a field with the integers and binaries of a decoder. -/
def decodeSlot (flags : Nat) (slot : Slot) (rest : Bytes) (r : FlowRecord) :
    Option (FlowRecord × Bytes) :=
  match slot with
  | .int field =>
    if hasFlag flags field.flag then
      (readInt rest).map fun read => (r.setInt field read.1, read.2)
    else some (r.setInt field field.omitted, rest)
  | .bin field =>
    if hasFlag flags field.flag then
      (readBin rest).map fun read => (r.setBin field read.1, read.2)
    else some (r.setBin field none, rest)
  | .root =>
    if hasFlag flags rootFlowIdSelfFlag then some ({ r with rootFlowId := r.id }, rest)
    else if hasFlag flags rootFlowIdFlag then
      (readBin rest).map fun read => ({ r with rootFlowId := read.1 }, read.2)
    else some ({ r with rootFlowId := none }, rest)

/-- Reads fields, one after another. -/
def decodeSlots (flags : Nat) : List Slot → Bytes → FlowRecord → Option (FlowRecord × Bytes)
  | [], rest, r => some (r, rest)
  | slot :: slots, rest, r =>
    (decodeSlot readInt readBin flags slot rest r).bind fun read =>
      decodeSlots flags slots read.2 read.1

/-- Reads the required fields of a record. -/
def decodeRequired (rest : Bytes) : Option (FlowRecord × Bytes) := do
  let (id, rest) ← readBin rest
  let (type, rest) ← readBin rest
  let (state, rest) ← readBin rest
  let (version, rest) ← readInt rest
  let (createdAtMs, rest) ← readInt rest
  let (updatedAtMs, rest) ← readInt rest
  some ({
    id, type, state, version, createdAtMs, updatedAtMs
    int := fun _ => none, bin := fun _ => none, rootFlowId := none, sidecar := [] }, rest)

end Decoders

/-- `decode_record_sidecar`: the bytes of the field as they are. -/
def Rust.decodeRecordSidecar (flags : Nat) (input : Bytes) : Option (Bytes × Bytes) :=
  if hasFlag flags sidecarFlag then
    (Rust.decodeBin input).map fun read =>
      (input.take (input.length - read.2.length), read.2)
  else some (emptyChildGroups, input)

/-- `decode_flow_record`. A required field is checked where it is read. -/
def Rust.decodeFlowRecord (value : Bytes) : Option FlowRecord :=
  if value.take 4 = recordMagic then do
    let (flags, rest) ← Rust.decodeInt (value.drop 4)
    let flags ← flags
    if 2 ^ 25 ≤ flags then none
    else do
      let (r, rest) ← decodeRequired Rust.decodeInt Rust.decodeBin rest
      if r.required then do
        let (r, rest) ← decodeSlots Rust.decodeInt Rust.decodeBin flags wireOrder rest r
        let (sidecar, rest) ← Rust.decodeRecordSidecar flags rest
        if rest = [] then some { r with sidecar } else none
      else none
  else none

section Elixir

-- which payloads `decode_child_groups_payload` and `split_record_sidecar` accept
variable (accepts : Bytes → Bool)

/-- `decode_record_sidecar`, which has to be the rest of the value. -/
def Elixir.decodeRecordSidecar (flags : Nat) (rest : Bytes) : Option Bytes :=
  if hasFlag flags sidecarFlag then
    match Elixir.decodeBin rest with
    | some (some payload, []) => if accepts payload then some rest else none
    | _ => none
  else if rest = [] then some emptyChildGroups else none

/-- `decode_record_elixir`. A limit of zero on the active time is dropped. -/
def Elixir.decodeRecord (value : Bytes) : Option FlowRecord :=
  if value.take 4 = recordMagic then do
    let (flags, rest) ← Elixir.decodeInt (value.drop 4)
    let flags ← flags
    let (r, rest) ← decodeRequired Elixir.decodeInt Elixir.decodeBin rest
    let (r, rest) ← decodeSlots Elixir.decodeInt Elixir.decodeBin flags wireOrder rest r
    let sidecar ← Elixir.decodeRecordSidecar accepts flags rest
    if r.required then
      some { r.setInt .maxActiveMs ((r.int .maxActiveMs).filter (· ≠ 0)) with sidecar }
    else none
  else none

end Elixir

end FerricStore.Flow
