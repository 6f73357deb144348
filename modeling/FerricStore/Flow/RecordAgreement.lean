import FerricStore.Flow.RecordCodec

/-!
# The two implementations of the record format

Both encoders write the same bytes for a valid record, and the decoders read it back with zero for the
counters that were left out. What the Rust decoder accepts the Elixir decoder reads in the same way, as
far as it accepts the payload of the sidecar, and a limit of zero on the active time is dropped. A
record that the Rust decoder reads is written and read again unchanged unless a counter was written as
absent or the sidecar is an absent binary: no encoder writes these.
-/

namespace FerricStore.Flow

open Option List Elixir FlowRecord

namespace FlowRecord

variable (r : FlowRecord)

/-- A record that the encoders write: its required fields pass the checks, its integers are below the
largest `u64`, and its sidecar is the encoding of a binary. -/
structure Valid : Prop where
  required : r.required = true
  requiredBins : FitsBin r.id ∧ FitsBin r.type ∧ FitsBin r.state
  ints : ∀ field, FitsInt (r.int field)
  bins : ∀ field, FitsBin (r.bin field)
  root : FitsBin r.rootFlowId
  sidecar : ∃ payload, r.sidecar = Elixir.encodeBin (some payload) ∧ FitsBin (some payload)

/-- What is read of a record that was written: counters that were left out are zero. -/
def stored : FlowRecord :=
  { r with int := fun field => (r.int field).or field.omitted }

/-- The required fields alone. -/
def bare : FlowRecord :=
  ⟨r.id, r.type, r.state, r.version, r.createdAtMs, r.updatedAtMs, fun _ => none, fun _ => none,
    none, []⟩

/-- The record as the Elixir decoder returns it: without a limit of zero on the active time. -/
def withoutZeroLimit : FlowRecord :=
  r.setInt .maxActiveMs ((r.int .maxActiveMs).filter (· ≠ 0))

end FlowRecord

/-- A required integer can be written. -/
theorem fitsInt_of_required {value : Option Nat} (h : requiredInt value = true) :
    FitsInt value := by
  intro n hn
  rw [hn] at h
  have hle : n ≤ maxExactInteger := of_decide_eq_true h
  unfold maxExactInteger at hle
  unfold u64Size
  omega

variable {r : FlowRecord}

theorem FlowRecord.required_ints (h : r.required = true) :
    FitsInt r.version ∧ FitsInt r.createdAtMs ∧ FitsInt r.updatedAtMs := by
  simp only [required, Bool.and_eq_true] at h
  exact ⟨fitsInt_of_required h.1.1.2, fitsInt_of_required h.1.2, fitsInt_of_required h.2⟩

/-! ## The flags -/

section Flags

/-- The encoders set the same flag for a field. -/
theorem putSlotFlag_agrees (r : FlowRecord) (flags : Nat) (slot : Slot) :
    Rust.putSlotFlag r flags slot = putSlotFlag r flags slot := by
  cases slot with
  | int field =>
    have hflag : Rust.flagInt field (r.int field) =
        ((r.int field).isSome && decide (r.int field ≠ field.omitted)) := by
      unfold Rust.flagInt
      cases r.int field <;> cases field.omitted <;> simp
    rw [Rust.putSlotFlag, putSlotFlag, hflag]
  | bin field => rfl
  | root =>
    rw [Rust.putSlotFlag, putSlotFlag, rootIs]
    cases hid : r.id <;> cases hroot : r.rootFlowId <;> simp [eq_comm]

theorem fitsBin_emptyPayload : FitsBin (some emptyPayload) := fitsBin_some.mpr (by decide)

/-- The encoders agree on whether a sidecar is empty. -/
theorem sidecar_empty_agrees (h : r.Valid) :
    (!Rust.encodedChildGroupsEmpty r.sidecar) = decide (r.sidecar ≠ emptyChildGroups) := by
  obtain ⟨payload, hsidecar, hfits⟩ := h.sidecar
  have hread : Rust.decodeBin r.sidecar = some (some payload, []) :=
    Rust.decodeBin_eq_some.mpr ⟨by rw [hsidecar, append_nil], hfits⟩
  have hempty : r.sidecar = emptyChildGroups ↔ payload = emptyPayload := by
    rw [hsidecar]
    refine ⟨fun heq => ?_, fun heq => by rw [heq]; rfl⟩
    have hfound := decodeBin_encodeBin hfits []
    rw [heq] at hfound
    exact (some.inj (Prod.mk.inj (some.inj hfound)).1).symm
  rw [Rust.encodedChildGroupsEmpty, hread]
  simp [hempty]

/-- The encoders set the same flags. -/
theorem encodeRecordFlags_agrees (h : r.Valid) :
    Rust.encodeRecordFlags r = encodeRecordFlags r := by
  have hslots : Rust.putSlotFlag r = putSlotFlag r := by
    funext flags slot
    exact putSlotFlag_agrees r flags slot
  rw [Rust.encodeRecordFlags, encodeRecordFlags, hslots, sidecar_empty_agrees h]

/-- The flags of a root as two conditions. -/
theorem putSlotFlag_root (r : FlowRecord) (flags : Nat) :
    putSlotFlag r flags .root = putFlag (putFlag flags rootFlowIdSelfFlag
      (rootIs r true)) rootFlowIdFlag (rootIs r false) := by
  rw [putSlotFlag, rootIs, rootIs]
  cases r.rootFlowId with
  | none => simp [putFlag]
  | some root =>
    by_cases heq : some root = r.id
    · simp [putFlag, ← heq]
    · simp [putFlag, heq]

/-- Which fields follow. -/
theorem record_flags (r : FlowRecord) :
    (∀ field : RecordInt, hasFlag (encodeRecordFlags r) field.flag =
      ((r.int field).isSome && decide (r.int field ≠ field.omitted))) ∧
    (∀ field : RecordBin, hasFlag (encodeRecordFlags r) field.flag = (r.bin field).isSome) ∧
    hasFlag (encodeRecordFlags r) rootFlowIdSelfFlag = rootIs r true ∧
    hasFlag (encodeRecordFlags r) rootFlowIdFlag = rootIs r false ∧
    hasFlag (encodeRecordFlags r) sidecarFlag = decide (r.sidecar ≠ emptyChildGroups) := by
  simp only [encodeRecordFlags, wireOrder, foldl_cons, foldl_nil, putSlotFlag_root]
  simp only [putSlotFlag, hasFlag_putFlag, hasFlag_zero]
  refine ⟨fun field => ?_, fun field => ?_, ?_, ?_, ?_⟩
  · cases field <;> simp [RecordInt.flag, RecordBin.flag, rootFlowIdSelfFlag, rootFlowIdFlag,
      sidecarFlag]
  · cases field <;> simp [RecordInt.flag, RecordBin.flag, rootFlowIdSelfFlag, rootFlowIdFlag,
      sidecarFlag]
  all_goals simp [RecordInt.flag, RecordBin.flag, rootFlowIdSelfFlag, rootFlowIdFlag, sidecarFlag]

/-- The flags are a small number. -/
theorem encodeRecordFlags_lt (r : FlowRecord) : encodeRecordFlags r < 2 ^ 25 := by
  simp only [encodeRecordFlags, wireOrder, foldl_cons, foldl_nil, putSlotFlag_root]
  repeat' refine putFlag_lt ?_ (by decide)
  decide

theorem fitsInt_recordFlags (r : FlowRecord) : FitsInt (some (encodeRecordFlags r)) :=
  fitsInt_of_lt_two_pow (encodeRecordFlags_lt r) (by decide)

end Flags

/-! ## The encoders agree -/

/-- The encoders write the same optional fields. -/
theorem encodeSlots_agrees (h : r.Valid) (flags : Nat) (slots : List Slot) :
    Rust.encodeSlots flags r slots = some (slots.flatMap (encodeSlot flags r)) := by
  induction slots with
  | nil => rfl
  | cons slot slots ih =>
    have hslot : Rust.encodeSlot flags r slot = some (encodeSlot flags r slot) := by
      cases slot with
      | int field => exact encodeFlaggedInt_agrees (h.ints field) flags _
      | bin field => exact congrArg some (encodeFlaggedBin_agrees (h.bins field) flags _)
      | root => exact congrArg some (encodeFlaggedBin_agrees h.root flags _)
    exact bind_eq_some hslot (bind_eq_some ih rfl)

/-- The encoders write the same bytes. -/
theorem encodeRecord_agrees (h : r.Valid) :
    Rust.encodeFlowRecordCompact r = some (encodeRecord r) := by
  obtain ⟨hversion, hcreated, hupdated⟩ := required_ints h.required
  obtain ⟨hid, htype, hstate⟩ := h.requiredBins
  rw [Rust.encodeFlowRecordCompact, if_pos h.required, encodeRecordFlags_agrees h]
  refine bind_eq_some (encodeInt_agrees (fitsInt_recordFlags r)) ?_
  refine bind_eq_some (encodeInt_agrees hversion) ?_
  refine bind_eq_some (encodeInt_agrees hcreated) ?_
  refine bind_eq_some (encodeInt_agrees hupdated) ?_
  refine bind_eq_some (encodeSlots_agrees h _ _) ?_
  rw [encodeBin_agrees hid, encodeBin_agrees htype, encodeBin_agrees hstate]
  rfl

/-! ## Reading what was written -/

/-- What a field is read as. -/
def storeSlot (r acc : FlowRecord) : Slot → FlowRecord
  | .int field => acc.setInt field ((r.int field).or field.omitted)
  | .bin field => acc.setBin field (r.bin field)
  | .root => { acc with rootFlowId := r.rootFlowId }

@[simp] theorem id_storeSlot (r acc : FlowRecord) (slot : Slot) :
    (storeSlot r acc slot).id = acc.id := by
  cases slot <;> rfl

section ReadBack

variable {readInt : Bytes → Option (Option Nat × Bytes)}
  {readBin : Bytes → Option (Option Bytes × Bytes)}
  (hint : ∀ {value : Option Nat}, FitsInt value → ∀ rest,
    readInt (Elixir.encodeInt value ++ rest) = some (value, rest))
  (hbin : ∀ {value : Option Bytes}, FitsBin value → ∀ rest,
    readBin (Elixir.encodeBin value ++ rest) = some (value, rest))

include hint hbin

/-- A field is read back. -/
theorem decodeSlot_encode {r acc : FlowRecord} (h : r.Valid) (hid : acc.id = r.id) (slot : Slot)
    (rest : Bytes) :
    decodeSlot readInt readBin (encodeRecordFlags r) slot
        (encodeSlot (encodeRecordFlags r) r slot ++ rest) acc =
      some (storeSlot r acc slot, rest) := by
  obtain ⟨hints, hbins, hself, hroot, _⟩ := record_flags r
  cases slot with
  | int field =>
    rw [decodeSlot, encodeSlot, encodeFlaggedInt, hints field, storeSlot]
    cases hvalue : r.int field with
    | none => rfl
    | some value =>
      by_cases homitted : some value = field.omitted
      · simp [homitted]
      · have hfits := h.ints field
        rw [hvalue] at hfits
        simp [homitted, hint hfits]
  | bin field =>
    rw [decodeSlot, encodeSlot, encodeFlaggedBin, hbins field, storeSlot]
    cases hvalue : r.bin field with
    | none => rfl
    | some value =>
      have hfits := h.bins field
      rw [hvalue] at hfits
      simp [hbin hfits]
  | root =>
    rw [decodeSlot, encodeSlot, encodeFlaggedBin, hself, hroot, storeSlot, rootIs, rootIs]
    cases hvalue : r.rootFlowId with
    | none => rfl
    | some value =>
      by_cases hsame : some value = r.id
      · simp [← hsame, hid.trans hsame.symm]
      · have hfits := h.root
        rw [hvalue] at hfits
        simp [hsame, hbin hfits]

/-- The fields are read back. -/
theorem decodeSlots_encode {r acc : FlowRecord} (h : r.Valid) (hid : acc.id = r.id)
    (slots : List Slot) (rest : Bytes) :
    decodeSlots readInt readBin (encodeRecordFlags r) slots
        (slots.flatMap (encodeSlot (encodeRecordFlags r) r) ++ rest) acc =
      some (slots.foldl (storeSlot r) acc, rest) := by
  induction slots generalizing acc with
  | nil => rfl
  | cons slot slots ih =>
    rw [decodeSlots, flatMap_cons, append_assoc, decodeSlot_encode hint hbin h hid slot, bind_some]
    exact ih ((id_storeSlot r acc slot).trans hid)

/-- The required fields are read back. -/
theorem decodeRequired_encode (h : r.Valid) (rest : Bytes) :
    decodeRequired readInt readBin (encodeBin r.id ++ (encodeBin r.type ++
      (encodeBin r.state ++ (encodeInt r.version ++
      (encodeInt r.createdAtMs ++ (encodeInt r.updatedAtMs ++ rest)))))) =
      some (r.bare, rest) := by
  obtain ⟨hversion, hcreated, hupdated⟩ := required_ints h.required
  obtain ⟨hid, htype, hstate⟩ := h.requiredBins
  refine bind_eq_some (hbin hid _) ?_
  refine bind_eq_some (hbin htype _) ?_
  refine bind_eq_some (hbin hstate _) ?_
  refine bind_eq_some (hint hversion _) ?_
  refine bind_eq_some (hint hcreated _) ?_
  exact bind_eq_some (hint hupdated _) rfl

end ReadBack

/-- All fields together are the stored record. -/
theorem foldl_storeSlot (r acc : FlowRecord) : wireOrder.foldl (storeSlot r) acc = { acc with
      int := fun field => (r.int field).or field.omitted
      bin := r.bin
      rootFlowId := r.rootFlowId } := by
  simp only [wireOrder, foldl_cons, foldl_nil, storeSlot, setInt, setBin]
  congr 1
  · funext field
    cases field <;> simp [Function.update]
  · funext field
    cases field <;> simp [Function.update]

/-- The Rust decoder reads the sidecar of a valid record. -/
theorem decodeRecordSidecar_encode (h : r.Valid) : Rust.decodeRecordSidecar (encodeRecordFlags r)
      (if hasFlag (encodeRecordFlags r) sidecarFlag then r.sidecar else []) =
      some (r.sidecar, []) := by
  obtain ⟨_, _, _, _, hflag⟩ := record_flags r
  obtain ⟨payload, hsidecar, hfits⟩ := h.sidecar
  have hread : Rust.decodeBin r.sidecar = some (some payload, []) :=
    Rust.decodeBin_eq_some.mpr ⟨by rw [hsidecar, append_nil], hfits⟩
  rw [Rust.decodeRecordSidecar, hflag]
  by_cases hempty : r.sidecar = emptyChildGroups
  · simp [hempty]
  · simp [hempty, hread]

/-- The Rust decoder reads a valid record back. -/
theorem decode_encodeRecord (h : r.Valid) :
    Rust.decodeFlowRecord (encodeRecord r) = some r.stored := by
  have hint : ∀ {value : Option Nat}, FitsInt value → ∀ rest,
      Rust.decodeInt (encodeInt value ++ rest) = some (value, rest) := fun hfits rest =>
    Rust.decodeInt_eq_some.mpr ⟨rfl, hfits⟩
  have hbin : ∀ {value : Option Bytes}, FitsBin value → ∀ rest,
      Rust.decodeBin (encodeBin value ++ rest) = some (value, rest) := fun hfits rest =>
    Rust.decodeBin_eq_some.mpr ⟨rfl, hfits⟩
  have hknown : ¬2 ^ 25 ≤ encodeRecordFlags r := (encodeRecordFlags_lt r).not_ge
  refine bind_eq_some (hint (fitsInt_recordFlags r) _) ?_
  refine bind_eq_some rfl ?_
  show ite _ _ _ = _
  rw [if_neg hknown]
  refine bind_eq_some (decodeRequired_encode hint hbin h _) ?_
  show ite (required r = true) _ _ = _
  rw [if_pos h.required]
  refine bind_eq_some (decodeSlots_encode hint hbin h (show r.bare.id = r.id from rfl) wireOrder _) ?_
  refine bind_eq_some (decodeRecordSidecar_encode h) ?_
  show ite _ _ _ = _
  rw [if_pos rfl, foldl_storeSlot]
  rfl

/-! ## What the Rust decoder accepts -/

section Accepted

variable {readInt readInt' : Bytes → Option (Option Nat × Bytes)}
  {readBin readBin' : Bytes → Option (Option Bytes × Bytes)} {flags : Nat}

variable {rest : Bytes}

/-- A field behind a flag is read by a decoder that reads more. -/
theorem flagged_mono {α β : Type} {flag : Prop} [Decidable flag] {read read' : Option α}
    {set : α → β} {absent : Option β} {found : β}
    (hread : ∀ {value}, read = some value → read' = some value)
    (h : (if flag then read.map set else absent) = some found) :
    (if flag then read'.map set else absent) = some found := by
  split at h <;> rename_i hflag
  · obtain ⟨value, hvalue, hset⟩ := map_eq_some_iff.mp h
    rw [if_pos hflag, hread hvalue, map_some, hset]
  · rw [if_neg hflag, h]

/-- A decoder that reads more integers and binaries reads more fields. -/
theorem decodeSlots_mono
    (hint : ∀ {bytes read}, readInt bytes = some read → readInt' bytes = some read)
    (hbin : ∀ {bytes read}, readBin bytes = some read → readBin' bytes = some read)
    {slots : List Slot} {read : FlowRecord × Bytes}
    (h : decodeSlots readInt readBin flags slots rest r = some read) :
    decodeSlots readInt' readBin' flags slots rest r = some read := by
  induction slots generalizing rest r with
  | nil => exact h
  | cons slot slots ih =>
    obtain ⟨step, hstep, hrest⟩ := bind_eq_some_iff.mp h
    refine bind_eq_some_iff.mpr ⟨step, ?_, ih hrest⟩
    cases slot with
    | int field => exact flagged_mono hint hstep
    | bin field => exact flagged_mono hbin hstep
    | root =>
      rw [decodeSlot] at hstep ⊢
      split at hstep <;> rename_i hself
      · rw [if_pos hself, hstep]
      · rw [if_neg hself]
        exact flagged_mono hbin hstep

/-- What the fields of a record satisfy once all that is read does. -/
structure FlowRecord.Readable (r : FlowRecord) : Prop where
  ints : ∀ field, FitsInt (r.int field)
  bins : ∀ field, FitsBin (r.bin field)
  root : FitsBin r.rootFlowId
  id : FitsBin r.id

theorem fitsInt_omitted (field : RecordInt) : FitsInt field.omitted := by
  intro n hn
  cases field <;> cases hn
  all_goals decide

section

variable (hint : ∀ {bytes rest value}, readInt bytes = some (value, rest) → FitsInt value)
  (hbin : ∀ {bytes rest value}, readBin bytes = some (value, rest) → FitsBin value)
  {read : FlowRecord × Bytes} (hr : r.Readable)
include hint hbin hr

/-- A field is read into a readable record and leaves the required fields. -/
theorem decodeSlot_readable {slot : Slot}
    (h : decodeSlot readInt readBin flags slot rest r = some read) :
    read.1.Readable ∧ read.1.bare = r.bare := by
  have hsetInt : ∀ field value, FitsInt value →
      (r.setInt field value).Readable ∧ (r.setInt field value).bare = r.bare := by
    refine fun field value hvalue => ⟨{ hr with ints := fun other => ?_ }, rfl⟩
    simp only [setInt, Function.update_apply]
    split
    · exact hvalue
    · exact hr.ints other
  have hsetBin : ∀ field value, FitsBin value →
      (r.setBin field value).Readable ∧ (r.setBin field value).bare = r.bare := by
    refine fun field value hvalue => ⟨{ hr with bins := fun other => ?_ }, rfl⟩
    simp only [setBin, Function.update_apply]
    split
    · exact hvalue
    · exact hr.bins other
  have hsetRoot : ∀ value, FitsBin value → FlowRecord.Readable { r with rootFlowId := value } ∧
      bare { r with rootFlowId := value } = r.bare := fun value hvalue =>
    ⟨{ hr with root := hvalue }, rfl⟩
  cases slot with
  | int field =>
    rw [decodeSlot] at h
    split at h
    · obtain ⟨value, hvalue, rfl⟩ := map_eq_some_iff.mp h
      exact hsetInt field _ (hint hvalue)
    · cases h
      exact hsetInt field _ (fitsInt_omitted field)
  | bin field =>
    rw [decodeSlot] at h
    split at h
    · obtain ⟨value, hvalue, rfl⟩ := map_eq_some_iff.mp h
      exact hsetBin field _ (hbin hvalue)
    · cases h
      exact hsetBin field _ fitsBin_none
  | root =>
    rw [decodeSlot] at h
    split at h
    · cases h
      exact hsetRoot _ hr.id
    · split at h
      · obtain ⟨value, hvalue, rfl⟩ := map_eq_some_iff.mp h
        exact hsetRoot _ (hbin hvalue)
      · cases h
        exact hsetRoot _ fitsBin_none

/-- All fields are read into a readable record and leave the required fields. -/
theorem decodeSlots_readable {slots : List Slot}
    (h : decodeSlots readInt readBin flags slots rest r = some read) :
    read.1.Readable ∧ read.1.bare = r.bare := by
  induction slots generalizing rest r with
  | nil =>
    cases h
    exact ⟨hr, rfl⟩
  | cons slot slots ih =>
    obtain ⟨step, hstep, hrest⟩ := bind_eq_some_iff.mp h
    obtain ⟨hreadable, hbare⟩ := decodeSlot_readable hint hbin hr hstep
    obtain ⟨hlast, hsame⟩ := ih hreadable hrest
    exact ⟨hlast, hsame.trans hbare⟩

end

end Accepted

theorem decodeInt_mono {bytes : Bytes} {read : Option Nat × Bytes}
    (h : Rust.decodeInt bytes = some read) : decodeInt bytes = some read := by
  obtain ⟨rfl, hfits⟩ := Rust.decodeInt_eq_some.mp h
  exact decodeInt_encodeInt hfits read.2

theorem decodeBin_mono {bytes : Bytes} {read : Option Bytes × Bytes}
    (h : Rust.decodeBin bytes = some read) : decodeBin bytes = some read := by
  obtain ⟨rfl, hfits⟩ := Rust.decodeBin_eq_some.mp h
  exact decodeBin_encodeBin hfits read.2

/-- The required fields that the Rust decoder reads. -/
theorem decodeRequired_accepted {bytes rest : Bytes}
    (h : decodeRequired Rust.decodeInt Rust.decodeBin bytes = some (r, rest)) :
    decodeRequired decodeInt decodeBin bytes = some (r, rest) ∧ r = r.bare ∧
      FitsBin r.id ∧ FitsBin r.type ∧ FitsBin r.state := by
  obtain ⟨id, hid, h⟩ := bind_eq_some_iff.mp h
  obtain ⟨type, htype, h⟩ := bind_eq_some_iff.mp h
  obtain ⟨state, hstate, h⟩ := bind_eq_some_iff.mp h
  obtain ⟨version, hversion, h⟩ := bind_eq_some_iff.mp h
  obtain ⟨created, hcreated, h⟩ := bind_eq_some_iff.mp h
  obtain ⟨updated, hupdated, h⟩ := bind_eq_some_iff.mp h
  refine ⟨?_, ?_⟩
  · refine bind_eq_some (decodeBin_mono hid) ?_
    refine bind_eq_some (decodeBin_mono htype) ?_
    refine bind_eq_some (decodeBin_mono hstate) ?_
    refine bind_eq_some (decodeInt_mono hversion) ?_
    refine bind_eq_some (decodeInt_mono hcreated) ?_
    exact bind_eq_some (decodeInt_mono hupdated) h
  · obtain ⟨rfl, _⟩ := Prod.mk.inj (some.inj h)
    exact ⟨rfl, (Rust.decodeBin_eq_some.mp hid).2, (Rust.decodeBin_eq_some.mp htype).2,
      (Rust.decodeBin_eq_some.mp hstate).2⟩

/-- The fields that the Rust decoder reads after the required ones. -/
theorem decodeSlots_accepted {flags : Nat} {rest : Bytes} {start : FlowRecord}
    {read : FlowRecord × Bytes} (hstart : start = start.bare) (hid : FitsBin start.id)
    (h : decodeSlots Rust.decodeInt Rust.decodeBin flags wireOrder rest start = some read) :
    read.1.Readable ∧ read.1.bare = start.bare := by
  refine decodeSlots_readable (fun hint => (Rust.decodeInt_eq_some.mp hint).2)
    (fun hbin => (Rust.decodeBin_eq_some.mp hbin).2) ?_ h
  rw [hstart]
  exact ⟨fun _ => fitsInt_none, fun _ => fitsBin_none, fitsBin_none, hid⟩

variable {value : Bytes}

/-- How the Rust decoder accepts a record. -/
theorem Rust.decodeFlowRecord_accepted (h : Rust.decodeFlowRecord value = some r) :
    ∃ flags rest start rest' read rest'', value.take 4 = recordMagic ∧
      Rust.decodeInt (value.drop 4) = some (some flags, rest) ∧
      decodeRequired Rust.decodeInt Rust.decodeBin rest = some (start, rest') ∧
      start.required = true ∧
      decodeSlots Rust.decodeInt Rust.decodeBin flags wireOrder rest' start = some (read, rest'') ∧
      Rust.decodeRecordSidecar flags rest'' = some (r.sidecar, []) ∧
      r = { read with sidecar := r.sidecar } := by
  rw [Rust.decodeFlowRecord] at h
  split at h
  · rename_i hmagic
    obtain ⟨⟨flags?, rest⟩, hflags, h⟩ := bind_eq_some_iff.mp h
    obtain ⟨flags, rfl, h⟩ := bind_eq_some_iff.mp h
    replace h : ite _ _ _ = some r := h
    split at h
    · cases h
    · obtain ⟨⟨start, rest'⟩, hstart, h⟩ := bind_eq_some_iff.mp h
      replace h : ite _ _ _ = some r := h
      split at h
      · rename_i hrequired
        obtain ⟨⟨read, rest''⟩, hread, h⟩ := bind_eq_some_iff.mp h
        obtain ⟨⟨sidecar, last⟩, hsidecar, h⟩ := bind_eq_some_iff.mp h
        replace h : ite _ _ _ = some r := h
        split at h
        · rename_i hend
          obtain rfl := some.inj h
          obtain rfl : last = [] := hend
          exact ⟨flags, rest, start, rest', read, rest'', hmagic, hflags, hstart, hrequired, hread,
            hsidecar, rfl⟩
        · cases h
      · cases h
  · cases h

/-- The sidecar that the Rust decoder accepts. -/
theorem Rust.decodeRecordSidecar_accepted {flags : Nat} {input sidecar : Bytes}
    (h : Rust.decodeRecordSidecar flags input = some (sidecar, [])) :
    (hasFlag flags sidecarFlag = true ∧ sidecar = input ∧
      ∃ payload, sidecar = Elixir.encodeBin payload ∧ FitsBin payload) ∨
    (hasFlag flags sidecarFlag = false ∧ input = [] ∧ sidecar = emptyChildGroups) := by
  rw [Rust.decodeRecordSidecar] at h
  split at h
  · rename_i hflag
    obtain ⟨⟨payload, rest⟩, hread, h⟩ := map_eq_some_iff.mp h
    obtain ⟨hsidecar, hrest⟩ := Prod.mk.inj h
    obtain rfl : rest = [] := hrest
    obtain ⟨hinput, hfits⟩ := Rust.decodeBin_eq_some.mp hread
    obtain rfl : input = sidecar := by simpa using hsidecar
    exact .inl ⟨hflag, rfl, payload, by simpa using hinput, hfits⟩
  · rename_i hflag
    cases h
    exact .inr ⟨by simpa using hflag, rfl, rfl⟩

/-- The Elixir decoder accepts a sidecar. -/
def Elixir.acceptsSidecar (accepts : Bytes → Bool) (sidecar : Bytes) : Bool :=
  match Elixir.decodeBin sidecar with
  | some (some payload, []) => accepts payload
  | _ => false

/-- What the Rust decoder accepts, the Elixir decoder reads in the same way. -/
theorem decodeRecord_agrees {accepts : Bytes → Bool} (h : Rust.decodeFlowRecord value = some r)
    (haccepts : Elixir.acceptsSidecar accepts r.sidecar = true) :
    Elixir.decodeRecord accepts value = some r.withoutZeroLimit := by
  obtain ⟨flags, rest, start, rest', read, rest'', hmagic, hflags, hstart, hrequired, hread,
    hsidecar, hr⟩ := Rust.decodeFlowRecord_accepted h
  obtain ⟨hstart', hbareStart, hid, _, _⟩ := decodeRequired_accepted hstart
  obtain ⟨_, hbare⟩ := decodeSlots_accepted hbareStart hid hread
  -- the required fields stay as they were checked
  have hkept : read.required = true := (congrArg required hbare).trans hrequired
  have hside : Elixir.decodeRecordSidecar accepts flags rest'' = some r.sidecar := by
    rw [Elixir.decodeRecordSidecar]
    rcases Rust.decodeRecordSidecar_accepted hsidecar with
      ⟨hflag, hsame, payload, hpayload, hfits⟩ | ⟨hflag, rfl, hempty⟩
    · rw [if_pos hflag, ← hsame]
      rw [Elixir.acceptsSidecar] at haccepts
      have hdecode : Elixir.decodeBin r.sidecar = some (payload, []) := by
        have hback := Elixir.decodeBin_encodeBin hfits []
        rwa [append_nil, ← hpayload] at hback
      rw [hdecode] at haccepts ⊢
      cases payload with
      | none => cases haccepts
      | some payload => exact if_pos haccepts
    · rw [hflag, hempty]
      rfl
  rw [Elixir.decodeRecord, if_pos hmagic]
  refine bind_eq_some (decodeInt_mono hflags) ?_
  refine bind_eq_some rfl ?_
  refine bind_eq_some hstart' ?_
  refine bind_eq_some (decodeSlots_mono decodeInt_mono decodeBin_mono hread) ?_
  refine bind_eq_some hside ?_
  show ite _ _ _ = _
  rw [if_pos hkept, hr]
  rfl

/-- A record that the Rust decoder reads is valid, unless its sidecar is an absent binary. -/
theorem valid_of_decode
    (h : Rust.decodeFlowRecord value = some r) (hside : r.sidecar ≠ [0]) : r.Valid := by
  obtain ⟨flags, rest, start, rest', read, rest'', _, _, hstart, hrequired, hread, hsidecar, hr⟩ :=
    Rust.decodeFlowRecord_accepted h
  obtain ⟨_, hbareStart, hid, htype, hstate⟩ := decodeRequired_accepted hstart
  obtain ⟨hfields, hbare⟩ := decodeSlots_accepted hbareStart hid hread
  have hsame : r.bare = start.bare := by
    rw [hr]
    exact hbare
  refine ⟨(congrArg required hsame).trans hrequired, ?_, ?_, ?_, ?_, ?_⟩
  · show FitsBin r.bare.id ∧ FitsBin r.bare.type ∧ FitsBin r.bare.state
    rw [hsame]
    exact ⟨hid, htype, hstate⟩
  · rw [hr]
    exact hfields.ints
  · rw [hr]
    exact hfields.bins
  · rw [hr]
    exact hfields.root
  · rcases Rust.decodeRecordSidecar_accepted hsidecar with
      ⟨_, _, payload, hpayload, hfits⟩ | ⟨_, _, hempty⟩
    · cases payload with
      | none => exact absurd hpayload hside
      | some payload => exact ⟨payload, hpayload, hfits⟩
    · exact ⟨emptyPayload, hempty, fitsBin_emptyPayload⟩

/-- A record with all its counters is stored as it is. -/
theorem FlowRecord.stored_eq
    (h : ∀ field : RecordInt, field.omitted.isSome → (r.int field).isSome) : r.stored = r := by
  have hints : (fun field => (r.int field).or field.omitted) = r.int := by
    funext field
    have hfield := h field
    cases hvalue : r.int field with
    | some value => rfl
    | none =>
      cases homitted : field.omitted with
      | none => rfl
      | some omitted =>
        rw [hvalue, homitted] at hfield
        cases hfield rfl
  rw [stored, hints]

/-- The two implementations of the record format agree. -/
theorem record_codecs_agree (accepts : Bytes → Bool) : (∀ r : FlowRecord, r.Valid →
      Rust.encodeFlowRecordCompact r = some (Elixir.encodeRecord r) ∧
      Rust.decodeFlowRecord (Elixir.encodeRecord r) = some r.stored ∧
      (Elixir.acceptsSidecar accepts r.sidecar = true →
        Elixir.decodeRecord accepts (Elixir.encodeRecord r) = some r.stored.withoutZeroLimit)) ∧
    ∀ (value : Bytes) (r : FlowRecord), Rust.decodeFlowRecord value = some r →
      (Elixir.acceptsSidecar accepts r.sidecar = true →
        Elixir.decodeRecord accepts value = some r.withoutZeroLimit) ∧
      ((∀ field : RecordInt, field.omitted.isSome → (r.int field).isSome) → r.sidecar ≠ [0] →
        ∃ again, Rust.encodeFlowRecordCompact r = some again ∧
          Rust.decodeFlowRecord again = some r) := by
  refine ⟨fun r hvalid => ?_, fun value r hdecode => ⟨fun haccepts => ?_,
    fun hcounters hside => ?_⟩⟩
  · have hback := decode_encodeRecord hvalid
    exact ⟨encodeRecord_agrees hvalid, hback, fun haccepts => decodeRecord_agrees hback haccepts⟩
  · exact decodeRecord_agrees hdecode haccepts
  · have hvalid := valid_of_decode hdecode hside
    refine ⟨encodeRecord r, encodeRecord_agrees hvalid, ?_⟩
    rw [decode_encodeRecord hvalid, stored_eq hcounters]

/-- A record of a root flow with nothing but its required fields. -/
theorem record_codecs_agree_root :
    let r : FlowRecord := {
      id := some [97], type := some [98], state := some [99], version := some 0
      createdAtMs := some 5, updatedAtMs := some 300, int := fun _ => none, bin := fun _ => none
      rootFlowId := some [97], sidecar := emptyChildGroups }
    r.Valid ∧ Rust.encodeFlowRecordCompact r = some (Elixir.encodeRecord r) ∧
      Rust.decodeFlowRecord (Elixir.encodeRecord r) = some r.stored ∧
      ∃ again, Rust.encodeFlowRecordCompact r.stored = some again ∧
        Rust.decodeFlowRecord again = some r.stored := by
  intro r
  obtain ⟨hwritten, hread⟩ := record_codecs_agree fun _ => true
  have hshort : ∀ byte : UInt8, FitsBin (some [byte]) := fun byte =>
    fitsBin_some.mpr (show 2 < u64Size by decide)
  have hvalid : r.Valid :=
    ⟨by decide, ⟨hshort 97, hshort 98, hshort 99⟩, fun _ => fitsInt_none, fun _ => fitsBin_none,
      hshort 97, emptyPayload, rfl, fitsBin_emptyPayload⟩
  obtain ⟨hencode, hdecode, _⟩ := hwritten r hvalid
  have hcounters : ∀ field : RecordInt, field.omitted.isSome → (r.stored.int field).isSome :=
    fun field hsome => by simpa [stored, r] using hsome
  exact ⟨hvalid, hencode, hdecode, (hread _ _ hdecode).2 hcounters (by decide)⟩

/-- The bytes of a record whose attempts are written as absent. -/
def absentAttempts : Bytes :=
  recordMagic ++ [2, 2, 97, 2, 98, 2, 99, 1, 1, 1, 0]

/-- The Rust decoder accepts attempts that are written as absent, and reads zero after the record was
written again. -/
theorem absent_attempts_become_zero :
    (Rust.decodeFlowRecord absentAttempts).map (fun r => r.int .attempts) = some none ∧
      (((Rust.decodeFlowRecord absentAttempts).bind Rust.encodeFlowRecordCompact).bind
        Rust.decodeFlowRecord).map (fun r => r.int .attempts) = some (some 0) := by
  decide +kernel

end FerricStore.Flow
