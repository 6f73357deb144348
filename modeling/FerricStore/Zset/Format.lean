import FerricStore.Lib.Float64
import FerricStore.Lib.Result

/-!
# The layout of a sorted-set tree file

A tree file is a header region with two slots, followed by frames: a frame header, pages, the
logged changes and a trailer that names the roots of both trees. This module is `format.rs`:
tokens, and the codecs of slots, frame headers, trailers, logged changes and undo logs, each with
its round trip.
-/

namespace FerricStore.Zset

open List

/-- Bytes of a page. -/
def pageSize : Nat := 4096

/-- Bytes before the first frame. -/
def headerRegion : Nat := 4096

/-- Bytes of a header slot. -/
def slotSize : Nat := 256

/-- The version in a header slot. -/
def formatVersion : Nat := 1

/-- Bytes of a frame header. -/
def frameHeaderSize : Nat := 40

/-- Bytes of a trailer. -/
def trailerSize : Nat := 72

/-- Longer keys keep a few first bytes in the node and all of them in overflow pages. -/
def inlineKeyMax : Nat := 512

/-- How many first bytes of a long key a node keeps. -/
def overflowPrefix : Nat := 64

/-- The failures of a tree file, one constructor for each message of the source. `panicked` is an
index out of range, and `tooDeep` the end of the recursion that the model allows itself. -/
inductive TreeError where
  | scoreNotANumber
  | truncatedField
  | truncatedLoggedOp
  | unknownLoggedOp
  | truncatedUndoLog
  | overflowNotWritten
  | nodeTooLarge (used : Nat)
  | shortPage
  | pageLengthOutOfRange
  | pageChecksum
  | notAnOverflowPage
  | truncatedKey
  | unknownKeyEncoding
  | overflowPrefixMismatch
  | truncatedEntry
  | truncatedValue
  | fewerThanTwoChildren
  | notATreePage
  | readPastEnd (len offset fileLen : Nat)
  | pageInHeader (offset : Nat)
  | overflowChainLength
  | needsRecovery
  | emptyRoot
  | removedKeyVanished
  | siblingsAtDifferentDepths
  | childAfterParent
  | memberTooLong
  | notAScore
  | shortScoreKey
  | resultNotANumber
  | incrementOverflow
  | panicked
  | tooDeep
  deriving DecidableEq, Repr

/-- A computation on a tree file. -/
abbrev Result (α : Type) := Except TreeError α

section Safe

variable {α β : Type} {P Q : α → Prop}

/-- A computation that neither panics nor recurses too deep and whose answer has a property. -/
def Safe (P : α → Prop) : Result α → Prop
  | .ok a => P a
  | .error e => e ≠ .panicked ∧ e ≠ .tooDeep

/-- A property of an answer is carried through the rest of the computation. -/
theorem Safe.bind {Q : β → Prop} {x : Result α} {f : α → Result β} (hx : Safe P x)
    (hf : ∀ a, P a → Safe Q (f a)) : Safe Q (x >>= f) := by
  cases x with
  | error e => exact hx
  | ok a => exact hf a hx

theorem Safe.mono {x : Result α} (h : Safe P x) (hPQ : ∀ a, P a → Q a) :
    Safe Q x := by
  cases x with
  | error e => exact h
  | ok a => exact hPQ a h

end Safe

/-- The log position a frame was written for. -/
structure Token where
  index : Nat
  ordinal : Nat
  deriving DecidableEq, Repr

namespace Token

/-- The position of an empty file. -/
def default : Token := ⟨0, 0⟩

/-- Both parts are 64-bit numbers. -/
def Fits (token : Token) : Prop := token.index < 256 ^ 8 ∧ token.ordinal < 256 ^ 8

end Token

/-! ## Fields -/

variable (score : Float64) (bytes : Bytes)

/-- The little-endian number of `width` bytes at a position. -/
def getField (width : Nat) (bytes : Bytes) (pos : Nat) : Result Nat :=
  if pos + width ≤ bytes.length then .ok (leNat (slice bytes pos width))
  else .error .truncatedField

/-- The 16-bit number at a position. -/
def getU16 (pos : Nat) : Result Nat := getField 2 bytes pos

/-- The 32-bit number at a position. -/
def getU32 (pos : Nat) : Result Nat := getField 4 bytes pos

/-- The 64-bit number at a position. -/
def getU64 (pos : Nat) : Result Nat := getField 8 bytes pos

/-- The bytes from a position on; a position past the end panics. -/
def sliceFrom (pos : Nat) : Result Bytes :=
  if pos ≤ bytes.length then .ok (bytes.drop pos) else .error .panicked

/-- The first bytes, `[0..n]`; fewer bytes than that panic. -/
def sliceTo (n : Nat) : Result Bytes :=
  if n ≤ bytes.length then .ok (slice bytes 0 n) else .error .panicked

/-- `.ok()?` on a field: the answer is none if the field is truncated. -/
def okElseNone {α β : Type} (field : Result α) (next : α → Result (Option β)) :
    Result (Option β) :=
  match field with
  | .ok value => next value
  | .error _ => .ok none

/-- Numbers one after another, each with its width. -/
def putFields (fields : List (Nat × Nat)) : Bytes :=
  fields.flatMap fun (width, n) => leBytes width n

/-- The widths add up to the length. -/
theorem length_putFields (fields : List (Nat × Nat)) :
    (putFields fields).length = (fields.map Prod.fst).sum := by
  induction fields with
  | nil => rfl
  | cons field fields ih =>
    rw [putFields, flatMap_cons, length_append, length_leBytes, map_cons, sum_cons, ← ih, putFields]

theorem putFields_append (fields fields' : List (Nat × Nat)) :
    putFields (fields ++ fields') = putFields fields ++ putFields fields' :=
  flatMap_append

variable {width n : Nat}

theorem getField_append (before after : Bytes) (h : n < 256 ^ width) :
    getField width (before ++ (leBytes width n ++ after)) before.length = .ok n := by
  rw [getField, if_pos (by simp), slice_middle rfl (length_leBytes _ _), leNat_leBytes _ h]

/-- A field that is read is encoded at its position. -/
theorem getField_safe (width : Nat) (bytes : Bytes) (pos : Nat) :
    Safe (fun n => n < 256 ^ width ∧ pos + width ≤ bytes.length ∧
      bytes.drop pos = leBytes width n ++ bytes.drop (pos + width)) (getField width bytes pos) := by
  rw [getField]
  split_ifs with h
  · have hlen := length_slice_of_le h
    refine ⟨?_, h, ?_⟩
    · simpa only [hlen] using leNat_lt (slice bytes pos width)
    · rw [leBytes_leNat hlen, slice, ← drop_drop, take_append_drop]
  · exact ⟨by decide, by decide⟩

/-- The first bytes of as many or more. -/
theorem sliceTo_eq {bytes : Bytes} {n : Nat} (h : n ≤ bytes.length) :
    sliceTo bytes n = .ok (slice bytes 0 n) := if_pos h

@[simp] theorem okElseNone_ok {α β : Type} (value : α) (next : α → Result (Option β)) :
    okElseNone (.ok value) next = next value := rfl

/-- A field, and what is done with a number that fits its width. -/
theorem Safe.okElseNone {β : Type} {P : Option β → Prop} {pos : Nat}
    {next : Nat → Result (Option β)} (hnone : P none)
    (hnext : ∀ n, n < 256 ^ width → Safe P (next n)) :
    Safe P (Zset.okElseNone (getField width bytes pos) next) := by
  have hfield := getField_safe width bytes pos
  cases h : getField width bytes pos with
  | error e => exact hnone
  | ok n =>
    rw [h] at hfield
    exact hnext n hfield.1

/-- Fields that fit their widths are read one behind the other, from a position on. -/
def Reads (bytes : Bytes) (start : Nat) (fields : List (Nat × Nat)) : Prop :=
  ∀ ⦃width n : Nat⦄ (i pos : Nat), fields[i]? = some (width, n) → n < 256 ^ width →
    ((fields.take i).map Prod.fst).sum = pos → getField width bytes (start + pos) = .ok n

/-- Fields are read where they are put. -/
theorem reads_putFields (before : Bytes) (fields : List (Nat × Nat)) (after : Bytes) :
    Reads (before ++ (putFields fields ++ after)) before.length fields := by
  intro width n i pos hi hn hpos
  obtain ⟨hlt, hget⟩ := List.getElem?_eq_some_iff.mp hi
  have hsplit : fields = fields.take i ++ (width, n) :: fields.drop (i + 1) := by
    rw [← hget, getElem_cons_drop, take_append_drop]
  have hlen : (before ++ putFields (fields.take i)).length = before.length + pos := by
    rw [length_append, length_putFields, hpos]
  have hput : before ++ (putFields fields ++ after) = (before ++ putFields (fields.take i)) ++
      (leBytes width n ++ (putFields (fields.drop (i + 1)) ++ after)) := by
    conv_lhs => rw [hsplit, putFields_append]
    show before ++ ((_ ++ (leBytes width n ++ putFields (fields.drop (i + 1)))) ++ after) = _
    simp
  rw [hput, ← hlen]
  exact getField_append _ _ hn

theorem reads_front (fields : List (Nat × Nat)) : Reads (putFields fields) 0 fields := by
  simpa using reads_putFields [] fields []

/-- The first fields. -/
theorem slice_putFields {fields : List (Nat × Nat)} (h : (fields.map Prod.fst).sum = n)
    (others : List (Nat × Nat)) : slice (putFields (fields ++ others)) 0 n = putFields fields := by
  rw [putFields_append]
  exact slice_front (by rw [length_putFields, h])

/-! ## Header slots -/

/-- One of the two header slots: the latest frame and the last one known to be on disk. -/
structure HeaderSlot where
  generation : Nat
  latestFrameEnd : Nat
  syncedFrameEnd : Nat
  deriving DecidableEq, Repr

namespace HeaderSlot

/-- The first bytes of a slot, `FZSTHDR1`. -/
def magic : Bytes := [0x46, 0x5A, 0x53, 0x54, 0x48, 0x44, 0x52, 0x31]

variable (slot : HeaderSlot)

/-- The bytes under the checksum. -/
def covered : Bytes :=
  magic ++ putFields [(4, formatVersion), (4, pageSize), (8, slot.generation),
    (8, slot.latestFrameEnd), (8, slot.syncedFrameEnd)]

/-- A slot on disk. -/
def encode : Bytes :=
  resize (slot.covered ++ leBytes 4 (crc32 slot.covered)) slotSize

/-- The slot in some bytes, unless it is torn, of another format or never written. -/
def decode (bytes : Bytes) : Result (Option HeaderSlot) :=
  if bytes.length < 44 then .ok none
  else do
    if (← sliceTo bytes 8) ≠ magic then .ok none
    else
      okElseNone (getU32 bytes 40) fun checksum => do
        if crc32 (← sliceTo bytes 40) ≠ checksum then .ok none
        else
          okElseNone (getU32 bytes 8) fun version =>
          if version ≠ formatVersion then .ok none
          else
            okElseNone (getU32 bytes 12) fun size =>
            if size ≠ pageSize then .ok none
            else
              okElseNone (getU64 bytes 16) fun generation =>
              okElseNone (getU64 bytes 24) fun latestFrameEnd =>
              okElseNone (getU64 bytes 32) fun syncedFrameEnd =>
                if headerRegion ≤ latestFrameEnd ∧ headerRegion ≤ syncedFrameEnd ∧
                    syncedFrameEnd ≤ latestFrameEnd then
                  .ok (some ⟨generation, latestFrameEnd, syncedFrameEnd⟩)
                else .ok none

/-- A slot that names frames behind the header, in order, with numbers of 64 bits. -/
structure Fits : Prop where
  generation : slot.generation < 256 ^ 8
  latest : slot.latestFrameEnd < 256 ^ 8
  synced : headerRegion ≤ slot.syncedFrameEnd
  ordered : slot.syncedFrameEnd ≤ slot.latestFrameEnd

/-- A slot is read as it was written. -/
theorem decode_encode {slot : HeaderSlot} (h : slot.Fits) :
    decode slot.encode = .ok (some slot) := by
  have hcovered : slot.covered.length = 40 := by
    rfl
  -- the checksum and the zeros behind it
  obtain ⟨after, hafter⟩ : ∃ after, slot.encode =
      slot.covered ++ (leBytes 4 (crc32 slot.covered) ++ after) := by
    rw [encode, resize, take_of_length_le, append_assoc]
    · exact ⟨_, rfl⟩
    · rw [length_append, hcovered, length_leBytes]
      decide
  have hread : Reads slot.encode 8 [(4, formatVersion), (4, pageSize), (8, slot.generation),
      (8, slot.latestFrameEnd), (8, slot.syncedFrameEnd)] := reads_putFields magic _ _
  have hversion := hread 0 0 rfl (by decide) rfl
  have hpage := hread 1 4 rfl (by decide) rfl
  have hgeneration := hread 2 8 rfl h.generation rfl
  have hlatest := hread 3 16 rfl h.latest rfl
  have hsynced := hread 4 24 rfl (h.ordered.trans_lt h.latest) rfl
  have hcrc := getField_append slot.covered after (crc32_lt slot.covered)
  rw [hcovered, ← hafter] at hcrc
  have hmagic : slice slot.encode 0 8 = magic := by
    rw [hafter, covered, append_assoc]
    exact slice_front rfl
  have hlen : slot.encode.length = slotSize := length_resize _ _
  have hslice : slice slot.encode 0 40 = slot.covered := by rw [hafter, slice_front hcovered]
  rw [decode, if_neg (by rw [hlen, slotSize]; decide), sliceTo_eq (by rw [hlen, slotSize]; decide),
    ok_bind, hmagic, if_neg (not_not.mpr rfl), getU32, hcrc, okElseNone_ok,
    sliceTo_eq (by rw [hlen, slotSize]; decide), ok_bind, hslice, if_neg (not_not.mpr rfl)]
  simp only [getU32, getU64, hversion, hpage, hgeneration, hlatest, hsynced, okElseNone_ok, ne_eq,
    not_true_eq_false, if_false]
  exact if_pos ⟨h.synced.trans h.ordered, h.synced, h.ordered⟩

/-- Whatever the bytes are, no slicing is out of range, and a slot that is read fits. -/
theorem decode_safe (bytes : Bytes) :
    Safe (fun answer => ∀ slot ∈ answer, slot.Fits) (decode bytes) := by
  have hnone : Safe (fun answer : Option HeaderSlot => ∀ slot ∈ answer, slot.Fits) (.ok none) :=
    nofun
  rw [decode]
  split_ifs with hlen
  · exact hnone
  rw [sliceTo_eq (by omega), ok_bind]
  split_ifs
  · exact hnone
  refine Safe.okElseNone bytes hnone fun checksum _ => ?_
  rw [sliceTo_eq (by omega), ok_bind]
  split_ifs
  · exact hnone
  refine Safe.okElseNone bytes hnone fun version _ => ?_
  split_ifs
  · exact hnone
  refine Safe.okElseNone bytes hnone fun size _ => ?_
  split_ifs
  · exact hnone
  refine Safe.okElseNone bytes hnone fun generation hgeneration => ?_
  refine Safe.okElseNone bytes hnone fun latest hlatest => ?_
  refine Safe.okElseNone bytes hnone fun synced _ => ?_
  split_ifs with hends
  · rintro slot ⟨⟩
    exact ⟨hgeneration, hlatest, hends.2.1, hends.2.2⟩
  · exact hnone

end HeaderSlot

/-! ## Frames -/

/-- The header of a frame. -/
structure FrameHeader where
  pageCount : Nat
  opsLen : Nat
  token : Token
  base : Bool
  deriving DecidableEq, Repr

namespace FrameHeader

/-- The first number of a frame header. -/
def magic : Nat := 0x46524d31

variable (header : FrameHeader)

/-- The fields under the checksum. -/
def fields : List (Nat × Nat) :=
  [(4, magic), (4, header.pageCount), (4, header.opsLen), (4, if header.base then 1 else 0),
    (8, header.token.index), (8, header.token.ordinal)]

/-- A frame header on disk. -/
def encode : Bytes :=
  putFields (header.fields ++ [(4, crc32 (putFields header.fields)), (4, 0)])

/-- The frame header at the front of some bytes. -/
def decode (bytes : Bytes) : Result (Option FrameHeader) :=
  if bytes.length < frameHeaderSize then .ok none
  else
    okElseNone (getU32 bytes 0) fun first =>
    if first ≠ magic then .ok none
    else do
      let covered ← sliceTo bytes 32
      okElseNone (getU32 bytes 32) fun checksum =>
        if crc32 covered ≠ checksum then .ok none
        else
          okElseNone (getU32 bytes 4) fun pageCount =>
          okElseNone (getU32 bytes 8) fun opsLen =>
          okElseNone (getU64 bytes 16) fun index =>
          okElseNone (getU64 bytes 24) fun ordinal =>
          okElseNone (getU32 bytes 12) fun flags =>
            .ok (some ⟨pageCount, opsLen, ⟨index, ordinal⟩, decide (flags % 2 = 1)⟩)

/-- The numbers fit their fields. -/
structure Fits : Prop where
  pageCount : header.pageCount < 256 ^ 4
  opsLen : header.opsLen < 256 ^ 4
  token : header.token.Fits

theorem length_encode : header.encode.length = frameHeaderSize := by
  rfl

/-- A frame header is read as it was written. -/
theorem decode_encode {header : FrameHeader} (h : header.Fits) :
    decode header.encode = .ok (some header) := by
  have hread : Reads header.encode 0 _ := reads_front _
  have hmagic := hread 0 0 rfl (show magic < 256 ^ 4 by decide) rfl
  have hpages := hread 1 4 rfl h.pageCount rfl
  have hops := hread 2 8 rfl h.opsLen rfl
  have hbase := hread 3 12 rfl (show (if header.base then 1 else 0) < 256 ^ 4 by split <;> decide) rfl
  have hindex := hread 4 16 rfl h.token.1 rfl
  have hordinal := hread 5 24 rfl h.token.2 rfl
  have hcrc := hread 6 32 rfl (crc32_lt (putFields header.fields)) rfl
  have hcovered : slice header.encode 0 32 = putFields header.fields := slice_putFields rfl _
  have hlen := length_encode header
  rw [decode, if_neg (by rw [hlen]; exact lt_irrefl _), getU32, hmagic, okElseNone_ok,
    if_neg (not_not.mpr rfl), sliceTo_eq (by rw [hlen, frameHeaderSize]; decide), ok_bind, getU32,
    hcrc, okElseNone_ok, hcovered, if_neg (not_not.mpr rfl)]
  simp only [getU32, getU64, hpages, hops, hbase, hindex, hordinal, okElseNone_ok]
  cases header with
  | mk pageCount opsLen token base => cases base <;> rfl

/-- Whatever the bytes are, no slicing is out of range, and a header that is read fits. -/
theorem decode_safe (bytes : Bytes) :
    Safe (fun answer => ∀ header ∈ answer, header.Fits) (decode bytes) := by
  have hnone : Safe (fun answer : Option FrameHeader => ∀ header ∈ answer, header.Fits)
      (.ok none) := nofun
  rw [decode]
  split_ifs with hlen
  · exact hnone
  refine Safe.okElseNone bytes hnone fun first _ => ?_
  split_ifs
  · exact hnone
  rw [sliceTo_eq (by rw [frameHeaderSize] at hlen; omega), ok_bind]
  refine Safe.okElseNone bytes hnone fun checksum _ => ?_
  split_ifs
  · exact hnone
  refine Safe.okElseNone bytes hnone fun pageCount hpages => ?_
  refine Safe.okElseNone bytes hnone fun opsLen hops => ?_
  refine Safe.okElseNone bytes hnone fun index hindex => ?_
  refine Safe.okElseNone bytes hnone fun ordinal hordinal => ?_
  refine Safe.okElseNone bytes hnone fun flags _ => ?_
  rintro header ⟨⟩
  exact ⟨hpages, hops, hindex, hordinal⟩

end FrameHeader

/-- The trailer of a frame: the roots of both trees as of it. -/
structure Trailer where
  scoreRoot : Nat
  memberRoot : Nat
  count : Nat
  frameStart : Nat
  generation : Nat
  token : Token
  bodyCrc : Nat
  deriving DecidableEq, Repr

namespace Trailer

/-- The last number of a trailer before its checksum. -/
def magic : Nat := 0x54524c31

variable (trailer : Trailer)

/-- The fields under the checksum. -/
def fields : List (Nat × Nat) :=
  [(8, trailer.scoreRoot), (8, trailer.memberRoot), (8, trailer.count), (8, trailer.frameStart),
    (8, trailer.generation), (8, trailer.token.index), (8, trailer.token.ordinal),
    (4, trailer.bodyCrc), (4, magic)]

/-- A trailer on disk. -/
def encode : Bytes :=
  putFields (trailer.fields ++ [(4, crc32 (putFields trailer.fields)), (4, 0)])

/-- The trailer at the front of some bytes. -/
def decode (bytes : Bytes) : Result (Option Trailer) :=
  if bytes.length < trailerSize then .ok none
  else
    okElseNone (getU32 bytes 60) fun mark =>
    if mark ≠ magic then .ok none
    else do
      let covered ← sliceTo bytes 64
      okElseNone (getU32 bytes 64) fun checksum =>
        if crc32 covered ≠ checksum then .ok none
        else
          okElseNone (getU64 bytes 0) fun scoreRoot =>
          okElseNone (getU64 bytes 8) fun memberRoot =>
          okElseNone (getU64 bytes 16) fun count =>
          okElseNone (getU64 bytes 24) fun frameStart =>
          okElseNone (getU64 bytes 32) fun generation =>
          okElseNone (getU64 bytes 40) fun index =>
          okElseNone (getU64 bytes 48) fun ordinal =>
          okElseNone (getU32 bytes 56) fun bodyCrc =>
            .ok (some ⟨scoreRoot, memberRoot, count, frameStart, generation, ⟨index, ordinal⟩,
              bodyCrc⟩)

/-- The numbers fit their fields. -/
structure Fits : Prop where
  scoreRoot : trailer.scoreRoot < 256 ^ 8
  memberRoot : trailer.memberRoot < 256 ^ 8
  count : trailer.count < 256 ^ 8
  frameStart : trailer.frameStart < 256 ^ 8
  generation : trailer.generation < 256 ^ 8
  token : trailer.token.Fits
  bodyCrc : trailer.bodyCrc < 256 ^ 4

@[simp] theorem length_encode : trailer.encode.length = trailerSize := by
  rfl

/-- A trailer is read as it was written. -/
theorem decode_encode {trailer : Trailer} (h : trailer.Fits) :
    decode trailer.encode = .ok (some trailer) := by
  have hread : Reads trailer.encode 0 _ := reads_front _
  have hscore := hread 0 0 rfl h.scoreRoot rfl
  have hmember := hread 1 8 rfl h.memberRoot rfl
  have hcount := hread 2 16 rfl h.count rfl
  have hstart := hread 3 24 rfl h.frameStart rfl
  have hgeneration := hread 4 32 rfl h.generation rfl
  have hindex := hread 5 40 rfl h.token.1 rfl
  have hordinal := hread 6 48 rfl h.token.2 rfl
  have hbody := hread 7 56 rfl h.bodyCrc rfl
  have hmagic := hread 8 60 rfl (show magic < 256 ^ 4 by decide) rfl
  have hcrc := hread 9 64 rfl (crc32_lt (putFields trailer.fields)) rfl
  have hcovered : slice trailer.encode 0 64 = putFields trailer.fields := slice_putFields rfl _
  have hlen := length_encode trailer
  rw [decode, if_neg (by rw [hlen]; exact lt_irrefl _), getU32, hmagic, okElseNone_ok,
    if_neg (not_not.mpr rfl), sliceTo_eq (by rw [hlen, trailerSize]; decide), ok_bind, getU32, hcrc,
    okElseNone_ok, hcovered, if_neg (not_not.mpr rfl)]
  simp only [getU32, getU64, hscore, hmember, hcount, hstart, hgeneration, hindex, hordinal, hbody,
    okElseNone_ok]

/-- Whatever the bytes are, no slicing is out of range, and a trailer that is read fits. -/
theorem decode_safe (bytes : Bytes) :
    Safe (fun answer => ∀ trailer ∈ answer, trailer.Fits) (decode bytes) := by
  have hnone : Safe (fun answer : Option Trailer => ∀ trailer ∈ answer, trailer.Fits)
      (.ok none) := nofun
  rw [decode]
  split_ifs with hlen
  · exact hnone
  refine Safe.okElseNone bytes hnone fun mark _ => ?_
  split_ifs
  · exact hnone
  rw [sliceTo_eq (by rw [trailerSize] at hlen; omega), ok_bind]
  refine Safe.okElseNone bytes hnone fun checksum _ => ?_
  split_ifs
  · exact hnone
  refine Safe.okElseNone bytes hnone fun scoreRoot hscore => ?_
  refine Safe.okElseNone bytes hnone fun memberRoot hmember => ?_
  refine Safe.okElseNone bytes hnone fun count hcount => ?_
  refine Safe.okElseNone bytes hnone fun frameStart hstart => ?_
  refine Safe.okElseNone bytes hnone fun generation hgeneration => ?_
  refine Safe.okElseNone bytes hnone fun index hindex => ?_
  refine Safe.okElseNone bytes hnone fun ordinal hordinal => ?_
  refine Safe.okElseNone bytes hnone fun bodyCrc hbody => ?_
  rintro trailer ⟨⟩
  exact ⟨hscore, hmember, hcount, hstart, hgeneration, ⟨hindex, hordinal⟩, hbody⟩

end Trailer

/-! ## Repeated readers -/

section Repeated

variable {α : Type} {next : Bytes → Result (α × Bytes)} {encode : α → Bytes}
  {loop : Nat → Bytes → Result (List α)}
  (hloop : ∀ fuel bytes, loop (fuel + 1) bytes = if bytes = [] then .ok [] else do
    let (value, rest) ← next bytes
    let values ← loop fuel rest
    return value :: values)
  (hpos : ∀ value, 0 < (encode value).length)
include hloop hpos

/-- Values one after another are read as they were written. -/
theorem loop_encode {Fits : α → Prop}
    (hnext : ∀ {value}, Fits value → ∀ rest, next (encode value ++ rest) = .ok (value, rest))
    {values : List α} (hfits : ∀ value ∈ values, Fits value) {fuel : Nat}
    (hfuel : (values.flatMap encode).length < fuel) :
    loop fuel (values.flatMap encode) = .ok values := by
  induction values generalizing fuel with
  | nil =>
    obtain ⟨fuel, rfl⟩ := Nat.exists_eq_succ_of_ne_zero (Nat.ne_zero_of_lt hfuel)
    rw [hloop, flatMap_nil, if_pos rfl]
  | cons value values ih =>
    obtain ⟨fuel, rfl⟩ := Nat.exists_eq_succ_of_ne_zero (Nat.ne_zero_of_lt hfuel)
    have hvalue := hpos value
    rw [flatMap_cons, length_append] at hfuel
    rw [flatMap_cons, hloop, if_neg, hnext (hfits value mem_cons_self), ok_bind]
    · show (do
        let values' ← loop fuel (values.flatMap encode)
        return value :: values') = _
      rw [ih (forall_mem_cons.mp hfits).2 (by omega), ok_bind, pure_eq_ok]
    · exact append_ne_nil_of_left_ne_nil (ne_nil_of_length_pos hvalue) _

/-- What is read to the end of some bytes is what they encode. -/
theorem loop_safe
    (hnext : ∀ bytes ≠ [], Safe (fun x => bytes = encode x.1 ++ x.2) (next bytes)) {fuel : Nat}
    {bytes : Bytes} (hfuel : bytes.length < fuel) :
    Safe (fun values => bytes = values.flatMap encode) (loop fuel bytes) := by
  induction fuel generalizing bytes with
  | zero => cases hfuel
  | succ fuel ih =>
    rw [hloop]
    split_ifs with hnil
    · exact hnil
    · apply (hnext bytes hnil).bind
      rintro ⟨value, rest⟩ hbytes
      have hvalue := hpos value
      obtain rfl : bytes = encode value ++ rest := hbytes
      rw [length_append] at hfuel
      apply (ih (show rest.length < fuel by omega)).bind
      rintro values rfl
      exact flatMap_cons.symm

end Repeated

/-! ## Logged changes -/

/-- What a frame changed about a member, with what the member had before. -/
inductive LoggedOp where
  | set (member : Bytes) (score : Float64) (prev : Option Float64)
  | remove (member : Bytes) (prev : Float64)
  deriving DecidableEq, Repr

/-- The member that changed. -/
def LoggedOp.member : LoggedOp → Bytes
  | .set member _ _ => member
  | .remove member _ => member

/-- A score as its bits. -/
def scoreBytes : Bytes := leBytes 8 score.bits.toNat

/-- The byte that says what changed: a new member, one that left, or one with another score. -/
def LoggedOp.kind : LoggedOp → UInt8
  | .set _ _ none => 1
  | .remove _ _ => 2
  | .set _ _ (some _) => 3

/-- The scores of a change on disk. -/
def LoggedOp.scores : LoggedOp → Bytes
  | .set _ score none => scoreBytes score
  | .set _ score (some prev) => scoreBytes score ++ scoreBytes prev
  | .remove _ prev => scoreBytes prev

/-- One change on disk. -/
def encodeOp (op : LoggedOp) : Bytes :=
  op.kind :: (leBytes 4 op.member.length ++ (op.member ++ op.scores))

/-- The changes of a frame on disk. -/
def encodeOps (ops : List LoggedOp) : Bytes := ops.flatMap encodeOp

/-- A score at the front of some bytes, and what follows it. -/
def nextScore : Result (Float64 × Bytes) := do
  let bits ← getU64 bytes 0
  let rest ← sliceFrom bytes 8
  return (⟨UInt64.ofNat bits⟩, rest)

/-- The change at the front of some bytes, and what follows it. -/
def decodeOp : Result (LoggedOp × Bytes) := do
  let kind ← orFail bytes.head? .panicked
  let len ← getU32 bytes 1
  if bytes.length < 5 + len then .error .truncatedLoggedOp
  else do
    let member := slice bytes 5 len
    let rest ← sliceFrom bytes (5 + len)
    match kind with
    | 1 => do
      let (score, rest) ← nextScore rest
      return (.set member score none, rest)
    | 3 => do
      let (score, rest) ← nextScore rest
      let (prev, rest) ← nextScore rest
      return (.set member score (some prev), rest)
    | 2 => do
      let (prev, rest) ← nextScore rest
      return (.remove member prev, rest)
    | _ => .error .unknownLoggedOp

/-- Changes one after another; each takes at least one of the bytes. -/
def decodeOpsLoop : Nat → Bytes → Result (List LoggedOp)
  | 0, _ => .error .tooDeep
  | fuel + 1, bytes =>
    if bytes = [] then .ok []
    else do
      let (op, rest) ← decodeOp bytes
      let ops ← decodeOpsLoop fuel rest
      return op :: ops

/-- The changes of a frame. -/
def decodeOps : Result (List LoggedOp) :=
  decodeOpsLoop (bytes.length + 1) bytes

/-- A score is read as it was written. -/
theorem nextScore_scoreBytes (rest : Bytes) :
    nextScore (scoreBytes score ++ rest) = .ok (score, rest) := by
  have hget := getField_append [] rest (show score.bits.toNat < 256 ^ 8 from score.bits.toNat_lt)
  rw [nextScore, getU64]
  rw [nil_append, length_nil] at hget
  rw [scoreBytes, hget, ok_bind, UInt64.ofNat_toNat]
  simp [sliceFrom]

theorem encodeOp_append (op : LoggedOp) (rest : Bytes) : encodeOp op ++ rest =
      op.kind :: (leBytes 4 op.member.length ++ (op.member ++ (op.scores ++ rest))) := by
  simp [encodeOp]

/-- A change is read as it was written, and what follows it is left. -/
theorem decodeOp_encodeOp {op : LoggedOp} (h : op.member.length < 256 ^ 4) (rest : Bytes) :
    decodeOp (encodeOp op ++ rest) = .ok (op, rest) := by
  have hlen : getU32 (encodeOp op ++ rest) 1 = .ok op.member.length := by
    have := getField_append [op.kind] (op.member ++ op.scores ++ rest) h
    rw [getU32, encodeOp]
    simpa using this
  have hbody : encodeOp op ++ rest = (op.kind :: leBytes 4 op.member.length) ++
      (op.member ++ (op.scores ++ rest)) := encodeOp_append op rest
  have hroom : ¬ (encodeOp op ++ rest).length < 5 + op.member.length := by
    rw [hbody]
    simp
    omega
  have hmember : slice (encodeOp op ++ rest) 5 op.member.length = op.member := by
    rw [hbody]
    exact slice_middle (by simp) rfl
  have hdrop : sliceFrom (encodeOp op ++ rest) (5 + op.member.length) = .ok (op.scores ++ rest) := by
    rw [sliceFrom, if_pos (not_lt.mp hroom), hbody, ← drop_drop, drop_left' (by simp), drop_left' rfl]
  have hhead : (encodeOp op ++ rest).head? = some op.kind := rfl
  rw [decodeOp, hhead, orFail_some, ok_bind, hlen, ok_bind, if_neg hroom, hmember, hdrop, ok_bind]
  cases op with
  | set member score prev =>
    cases prev with
    | none => simp [nextScore_scoreBytes, LoggedOp.member, LoggedOp.kind, LoggedOp.scores]
    | some prev => simp [nextScore_scoreBytes, LoggedOp.member, LoggedOp.kind, LoggedOp.scores]
  | remove member prev =>
    simp [nextScore_scoreBytes, LoggedOp.member, LoggedOp.kind, LoggedOp.scores]

theorem encodeOp_pos (op : LoggedOp) : 0 < (encodeOp op).length := Nat.succ_pos _

/-- The changes of a frame are read as they were written. -/
theorem decodeOps_encodeOps {ops : List LoggedOp} (h : ∀ op ∈ ops, op.member.length < 256 ^ 4) :
    decodeOps (encodeOps ops) = .ok ops := by
  exact loop_encode (fun _ _ => rfl) encodeOp_pos decodeOp_encodeOp h (Nat.lt_succ_self _)

/-- A score that is read is encoded at the front of the bytes. -/
theorem nextScore_safe : Safe (fun x => bytes = scoreBytes x.1 ++ x.2) (nextScore bytes) := by
  apply (getField_safe 8 bytes 0).bind
  rintro n ⟨hn, hlen, hbytes⟩
  rw [sliceFrom, if_pos (by omega), ok_bind]
  show bytes = leBytes 8 (UInt64.ofNat n).toNat ++ bytes.drop 8
  rw [UInt64.toNat_ofNat_of_lt' hn]
  simpa using hbytes

/-- A change that is read is encoded at the front of the bytes. -/
theorem decodeOp_safe (h : bytes ≠ []) :
    Safe (fun x => bytes = encodeOp x.1 ++ x.2) (decodeOp bytes) := by
  obtain ⟨kind, tail, rfl⟩ := exists_cons_of_ne_nil h
  apply (getField_safe 4 (kind :: tail) 1).bind
  rintro len ⟨-, -, hbytes⟩
  split_ifs with hroom
  · exact ⟨by decide, by decide⟩
  · rw [not_lt] at hroom
    -- the kind, the length, the member and what follows it
    have hsplit : kind :: tail = kind :: (leBytes 4 (slice (kind :: tail) 5 len).length ++
        (slice (kind :: tail) 5 len ++ (kind :: tail).drop (5 + len))) := by
      rw [length_slice_of_le hroom, slice, ← drop_drop, take_append_drop]
      exact congrArg (kind :: ·) hbytes
    rw [sliceFrom, if_pos hroom, ok_bind]
    split
    · apply (nextScore_safe _).bind
      rintro ⟨score, rest⟩ hscore
      rw [hscore] at hsplit
      exact hsplit.trans (encodeOp_append (.set _ score none) rest).symm
    · apply (nextScore_safe _).bind
      rintro ⟨score, rest⟩ hscore
      apply (nextScore_safe _).bind
      rintro ⟨prev, rest⟩ rfl
      rw [hscore, ← append_assoc (scoreBytes score)] at hsplit
      exact hsplit.trans (encodeOp_append (.set _ score (some prev)) rest).symm
    · apply (nextScore_safe _).bind
      rintro ⟨prev, rest⟩ hscore
      rw [hscore] at hsplit
      exact hsplit.trans (encodeOp_append (.remove _ prev) rest).symm
    · exact ⟨by decide, by decide⟩

/-- Changes that are read are what the bytes encode. -/
theorem decodeOps_safe : Safe (fun ops => bytes = encodeOps ops) (decodeOps bytes) :=
  loop_safe (fun _ _ => rfl) encodeOp_pos decodeOp_safe (Nat.lt_succ_self _)

/-! ## Undo logs -/

/-- A compacted file's record of the changes it folded in after `floor`, one group for each frame,
oldest first. -/
structure UndoLog where
  floor : Nat
  groups : List (Token × List LoggedOp)
  deriving DecidableEq, Repr

namespace UndoLog

/-- The log of a file that never was compacted. -/
def empty : UndoLog := ⟨0, []⟩

/-- One group on disk. -/
def encodeGroup (group : Token × List LoggedOp) : Bytes :=
  putFields [(8, group.1.index), (8, group.1.ordinal), (4, (encodeOps group.2).length)] ++
    encodeOps group.2

/-- An undo log on disk. -/
def encode (undo : UndoLog) : Bytes :=
  leBytes 8 undo.floor ++ undo.groups.flatMap encodeGroup

/-- The group at the front of some bytes, and what follows it. -/
def decodeGroup (bytes : Bytes) : Result ((Token × List LoggedOp) × Bytes) := do
  let index ← getU64 bytes 0
  let ordinal ← getU64 bytes 8
  let len ← getU32 bytes 16
  if bytes.length < 20 + len then .error .truncatedUndoLog
  else do
    let ops ← decodeOps (slice bytes 20 len)
    let rest ← sliceFrom bytes (20 + len)
    return ((⟨index, ordinal⟩, ops), rest)

/-- Groups one after another; each takes at least one of the bytes. -/
def decodeGroups : Nat → Bytes → Result (List (Token × List LoggedOp))
  | 0, _ => .error .tooDeep
  | fuel + 1, bytes =>
    if bytes = [] then .ok []
    else do
      let (group, rest) ← decodeGroup bytes
      let groups ← decodeGroups fuel rest
      return group :: groups

/-- The undo log in some bytes. -/
def decode (bytes : Bytes) : Result UndoLog :=
  if bytes = [] then .ok empty
  else do
    let floor ← getU64 bytes 0
    let rest ← sliceFrom bytes 8
    let groups ← decodeGroups (bytes.length + 1) rest
    return ⟨floor, groups⟩

/-- A group whose numbers fit their fields. -/
structure GroupFits (group : Token × List LoggedOp) : Prop where
  token : group.1.Fits
  ops : (encodeOps group.2).length < 256 ^ 4
  members : ∀ op ∈ group.2, op.member.length < 256 ^ 4

/-- A group is read as it was written, and what follows it is left. -/
theorem decodeGroup_encodeGroup {group : Token × List LoggedOp} (h : GroupFits group)
    (rest : Bytes) : decodeGroup (encodeGroup group ++ rest) = .ok (group, rest) := by
  obtain ⟨⟨index, ordinal⟩, ops⟩ := group
  have hread : Reads (encodeGroup (⟨index, ordinal⟩, ops) ++ rest) 0
      [(8, index), (8, ordinal), (4, (encodeOps ops).length)] := by
    rw [encodeGroup, append_assoc]
    exact reads_putFields [] _ _
  have hindex := hread 0 0 rfl h.token.1 rfl
  have hordinal := hread 1 8 rfl h.token.2 rfl
  have hlen := hread 2 16 rfl h.ops rfl
  have hhead : (putFields [(8, index), (8, ordinal), (4, (encodeOps ops).length)]).length = 20 := by
    rfl
  have hroom : ¬ (encodeGroup (⟨index, ordinal⟩, ops) ++ rest).length <
      20 + (encodeOps ops).length := by
    rw [encodeGroup, length_append, length_append, hhead]
    show ¬ 20 + (encodeOps ops).length + rest.length < 20 + (encodeOps ops).length
    omega
  have hslice : slice (encodeGroup (⟨index, ordinal⟩, ops) ++ rest) 20 (encodeOps ops).length =
      encodeOps ops := by
    exact slice_middle hhead rfl
  have hdrop : sliceFrom (encodeGroup (⟨index, ordinal⟩, ops) ++ rest)
      (20 + (encodeOps ops).length) = .ok rest := by
    rw [sliceFrom, if_pos (not_lt.mp hroom), encodeGroup, append_assoc, ← drop_drop,
      drop_left' hhead, drop_left' rfl]
  rw [decodeGroup, getU64, hindex, ok_bind, getU64, hordinal, ok_bind, getU32, hlen, ok_bind,
    if_neg hroom, hslice, decodeOps_encodeOps h.members, ok_bind, hdrop, ok_bind, pure_eq_ok]

theorem encodeGroup_pos (group : Token × List LoggedOp) : 0 < (encodeGroup group).length := by
  rw [encodeGroup, length_append, length_putFields]
  exact Nat.lt_of_lt_of_le (by decide : 0 < 20) (Nat.le_add_right _ _)

/-- An undo log is read as it was written. -/
theorem decode_encode {undo : UndoLog} (hfloor : undo.floor < 256 ^ 8)
    (hgroups : ∀ group ∈ undo.groups, GroupFits group) : decode undo.encode = .ok undo := by
  have hne : undo.encode ≠ [] := append_ne_nil_of_left_ne_nil (cons_ne_nil _ _) _
  have hget := getField_append [] (undo.groups.flatMap encodeGroup) hfloor
  have hrest : sliceFrom undo.encode 8 = .ok (undo.groups.flatMap encodeGroup) := by
    rw [sliceFrom, if_pos (by simp [encode]), encode, drop_left' (length_leBytes _ _)]
  have hloop : decodeGroups (undo.encode.length + 1) (undo.groups.flatMap encodeGroup) =
      .ok undo.groups :=
    loop_encode (fun _ _ => rfl) encodeGroup_pos decodeGroup_encodeGroup hgroups
      (by rw [encode, length_append]; omega)
  rw [decode, if_neg hne, getU64, show getField 8 undo.encode 0 = .ok undo.floor from hget, ok_bind,
    hrest, ok_bind, hloop, ok_bind, pure_eq_ok]

/-- A group that is read is encoded at the front of the bytes. -/
theorem decodeGroup_safe (bytes : Bytes) :
    Safe (fun x => bytes = encodeGroup x.1 ++ x.2) (decodeGroup bytes) := by
  apply (getField_safe 8 bytes 0).bind
  rintro index ⟨-, -, hindex⟩
  apply (getField_safe 8 bytes 8).bind
  rintro ordinal ⟨-, -, hordinal⟩
  apply (getField_safe 4 bytes 16).bind
  rintro len ⟨-, -, hlen⟩
  split_ifs with hroom
  · exact ⟨by decide, by decide⟩
  · rw [not_lt] at hroom
    apply (decodeOps_safe _).bind
    intro ops hops
    have hopsLen := length_slice_of_le hroom
    rw [sliceFrom, if_pos hroom, ok_bind]
    show bytes = encodeGroup (⟨index, ordinal⟩, ops) ++ bytes.drop (20 + len)
    calc bytes = leBytes 8 index ++ (leBytes 8 ordinal ++ (leBytes 4 len ++ bytes.drop 20)) := by
          rw [← hlen, ← hordinal, ← hindex, drop_zero]
      _ = leBytes 8 index ++ (leBytes 8 ordinal ++ (leBytes 4 len ++
          (slice bytes 20 len ++ bytes.drop (20 + len)))) := by
        rw [slice, ← drop_drop, take_append_drop]
      _ = _ := by
        rw [hops] at hopsLen ⊢
        simp [encodeGroup, putFields, hopsLen]

/-- An undo log that is read from bytes that are not empty is what they encode. -/
theorem decode_safe {bytes : Bytes} (h : bytes ≠ []) :
    Safe (fun undo => bytes = encode undo) (decode bytes) := by
  rw [decode, if_neg h]
  apply (getField_safe 8 bytes 0).bind
  rintro floor ⟨-, hlen, hbytes⟩
  rw [sliceFrom, if_pos (by omega), ok_bind]
  have hfuel : (bytes.drop 8).length < bytes.length + 1 := by
    rw [length_drop]
    omega
  have hgroups : Safe (fun groups => bytes.drop 8 = groups.flatMap encodeGroup)
      (decodeGroups (bytes.length + 1) (bytes.drop 8)) :=
    loop_safe (fun _ _ => rfl) encodeGroup_pos (fun bytes _ => decodeGroup_safe bytes) hfuel
  apply hgroups.bind
  intro groups hgroups
  show bytes = leBytes 8 floor ++ groups.flatMap encodeGroup
  rw [← hgroups]
  exact hbytes

end UndoLog

theorem length_member_le {op : LoggedOp} {ops : List LoggedOp} (h : op ∈ ops) :
    op.member.length ≤ (encodeOps ops).length := by
  have hop : (encodeOp op).length ≤ (encodeOps ops).length :=
    (sublist_flatten_of_mem (mem_map_of_mem h)).length_le
  rw [encodeOp, length_cons, length_append, length_append] at hop
  omega

/-- Every format is read as it was written, no reader panics, recurses too deep or looks past its
bytes, and changes and undo logs are read only from what they are written as. -/
theorem formats_lossless :
    (∀ ops : List LoggedOp, (∀ op ∈ ops, op.member.length < 2 ^ 32) →
      decodeOps (encodeOps ops) = .ok ops) ∧
    (∀ undo : UndoLog, undo.floor < 2 ^ 64 →
      (∀ group ∈ undo.groups, group.1.Fits ∧ (encodeOps group.2).length < 2 ^ 32) →
      UndoLog.decode undo.encode = .ok undo) ∧
    (∀ slot : HeaderSlot, slot.Fits → HeaderSlot.decode slot.encode = .ok (some slot)) ∧
    (∀ header : FrameHeader, header.Fits → FrameHeader.decode header.encode = .ok (some header)) ∧
    (∀ trailer : Trailer, trailer.Fits → Trailer.decode trailer.encode = .ok (some trailer)) ∧
    ∀ bytes : Bytes,
      Safe (fun ops => encodeOps ops = bytes) (decodeOps bytes) ∧
      Safe (fun undo => bytes ≠ [] → undo.encode = bytes) (UndoLog.decode bytes) ∧
      Safe (fun answer => ∀ slot ∈ answer, slot.Fits) (HeaderSlot.decode bytes) ∧
      Safe (fun answer => ∀ header ∈ answer, header.Fits) (FrameHeader.decode bytes) ∧
      Safe (fun answer => ∀ trailer ∈ answer, trailer.Fits) (Trailer.decode bytes) := by
  refine ⟨fun ops h => decodeOps_encodeOps h, ?_, fun _ => HeaderSlot.decode_encode,
    fun _ => FrameHeader.decode_encode, fun _ => Trailer.decode_encode, ?_⟩
  · intro undo hfloor hgroups
    apply UndoLog.decode_encode hfloor
    intro group hgroup
    obtain ⟨htoken, hops⟩ := hgroups group hgroup
    exact ⟨htoken, hops, fun op hop => (length_member_le hop).trans_lt hops⟩
  · intro bytes
    refine ⟨(decodeOps_safe bytes).mono fun _ => Eq.symm, ?_, HeaderSlot.decode_safe bytes,
      FrameHeader.decode_safe bytes, Trailer.decode_safe bytes⟩
    by_cases hnil : bytes = []
    · rw [UndoLog.decode, if_pos hnil]
      exact fun h => absurd hnil h
    · exact (UndoLog.decode_safe hnil).mono fun _ h _ => h.symm

/-- Two changes in a group of an undo log, and a slot that was just written. -/
theorem formats_lossless_remove :
    UndoLog.decode (UndoLog.encode ⟨4, [(⟨7, 1⟩, [.remove [1] .zero, .set [2, 3] .zero none])]⟩) =
        .ok ⟨4, [(⟨7, 1⟩, [.remove [1] .zero, .set [2, 3] .zero none])]⟩ ∧
      HeaderSlot.decode (HeaderSlot.encode ⟨3, 8304, 4208⟩) = .ok (some ⟨3, 8304, 4208⟩) := by
  obtain ⟨-, hundo, hslot, -⟩ := formats_lossless
  refine ⟨hundo _ (by decide) ?_, hslot _ ⟨by decide, by decide, by decide, by decide⟩⟩
  intro group hgroup
  rw [mem_singleton.mp hgroup]
  exact ⟨⟨by decide, by decide⟩, by decide⟩

end FerricStore.Zset
