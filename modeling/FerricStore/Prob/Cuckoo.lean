import FerricStore.Lib.CuckooTable
import FerricStore.Prob.ExactlyOnce

/-!
# Cuckoo filter files

A filter file is a header of 27 bytes with the geometry and two counters, the slots of all buckets,
and the token in the footer. An element has a fingerprint and two buckets it may lie in. Adding it
puts the fingerprint into an empty slot of one of them, or drives fingerprints out of theirs along a
chain that is staged first and planned as after-images when it ends in an empty slot. The plans are
the `Mutation`s of after-image transactions.
-/

namespace FerricStore.Prob.Cuckoo

/-- The first bytes of a file. -/
def magic : Bytes := [0xCF, 0x01]

/-- The version of the format. -/
def version : UInt8 := 1

/-- The bytes of the header. -/
def headerSize : Nat := 27

/-- Fingerprint bytes plus the alternate-bucket hash must fit in the 16 bytes of a hash. -/
def maxFingerprintSize : Nat := 8

/-- The most bytes of the buckets: 1 GiB. -/
def maxCuckooBucketBytes : Nat := 2 ^ 30

/-- The offset of the number of items. -/
def offNumItems : Nat := 11

/-- The offset of the number of deletions. -/
def offNumDeletes : Nat := 19

/-- The fields of the header. -/
structure Header where
  numBuckets : Nat
  bucketSize : Nat
  fingerprintSize : Nat
  maxKicks : Nat
  numItems : Nat
  numDeletes : Nat
  deriving DecidableEq

variable (numBuckets bucketSize fingerprintSize : Nat)

/-- The bytes of all slots. The factors are 32 and 8 bits wide, so the product does not overflow. -/
def bucketBytes : Except String Nat :=
  let bytes := numBuckets * bucketSize * fingerprintSize
  if maxCuckooBucketBytes < bytes then .error "cuckoo bucket region exceeds 1073741824 bytes"
  else .ok bytes

/-- The token of the last mutation stands behind the buckets. -/
def mutationTokenOffset : Except String Nat := do
  let bytes ← bucketBytes numBuckets bucketSize fingerprintSize
  .ok (headerSize + bytes)

/-- The size of a file, with the token. -/
def fileSize : Except String Nat := do
  let offset ← mutationTokenOffset numBuckets bucketSize fingerprintSize
  .ok (offset + tokenSize)

/-- The number of items after an insertion. -/
def numItemsAfterInsert (numItems : Nat) : Except String Nat :=
  if numItems + 1 < 256 ^ 8 then .ok (numItems + 1) else .error "cuckoo num_items overflow"

/-- The number of items after a deletion. -/
def numItemsAfterDelete (numItems : Nat) : Except String Nat :=
  if 0 < numItems then .ok (numItems - 1) else .error "cuckoo num_items underflow"

/-- The number of deletions after one more. -/
def numDeletesAfterDelete (numDeletes : Nat) : Except String Nat :=
  if numDeletes + 1 < 256 ^ 8 then .ok (numDeletes + 1) else .error "cuckoo num_deletes overflow"

/-- The checks on the fields of a header. -/
def validateHeader (header : Header) (actualSize : Nat) : Except String Header :=
  if header.numBuckets = 0 then .error "num_buckets must be > 0"
  else if header.bucketSize = 0 then .error "bucket_size must be > 0"
  else if header.fingerprintSize = 0 ∨ maxFingerprintSize < header.fingerprintSize then
    .error "fingerprint_size must be between 1 and 8"
  else if header.maxKicks = 0 then .error "max_kicks must be > 0"
  else if header.numBuckets * header.bucketSize < header.numItems then
    .error "cuckoo num_items must not exceed total slots"
  else do
    let expected ← fileSize header.numBuckets header.bucketSize header.fingerprintSize
    if actualSize ≠ expected then
      .error ("cuckoo file size mismatch: expected " ++ toString expected ++ ", got " ++
        toString actualSize)
    else .ok header

/-- The header of a file, checked against its size. -/
def readHeader (data : Bytes) : Except String Header :=
  if data.length < headerSize then .error "truncated cuckoo file while reading header"
  else if slice data 0 2 ≠ magic then .error "invalid cuckoo file magic"
  else if slice data 2 1 ≠ [version] then
    .error ("unsupported cuckoo version " ++ toString (leNat (slice data 2 1)))
  else
    validateHeader
      { numBuckets := leNat (slice data 3 4)
        bucketSize := leNat (slice data 7 1)
        fingerprintSize := leNat (slice data 8 1)
        maxKicks := leNat (slice data 9 2)
        numItems := leNat (slice data offNumItems 8)
        numDeletes := leNat (slice data offNumDeletes 8) } data.length

/-- A hash function with 16 bytes of output. -/
structure Hash where
  digest : Bytes → Bytes
  length_digest : ∀ bytes, (digest bytes).length = 16

variable (hash : Hash)

/-- The fingerprint of an element, never all zero, and its primary bucket. -/
def fingerprintAndBucket (element : Bytes) (fingerprintSize numBuckets : Nat) : Bytes × Nat :=
  let digest := hash.digest element
  let first := digest.take fingerprintSize
  let fingerprint := if first.all (· = 0) then first.set 0 1 else first
  (fingerprint, leNat (slice digest fingerprintSize 8) % numBuckets)

/-- The alternate bucket: a reflection modulo the number of buckets. -/
def alternateBucket (bucket : Nat) (fingerprint : Bytes) (numBuckets : Nat) : Nat :=
  (leNat (slice (hash.digest fingerprint) 0 8) % numBuckets + numBuckets - bucket) % numBuckets

/-- The buckets of an element, without a repetition. -/
def candidateBuckets (primary alternate : Nat) : List Nat :=
  primary :: if alternate ≠ primary then [alternate] else []

/-- A slot: its bucket and its place there. -/
abbrev Slot := Nat × Nat

/-- The offset of a slot in the file. -/
def slotOffset (slot : Slot) (bucketSize fingerprintSize : Nat) : Nat :=
  headerSize + (slot.1 * bucketSize + slot.2) * fingerprintSize

/-- The fingerprint in a slot; an empty slot is zero. -/
def readSlot (data : Bytes) (header : Header) (slot : Slot) : Except String Bytes :=
  let offset := slotOffset slot header.bucketSize header.fingerprintSize
  if offset + header.fingerprintSize ≤ data.length then
    .ok (slice data offset header.fingerprintSize)
  else .error "truncated cuckoo file while reading slot"

/-- An empty slot is all zero. -/
def isEmpty (fingerprint : Bytes) : Bool := fingerprint.all (· = 0)

/-- The slots of a list of buckets, in order. -/
def slotsOf (header : Header) (buckets : List Nat) : List Slot :=
  buckets.flatMap fun bucket => (List.range header.bucketSize).map fun slot => (bucket, slot)

/-- The first slot of a list whose content passes. -/
def findSlot (read : Slot → Except String Bytes) (passes : Bytes → Bool) :
    List Slot → Except String (Option Slot)
  | [] => .ok none
  | slot :: slots => do
    let content ← read slot
    if passes content then .ok (some slot) else findSlot read passes slots

/-- Slot writes that are not in the file yet. -/
abbrev Staged := List (Slot × Bytes)

/-- A staged write replaces an earlier one of the slot. -/
def Staged.insert (staged : Staged) (slot : Slot) (fingerprint : Bytes) : Staged :=
  (slot, fingerprint) :: staged.filter fun entry => entry.1 ≠ slot

/-- A slot as it will be: the staged write, or else the file. -/
def readSlotStaged (data : Bytes) (header : Header) (staged : Staged) (slot : Slot) :
    Except String Bytes :=
  match staged.lookup slot with
  | some fingerprint => .ok fingerprint
  | none => readSlot data header slot

/-- The eviction loop with the kicks that are left and those that are done. -/
def stageKicks (hash : Hash) (data : Bytes) (header : Header) :
    Nat → Nat → Staged → Bytes → Nat → Except String (Option Staged)
  | 0, _, _, _, _ => .ok none
  | left + 1, kicks, staged, fingerprint, bucket => do
    let slot := kicks % header.bucketSize
    let evicted ← readSlotStaged data header staged (bucket, slot)
    let staged := staged.insert (bucket, slot) fingerprint
    let alternate := alternateBucket hash bucket evicted header.numBuckets
    match ← findSlot (readSlotStaged data header staged) isEmpty (slotsOf header [alternate]) with
    | some slot => .ok (some (staged.insert slot evicted))
    | none => stageKicks hash data header left (kicks + 1) staged evicted alternate

/-- The writes that make room in a bucket, within the kicks of the header. -/
def stageEviction (data : Bytes) (header : Header) (fingerprint : Bytes)
    (bucket : Nat) : Except String (Option Staged) :=
  stageKicks hash data header header.maxKicks 0 [] fingerprint bucket

/-- The mutations of a filter. -/
inductive Kind
  | add
  | addNx
  | delete
  deriving DecidableEq

/-- What a plan comes to: its images and its result. -/
abbrev Plan := List AfterImage × Nat

/-- The write of a slot. -/
def slotImage (header : Header) (slot : Slot) (value : Bytes) : AfterImage :=
  ⟨slotOffset slot header.bucketSize header.fingerprintSize, value⟩

/-- The write of the number of items. -/
def itemsImage (numItems : Nat) : AfterImage := ⟨offNumItems, leBytes 8 numItems⟩

/-- The write of the number of deletions. -/
def deletesImage (numDeletes : Nat) : AfterImage := ⟨offNumDeletes, leBytes 8 numDeletes⟩

/-- The staged writes in the order of their slots. -/
def sortedUpdates (staged : Staged) : List (Slot × Bytes) :=
  staged.mergeSort fun a b => a.1.1 < b.1.1 ∨ a.1.1 = b.1.1 ∧ a.1.2 ≤ b.1.2

/-- The plan of an insertion that is not refused as present. -/
def placePlan (data : Bytes) (header : Header) (fingerprint : Bytes)
    (primary alternate : Nat) : Except String Plan := do
  let next ← numItemsAfterInsert header.numItems
  match ← findSlot (readSlot data header) isEmpty
      (slotsOf header (candidateBuckets primary alternate)) with
  | some slot => .ok ([slotImage header slot fingerprint, itemsImage next], 1)
  | none =>
    match ← stageEviction hash data header fingerprint primary with
    | none => .error "filter is full"
    | some staged =>
      .ok ((sortedUpdates staged).map (fun entry => slotImage header entry.1 entry.2) ++
        [itemsImage next], 1)

section

variable (data : Bytes) (header : Header) (element : Bytes)

/-- The plan of an insertion; `addNx` refuses a fingerprint that is present. -/
def insertPlan (addNx : Bool) : Except String Plan := do
  let (fingerprint, primary) :=
    fingerprintAndBucket hash element header.fingerprintSize header.numBuckets
  let alternate := alternateBucket hash primary fingerprint header.numBuckets
  let present ←
    if addNx then
      findSlot (readSlot data header) (· = fingerprint)
        (slotsOf header (candidateBuckets primary alternate))
    else .ok none
  match present with
  | some _ => .ok ([], 0)
  | none => placePlan hash data header fingerprint primary alternate

/-- The plan of a deletion: the first slot with the fingerprint is emptied. -/
def deletePlan : Except String Plan := do
  let (fingerprint, primary) :=
    fingerprintAndBucket hash element header.fingerprintSize header.numBuckets
  let alternate := alternateBucket hash primary fingerprint header.numBuckets
  match ← findSlot (readSlot data header) (· = fingerprint)
      (slotsOf header (candidateBuckets primary alternate)) with
  | some slot => do
    let nextItems ← numItemsAfterDelete header.numItems
    let nextDeletes ← numDeletesAfterDelete header.numDeletes
    .ok ([slotImage header slot (List.replicate header.fingerprintSize 0),
      itemsImage nextItems, deletesImage nextDeletes], 1)
  | none => .ok ([], 0)

/-- Whether an element is reported present. -/
def existsInOpenFile : Except String Nat := do
  let (fingerprint, primary) :=
    fingerprintAndBucket hash element header.fingerprintSize header.numBuckets
  let alternate := alternateBucket hash primary fingerprint header.numBuckets
  match ← findSlot (readSlot data header) (· = fingerprint)
      (slotsOf header (candidateBuckets primary alternate)) with
  | some _ => .ok 1
  | none => .ok 0

end

/-- The plan of each kind of mutation. -/
def Kind.plan (kind : Kind) (hash : Hash) (data : Bytes) (header : Header) (element : Bytes) :
    Except String Plan :=
  match kind with
  | .add => insertPlan hash data header element false
  | .addNx => insertPlan hash data header element true
  | .delete => deletePlan hash data header element

/-- The plan of a mutation on a file that a header was read from. -/
def planOf (header : Header) (kind : Kind) (element : Bytes) (data : Bytes) :
    Except String (List AfterImage × Bytes) := do
  let current ← readHeader data
  if current.numBuckets ≠ header.numBuckets ∨ current.bucketSize ≠ header.bucketSize ∨
      current.fingerprintSize ≠ header.fingerprintSize ∨ current.maxKicks ≠ header.maxKicks then
    .error "cuckoo layout changed while mutation lock was held"
  else do
    let (images, result) ← kind.plan hash data current element
    .ok (images, [UInt8.ofNat result])

/-- A mutation of a filter, for the transactions. -/
def transactionalMutation (header : Header) (kind : Kind) (element : Bytes)
    (token : MutationToken) : Mutation :=
  ⟨token, planOf hash header kind element⟩

end FerricStore.Prob.Cuckoo
