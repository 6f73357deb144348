import FerricStore.Lib.Float64
import FerricStore.Lib.SortedMap

/-!
# The ordered index of flows

The index keeps scored members under keys. Entries are ordered by key, score, rank and member, a
table finds the score of a member, and a count per key is kept with two catalogues of the keys
whose count is positive. Requests carry lists of changes and are refused as a whole when they are
too large. The hash tables of the source are sorted maps here: nothing depends on their order.
-/

namespace FerricStore.Flow

/-! ## Scores and entries -/

/-- A score as it is compared: `-0` is read as `0`. -/
def canonical (score : Float64) : Float64 :=
  if Float64.eq score Float64.zero then Float64.zero else score

/-- `f:{<tag>}:h:<id>` with a tag and an id. -/
def historyIndexKey (key : Bytes) : Bool :=
  match key with
  | 0x66 :: 0x3A :: 0x7B :: rest =>
    match rest.findIdx? (· == 0x7D) with
    | some tagEnd =>
      let family := rest.drop (tagEnd + 1)
      decide (0 < tagEnd) && decide (3 < family.length) &&
        [0x3A, 0x68, 0x3A].isPrefixOf family
    | none => false
  | _ => false

/-- `0` to `9`. -/
def isAsciiDigit (byte : UInt8) : Bool := 0x30 ≤ byte && byte ≤ 0x39

/-- A decimal number of 64 bits, or nothing. -/
def decimal (digits : Bytes) : Option Nat :=
  digits.foldlM (fun total digit =>
    if isAsciiDigit digit ∧ total * 10 + (digit.toNat - 0x30) < 2 ^ 64 then
      some (total * 10 + (digit.toNat - 0x30))
    else none) 0

/-- The version of a `<ms>-<version>` event id, or 0 for any other member. -/
def historyEventVersion (member : Bytes) : Nat :=
  match member.findIdx? (· == 0x2D) with
  | none => 0
  | some dash =>
    let ms := member.take dash
    let version := member.drop (dash + 1)
    if ms.isEmpty || version.isEmpty || !ms.all isAsciiDigit then 0
    else (decimal version).getD 0

/-- Members of history indexes are ranked by their version. -/
def memberRank (key member : Bytes) : Nat :=
  if historyIndexKey key then historyEventVersion member else 0

/-- What entries are ordered by: key, score, rank and member. -/
abbrev EntryKey := Bytes ×ₗ Nat ×ₗ Nat ×ₗ Bytes

/-- The place of an entry in the order, where equal scores have one form. -/
def entryKey (key : Bytes) (score : Float64) (member : Bytes) : EntryKey :=
  toLex (key, toLex ((canonical score).totalKey, toLex (memberRank key member, member)))

/-- Whether a key belongs to a due index: `f:{f`, then `}:d:` or `}:da:` somewhere. -/
def dueKey (key : Bytes) : Bool :=
  [0x66, 0x3A, 0x7B, 0x66].isPrefixOf key &&
    (key.tails.any (List.isPrefixOf [0x7D, 0x3A, 0x64, 0x3A]) ||
      key.tails.any (List.isPrefixOf [0x7D, 0x3A, 0x64, 0x61, 0x3A]))

/-! ## The index -/

/-- The entries in their order, the score of each member under each key, and the number of members
of each key with the keys whose number is positive. -/
structure FlowOrderedIndex where
  ordered : SortedMap EntryKey Float64
  lookup : SortedMap Bytes (SortedMap Bytes Float64)
  counts : SortedMap Bytes Int
  positiveCountKeys : Finset Bytes
  positiveDueCountKeys : Finset Bytes

namespace FlowOrderedIndex

/-- The empty index. -/
def new : FlowOrderedIndex :=
  ⟨SortedMap.empty, SortedMap.empty, SortedMap.empty, ∅, ∅⟩

variable (index : FlowOrderedIndex) (key member : Bytes)

/-- The score of a member under a key. -/
def lookupScore : Option Float64 :=
  (index.lookup.get key).bind fun members => members.get member

variable (score : Float64)

/-- The table with the score of a member. -/
def insertLookup : FlowOrderedIndex :=
  match index.lookup.get key with
  | some members => { index with lookup := index.lookup.put key (members.put member score) }
  | none => { index with lookup := index.lookup.put key (SortedMap.empty.put member score) }

/-- The table without a member; a key that has no more members is dropped. -/
def removeLookup : Option (Float64 × FlowOrderedIndex) :=
  match index.lookup.get key with
  | none => none
  | some members =>
    match members.get member with
    | none => none
    | some oldScore =>
      let members := members.erase member
      if members.entries.isEmpty then
        some (oldScore, { index with lookup := index.lookup.erase key })
      else some (oldScore, { index with lookup := index.lookup.put key members })

/-- Insertion into the ordered set. An entry that compares equal stays. -/
def insertOrdered (key : Bytes) (score : Float64) (member : Bytes) : FlowOrderedIndex :=
  match index.ordered.get (entryKey key score member) with
  | some _ => index
  | none => { index with ordered := index.ordered.put (entryKey key score member) score }

/-- The ordered set without an entry. -/
def removeOrdered (key : Bytes) (score : Float64) (member : Bytes) : FlowOrderedIndex :=
  { index with ordered := index.ordered.erase (entryKey key score member) }

/-- Addition of 64-bit numbers that stops at the limits. -/
def saturatingAdd (a b : Int) : Int := max (-(2 ^ 63)) (min (2 ^ 63 - 1) (a + b))

/-- The number of members that is kept for a key; none is zero. -/
def count (key : Bytes) : Int := (index.counts.get key).getD 0

/-- Sets a count and keeps the catalogues of positive counts. -/
def setCount (key : Bytes) (count : Int) : FlowOrderedIndex :=
  if 0 < count then
    { index with
      counts := index.counts.put key count
      positiveCountKeys := insert key index.positiveCountKeys
      positiveDueCountKeys :=
        if dueKey key then insert key index.positiveDueCountKeys
        else index.positiveDueCountKeys.erase key }
  else
    { index with
      counts := index.counts.put key count
      positiveCountKeys := index.positiveCountKeys.erase key
      positiveDueCountKeys := index.positiveDueCountKeys.erase key }

/-- Changes a count, and does nothing where it would stay. -/
def incrementCount (key : Bytes) (delta : Int) : FlowOrderedIndex :=
  if delta = 0 then index else index.setCount key (saturatingAdd (index.count key) delta)

/-- Changes the counts of several keys. -/
def applyCountDeltas (index : FlowOrderedIndex) : List (Bytes × Int) → FlowOrderedIndex
  | [] => index
  | (key, delta) :: rest => applyCountDeltas (index.incrementCount key delta) rest

/-- The entry and the row of a member, both new. -/
def insertEntry : FlowOrderedIndex :=
  (index.insertOrdered key score member).insertLookup key member score

/-- Adds a member; one that is there gets the score, or stays where only new ones are put. -/
def put (newOnly : Bool) : FlowOrderedIndex :=
  match index.lookupScore key member with
  | some oldScore =>
    if newOnly then index
    else (index.removeOrdered key oldScore member).insertEntry key member score
  | none => (index.incrementCount key 1).insertEntry key member score

/-- Deletes a member and counts it; one that is not there changes nothing. -/
def delete : FlowOrderedIndex :=
  match index.removeLookup key member with
  | none => index
  | some (oldScore, index) =>
    (index.removeOrdered key oldScore member).incrementCount key (-1)

/-- Adds a member that is new, and tells whether it was, without counting it. -/
def putNewWithoutCount : Bool × FlowOrderedIndex :=
  match index.lookupScore key member with
  | some _ => (false, index)
  | none => (true, index.insertEntry key member score)

/-- Deletes a member, and tells whether it was there, without counting it. -/
def deleteWithoutCount : Bool × FlowOrderedIndex :=
  match index.removeLookup key member with
  | none => (false, index)
  | some (oldScore, index) => (true, index.removeOrdered key oldScore member)

/-- Inside one key the entry is removed and put again; between keys the member leaves both and is
added to the second. -/
def moveMember (fromKey toKey member : Bytes) (score : Float64) : FlowOrderedIndex :=
  if fromKey = toKey then
    match index.lookupScore fromKey member with
    | some oldScore => (index.removeOrdered fromKey oldScore member).put toKey member score false
    | none => index.put toKey member score false
  else
    (((index.delete fromKey member).delete toKey member).insertEntry toKey member
      score).incrementCount toKey 1

/-- The rows that a due scan takes from entries in order. -/
def dueRows (key : Bytes) (maxScore : Float64) :
    Nat → List (EntryKey × Float64) → List (Bytes × Float64)
  | 0, _ => []
  | _, [] => []
  | limit + 1, (entry, score) :: rest =>
    if (ofLex entry).1 ≠ key then []
    else if score.gt maxScore then []
    else ((ofLex (ofLex (ofLex entry).2).2).2, score) :: dueRows key maxScore limit rest

/-- The scan starts at the place of the empty member with the score `-∞`. -/
def takeDue (key : Bytes) (maxScore : Float64) (count : Nat) :
    List (Bytes × Float64) × FlowOrderedIndex :=
  let lower := entryKey key (Float64.ofParts true Float64.infinityMagnitude) []
  let rows := dueRows key maxScore count
    (index.ordered.entries.dropWhile fun entry => decide (entry.1 < lower))
  (rows, rows.foldl (fun index row => index.delete key row.1) index)

end FlowOrderedIndex

/-! ## Claims -/

/-- A flow that is claimed: its due and state keys before and after, with their scores, and the keys
of the worker and of the flows in flight. -/
structure ClaimEntry where
  id : Bytes
  fromDueKey : Bytes
  fromDueScore : Float64
  toDueKey : Bytes
  toDueScore : Float64
  fromStateKey : Bytes
  fromStateScore : Float64
  toStateKey : Bytes
  toStateScore : Float64
  inflightKey : Bytes
  workerKey : Bytes
  leaseScore : Float64

/-- An index whose counts are behind by the deltas collected so far. -/
structure Batch where
  index : FlowOrderedIndex
  deltas : SortedMap Bytes Int

open FlowOrderedIndex (saturatingAdd)

/-- Collects a change of a count. -/
def addCountDelta (deltas : SortedMap Bytes Int) (key : Bytes) (delta : Int) :
    SortedMap Bytes Int :=
  if delta = 0 then deltas
  else
    match deltas.get key with
    | some current => deltas.put key (saturatingAdd current delta)
    | none => deltas.put key delta

namespace Batch

variable (batch : Batch)

/-- Deletes a member and notes it. -/
def delete (key id : Bytes) : Batch :=
  match batch.index.deleteWithoutCount key id with
  | (true, index) => ⟨index, addCountDelta batch.deltas key (-1)⟩
  | (false, index) => ⟨index, batch.deltas⟩

/-- Adds a member that is new and notes it. -/
def putNew (key id : Bytes) (score : Float64) : Batch :=
  match batch.index.putNewWithoutCount key id score with
  | (true, index) => ⟨index, addCountDelta batch.deltas key 1⟩
  | (false, index) => ⟨index, batch.deltas⟩

/-- The moves of one claim, with the lease under the keys of the worker and of the flows in flight.
-/
def applyClaim (entry : ClaimEntry) : Batch :=
  (((((batch.delete entry.fromDueKey entry.id).putNew entry.toDueKey entry.id
    entry.toDueScore).delete entry.fromStateKey entry.id).putNew entry.toStateKey entry.id
    entry.toStateScore).putNew entry.inflightKey entry.id entry.leaseScore).putNew
    entry.workerKey entry.id entry.leaseScore

/-- The moves of one claim the other way. -/
def rollbackClaim (entry : ClaimEntry) : Batch :=
  (((((batch.delete entry.toDueKey entry.id).putNew entry.fromDueKey entry.id
    entry.fromDueScore).delete entry.toStateKey entry.id).delete entry.inflightKey
    entry.id).delete entry.workerKey entry.id).putNew entry.fromStateKey entry.id
    entry.fromStateScore

end Batch

namespace FlowOrderedIndex

/-- The counts are brought up to date once, after all entries. -/
def finishBatch (batch : Batch) : FlowOrderedIndex :=
  batch.index.applyCountDeltas batch.deltas.entries

/-- Claims flows in order. -/
def applyClaimEntries (index : FlowOrderedIndex) (entries : List ClaimEntry) : FlowOrderedIndex :=
  finishBatch (entries.foldl Batch.applyClaim ⟨index, SortedMap.empty⟩)

/-- Gives claimed flows back, in the same order. -/
def rollbackClaimEntries (index : FlowOrderedIndex) (entries : List ClaimEntry) :
    FlowOrderedIndex :=
  finishBatch (entries.foldl Batch.rollbackClaim ⟨index, SortedMap.empty⟩)

end FlowOrderedIndex

/-! ## Requests -/

/-- A member to put under a key. -/
structure PutEntry where
  key : Bytes
  member : Bytes
  score : Float64

/-- A member to move between keys. -/
structure MoveEntry where
  fromKey : Bytes
  toKey : Bytes
  member : Bytes
  score : Float64

/-- A member to delete under a key. -/
structure DeleteEntry where
  key : Bytes
  member : Bytes

/-- Entries of every kind, in the order in which they are applied. -/
structure BatchRequest where
  putEntries : List PutEntry
  putNewEntries : List PutEntry
  moveEntries : List MoveEntry
  deleteEntries : List DeleteEntry
  claimEntries : List ClaimEntry

/-- The requests that change the index. -/
inductive Request
  | putEntries (entries : List PutEntry)
  | putNewEntries (entries : List PutEntry)
  | moveEntries (entries : List MoveEntry)
  | deleteMembers (key : Bytes) (members : List Bytes)
  | deleteEntries (entries : List DeleteEntry)
  | takeDue (key : Bytes) (maxScore : Float64) (count : Nat)
  | applyBatch (batch : BatchRequest)
  | applyClaimEntries (entries : List ClaimEntry)
  | rollbackClaimEntries (entries : List ClaimEntry)

/-- The most items of a request. -/
def maxFlowIndexRequestItems : Nat := 100000

/-- The most bytes of a request: 64 MiB. -/
def maxFlowIndexRequestBytes : Nat := 64 * 1024 * 1024

/-- What a request costs: items and bytes. -/
structure Cost where
  items : Nat
  bytes : Nat

/-- A request over the limits is refused. -/
def Cost.withinLimits (cost : Cost) : Bool :=
  decide (cost.items ≤ maxFlowIndexRequestItems) && decide (cost.bytes ≤ maxFlowIndexRequestBytes)

/-- Two costs together. -/
def Cost.add (a b : Cost) : Cost := ⟨a.items + b.items, a.bytes + b.bytes⟩

/-- The cost of entries together. -/
def Cost.sum {τ : Type} (cost : τ → Cost) (entries : List τ) : Cost :=
  entries.foldr (fun entry total => (cost entry).add total) ⟨0, 0⟩

/-- One item, with the bytes of its key and member. -/
def PutEntry.cost (entry : PutEntry) : Cost := ⟨1, entry.key.length + entry.member.length⟩

/-- One item, with the bytes of both keys and the member. -/
def MoveEntry.cost (entry : MoveEntry) : Cost :=
  ⟨1, entry.fromKey.length + entry.toKey.length + entry.member.length⟩

/-- One item, with the bytes of its key and member. -/
def DeleteEntry.cost (entry : DeleteEntry) : Cost := ⟨1, entry.key.length + entry.member.length⟩

/-- A claim touches six keys. -/
def ClaimEntry.cost (entry : ClaimEntry) : Cost :=
  ⟨6, 6 * entry.id.length + (entry.fromDueKey.length + entry.toDueKey.length +
    entry.fromStateKey.length + entry.toStateKey.length + entry.inflightKey.length +
    entry.workerKey.length)⟩

/-- A due scan is only limited in the rows it may take. -/
def Request.cost : Request → Cost
  | .putEntries entries => Cost.sum PutEntry.cost entries
  | .putNewEntries entries => Cost.sum PutEntry.cost entries
  | .moveEntries entries => Cost.sum MoveEntry.cost entries
  | .deleteMembers key members => ⟨members.length, key.length + (members.map List.length).sum⟩
  | .deleteEntries entries => Cost.sum DeleteEntry.cost entries
  | .takeDue _ _ count => ⟨count, 0⟩
  | .applyBatch batch =>
    (Cost.sum PutEntry.cost batch.putEntries).add
      ((Cost.sum PutEntry.cost batch.putNewEntries).add
        ((Cost.sum MoveEntry.cost batch.moveEntries).add
          ((Cost.sum DeleteEntry.cost batch.deleteEntries).add
            (Cost.sum ClaimEntry.cost batch.claimEntries))))
  | .applyClaimEntries entries => Cost.sum ClaimEntry.cost entries
  | .rollbackClaimEntries entries => Cost.sum ClaimEntry.cost entries

namespace FlowOrderedIndex

variable (index : FlowOrderedIndex)

/-- Puts entries in order. -/
def putEntries (newOnly : Bool) (entries : List PutEntry) : FlowOrderedIndex :=
  entries.foldl (fun index entry => index.put entry.key entry.member entry.score newOnly) index

/-- Moves entries in order. -/
def moveEntries (entries : List MoveEntry) : FlowOrderedIndex :=
  entries.foldl (fun index entry =>
    index.moveMember entry.fromKey entry.toKey entry.member entry.score) index

/-- Deletes entries in order. -/
def deleteEntries (entries : List DeleteEntry) : FlowOrderedIndex :=
  entries.foldl (fun index entry => index.delete entry.key entry.member) index

/-- Puts, puts of new members, moves, deletions and claims, in this order. -/
def applyBatch (batch : BatchRequest) : FlowOrderedIndex :=
  ((((index.putEntries false batch.putEntries).putEntries true batch.putNewEntries).moveEntries
    batch.moveEntries).deleteEntries batch.deleteEntries).applyClaimEntries batch.claimEntries

end FlowOrderedIndex

/-- What a request does that is within the limits. -/
def Request.perform (index : FlowOrderedIndex) : Request → FlowOrderedIndex
  | .putEntries entries => index.putEntries false entries
  | .putNewEntries entries => index.putEntries true entries
  | .moveEntries entries => index.moveEntries entries
  | .deleteMembers key members => members.foldl (fun index member => index.delete key member) index
  | .deleteEntries entries => index.deleteEntries entries
  | .takeDue key maxScore count => (index.takeDue key maxScore count).2
  | .applyBatch batch => index.applyBatch batch
  | .applyClaimEntries entries => index.applyClaimEntries entries
  | .rollbackClaimEntries entries => index.rollbackClaimEntries entries

/-- A request that is too large is answered with an error and changes nothing. -/
def Request.exec (request : Request) (index : FlowOrderedIndex) : FlowOrderedIndex :=
  if request.cost.withinLimits then request.perform index else index

end FerricStore.Flow
