import FerricStore.Lib.SortedMap
import FerricStore.Lists.Position

/-!
# List operations

A list is stored as one row for every element, under its encoded position, and a metadata row with
the length and two positions outside of the elements. Positions are sparse: pushes go on by a step,
an insertion takes the middle of two positions, and when there is no room all positions are
redistributed. A pop of one element and the ranges of the first and of the last element read the row
one step inside of the boundary before they scan.
-/

namespace FerricStore.Lists

/-- The metadata row: the length, and a position before the first and behind the last element. -/
structure ListMeta where
  length : Nat
  leftPos : Int
  rightPos : Int
  deriving DecidableEq

/-- The rows of a list in the compound store: the elements in the order of their keys. -/
structure StoredList (V : Type) where
  metadata : Option ListMeta
  elements : List (Bytes × V)

/-- The replies of the list operations. -/
inductive Reply (V : Type) where
  | nil
  | ok
  | integer (n : Int)
  | value (v : V)
  | values (vs : List V)
  | position (n : Nat)
  | positions (ns : List Nat)
  | error (message : String)
  deriving DecidableEq

/-- The end of a list that a move takes from or adds to. -/
inductive Side where
  | left
  | right
  deriving DecidableEq

/-- The side of the pivot that `LINSERT` inserts at. -/
inductive Place where
  | before
  | after
  deriving DecidableEq

/-- The operations on one list; a push has at least one element, and a rank is not zero. -/
inductive ListOp (V : Type) where
  | lpush (first : V) (rest : List V)
  | rpush (first : V) (rest : List V)
  | lpushx (first : V) (rest : List V)
  | rpushx (first : V) (rest : List V)
  | lpop (count : Nat)
  | rpop (count : Nat)
  | lset (index : Int) (element : V)
  | lrem (count : Int) (element : V)
  | ltrim (start stop : Int)
  | linsert (place : Place) (pivot element : V)
  | lrange (start stop : Int)
  | lindex (index : Int)
  | lpos (element : V) (rank : Int) (rank_ne : rank ≠ 0) (count : Option Nat) (maxlen : Nat)
  | llen

/-- The error of a row that is missing or cannot be decoded. -/
def storageReadFailed : String := "ERR storage read failed"

variable {V : Type} [DecidableEq V]

namespace StoredList

/-- A list without rows, which is absent. -/
def empty : StoredList V := ⟨none, []⟩

end StoredList

/-! ## Rows -/

/-- The rows with their positions, if every key can be decoded. -/
def decodePositionPairs (pairs : List (Bytes × V)) : Option (List (Int × V)) :=
  pairs.mapM fun pair => (decodePosition pair.1).map fun position => (position, pair.2)

variable (stored : StoredList V)

/-- `sorted_elements`: every row, in the order of the keys. -/
def sortedElements : Option (List (Int × V)) :=
  decodePositionPairs stored.elements

/-- `sorted_slice`: rows by their rank. -/
def sortedSlice (start count : Nat) : Option (List (Int × V)) :=
  decodePositionPairs ((stored.elements.drop start).take count)

/-- The row of a position. -/
def getElement (position : Int) : Option V :=
  Entries.get (encodePosition position) stored.elements

/-- Writes rows, in order. -/
def putElements (writes : List (Int × V)) (elements : List (Bytes × V)) : List (Bytes × V) :=
  writes.foldl (fun elements write => Entries.put (encodePosition write.1) write.2 elements) elements

/-- Deletes the rows of entries. -/
def deleteElements (removed : List (Int × V)) (elements : List (Bytes × V)) : List (Bytes × V) :=
  removed.foldl (fun elements entry => Entries.erase (encodePosition entry.1) elements) elements

/-- The metadata of the elements that remain; nothing is left of an empty list. -/
def metaFromElements (length : Nat) (elements : List (Int × V)) : Option ListMeta :=
  match elements.head?, elements.getLast? with
  | some first, some last => some ⟨length, first.1 - positionStep, last.1 + positionStep⟩
  | _, _ => none

/-! ## Pushes and pops -/

/-- The writes of a push on the left, of which the first element comes to the base position. -/
def lpushWrites (base : Int) (elements : List V) : List (Int × V) :=
  elements.reverse.zipIdx.map fun pair =>
    (base - ((elements.length : Int) - 1 - (pair.2 : Int)) * positionStep, pair.1)

/-- The writes of a push on the right, of which the first element comes to the base position. -/
def rpushWrites (base : Int) (elements : List V) : List (Int × V) :=
  elements.zipIdx.map fun pair => (base + (pair.2 : Int) * positionStep, pair.1)

/-- `LPUSH`, to the left of the boundary; an absent list starts at position 0. -/
def lpush (elements : List V) : Reply V × StoredList V :=
  match stored.metadata with
  | none =>
    (.integer elements.length,
      ⟨some ⟨elements.length, 0 - ((elements.length : Int) - 1) * positionStep - positionStep,
        0 + positionStep⟩, putElements (lpushWrites 0 elements) stored.elements⟩)
  | some ⟨length, leftPos, rightPos⟩ =>
    (.integer (length + elements.length : Nat),
      ⟨some ⟨length + elements.length,
        leftPos - ((elements.length : Int) - 1) * positionStep - positionStep, rightPos⟩,
        putElements (lpushWrites leftPos elements) stored.elements⟩)

/-- `RPUSH`, to the right of the boundary; an absent list starts at position 0. -/
def rpush (elements : List V) : Reply V × StoredList V :=
  match stored.metadata with
  | none =>
    (.integer elements.length,
      ⟨some ⟨elements.length, 0 - positionStep,
        0 + ((elements.length : Int) - 1) * positionStep + positionStep⟩,
        putElements (rpushWrites 0 elements) stored.elements⟩)
  | some ⟨length, leftPos, rightPos⟩ =>
    (.integer (length + elements.length : Nat),
      ⟨some ⟨length + elements.length, leftPos,
        rightPos + (elements.length : Int) * positionStep⟩,
        putElements (rpushWrites rightPos elements) stored.elements⟩)

/-- The reply of a pop: one element alone, several as a list. -/
def popReply (count : Nat) (popped : List V) : Reply V :=
  if count = 1 then popped.head?.elim .nil .value else .values popped

/-- A pop on the left that reads the first rows; the boundary becomes the last popped position. -/
def popLeftByScan (info : ListMeta) (count : Nat) : Reply V × StoredList V :=
  match sortedSlice stored 0 (min count info.length) with
  | none => (.error storageReadFailed, stored)
  | some toPop =>
    if toPop.length = min count info.length then
      (popReply count (toPop.map (·.2)),
        ⟨if min count info.length = info.length then none
          else toPop.getLast?.map fun last =>
            ⟨info.length - min count info.length, last.1, info.rightPos⟩,
          deleteElements toPop stored.elements⟩)
    else (.error storageReadFailed, stored)

/-- A pop on the right that reads the last rows; the boundary becomes the first popped position. -/
def popRightByScan (info : ListMeta) (count : Nat) : Reply V × StoredList V :=
  match sortedSlice stored (info.length - min count info.length) (min count info.length) with
  | none => (.error storageReadFailed, stored)
  | some toPop =>
    if toPop.length = min count info.length then
      (popReply count (toPop.map (·.2)).reverse,
        ⟨if min count info.length = info.length then none
          else toPop.head?.map fun first =>
            ⟨info.length - min count info.length, info.leftPos, first.1⟩,
          deleteElements toPop stored.elements⟩)
    else (.error storageReadFailed, stored)

/-- A pop of one element: the row one step inside of the boundary, or else a scan. -/
def popSingleBoundary (info : ListMeta) (position : Int) (side : Side) : Reply V × StoredList V :=
  match getElement stored position with
  | none =>
    match side with
    | .left => popLeftByScan stored info 1
    | .right => popRightByScan stored info 1
  | some value =>
    (.value value,
      ⟨if info.length = 1 then none
        else some (match side with
          | .left => ⟨info.length - 1, position, info.rightPos⟩
          | .right => ⟨info.length - 1, info.leftPos, position⟩),
        deleteElements [(position, value)] stored.elements⟩)

/-- `LPOP`; one element is looked up at the boundary. -/
def lpop (count : Nat) : Reply V × StoredList V :=
  match stored.metadata with
  | none => (.nil, stored)
  | some info =>
    if info.length = 0 then (.nil, stored)
    else if count = 0 then (.values [], stored)
    else if count = 1 then
      popSingleBoundary stored info (info.leftPos + positionStep) .left
    else popLeftByScan stored info count

/-- `RPOP`; one element is looked up at the boundary. -/
def rpop (count : Nat) : Reply V × StoredList V :=
  match stored.metadata with
  | none => (.nil, stored)
  | some info =>
    if info.length = 0 then (.nil, stored)
    else if count = 0 then (.values [], stored)
    else if count = 1 then
      popSingleBoundary stored info (info.rightPos - positionStep) .right
    else popRightByScan stored info count

/-! ## Reads -/

/-- `normalize_range_start`: an index from the end, at least 0. -/
def normalizeRangeStart (index : Int) (length : Nat) : Int :=
  if index < 0 then max 0 (length + index) else index

/-- `normalize_range_stop` and `normalize_point_index`. -/
def normalizeIndex (index : Int) (length : Nat) : Int :=
  if index < 0 then length + index else index

/-- `single_position_values`: one row, or else every value. -/
def singlePositionValues (position : Int) : Reply V :=
  match getElement stored position with
  | some value => .values [value]
  | none =>
    match sortedElements stored with
    | some sorted => .values (sorted.map (·.2))
    | none => .error storageReadFailed

/-- `LRANGE`, with the first and the last element read at the boundary. -/
def lrange (start stop : Int) : Reply V :=
  match stored.metadata with
  | none => .values []
  | some ⟨length, leftPos, rightPos⟩ =>
    if start = 0 ∧ stop = 0 ∧ 0 < length then
      singlePositionValues stored (leftPos + positionStep)
    else if start = -1 ∧ stop = -1 ∧ 0 < length then
      singlePositionValues stored (rightPos - positionStep)
    else if normalizeIndex stop length < normalizeRangeStart start length then .values []
    else if (length : Int) ≤ normalizeRangeStart start length then .values []
    else if length = 1 then singlePositionValues stored (leftPos + positionStep)
    else
      match sortedSlice stored (normalizeRangeStart start length).toNat
          (min (normalizeIndex stop length) (length - 1) - normalizeRangeStart start length +
            1).toNat with
      | some sorted => .values (sorted.map (·.2))
      | none => .error storageReadFailed

/-- `LINDEX`. -/
def lindex (index : Int) : Reply V :=
  match stored.metadata with
  | none => .nil
  | some ⟨length, _, _⟩ =>
    if 0 ≤ normalizeIndex index length ∧ normalizeIndex index length < length then
      match sortedSlice stored (normalizeIndex index length).toNat 1 with
      | some sorted => (sorted.map (·.2)).head?.elim .nil .value
      | none => .error storageReadFailed
    else .nil

/-- The reply of `LPOS`: an array if a count is given, and all of it if the count is zero. -/
def lposReply (count : Option Nat) (hits : List Nat) : Reply V :=
  match count with
  | none => hits.head?.elim .nil .position
  | some 0 => .positions hits
  | some count => .positions (hits.take count)

/-- `find_positions`. -/
def findPositions (values : List V) (element : V) (rank : Int) (count : Option Nat) (base : Nat) :
    Reply V :=
  let scanned := if rank < 0 then values.reverse else values
  let hits := (scanned.zipIdx.filter fun pair => pair.1 = element).map fun pair =>
    if rank < 0 then base + values.length - 1 - pair.2 else base + pair.2
  lposReply count (hits.drop (rank.natAbs - 1))

/-- `LPOS`. An absent list is answered with nil, also if a count is given. -/
def lpos (element : V) (rank : Int) (count : Option Nat) (maxlen : Nat) : Reply V :=
  match stored.metadata with
  | none => .nil
  | some ⟨length, _, _⟩ =>
    let scanCount := if maxlen = 0 then length else min maxlen length
    let start := if rank < 0 then length - scanCount else 0
    match sortedSlice stored start scanCount with
    | some sorted => findPositions (sorted.map (·.2)) element rank count start
    | none => .error storageReadFailed

/-- `LLEN`, from the metadata. -/
def llen : Reply V :=
  .integer (stored.metadata.elim 0 fun info => info.length)

/-! ## Writes inside of the list -/

/-- `LSET`, at the position of the row that is found by rank. -/
def lset (index : Int) (element : V) : Reply V × StoredList V :=
  match stored.metadata with
  | none => (.error "ERR no such key", stored)
  | some ⟨length, _, _⟩ =>
    if 0 ≤ normalizeIndex index length ∧ normalizeIndex index length < length then
      match sortedSlice stored (normalizeIndex index length).toNat 1 with
      | some [(position, _)] =>
        (.ok, ⟨stored.metadata, putElements [(position, element)] stored.elements⟩)
      | _ => (.error storageReadFailed, stored)
    else (.error "ERR index out of range", stored)

/-- What has been removed and what has been kept, both in reverse, and how many may still go. -/
def removeStep (target : V) (state : List (Int × V) × List (Int × V) × Nat) (entry : Int × V) :
    List (Int × V) × List (Int × V) × Nat :=
  if entry.2 = target ∧ 0 < state.2.2 then (entry :: state.1, state.2.1, state.2.2 - 1)
  else (state.1, entry :: state.2.1, state.2.2)

variable (sorted : List (Int × V))

/-- `remove_n_from_head`: the removed and the kept entries. -/
def removeNFromHead (maxRemove : Nat) (target : V) : List (Int × V) × List (Int × V) :=
  let state := sorted.foldl (removeStep target) ([], [], maxRemove)
  (state.1.reverse, state.2.1.reverse)

/-- `select_removals`: the removed and the remaining entries. -/
def selectRemovals (count : Int) (target : V) : List (Int × V) × List (Int × V) :=
  if count = 0 then (sorted.filter (·.2 = target), sorted.filter (·.2 ≠ target))
  else if 0 < count then removeNFromHead sorted count.natAbs target
  else
    let state := removeNFromHead sorted.reverse count.natAbs target
    (state.1, state.2.reverse)

/-- `LREM`. -/
def lrem (count : Int) (element : V) : Reply V × StoredList V :=
  match stored.metadata with
  | none => (.integer 0, stored)
  | some ⟨length, _, _⟩ =>
    match sortedElements stored with
    | none => (.error storageReadFailed, stored)
    | some sorted =>
      let (removed, remaining) := selectRemovals sorted count element
      if removed.length = 0 then (.integer 0, stored)
      else
        (.integer removed.length,
          ⟨metaFromElements (length - removed.length) remaining,
            deleteElements removed stored.elements⟩)

/-- `LTRIM`, which deletes the rows outside of the range. -/
def ltrim (start stop : Int) : Reply V × StoredList V :=
  match stored.metadata with
  | none => (.ok, stored)
  | some ⟨length, _, _⟩ =>
    match sortedElements stored with
    | none => (.error storageReadFailed, stored)
    | some sorted =>
      let first := normalizeRangeStart start length
      let last := normalizeIndex stop length
      let kept := if last < first ∨ (length : Int) ≤ first then []
        else (sorted.drop first.toNat).take (last - first + 1).toNat
      let deleted := sorted.filter fun entry => entry.1 ∉ kept.map (·.1)
      (.ok, ⟨metaFromElements kept.length kept, deleteElements deleted stored.elements⟩)

/-- `rebalance_positions`. -/
def rebalancePositions : List (Int × V) :=
  (sorted.map (·.2)).zipIdx.map fun pair => ((pair.2 : Int) * positionStep, pair.1)

/-- Where an element is inserted: at a position, or at one after all have been redistributed. -/
inductive InsertAt (V : Type) where
  | position (position : Int)
  | rebalance (position : Int) (rebalanced : List (Int × V))

/-- The position of the entry of a rank. -/
def positionAt (index : Nat) : Int :=
  (sorted[index]?.map (·.1)).getD 0

/-- The middle of two positions, or of their new ones where there is no room. -/
def midpointOrRebalance (leftIndex rightIndex : Nat) : InsertAt V :=
  let a := positionAt sorted leftIndex
  let b := positionAt sorted rightIndex
  let middle := (a + b).tdiv 2
  if middle = a ∨ middle = b then
    let rebalanced := rebalancePositions sorted
    .rebalance ((positionAt rebalanced leftIndex + positionAt rebalanced rightIndex).tdiv 2)
      rebalanced
  else .position middle

/-- Where an element goes: a step outside of the list, or between two entries. -/
def linsertPosition (place : Place) (index : Nat) : InsertAt V :=
  match place with
  | .before =>
    if index = 0 then .position (positionAt sorted 0 - positionStep)
    else midpointOrRebalance sorted (index - 1) index
  | .after =>
    if index = sorted.length - 1 then
      .position (positionAt sorted (sorted.length - 1) + positionStep)
    else midpointOrRebalance sorted index (index + 1)

/-- `LINSERT`; a rebalance writes every row again. -/
def linsert (place : Place) (pivot element : V) : Reply V × StoredList V :=
  match stored.metadata with
  | none => (.integer 0, stored)
  | some ⟨length, leftPos, rightPos⟩ =>
    match sortedElements stored with
    | none => (.error storageReadFailed, stored)
    | some sorted =>
      match (sorted.map (·.2)).findIdx? (· = pivot) with
      | none => (.integer (-1), stored)
      | some index =>
        match linsertPosition sorted place index with
        | .position position =>
          (.integer (length + 1 : Nat),
            ⟨some ⟨length + 1, min leftPos (position - positionStep),
              max rightPos (position + positionStep)⟩,
              putElements [(position, element)] stored.elements⟩)
        | .rebalance position rebalanced =>
          (.integer (length + 1 : Nat),
            ⟨some ⟨length + 1, min (positionAt rebalanced 0) position - positionStep,
              max (positionAt rebalanced (rebalanced.length - 1)) position +
                positionStep⟩,
              putElements (rebalanced ++ [(position, element)])
                (deleteElements sorted stored.elements)⟩)

/-! ## Commands -/

/-- An operation on one list. -/
def execute : ListOp V → Reply V × StoredList V
  | .lpush first rest => lpush stored (first :: rest)
  | .rpush first rest => rpush stored (first :: rest)
  | .lpushx first rest =>
    if stored.metadata = none then (.integer 0, stored) else lpush stored (first :: rest)
  | .rpushx first rest =>
    if stored.metadata = none then (.integer 0, stored) else rpush stored (first :: rest)
  | .lpop count => lpop stored count
  | .rpop count => rpop stored count
  | .lset index element => lset stored index element
  | .lrem count element => lrem stored count element
  | .ltrim start stop => ltrim stored start stop
  | .linsert place pivot element => linsert stored place pivot element
  | .lrange start stop => (lrange stored start stop, stored)
  | .lindex index => (lindex stored index, stored)
  | .lpos element rank _ count maxlen => (lpos stored element rank count maxlen, stored)
  | .llen => (llen stored, stored)

/-- `lmove_source_window`: the element that moves, and the metadata of those that stay; a store
without slices scans. -/
def lmoveSourceWindow (bounded : Bool) (stored : StoredList V) (info : ListMeta) (side : Side) :
    Option (Int × V × Option ListMeta) :=
  if bounded then
    (sortedSlice stored (if side = .left then 0 else info.length - 2) (min info.length 2)).bind
      fun window =>
        match window, side with
        | [(position, element)], _ =>
          if info.length = 1 then some (position, element, none) else none
        | [(position, element), (next, _)], .left =>
          if info.length = 1 then none
          else some (position, element,
            some ⟨info.length - 1, next - positionStep, info.rightPos⟩)
        | [(previous, _), (position, element)], .right =>
          if info.length = 1 then none
          else some (position, element,
            some ⟨info.length - 1, info.leftPos, previous + positionStep⟩)
        | _, _ => none
  else
    (sortedElements stored).bind fun sorted =>
      (if side = .left then sorted.head? else sorted.getLast?).map fun entry =>
        let remaining := sorted.filter fun candidate => candidate.1 ≠ entry.1
        (entry.1, entry.2, metaFromElements remaining.length remaining)

/-- A push of the moved element to the destination. -/
def pushMovedElement (element : V) (side : Side) : StoredList V :=
  match stored.metadata, side with
  | none, _ =>
    ⟨some ⟨1, 0 - positionStep, 0 + positionStep⟩, putElements [(0, element)] stored.elements⟩
  | some ⟨length, leftPos, rightPos⟩, .left =>
    ⟨some ⟨length + 1, leftPos - positionStep, rightPos⟩,
      putElements [(leftPos, element)] stored.elements⟩
  | some ⟨length, leftPos, rightPos⟩, .right =>
    ⟨some ⟨length + 1, leftPos, rightPos + positionStep⟩,
      putElements [(rightPos, element)] stored.elements⟩

/-- `execute_lmove` on the lists of a store. -/
def executeLmove (bounded : Bool) (lists : Bytes → StoredList V) (source destination : Bytes)
    (fromSide toSide : Side) : Reply V × (Bytes → StoredList V) :=
  match (lists source).metadata with
  | none => (.nil, lists)
  | some info =>
    if info.length = 0 then (.nil, lists)
    else
      match lmoveSourceWindow bounded (lists source) info fromSide with
      | none => (.error storageReadFailed, lists)
      | some (position, element, remaining) =>
        if source = destination ∧ (fromSide = toSide ∨ info.length = 1) then
          (.value element, lists)
        else
          let removed := Function.update lists source
            ⟨remaining, deleteElements [(position, element)] (lists source).elements⟩
          (.value element, Function.update removed destination
            (pushMovedElement (removed destination) element toSide))

/-- A command: an operation on one list, or a move between two. -/
inductive Command (V : Type) where
  | on (key : Bytes) (op : ListOp V)
  | lmove (source destination : Bytes) (fromSide toSide : Side)

/-- A command on the lists of a store. -/
def run (bounded : Bool) (lists : Bytes → StoredList V) :
    Command V → Reply V × (Bytes → StoredList V)
  | .on key op =>
    ((execute (lists key) op).1, Function.update lists key (execute (lists key) op).2)
  | .lmove source destination fromSide toSide =>
    executeLmove bounded lists source destination fromSide toSide

end FerricStore.Lists
