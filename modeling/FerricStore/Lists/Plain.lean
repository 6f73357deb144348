import FerricStore.Lists.Ops

/-!
# The operations on a plain list

What each list operation means for a list of values. A list that does not exist is the empty list.
-/

namespace FerricStore.Lists.Plain

variable {V : Type} [DecidableEq V]

/-- The part of a list between two indices, which count from the end if they are negative. -/
def range (start stop : Int) (l : List V) : List V :=
  let first := if start < 0 then max 0 (l.length + start) else start
  let last := if stop < 0 then l.length + stop else stop
  if last < first then [] else (l.drop first.toNat).take (last - first + 1).toNat

/-- The element of an index, which counts from the end if it is negative. -/
def index? (index : Int) (length : Nat) : Option Nat :=
  let norm := if index < 0 then length + index else index
  if 0 ≤ norm ∧ norm < length then some norm.toNat else none

/-- Removes the first elements that are equal to a target, at most so many. -/
def removeFirst : Nat → V → List V → List V
  | _, _, [] => []
  | 0, _, l => l
  | budget + 1, target, x :: rest =>
    if x = target then removeFirst budget target rest
    else x :: removeFirst (budget + 1) target rest

def remove (count : Int) (target : V) (l : List V) : List V :=
  if count = 0 then l.filter (· ≠ target)
  else if 0 < count then removeFirst count.natAbs target l
  else (removeFirst count.natAbs target l.reverse).reverse

/-- The indices that are compared, in the order of the comparison: the first ones, or the last ones
from the end. -/
def scanned (rank : Int) (maxlen length : Nat) : List Nat :=
  let limit := if maxlen = 0 then length else min maxlen length
  if rank < 0 then ((List.range length).drop (length - limit)).reverse else List.range limit

def positions (element : V) (rank : Int) (maxlen : Nat) (l : List V) : List Nat :=
  ((scanned rank maxlen l.length).filter fun index => l[index]? = some element).drop
    (rank.natAbs - 1)

def execute (l : List V) : ListOp V → Reply V × List V
  | .lpush first rest =>
    (.integer (l.length + (rest.length + 1) : Nat), (first :: rest).reverse ++ l)
  | .rpush first rest => (.integer (l.length + (rest.length + 1) : Nat), l ++ first :: rest)
  | .lpushx first rest =>
    if l = [] then (.integer 0, [])
    else (.integer (l.length + (rest.length + 1) : Nat), (first :: rest).reverse ++ l)
  | .rpushx first rest =>
    if l = [] then (.integer 0, [])
    else (.integer (l.length + (rest.length + 1) : Nat), l ++ first :: rest)
  | .lpop count =>
    if l = [] then (.nil, [])
    else (popReply count (l.take count), l.drop count)
  | .rpop count =>
    if l = [] then (.nil, [])
    else (popReply count (l.drop (l.length - count)).reverse, l.take (l.length - count))
  | .lset index element =>
    if l = [] then (.error "ERR no such key", [])
    else (index? index l.length).elim (.error "ERR index out of range", l)
      fun norm => (.ok, l.set norm element)
  | .lrem count element =>
    (.integer ((l.length - (remove count element l).length : Nat)), remove count element l)
  | .ltrim start stop => (.ok, range start stop l)
  | .linsert place pivot element =>
    if l = [] then (.integer 0, [])
    else (l.findIdx? (· = pivot)).elim (.integer (-1), l) fun index =>
      (.integer (l.length + 1 : Nat),
        l.insertIdx (if place = .before then index else index + 1) element)
  | .lrange start stop => (.values (range start stop l), l)
  | .lindex index => (((index? index l.length).bind (l[·]?)).elim .nil .value, l)
  | .lpos element rank _ count maxlen =>
    (lposReply count (positions element rank maxlen l), l)
  | .llen => (.integer l.length, l)

/-- Takes an element from one side. -/
def take (side : Side) (l : List V) : Option (V × List V) :=
  match side with
  | .left => l.head?.map fun element => (element, l.tail)
  | .right => l.getLast?.map fun element => (element, l.dropLast)

def push (side : Side) (element : V) (l : List V) : List V :=
  match side with
  | .left => element :: l
  | .right => l ++ [element]

def run (lists : Bytes → List V) : Command V → Reply V × (Bytes → List V)
  | .on key op => ((execute (lists key) op).1, Function.update lists key (execute (lists key) op).2)
  | .lmove source destination fromSide toSide =>
    match take fromSide (lists source) with
    | none => (.nil, lists)
    | some (element, rest) =>
      let removed := Function.update lists source rest
      (.value element,
        Function.update removed destination (push toSide element (removed destination)))

end FerricStore.Lists.Plain
