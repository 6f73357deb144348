import FerricStore.Zset.Node

/-!
# The tree file

This module is the reading part of `store.rs`: pages, overflow chains and the state of the tree as of
one frame. A file is its bytes.
-/

namespace FerricStore.Zset

/-- The tree as of one frame. -/
structure TreeState where
  scoreRoot : Nat
  memberRoot : Nat
  count : Nat
  token : Token
  frameEnd : Nat
  generation : Nat
  syncedFrameEnd : Nat
  deriving DecidableEq, Repr

/-- The state of a file without frames. -/
def TreeState.empty (slot : HeaderSlot) : TreeState :=
  ⟨0, 0, 0, .default, headerRegion, slot.generation, slot.syncedFrameEnd⟩

/-- An open tree file. -/
structure TreeFile where
  bytes : Bytes
  deriving DecidableEq, Repr

namespace TreeFile

variable (file : TreeFile)

/-- The length of the file. -/
def len : Nat := file.bytes.length

/-- Bytes that are all there. -/
def readExact (offset len : Nat) : Result Bytes :=
  if file.len < offset + len then .error (.readPastEnd len offset file.len)
  else .ok (slice file.bytes offset len)

/-- A page, which is never in the header. -/
def readPage (offset : Nat) : Result Bytes :=
  if offset < headerRegion then .error (.pageInHeader offset)
  else file.readExact offset pageSize

/-- Follows an overflow chain for a number of pages: the bytes and the page after them. -/
def readOverflowLoop (file : TreeFile) : Nat → Nat → Result (Bytes × Nat)
  | 0, next => .ok ([], next)
  | pages + 1, next => do
    let page ← file.readPage next
    let (following, chunk) ← decodeOverflow page
    if following = 0 then return (chunk, 0)
    else do
      let (rest, next) ← file.readOverflowLoop pages following
      return (chunk ++ rest, next)

/-- The bytes of an overflow chain. -/
def readOverflow (head len : Nat) : Result Bytes := do
  let (bytes, next) ← file.readOverflowLoop (overflowPages len) head
  if bytes.length ≠ len ∨ next ≠ 0 then .error .overflowChainLength
  else return bytes

end TreeFile

end FerricStore.Zset
