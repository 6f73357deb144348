import FerricStore.Lib.Arena
import FerricStore.Zset.Store

/-!
# A copy-on-write transaction over the two trees of a file

This module is the tree part of `tree.rs`. A transaction copies the nodes it changes into an arena
(`nodes`) and names them by position (`Child.dirty`); everything else is read from the file. Reads
follow dirty nodes in memory and pages in place. A tree of `n` keys is less than `n` deep, so the
count of a root bounds the recursions below it (`depthBound`).
-/

namespace FerricStore.Zset

/-- The two trees of a file. -/
inductive Tree where
  | score
  | member
  deriving DecidableEq, Repr

/-- What a split hands to the parent. -/
abbrev Split := BPlusTree.Split Key Child

/-! ## When and where nodes are split -/

/-- How far a cut moves to the right: past the sizes that keep the left part within `half`, and
never past `last`. -/
def advance (half last : Nat) : Nat → Nat → List Nat → Nat
  | cut, _, [] => cut
  | cut, acc, size :: sizes =>
    if cut < last ∧ acc + size ≤ half then advance half last (cut + 1) (acc + size) sizes else cut

/-- Where a list of sizes is cut, so that each half fits a page whatever its sizes: at least `1` and
at most `last`. -/
def cutAt (sizes : List Nat) (last : Nat) : Nat :=
  advance (sizes.sum / 2) last 1 (sizes.headD 0) (sizes.drop 1)

/-- When nodes are too large or too small for a page, and where the large ones are cut. -/
def policy {κ : Type} (len : κ → Nat) : BPlusTree.Policy κ Bytes where
  leafFull leaf := decide (pageSize < leafEncodedLen len leaf)
  leafCut leaf := cutAt (entrySizes len leaf) ((entrySizes len leaf).length - 1)
  leafLow leaf := decide (leafEncodedLen len leaf < pageSize / 4)
  branchFull keys := decide (pageSize < branchEncodedLen len keys)
  branchCut keys := cutAt (separatorSizes len keys) ((separatorSizes len keys).length - 2)
  branchLow keys := decide (branchEncodedLen len keys < pageSize / 4)

/-! ## Nodes -/

variable (file : TreeFile)

/-- The node in the page at an offset. -/
def load (offset : Nat) : Result Node := do
  let page ← file.readPage offset
  decodeNode page file.readOverflow

variable (nodes : List Node)

/-- The node a child names. -/
def node : Child → Result Node
  | .disk offset => if offset = 0 then .error .emptyRoot else load file offset
  | .dirty index => orFail nodes[index]? .panicked

/-- Copies a child into the arena unless it is there. -/
def makeDirty : Child → Result (List Node × Nat)
  | .dirty index => .ok (nodes, index)
  | .disk offset =>
    if offset = 0 then .ok (nodes ++ [.leaf ⟨[], []⟩], nodes.length)
    else do
      let node ← load file offset
      return (nodes ++ [node], nodes.length)

/-- The branch at a position of the arena. -/
def branchAt (index : Nat) : Result Branch :=
  match nodes[index]? with
  | some (.branch branch) => .ok branch
  | _ => .error .panicked

/-- How deep the tree under a child can be, and one more. -/
def depthBound (child : Child) : Nat :=
  match node file nodes child with
  | .ok node => node.count + 1
  | .error _ => 1

/-- The child of a branch that holds a key. -/
def childIndex (seps : List Key) (key : Bytes) : Nat :=
  BPlusTree.childIndex (seps.map Key.bytes) key

/-- Where a key is in a leaf, or where it would go. -/
def leafSearch (leaf : Leaf) (key : Bytes) : Search :=
  searchKeys (leaf.keys.map Key.bytes) key

/-! ## Reads -/

/-- The page at an offset, read in place. -/
def viewPage (offset : Nat) : Result PageView :=
  if offset = 0 then .error .emptyRoot
  else do
    let page ← file.readPage offset
    PageView.read page

/-- The value of a key under a child. -/
def getLoop (file : TreeFile) (nodes : List Node) (key : Bytes) : Nat → Child → Result (Option Bytes)
  | 0, _ => .error .tooDeep
  | fuel + 1, .dirty index => do
    match ← orFail nodes[index]? .panicked with
    | .leaf leaf =>
      match leafSearch leaf key with
      | .found i => (orFail leaf.values[i]? .panicked).map some
      | .absent _ => return none
    | .branch branch => do
      let below ← orFail branch.children[childIndex branch.keys key]? .panicked
      getLoop file nodes key fuel below
  | fuel + 1, .disk offset => do
    let view ← viewPage file offset
    if view.leaf then do
      match ← view.search key file.readOverflow with
      | .found i => (view.value i).map some
      | .absent _ => return none
    else do
      let i ← view.childIndex key file.readOverflow
      let (below, _) ← view.child i
      getLoop file nodes key fuel (.disk below)

/-- The number of keys below a key under a child, on top of `below`. -/
def rankLoop (file : TreeFile) (nodes : List Node) (key : Bytes) :
    Nat → Child → Nat → Result Nat
  | 0, _, _ => .error .tooDeep
  | fuel + 1, .dirty index, below => do
    match ← orFail nodes[index]? .panicked with
    | .leaf leaf => return below + (leafSearch leaf key).position
    | .branch branch => do
      let i := childIndex branch.keys key
      let child ← orFail branch.children[i]? .panicked
      rankLoop file nodes key fuel child (below + (branch.counts.take i).sum)
  | fuel + 1, .disk offset, below => do
    let view ← viewPage file offset
    if view.leaf then do
      let found ← view.search key file.readOverflow
      return below + found.position
    else do
      let i ← view.childIndex key file.readOverflow
      let counts ← (List.range i).mapM fun j => (view.child j).map Prod.snd
      let (child, _) ← view.child i
      rankLoop file nodes key fuel (.disk child) (below + counts.sum)

/-- Walks over the children of a branch and reads the ones that a range of positions touches;
`child i` is asked for only when the walk gets there. -/
def rangeWalk (child : Nat → Result (Child × Nat))
    (read : Child → Nat → Nat → Result (List (Bytes × Bytes))) (start stop : Nat) :
    Nat → List Nat → Result (List (Bytes × Bytes))
  | _, [] => .ok []
  | offset, i :: rest =>
    if stop ≤ offset then .ok []
    else do
      let (below, count) ← child i
      let first ← if start < offset + count then
          read below (start - offset) (min (stop - offset) count)
        else .ok []
      let others ← rangeWalk child read start stop (offset + count) rest
      return first ++ others

/-- The entries under a child at the positions from `start` up to `stop`. -/
def rangeRec (file : TreeFile) (nodes : List Node) :
    Nat → Child → Nat → Nat → Result (List (Bytes × Bytes))
  | 0, _, _, _ => .error .tooDeep
  | fuel + 1, .dirty index, start, stop => do
    match ← orFail nodes[index]? .panicked with
    | .leaf leaf =>
      ((List.range (min stop leaf.keys.length)).drop start).mapM fun i => do
        let key ← orFail leaf.keys[i]? .panicked
        let value ← orFail leaf.values[i]? .panicked
        return (key.bytes, value)
    | .branch branch =>
      rangeWalk (fun i => do
          let below ← orFail branch.children[i]? .panicked
          let count ← orFail branch.counts[i]? .panicked
          return (below, count))
        (fun child start stop => rangeRec file nodes fuel child start stop) start stop 0
        (List.range branch.counts.length)
  | fuel + 1, .disk offset, start, stop => do
    let view ← viewPage file offset
    if view.leaf then
      ((List.range (min stop view.len)).drop start).mapM fun i => do
        let key ← view.key i file.readOverflow
        let value ← view.value i
        return (key, value)
    else
      rangeWalk (fun i => (view.child i).map fun (below, count) => (.disk below, count))
        (fun child start stop => rangeRec file nodes fuel child start stop) start stop 0
        (List.range view.children)

/-! ## Writes -/

/-- Stores a node at a position, and when it is too large only its left part; the right part goes
to the end of the arena. -/
def storeNode (index : Nat) : Node → Result (List Node × Option Split)
  | .leaf leaf =>
    if (policy Key.encodedLen).leafFull leaf then do
      let (left, split) ← orFail (leaf.split ((policy Key.encodedLen).leafCut leaf)) .panicked
      return (nodes.set index (.leaf left) ++ [.leaf split.right],
        some ⟨split.sep, .dirty nodes.length, split.leftCount, split.rightCount⟩)
    else return (nodes.set index (.leaf leaf), none)
  | .branch branch =>
    if (policy Key.encodedLen).branchFull branch.keys then do
      let (left, split) ←
        orFail (branch.split ((policy Key.encodedLen).branchCut branch.keys)) .panicked
      return (nodes.set index (.branch left) ++ [.branch split.right],
        some ⟨split.sep, .dirty nodes.length, split.leftCount, split.rightCount⟩)
    else return (nodes.set index (.branch branch), none)

/-- Inserts or replaces under a child: the new child, the replaced value, and the right part of a
split. -/
def insertRec (file : TreeFile) (key : Key) (value : Bytes) :
    Nat → List Node → Child → Result (List Node × Child × Option Bytes × Option Split)
  | 0, _, _ => .error .tooDeep
  | fuel + 1, nodes, child => do
    let (nodes, index) ← makeDirty file nodes child
    match ← orFail nodes[index]? .panicked with
    | .leaf leaf =>
      match leafSearch leaf key.bytes with
      | .found i => do
        let old ← orFail leaf.values[i]? .panicked
        return (nodes.set index (.leaf (leaf.setValue i value)), .dirty index, some old, none)
      | .absent i => do
        let (nodes, split) ← storeNode nodes index (.leaf (leaf.insertAt i key value))
        return (nodes, .dirty index, none, split)
    | .branch branch => do
      let i := childIndex branch.keys key.bytes
      let below ← orFail branch.children[i]? .panicked
      let (nodes, node, replaced, split) ← insertRec file key value fuel nodes below
      let branch ← branchAt nodes index
      let (nodes, split) ←
        storeNode nodes index (.branch (branch.afterInsert i node replaced.isNone split))
      return (nodes, .dirty index, replaced, split)

/-- Two neighbors as one node. -/
def mergeNodes (left : Node) (sep : Key) (right : Node) : Result Node :=
  match left, right with
  | .leaf into, .leaf other => .ok (.leaf (into.append other))
  | .branch into, .branch other => .ok (.branch (into.append sep other))
  | _, _ => .error .siblingsAtDifferentDepths

/-- After a removal under a position: drops an emptied child, and merges an underfull one with a
neighbor, splitting the result again when it does not fit a page. -/
def rebalance (index position : Nat) : Result (List Node) := do
  let branch ← branchAt nodes index
  let count ← orFail branch.counts[position]? .panicked
  if count = 0 then do
    let branch ← orFail (branch.dropChild position) .panicked
    return nodes.set index (.branch branch)
  else if branch.children.length < 2 then return nodes
  else do
    let child ← orFail branch.children[position]? .panicked
    let below ← node file nodes child
    if pageSize / 4 ≤ below.encodedLen then return nodes
    else do
      let left := position - 1
      let leftChild ← orFail branch.children[left]? .panicked
      let rightChild ← orFail branch.children[left + 1]? .panicked
      let sep ← orFail branch.keys[left]? .panicked
      let (nodes, leftIndex) ← makeDirty file nodes leftChild
      let rightNode ← node file nodes rightChild
      let leftNode ← orFail nodes[leftIndex]? .panicked
      let merged ← mergeNodes leftNode sep rightNode
      let (nodes, split) ← storeNode nodes leftIndex merged
      let branch ← branchAt nodes index
      return nodes.set index (.branch (branch.afterMerge left (.dirty leftIndex) split))

/-- Removes a key that is under a child: the new child and the removed value. -/
def removeRec (file : TreeFile) (key : Bytes) :
    Nat → List Node → Child → Result (List Node × Child × Bytes)
  | 0, _, _ => .error .tooDeep
  | fuel + 1, nodes, child => do
    let (nodes, index) ← makeDirty file nodes child
    match ← orFail nodes[index]? .panicked with
    | .leaf leaf =>
      match leafSearch leaf key with
      | .found i => do
        let value ← orFail leaf.values[i]? .panicked
        return (nodes.set index (.leaf (leaf.removeAt i)), .dirty index, value)
      | .absent _ => .error .removedKeyVanished
    | .branch branch => do
      let i := childIndex branch.keys key
      let below ← orFail branch.children[i]? .panicked
      let (nodes, node, value) ← removeRec file key fuel nodes below
      let branch ← branchAt nodes index
      let nodes ← rebalance file (nodes.set index (.branch (branch.afterRemove i node))) index i
      return (nodes, .dirty index, value)

/-- A root with one child hands over to it; an empty leaf root is the empty tree. -/
def collapse (file : TreeFile) (nodes : List Node) : Nat → Child → Result Child
  | 0, _ => .error .tooDeep
  | fuel + 1, child => do
    match ← node file nodes child with
    | .branch branch =>
      match branch.children with
      | [below] => collapse file nodes fuel below
      | _ => return child
    | .leaf leaf => return if leaf.keys = [] then .empty else child

/-! ## Transactions -/

/-- A transaction: the file and the state it began with, the nodes it changed, and what it logs. -/
structure Tx where
  file : TreeFile
  base : TreeState
  nodes : List Node
  roots : Tree → Child
  count : Nat
  log : List LoggedOp

namespace Tx

/-- A transaction that has changed nothing. -/
def begin (file : TreeFile) (base : TreeState) : Tx where
  file := file
  base := base
  nodes := []
  roots
    | .score => .disk base.scoreRoot
    | .member => .disk base.memberRoot
  count := base.count
  log := []

variable (tx : Tx)

/-- The value of a key. -/
def get (tree : Tree) (key : Bytes) : Result (Option Bytes) :=
  let root := tx.roots tree
  if root = .empty then .ok none
  else getLoop tx.file tx.nodes key (depthBound tx.file tx.nodes root) root

/-- The number of keys below a key. -/
def rank (tree : Tree) (key : Bytes) : Result Nat :=
  let root := tx.roots tree
  if root = .empty then .ok 0
  else rankLoop tx.file tx.nodes key (depthBound tx.file tx.nodes root) root 0

/-- The entries at the positions from `start` up to `stop`. -/
def range (tree : Tree) (start stop : Nat) : Result (List (Bytes × Bytes)) :=
  let root := tx.roots tree
  if root ≠ .empty ∧ start < stop then
    rangeRec tx.file tx.nodes (depthBound tx.file tx.nodes root) root start stop
  else .ok []

/-- Inserts or replaces; returns the replaced value. -/
def insert (tree : Tree) (key value : Bytes) : Result (Tx × Option Bytes) := do
  let root := tx.roots tree
  let (nodes, node, replaced, split) ←
    insertRec tx.file (.new key) value (depthBound tx.file tx.nodes root) tx.nodes root
  match split with
  | none => return ({ tx with nodes, roots := Function.update tx.roots tree node }, replaced)
  | some split =>
    let branch : Branch :=
      ⟨[split.sep], [node, split.right], [split.leftCount, split.rightCount]⟩
    return ({ tx with
      nodes := nodes ++ [.branch branch]
      roots := Function.update tx.roots tree (.dirty nodes.length) }, replaced)

/-- Removes a key; returns its value, or none when it is absent. -/
def remove (tree : Tree) (key : Bytes) : Result (Tx × Option Bytes) := do
  match ← tx.get tree key with
  | none => return (tx, none)
  | some _ => do
    let root := tx.roots tree
    let fuel := depthBound tx.file tx.nodes root
    let (nodes, node, value) ← removeRec tx.file key fuel tx.nodes root
    let node ← collapse tx.file nodes fuel node
    return ({ tx with nodes, roots := Function.update tx.roots tree node }, some value)

end Tx

end FerricStore.Zset
