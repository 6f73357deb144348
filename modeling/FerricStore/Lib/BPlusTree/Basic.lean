import FerricStore.Lib.SortedMap

/-!
# Counted B+ trees

A tree of depth `n` is a leaf or a branch over trees of depth `n - 1`, so all leaves are equally
deep by type. A branch keeps, beside its separators and children, the number of keys under each
child. When a node is split, where, and when it is merged with a neighbor is a `Policy`, and the
algorithms are those of a page-oriented tree: insertion splits on the way up, removal drops an
emptied child or merges an underfull one with a neighbor and splits the result again when it is too
large. A computation that would index past the end of a list has no result.
-/

namespace FerricStore.BPlusTree

/-- A leaf: its keys in order and their values. -/
structure Leaf (κ ν : Type) where
  keys : List κ
  values : List ν
  deriving DecidableEq, Repr

/-- A branch: child `i` holds the keys from `keys[i - 1]` up to `keys[i]`, `counts[i]` of them. -/
structure Branch (κ β : Type) where
  keys : List κ
  children : List β
  counts : List Nat
  deriving DecidableEq, Repr

/-- What a split hands to the parent. -/
structure Split (κ β : Type) where
  sep : κ
  right : β
  leftCount : Nat
  rightCount : Nat

/-- A tree of a given depth. -/
def Tree (κ ν : Type) : Nat → Type
  | 0 => Leaf κ ν
  | n + 1 => Branch κ (Tree κ ν n)

/-- When nodes are too large or too small, and where the large ones are split. -/
structure Policy (κ ν : Type) where
  leafFull : Leaf κ ν → Bool
  leafCut : Leaf κ ν → Nat
  leafLow : Leaf κ ν → Bool
  branchFull : List κ → Bool
  branchCut : List κ → Nat
  branchLow : List κ → Bool

/-- A policy that never splits off an empty part, and treats a branch with one child as small. -/
structure Policy.Sound {κ ν : Type} (p : Policy κ ν) : Prop where
  leaf_cut : ∀ leaf : Leaf κ ν, p.leafFull leaf = true → 2 ≤ leaf.keys.length →
    0 < p.leafCut leaf ∧ p.leafCut leaf < leaf.keys.length
  branch_cut : ∀ keys : List κ, p.branchFull keys = true →
    0 < p.branchCut keys ∧ p.branchCut keys + 1 < keys.length
  branch_low : p.branchLow [] = true

section Shapes

variable {κ ν β : Type}

namespace Leaf

variable (leaf : Leaf κ ν)

/-- The leaf with an entry added at a position. -/
def insertAt (i : Nat) (key : κ) (value : ν) : Leaf κ ν :=
  ⟨leaf.keys.insertIdx i key, leaf.values.insertIdx i value⟩

/-- The leaf with the value at a position replaced. -/
def setValue (i : Nat) (value : ν) : Leaf κ ν :=
  ⟨leaf.keys, leaf.values.set i value⟩

/-- The leaf without the entry at a position. -/
def removeAt (i : Nat) : Leaf κ ν :=
  ⟨leaf.keys.eraseIdx i, leaf.values.eraseIdx i⟩

/-- The entries before a position. -/
def take (i : Nat) : Leaf κ ν :=
  ⟨leaf.keys.take i, leaf.values.take i⟩

/-- The entries from a position on. -/
def drop (i : Nat) : Leaf κ ν :=
  ⟨leaf.keys.drop i, leaf.values.drop i⟩

/-- Two leaves as one. -/
def append (leaf other : Leaf κ ν) : Leaf κ ν :=
  ⟨leaf.keys ++ other.keys, leaf.values ++ other.values⟩

/-- Cuts a leaf at a position; the separator is the first key of the right part, which must not
be empty. -/
def split (cut : Nat) : Option (Leaf κ ν × Split κ (Leaf κ ν)) :=
  (leaf.keys.drop cut).head?.map fun sep =>
    (leaf.take cut,
      ⟨sep, leaf.drop cut, (leaf.take cut).keys.length, (leaf.drop cut).keys.length⟩)

end Leaf

namespace Branch

variable (branch : Branch κ β)

/-- The number of keys under the branch. -/
def total : Nat :=
  branch.counts.sum

/-- The branch after an insertion below a position: the new child, one more key under it when none
was replaced, and the right part of a split beside it. -/
def afterInsert (position : Nat) (node : β) (grew : Bool)
    (split : Option (Split κ β)) : Branch κ β :=
  let children := branch.children.set position node
  let counts := if grew then branch.counts.modify position (· + 1) else branch.counts
  match split with
  | none => ⟨branch.keys, children, counts⟩
  | some split =>
    ⟨branch.keys.insertIdx position split.sep,
      children.insertIdx (position + 1) split.right,
      (counts.set position split.leftCount).insertIdx (position + 1) split.rightCount⟩

/-- Cuts a branch at a separator, which is handed up. -/
def split (mid : Nat) : Option (Branch κ β × Split κ (Branch κ β)) :=
  branch.keys[mid]?.map fun sep =>
    let left : Branch κ β :=
      ⟨branch.keys.take mid, branch.children.take (mid + 1), branch.counts.take (mid + 1)⟩
    let right : Branch κ β :=
      ⟨branch.keys.drop (mid + 1), branch.children.drop (mid + 1), branch.counts.drop (mid + 1)⟩
    (left, ⟨sep, right, left.total, right.total⟩)

/-- Two branches as one, with the separator between them. -/
def append (sep : κ) (other : Branch κ β) : Branch κ β :=
  ⟨branch.keys ++ sep :: other.keys, branch.children ++ other.children,
    branch.counts ++ other.counts⟩

/-- The branch after a removal below a position. -/
def afterRemove (position : Nat) (node : β) : Branch κ β :=
  ⟨branch.keys, branch.children.set position node, branch.counts.modify position (· - 1)⟩

/-- Drops an emptied child and a separator beside it, of which there must be one. -/
def dropChild (position : Nat) : Option (Branch κ β) :=
  if branch.keys = [] then none
  else some ⟨branch.keys.eraseIdx (min (position - 1) (branch.keys.length - 1)),
    branch.children.eraseIdx position, branch.counts.eraseIdx position⟩

/-- Puts the merge of the children at `left` and `left + 1` in their place. -/
def afterMerge (left : Nat) (node : β) : Option (Split κ β) → Branch κ β
  | none => ⟨branch.keys.eraseIdx left, (branch.children.set left node).eraseIdx (left + 1),
      (branch.counts.modify left (· + branch.counts.getD (left + 1) 0)).eraseIdx (left + 1)⟩
  | some split => ⟨branch.keys.set left split.sep,
      (branch.children.set left node).set (left + 1) split.right,
      (branch.counts.set left split.leftCount).set (left + 1) split.rightCount⟩

end Branch

end Shapes

section Algorithms

variable {κ ν : Type} [LinearOrder κ] (p : Policy κ ν)

/-- The number of keys below `key`: where it is in a sorted list, or where it would go. -/
def position (keys : List κ) (key : κ) : Nat :=
  (keys.takeWhile (· < key)).length

/-- The child that holds `key`: the number of separators at or below it. -/
def childIndex (seps : List κ) (key : κ) : Nat :=
  (seps.takeWhile (· ≤ key)).length

/-- Whether a node is too small. -/
def low : (n : Nat) → Tree κ ν n → Bool
  | 0, leaf => p.leafLow leaf
  | _ + 1, branch => p.branchLow branch.keys

/-- Two neighbors as one node. -/
def merge : (n : Nat) → Tree κ ν n → κ → Tree κ ν n → Tree κ ν n
  | 0, leaf, _, other => Leaf.append leaf other
  | _ + 1, branch, sep, other => Branch.append branch sep other

/-- Splits a node that is too large. -/
def splitFull : (n : Nat) → Tree κ ν n → Option (Tree κ ν n × Option (Split κ (Tree κ ν n)))
  | 0, leaf =>
    if p.leafFull leaf then
      (Leaf.split leaf (p.leafCut leaf)).map fun (left, split) => (left, some split)
    else some (leaf, none)
  | _ + 1, branch =>
    if p.branchFull branch.keys then
      (Branch.split branch (p.branchCut branch.keys)).map fun (left, split) => (left, some split)
    else some (branch, none)

variable (leaf : Leaf κ ν)

/-- Adds an entry to a leaf or replaces the value of its key. -/
def insertLeaf (key : κ) (value : ν) : Option (Leaf κ ν × Option ν × Option (Split κ (Leaf κ ν))) :=
  let i := position leaf.keys key
  if leaf.keys[i]? = some key then
    leaf.values[i]?.map fun old => (leaf.setValue i value, some old, none)
  else
    (splitFull p 0 (leaf.insertAt i key value)).map fun (leaf, split) => (leaf, none, split)

/-- Adds an entry below a node: the node, the replaced value, and the right part of a split. -/
def insertRec : (n : Nat) → Tree κ ν n → κ → ν →
    Option (Tree κ ν n × Option ν × Option (Split κ (Tree κ ν n)))
  | 0, leaf, key, value => insertLeaf p leaf key value
  | n + 1, branch, key, value => do
    let i := childIndex (Branch.keys branch) key
    let below ← (Branch.children branch)[i]?
    let (node, replaced, split) ← insertRec n below key value
    let (branch, split) ← splitFull p (n + 1) (branch.afterInsert i node replaced.isNone split)
    return (branch, replaced, split)

/-- Repairs a branch after a removal under a position. -/
def rebalance (n : Nat) (branch : Branch κ (Tree κ ν n)) (i : Nat) :
    Option (Branch κ (Tree κ ν n)) := do
  let count ← branch.counts[i]?
  if count = 0 then branch.dropChild i
  else do
    let child ← branch.children[i]?
    if branch.children.length < 2 ∨ low p n child = false then return branch
    else do
      let left := i - 1
      let leftChild ← branch.children[left]?
      let rightChild ← branch.children[left + 1]?
      let sep ← branch.keys[left]?
      let (node, split) ← splitFull p n (merge n leftChild sep rightChild)
      return branch.afterMerge left node split

/-- Removes the entry of a key from a leaf. -/
def removeLeaf (key : κ) : Option (Leaf κ ν × ν) :=
  let i := position leaf.keys key
  if leaf.keys[i]? = some key then leaf.values[i]?.map fun value => (leaf.removeAt i, value)
  else none

/-- Removes the entry of a key that is below a node. -/
def removeRec : (n : Nat) → Tree κ ν n → κ → Option (Tree κ ν n × ν)
  | 0, leaf, key => removeLeaf leaf key
  | n + 1, branch, key => do
    let i := childIndex (Branch.keys branch) key
    let below ← (Branch.children branch)[i]?
    let (node, value) ← removeRec n below key
    let branch ← rebalance p n (branch.afterRemove i node) i
    return (branch, value)

/-- The value of a key in a leaf. -/
def getLeaf (key : κ) : Option ν :=
  let i := position leaf.keys key
  if leaf.keys[i]? = some key then leaf.values[i]? else none

/-- The value of a key below a node. -/
def getRec : (n : Nat) → Tree κ ν n → κ → Option ν
  | 0, leaf, key => getLeaf leaf key
  | n + 1, branch, key =>
    ((Branch.children branch)[childIndex (Branch.keys branch) key]?).bind
      fun below => getRec n below key

/-- The number of keys below a key. -/
def rankRec : (n : Nat) → Tree κ ν n → κ → Nat
  | 0, leaf, key => position (Leaf.keys leaf) key
  | n + 1, branch, key =>
    let i := childIndex (Branch.keys branch) key
    ((Branch.counts branch).take i).sum +
      (((Branch.children branch)[i]?).elim 0 fun below => rankRec n below key)

/-- Walks over the children of a branch and reads the ones that a range of positions touches. -/
def rangeChildren {β : Type} (read : β → Nat → Nat → List (κ × ν)) (start stop : Nat) :
    Nat → List (β × Nat) → List (κ × ν)
  | _, [] => []
  | offset, (child, count) :: rest =>
    if stop ≤ offset then []
    else
      (if start < offset + count then read child (start - offset) (min (stop - offset) count)
        else []) ++ rangeChildren read start stop (offset + count) rest

/-- The entries at the positions from `start` up to `stop`. -/
def rangeRec : (n : Nat) → Tree κ ν n → Nat → Nat → List (κ × ν)
  | 0, leaf, start, stop => (((Leaf.keys leaf).zip (Leaf.values leaf)).take stop).drop start
  | n + 1, branch, start, stop =>
    rangeChildren (fun child start stop => rangeRec n child start stop) start stop 0
      ((Branch.children branch).zip (Branch.counts branch))

/-- A whole tree: nothing, or a node of some depth. -/
abbrev Root (κ ν : Type) := Option (Σ n, Tree κ ν n)

variable (root : Root κ ν)

/-- Adds an entry to a whole tree; a split of the root makes the tree one deeper. -/
def insert (key : κ) (value : ν) : Option (Root κ ν × Option ν) := do
  let ⟨n, tree⟩ := root.getD ⟨0, (⟨[], []⟩ : Leaf κ ν)⟩
  let (node, replaced, split) ← insertRec p n tree key value
  match split with
  | none => return (some ⟨n, node⟩, replaced)
  | some split =>
    return (some ⟨n + 1, (⟨[split.sep], [node, split.right],
      [split.leftCount, split.rightCount]⟩ : Branch κ (Tree κ ν n))⟩, replaced)

/-- A root with one child hands over to it, and an empty leaf is the empty tree. -/
def collapse : (n : Nat) → Tree κ ν n → Root κ ν
  | 0, leaf => if (Leaf.keys leaf).isEmpty then none else some ⟨0, leaf⟩
  | n + 1, branch =>
    match Branch.children branch with
    | [child] => collapse n child
    | _ => some ⟨n + 1, branch⟩

/-- The value of a key in a whole tree. -/
def get (key : κ) : Option ν :=
  root.bind fun ⟨n, tree⟩ => getRec n tree key

/-- The number of keys below a key in a whole tree. -/
def rank (key : κ) : Nat :=
  root.elim 0 fun ⟨n, tree⟩ => rankRec n tree key

/-- The entries of a whole tree at the positions from `start` up to `stop`. -/
def range (start stop : Nat) : List (κ × ν) :=
  if start < stop then root.elim [] fun ⟨n, tree⟩ => rangeRec n tree start stop else []

/-- Removes the entry of a key from a whole tree. -/
def remove (key : κ) : Option (Root κ ν × Option ν) :=
  match get root key, root with
  | none, _ => some (root, none)
  | some _, none => none
  | some _, some ⟨n, tree⟩ =>
    (removeRec p n tree key).map fun (node, value) => (collapse n node, some value)

end Algorithms

end FerricStore.BPlusTree
