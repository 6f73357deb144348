import FerricStore.Lib.BPlusTree.Remove

/-!
# Nodes under a change of keys and children

An implementation keeps keys with more in them than their order, and children as addresses. `map`
takes such a node to one over plain keys and over the trees that the addresses name; every edit of
a node commutes with it.
-/

namespace FerricStore.BPlusTree

open Option

variable {κ κ' ν β β' : Type} (f : κ → κ') (g : β → β')

/-- The leaf over other keys. -/
def Leaf.map (leaf : Leaf κ ν) : Leaf κ' ν :=
  ⟨leaf.keys.map f, leaf.values⟩

/-- The branch over other keys and children. -/
def Branch.map (branch : Branch κ β) : Branch κ' β' :=
  ⟨branch.keys.map f, branch.children.map g, branch.counts⟩

/-- The split over other keys and children. -/
def Split.map (split : Split κ β) : Split κ' β' :=
  ⟨f split.sep, g split.right, split.leftCount, split.rightCount⟩

namespace Leaf

variable (leaf : Leaf κ ν)

@[simp] theorem map_insertAt (i : Nat) (key : κ) (value : ν) :
    (leaf.insertAt i key value).map f = (leaf.map f).insertAt i (f key) value := by
  simp [map, insertAt, List.map_insertIdx]

@[simp] theorem map_removeAt (i : Nat) : (leaf.removeAt i).map f = (leaf.map f).removeAt i := by
  simp [map, removeAt, List.eraseIdx_map]

@[simp] theorem map_append (leaf other : Leaf κ ν) :
    (leaf.append other).map f = (leaf.map f).append (other.map f) := by
  simp [map, append]

/-- A leaf can be cut where the leaf over other keys can. -/
theorem map_split (cut : Nat) : (leaf.map f).split cut =
      (leaf.split cut).map fun (left, split) => (left.map f, split.map f (Leaf.map f)) := by
  have hhead : ((leaf.map f).keys.drop cut).head? = (leaf.keys.drop cut).head?.map f := by
    rw [map, ← List.map_drop, List.head?_map]
  rw [split, hhead, split, map_map, map_map]
  congr 1
  funext sep
  simp [take, drop, map, Split.map]

end Leaf

namespace Branch

section

variable (branch : Branch κ β)

@[simp] theorem map_afterInsert (i : Nat) (node : β) (grew : Bool) (split : Option (Split κ β)) :
    (branch.afterInsert i node grew split).map f g =
      (branch.map f g).afterInsert i (g node) grew (split.map (Split.map f g)) := by
  cases split with
  | none => simp [map, afterInsert, List.map_set]
  | some split => simp [map, afterInsert, List.map_set, List.map_insertIdx, Split.map]

@[simp] theorem map_append (sep : κ) (other : Branch κ β) :
    (branch.append sep other).map f g = (branch.map f g).append (f sep) (other.map f g) := by
  simp [map, append]

/-- A child can be dropped where it can be from the branch over other keys. -/
theorem map_dropChild (i : Nat) :
    (branch.map f g).dropChild i = (branch.dropChild i).map (Branch.map f g) := by
  unfold dropChild
  by_cases hkeys : branch.keys = []
  · simp [map, hkeys]
  · simp [map, hkeys, List.eraseIdx_map]

/-- A branch can be cut where the branch over other keys can. -/
theorem map_split (mid : Nat) : (branch.map f g).split mid =
      (branch.split mid).map fun (left, split) => (left.map f g, split.map f (Branch.map f g)) := by
  simp only [split, map, List.getElem?_map, map_map]
  congr 1
  funext sep
  simp [map, Split.map, total]

end

section Context

variable {f g} {g' : β → β'} {branch : Branch κ β} {before after : List β} {child : β} {i : Nat}

section

variable (h : branch.children = before ++ child :: after)
include h

section

variable (hi : before.length = i) (node : β)
include hi

/-- The children after an insertion below one of them. -/
theorem children_afterInsert (grew : Bool) (split : Option (Split κ β)) :
    (branch.afterInsert i node grew split).children =
      before ++ ((node :: split.toList.map Split.right) ++ after) := by
  cases split with
  | none => simp [afterInsert, h, set_mid hi]
  | some split => simp [afterInsert, h, set_mid hi, insertIdx_after hi]

/-- An insertion below one child commutes with a change of children that may differ on it. -/
theorem map_afterInsert_of_agree (hagree : ∀ c ∈ before ++ after, g' c = g c) (grew : Bool)
    (split : Option (Split κ β)) :
    (branch.afterInsert i node grew split).map f g' =
      (branch.map f g).afterInsert i (g' node) grew (split.map (Split.map f g')) := by
  have hset : (branch.map f g').children.set i (g' node) =
      (branch.map f g).children.set i (g' node) := by
    simp only [map, h, List.map_append, List.map_cons]
    rw [set_mid (by simpa using hi), set_mid (by simpa using hi),
      List.map_congr_left fun c hc => hagree c (List.mem_append_left _ hc),
      List.map_congr_left fun c hc => hagree c (List.mem_append_right _ hc)]
  rw [map_afterInsert]
  cases split with
  | none =>
    simp only [afterInsert, map_none]
    rw [hset]
    rfl
  | some split =>
    simp only [afterInsert, map_some]
    rw [hset]
    rfl

theorem children_afterRemove :
    (branch.afterRemove i node).children = before ++ ([node] ++ after) := by
  simp [afterRemove, h, set_mid hi]

/-- A removal below one child commutes with a change of children that may differ on it. -/
theorem map_afterRemove_of_agree (hagree : ∀ c ∈ before ++ after, g' c = g c) :
    (branch.afterRemove i node).map f g' = (branch.map f g).afterRemove i (g' node) := by
  simp only [map, afterRemove, h, set_mid hi, List.map_append, List.map_cons]
  rw [set_mid (by simpa using hi),
    List.map_congr_left fun c hc => hagree c (List.mem_append_left _ hc),
    List.map_congr_left fun c hc => hagree c (List.mem_append_right _ hc)]

end

end

section

variable {other : β} (h : branch.children = before ++ child :: other :: after)
  (hi : before.length = i) (node : β) (split : Option (Split κ β))
include h hi

/-- The children after two neighbors were merged. -/
theorem children_afterMerge : (branch.afterMerge i node split).children =
      before ++ ((node :: split.toList.map Split.right) ++ after) := by
  cases split with
  | none => simp [afterMerge, h, set_mid hi, eraseIdx_after hi]
  | some split => simp [afterMerge, h, set_mid hi, set_after hi]

/-- A merge commutes with a change of children that may differ on the merged ones. -/
theorem map_afterMerge_of_agree (hagree : ∀ c ∈ before ++ after, g' c = g c) :
    (branch.afterMerge i node split).map f g' =
      (branch.map f g).afterMerge i (g' node) (split.map (Split.map f g')) := by
  have hlen : (before.map g).length = i := by simpa using hi
  have hbefore := List.map_congr_left fun c hc => hagree c (List.mem_append_left after hc)
  have hafter := List.map_congr_left fun c hc => hagree c (List.mem_append_right before hc)
  cases split with
  | none =>
    simp [map, afterMerge, h, set_mid hi, eraseIdx_after hi, set_mid hlen, eraseIdx_after hlen,
      hbefore, hafter, List.eraseIdx_map]
  | some split =>
    simp [map, afterMerge, h, set_mid hlen, set_after hlen, hbefore, hafter, Split.map]

end

end Context

end Branch

end FerricStore.BPlusTree
