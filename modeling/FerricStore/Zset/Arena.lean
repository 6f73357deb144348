import FerricStore.Zset.Tree

/-!
# The trees in an arena

A child names a tree: `view` is that tree over plain keys, `Loaded` says that all of its nodes can
be read, and `footprint` lists the arena positions it consists of. `frame` says that a tree depends
on nothing outside its footprint, so that an edit elsewhere leaves it alone. With these, every
write of a transaction is the write of the same name on plain trees (`insert_rec_refines`,
`remove_rec_refines`), and every read is a read of the plain tree.
-/

namespace FerricStore.Zset

open List BPlusTree BPlusTree.Branch Key

open Arena (Edit)

/-- A tree over plain keys. -/
abbrev PlainTree := BPlusTree.Tree Bytes Bytes

/-- When plain nodes are split and merged. -/
abbrev plainPolicy : BPlusTree.Policy Bytes Bytes := policy encodedKeyLen

variable (file : TreeFile) (nodes : List Node)

/-- What is seen where there is no node of the right kind. -/
def noTree : (n : Nat) → PlainTree n
  | 0 => (⟨[], []⟩ : BPlusTree.Leaf Bytes Bytes)
  | n + 1 => (⟨[], [], []⟩ : BPlusTree.Branch Bytes (PlainTree n))

/-- The plain tree of a node. -/
def viewNode : (n : Nat) → Node → PlainTree n
  | 0, .leaf leaf => leaf.map Key.bytes
  | n + 1, .branch branch => branch.map Key.bytes fun child =>
    match node file nodes child with
    | .ok below => viewNode n below
    | .error _ => noTree n
  | n, _ => noTree n

/-- The plain tree of a child. -/
def view (n : Nat) (child : Child) : PlainTree n :=
  match node file nodes child with
  | .ok below => viewNode file nodes n below
  | .error _ => noTree n

/-- All nodes under a node can be read, down to leaves at the given depth. -/
def LoadedNode : (n : Nat) → Node → Prop
  | 0, .leaf _ => True
  | n + 1, .branch branch =>
    ∀ child ∈ branch.children, ∃ below, node file nodes child = .ok below ∧ LoadedNode n below
  | _, _ => False

/-- All nodes of a child's tree can be read. -/
def Loaded (n : Nat) (child : Child) : Prop :=
  ∃ below, node file nodes child = .ok below ∧ LoadedNode file nodes n below

/-- The arena positions under a node. -/
def footprintNode : (n : Nat) → Node → List Nat
  | n + 1, .branch branch => branch.children.flatMap fun child =>
    match child with
    | .disk _ => []
    | .dirty index => index :: ((nodes[index]?).elim [] (footprintNode n))
  | _, _ => []

/-- The arena positions of a child's tree. -/
def footprint (n : Nat) : Child → List Nat
  | .disk _ => []
  | .dirty index => index :: ((nodes[index]?).elim [] (footprintNode nodes n))

variable {file nodes}

theorem viewNode_branch (n : Nat) (branch : Branch) :
    viewNode file nodes (n + 1) (.branch branch) = branch.map bytes (view file nodes n) := rfl

variable (leaf : Leaf)

theorem loadedNode_leaf : LoadedNode file nodes 0 (.leaf leaf) := trivial

variable {n : Nat} {branch : Branch}

theorem loadedNode_branch : LoadedNode file nodes (n + 1) (.branch branch) ↔
      ∀ child ∈ branch.children, Loaded file nodes n child := Iff.rfl

theorem footprintNode_branch (n : Nat) (branch : Branch) :
    footprintNode nodes (n + 1) (.branch branch) =
      branch.children.flatMap (footprint nodes n) := rfl

variable {index : Nat}

theorem footprint_dirty {below : Node} (h : nodes[index]? = some below) :
    footprint nodes n (.dirty index) = index :: footprintNode nodes n below := by
  rw [footprint, h]
  rfl

variable {below : Node}

theorem node_dirty (h : nodes[index]? = some below) :
    node file nodes (.dirty index) = .ok below := by
  rw [node, h]
  rfl

theorem getElem?_of_node_dirty
    (h : node file nodes (.dirty index) = .ok below) : nodes[index]? = some below :=
  orFail_eq_ok_iff.mp h

theorem LoadedNode.exists_leaf (h : LoadedNode file nodes 0 below) : ∃ leaf, below = .leaf leaf := by
  cases below with
  | leaf leaf => exact ⟨leaf, rfl⟩
  | branch branch => exact h.elim

theorem LoadedNode.exists_branch (h : LoadedNode file nodes (n + 1) below) :
    ∃ branch, below = .branch branch := by
  cases below with
  | leaf leaf => exact h.elim
  | branch branch => exact ⟨branch, rfl⟩

variable {child : Child}

theorem view_eq (h : node file nodes child = .ok below) :
    view file nodes n child = viewNode file nodes n below := by
  rw [view, h]

/-- Pages name pages. -/
theorem children_on_disk {offset : Nat} (h : load file offset = .ok (.branch branch)) :
    ∀ child ∈ branch.children, ∃ below, child = .disk below := by
  rw [load, bind_eq_ok_iff] at h
  obtain ⟨page, -, h⟩ := h
  obtain ⟨view, -, hview⟩ := page_view_branch h
  intro child hchild
  obtain ⟨i, hi, rfl⟩ := getElem_of_mem hchild
  obtain ⟨below, -, hbelow, -⟩ := hview.child i hi
  rw [getElem?_eq_getElem hi] at hbelow
  exact ⟨below, Option.some.inj hbelow⟩

/-- A loaded page has nothing in the arena. -/
theorem footprintNode_load {n offset : Nat} (h : load file offset = .ok below) :
    footprintNode nodes n below = [] := by
  cases n with
  | zero => cases below <;> rfl
  | succ n =>
    cases below with
    | leaf _ => rfl
    | branch branch =>
      rw [footprintNode_branch, flatMap_eq_nil_iff]
      intro child hchild
      obtain ⟨below, rfl⟩ := children_on_disk h child hchild
      rfl

/-- The node of a child that is on disk. -/
theorem load_of_node_disk {offset : Nat} (h : node file nodes (.disk offset) = .ok below) :
    offset ≠ 0 ∧ load file offset = .ok below := by
  rw [node] at h
  split_ifs at h with hzero
  exact ⟨hzero, h⟩

/-! ## Frames -/

/-- Two arenas show the same tree under a node. -/
structure SameNode (file : TreeFile) (nodes nodes' : List Node) (n : Nat) (below : Node) : Prop where
  loaded : LoadedNode file nodes' n below
  view : viewNode file nodes' n below = viewNode file nodes n below
  footprint : footprintNode nodes' n below = footprintNode nodes n below

/-- Two arenas show the same tree under a child. -/
structure Same (file : TreeFile) (nodes nodes' : List Node) (n : Nat) (child : Child) : Prop where
  loaded : Loaded file nodes' n child
  view : view file nodes' n child = Zset.view file nodes n child
  footprint : footprint nodes' n child = Zset.footprint nodes n child

variable {nodes' : List Node}

/-- A child's tree is the same when its node is and what is under it. -/
theorem Same.of_node
    (hnode : node file nodes child = .ok below) (hnode' : node file nodes' child = .ok below)
    (h : SameNode file nodes nodes' n below) : Same file nodes nodes' n child := by
  refine ⟨⟨below, hnode', h.loaded⟩, ?_, ?_⟩
  · rw [view_eq hnode', view_eq hnode, h.view]
  · cases child with
    | disk offset => rfl
    | dirty index =>
      rw [footprint_dirty (getElem?_of_node_dirty hnode'),
        footprint_dirty (getElem?_of_node_dirty hnode), h.footprint]

/-- A child's tree depends on nothing outside its footprint when no tree under a node does. -/
theorem frame_child (hframe : ∀ below, LoadedNode file nodes n below →
      (∀ i ∈ footprintNode nodes n below, nodes'[i]? = nodes[i]?) →
      SameNode file nodes nodes' n below)
    (h : Loaded file nodes n child)
    (hagree : ∀ i ∈ footprint nodes n child, nodes'[i]? = nodes[i]?) :
    Same file nodes nodes' n child := by
  obtain ⟨below, hnode, hloaded⟩ := h
  cases child with
  | disk offset =>
    obtain ⟨-, hload⟩ := load_of_node_disk hnode
    refine Same.of_node hnode hnode (hframe below hloaded fun i hi => ?_)
    rw [footprintNode_load hload] at hi
    cases hi
  | dirty index =>
    have hindex := getElem?_of_node_dirty hnode
    rw [footprint_dirty hindex] at hagree
    have hindex' := (hagree index mem_cons_self).trans hindex
    exact Same.of_node hnode (node_dirty hindex')
      (hframe below hloaded fun i hi => hagree i (mem_cons_of_mem _ hi))

/-- A branch's tree is the same when its children's are. -/
theorem SameNode.of_children (h : ∀ child ∈ branch.children, Same file nodes nodes' n child) :
    SameNode file nodes nodes' (n + 1) (.branch branch) := by
  refine ⟨loadedNode_branch.mpr fun child hchild => (h child hchild).loaded, ?_, ?_⟩
  · rw [viewNode_branch, viewNode_branch, BPlusTree.Branch.map, BPlusTree.Branch.map]
    congr 1
    exact map_congr_left fun child hchild => (h child hchild).view
  · exact flatMap_congr fun child hchild => (h child hchild).footprint

/-- The tree under a node depends on nothing outside its footprint. -/
theorem frame_node : ∀ below : Node,
    LoadedNode file nodes n below → (∀ i ∈ footprintNode nodes n below, nodes'[i]? = nodes[i]?) →
    SameNode file nodes nodes' n below := by
  induction n with
  | zero =>
    intro below h _
    obtain ⟨leaf, rfl⟩ := h.exists_leaf
    exact ⟨h, rfl, rfl⟩
  | succ n ih =>
    intro below h hagree
    obtain ⟨branch, rfl⟩ := h.exists_branch
    refine SameNode.of_children fun child hchild => frame_child ih (h child hchild) ?_
    intro i hi
    refine hagree i ?_
    exact mem_flatMap_of_mem hchild hi

theorem frame (h : Loaded file nodes n child)
    (hagree : ∀ i ∈ footprint nodes n child, nodes'[i]? = nodes[i]?) :
    Same file nodes nodes' n child :=
  frame_child frame_node h hagree

/-- The footprint of a child's tree lies in the arena when those of nodes do. -/
theorem footprint_lt (hnodes : ∀ below, LoadedNode file nodes n below →
      ∀ i ∈ footprintNode nodes n below, i < nodes.length) (h : Loaded file nodes n child) :
    ∀ i ∈ footprint nodes n child, i < nodes.length := by
  obtain ⟨below, hnode, hloaded⟩ := h
  cases child with
  | disk offset => exact nofun
  | dirty index =>
    have hindex := getElem?_of_node_dirty hnode
    rw [footprint_dirty hindex, forall_mem_cons]
    exact ⟨(List.getElem?_eq_some_iff.mp hindex).1, hnodes below hloaded⟩

/-- The positions under a loaded node lie in the arena. -/
theorem footprintNode_bound : ∀ below, LoadedNode file nodes n below →
    ∀ i ∈ footprintNode nodes n below, i < nodes.length := by
  induction n with
  | zero =>
    intro below h
    exact nofun
  | succ n ih =>
    intro below h i hi
    obtain ⟨branch, rfl⟩ := h.exists_branch
    rw [footprintNode_branch, mem_flatMap] at hi
    obtain ⟨child, hchild, hi⟩ := hi
    exact footprint_lt ih (h child hchild) i hi

theorem footprint_bound (h : Loaded file nodes n child) :
    ∀ i ∈ footprint nodes n child, i < nodes.length :=
  footprint_lt footprintNode_bound h

theorem same_of_edit {owned owned' : List Nat}
    (hedit : Edit nodes nodes' owned owned') (h : Loaded file nodes n child)
    (hapart : ∀ i ∈ footprint nodes n child, i ∉ owned) : Same file nodes nodes' n child :=
  frame h fun i hi => hedit.frame i (footprint_bound h i hi) (hapart i hi)

/-! ## Copying a node into the arena -/

/-- A child's node in the arena, with the same tree under it. -/
structure Dirtied (file : TreeFile) (nodes nodes' : List Node) (n : Nat) (child : Child)
    (index : Nat) (below : Node) : Prop where
  node : Zset.node file nodes child = .ok below
  position : nodes'[index]? = some below
  loaded : LoadedNode file nodes' n below
  view : viewNode file nodes' n below = Zset.view file nodes n child
  edit : Edit nodes nodes' (footprint nodes n child) (index :: footprintNode nodes' n below)

/-- Copying a node into the arena changes no tree. -/
theorem make_dirty_spec (h : Loaded file nodes n child) (hnodup : (footprint nodes n child).Nodup) :
    ∃ nodes' index below, makeDirty file nodes child = .ok (nodes', index) ∧
      Dirtied file nodes nodes' n child index below := by
  have hbound := footprint_bound h
  obtain ⟨below, hnode, hloaded⟩ := h
  cases child with
  | dirty index =>
    have hindex := getElem?_of_node_dirty hnode
    refine ⟨nodes, index, below, rfl, hnode, hindex, hloaded, (view_eq hnode).symm, ?_⟩
    rw [← footprint_dirty hindex]
    exact Edit.refl hnodup hbound
  | disk offset =>
    obtain ⟨hzero, hload⟩ := load_of_node_disk hnode
    have hsame : SameNode file nodes (nodes ++ [below]) n below := by
      refine frame_node below hloaded fun i hi => ?_
      rw [footprintNode_load hload] at hi
      cases hi
    refine ⟨nodes ++ [below], nodes.length, below, ?_, hnode, ?_, hsame.loaded, ?_, ?_⟩
    · rw [makeDirty, if_neg hzero, hload, ok_bind]
      rfl
    · simp
    · rw [hsame.view, view_eq hnode]
    · rw [footprintNode_load hload]
      exact Edit.push hnodup hbound below

/-! ## Storing a node -/

/-- The footprint of what a split hands up. -/
def splitFootprint (nodes : List Node) (n : Nat) : Option Split → List Nat
  | none => []
  | some split => footprint nodes n split.right

/-- What a write leaves: a child and perhaps the right part of a split, with the given plain trees,
made of owned and new nodes. -/
structure Stored (file : TreeFile) (nodes nodes' : List Node) (n : Nat) (owned : List Nat)
    (child : Child) (split : Option Split) (tree : PlainTree n)
    (plainSplit : Option (BPlusTree.Split Bytes (PlainTree n))) : Prop where
  edit : Edit nodes nodes' owned (footprint nodes' n child ++ splitFootprint nodes' n split)
  loaded : Loaded file nodes' n child
  view : view file nodes' n child = tree
  right : ∀ s, split = some s → Loaded file nodes' n s.right
  split : split.map (BPlusTree.Split.map Key.bytes (Zset.view file nodes' n)) = plainSplit

/-- Replacing a node elsewhere changes nothing under a node. -/
theorem same_set {below other : Node} (h : LoadedNode file nodes n below)
    (hindex : index ∉ footprintNode nodes n below) :
    SameNode file nodes (nodes.set index other) n below :=
  frame_node below h fun i hi => by
    rw [getElem?_set_ne]
    rintro rfl
    exact hindex hi

theorem same_push {below other : Node} (h : LoadedNode file nodes n below) :
    SameNode file nodes (nodes ++ [other]) n below :=
  frame_node below h fun i hi => getElem?_append_left (footprintNode_bound _ h i hi)

/-- A node that may stand at a position: the position is in the arena, the children are loaded, and
all positions are different. -/
structure Owned (file : TreeFile) (nodes : List Node) (n index : Nat) (below : Node) : Prop where
  lt : index < nodes.length
  loaded : LoadedNode file nodes n below
  nodup : (index :: footprintNode nodes n below).Nodup

theorem Owned.bound (h : Owned file nodes n index below) :
    ∀ i ∈ index :: footprintNode nodes n below, i < nodes.length :=
  forall_mem_cons.mpr ⟨h.lt, footprintNode_bound _ h.loaded⟩

theorem Dirtied.owned {nodes' : List Node} (h : Dirtied file nodes nodes' n child index below) :
    Owned file nodes' n index below :=
  ⟨(List.getElem?_eq_some_iff.mp h.position).1, h.loaded, h.edit.nodup⟩

/-- Storing a whole node. -/
theorem stored_set (h : Owned file nodes n index below) :
    Stored file nodes (nodes.set index below) n (index :: footprintNode nodes n below)
      (.dirty index) none (viewNode file nodes n below) none := by
  have hsame : SameNode file nodes (nodes.set index below) n below :=
    same_set h.loaded (nodup_cons.mp h.nodup).1
  have hget : (nodes.set index below)[index]? = some below := by
    rw [getElem?_set_self h.lt]
  refine ⟨?_, ⟨below, node_dirty hget, hsame.loaded⟩, ?_, by simp, rfl⟩
  · rw [footprint_dirty hget, hsame.footprint, splitFootprint, append_nil]
    exact Edit.set mem_cons_self h.nodup h.bound below
  · rw [view_eq (node_dirty hget), hsame.view]

/-- Storing a node in two parts. -/
theorem stored_split {left right : Node} (hindex : index < nodes.length)
    (hleft : LoadedNode file nodes n left) (hright : LoadedNode file nodes n right)
    (hnodup : (index :: (footprintNode nodes n left ++ footprintNode nodes n right)).Nodup)
    (sep : Key) (leftCount rightCount : Nat) :
    Stored file nodes (nodes.set index left ++ [right]) n
      (index :: (footprintNode nodes n left ++ footprintNode nodes n right)) (.dirty index)
      (some ⟨sep, .dirty nodes.length, leftCount, rightCount⟩) (viewNode file nodes n left)
      (some ⟨sep.bytes, viewNode file nodes n right, leftCount, rightCount⟩) := by
  have hindexNot := (nodup_cons.mp hnodup).1
  have hlen : (nodes.set index left).length = nodes.length := length_set
  -- both parts look the same after the two writes
  have hsame : ∀ below, LoadedNode file nodes n below → index ∉ footprintNode nodes n below →
      SameNode file nodes (nodes.set index left ++ [right]) n below := by
    intro below h hnot
    have hset : SameNode file nodes (nodes.set index left) n below := same_set h hnot
    have hpush : SameNode file (nodes.set index left) (nodes.set index left ++ [right]) n below :=
      same_push hset.loaded
    exact ⟨hpush.loaded, hpush.view.trans hset.view, hpush.footprint.trans hset.footprint⟩
  have hsameLeft := hsame left hleft fun hmem => hindexNot (mem_append_left _ hmem)
  have hsameRight := hsame right hright fun hmem => hindexNot (mem_append_right _ hmem)
  have hget : (nodes.set index left ++ [right])[index]? = some left := by
    rw [getElem?_append_left (by rw [hlen]; exact hindex), getElem?_set_self hindex]
  have hgetRight : (nodes.set index left ++ [right])[nodes.length]? = some right := by
    rw [← hlen, getElem?_append_right le_rfl, Nat.sub_self]
    rfl
  have hbound : ∀ i ∈ index :: (footprintNode nodes n left ++ footprintNode nodes n right),
      i < nodes.length := forall_mem_cons.mpr ⟨hindex, forall_mem_append.mpr
        ⟨footprintNode_bound _ hleft, footprintNode_bound _ hright⟩⟩
  refine ⟨?_, ⟨left, node_dirty hget, hsameLeft.loaded⟩, ?_, ?_, ?_⟩
  · have hedit := (Edit.set mem_cons_self hnodup hbound left).trans
      (Edit.push hnodup (by rw [hlen]; exact hbound) right)
    rw [hlen] at hedit
    have hperm : List.Perm
        ((index :: footprintNode nodes n left) ++ (nodes.length :: footprintNode nodes n right))
        ((index :: (footprintNode nodes n left ++ footprintNode nodes n right)) ++
          [nodes.length]) := by
      rw [cons_append, cons_append]
      refine List.Perm.cons _ ?_
      rw [append_assoc]
      exact List.Perm.append_left _ (perm_append_singleton _ _).symm
    rw [footprint_dirty hget, splitFootprint, footprint_dirty hgetRight, hsameLeft.footprint,
      hsameRight.footprint]
    exact hedit.shrink (hperm.nodup_iff.mpr hedit.nodup) fun i hi => hperm.mem_iff.mp hi
  · rw [view_eq (node_dirty hget), hsameLeft.view]
  · intro s hs
    cases hs
    exact ⟨right, node_dirty hgetRight, hsameRight.loaded⟩
  · rw [Option.map_some, BPlusTree.Split.map]
    rw [view_eq (node_dirty hgetRight), hsameRight.view]

theorem entrySizes_map :
    entrySizes encodedKeyLen (leaf.map bytes) = entrySizes encodedLen leaf := by
  rw [entrySizes, BPlusTree.Leaf.map, zipWith_map_left]
  rfl

theorem separatorSizes_map (keys : List Key) :
    separatorSizes encodedKeyLen (keys.map bytes) = separatorSizes encodedLen keys := by
  rw [separatorSizes, map_map]
  rfl

theorem leafFull_map : plainPolicy.leafFull (leaf.map bytes) =
    (policy encodedLen).leafFull leaf := by
  show decide (pageSize < pageHeader + _) = decide (pageSize < pageHeader + _)
  rw [entrySizes_map]

theorem leafCut_map : plainPolicy.leafCut (leaf.map bytes) = (policy encodedLen).leafCut leaf := by
  show cutAt _ _ = cutAt _ _
  rw [entrySizes_map]

theorem branchFull_map (keys : List Key) : plainPolicy.branchFull (keys.map bytes) =
    (policy encodedLen).branchFull keys := by
  show decide (pageSize < pageHeader + 16 + _) = decide (pageSize < pageHeader + 16 + _)
  rw [separatorSizes_map]

theorem branchCut_map (keys : List Key) : plainPolicy.branchCut (keys.map bytes) =
    (policy encodedLen).branchCut keys := by
  show cutAt _ _ = cutAt _ _
  rw [separatorSizes_map]

variable {leaf : Leaf}

theorem owned_leaf (hindex : index < nodes.length) : Owned file nodes 0 index (.leaf leaf) :=
  ⟨hindex, loadedNode_leaf leaf, nodup_singleton _⟩

/-- Storing a leaf is splitting its plain leaf when that is too large. -/
theorem store_leaf_refines {tree : PlainTree 0}
    {plainSplit : Option (BPlusTree.Split Bytes (PlainTree 0))} (hindex : index < nodes.length)
    (hsplit : splitFull plainPolicy 0 (leaf.map bytes) = some (tree, plainSplit)) :
    ∃ nodes' split, storeNode nodes index (.leaf leaf) = .ok (nodes', split) ∧
      Stored file nodes nodes' 0 [index] (.dirty index) split tree plainSplit := by
  unfold splitFull at hsplit
  dsimp only at hsplit
  rw [leafFull_map, leafCut_map, BPlusTree.Leaf.map_split] at hsplit
  rw [storeNode]
  by_cases hfull : (policy encodedLen).leafFull leaf = true
  · rw [if_pos hfull] at hsplit ⊢
    cases hcut : leaf.split ((policy encodedLen).leafCut leaf) with
    | none =>
      rw [hcut] at hsplit
      cases hsplit
    | some parts =>
      obtain ⟨left, split⟩ := parts
      rw [hcut] at hsplit
      cases hsplit
      exact ⟨_, _, rfl, stored_split hindex (loadedNode_leaf left)
        (loadedNode_leaf split.right) (nodup_singleton _) split.sep
        split.leftCount split.rightCount⟩
  · rw [if_neg hfull] at hsplit ⊢
    cases hsplit
    exact ⟨_, _, rfl, stored_set (owned_leaf hindex)⟩

/-- Storing a branch is splitting its plain branch when that is too large. -/
theorem store_branch_refines {tree : PlainTree (n + 1)}
    {plainSplit : Option (BPlusTree.Split Bytes (PlainTree (n + 1)))}
    (h : Owned file nodes (n + 1) index (.branch branch))
    (hsplit : splitFull plainPolicy (n + 1)
      (branch.map bytes (view file nodes n)) = some (tree, plainSplit)) :
    ∃ nodes' split, storeNode nodes index (.branch branch) = .ok (nodes', split) ∧
      Stored file nodes nodes' (n + 1) (index :: footprintNode nodes (n + 1) (.branch branch))
        (.dirty index) split tree plainSplit := by
  unfold splitFull at hsplit
  dsimp only at hsplit
  rw [storeNode]
  have hkeys : keys (branch.map bytes (view file nodes n)) = branch.keys.map bytes := rfl
  rw [hkeys, branchFull_map, branchCut_map, map_split] at hsplit
  by_cases hfull : (policy encodedLen).branchFull branch.keys = true
  · rw [if_pos hfull] at hsplit ⊢
    cases hcut : branch.split ((policy encodedLen).branchCut branch.keys) with
    | none =>
      rw [hcut] at hsplit
      cases hsplit
    | some parts =>
      rw [hcut] at hsplit
      cases hsplit
      rw [BPlusTree.Branch.split, Option.map_eq_some_iff] at hcut
      obtain ⟨sep, -, hparts⟩ := hcut
      cases hparts
      generalize (policy encodedLen).branchCut branch.keys = mid
      -- the children of the parts are the children
      have hleft : LoadedNode file nodes (n + 1) (.branch ⟨branch.keys.take mid,
          branch.children.take (mid + 1), branch.counts.take (mid + 1)⟩) :=
        fun child hchild => h.loaded child (mem_of_mem_take hchild)
      have hright : LoadedNode file nodes (n + 1) (.branch ⟨branch.keys.drop (mid + 1),
          branch.children.drop (mid + 1), branch.counts.drop (mid + 1)⟩) :=
        fun child hchild => h.loaded child (mem_of_mem_drop hchild)
      have hfootprint : footprintNode nodes (n + 1) (.branch branch) =
          (branch.children.take (mid + 1)).flatMap (footprint nodes n) ++
            (branch.children.drop (mid + 1)).flatMap (footprint nodes n) := by
        rw [← flatMap_append, take_append_drop, footprintNode_branch]
      have hnodup := h.nodup
      rw [hfootprint] at hnodup ⊢
      exact ⟨_, _, rfl, stored_split h.lt hleft hright hnodup _ _ _⟩
  · rw [if_neg hfull] at hsplit ⊢
    cases hsplit
    exact ⟨_, _, rfl, stored_set h⟩

variable {plainSplit : Option (BPlusTree.Split Bytes (PlainTree n))} {tree : PlainTree n}

/-- Storing a node is splitting its plain tree when that is too large. -/
theorem store_node_refines (h : Owned file nodes n index below)
    (hsplit : splitFull plainPolicy n (viewNode file nodes n below) = some (tree, plainSplit)) :
    ∃ nodes' split, storeNode nodes index below = .ok (nodes', split) ∧
      Stored file nodes nodes' n (index :: footprintNode nodes n below) (.dirty index) split tree
        plainSplit := by
  cases n with
  | zero =>
    obtain ⟨leaf, rfl⟩ := h.loaded.exists_leaf
    exact store_leaf_refines h.lt hsplit
  | succ n =>
    obtain ⟨branch, rfl⟩ := h.loaded.exists_branch
    exact store_branch_refines h hsplit

/-! ## Insertion -/

/-- A write after an edit. -/
theorem Stored.after {nodes₁ nodes' : List Node} {owned owned₁ : List Nat} {split : Option Split}
    (h : Stored file nodes₁ nodes' n owned₁ child split tree plainSplit)
    (hedit : Edit nodes nodes₁ owned owned₁) :
    Stored file nodes nodes' n owned child split tree plainSplit :=
  { h with edit := hedit.trans h.edit }

variable {nodes₁ : List Node} {owned : List Nat}

/-- Insertion into a leaf that has been copied into the arena. -/
theorem insert_leaf_refines
    {key : Key} {value : Bytes} {tree : PlainTree 0} {replaced : Option Bytes}
    {plainSplit : Option (BPlusTree.Split Bytes (PlainTree 0))}
    (hdirty : makeDirty file nodes child = .ok (nodes₁, index))
    (hleaf : nodes₁[index]? = some (.leaf leaf)) (hedit : Edit nodes nodes₁ owned [index])
    (hval : insertLeaf plainPolicy (leaf.map bytes) key.bytes value =
      some (tree, replaced, plainSplit)) (fuel : Nat) :
    ∃ nodes' split, insertRec file key value (fuel + 1) nodes child =
        .ok (nodes', .dirty index, replaced, split) ∧
      Stored file nodes nodes' 0 owned (.dirty index) split tree plainSplit := by
  have hindex : index < nodes₁.length := (List.getElem?_eq_some_iff.mp hleaf).1
  rw [insertRec, hdirty, ok_bind]
  dsimp only
  rw [hleaf, orFail_some, ok_bind]
  dsimp only
  rw [leafSearch, searchKeys]
  rw [insertLeaf] at hval
  have hkeys : BPlusTree.Leaf.keys (leaf.map bytes) = leaf.keys.map bytes := rfl
  rw [hkeys] at hval
  dsimp only at hval ⊢
  split_ifs at hval ⊢ with hfound
  · obtain ⟨old, hold, heq⟩ := Option.map_eq_some_iff.mp hval
    cases heq
    have hvalue : leaf.values[position (leaf.keys.map bytes) key.bytes]? = some old := hold
    dsimp only
    rw [hvalue, orFail_some, ok_bind]
    exact ⟨_, _, rfl, (stored_set (owned_leaf hindex)).after hedit⟩
  · obtain ⟨⟨stored, split⟩, hsplit, heq⟩ := Option.map_eq_some_iff.mp hval
    cases heq
    have hsplit' : splitFull plainPolicy 0 ((leaf.insertAt
        (position (leaf.keys.map bytes) key.bytes) key value).map bytes) =
        some (stored, split) := by
      rw [BPlusTree.Leaf.map_insertAt]
      exact hsplit
    obtain ⟨nodes', split', hstore, hstored⟩ := store_leaf_refines hindex hsplit'
    dsimp only
    rw [hstore, ok_bind]
    exact ⟨nodes', split', rfl, hstored.after hedit⟩

/-- Some neighboring children of a branch and the other ones own different nodes. -/
theorem branch_window {before after : List Child} (mid : List Child)
    (h : Owned file nodes (n + 1) index (.branch branch))
    (hchildren : branch.children = before ++ (mid ++ after)) :
    index :: footprintNode nodes (n + 1) (.branch branch) =
        (index :: before.flatMap (footprint nodes n)) ++
          (mid.flatMap (footprint nodes n) ++ after.flatMap (footprint nodes n)) ∧
      (mid.flatMap (footprint nodes n)).Nodup ∧ index ∉ mid.flatMap (footprint nodes n) ∧
      (∀ child ∈ mid, Loaded file nodes n child) ∧
      ∀ child ∈ before ++ after, Loaded file nodes n child ∧
        ∀ j ∈ footprint nodes n child, j ∉ mid.flatMap (footprint nodes n) := by
  have hfootprint : index :: footprintNode nodes (n + 1) (.branch branch) =
      (index :: before.flatMap (footprint nodes n)) ++
        (mid.flatMap (footprint nodes n) ++ after.flatMap (footprint nodes n)) := by
    rw [footprintNode_branch, hchildren, flatMap_append, flatMap_append, cons_append]
  have hloaded : ∀ c ∈ before ++ (mid ++ after), Loaded file nodes n c := by
    rw [← hchildren]
    exact loadedNode_branch.mp h.loaded
  have hnodup := h.nodup
  rw [hfootprint] at hnodup
  obtain ⟨-, hrest, hapart⟩ := nodup_append.mp hnodup
  obtain ⟨hmid, -, hapart'⟩ := nodup_append.mp hrest
  refine ⟨hfootprint, hmid, ?_, fun c hc => hloaded c (by simp [hc]), ?_⟩
  · exact fun hmem => hapart index mem_cons_self index (mem_append_left _ hmem) rfl
  · intro c hc
    rcases mem_append.mp hc with hc | hc
    · refine ⟨hloaded c (by simp [hc]), fun j hj hmem => ?_⟩
      exact hapart j (mem_cons_of_mem _ (mem_flatMap_of_mem hc hj)) j (mem_append_left _ hmem) rfl
    · refine ⟨hloaded c (by simp [hc]), fun j hj hmem => ?_⟩
      exact hapart' j hmem j (mem_flatMap_of_mem hc hj) rfl

/-- The frame rule for a branch: a write that replaces some neighboring children leaves the branch
and its other children alone, and is an edit of the whole branch. -/
theorem write_below {branch newBranch : Branch} {before after : List Child}
    (mid mid' : List Child) (hposition : nodes[index]? = some (.branch branch))
    (h : Owned file nodes (n + 1) index (.branch branch))
    (hchildren : branch.children = before ++ (mid ++ after))
    (hnewChildren : newBranch.children = before ++ (mid' ++ after))
    (hedit : Edit nodes nodes' (mid.flatMap (footprint nodes n)) (mid'.flatMap (footprint nodes' n)))
    (hloaded : ∀ c ∈ mid', Loaded file nodes' n c) :
    nodes'[index]? = some (.branch branch) ∧ (∀ c ∈ before ++ after, Same file nodes nodes' n c) ∧
      Owned file nodes' (n + 1) index (.branch newBranch) ∧
      Edit nodes nodes' (index :: footprintNode nodes (n + 1) (.branch branch))
        (index :: footprintNode nodes' (n + 1) (.branch newBranch)) := by
  obtain ⟨hfootprint, -, hindex, -, hothers⟩ := branch_window mid h hchildren
  have hsame : ∀ c ∈ before ++ after, Same file nodes nodes' n c := fun c hc =>
    same_of_edit hedit (hothers c hc).1 (hothers c hc).2
  have hnewFootprint : index :: footprintNode nodes' (n + 1) (.branch newBranch) =
      (index :: before.flatMap (footprint nodes n)) ++
        (mid'.flatMap (footprint nodes' n) ++ after.flatMap (footprint nodes n)) := by
    rw [footprintNode_branch, hnewChildren, flatMap_append, flatMap_append,
      flatMap_congr fun c hc => (hsame c (mem_append_left _ hc)).footprint,
      flatMap_congr fun c hc => (hsame c (mem_append_right _ hc)).footprint,
      cons_append]
  have hstays := hedit.survives hposition hindex
  have hwhole : Edit nodes nodes' (index :: footprintNode nodes (n + 1) (.branch branch))
      (index :: footprintNode nodes' (n + 1) (.branch newBranch)) := by
    have hnodup := h.nodup
    have hbound := h.bound
    rw [hfootprint] at hnodup hbound ⊢
    rw [hnewFootprint]
    exact hedit.context hnodup hbound
  refine ⟨hstays, hsame, ⟨(List.getElem?_eq_some_iff.mp hstays).1, ?_, hwhole.nodup⟩, hwhole⟩
  rw [loadedNode_branch, hnewChildren]
  intro c hc
  simp only [mem_append] at hc
  rcases hc with hc | hc | hc
  · exact (hsame c (mem_append_left _ hc)).loaded
  · exact hloaded c hc
  · exact (hsame c (mem_append_right _ hc)).loaded

variable {i : Nat}

/-- A list around the child at a position. -/
theorem child_split {children : List Child} {below : Child} (h : children[i]? = some below) :
    ∃ before after, children = before ++ below :: after ∧ before.length = i := by
  obtain ⟨hi, -⟩ := List.getElem?_eq_some_iff.mp h
  obtain ⟨before, child, after, rfl, hlen⟩ := exists_mid hi
  rw [getElem?_mid hlen] at h
  cases h
  exact ⟨before, after, rfl, hlen⟩

/-- The children of a plain branch are the plain trees of the children. -/
theorem getElem?_children_map {tree : PlainTree n} :
    (branch.map bytes (view file nodes n)).children[i]? = some tree ↔
      ∃ child, branch.children[i]? = some child ∧ view file nodes n child = tree := by
  rw [BPlusTree.Branch.map, getElem?_map, Option.map_eq_some_iff]

/-- The child that a descent for a key goes to, found in the plain branch. -/
theorem child_of_view {key : Bytes} {tree : PlainTree n}
    (h : Owned file nodes (n + 1) index (.branch branch))
    (htree : (branch.map bytes (view file nodes n)).children[childIndex branch.keys key]? =
      some tree) :
    ∃ below before after, branch.children[childIndex branch.keys key]? = some below ∧
      view file nodes n below = tree ∧ branch.children = before ++ below :: after ∧
      before.length = childIndex branch.keys key ∧ Loaded file nodes n below ∧
      (footprint nodes n below).Nodup := by
  obtain ⟨below, hchild, hview⟩ := getElem?_children_map.mp htree
  obtain ⟨before, after, hchildren, hlen⟩ := child_split hchild
  obtain ⟨-, hbelow, -, hloaded, -⟩ := branch_window [below] h hchildren
  rw [flatMap_singleton] at hbelow
  exact ⟨below, before, after, hchild, hview, hchildren, hlen, hloaded below mem_cons_self, hbelow⟩

/-- A list around the two children at a position and after it. -/
theorem neighbors_split {children : List Child} {left right : Child}
    (hleft : children[i]? = some left) (hright : children[i + 1]? = some right) :
    ∃ before after, children = before ++ left :: right :: after ∧ before.length = i := by
  obtain ⟨before, after, rfl, hlen⟩ := child_split hleft
  cases after with
  | nil =>
    rw [getElem?_eq_none (by simp [hlen])] at hright
    cases hright
  | cons next after =>
    rw [getElem?_after hlen] at hright
    cases hright
    exact ⟨before, after, rfl, hlen⟩

/-- The trees a write leaves are loaded, and lie where the write says. -/
theorem Stored.children
    {split : Option Split} (h : Stored file nodes nodes₁ n owned child split tree plainSplit) :
    (∀ c ∈ child :: split.toList.map BPlusTree.Split.right, Loaded file nodes₁ n c) ∧
      (child :: split.toList.map BPlusTree.Split.right).flatMap (footprint nodes₁ n) =
        footprint nodes₁ n child ++ splitFootprint nodes₁ n split := by
  cases split with
  | none =>
    exact ⟨forall_mem_singleton.mpr h.loaded, by simp [splitFootprint]⟩
  | some split =>
    exact ⟨forall_mem_cons.mpr ⟨h.loaded, forall_mem_singleton.mpr (h.right split rfl)⟩,
      by simp [splitFootprint]⟩

/-- Insertion under a child is insertion into its plain tree. -/
theorem insert_rec_refines {key : Key} {value : Bytes} : ∀ {fuel : Nat}
    {nodes : List Node} {child : Child} {tree : PlainTree n} {replaced : Option Bytes}
    {plainSplit : Option (BPlusTree.Split Bytes (PlainTree n))}, n < fuel →
    Loaded file nodes n child → (footprint nodes n child).Nodup →
    BPlusTree.insertRec plainPolicy n (view file nodes n child) key.bytes value =
      some (tree, replaced, plainSplit) →
    ∃ nodes' child' split, insertRec file key value fuel nodes child =
        .ok (nodes', child', replaced, split) ∧
      Stored file nodes nodes' n (footprint nodes n child) child' split tree plainSplit := by
  induction n with
  | zero =>
    intro fuel nodes child tree replaced plainSplit hfuel hloaded hnodup hval
    obtain ⟨nodes₁, index, below, hdirty, hdirtied⟩ := make_dirty_spec hloaded hnodup
    obtain ⟨leaf, rfl⟩ := hdirtied.loaded.exists_leaf
    obtain ⟨fuel, rfl⟩ := Nat.exists_eq_add_of_lt hfuel
    rw [← hdirtied.view] at hval
    obtain ⟨nodes', split, heq, hstored⟩ := insert_leaf_refines hdirty hdirtied.position
      hdirtied.edit hval (0 + fuel)
    exact ⟨nodes', _, split, heq, hstored⟩
  | succ n ih =>
    intro fuel nodes child tree replaced plainSplit hfuel hloaded hnodup hval
    obtain ⟨nodes₁, index, below, hdirty, hdirtied⟩ := make_dirty_spec hloaded hnodup
    obtain ⟨branch, rfl⟩ := hdirtied.loaded.exists_branch
    obtain ⟨fuel, rfl⟩ := Nat.exists_eq_add_of_lt hfuel
    rw [← hdirtied.view, viewNode_branch] at hval
    obtain ⟨tree₀, node, plainSplit₀, hbelow, hnode, hsplit⟩ :=
      BPlusTree.insert_rec_branch_iff.mp hval
    obtain ⟨below, before, after, hchild, rfl, hchildren, hlen, hbelowLoaded, hbelowNodup⟩ :=
      child_of_view hdirtied.owned hbelow
    obtain ⟨nodes₂, child', split, heq, hstored⟩ := ih (show n < n + 1 + fuel by omega)
      hbelowLoaded hbelowNodup hnode
    obtain ⟨hloadedChildren, hfootprintChildren⟩ := hstored.children
    obtain ⟨hposition, hsame, hnewOwned, hedit⟩ := write_below [below] _
      hdirtied.position hdirtied.owned hchildren
      (children_afterInsert hchildren hlen child' replaced.isNone split)
      (by rw [hfootprintChildren, flatMap_singleton]; exact hstored.edit) hloadedChildren
    have hnewView := map_afterInsert_of_agree (f := bytes) hchildren hlen
      child' (fun c hc => (hsame c hc).view) replaced.isNone split
    rw [hstored.view, hstored.split] at hnewView
    obtain ⟨nodes₃, split₃, hstore, hstored₃⟩ := store_branch_refines hnewOwned
      (by rw [hnewView]; exact hsplit)
    refine ⟨nodes₃, _, split₃, ?_, hstored₃.after (hdirtied.edit.trans hedit)⟩
    rw [insertRec, hdirty, ok_bind]
    dsimp only
    rw [hdirtied.position, orFail_some, ok_bind]
    dsimp only
    rw [hchild, orFail_some, ok_bind, heq, ok_bind]
    rw [branchAt, hposition]
    rw [ok_bind, hstore]
    rfl

/-! ## Removal -/

/-- Whether a node is too small is seen in its plain tree. -/
theorem low_viewNode (h : LoadedNode file nodes n below) :
    low plainPolicy n (viewNode file nodes n below) =
      decide (below.encodedLen < pageSize / 4) := by
  cases n with
  | zero =>
    obtain ⟨leaf, rfl⟩ := h.exists_leaf
    have hlow : low plainPolicy 0 (viewNode file nodes 0 (.leaf leaf)) =
        decide (leafEncodedLen encodedKeyLen (leaf.map bytes) < pageSize / 4) := rfl
    rw [hlow, leafEncodedLen, entrySizes_map]
    rfl
  | succ n =>
    obtain ⟨branch, rfl⟩ := h.exists_branch
    have hlow : low plainPolicy (n + 1) (viewNode file nodes (n + 1)
        (.branch branch)) = decide (branchEncodedLen encodedKeyLen
          (branch.keys.map bytes) < pageSize / 4) := rfl
    rw [hlow, branchEncodedLen, separatorSizes_map]
    rfl

/-- Merging two nodes is merging their plain trees. -/
theorem merge_nodes_refines {left right : Node} (sep : Key)
    (hleft : LoadedNode file nodes n left) (hright : LoadedNode file nodes n right) :
    ∃ merged, mergeNodes left sep right = .ok merged ∧ LoadedNode file nodes n merged ∧
      viewNode file nodes n merged = merge n (viewNode file nodes n left) sep.bytes
        (viewNode file nodes n right) ∧
      footprintNode nodes n merged = footprintNode nodes n left ++ footprintNode nodes n right := by
  cases n with
  | zero =>
    obtain ⟨into, rfl⟩ := hleft.exists_leaf
    obtain ⟨other, rfl⟩ := hright.exists_leaf
    exact ⟨_, rfl, trivial, BPlusTree.Leaf.map_append bytes into other, rfl⟩
  | succ n =>
    obtain ⟨into, rfl⟩ := hleft.exists_branch
    obtain ⟨other, rfl⟩ := hright.exists_branch
    refine ⟨_, rfl, ?_, map_append bytes _ into sep other, ?_⟩
    · exact forall_mem_append.mpr ⟨hleft, hright⟩
    · exact flatMap_append

/-- The positions under a child's node are positions of the child. -/
theorem footprintNode_sublist (h : node file nodes child = .ok below) :
    (footprintNode nodes n below).Sublist (footprint nodes n child) := by
  cases child with
  | disk offset =>
    rw [footprintNode_load (load_of_node_disk h).2]
    exact nil_sublist _
  | dirty index =>
    rw [footprint_dirty (getElem?_of_node_dirty h)]
    exact sublist_cons_self _ _

/-- Merging two neighbors in the arena is merging their plain trees. -/
theorem merge_window_refines {left right : Child} {sep : Key} (hleft : Loaded file nodes n left)
    (hright : Loaded file nodes n right)
    (hnodup : (footprint nodes n left ++ footprint nodes n right).Nodup)
    (hsplit : splitFull plainPolicy n (merge n (view file nodes n left) sep.bytes
      (view file nodes n right)) = some (tree, plainSplit)) :
    ∃ nodes₁ index leftNode rightNode merged nodes' split,
      makeDirty file nodes left = .ok (nodes₁, index) ∧ nodes₁[index]? = some leftNode ∧
      node file nodes₁ right = .ok rightNode ∧ mergeNodes leftNode sep rightNode = .ok merged ∧
      storeNode nodes₁ index merged = .ok (nodes', split) ∧
      Stored file nodes nodes' n (footprint nodes n left ++ footprint nodes n right) (.dirty index)
        split tree plainSplit := by
  obtain ⟨hleftNodup, -, hapart⟩ := nodup_append.mp hnodup
  obtain ⟨nodes₁, index, leftNode, hdirty, hdirtied⟩ := make_dirty_spec hleft hleftNodup
  have hsame : Same file nodes nodes₁ n right := same_of_edit hdirtied.edit hright
    fun i hi hmem => hapart i hmem i hi rfl
  obtain ⟨rightNode, hrightNode, hrightLoaded⟩ := hsame.loaded
  obtain ⟨merged, hmerge, hmergedLoaded, hmergedView, hmergedFootprint⟩ :=
    merge_nodes_refines sep hdirtied.loaded hrightLoaded
  have hbound : ∀ i ∈ footprint nodes n left ++ footprint nodes n right, i < nodes.length :=
    forall_mem_append.mpr ⟨footprint_bound hleft, footprint_bound hright⟩
  -- copying the left node, and giving up the position of the right one
  have hedit : Edit nodes nodes₁ (footprint nodes n left ++ footprint nodes n right)
      (index :: footprintNode nodes₁ n merged) := by
    have hcontext := hdirtied.edit.context
      (show ([] ++ (footprint nodes n left ++ footprint nodes n right)).Nodup from hnodup) hbound
    rw [nil_append, nil_append, ← hsame.footprint, cons_append] at hcontext
    have hsub : (index :: footprintNode nodes₁ n merged).Sublist
        (index :: (footprintNode nodes₁ n leftNode ++ footprint nodes₁ n right)) := by
      rw [hmergedFootprint]
      exact ((footprintNode_sublist hrightNode).append_left _).cons_cons _
    rw [← hsame.footprint]
    exact hcontext.shrink (hcontext.nodup.sublist hsub) fun i hi => hsub.subset hi
  rw [← hdirtied.view, ← hsame.view, view_eq hrightNode, ← hmergedView] at hsplit
  obtain ⟨nodes', split, hstore, hstored⟩ := store_node_refines
    ⟨hdirtied.owned.lt, hmergedLoaded, hedit.nodup⟩ hsplit
  exact ⟨nodes₁, index, leftNode, rightNode, merged, nodes', split, hdirty, hdirtied.position,
    hrightNode, hmerge, hstore, hstored.after hedit⟩

/-- A branch without one of its children: the positions under that child are given up. -/
theorem stored_dropChild {dropped : Branch} (h : Owned file nodes (n + 1) index (.branch branch))
    (hdropped : branch.dropChild i = some dropped) :
    Stored file nodes (nodes.set index (.branch dropped)) (n + 1)
      (index :: footprintNode nodes (n + 1) (.branch branch)) (.dirty index) none
      (viewNode file nodes (n + 1) (.branch dropped)) none := by
  have hsub : dropped.children.Sublist branch.children := by
    unfold dropChild at hdropped
    split_ifs at hdropped
    cases hdropped
    exact eraseIdx_sublist _ _
  have hloaded : LoadedNode file nodes (n + 1) (.branch dropped) :=
    fun child hchild => h.loaded child (hsub.subset hchild)
  have hfootprint : (index :: footprintNode nodes (n + 1) (.branch dropped)).Sublist
      (index :: footprintNode nodes (n + 1) (.branch branch)) := by
    exact (hsub.flatMap _).cons_cons index
  have hstored := stored_set ⟨h.lt, hloaded, h.nodup.sublist hfootprint⟩
  exact { hstored with edit := hstored.edit.widen fun j hj => hfootprint.subset hj }

/-- Repairing a branch in the arena is repairing its plain branch. -/
theorem rebalance_refines {n index : Nat} {plain : BPlusTree.Branch Bytes (PlainTree n)}
    (hposition : nodes[index]? = some (.branch branch))
    (h : Owned file nodes (n + 1) index (.branch branch))
    (hval : BPlusTree.rebalance plainPolicy n (branch.map bytes (view file nodes n)) i =
      some plain) :
    ∃ nodes', rebalance file nodes index i = .ok nodes' ∧
      Stored file nodes nodes' (n + 1) (index :: footprintNode nodes (n + 1) (.branch branch))
        (.dirty index) none plain none := by
  unfold rebalance
  rw [branchAt, hposition]
  dsimp only
  rw [ok_bind]
  cases BPlusTree.rebalanced hval with
  | dropped hcount hdrop =>
    have hcount' : branch.counts[i]? = some 0 := hcount
    rw [BPlusTree.Branch.map_dropChild, Option.map_eq_some_iff] at hdrop
    obtain ⟨dropped, hdropped, rfl⟩ := hdrop
    rw [hcount', orFail_some, ok_bind, if_pos rfl, hdropped, orFail_some, ok_bind]
    exact ⟨_, rfl, stored_dropChild h hdropped⟩
  | kept hcount hzero hchild hkeep =>
    have hcount' : branch.counts[i]? = some _ := hcount
    obtain ⟨child, hchild', rfl⟩ := getElem?_children_map.mp hchild
    rw [hcount', orFail_some, ok_bind, if_neg hzero]
    have hstays : Edit nodes nodes (index :: footprintNode nodes (n + 1) (.branch branch))
        (footprint nodes (n + 1) (.dirty index) ++ splitFootprint nodes (n + 1) none) := by
      rw [footprint_dirty hposition, splitFootprint, append_nil]
      exact Edit.refl h.nodup h.bound
    refine ⟨nodes, ?_, hstays, ⟨_, node_dirty hposition, h.loaded⟩, view_eq (node_dirty hposition),
      by simp, rfl⟩
    by_cases hfew : branch.children.length < 2
    · rw [if_pos hfew]
      rfl
    · obtain ⟨below, hnode, hloaded⟩ := h.loaded child (mem_of_getElem? hchild')
      have hlow : BPlusTree.low plainPolicy n (view file nodes n child) = false := by
        refine hkeep.resolve_left fun hlt => hfew ?_
        simpa [BPlusTree.Branch.map] using hlt
      rw [view_eq hnode, low_viewNode hloaded, decide_eq_false_iff_not, not_lt] at hlow
      rw [if_neg hfew, hchild', orFail_some, ok_bind, hnode, ok_bind, if_pos hlow]
      rfl
  | @merged count plainChild plainLeft plainRight plainSep tree plainSplit hcount hzero hchild hmany
      hlow hleft hright hsep hsplit =>
      have hcount' : branch.counts[i]? = some count := hcount
      have hfew : ¬ branch.children.length < 2 := by
        simpa [BPlusTree.Branch.map] using hmany
      obtain ⟨child, hchild', rfl⟩ := getElem?_children_map.mp hchild
      obtain ⟨left, hleft', rfl⟩ := getElem?_children_map.mp hleft
      obtain ⟨right, hright', rfl⟩ := getElem?_children_map.mp hright
      obtain ⟨sep, hsep', rfl⟩ : ∃ sep, branch.keys[i - 1]? = some sep ∧ sep.bytes = plainSep := by
        rw [BPlusTree.Branch.map, getElem?_map, Option.map_eq_some_iff] at hsep
        exact hsep
      obtain ⟨below, hnode, hloaded⟩ := h.loaded child (mem_of_getElem? hchild')
      rw [view_eq hnode, low_viewNode hloaded, decide_eq_true_eq] at hlow
      rw [hcount', orFail_some, ok_bind, if_neg hzero, if_neg hfew, hchild', orFail_some, ok_bind,
        hnode, ok_bind, if_neg (not_le.mpr hlow)]
      obtain ⟨before, after, hsplitChildren, hlen⟩ := neighbors_split hleft' hright'
      have hpair : [left, right].flatMap (footprint nodes n) =
          footprint nodes n left ++ footprint nodes n right := by simp
      obtain ⟨-, hpairNodup, -, hpairLoaded, -⟩ := branch_window [left, right] h hsplitChildren
      rw [hpair] at hpairNodup
      obtain ⟨nodes₁, leftIndex, leftNode, rightNode, merged, nodes₂, split, hdirty, hleftNode,
        hrightNode, hmerge, hstore, hstored⟩ := merge_window_refines
          (hpairLoaded left (by simp)) (hpairLoaded right (by simp)) hpairNodup hsplit
      obtain ⟨hloadedChildren, hfootprintChildren⟩ := hstored.children
      obtain ⟨hposition₂, hsame, hnewOwned, hedit⟩ := write_below [left, right] _ hposition h
        hsplitChildren (BPlusTree.Branch.children_afterMerge hsplitChildren hlen _ split)
        (by rw [hfootprintChildren, hpair]; exact hstored.edit) hloadedChildren
      have hnewView := BPlusTree.Branch.map_afterMerge_of_agree (f := bytes) hsplitChildren hlen
        (.dirty leftIndex) split fun c hc => (hsame c hc).view
      rw [hstored.view, hstored.split] at hnewView
      have hset := (stored_set hnewOwned).after hedit
      rw [viewNode_branch, hnewView] at hset
      refine ⟨_, ?_, hset⟩
      rw [hleft', orFail_some, ok_bind, hright', orFail_some, ok_bind, hsep', orFail_some, ok_bind,
        hdirty, ok_bind]
      rw [hrightNode, ok_bind, hleftNode, orFail_some, ok_bind, hmerge, ok_bind, hstore, ok_bind]
      rw [branchAt, hposition₂]
      rfl

/-- Removal from a leaf that has been copied into the arena. -/
theorem remove_leaf_refines {key value : Bytes} {tree : PlainTree 0}
    (hdirty : makeDirty file nodes child = .ok (nodes₁, index))
    (hleaf : nodes₁[index]? = some (.leaf leaf)) (hedit : Edit nodes nodes₁ owned [index])
    (hval : removeLeaf (leaf.map bytes) key = some (tree, value)) (fuel : Nat) :
    ∃ nodes', removeRec file key (fuel + 1) nodes child = .ok (nodes', .dirty index, value) ∧
      Stored file nodes nodes' 0 owned (.dirty index) none tree none := by
  have hindex : index < nodes₁.length := (List.getElem?_eq_some_iff.mp hleaf).1
  have hkeys : BPlusTree.Leaf.keys (leaf.map bytes) = leaf.keys.map bytes := rfl
  rw [removeLeaf, hkeys] at hval
  split_ifs at hval with hfound
  obtain ⟨old, hold, heq⟩ := Option.map_eq_some_iff.mp hval
  cases heq
  have hvalue : leaf.values[position (leaf.keys.map bytes) key]? = some value := hold
  have hview : viewNode file nodes₁ 0 (.leaf (leaf.removeAt (position (leaf.keys.map bytes) key))) =
      (leaf.map bytes).removeAt (position (leaf.keys.map bytes) key) :=
    BPlusTree.Leaf.map_removeAt ..
  have hnew : Owned file nodes₁ 0 index (.leaf (leaf.removeAt
      (position (leaf.keys.map bytes) key))) := owned_leaf hindex
  refine ⟨_, ?_, (hview ▸ stored_set hnew).after hedit⟩
  rw [removeRec, hdirty, ok_bind]
  dsimp only
  rw [hleaf, orFail_some, ok_bind]
  dsimp only
  rw [leafSearch, searchKeys]
  rw [if_pos hfound]
  dsimp only
  rw [hvalue, orFail_some, ok_bind]
  rfl

/-- Removal under a child is removal from its plain tree. -/
theorem remove_rec_refines {key : Bytes} : ∀ {fuel : Nat} {nodes : List Node}
    {child : Child} {tree : PlainTree n} {value : Bytes}, n < fuel →
    Loaded file nodes n child → (footprint nodes n child).Nodup →
    BPlusTree.removeRec plainPolicy n (view file nodes n child) key = some (tree, value) →
    ∃ nodes' child', removeRec file key fuel nodes child = .ok (nodes', child', value) ∧
      Stored file nodes nodes' n (footprint nodes n child) child' none tree none := by
  induction n with
  | zero =>
    intro fuel nodes child tree value hfuel hloaded hnodup hval
    obtain ⟨nodes₁, index, below, hdirty, hdirtied⟩ := make_dirty_spec hloaded hnodup
    obtain ⟨leaf, rfl⟩ := hdirtied.loaded.exists_leaf
    obtain ⟨fuel, rfl⟩ := Nat.exists_eq_add_of_lt hfuel
    rw [← hdirtied.view] at hval
    obtain ⟨nodes', heq, hstored⟩ := remove_leaf_refines hdirty hdirtied.position
      hdirtied.edit hval (0 + fuel)
    exact ⟨nodes', _, heq, hstored⟩
  | succ n ih =>
    intro fuel nodes child tree value hfuel hloaded hnodup hval
    obtain ⟨nodes₁, index, below, hdirty, hdirtied⟩ := make_dirty_spec hloaded hnodup
    obtain ⟨branch, rfl⟩ := hdirtied.loaded.exists_branch
    obtain ⟨fuel, rfl⟩ := Nat.exists_eq_add_of_lt hfuel
    rw [← hdirtied.view, viewNode_branch] at hval
    obtain ⟨tree₀, node, hbelow, hnode, hrebalance⟩ := remove_rec_branch_iff.mp hval
    obtain ⟨below, before, after, hchild, rfl, hchildren, hlen, hbelowLoaded, hbelowNodup⟩ :=
      child_of_view hdirtied.owned hbelow
    obtain ⟨nodes₂, child', heq, hstored⟩ := ih (show n < n + 1 + fuel by omega)
      hbelowLoaded hbelowNodup hnode
    have hchildFootprint : [child'].flatMap (footprint nodes₂ n) =
        footprint nodes₂ n child' ++ splitFootprint nodes₂ n none := hstored.children.2
    obtain ⟨hposition, hsame, hnewOwned, hedit⟩ := write_below [below] [child']
      hdirtied.position hdirtied.owned hchildren
      (children_afterRemove hchildren hlen child')
      (by rw [hchildFootprint, flatMap_singleton]; exact hstored.edit) hstored.children.1
    have hnewView := map_afterRemove_of_agree (f := bytes) hchildren hlen
      child' fun c hc => (hsame c hc).view
    rw [hstored.view] at hnewView
    -- the branch with its new child is stored before it is repaired
    obtain ⟨newBranch, hnewBranch⟩ : ∃ b, branch.afterRemove (childIndex branch.keys key)
        child' = b := ⟨_, rfl⟩
    rw [hnewBranch] at hnewOwned hedit hnewView
    have hsameSet : SameNode file nodes₂ (nodes₂.set index (.branch newBranch)) (n + 1)
        (.branch newBranch) := same_set hnewOwned.loaded (nodup_cons.mp hedit.nodup).1
    have hpositionSet : (nodes₂.set index (.branch newBranch))[index]? =
        some (.branch newBranch) := getElem?_set_self hnewOwned.lt
    have hset := (stored_set hnewOwned).edit
    rw [footprint_dirty hpositionSet, splitFootprint, append_nil] at hset
    obtain ⟨nodes₃, hrebalanced, hstored₃⟩ := rebalance_refines hpositionSet
      ⟨(List.getElem?_eq_some_iff.mp hpositionSet).1, hsameSet.loaded, hset.nodup⟩
      (by rw [← viewNode_branch, hsameSet.view, viewNode_branch, hnewView]; exact hrebalance)
    refine ⟨nodes₃, _, ?_, hstored₃.after (hdirtied.edit.trans (hedit.trans hset))⟩
    rw [removeRec, hdirty, ok_bind]
    dsimp only
    rw [hdirtied.position, orFail_some, ok_bind]
    dsimp only
    rw [hchild, orFail_some, ok_bind, heq, ok_bind]
    rw [branchAt, hposition]
    rw [ok_bind, hnewBranch]
    have hrebalanced' : rebalance file (nodes₂.set index (.branch newBranch)) index
        (childIndex branch.keys key) = .ok nodes₃ := hrebalanced
    rw [hrebalanced']
    rfl

end FerricStore.Zset
