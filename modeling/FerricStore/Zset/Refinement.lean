import FerricStore.Zset.Reads

/-!
# A transaction's trees are sorted maps

`Shows` relates a root of a transaction to a whole plain tree whose nodes in the arena are each used
once. An insertion and a removal of a transaction are those of the plain tree (`insert_refines`,
`remove_refines`) and leave every node alone that the tree does not own, so a run of calls on one
tree is a run of calls on a sorted map.
-/

namespace FerricStore.Zset

open Function List BPlusTree

open Arena (Edit)

/-- A whole plain tree. -/
abbrev PlainRoot := BPlusTree.Root Bytes Bytes

/-! ## Splitting by bytes -/

/-- A cut stays between where it is and the last place for it. -/
theorem advance_bounds (half last : Nat) : ∀ (sizes : List Nat) (cut acc : Nat),
    cut ≤ advance half last cut acc sizes ∧ advance half last cut acc sizes ≤ max cut last := by
  intro sizes
  induction sizes with
  | nil => exact fun cut acc => ⟨le_rfl, le_max_left _ _⟩
  | cons size sizes ih =>
    intro cut acc
    rw [advance]
    split_ifs with hmore
    · obtain ⟨hlow, hhigh⟩ := ih (cut + 1) (acc + size)
      exact ⟨by omega, by omega⟩
    · exact ⟨le_rfl, le_max_left _ _⟩

/-- A key takes little of a page. -/
theorem encodedKeyLen_le (key : Bytes) : encodedKeyLen key ≤ 515 := by
  rw [encodedKeyLen]
  split_ifs with hlong
  · decide
  · have hinline : inlineKeyMax = 512 := rfl
    omega

/-- A branch that is too large has three separators at least. -/
theorem three_le_of_branchFull {keys : List Bytes} (h : plainPolicy.branchFull keys = true) :
    3 ≤ keys.length := by
  have hfull : pageSize < pageHeader + 16 + (separatorSizes encodedKeyLen keys).sum :=
    of_decide_eq_true h
  have hsum : (separatorSizes encodedKeyLen keys).sum ≤
      (separatorSizes encodedKeyLen keys).length • 531 := by
    refine sum_le_card_nsmul _ _ fun size hsize => ?_
    obtain ⟨key, -, rfl⟩ := mem_map.mp hsize
    have := encodedKeyLen_le key
    omega
  rw [separatorSizes, length_map, smul_eq_mul] at hsum
  have hpage : pageSize = 4096 := rfl
  have hheader : pageHeader = 16 := rfl
  rw [separatorSizes] at hfull
  omega

/-- Splitting by bytes leaves something on both sides. -/
theorem plainPolicy_sound : plainPolicy.Sound := by
  refine ⟨fun leaf _ hmany => ?_, fun keys hfull => ?_, by decide⟩
  · obtain ⟨hlow, hhigh⟩ := advance_bounds ((entrySizes encodedKeyLen leaf).sum / 2)
      ((entrySizes encodedKeyLen leaf).length - 1) ((entrySizes encodedKeyLen leaf).drop 1) 1
      ((entrySizes encodedKeyLen leaf).headD 0)
    have hlen : (entrySizes encodedKeyLen leaf).length ≤ leaf.keys.length := by
      rw [entrySizes, length_zipWith]
      exact min_le_left _ _
    show 0 < cutAt _ _ ∧ cutAt _ _ < _
    rw [cutAt]
    omega
  · obtain ⟨hlow, hhigh⟩ := advance_bounds ((separatorSizes encodedKeyLen keys).sum / 2)
      ((separatorSizes encodedKeyLen keys).length - 2)
      ((separatorSizes encodedKeyLen keys).drop 1) 1 ((separatorSizes encodedKeyLen keys).headD 0)
    have hlen : (separatorSizes encodedKeyLen keys).length = keys.length := length_map _
    have hthree := three_le_of_branchFull hfull
    show 0 < cutAt _ _ ∧ cutAt _ _ + 1 < _
    rw [cutAt]
    omega

/-! ## Roots -/

/-- A root stands for a whole plain tree, whose nodes in the arena are each used once. -/
def Shows (file : TreeFile) (nodes : List Node) (root : Child) : PlainRoot → Prop
  | none => root = .empty
  | some ⟨n, tree⟩ =>
    Loaded file nodes n root ∧ (footprint nodes n root).Nodup ∧ view file nodes n root = tree

/-- The arena positions of a whole tree. -/
def rootFootprint (nodes : List Node) (root : Child) : PlainRoot → List Nat
  | none => []
  | some ⟨n, _⟩ => footprint nodes n root

variable {file : TreeFile} {nodes : List Node} {root : Child} {n : Nat}

/-- A loaded tree is not the empty one. -/
theorem Loaded.ne_empty {child : Child} (h : Loaded file nodes n child) : child ≠ .empty := by
  rintro rfl
  obtain ⟨below, hnode, -⟩ := h
  exact (load_of_node_disk hnode).1 rfl

/-- The positions of a whole tree are different. -/
theorem rootFootprint_nodup {plain : PlainRoot} (h : Shows file nodes root plain) :
    (rootFootprint nodes root plain).Nodup := by
  rcases plain with _ | ⟨n, tree⟩
  · exact nodup_nil
  · exact h.2.1

namespace Tx

variable {tx : Tx} {tree : Tree} {plain : PlainRoot}

/-- The tree of a transaction stands for a whole plain tree. -/
def ShowsTree (tx : Tx) (tree : Tree) (plain : PlainRoot) : Prop :=
  Shows tx.file tx.nodes (tx.roots tree) plain

section

variable (h : tx.ShowsTree tree plain) (hinv : BPlusTree.RootInv plain)
include h hinv

/-- A lookup is the one in the plain tree. -/
theorem get_refines (key : Bytes) : tx.get tree key = .ok (BPlusTree.get plain key) := by
  rcases plain with _ | ⟨n, plain⟩
  · exact if_pos h
  · obtain ⟨hloaded, -, rfl⟩ := h
    have hdepth := hinv n _ rfl
    rw [get, if_neg hloaded.ne_empty,
      get_loop_refines key (depth_lt_bound hloaded hdepth) hloaded hdepth]
    rfl

/-- A rank is the one in the plain tree. -/
theorem rank_refines (key : Bytes) : tx.rank tree key = .ok (BPlusTree.rank plain key) := by
  rcases plain with _ | ⟨n, plain⟩
  · exact if_pos h
  · obtain ⟨hloaded, -, rfl⟩ := h
    have hdepth := hinv n _ rfl
    rw [rank, if_neg hloaded.ne_empty,
      rank_loop_refines key 0 (depth_lt_bound hloaded hdepth) hloaded hdepth, Nat.zero_add]
    rfl

/-- A range is the one of the plain tree. -/
theorem range_refines (start stop : Nat) :
    tx.range tree start stop = .ok (BPlusTree.range plain start stop) := by
  rw [range, BPlusTree.range]
  by_cases hlt : start < stop
  · rw [if_pos hlt]
    rcases plain with _ | ⟨n, plain⟩
    · rw [if_neg fun hne => hne.1 h]
      rfl
    · obtain ⟨hloaded, -, rfl⟩ := h
      have hdepth := hinv n _ rfl
      rw [if_pos ⟨hloaded.ne_empty, hlt⟩,
        range_rec_refines start stop (depth_lt_bound hloaded hdepth) hloaded hdepth]
      rfl
  · rw [if_neg hlt, if_neg fun hboth => hlt hboth.2]

end

/-- What a write on one tree does to a transaction. -/
structure Wrote (tx tx' : Tx) (tree : Tree) (plain plain' : PlainRoot) : Prop where
  shown : tx'.ShowsTree tree plain'
  edit : Edit tx.nodes tx'.nodes (rootFootprint tx.nodes (tx.roots tree) plain)
    (rootFootprint tx'.nodes (tx'.roots tree) plain')
  others : ∀ other, other ≠ tree → tx'.roots other = tx.roots other
  file : tx'.file = tx.file
  base : tx'.base = tx.base
  count : tx'.count = tx.count
  log : tx'.log = tx.log

end Tx

/-! ## Insertion -/

/-- The root over the two parts of a split. -/
theorem root_of_split {nodes' : List Node} {owned : List Nat} {child : Child}
    {split : Split} {tree : PlainTree n} {plainSplit : BPlusTree.Split Bytes (PlainTree n)}
    (h : Stored file nodes nodes' n owned child (some split) tree (some plainSplit)) :
    let branch : Branch := ⟨[split.sep], [child, split.right], [split.leftCount, split.rightCount]⟩
    let plainBranch : BPlusTree.Branch Bytes (PlainTree n) :=
      ⟨[plainSplit.sep], [tree, plainSplit.right], [plainSplit.leftCount, plainSplit.rightCount]⟩
    Shows file (nodes' ++ [.branch branch]) (.dirty nodes'.length) (some ⟨n + 1, plainBranch⟩) ∧
      Edit nodes (nodes' ++ [.branch branch]) owned
        (footprint (nodes' ++ [.branch branch]) (n + 1) (.dirty nodes'.length)) := by
  intro branch plainBranch
  have hsplit : split.map Key.bytes (view file nodes' n) = plainSplit := Option.some.inj h.split
  have hloaded : LoadedNode file nodes' (n + 1) (.branch branch) :=
    loadedNode_branch.mpr (forall_mem_cons.mpr
      ⟨h.loaded, forall_mem_singleton.mpr (h.right split rfl)⟩)
  have hsame : SameNode file nodes' (nodes' ++ [.branch branch]) (n + 1) (.branch branch) :=
    same_push hloaded
  have hget : (nodes' ++ [.branch branch])[nodes'.length]? = some (.branch branch) :=
    getElem?_concat_length
  have howned : footprintNode nodes' (n + 1) (.branch branch) =
      footprint nodes' n child ++ splitFootprint nodes' n (some split) := by
    show footprint nodes' n child ++ (footprint nodes' n split.right ++ []) = _
    rw [append_nil]
    rfl
  have hpush := h.edit.trans (Edit.push h.edit.nodup h.edit.bound (.branch branch))
  have hperm := perm_append_singleton nodes'.length
    (footprint nodes' n child ++ splitFootprint nodes' n (some split))
  have hfoot : footprint (nodes' ++ [.branch branch]) (n + 1) (.dirty nodes'.length) =
      nodes'.length :: (footprint nodes' n child ++ splitFootprint nodes' n (some split)) := by
    rw [footprint_dirty hget, hsame.footprint, howned]
  have hnodup := hperm.nodup_iff.mp hpush.nodup
  rw [hfoot]
  refine ⟨⟨⟨_, node_dirty hget, hsame.loaded⟩, ?_, ?_⟩, ?_⟩
  · rw [hfoot]
    exact hnodup
  · rw [view_eq (node_dirty hget), hsame.view, viewNode_branch]
    show (⟨[split.sep.bytes], [view file nodes' n child, view file nodes' n split.right],
      [split.leftCount, split.rightCount]⟩ : BPlusTree.Branch Bytes (PlainTree n)) = plainBranch
    rw [h.view]
    show _ = (⟨[plainSplit.sep], [tree, plainSplit.right],
      [plainSplit.leftCount, plainSplit.rightCount]⟩ : BPlusTree.Branch Bytes (PlainTree n))
    rw [← hsplit]
    rfl
  · exact hpush.shrink hnodup fun i hi => hperm.mem_iff.mpr hi

/-- An insertion below a root, the empty one included, stores the nodes of the plain insertion. -/
theorem insert_root_refines {plain : PlainRoot} (h : Shows file nodes root plain)
    (hinv : BPlusTree.RootInv plain) (key : Key) (value : Bytes) {top tree : PlainTree n}
    (htop : plain.getD ⟨0, (⟨[], []⟩ : BPlusTree.Leaf Bytes Bytes)⟩ = ⟨n, top⟩)
    {replaced : Option Bytes} {plainSplit : Option (BPlusTree.Split Bytes (PlainTree n))}
    (hval : BPlusTree.insertRec plainPolicy n top key.bytes value =
      some (tree, replaced, plainSplit)) :
    ∃ nodes' child split, insertRec file key value (depthBound file nodes root) nodes root =
        .ok (nodes', child, replaced, split) ∧
      Stored file nodes nodes' n (rootFootprint nodes root plain) child split tree plainSplit := by
  rcases plain with _ | ⟨m, shown⟩
  · cases htop
    obtain rfl : root = .empty := h
    have hdirty : makeDirty file nodes .empty = .ok (nodes ++ [.leaf ⟨[], []⟩], nodes.length) := rfl
    obtain ⟨nodes', split, heq, hstored⟩ := insert_leaf_refines hdirty
      getElem?_concat_length (Edit.push nodup_nil nofun _) hval 0
    exact ⟨nodes', _, split, heq, hstored⟩
  · cases htop
    obtain ⟨hloaded, hnodup, rfl⟩ := h
    exact insert_rec_refines (depth_lt_bound hloaded (hinv n _ rfl)) hloaded hnodup hval

namespace Tx

variable {tx : Tx} {tree : Tree} {plain : PlainRoot}

/-- An insertion is the one into the plain tree. -/
theorem insert_refines (h : tx.ShowsTree tree plain) (hinv : BPlusTree.RootInv plain)
    {key value : Bytes} {plain' : PlainRoot} {replaced : Option Bytes}
    (hval : BPlusTree.insert plainPolicy plain key value = some (plain', replaced)) :
    ∃ tx', tx.insert tree key value = .ok (tx', replaced) ∧ Wrote tx tx' tree plain plain' := by
  obtain ⟨⟨n, top⟩, htop⟩ : ∃ top, plain.getD ⟨0, (⟨[], []⟩ : BPlusTree.Leaf Bytes Bytes)⟩ = top :=
    ⟨_, rfl⟩
  rw [BPlusTree.insert, htop] at hval
  obtain ⟨⟨node, replaced', split⟩, hrec, hval⟩ := Option.bind_eq_some_iff.mp hval
  obtain ⟨nodes', child, split', heq, hstored⟩ :=
    insert_root_refines h hinv (.new key) value htop hrec
  rw [insert]
  rw [heq, ok_bind]
  cases split with
  | none =>
    cases hval
    obtain rfl : split' = none := Option.map_eq_none_iff.mp hstored.split
    have hedit := hstored.edit
    rw [splitFootprint, append_nil] at hedit
    refine ⟨_, rfl, ?_, ?_, fun other hother => update_of_ne hother _ _, rfl, rfl, rfl,
      rfl⟩
    · show Shows tx.file nodes' (update tx.roots tree child tree) (some ⟨n, node⟩)
      rw [update_self]
      exact ⟨hstored.loaded, hedit.nodup, hstored.view⟩
    · show Edit tx.nodes nodes' _ (footprint nodes' n (update tx.roots tree child tree))
      rw [update_self]
      exact hedit
  | some split =>
    cases hval
    obtain ⟨right, rfl, -⟩ := Option.map_eq_some_iff.mp hstored.split
    obtain ⟨hshows, hedit⟩ := root_of_split hstored
    refine ⟨_, rfl, ?_, ?_, fun other hother => update_of_ne hother _ _, rfl, rfl, rfl,
      rfl⟩
    · show Shows tx.file _ (update tx.roots tree (.dirty nodes'.length) tree) _
      rw [update_self]
      exact hshows
    · show Edit tx.nodes _ _
        (footprint _ (n + 1) (update tx.roots tree (.dirty nodes'.length) tree))
      rw [update_self]
      exact hedit

end Tx

/-! ## Removal -/

/-- A root that has lost an entry hands over as the plain tree does. -/
theorem collapse_refines : ∀ {fuel : Nat} {child : Child}, n < fuel →
    Loaded file nodes n child → (footprint nodes n child).Nodup →
    ∃ root, collapse file nodes fuel child = .ok root ∧
      Shows file nodes root (BPlusTree.collapse n (view file nodes n child)) ∧
      ∀ i ∈ rootFootprint nodes root (BPlusTree.collapse n (view file nodes n child)),
        i ∈ footprint nodes n child := by
  induction n with
  | zero =>
    intro fuel child hfuel hloaded hnodup
    have hshown := hloaded
    obtain ⟨below, hnode, hbelow⟩ := hloaded
    obtain ⟨fuel, rfl⟩ := Nat.exists_eq_add_of_lt hfuel
    obtain ⟨leaf, rfl⟩ := hbelow.exists_leaf
    have hview : view file nodes 0 child = leaf.map Key.bytes := view_eq hnode
    rw [collapse, hnode, ok_bind, BPlusTree.collapse]
    by_cases hempty : leaf.keys = []
    · have hkeys : (BPlusTree.Leaf.keys (view file nodes 0 child)).isEmpty = true := by
        rw [hview]
        show (leaf.keys.map Key.bytes).isEmpty = true
        rw [hempty]
        rfl
      rw [if_pos hkeys]
      dsimp only
      rw [if_pos hempty]
      exact ⟨.empty, rfl, rfl, nofun⟩
    · have hkeys : ¬ (BPlusTree.Leaf.keys (view file nodes 0 child)).isEmpty = true := by
        rw [hview]
        show ¬ (leaf.keys.map Key.bytes).isEmpty = true
        rw [List.isEmpty_iff, List.map_eq_nil_iff]
        exact hempty
      rw [if_neg hkeys]
      dsimp only
      rw [if_neg hempty]
      exact ⟨child, rfl, ⟨hshown, hnodup, rfl⟩, fun i hi => hi⟩
  | succ n ih =>
    intro fuel child hfuel hloaded hnodup
    have hshown := hloaded
    obtain ⟨below, hnode, hbelow⟩ := hloaded
    obtain ⟨fuel, rfl⟩ : ∃ rest, fuel = rest + 1 := ⟨fuel - 1, by omega⟩
    obtain ⟨branch, rfl⟩ := hbelow.exists_branch
    have hview : view file nodes (n + 1) child = branch.map Key.bytes (view file nodes n) :=
      view_eq hnode
    have hsublist : (footprintNode nodes (n + 1) (.branch branch)).Sublist
        (footprint nodes (n + 1) child) := footprintNode_sublist hnode
    rw [collapse, hnode, ok_bind]
    obtain ⟨keys, children, counts⟩ := branch
    match children with
    | [only] =>
      have hfoot : footprintNode nodes (n + 1)
          (.branch ⟨keys, [only], counts⟩) = footprint nodes n only := by
        exact append_nil _
      rw [hfoot] at hsublist
      obtain ⟨root, heq, hroot, hfootprint⟩ := ih (show n < fuel by omega)
        (hbelow only mem_cons_self) (hnodup.sublist hsublist)
      have hcollapse : BPlusTree.collapse (n + 1) (view file nodes (n + 1) child) =
          BPlusTree.collapse n (view file nodes n only) := by
        rw [hview]
        rfl
      rw [hcollapse]
      exact ⟨root, heq, hroot, fun i hi => hsublist.subset (hfootprint i hi)⟩
    | [] | first :: second :: rest =>
      have hcollapse : BPlusTree.collapse (n + 1) (view file nodes (n + 1) child) =
          some ⟨n + 1, view file nodes (n + 1) child⟩ := by
        rw [hview]
        rfl
      rw [hcollapse]
      exact ⟨child, rfl, ⟨hshown, hnodup, rfl⟩, fun i hi => hi⟩

namespace Tx

variable {tx : Tx} {tree : Tree} {plain : PlainRoot}

/-- A removal is the one from the plain tree. -/
theorem remove_refines (h : tx.ShowsTree tree plain) (hinv : BPlusTree.RootInv plain) {key : Bytes}
    {plain' : PlainRoot} {removed : Option Bytes}
    (hval : BPlusTree.remove plainPolicy plain key = some (plain', removed)) :
    ∃ tx', tx.remove tree key = .ok (tx', removed) ∧ Wrote tx tx' tree plain plain' := by
  rw [remove, get_refines h hinv, ok_bind]
  unfold BPlusTree.remove at hval
  cases hget : BPlusTree.get plain key with
  | none =>
    rw [hget] at hval
    cases hval
    refine ⟨tx, rfl, h, Edit.refl (rootFootprint_nodup h) ?_, fun _ _ => rfl, rfl, rfl, rfl, rfl⟩
    rcases plain with _ | ⟨n, tree⟩
    · exact nofun
    · exact footprint_bound h.1
  | some value =>
    rw [hget] at hval
    rcases plain with _ | ⟨n, top⟩
    · cases hval
    · obtain ⟨⟨node, value'⟩, hrec, heq⟩ := Option.map_eq_some_iff.mp hval
      cases heq
      obtain ⟨hloaded, hnodup, rfl⟩ := h
      have hdepth := depth_lt_bound hloaded (hinv n _ rfl)
      obtain ⟨nodes', child, hremove, hstored⟩ := remove_rec_refines hdepth hloaded hnodup hrec
      have hedit := hstored.edit
      rw [splitFootprint, append_nil] at hedit
      obtain ⟨root, hcollapse, hroot, hsub⟩ := collapse_refines hdepth hstored.loaded hedit.nodup
      rw [hstored.view] at hroot hsub
      dsimp only
      rw [hremove, ok_bind]
      rw [hcollapse, ok_bind]
      refine ⟨_, rfl, ?_, ?_, fun other hother => update_of_ne hother _ _, rfl, rfl, rfl,
        rfl⟩
      · show Shows tx.file nodes' (update tx.roots tree root tree) _
        rw [update_self]
        exact hroot
      · show Edit tx.nodes nodes' _ (rootFootprint nodes' (update tx.roots tree root tree) _)
        rw [update_self]
        exact hedit.shrink (rootFootprint_nodup hroot) hsub

end Tx

/-! ## Runs -/

/-- A call on one tree. -/
inductive Call where
  | insert (key value : Bytes)
  | remove (key : Bytes)
  deriving DecidableEq, Repr

/-- What a call answers and leaves of a sorted map. -/
def Call.apply (map : SortedMap Bytes Bytes) : Call → SortedMap Bytes Bytes × Option Bytes
  | .insert key value => (map.put key value, map.get key)
  | .remove key => (map.erase key, map.get key)

/-- A leaf that holds nothing but the entry that a call inserts into an empty map fits a page. -/
def Call.Fits (map : SortedMap Bytes Bytes) : Call → Prop
  | .insert key value =>
    map.entries = [] → leafEncodedLen encodedKeyLen ⟨[key], [value]⟩ ≤ pageSize
  | .remove _ => True

/-- Calls on a sorted map, one after the other. -/
def Call.applyAll (map : SortedMap Bytes Bytes) :
    List Call → SortedMap Bytes Bytes × List (Option Bytes)
  | [] => (map, [])
  | call :: calls =>
    let (map, answer) := call.apply map
    let (map, answers) := applyAll map calls
    (map, answer :: answers)

/-- Every call of a run fits the map it comes to. -/
def Call.FitAll (map : SortedMap Bytes Bytes) : List Call → Prop
  | [] => True
  | call :: calls => call.Fits map ∧ FitAll (call.apply map).1 calls

namespace Tx

/-- A call on a tree of a transaction. -/
def call (tx : Tx) (tree : Tree) : Call → Result (Tx × Option Bytes)
  | .insert key value => tx.insert tree key value
  | .remove key => tx.remove tree key

/-- Calls on a tree of a transaction, one after the other. -/
def callAll (tx : Tx) (tree : Tree) : List Call → Result (Tx × List (Option Bytes))
  | [] => .ok (tx, [])
  | call :: calls => do
    let (tx, answer) ← tx.call tree call
    let (tx, answers) ← tx.callAll tree calls
    return (tx, answer :: answers)

/-- The tree of a transaction satisfies the structural invariant and holds the entries of a map. -/
def HoldsMap (tx : Tx) (tree : Tree) (map : SortedMap Bytes Bytes) : Prop :=
  ∃ plain, tx.ShowsTree tree plain ∧ BPlusTree.RootInv plain ∧
    BPlusTree.contents plain = map.entries

variable {tx : Tx} {tree : Tree} {map : SortedMap Bytes Bytes}

theorem holdsMap_empty (h : tx.roots tree = .empty) : tx.HoldsMap tree .empty :=
  ⟨none, h, nofun, rfl⟩

/-- What reads answer of a tree that holds a map. -/
theorem HoldsMap.reads (h : tx.HoldsMap tree map) : (∀ key, tx.get tree key = .ok (map.get key)) ∧
      (∀ key, tx.rank tree key = .ok (map.rank key)) ∧
      ∀ start stop, tx.range tree start stop = .ok (map.range start stop) := by
  obtain ⟨plain, hshows, hinv, hcontents⟩ := h
  refine ⟨fun key => ?_, fun key => ?_, fun start stop => ?_⟩
  · rw [get_refines hshows hinv, get_spec hinv, hcontents]
    rfl
  · rw [rank_refines hshows hinv, rank_spec hinv, hcontents]
    rfl
  · rw [range_refines hshows hinv, range_spec hinv, hcontents]
    rfl

/-- One call on a tree that holds a map is the call on the map. -/
theorem call_simulates (h : tx.HoldsMap tree map) {call : Call} (hfits : call.Fits map) :
    ∃ tx', tx.call tree call = .ok (tx', (call.apply map).2) ∧
      tx'.HoldsMap tree (call.apply map).1 := by
  obtain ⟨plain, hshows, hinv, hcontents⟩ := h
  cases call with
  | insert key value =>
    have hroom : BPlusTree.contents plain ≠ [] ∨
        plainPolicy.leafFull (BPlusTree.Leaf.ofEntries [(key, value)]) = false := by
      by_cases hempty : map.entries = []
      · exact .inr (decide_eq_false (not_lt.mpr (hfits hempty)))
      · exact .inl (hcontents ▸ hempty)
    obtain ⟨plain', hval, hinv', hcontents'⟩ :=
      BPlusTree.insert_spec plainPolicy_sound hinv key value hroom
    obtain ⟨tx', heq, hwrote⟩ := insert_refines hshows hinv hval
    rw [hcontents] at heq hcontents'
    exact ⟨tx', heq, plain', hwrote.shown, hinv', hcontents'⟩
  | remove key =>
    obtain ⟨plain', hval, hinv', hcontents'⟩ := BPlusTree.remove_spec plainPolicy_sound hinv key
    obtain ⟨tx', heq, hwrote⟩ := remove_refines hshows hinv hval
    rw [hcontents] at heq hcontents'
    exact ⟨tx', heq, plain', hwrote.shown, hinv', hcontents'⟩

/-- Calls on a tree that holds a map are the calls on the map. -/
theorem callAll_simulates (calls : List Call) : ∀ {tx : Tx} {map : SortedMap Bytes Bytes},
    tx.HoldsMap tree map → Call.FitAll map calls →
    ∃ tx', tx.callAll tree calls = .ok (tx', (Call.applyAll map calls).2) ∧
      tx'.HoldsMap tree (Call.applyAll map calls).1 := by
  induction calls with
  | nil => exact fun h _ => ⟨_, rfl, h⟩
  | cons call calls ih =>
    intro tx map h hfits
    obtain ⟨tx', hcall, h'⟩ := call_simulates h hfits.1
    obtain ⟨tx'', hcalls, h''⟩ := ih h' hfits.2
    refine ⟨tx'', ?_, h''⟩
    rw [callAll, hcall, ok_bind]
    dsimp only
    rw [hcalls, ok_bind]
    rfl

/-- Any run of insertions and removals on one tree keeps its structure, answers what a sorted map
answers, and leaves a tree whose reads are those of the map. -/
theorem tree_refines_map (tx : Tx) (tree : Tree) (map : SortedMap Bytes Bytes) (calls : List Call)
    (hstart : tx.HoldsMap tree map) (hfits : Call.FitAll map calls) :
    ∃ tx', tx.callAll tree calls = .ok (tx', (Call.applyAll map calls).2) ∧
      tx'.HoldsMap tree (Call.applyAll map calls).1 ∧
      (∀ key, tx'.get tree key = .ok ((Call.applyAll map calls).1.get key)) ∧
      (∀ key, tx'.rank tree key = .ok ((Call.applyAll map calls).1.rank key)) ∧
      ∀ start stop,
        tx'.range tree start stop = .ok ((Call.applyAll map calls).1.range start stop) := by
  obtain ⟨tx', heq, hend⟩ := callAll_simulates calls hstart hfits
  exact ⟨tx', heq, hend, hend.reads⟩

/-- A transaction on a file without frames. -/
def fresh : Tx := .begin ⟨[]⟩ (.empty ⟨0, 0, 0⟩)

/-- Two insertions, a replacement and a removal. -/
theorem tree_refines_map_fresh : ∃ tx',
    fresh.callAll .member [.insert [2] [7], .insert [1] [8], .insert [2] [9], .remove [1]] =
        .ok (tx', [none, none, some [7], some [8]]) ∧
      tx'.rank .member [5] = .ok 1 := by
  have hfits : Call.FitAll .empty
      [.insert [2] [7], .insert [1] [8], .insert [2] [9], .remove [1]] :=
    ⟨fun _ => by decide, nofun, nofun, trivial, trivial⟩
  obtain ⟨tx', heq, -, -, hrank, -⟩ :=
    tree_refines_map fresh .member .empty _ (holdsMap_empty rfl) hfits
  exact ⟨tx', heq, hrank [5]⟩

/-- An entry of more than a page cannot be the first of a tree: its leaf is split, and nothing is
left for the right part. -/
theorem first_entry_too_large :
    (fresh.callAll .member [.insert [1] (replicate 4096 0)]).map Prod.snd = .error .panicked ∧
      (Call.applyAll .empty [.insert [1] (replicate 4096 0)]).2 = [none] := by
  decide +kernel

end Tx

end FerricStore.Zset
