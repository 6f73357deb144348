import FerricStore.Zset.Arena

/-!
# Reads of a transaction

A lookup, a rank and a range of a transaction answer what the same reads of the plain tree answer.
Each read goes down one level at a time: a node in the arena and a page read in place take the same
step (`get_leaf_step`, `get_branch_step` and so on), so a read is an induction on the depth. The
count of the root bounds that depth (`depth_lt_bound`).
-/

namespace FerricStore.Zset

open List BPlusTree

variable {file : TreeFile} {nodes : List Node} {leaf : Leaf}

/-- A page that holds a node, read in place. -/
theorem view_page {offset : Nat} {below : Node} {shows : PageView → Prop}
    (h : node file nodes (.disk offset) = .ok below)
    (hshows : ∀ {page}, decodeNode page file.readOverflow = .ok below →
      ∃ view, PageView.read page = .ok view ∧ shows view) :
    ∃ view, viewPage file offset = .ok view ∧ shows view := by
  obtain ⟨hzero, hload⟩ := load_of_node_disk h
  rw [load, bind_eq_ok_iff] at hload
  obtain ⟨page, hpage, hdecode⟩ := hload
  obtain ⟨view, hread, hview⟩ := hshows hdecode
  refine ⟨view, ?_, hview⟩
  rw [viewPage, if_neg hzero, hpage, ok_bind, hread]

variable {branch : Branch}

/-- A key that a search finds is where the search says. -/
theorem searchKeys_cases (keys : List Bytes) (key : Bytes) :
    (searchKeys keys key = .found (position keys key) ∧ keys[position keys key]? = some key) ∨
      (searchKeys keys key = .absent (position keys key) ∧
        keys[position keys key]? ≠ some key) := by
  by_cases hfound : keys[position keys key]? = some key
  · exact .inl ⟨if_pos hfound, hfound⟩
  · exact .inr ⟨if_neg hfound, hfound⟩

/-- The position that a search gives. -/
theorem searchKeys_position (keys : List Bytes) (key : Bytes) :
    (searchKeys keys key).position = position keys key := by
  rcases searchKeys_cases keys key with ⟨heq, -⟩ | ⟨heq, -⟩
  · rw [heq, Search.position]
  · rw [heq, Search.position]

/-- A leaf over plain keys that is in order. -/
structure OrderedLeaf (leaf : Leaf) : Prop where
  values : leaf.values.length = leaf.keys.length
  sorted : (leaf.keys.map Key.bytes).Pairwise (· < ·)

variable {lo : WithBot Bytes} {hi : WithTop Bytes}

/-- A leaf of a tree is in order. -/
theorem orderedLeaf_of_inv
    (h : BPlusTree.Inv 0 lo hi (viewNode file nodes 0 (.leaf leaf))) : OrderedLeaf leaf := by
  refine ⟨?_, h.2.2.1⟩
  have hlen : (leaf.keys.map Key.bytes).length = leaf.values.length := h.1
  rw [length_map] at hlen
  exact hlen.symm

/-- A branch over plain keys that is in order, over loaded children that are. -/
structure OrderedBranch (file : TreeFile) (nodes : List Node) (n : Nat) (branch : Branch) :
    Prop where
  children : branch.children.length = branch.keys.length + 1
  counts : branch.counts.length = branch.keys.length + 1
  sorted : (branch.keys.map Key.bytes).Pairwise (· < ·)
  below : ∀ child ∈ branch.children, Loaded file nodes n child ∧
    ∃ lo hi, BPlusTree.Inv n lo hi (view file nodes n child)

variable {n : Nat}

/-- A branch of a tree is in order. -/
theorem orderedBranch_of_inv (hloaded : LoadedNode file nodes (n + 1) (.branch branch))
    (h : BPlusTree.Inv (n + 1) lo hi (viewNode file nodes (n + 1) (.branch branch))) :
    OrderedBranch file nodes n branch := by
  obtain ⟨hchain, hcounts, -⟩ := h
  have hlen : (branch.children.map (view file nodes n)).length =
      (branch.keys.map Key.bytes).length + 1 := hchain.length_eq
  have hcountsLen : branch.counts.length = branch.children.length := by
    rw [show branch.counts = (branch.children.map (view file nodes n)).map (size n) from
      hcounts, length_map, length_map]
  rw [length_map, length_map] at hlen
  refine ⟨hlen, hcountsLen.trans hlen, ?_, fun child hchild => ⟨hloaded child hchild, ?_⟩⟩
  · exact (hchain.keys_sorted (BPlusTree.Inv.confined Bytes Bytes n).1).1
  · exact hchain.forall_mem _ (mem_map_of_mem hchild)

/-- A key is routed to a child. -/
theorem OrderedBranch.routed (h : OrderedBranch file nodes n branch)
    (key : Bytes) : ∃ below, branch.children[childIndex branch.keys key]? = some below ∧
      below ∈ branch.children := by
  have hlt : childIndex branch.keys key < branch.children.length := by
    rw [h.children, childIndex, BPlusTree.childIndex, Nat.lt_succ_iff,
      ← length_map (f := Key.bytes)]
    exact (List.takeWhile_prefix _).length_le
  exact ⟨_, getElem?_eq_getElem hlt, getElem_mem hlt⟩

variable {child : Child} {fuel : Nat}

/-- Induction over a loaded child, as every read goes down: a leaf, or a branch over children. -/
theorem loaded_induction {P : Nat → Nat → Child → Prop}
    (hleaf : ∀ fuel child leaf, node file nodes child = .ok (.leaf leaf) → OrderedLeaf leaf →
      P 0 (fuel + 1) child)
    (hbranch : ∀ n fuel child branch, node file nodes child = .ok (.branch branch) →
      OrderedBranch file nodes n branch → (∀ below ∈ branch.children, P n fuel below) →
      P (n + 1) (fuel + 1) child) (hfuel : n < fuel)
    (hloaded : Loaded file nodes n child) (hinv : BPlusTree.Inv n lo hi (view file nodes n child)) :
    P n fuel child := by
  induction n generalizing fuel child lo hi with
  | zero =>
    obtain ⟨below, hnode, hbelow⟩ := hloaded
    obtain ⟨fuel, rfl⟩ := Nat.exists_eq_add_of_lt hfuel
    rw [view_eq hnode] at hinv
    obtain ⟨leaf, rfl⟩ := hbelow.exists_leaf
    exact hleaf _ child leaf hnode (orderedLeaf_of_inv hinv)
  | succ n ih =>
    obtain ⟨below, hnode, hbelow⟩ := hloaded
    obtain ⟨fuel, rfl⟩ : ∃ rest, fuel = rest + 1 := ⟨fuel - 1, by omega⟩
    rw [view_eq hnode] at hinv
    obtain ⟨branch, rfl⟩ := hbelow.exists_branch
    have hordered := orderedBranch_of_inv hbelow hinv
    refine hbranch n fuel child branch hnode hordered fun next hmem => ?_
    obtain ⟨hnext, _, _, hnextInv⟩ := hordered.below next hmem
    exact ih (by omega) hnext hnextInv

/-! ## Lookups -/

/-- A lookup in a leaf. -/
theorem get_leaf_step (hnode : node file nodes child = .ok (.leaf leaf))
    (hordered : OrderedLeaf leaf) (key : Bytes) (fuel : Nat) :
    getLoop file nodes key (fuel + 1) child = .ok (getLeaf (leaf.map Key.bytes) key) := by
  rcases searchKeys_cases (leaf.keys.map Key.bytes) key with ⟨hsearch, hkey⟩ | ⟨hsearch, hkey⟩
  · have hget : getLeaf (leaf.map Key.bytes) key =
        leaf.values[position (leaf.keys.map Key.bytes) key]? := if_pos hkey
    rw [getElem?_map, Option.map_eq_some_iff] at hkey
    obtain ⟨stored, hstored, -⟩ := hkey
    have hlt := (List.getElem?_eq_some_iff.mp hstored).1
    have hvalue := getElem?_eq_getElem (hlt.trans_eq hordered.values.symm)
    rw [hget, hvalue]
    cases child with
    | dirty index =>
      rw [getLoop, getElem?_of_node_dirty hnode, orFail_some, ok_bind]
      dsimp only
      rw [leafSearch, hsearch]
      dsimp only
      rw [hvalue]
      rfl
    | disk offset =>
      obtain ⟨view, hread, hview⟩ := view_page hnode page_view_leaf
      rw [getLoop, hread, ok_bind, if_pos hview.isLeaf, search_eq hview.stands hordered.sorted,
        ok_bind, hsearch]
      dsimp only
      rw [(hview.entry _ _ _ hstored hvalue).2]
      rfl
  · have hget : getLeaf (leaf.map Key.bytes) key = none := if_neg hkey
    rw [hget]
    cases child with
    | dirty index =>
      rw [getLoop, getElem?_of_node_dirty hnode, orFail_some, ok_bind]
      dsimp only
      rw [leafSearch, hsearch]
      rfl
    | disk offset =>
      obtain ⟨view, hread, hview⟩ := view_page hnode page_view_leaf
      rw [getLoop, hread, ok_bind, if_pos hview.isLeaf, search_eq hview.stands hordered.sorted,
        ok_bind, hsearch]
      rfl

/-- A lookup in a branch goes on in the child that the key is routed to. -/
theorem get_branch_step {child below : Child} (hnode : node file nodes child = .ok (.branch branch))
    (hordered : OrderedBranch file nodes n branch) {key : Bytes}
    (hbelow : branch.children[childIndex branch.keys key]? = some below) (fuel : Nat) :
    getLoop file nodes key (fuel + 1) child = getLoop file nodes key fuel below := by
  cases child with
  | dirty index =>
    rw [getLoop, getElem?_of_node_dirty hnode, orFail_some, ok_bind]
    dsimp only
    rw [hbelow, orFail_some, ok_bind]
  | disk offset =>
    obtain ⟨view, hread, hview⟩ := view_page hnode page_view_branch
    obtain ⟨offset', count, hdisk, -, hchild⟩ :=
      hview.child _ (List.getElem?_eq_some_iff.mp hbelow).1
    obtain rfl : below = .disk offset' := Option.some.inj (hbelow.symm.trans hdisk)
    have hindex : view.childIndex key file.readOverflow = .ok (childIndex branch.keys key) :=
      child_index_eq hview.stands hordered.sorted key
    rw [getLoop, hread, ok_bind, hview.isBranch, if_neg Bool.false_ne_true, hindex, ok_bind, hchild,
      ok_bind]

/-- A lookup under a child is the lookup in its plain tree. -/
theorem get_loop_refines (key : Bytes) (hfuel : n < fuel)
    (hloaded : Loaded file nodes n child) (hinv : BPlusTree.Inv n lo hi (view file nodes n child)) :
    getLoop file nodes key fuel child = .ok (getRec n (view file nodes n child) key) := by
  refine loaded_induction (P := fun n fuel child => getLoop file nodes key fuel child =
    .ok (getRec n (view file nodes n child) key)) ?_ ?_ hfuel hloaded hinv
  · intro fuel child leaf hnode hordered
    rw [view_eq hnode]
    exact get_leaf_step hnode hordered key _
  · intro n fuel child branch hnode hordered ih
    obtain ⟨next, hnext, hmem⟩ := hordered.routed key
    rw [view_eq hnode, get_branch_step hnode hordered hnext, ih next hmem]
    show _ = Except.ok (((branch.children.map (view file nodes n))[
      childIndex branch.keys key]?).bind _)
    rw [getElem?_map, hnext]
    rfl

/-! ## Ranks -/

/-- A rank in a leaf. -/
theorem rank_leaf_step
    (hnode : node file nodes child = .ok (.leaf leaf)) (hordered : OrderedLeaf leaf) (key : Bytes)
    (fuel below : Nat) :
    rankLoop file nodes key (fuel + 1) child below =
      .ok (below + position (leaf.keys.map Key.bytes) key) := by
  rw [← searchKeys_position]
  cases child with
  | dirty index =>
    rw [rankLoop, getElem?_of_node_dirty hnode, orFail_some, ok_bind]
    rfl
  | disk offset =>
    obtain ⟨view, hread, hview⟩ := view_page hnode page_view_leaf
    rw [rankLoop, hread, ok_bind, if_pos hview.isLeaf, search_eq hview.stands hordered.sorted,
      ok_bind]
    rfl

/-- The counts of the first children of a branch, read in place. -/
theorem ViewsBranch.counts_take {readOverflow : ReadOverflow} {view : PageView}
    (h : ViewsBranch readOverflow view branch) {i : Nat} (hi : i < branch.children.length) :
    ((range i).mapM fun j => (view.child j).map Prod.snd) =
      (.ok (branch.counts.take i) : Result (List Nat)) := by
  have hlen : branch.counts.length = branch.children.length := h.counts.trans h.keys.symm
  refine mapM_of_forall₂ (forall₂_iff_get.mpr ⟨by simp; omega, fun j hj hj' => ?_⟩)
  rw [length_range] at hj
  obtain ⟨offset, count, -, hcount, hchild⟩ := h.child j (hj.trans hi)
  obtain ⟨hin, hget⟩ := List.getElem?_eq_some_iff.mp hcount
  simp only [get_eq_getElem, getElem_range, getElem_take]
  rw [hchild, hget]
  rfl

/-- A rank in a branch goes on in the child that the key is routed to, on top of the keys of the
children before it. -/
theorem rank_branch_step {child next : Child} (hnode : node file nodes child = .ok (.branch branch))
    (hordered : OrderedBranch file nodes n branch) {key : Bytes}
    (hnext : branch.children[childIndex branch.keys key]? = some next) (fuel below : Nat) :
    rankLoop file nodes key (fuel + 1) child below = rankLoop file nodes key fuel next
        (below + (branch.counts.take (childIndex branch.keys key)).sum) := by
  cases child with
  | dirty index =>
    rw [rankLoop, getElem?_of_node_dirty hnode, orFail_some, ok_bind]
    dsimp only
    rw [hnext, orFail_some, ok_bind]
  | disk offset =>
    obtain ⟨view, hread, hview⟩ := view_page hnode page_view_branch
    have hlt := (List.getElem?_eq_some_iff.mp hnext).1
    obtain ⟨offset', count, hdisk, -, hchild⟩ := hview.child _ hlt
    obtain rfl : next = .disk offset' := Option.some.inj (hnext.symm.trans hdisk)
    have hindex : view.childIndex key file.readOverflow = .ok (childIndex branch.keys key) :=
      child_index_eq hview.stands hordered.sorted key
    rw [rankLoop, hread, ok_bind, hview.isBranch, if_neg Bool.false_ne_true, hindex, ok_bind,
      hview.counts_take hlt, ok_bind, hchild, ok_bind]

/-- A rank under a child is the rank in its plain tree. -/
theorem rank_loop_refines (key : Bytes) (below : Nat)
    (hfuel : n < fuel) (hloaded : Loaded file nodes n child)
    (hinv : BPlusTree.Inv n lo hi (view file nodes n child)) :
    rankLoop file nodes key fuel child below =
      .ok (below + rankRec n (view file nodes n child) key) := by
  refine loaded_induction (P := fun n fuel child => ∀ below, rankLoop file nodes key fuel child
    below = .ok (below + rankRec n (view file nodes n child) key)) ?_ ?_ hfuel hloaded
    hinv below
  · intro fuel child leaf hnode hordered below
    rw [view_eq hnode]
    exact rank_leaf_step hnode hordered key _ below
  · intro n fuel child branch hnode hordered ih below
    obtain ⟨next, hnext, hmem⟩ := hordered.routed key
    rw [view_eq hnode, rank_branch_step hnode hordered hnext, ih next hmem, Nat.add_assoc]
    show _ = Except.ok (below + (_ + ((branch.children.map (view file nodes n))[
      childIndex branch.keys key]?).elim 0 _))
    rw [getElem?_map, hnext]
    rfl

/-! ## Ranges -/

/-- Reading the positions of a list one by one gives the part of it between two positions. -/
theorem mapM_range {α : Type} {read : Nat → Result α} {items : List α}
    (h : ∀ i, (hi : i < items.length) → read i = .ok items[i]) (start stop : Nat) :
    ((range (min stop items.length)).drop start).mapM read =
      .ok ((items.take stop).drop start) := by
  have hall : List.Forall₂ (fun i item => read i = .ok item) (range items.length) items :=
    forall₂_iff_get.mpr ⟨length_range, fun i hi hi' => by
      simp only [get_eq_getElem, getElem_range]
      exact h i hi'⟩
  have hrange : range (min stop items.length) = (range items.length).take stop :=
    take_range.symm
  rw [hrange]
  exact mapM_of_forall₂ (forall₂_drop _ (forall₂_take _ hall))

/-- The entries of a leaf at a range of positions. -/
theorem range_leaf_step
    (hnode : node file nodes child = .ok (.leaf leaf)) (hordered : OrderedLeaf leaf)
    (fuel start stop : Nat) :
    rangeRec file nodes (fuel + 1) child start stop =
      .ok ((((leaf.keys.map Key.bytes).zip leaf.values).take stop).drop start) := by
  have hvalues := hordered.values
  have hlen : ((leaf.keys.map Key.bytes).zip leaf.values).length = leaf.keys.length := by
    rw [length_zip, length_map, hvalues, Nat.min_self]
  cases child with
  | dirty index =>
    rw [rangeRec, getElem?_of_node_dirty hnode, orFail_some, ok_bind]
    dsimp only
    rw [← hlen]
    refine mapM_range (fun i hi => ?_) start stop
    rw [hlen] at hi
    rw [getElem?_eq_getElem hi, orFail_some, ok_bind,
      getElem?_eq_getElem (hi.trans_eq hvalues.symm), orFail_some, ok_bind, getElem_zip,
      getElem_map]
    rfl
  | disk offset =>
    obtain ⟨view, hread, hview⟩ := view_page hnode page_view_leaf
    rw [rangeRec, hread, ok_bind, if_pos hview.isLeaf, hview.len, ← hlen]
    refine mapM_range (fun i hi => ?_) start stop
    rw [hlen] at hi
    obtain ⟨hkey, hvalue⟩ := hview.entry i _ _ (getElem?_eq_getElem hi)
      (getElem?_eq_getElem (hi.trans_eq hvalues.symm))
    rw [hkey, ok_bind, hvalue, ok_bind, getElem_zip, getElem_map]
    rfl

variable {plain : Child → Nat → Nat → List (Bytes × Bytes)}

/-- A walk over the positions of children is a walk over the children. -/
theorem range_walk_eq {child : Nat → Result (Child × Nat)}
    {read : Child → Nat → Nat → Result (List (Bytes × Bytes))}
    (start stop : Nat) {positions : List Nat}
    {children : List (Child × Nat)}
    (hchild : List.Forall₂ (fun i below => child i = .ok below) positions children)
    (hread : ∀ below ∈ children, ∀ s e, read below.1 s e = .ok (plain below.1 s e)) (offset : Nat) :
    rangeWalk child read start stop offset positions =
      .ok (rangeChildren plain start stop offset children) := by
  induction hchild generalizing offset with
  | nil => rfl
  | @cons i below positions children hfirst _ ih =>
    obtain ⟨next, count⟩ := below
    rw [rangeWalk, rangeChildren]
    by_cases hstop : stop ≤ offset
    · rw [if_pos hstop, if_pos hstop]
    · rw [if_neg hstop, if_neg hstop, hfirst, ok_bind]
      dsimp only
      have hrest := ih (forall_mem_cons.mp hread).2 (offset + count)
      by_cases hstart : start < offset + count
      · rw [if_pos hstart, if_pos hstart, hread (next, count) mem_cons_self, ok_bind, hrest,
          ok_bind]
        rfl
      · rw [if_neg hstart, if_neg hstart, ok_bind, hrest, ok_bind]
        rfl

/-- The positions of the children of a branch, and what stands there. -/
theorem forall₂_children {child : Nat → Result (Child × Nat)}
    (hlen : branch.counts.length = branch.children.length)
    (h : ∀ i below count, branch.children[i]? = some below → branch.counts[i]? = some count →
      child i = .ok (below, count)) :
    List.Forall₂ (fun i below => child i = .ok below) (range branch.counts.length)
      (branch.children.zip branch.counts) := by
  refine forall₂_iff_get.mpr ⟨by simp [hlen], fun i hi hi' => ?_⟩
  rw [length_range] at hi
  simp only [get_eq_getElem, getElem_range, getElem_zip]
  exact h i _ _ (getElem?_eq_getElem (hi.trans_eq hlen)) (getElem?_eq_getElem hi)

/-- A range in a branch is a walk over its children. -/
theorem range_branch_step (hnode : node file nodes child = .ok (.branch branch))
    (hordered : OrderedBranch file nodes n branch)
    (hread : ∀ below ∈ branch.children, ∀ s e,
      rangeRec file nodes fuel below s e = .ok (plain below s e)) (start stop : Nat) :
    rangeRec file nodes (fuel + 1) child start stop =
      .ok (rangeChildren plain start stop 0 (branch.children.zip branch.counts)) := by
  have hlen : branch.counts.length = branch.children.length :=
    hordered.counts.trans hordered.children.symm
  have hread' : ∀ below ∈ branch.children.zip branch.counts, ∀ s e,
      rangeRec file nodes fuel below.1 s e = .ok (plain below.1 s e) :=
    fun below hbelow => hread below.1 (of_mem_zip hbelow).1
  cases child with
  | dirty index =>
    rw [rangeRec, getElem?_of_node_dirty hnode, orFail_some, ok_bind]
    refine range_walk_eq start stop (forall₂_children hlen fun i below count hbelow hcount => ?_)
      hread' 0
    rw [hbelow, orFail_some, ok_bind, hcount, orFail_some, ok_bind]
    rfl
  | disk offset =>
    obtain ⟨view, hview, hbranch⟩ := view_page hnode page_view_branch
    rw [rangeRec, hview, ok_bind, hbranch.isBranch, if_neg Bool.false_ne_true, hbranch.children,
      ← hlen]
    refine range_walk_eq start stop (forall₂_children hlen fun i below count hbelow hcount => ?_)
      hread' 0
    obtain ⟨offset', count', hdisk, hcount', hchild⟩ :=
      hbranch.child i (List.getElem?_eq_some_iff.mp hbelow).1
    obtain rfl : below = .disk offset' := Option.some.inj (hbelow.symm.trans hdisk)
    obtain rfl : count = count' := Option.some.inj (hcount.symm.trans hcount')
    rw [hchild]
    rfl

/-- A range under a child is the range of its plain tree. -/
theorem range_rec_refines (start stop : Nat) (hfuel : n < fuel)
    (hloaded : Loaded file nodes n child) (hinv : BPlusTree.Inv n lo hi (view file nodes n child)) :
    rangeRec file nodes fuel child start stop =
      .ok (BPlusTree.rangeRec n (view file nodes n child) start stop) := by
  refine loaded_induction (P := fun n fuel child => ∀ start stop, rangeRec file nodes fuel child
    start stop = .ok (BPlusTree.rangeRec n (view file nodes n child) start stop)) ?_ ?_ hfuel
    hloaded hinv start stop
  · intro fuel child leaf hnode hordered start stop
    rw [view_eq hnode]
    exact range_leaf_step hnode hordered _ start stop
  · intro n fuel child branch hnode hordered ih start stop
    rw [view_eq hnode, range_branch_step hnode hordered ih]
    show _ = Except.ok (rangeChildren _ start stop 0
      ((branch.children.map (view file nodes n)).zip branch.counts))
    rw [range_children_map]

/-! ## The depth of a tree -/

/-- The count of a node is the number of keys of its tree. -/
theorem count_eq_size {below : Node} (hloaded : LoadedNode file nodes n below)
    (hinv : BPlusTree.Inv n lo hi (viewNode file nodes n below)) :
    below.count = size n (viewNode file nodes n below) := by
  cases n with
  | zero =>
    obtain ⟨leaf, rfl⟩ := hloaded.exists_leaf
    have hordered := orderedLeaf_of_inv hinv
    show leaf.keys.length = ((leaf.keys.map Key.bytes).zip leaf.values).length
    rw [length_zip, length_map, hordered.values, Nat.min_self]
  | succ n =>
    obtain ⟨branch, rfl⟩ := hloaded.exists_branch
    obtain ⟨-, hcounts, -⟩ := hinv
    show branch.counts.sum = ((branch.children.map (view file nodes n)).flatMap (toList n)).length
    rw [← sum_sizes]
    exact congrArg sum hcounts

/-- The count of a root bounds the depth of its tree. -/
theorem depth_lt_bound
    (hloaded : Loaded file nodes n child) (hinv : BPlusTree.Inv n lo hi (view file nodes n child)) :
    n < depthBound file nodes child := by
  obtain ⟨below, hnode, hbelow⟩ := hloaded
  rw [view_eq hnode] at hinv
  have hsize := hinv.depth_lt_size
  rw [depthBound, hnode]
  dsimp only
  rw [count_eq_size hbelow hinv]
  omega

end FerricStore.Zset
