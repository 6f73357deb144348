import FerricStore.Lib.BPlusTree.Invariant

/-!
# Insertion into a counted B+ tree

A leaf is the list of its entries (`Leaf.ofEntries`), and the operations of a leaf are those of a
sorted list. `Post` is what an insertion leaves of a node: one tree, or two and a separator, with
the invariant and the given contents. `insert_rec_spec` shows it for every depth, one case for a
leaf and one for a branch, whose child is replaced through `chain_context`.
-/

namespace FerricStore.BPlusTree

open Entries Option List

variable {κ ν β : Type}

/-! ## Lists around a position -/

variable {α : Type} {i : Nat} {before after : List α}

section

variable (h : before.length = i)
include h

theorem set_mid (a b : α) : (before ++ a :: after).set i b = before ++ b :: after := by
  subst h
  simp

/-- Adding an element at a position. -/
theorem insertIdx_mid (a : α) : (before ++ after).insertIdx i a = before ++ a :: after := by
  subst h
  induction before with
  | nil => rfl
  | cons b before ih => simp [ih]

/-- Adding an element after the one at a position. -/
theorem insertIdx_after
    (a b : α) : (before ++ a :: after).insertIdx (i + 1) b = before ++ a :: b :: after := by
  subst h
  induction before with
  | nil => rfl
  | cons c before ih => simp [ih]

/-- Changing the element at a position. -/
theorem modify_mid (a : α)
    (f : α → α) : (before ++ a :: after).modify i f = before ++ f a :: after := by
  subst h
  induction before with
  | nil => rfl
  | cons b before ih => simp [ih]

/-- Removing the element at a position. -/
theorem eraseIdx_mid (a : α) : (before ++ a :: after).eraseIdx i = before ++ after := by
  subst h
  induction before with
  | nil => rfl
  | cons b before ih => simp [ih]

theorem getElem?_mid (a : α) : (before ++ a :: after)[i]? = some a := by
  subst h
  simp

end

theorem exists_mid {l : List α} (h : i < l.length) :
    ∃ before a after, l = before ++ a :: after ∧ before.length = i := by
  refine ⟨l.take i, l[i], l.drop (i + 1), ?_, by rw [length_take]; omega⟩
  rw [getElem_cons_drop, take_append_drop]

/-! ## Leaves as lists of entries -/

variable (entries : List (κ × ν))

/-- The leaf with the given entries. -/
def Leaf.ofEntries : Leaf κ ν :=
  ⟨entries.map Prod.fst, entries.map Prod.snd⟩

variable {leaf : Leaf κ ν}

@[simp] theorem length_keys_ofEntries : (Leaf.ofEntries entries).keys.length = entries.length := by
  rw [Leaf.ofEntries, length_map]

variable [LinearOrder κ]

omit [LinearOrder κ] in
@[simp] theorem toList_ofEntries : toList 0 (Leaf.ofEntries entries) = entries := by
  show (entries.map Prod.fst).zip (entries.map Prod.snd) = entries
  rw [← unzip_fst, ← unzip_snd, zip_unzip]

variable {lo : WithBot κ} {hi : WithTop κ}

/-- The weak invariant of a leaf. -/
theorem weak_leaf_iff :
    Weak 0 lo hi leaf ↔ ∃ entries, leaf = Leaf.ofEntries entries ∧ Entries.Sorted entries ∧
      ∀ e ∈ entries, Bounded lo hi e.1 := by
  constructor
  · rintro ⟨hlen, hsorted, hbounded⟩
    refine ⟨leaf.keys.zip leaf.values, ?_, sorted_leaf hlen hsorted,
      fun e he => hbounded _ (mem_keys_of_mem_zip he)⟩
    rw [Leaf.ofEntries, map_fst_zip hlen.le, map_snd_zip hlen.ge]
  · rintro ⟨entries, rfl, hsorted, hbounded⟩
    refine ⟨by simp [Leaf.ofEntries], pairwise_map.mpr hsorted, ?_⟩
    intro key hkey
    obtain ⟨e, he, rfl⟩ := mem_map.mp hkey
    exact hbounded e he

/-- The invariant of a leaf. -/
theorem inv_leaf_iff : Inv 0 lo hi leaf ↔ ∃ entries, leaf = Leaf.ofEntries entries ∧ entries ≠ [] ∧
      Entries.Sorted entries ∧ ∀ e ∈ entries, Bounded lo hi e.1 := by
  constructor
  · intro h
    obtain ⟨entries, rfl, hsorted, hbounded⟩ := weak_leaf_iff.mp h.weak
    refine ⟨entries, rfl, fun hnil => h.2.1 ?_, hsorted, hbounded⟩
    rw [hnil]
    rfl
  · rintro ⟨entries, rfl, hne, hsorted, hbounded⟩
    exact Weak.inv (weak_leaf_iff.mpr ⟨entries, rfl, hsorted, hbounded⟩) (by simpa using hne) trivial

variable {entries}

/-- A sorted leaf around the place of a key. -/
theorem position_split (hsorted : Entries.Sorted entries) (key : κ) :
    ∃ before after, entries = before ++ after ∧
      before.length = position (entries.map Prod.fst) key ∧ (∀ e ∈ before, e.1 < key) ∧
      ∀ e ∈ after, key ≤ e.1 := by
  refine ⟨entries.takeWhile (fun e => decide (e.1 < key)),
    entries.dropWhile (fun e => decide (e.1 < key)), takeWhile_append_dropWhile.symm, ?_, ?_, ?_⟩
  · rw [position, takeWhile_map, length_map]
    rfl
  · intro e he
    simpa using mem_takeWhile_imp he
  · intro e he
    induction entries with
    | nil => cases he
    | cons first rest ih =>
      obtain ⟨hfirst, hrest⟩ := pairwise_cons.mp hsorted
      by_cases hlt : first.1 < key
      · rw [dropWhile_cons_of_pos (by simpa using hlt)] at he
        exact ih hrest he
      · rw [dropWhile_cons_of_neg (by simpa using hlt)] at he
        rcases mem_cons.mp he with rfl | he
        · exact not_lt.mp hlt
        · exact (not_lt.mp hlt).trans (hfirst e he).le

/-- A sorted leaf around a key: it is the next key after the smaller ones, or all others are
larger. -/
theorem position_cases (hsorted : Entries.Sorted entries) (key : κ) :
    ∃ before after, entries = before ++ after ∧ (∀ {α : Type} (f : κ × ν → α),
        (before.map f).length = position (entries.map Prod.fst) key) ∧ (∀ e ∈ before, e.1 < key) ∧
      ((∃ value rest, after = (key, value) :: rest) ∨ ∀ e ∈ after, key < e.1) := by
  obtain ⟨before, after, hsplit, hlen, hbefore, hafter⟩ := position_split hsorted key
  refine ⟨before, after, hsplit, fun _ => (length_map _).trans hlen, hbefore, ?_⟩
  rw [hsplit] at hsorted
  obtain ⟨-, hsortedAfter, -⟩ := sorted_append.mp hsorted
  cases after with
  | nil => exact .inr (by simp)
  | cons first rest =>
    obtain ⟨hfirst, -⟩ := pairwise_cons.mp hsortedAfter
    rcases (hafter first (by simp)).eq_or_lt with heq | hlt
    · exact .inl ⟨first.2, rest, by rw [heq]⟩
    · exact .inr (forall_mem_cons.mpr ⟨hlt, fun e he => hlt.trans (hfirst e he)⟩)

variable {key : κ}

omit [LinearOrder κ] in
/-- The entry after the given ones is not that of a key when no later one is. -/
theorem getElem?_absent {before after : List (κ × ν)}
    (hlen : (before.map Prod.fst).length = i) (hafter : ∀ e ∈ after, e.1 ≠ key) :
    ((before ++ after).map Prod.fst)[i]? ≠ some key := by
  subst hlen
  cases after with
  | nil => simp
  | cons first rest => simpa using hafter first mem_cons_self

/-- Insertion into a leaf is insertion into its entries, and then a split when it is full. -/
theorem insert_leaf_eq (p : Policy κ ν) (hsorted : Entries.Sorted entries) (key : κ) (value : ν) :
    insertLeaf p (Leaf.ofEntries entries) key value =
      match Entries.get key entries with
      | some old => some (Leaf.ofEntries (put key value entries), some old, none)
      | none => (splitFull p 0 (Leaf.ofEntries (put key value entries))).map
          fun (leaf, split) => (leaf, none, split) := by
  obtain ⟨before, after, rfl, hlen, hbefore, hcases⟩ := position_cases hsorted key
  have hkeysLen := hlen Prod.fst
  have hvaluesLen := hlen Prod.snd
  unfold insertLeaf
  simp only [Leaf.ofEntries]
  rw [get_append_right hbefore, put_append_right hbefore]
  rcases hcases with ⟨old, rest, rfl⟩ | hafter
  · rw [Entries.get, if_pos rfl, Entries.put, if_neg (lt_irrefl key), if_pos rfl]
    simp only [map_append, map_cons] at hkeysLen hvaluesLen ⊢
    rw [getElem?_mid hkeysLen, if_pos rfl, getElem?_mid hvaluesLen, map_some,
      Leaf.setValue, set_mid hvaluesLen]
  · rw [get_eq_none fun e he => (hafter e he).ne']
    have hput : put key value after = (key, value) :: after := by
      have := put_append_left hafter value []
      simpa [put] using this
    have habsent := getElem?_absent hkeysLen fun e he => (hafter e he).ne'
    rw [hput]
    simp only [map_append, map_cons] at hkeysLen hvaluesLen habsent ⊢
    rw [if_neg habsent, Leaf.insertAt, insertIdx_mid hkeysLen, insertIdx_mid hvaluesLen]

/-! ## Splitting -/

/-- What an edit leaves of a node: one tree over the whole interval, or two around a separator,
with the given entries. -/
def Post (n : Nat) (lo : WithBot κ) (hi : WithTop κ) (entries : List (κ × ν)) (tree : Tree κ ν n) :
    Option (Split κ (Tree κ ν n)) → Prop
  | none => Inv n lo hi tree ∧ toList n tree = entries
  | some split => Inv n lo split.sep tree ∧ Inv n split.sep hi split.right ∧
      toList n tree ++ toList n split.right = entries ∧
      split.leftCount = size n tree ∧ split.rightCount = size n split.right

/-- Cutting a leaf inside. -/
theorem leaf_split_spec {cut : Nat}
    (h : Inv 0 lo hi leaf) (hpos : 0 < cut) (hcut : cut < leaf.keys.length) :
    ∃ left split, Leaf.split leaf cut = some (left, split) ∧
      Post 0 lo hi (toList 0 leaf) left (some split) := by
  obtain ⟨entries, rfl, -, hsorted, hbounded⟩ := inv_leaf_iff.mp h
  rw [length_keys_ofEntries] at hcut
  obtain ⟨before, first, after, rfl, rfl⟩ := exists_mid hcut
  obtain ⟨hbefore, hafter, hlt⟩ := sorted_append.mp hsorted
  obtain ⟨hfirst, -⟩ := pairwise_cons.mp hafter
  have hleft : Leaf.take (Leaf.ofEntries (before ++ first :: after)) before.length =
      Leaf.ofEntries before := by
    simp [Leaf.take, Leaf.ofEntries]
  have hright : Leaf.drop (Leaf.ofEntries (before ++ first :: after)) before.length =
      Leaf.ofEntries (first :: after) := by
    simp [Leaf.drop, Leaf.ofEntries]
  have hhead : ((Leaf.ofEntries (before ++ first :: after)).keys.drop before.length).head? =
      some first.1 := by
    simp [Leaf.ofEntries]
  refine ⟨Leaf.ofEntries before, ⟨first.1, Leaf.ofEntries (first :: after), before.length,
    (first :: after).length⟩, ?_, ?_, ?_, ?_, ?_, ?_⟩
  · rw [Leaf.split, hhead, map_some, hleft, hright, length_keys_ofEntries, length_keys_ofEntries]
  · refine inv_leaf_iff.mpr ⟨before, rfl, ne_nil_of_length_pos hpos, hbefore, fun e he => ?_⟩
    exact ⟨(hbounded e (mem_append_left _ he)).lower,
      WithTop.coe_lt_coe.mpr (hlt e he first (by simp))⟩
  · refine inv_leaf_iff.mpr ⟨first :: after, rfl, cons_ne_nil _ _, hafter, fun e he => ?_⟩
    refine ⟨WithBot.coe_le_coe.mpr ?_, (hbounded e (mem_append_right _ he)).upper⟩
    rcases mem_cons.mp he with rfl | he
    · exact le_rfl
    · exact (hfirst e he).le
  · simp
  · show before.length = (toList 0 (Leaf.ofEntries before)).length
    rw [toList_ofEntries]
  · show (first :: after).length = (toList 0 (Leaf.ofEntries (first :: after))).length
    rw [toList_ofEntries]

omit [LinearOrder κ] in
theorem sum_sizes (n : Nat) (children : List (Tree κ ν n)) :
    (children.map (size n)).sum = (children.flatMap (toList n)).length :=
  length_flatMap.symm

variable {n : Nat}

/-- Cutting a branch at an inner separator. -/
theorem branch_split_spec {branch : Tree κ ν (n + 1)}
    {mid : Nat} (h : Inv (n + 1) lo hi branch) (hpos : 0 < mid)
    (hmid : mid + 1 < (Branch.keys branch).length) :
    ∃ left split, Branch.split branch mid = some (left, split) ∧
      Post (n + 1) lo hi (toList (n + 1) branch) left (some split) := by
  obtain ⟨keys, children, counts⟩ := branch
  obtain ⟨hchain, hcounts, -⟩ := h
  simp only at hchain hcounts hmid
  obtain ⟨before, sep, after, rfl, rfl⟩ := exists_mid (show mid < keys.length by omega)
  rw [length_append, length_cons] at hmid
  obtain ⟨left, right, rfl, hleft, hleftChain, hrightChain⟩ := hchain.cut
  have hright := hrightChain.length_eq
  have htake : (left ++ right).take (before.length + 1) = left := by simp [← hleft]
  have hdrop : (left ++ right).drop (before.length + 1) = right := by simp [← hleft]
  have hkeysDrop : (before ++ sep :: after).drop (before.length + 1) = after := by simp
  refine ⟨⟨before, left, left.map (size n)⟩, ⟨sep, ⟨after, right, right.map (size n)⟩,
    (left.map (size n)).sum, (right.map (size n)).sum⟩, ?_, ?_, ?_, ?_, ?_, ?_⟩
  · simp only [Branch.split, hcounts, getElem?_mid rfl, map_some, htake, hdrop, hkeysDrop,
      take_left, ← map_take, ← map_drop, Branch.total]
  · exact ⟨hleftChain, rfl, show 2 ≤ left.length by omega⟩
  · exact ⟨hrightChain, rfl, show 2 ≤ right.length by omega⟩
  · exact flatMap_append.symm
  · exact sum_sizes n left
  · exact sum_sizes n right

variable {p : Policy κ ν}

/-- Splitting a node that is too large, when it can be split. -/
theorem split_full_spec (hp : p.Sound) {tree : Tree κ ν n} (h : Inv n lo hi tree)
    (hsplit : n = 0 → 2 ≤ size n tree ∨ splitFull p n tree = some (tree, none)) :
    ∃ left split, splitFull p n tree = some (left, split) ∧
      Post n lo hi (toList n tree) left split := by
  cases n with
  | zero =>
    by_cases hfull : p.leafFull tree = true
    · have hlen : 2 ≤ (Leaf.keys tree).length := by
        rcases hsplit rfl with hsplit | hsplit
        · have : (toList 0 tree).length ≤ (Leaf.keys tree).length := by
            show (zip _ _).length ≤ _
            rw [length_zip]
            omega
          exact hsplit.trans this
        · rw [splitFull, if_pos hfull, map_eq_some_iff] at hsplit
          obtain ⟨_, -, heq⟩ := hsplit
          cases heq
      obtain ⟨hpos, hcut⟩ := hp.leaf_cut tree hfull hlen
      obtain ⟨left, split, heq, hpost⟩ := leaf_split_spec h hpos hcut
      exact ⟨left, some split, by rw [splitFull, if_pos hfull, heq]; rfl, hpost⟩
    · exact ⟨tree, none, by rw [splitFull, if_neg hfull], h, rfl⟩
  | succ n =>
    by_cases hfull : p.branchFull (Branch.keys tree) = true
    · obtain ⟨hpos, hcut⟩ := hp.branch_cut _ hfull
      obtain ⟨left, split, heq, hpost⟩ := branch_split_spec h hpos hcut
      exact ⟨left, some split, by rw [splitFull, if_pos hfull, heq]; rfl, hpost⟩
    · exact ⟨tree, none, by rw [splitFull, if_neg hfull], h, rfl⟩

/-! ## Insertion -/

/-- A branch around the child a key is routed to: the other children hold none of the entries of the
key, so a lookup in the branch is one in the child. -/
theorem routed_split {keys : List κ}
    {children : List (Tree κ ν n)} (h : Chain (Inv n) hi lo keys children) (key : κ) :
    ∃ before below after, children = before ++ below :: after ∧
      before.length = childIndex keys key ∧
      Inv n (boundBefore lo keys before.length) (boundAfter hi keys before.length) below ∧
      (∀ e ∈ before.flatMap (toList n), e.1 < key) ∧
      (∀ e ∈ after.flatMap (toList n), key < e.1) ∧
      Entries.get key (children.flatMap (toList n)) = Entries.get key (toList n below) := by
  obtain ⟨hconfines, -⟩ := Inv.confined κ ν n
  have hbefore : ∀ e ∈ (children.take (childIndex keys key)).flatMap (toList n), e.1 < key :=
    h.before_lt hconfines
  have hafter : ∀ e ∈ (children.drop (childIndex keys key + 1)).flatMap (toList n), key < e.1 :=
    h.after_gt hconfines
  have hin : childIndex keys key < children.length := by
    rw [h.length_eq, Nat.lt_succ_iff, childIndex]
    exact (List.takeWhile_prefix _).length_le
  obtain ⟨before, below, after, rfl, hlen⟩ := exists_mid hin
  rw [← hlen, take_left] at hbefore
  rw [← hlen, drop_append, drop_of_length_le (by omega), Nat.add_sub_cancel_left, drop_one, tail_cons,
    nil_append] at hafter
  refine ⟨before, below, after, rfl, hlen, (chain_child h).1, hbefore, hafter, ?_⟩
  rw [flatMap_append, flatMap_cons, get_append_right hbefore, get_append,
    get_eq_none fun e he => (hafter e he).ne', Option.or_none]

/-- One child of a branch replaced by what an insertion left of it. -/
theorem after_insert_spec {keys : List κ}
    {before after : List (Tree κ ν n)} {below node : Tree κ ν n} {value : ν}
    {split : Option (Split κ (Tree κ ν n))}
    (hchain : Chain (Inv n) hi lo keys (before ++ below :: after))
    (hsorted : Entries.Sorted (toList n below))
    (hpost : Post n (boundBefore lo keys before.length) (boundAfter hi keys before.length)
      (Entries.put key value (toList n below)) node split) :
    let branch : Tree κ ν (n + 1) := Branch.afterInsert
      ⟨keys, before ++ below :: after, (before ++ below :: after).map (size n)⟩ before.length node
      (Entries.get key (toList n below)).isNone split
    Weak (n + 1) lo hi branch ∧ (before ++ below :: after).length ≤ (Branch.children branch).length ∧
      toList (n + 1) branch = before.flatMap (toList n) ++
        (Entries.put key value (toList n below) ++ after.flatMap (toList n)) := by
  intro branch
  obtain ⟨-, hcontext⟩ := chain_child hchain
  cases split with
  | none =>
    obtain ⟨hinv, hlist⟩ := hpost
    have hsize : size n node =
        size n below + if (Entries.get key (toList n below)).isNone then 1 else 0 := by
      rw [size, hlist, length_put hsorted, size]
      split_ifs <;> rfl
    have hbranch : branch = (⟨keys, before ++ node :: after,
        (before ++ node :: after).map (size n)⟩ : Branch κ (Tree κ ν n)) := by
      show Branch.afterInsert _ _ _ _ _ = _
      rw [Branch.afterInsert]
      simp only [set_mid rfl, Branch.mk.injEq, true_and]
      rw [map_append, map_cons, map_append, map_cons, hsize]
      split_ifs with hgrew
      · rw [modify_mid (length_map _)]
      · rfl
    rw [hbranch]
    refine ⟨⟨?_, rfl⟩, by simp, ?_⟩
    · have := hcontext [] [node] (.last hinv)
      rwa [nil_append, take_append_drop, singleton_append] at this
    · show (before ++ node :: after).flatMap (toList n) = _
      rw [flatMap_append, flatMap_cons, hlist]
  | some split =>
    obtain ⟨hleft, hright, hlist, hleftCount, hrightCount⟩ := hpost
    have hkeysLen : (keys.take before.length).length = before.length := by
      have := hchain.length_eq
      rw [length_append, length_cons] at this
      rw [length_take]
      omega
    have hcounts : ∀ grew : Bool, (((if grew then
        ((before ++ below :: after).map (size n)).modify before.length (· + 1)
        else (before ++ below :: after).map (size n)).set before.length split.leftCount).insertIdx
          (before.length + 1) split.rightCount) =
        (before ++ node :: split.right :: after).map (size n) := by
      intro grew
      simp only [map_append, map_cons]
      cases grew with
      | true => rw [if_pos rfl, modify_mid (length_map _), set_mid (length_map _),
          hleftCount, hrightCount, insertIdx_after (length_map _)]
      | false => rw [if_neg (by decide), set_mid (length_map _), hleftCount, hrightCount,
          insertIdx_after (length_map _)]
    have hbranch : branch = (⟨keys.take before.length ++ (split.sep :: keys.drop before.length),
        before ++ node :: split.right :: after,
        (before ++ node :: split.right :: after).map (size n)⟩ : Branch κ (Tree κ ν n)) := by
      show Branch.afterInsert _ _ _ _ _ = _
      simp only [Branch.afterInsert]
      rw [hcounts, set_mid rfl, insertIdx_after rfl, ← insertIdx_mid hkeysLen, take_append_drop]
    rw [hbranch]
    refine ⟨⟨?_, rfl⟩, by simp, ?_⟩
    · exact hcontext [split.sep] [node, split.right] (.cons hleft (.last hright))
    · show (before ++ node :: split.right :: after).flatMap (toList n) = _
      rw [flatMap_append, flatMap_cons, flatMap_cons, ← hlist, append_assoc]

/-- The parts of an insertion below a branch. -/
theorem insert_rec_branch_iff {branch : Branch κ (Tree κ ν n)}
    {value : ν} {tree : Tree κ ν (n + 1)} {replaced : Option ν}
    {split : Option (Split κ (Tree κ ν (n + 1)))} :
    insertRec p (n + 1) branch key value = some (tree, replaced, split) ↔
      ∃ below node split', branch.children[childIndex branch.keys key]? = some below ∧
        insertRec p n below key value = some (node, replaced, split') ∧
        splitFull p (n + 1) (branch.afterInsert (childIndex branch.keys key) node replaced.isNone
          split') = some (tree, split) := by
  constructor
  · intro h
    obtain ⟨below, hbelow, h⟩ := bind_eq_some_iff.mp h
    obtain ⟨⟨node, replaced', split'⟩, hnode, h⟩ := bind_eq_some_iff.mp h
    obtain ⟨⟨tree', split''⟩, hsplit, h⟩ := bind_eq_some_iff.mp h
    cases h
    exact ⟨below, node, split', hbelow, hnode, hsplit⟩
  · rintro ⟨below, node, split', hbelow, hnode, hsplit⟩
    refine bind_eq_some_iff.mpr ⟨below, hbelow, ?_⟩
    refine bind_eq_some_iff.mpr ⟨_, hnode, ?_⟩
    exact bind_eq_some_iff.mpr ⟨_, hsplit, rfl⟩

/-- Insertion into a leaf that can take the entry. -/
theorem insert_leaf_spec (hp : p.Sound)
    (value : ν) (h : Weak 0 lo hi leaf) (hkey : Bounded lo hi key)
    (hroom : toList 0 leaf ≠ [] ∨ p.leafFull (Leaf.ofEntries [(key, value)]) = false) :
    ∃ node split, insertLeaf p leaf key value =
        some (node, Entries.get key (toList 0 leaf), split) ∧
      Post 0 lo hi (Entries.put key value (toList 0 leaf)) node split := by
  obtain ⟨entries, rfl, hsorted, hbounded⟩ := weak_leaf_iff.mp h
  rw [toList_ofEntries] at hroom ⊢
  have hlength := length_put hsorted key value
  have hinv : Inv 0 lo hi (Leaf.ofEntries (Entries.put key value entries)) := by
    refine inv_leaf_iff.mpr ⟨_, rfl, ?_, sorted_put hsorted key value, fun e he => ?_⟩
    · cases entries with
      | nil => exact cons_ne_nil _ _
      | cons first rest =>
        refine ne_nil_of_length_pos ?_
        rw [hlength]
        split_ifs <;> simp
    · rcases mem_put he with rfl | he
      · exact hkey
      · exact hbounded e he
  rw [insert_leaf_eq p hsorted]
  cases hget : Entries.get key entries with
  | some old => exact ⟨_, none, rfl, hinv, toList_ofEntries _⟩
  | none =>
    have hsplit : 2 ≤ size 0 (Leaf.ofEntries (Entries.put key value entries)) ∨
        splitFull p 0 (Leaf.ofEntries (Entries.put key value entries)) =
          some (Leaf.ofEntries (Entries.put key value entries), none) := by
      cases entries with
      | nil =>
        refine .inr ?_
        rcases hroom with hroom | hroom
        · exact absurd rfl hroom
        · show (if p.leafFull (Leaf.ofEntries [(key, value)]) then _ else some _) = _
          rw [hroom]
          rfl
      | cons first rest =>
        refine .inl ?_
        show 2 ≤ (toList 0 _).length
        rw [toList_ofEntries, hlength, hget]
        simp
    obtain ⟨left, split, heq, hpost⟩ := split_full_spec hp hinv fun _ => hsplit
    rw [toList_ofEntries] at hpost
    exact ⟨left, split, by simp only [heq, map_some], hpost⟩

/-- Insertion below a node of any depth. -/
theorem insert_rec_spec (hp : p.Sound) : ∀ {lo : WithBot κ}
    {hi : WithTop κ} {tree : Tree κ ν n} {key : κ} (value : ν), Inv n lo hi tree →
    Bounded lo hi key →
    ∃ node split, insertRec p n tree key value =
        some (node, Entries.get key (toList n tree), split) ∧
      Post n lo hi (put key value (toList n tree)) node split := by
  induction n with
  | zero =>
    intro lo hi leaf key value h hkey
    exact insert_leaf_spec hp value h.weak hkey (.inl ((Inv.confined κ ν 0).1 _ _ _ h).1)
  | succ n ih =>
    intro lo hi branch key value h hkey
    obtain ⟨hconfines, hsorted⟩ := Inv.confined κ ν n
    obtain ⟨keys, children, counts⟩ := branch
    obtain ⟨hchain, hcounts, hmany⟩ := h
    simp only at hchain hcounts hmany
    obtain ⟨before, below, after, rfl, hlen, hbelow, hbefore, hafter, hget⟩ := routed_split hchain key
    subst hcounts
    have hkeyBelow := childIndex_bounded keys hkey
    rw [← hlen] at hkeyBelow
    obtain ⟨node, split, heq, hpost⟩ := ih value hbelow hkeyBelow
    obtain ⟨hweak, hlength, hlist⟩ := after_insert_spec hchain (hsorted _ _ _ hbelow) hpost
    have hput : put key value ((before ++ below :: after).flatMap (toList n)) =
        before.flatMap (toList n) ++
          (put key value (toList n below) ++ after.flatMap (toList n)) := by
      rw [flatMap_append, flatMap_cons, put_append_right hbefore, put_append_left hafter]
    have hinv := Weak.inv hweak (by
      rw [hlist, ← hput]
      refine ne_nil_of_length_pos ?_
      rw [length_put (hchain.sorted hconfines hsorted)]
      have := length_pos_of_ne_nil (hchain.ne_nil hconfines)
      split_ifs <;> omega) (hmany.trans hlength)
    obtain ⟨left, split', heqSplit, hpostSplit⟩ :=
      split_full_spec hp hinv fun h => absurd h (Nat.succ_ne_zero n)
    refine ⟨left, split', ?_, ?_⟩
    · simp only [insertRec, ← hlen, getElem?_mid rfl, bind_eq_bind, bind_some, heq, heqSplit]
      show some _ = some (left, Entries.get key ((before ++ below :: after).flatMap _), split')
      rw [hget]
    · rw [hlist, ← hput] at hpostSplit
      exact hpostSplit

/-- What an insertion does to a whole tree. The one entry of an empty tree has to fit a leaf. -/
theorem insert_spec (hp : p.Sound) {root : Root κ ν} (h : RootInv root) (key : κ) (value : ν)
    (hroom : contents root ≠ [] ∨ p.leafFull (Leaf.ofEntries [(key, value)]) = false) :
    ∃ root', insert p root key value = some (root', Entries.get key (contents root)) ∧
      RootInv root' ∧ contents root' = put key value (contents root) := by
  have hkey : Bounded ⊥ ⊤ key := ⟨bot_le, WithTop.coe_lt_top key⟩
  -- the empty tree is an empty leaf, which is not quite a tree
  obtain ⟨n, tree, node, split, hroot, heq, hpost⟩ :
      ∃ n tree node split, root.getD ⟨0, (⟨[], []⟩ : Leaf κ ν)⟩ = ⟨n, tree⟩ ∧
        insertRec p n tree key value = some (node, Entries.get key (contents root), split) ∧
        Post n ⊥ ⊤ (put key value (contents root)) node split := by
    rcases root with _ | ⟨n, tree⟩
    · have hempty : Weak 0 ⊥ ⊤ (⟨[], []⟩ : Leaf κ ν) := ⟨rfl, .nil, by simp⟩
      obtain ⟨node, split, heq, hpost⟩ := insert_leaf_spec hp value hempty hkey hroom
      exact ⟨0, _, node, split, rfl, heq, hpost⟩
    · obtain ⟨node, split, heq, hpost⟩ := insert_rec_spec hp value (h n tree rfl) hkey
      exact ⟨n, tree, node, split, rfl, heq, hpost⟩
  unfold insert
  rw [hroot]
  simp only [heq, bind_eq_bind, bind_some]
  cases split with
  | none =>
    refine ⟨_, rfl, ?_, hpost.2⟩
    intro m tree' htree
    cases htree
    exact hpost.1
  | some split =>
    obtain ⟨hleft, hright, hlist, hleftCount, hrightCount⟩ := hpost
    refine ⟨_, rfl, ?_, ?_⟩
    · intro m tree' htree
      cases htree
      exact ⟨.cons hleft (.last hright), by rw [hleftCount, hrightCount]; rfl, le_rfl⟩
    · rw [← hlist]
      show [node, split.right].flatMap (toList n) = _
      simp

end FerricStore.BPlusTree
