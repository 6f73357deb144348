import FerricStore.Lib.BPlusTree.Read

/-!
# Removal from a counted B+ tree

A removal leaves one child of a branch weak: empty, or a branch with one child. `Slot` is what all
children still satisfy, the others being `Strong` beside it. Dropping the weak child, keeping it,
or merging it with a neighbor makes all of them strong again (`rebalance_spec`), and at the root
`collapse` takes the place of the missing neighbor.
-/

namespace FerricStore.BPlusTree

open Entries Option List

variable {κ ν β : Type} [LinearOrder κ]

/-- A weak node whose interval is not empty. -/
def Slot (n : Nat) (lo : WithBot κ) (hi : WithTop κ) (tree : Tree κ ν n) : Prop :=
  Weak n lo hi tree ∧ ∃ key, Bounded lo hi key

/-- What a node has beside the weak invariant: entries, and two children if it is a branch. -/
def Strong (n : Nat) (tree : Tree κ ν n) : Prop :=
  toList n tree ≠ [] ∧ Many n tree

variable {n : Nat} {lo : WithBot κ} {hi : WithTop κ} {tree : Tree κ ν n}

/-- A tree is a slot. -/
theorem Inv.slot (h : Inv n lo hi tree) : Slot n lo hi tree := by
  obtain ⟨hne, hbounded⟩ := (Inv.confined κ ν n).1 lo hi tree h
  obtain ⟨e, he⟩ := exists_mem_of_ne_nil _ hne
  exact ⟨h.weak, e.1, hbounded e he⟩

/-- A tree is strong. -/
theorem Inv.strong (h : Inv n lo hi tree) : Strong n tree := by
  refine ⟨((Inv.confined κ ν n).1 lo hi tree h).1, ?_⟩
  cases n with
  | zero => trivial
  | succ n => exact h.2.2

theorem Slot.inv (h : Slot n lo hi tree) (hstrong : Strong n tree) : Inv n lo hi tree :=
  h.1.inv hstrong.1 hstrong.2

variable {keys : List κ}

theorem chain_inv {children : List (Tree κ ν n)} (h : Chain (Slot n) hi lo keys children)
    (hstrong : ∀ child ∈ children, Strong n child) : Chain (Inv n) hi lo keys children :=
  h.mono fun _ _ child hchild hslot => hslot.inv (hstrong child hchild)

/-- Removal from a leaf is removal from its entries. -/
theorem remove_leaf_eq {entries : List (κ × ν)} (hsorted : Entries.Sorted entries) {key : κ}
    {value : ν} (hget : Entries.get key entries = some value) :
    removeLeaf (Leaf.ofEntries entries) key =
      some (Leaf.ofEntries (erase key entries), value) := by
  obtain ⟨before, after, rfl, hlen, hbefore, hcases⟩ := position_cases hsorted key
  have hkeysLen := hlen Prod.fst
  have hvaluesLen := hlen Prod.snd
  rw [get_append_right hbefore] at hget
  rcases hcases with ⟨old, rest, rfl⟩ | hafter
  · rw [Entries.get, if_pos rfl] at hget
    cases hget
    unfold removeLeaf
    simp only [Leaf.ofEntries]
    rw [erase_append_right hbefore, erase, if_pos rfl]
    simp only [map_append, map_cons] at hkeysLen hvaluesLen ⊢
    rw [getElem?_mid hkeysLen, if_pos rfl, getElem?_mid hvaluesLen, map_some,
      Leaf.removeAt, eraseIdx_mid hkeysLen, eraseIdx_mid hvaluesLen]
  · rw [get_eq_none fun e he => (hafter e he).ne'] at hget
    cases hget

/-! ## Repairing a branch -/

variable {left right : Tree κ ν n}

/-- Two neighbors as one. -/
theorem merge_spec {sep : κ}
    (hleft : Slot n lo sep left) (hright : Slot n sep hi right) (hleftNe : toList n left ≠ []) :
    Inv n lo hi (merge n left sep right) ∧
      toList n (merge n left sep right) = toList n left ++ toList n right := by
  obtain ⟨hleftWeak, k, hk⟩ := hleft
  obtain ⟨hrightWeak, k', hk'⟩ := hright
  have hlo : lo ≤ sep := hk.lower.trans (WithBot.coe_le_coe.mpr (WithTop.coe_lt_coe.mp hk.upper).le)
  have hhi : (sep : WithTop κ) ≤ hi :=
    (WithTop.coe_le_coe.mpr (WithBot.coe_le_coe.mp hk'.lower)).trans hk'.upper.le
  cases n with
  | zero =>
    obtain ⟨entries, rfl, hsorted, hbounded⟩ := weak_leaf_iff.mp hleftWeak
    obtain ⟨entries', rfl, hsorted', hbounded'⟩ := weak_leaf_iff.mp hrightWeak
    have hmerge : merge 0 (Leaf.ofEntries entries) sep (Leaf.ofEntries entries') =
        Leaf.ofEntries (entries ++ entries') := by
      show Leaf.append _ _ = _
      simp [Leaf.append, Leaf.ofEntries]
    rw [hmerge]
    rw [toList_ofEntries] at hleftNe
    refine ⟨inv_leaf_iff.mpr ⟨_, rfl, append_ne_nil_of_left_ne_nil hleftNe _, ?_, ?_⟩,
      by simp only [toList_ofEntries]⟩
    · refine sorted_append.mpr ⟨hsorted, hsorted', fun a ha b hb => ?_⟩
      exact (WithTop.coe_lt_coe.mp (hbounded a ha).upper).trans_le
        (WithBot.coe_le_coe.mp (hbounded' b hb).lower)
    · exact forall_mem_append.mpr ⟨fun e he => (hbounded e he).widen le_rfl hhi,
        fun e he => (hbounded' e he).widen hlo le_rfl⟩
  | succ n =>
    obtain ⟨keys, children, counts⟩ := left
    obtain ⟨keys', children', counts'⟩ := right
    obtain rfl : counts = children.map (size n) := hleftWeak.2
    obtain rfl : counts' = children'.map (size n) := hrightWeak.2
    have hlen : children.length = keys.length + 1 := hleftWeak.1.length_eq
    have hlen' : children'.length = keys'.length + 1 := hrightWeak.1.length_eq
    refine ⟨⟨hleftWeak.1.append hrightWeak.1, (map_append).symm, ?_⟩, flatMap_append⟩
    show 2 ≤ (children ++ children').length
    rw [length_append]
    omega

variable {p : Policy κ ν}

/-- A slot that is neither empty nor low is strong. -/
theorem strong_of_not_low (hp : p.Sound) (h : Slot n lo hi tree) (hne : toList n tree ≠ [])
    (hlow : low p n tree = false) : Strong n tree := by
  refine ⟨hne, ?_⟩
  cases n with
  | zero => trivial
  | succ n =>
    obtain ⟨keys, children, counts⟩ := tree
    have hlen := h.1.1.length_eq
    show 2 ≤ children.length
    cases keys with
    | nil => exact absurd (hp.branch_low.symm.trans hlow) (by decide)
    | cons sep seps =>
      rw [show children.length = (sep :: seps).length + 1 from hlen, length_cons]
      omega

section Positions

variable {α : Type} {before after : List α} {i : Nat} (h : before.length = i)
include h

theorem drop_mid (a : α) : (before ++ a :: after).drop (i + 1) = after := by
  subst h
  simp

theorem getElem?_after (a b : α) :
    (before ++ a :: b :: after)[i + 1]? = some b := by
  subst h
  simp

theorem set_after (a b c : α) :
    (before ++ a :: b :: after).set (i + 1) c = before ++ a :: c :: after := by
  subst h
  simp

theorem eraseIdx_after (a b : α) :
    (before ++ a :: b :: after).eraseIdx (i + 1) = before ++ a :: after := by
  subst h
  simp [eraseIdx_append_of_length_le]

end Positions

variable {before after : List (Tree κ ν n)}

/-- The parts of a branch around two neighbors: the separator between them, their slots, and what
may take their place. -/
theorem window_split (h : Chain (Slot n) hi lo keys (before ++ left :: right :: after)) :
    ∃ (keysBefore : List κ) (sep : κ) (keysAfter : List κ) (lo' : WithBot κ) (hi' : WithTop κ),
      keys = keysBefore ++ sep :: keysAfter ∧
      keysBefore.length = before.length ∧ Slot n lo' sep left ∧ Slot n sep hi' right ∧
      ∀ seps children, Chain (Slot n) hi' lo' seps children →
        Chain (Slot n) hi lo (keysBefore ++ (seps ++ keysAfter)) (before ++ (children ++ after)) := by
  have hlen := h.length_eq
  simp only [length_append, length_cons] at hlen
  obtain ⟨keysBefore, sep, keysAfter, rfl, hbefore⟩ :=
    exists_mid (show before.length < keys.length by omega)
  obtain ⟨hmid, hcontext⟩ := chain_context before [left, right] after (cons_ne_nil _ _) h
  have htake : ((keysBefore ++ sep :: keysAfter).drop before.length).take 1 = [sep] := by
    rw [← hbefore, drop_left]
    rfl
  simp only [length_cons, length_nil, Nat.zero_add, Nat.add_sub_cancel, htake,
    take_left' hbefore, drop_mid hbefore] at hmid hcontext
  cases hmid with
  | cons hleft hrest =>
    cases hrest with
    | last hright => exact ⟨_, sep, _, _, _, rfl, hbefore, hleft, hright, hcontext⟩

/-- Merging two neighbors and splitting the result again when it is too large. -/
theorem merge_window_spec (hp : p.Sound)
    (h : Chain (Slot n) hi lo keys (before ++ left :: right :: after))
    (hothers : ∀ child ∈ before ++ after, Strong n child) (hleft : toList n left ≠ [])
    (hright : toList n right ≠ []) :
    ∃ sep node split, keys[before.length]? = some sep ∧
      splitFull p n (merge n left sep right) = some (node, split) ∧
      let branch : Tree κ ν (n + 1) := Branch.afterMerge ⟨keys, before ++ left :: right :: after,
        (before ++ left :: right :: after).map (size n)⟩ before.length node split
      Weak (n + 1) lo hi branch ∧
        toList (n + 1) branch = (before ++ left :: right :: after).flatMap (toList n) := by
  obtain ⟨keysBefore, sep, keysAfter, lo', hi', rfl, hlen, hleftSlot, hrightSlot, hcontext⟩ :=
    window_split h
  obtain ⟨hinv, hlist⟩ := merge_spec hleftSlot hrightSlot hleft
  have hsize : 2 ≤ size n (merge n left sep right) := by
    rw [size, hlist, length_append]
    have := length_pos_of_ne_nil hleft
    have := length_pos_of_ne_nil hright
    omega
  obtain ⟨node, split, heq, hpost⟩ := split_full_spec hp hinv fun _ => .inl hsize
  refine ⟨sep, node, split, getElem?_mid hlen sep, heq, ?_⟩
  rw [hlist] at hpost
  have hmem : ∀ mid : List (Tree κ ν n), (∀ child ∈ mid, Strong n child) →
      ∀ child ∈ before ++ (mid ++ after), Strong n child := by
    intro mid hmid child hchild
    simp only [mem_append] at hchild
    rcases hchild with hchild | hchild | hchild
    · exact hothers child (mem_append_left _ hchild)
    · exact hmid child hchild
    · exact hothers child (mem_append_right _ hchild)
  cases split with
  | none =>
    obtain ⟨hnode, hnodeList⟩ := hpost
    have hnodeSize : size n node = size n left + size n right := by
      rw [size, hnodeList, length_append, size, size]
    have hbranch : Branch.afterMerge ⟨keysBefore ++ sep :: keysAfter,
        before ++ left :: right :: after, (before ++ left :: right :: after).map (size n)⟩
        before.length node none =
        ⟨keysBefore ++ keysAfter, before ++ node :: after,
          (before ++ node :: after).map (size n)⟩ := by
      simp only [Branch.afterMerge]
      simp only [map_append, map_cons]
      rw [eraseIdx_mid hlen, set_mid rfl, eraseIdx_after rfl, modify_mid (length_map _),
        eraseIdx_after (length_map _), getD_eq_getElem?_getD,
        getElem?_after (length_map _), hnodeSize, getD_some]
    rw [hbranch]
    refine ⟨⟨chain_inv (hcontext [] [node] (.last hnode.slot)) (hmem [node] ?_), rfl⟩, ?_⟩
    · intro child hchild
      rw [mem_singleton.mp hchild]
      exact hnode.strong
    · show (before ++ node :: after).flatMap (toList n) = _
      simp [hnodeList]
  | some split =>
    obtain ⟨hnode, hsplit, hnodeList, hleftCount, hrightCount⟩ := hpost
    have hbranch : Branch.afterMerge ⟨keysBefore ++ sep :: keysAfter,
        before ++ left :: right :: after, (before ++ left :: right :: after).map (size n)⟩
        before.length node (some split) =
        ⟨keysBefore ++ split.sep :: keysAfter, before ++ node :: split.right :: after,
          (before ++ node :: split.right :: after).map (size n)⟩ := by
      simp only [Branch.afterMerge]
      simp only [map_append, map_cons]
      rw [set_mid hlen, set_mid rfl, set_after rfl, set_mid (length_map _),
        set_after (length_map _), hleftCount, hrightCount]
    rw [hbranch]
    refine ⟨⟨chain_inv (hcontext [split.sep] [node, split.right]
      (.cons hnode.slot (.last hsplit.slot))) (hmem [node, split.right] ?_), rfl⟩, ?_⟩
    · exact forall_mem_cons.mpr ⟨hnode.strong, forall_mem_singleton.mpr hsplit.strong⟩
    · show (before ++ node :: split.right :: after).flatMap (toList n) = _
      simp only [flatMap_append, flatMap_cons]
      rw [← append_assoc (toList n node), hnodeList, append_assoc]

section

variable {node : Tree κ ν n} (h : Chain (Slot n) hi lo keys (before ++ node :: after))
  (hothers : ∀ child ∈ before ++ after, Strong n child) (hkeys : keys ≠ [])
include h hothers hkeys

/-- Dropping a child that has lost its last entry. -/
theorem drop_child_spec (hempty : toList n node = []) :
    ∃ branch : Tree κ ν (n + 1), Branch.dropChild ⟨keys, before ++ node :: after,
        (before ++ node :: after).map (size n)⟩ before.length = some branch ∧
      Weak (n + 1) lo hi branch ∧
        toList (n + 1) branch = (before ++ node :: after).flatMap (toList n) := by
  have hlist : (before ++ node :: after).flatMap (toList n) =
      (before ++ after).flatMap (toList n) := by
    simp [hempty]
  rw [hlist]
  refine ⟨⟨keys.eraseIdx (min (before.length - 1) (keys.length - 1)), before ++ after,
    (before ++ after).map (size n)⟩, ?_, ⟨?_, rfl⟩, rfl⟩
  · rw [Branch.dropChild, if_neg hkeys, eraseIdx_mid rfl, map_append, map_cons,
      eraseIdx_mid (length_map _), ← map_append]
    rfl
  · show Chain (Inv n) hi lo (keys.eraseIdx _) (before ++ after)
    rcases eq_nil_or_concat before with rfl | ⟨before, left, rfl⟩
    · -- the first child: the next one takes over its interval
      cases h with
      | last _ => exact absurd rfl hkeys
      | cons hnode hrest =>
        obtain ⟨-, k, hk⟩ := hnode
        refine (chain_inv hrest hothers).widen (fun a b a' b' c ha hb hc => hc.widen ha hb) ?_
          le_rfl
        exact hk.lower.trans (WithBot.coe_le_coe.mpr (WithTop.coe_lt_coe.mp hk.upper).le)
    · -- any other child: the one before it takes over its interval
      rw [concat_append] at h
      obtain ⟨keysBefore, sep, keysAfter, lo', hi', rfl, hlenBefore, hleft, ⟨-, k, hk⟩, hcontext⟩ :=
        window_split h
      have hhi : (sep : WithTop κ) ≤ hi' :=
        (WithTop.coe_le_coe.mpr (WithBot.coe_le_coe.mp hk.lower)).trans hk.upper.le
      have hleftInv := (hleft.inv (hothers left (by simp))).widen le_rfl hhi
      have hindex : min ((before ++ [left]).length - 1) ((keysBefore ++ sep :: keysAfter).length - 1) =
          keysBefore.length := by
        simp only [length_append, length_cons, length_nil]
        omega
      rw [concat_eq_append] at hothers ⊢
      rw [hindex, eraseIdx_mid rfl]
      have hchain := chain_inv (hcontext [] [left] (.last hleftInv.slot)) fun child hchild =>
        hothers child (by simpa using hchild)
      simpa using hchain

/-- Repairing a branch that has one weak child. -/
theorem rebalance_spec (hp : p.Sound) :
    ∃ branch : Tree κ ν (n + 1), rebalance p n ⟨keys, before ++ node :: after,
        (before ++ node :: after).map (size n)⟩ before.length = some branch ∧
      Weak (n + 1) lo hi branch ∧
        toList (n + 1) branch = (before ++ node :: after).flatMap (toList n) := by
  have hmany : ¬ (before ++ node :: after).length < 2 := by
    rw [h.length_eq]
    have := length_pos_of_ne_nil hkeys
    omega
  unfold rebalance
  have hcount : ((before ++ node :: after).map (size n))[before.length]? = some (size n node) := by
    rw [map_append, map_cons, getElem?_mid (length_map _)]
  simp only [hcount, getElem?_mid rfl, bind_eq_bind, bind_some]
  by_cases hzero : size n node = 0
  · rw [if_pos hzero]
    exact drop_child_spec h hothers hkeys (eq_nil_of_length_eq_zero hzero)
  rw [if_neg hzero]
  have hne : toList n node ≠ [] := fun hnil => hzero (by rw [size, hnil]; rfl)
  have hstrong : ∀ child ∈ before ++ node :: after, Strong n child ∨ child = node := by
    intro child hchild
    simp only [mem_append, mem_cons] at hchild
    rcases hchild with hchild | rfl | hchild
    · exact .inl (hothers child (mem_append_left _ hchild))
    · exact .inr rfl
    · exact .inl (hothers child (mem_append_right _ hchild))
  by_cases hlow : low p n node = false
  · rw [if_pos (.inr hlow)]
    refine ⟨_, rfl, ⟨chain_inv h fun child hchild => ?_, rfl⟩, rfl⟩
    rcases hstrong child hchild with hchild | rfl
    · exact hchild
    · obtain ⟨hslot, -⟩ := chain_child h
      exact strong_of_not_low hp hslot hne hlow
  rw [if_neg fun hor => hor.elim hmany hlow]
  -- a child is merged with the one before it, and the first child with the next one
  obtain ⟨others, left, right, rest, hchildren, hleft, hstrongOthers, hleftNe, hrightNe⟩ :
      ∃ others left right rest, before ++ node :: after = others ++ left :: right :: rest ∧
        others.length = before.length - 1 ∧ (∀ child ∈ others ++ rest, Strong n child) ∧
        toList n left ≠ [] ∧ toList n right ≠ [] := by
    rcases eq_nil_or_concat before with rfl | ⟨before, left, rfl⟩
    · cases after with
      | nil => exact absurd Nat.one_lt_two hmany
      | cons right after =>
        exact ⟨[], node, right, after, rfl, rfl,
          fun child hchild => hothers child (mem_cons_of_mem _ hchild), hne,
          (hothers right mem_cons_self).1⟩
    · rw [concat_eq_append] at hothers ⊢
      refine ⟨before, left, node, after, by simp, by simp, fun child hchild => ?_,
        (hothers left (by simp)).1, hne⟩
      exact hothers child (by simp only [mem_append] at hchild ⊢; tauto)
  rw [hchildren] at h ⊢
  obtain ⟨sep, merged, split, hsep, heq, hweak, hlist⟩ :=
    merge_window_spec hp h hstrongOthers hleftNe hrightNe
  refine ⟨_, ?_, hweak, hlist⟩
  rw [← hleft]
  simp only [getElem?_mid rfl, getElem?_after rfl, hsep, bind_some, heq]
  rfl

end

/-- What a repair did: it dropped the child, left the branch, or merged two neighbors. -/
inductive Rebalanced (p : Policy κ ν) (n : Nat) (branch : Branch κ (Tree κ ν n)) (i : Nat) :
    Branch κ (Tree κ ν n) → Prop where
  | dropped {branch'} : branch.counts[i]? = some 0 → branch.dropChild i = some branch' →
      Rebalanced p n branch i branch'
  | kept {count child} : branch.counts[i]? = some count → count ≠ 0 →
      branch.children[i]? = some child → branch.children.length < 2 ∨ low p n child = false →
      Rebalanced p n branch i branch
  | merged {count child left right sep node split} : branch.counts[i]? = some count → count ≠ 0 →
      branch.children[i]? = some child → ¬ branch.children.length < 2 → low p n child = true →
      branch.children[i - 1]? = some left → branch.children[i - 1 + 1]? = some right →
      branch.keys[i - 1]? = some sep →
      splitFull p n (merge n left sep right) = some (node, split) →
      Rebalanced p n branch i (branch.afterMerge (i - 1) node split)

omit [LinearOrder κ] in
/-- A repair did one of the three. -/
theorem rebalanced {branch branch' : Branch κ (Tree κ ν n)} {i : Nat}
    (h : rebalance p n branch i = some branch') : Rebalanced p n branch i branch' := by
  obtain ⟨count, hcount, h⟩ := bind_eq_some_iff.mp h
  split_ifs at h with hzero
  · subst hzero
    exact .dropped hcount h
  · obtain ⟨child, hchild, h⟩ := bind_eq_some_iff.mp h
    split_ifs at h with hkeep
    · cases h
      exact .kept hcount hzero hchild hkeep
    · obtain ⟨left, hleft, h⟩ := bind_eq_some_iff.mp h
      obtain ⟨right, hright, h⟩ := bind_eq_some_iff.mp h
      obtain ⟨sep, hsep, h⟩ := bind_eq_some_iff.mp h
      obtain ⟨⟨node, split⟩, hsplit, h⟩ := bind_eq_some_iff.mp h
      cases h
      exact .merged hcount hzero hchild (fun hlt => hkeep (.inl hlt))
        (by simpa using fun hlow => hkeep (.inr hlow)) hleft hright hsep hsplit

/-! ## Removal -/

/-- The parts of a removal below a branch. -/
theorem remove_rec_branch_iff {branch : Branch κ (Tree κ ν n)} {key : κ}
    {value : ν} {tree : Tree κ ν (n + 1)} :
    removeRec p (n + 1) branch key = some (tree, value) ↔
      ∃ below node, branch.children[childIndex branch.keys key]? = some below ∧
        removeRec p n below key = some (node, value) ∧
        rebalance p n (branch.afterRemove (childIndex branch.keys key) node)
          (childIndex branch.keys key) = some tree := by
  constructor
  · intro h
    obtain ⟨below, hbelow, h⟩ := bind_eq_some_iff.mp h
    obtain ⟨⟨node, value'⟩, hnode, h⟩ := bind_eq_some_iff.mp h
    obtain ⟨branch', hbranch, h⟩ := bind_eq_some_iff.mp h
    cases h
    exact ⟨below, node, hbelow, hnode, hbranch⟩
  · rintro ⟨below, node, hbelow, hnode, hbranch⟩
    refine bind_eq_some_iff.mpr ⟨below, hbelow, ?_⟩
    refine bind_eq_some_iff.mpr ⟨_, hnode, ?_⟩
    exact bind_eq_some_iff.mpr ⟨_, hbranch, rfl⟩

/-- Removal below a node of any depth. -/
theorem remove_rec_spec (hp : p.Sound) : ∀ {lo : WithBot κ}
    {hi : WithTop κ} {tree : Tree κ ν n} {key : κ} {value : ν}, Inv n lo hi tree →
    Bounded lo hi key → Entries.get key (toList n tree) = some value →
    ∃ node, removeRec p n tree key = some (node, value) ∧ Weak n lo hi node ∧
      toList n node = erase key (toList n tree) := by
  induction n with
  | zero =>
    intro lo hi leaf key value h _ hget
    obtain ⟨entries, rfl, -, hsorted, hbounded⟩ := inv_leaf_iff.mp h
    rw [toList_ofEntries] at hget ⊢
    refine ⟨_, remove_leaf_eq hsorted hget, ?_, toList_ofEntries _⟩
    exact weak_leaf_iff.mpr ⟨_, rfl, sorted_erase hsorted key,
      fun e he => hbounded e (mem_of_mem_erase he)⟩
  | succ n ih =>
    intro lo hi branch key value h hkey hget
    obtain ⟨keys, children, counts⟩ := branch
    obtain ⟨before, below, after, rfl, hlen, hbelow, hbefore, hafter, hrouted⟩ := routed_split h.1 key
    obtain rfl : counts = (before ++ below :: after).map (size n) := h.2.1
    have hcontents : toList (n + 1) (⟨keys, before ++ below :: after,
        (before ++ below :: after).map (size n)⟩ : Branch κ (Tree κ ν n)) =
        before.flatMap (toList n) ++ (toList n below ++ after.flatMap (toList n)) := by
      show (before ++ below :: after).flatMap (toList n) = _
      rw [flatMap_append, flatMap_cons]
    have hkeyBelow := childIndex_bounded keys hkey
    rw [← hlen] at hkeyBelow
    replace hget := hrouted.symm.trans hget
    obtain ⟨node, heq, hweak, hlist⟩ := ih hbelow hkeyBelow hget
    obtain ⟨-, hcontext⟩ := chain_child (h.1.mono fun _ _ _ _ hinv => hinv.slot)
    have hchain := hcontext [] [node] (.last ⟨hweak, key, hkeyBelow⟩)
    rw [nil_append, take_append_drop, singleton_append] at hchain
    have hothers : ∀ child ∈ before ++ after, Strong n child := by
      intro child hchild
      obtain ⟨a, b, hinv⟩ := h.1.forall_mem child (by
        show child ∈ before ++ below :: after
        rw [mem_append] at hchild
        rw [mem_append, mem_cons]
        tauto)
      exact hinv.strong
    have hkeys : keys ≠ [] := by
      have hlength : (before ++ below :: after).length = keys.length + 1 := h.1.length_eq
      have hmany : 2 ≤ (before ++ below :: after).length := h.2.2
      refine ne_nil_of_length_pos ?_
      omega
    obtain ⟨branch, heqBranch, hweakBranch, hlistBranch⟩ := rebalance_spec hchain hothers hkeys hp
    have hafterRemove : Branch.afterRemove ⟨keys, before ++ below :: after,
        (before ++ below :: after).map (size n)⟩ before.length node =
        ⟨keys, before ++ node :: after, (before ++ node :: after).map (size n)⟩ := by
      have hsize : size n node = size n below - 1 := by
        have := length_erase hget
        rw [size, size, hlist]
        omega
      simp only [Branch.afterRemove, map_append, map_cons]
      rw [set_mid rfl, modify_mid (length_map _), hsize]
    refine ⟨branch, ?_, hweakBranch, ?_⟩
    · simp only [removeRec, ← hlen, getElem?_mid rfl, bind_eq_bind, bind_some, heq,
        hafterRemove, heqBranch]
      rfl
    · rw [hlistBranch, hcontents, erase_append_right hbefore,
        erase_append_left hafter, ← hlist, flatMap_append, flatMap_cons]

/-- A weak root becomes a whole tree. -/
theorem collapse_spec : ∀ {tree : Tree κ ν n}, Weak n ⊥ ⊤ tree →
    RootInv (collapse n tree) ∧ contents (collapse n tree) = toList n tree := by
  induction n with
  | zero =>
    intro leaf h
    obtain ⟨entries, rfl, hsorted, hbounded⟩ := weak_leaf_iff.mp h
    rw [toList_ofEntries]
    cases entries with
    | nil => exact ⟨fun n tree htree => (by cases htree), rfl⟩
    | cons first rest =>
      refine ⟨fun n tree htree => ?_, toList_ofEntries _⟩
      cases htree
      exact inv_leaf_iff.mpr ⟨_, rfl, cons_ne_nil _ _, hsorted, hbounded⟩
  | succ n ih =>
    intro branch h
    obtain ⟨keys, children, counts⟩ := branch
    have hlen : children.length = keys.length + 1 := h.1.length_eq
    match children, hlen, h with
    | [child], _, h =>
      have hchain : Chain (Inv n) ⊤ ⊥ keys [child] := h.1
      have hinv : Inv n ⊥ ⊤ child := by
        cases hchain with
        | last hlast => exact hlast
        | cons _ hrest => cases hrest
      obtain ⟨hroot, hcontents⟩ := ih hinv.weak
      refine ⟨hroot, hcontents.trans ?_⟩
      show toList n child = [child].flatMap (toList n)
      simp
    | first :: second :: rest, hlen, h =>
      refine ⟨fun m tree htree => ?_, rfl⟩
      cases htree
      exact ⟨h.1, h.2, by simp⟩

/-- What a removal does to a whole tree. -/
theorem remove_spec (hp : p.Sound) {root : Root κ ν} (h : RootInv root) (key : κ) :
    ∃ root', remove p root key = some (root', Entries.get key (contents root)) ∧
      RootInv root' ∧ contents root' = erase key (contents root) := by
  have hget := get_spec h key
  unfold remove
  cases hvalue : Entries.get key (contents root) with
  | none =>
    rw [hget, hvalue]
    exact ⟨root, rfl, h, (erase_of_get_eq_none hvalue).symm⟩
  | some value =>
    rcases root with _ | ⟨n, tree⟩
    · cases hvalue
    · have hkey : Bounded ⊥ ⊤ key := ⟨bot_le, WithTop.coe_lt_top key⟩
      obtain ⟨node, heq, hweak, hlist⟩ := remove_rec_spec hp (h n tree rfl) hkey hvalue
      obtain ⟨hinv, hcontents⟩ := collapse_spec hweak
      rw [hget, hvalue]
      exact ⟨collapse n node, by simp only [heq, map_some], hinv, hcontents.trans hlist⟩

end FerricStore.BPlusTree
