import FerricStore.Lib.BPlusTree.Insert

/-!
# Reading a counted B+ tree

Lookups, ranks and ranges of positions give what the entries of the tree give. A lookup and a rank
follow the one child that a key is routed to; a range walks over the children, skips the ones
before it by their counts, and stops at the first one behind it.
-/

namespace FerricStore.BPlusTree

open Entries List

variable {κ ν β : Type} [LinearOrder κ]

section

variable {entries : List (κ × ν)} (hsorted : Entries.Sorted entries) (key : κ)
include hsorted

/-- A lookup in a leaf is a lookup in its entries. -/
theorem get_leaf_eq : getLeaf (Leaf.ofEntries entries) key = Entries.get key entries := by
  obtain ⟨before, after, rfl, hlen, hbefore, hcases⟩ := position_cases hsorted key
  have hkeysLen := hlen Prod.fst
  have hvaluesLen := hlen Prod.snd
  unfold getLeaf
  simp only [Leaf.ofEntries]
  rw [get_append_right hbefore]
  rcases hcases with ⟨value, rest, rfl⟩ | hafter
  · rw [Entries.get, if_pos rfl]
    simp only [map_append, map_cons] at hkeysLen hvaluesLen ⊢
    rw [getElem?_mid hkeysLen, if_pos rfl, getElem?_mid hvaluesLen]
  · rw [get_eq_none fun e he => (hafter e he).ne']
    exact if_neg (getElem?_absent hkeysLen fun e he => (hafter e he).ne')

/-- The place of a key in a leaf is its rank. -/
theorem position_eq_rank : position (entries.map Prod.fst) key = Entries.rank key entries := by
  obtain ⟨before, after, hentries, hlen, hbefore, hafter⟩ := position_split hsorted key
  have hzero : Entries.rank key after = 0 := rank_append_left hafter []
  rw [← hlen, hentries, rank_append_right hbefore, hzero, Nat.add_zero]

end

variable {n : Nat}

/-- A lookup below a node. -/
theorem get_rec_spec : ∀ {lo : WithBot κ} {hi : WithTop κ} {tree : Tree κ ν n}
    (key : κ), Inv n lo hi tree → getRec n tree key = Entries.get key (toList n tree) := by
  induction n with
  | zero =>
    intro lo hi leaf key h
    obtain ⟨entries, rfl, -, hsorted, -⟩ := inv_leaf_iff.mp h
    rw [toList_ofEntries]
    exact get_leaf_eq hsorted key
  | succ n ih =>
    intro lo hi branch key h
    obtain ⟨keys, children, counts⟩ := branch
    obtain ⟨before, below, after, rfl, hlen, hbelow, -, -, hget⟩ := routed_split h.1 key
    show ((before ++ below :: after)[childIndex keys key]?).bind _ =
      Entries.get key ((before ++ below :: after).flatMap (toList n))
    rw [getElem?_mid hlen, Option.bind_some, ih key hbelow, hget]

/-- A rank below a node. -/
theorem rank_rec_spec : ∀ {lo : WithBot κ} {hi : WithTop κ} {tree : Tree κ ν n}
    (key : κ), Inv n lo hi tree → rankRec n tree key = Entries.rank key (toList n tree) := by
  induction n with
  | zero =>
    intro lo hi leaf key h
    obtain ⟨entries, rfl, -, hsorted, -⟩ := inv_leaf_iff.mp h
    rw [toList_ofEntries]
    exact position_eq_rank hsorted key
  | succ n ih =>
    intro lo hi branch key h
    obtain ⟨keys, children, counts⟩ := branch
    obtain ⟨before, below, after, rfl, hlen, hbelow, hbefore, hafter, -⟩ := routed_split h.1 key
    obtain rfl : counts = (before ++ below :: after).map (size n) := h.2.1
    show (((before ++ below :: after).map (size n)).take (childIndex keys key)).sum +
        (((before ++ below :: after)[childIndex keys key]?).elim 0 _) =
      Entries.rank key ((before ++ below :: after).flatMap (toList n))
    rw [getElem?_mid hlen, ← hlen, ← map_take, take_left, sum_sizes, Option.elim_some,
      ih key hbelow, flatMap_append, flatMap_cons, rank_append_right hbefore,
      rank_append_left fun e he => (hafter e he).le]

omit [LinearOrder κ] in
/-- The walk over children reads the range of positions of their entries together. -/
theorem range_children_eq (entries : β → List (κ × ν)) (read : β → Nat → Nat → List (κ × ν))
    (start stop : Nat) (children : List β) (offset : Nat)
    (hread : ∀ child ∈ children, ∀ s e, read child s e = ((entries child).take e).drop s) :
    rangeChildren read start stop offset
        (children.zip (children.map fun child => (entries child).length)) =
      ((children.flatMap entries).take (stop - offset)).drop (start - offset) := by
  induction children generalizing offset with
  | nil => simp [rangeChildren]
  | cons child children ih =>
    rw [map_cons, zip_cons_cons, rangeChildren, flatMap_cons]
    by_cases hstop : stop ≤ offset
    · rw [if_pos hstop, Nat.sub_eq_zero_of_le hstop, take_zero, drop_nil]
    · rw [if_neg hstop, ih (offset + (entries child).length)
        (forall_mem_cons.mp hread).2, hread child mem_cons_self,
        take_append, drop_append, length_take, Nat.sub_sub, Nat.sub_sub]
      congr 1
      · by_cases hstart : start < offset + (entries child).length
        · rw [if_pos hstart, ← take_take, take_length]
        · rw [if_neg hstart, drop_of_length_le]
          rw [length_take]
          omega
      · by_cases hshort : stop ≤ offset + (entries child).length
        · rw [Nat.sub_eq_zero_of_le hshort, take_zero, drop_nil, drop_nil]
        · rw [Nat.min_eq_right (by omega)]

omit [LinearOrder κ] in
/-- A walk over children is a walk over what they stand for. -/
theorem range_children_map {γ : Type} (f : γ → β) (read : β → Nat → Nat → List (κ × ν))
    (start stop : Nat) (children : List γ) (counts : List Nat) (offset : Nat) :
    rangeChildren read start stop offset ((children.map f).zip counts) =
      rangeChildren (fun child => read (f child)) start stop offset (children.zip counts) := by
  induction children generalizing counts offset with
  | nil => rfl
  | cons child children ih =>
    cases counts with
    | nil => rfl
    | cons count counts =>
      rw [map_cons, zip_cons_cons, zip_cons_cons, rangeChildren, rangeChildren, ih]

/-- A tree has more keys than levels below its root: each branch has two children at least. -/
theorem Inv.depth_lt_size : ∀ {lo : WithBot κ} {hi : WithTop κ} {tree : Tree κ ν n},
    Inv n lo hi tree → n < size n tree := by
  induction n with
  | zero =>
    intro lo hi leaf h
    exact length_pos_of_ne_nil ((Inv.confined κ ν 0).1 _ _ _ h).1
  | succ n ih =>
    intro lo hi branch h
    obtain ⟨keys, children, counts⟩ := branch
    have hinv : ∀ child ∈ children, ∃ a b, Inv n a b child := h.1.forall_mem
    have hmany : 2 ≤ children.length := h.2.2
    obtain ⟨first, second, rest, rfl⟩ : ∃ first second rest, children = first :: second :: rest := by
      match children, hmany with
      | first :: second :: rest, _ => exact ⟨first, second, rest, rfl⟩
    obtain ⟨_, _, hfirst⟩ := hinv first mem_cons_self
    obtain ⟨_, _, hsecond⟩ := hinv second (mem_cons_of_mem _ mem_cons_self)
    have hsize : size (n + 1) (⟨keys, first :: second :: rest, counts⟩ : Branch κ (Tree κ ν n)) =
        size n first + (size n second + (rest.flatMap (toList n)).length) := by
      show ((first :: second :: rest).flatMap (toList n)).length = _
      rw [flatMap_cons, flatMap_cons, length_append, length_append]
      rfl
    have hfirstSize := ih hfirst
    have hsecondSize := ih hsecond
    omega

/-- A range of positions below a node. -/
theorem range_rec_spec : ∀ {lo : WithBot κ} {hi : WithTop κ} {tree : Tree κ ν n}
    (start stop : Nat), Inv n lo hi tree →
    rangeRec n tree start stop = ((toList n tree).take stop).drop start := by
  induction n with
  | zero =>
    intro lo hi leaf start stop _
    rfl
  | succ n ih =>
    intro lo hi branch start stop h
    obtain ⟨keys, children, counts⟩ := branch
    obtain rfl : counts = children.map (size n) := h.2.1
    have hinv : ∀ child ∈ children, ∃ a b, Inv n a b child := h.1.forall_mem
    exact range_children_eq (toList n) _ start stop children 0 fun child hchild s e => by
      obtain ⟨a, b, hchildInv⟩ := hinv child hchild
      exact ih s e hchildInv

variable {root : Root κ ν}

/-- A lookup in a whole tree. -/
theorem get_spec (h : RootInv root) (key : κ) : get root key = Entries.get key (contents root) := by
  rcases root with _ | ⟨n, tree⟩
  · rfl
  · exact get_rec_spec key (h n tree rfl)

/-- A rank in a whole tree. -/
theorem rank_spec (h : RootInv root) (key : κ) :
    rank root key = Entries.rank key (contents root) := by
  rcases root with _ | ⟨n, tree⟩
  · rfl
  · exact rank_rec_spec key (h n tree rfl)

/-- A range of positions of a whole tree. -/
theorem range_spec (h : RootInv root) (start stop : Nat) :
    range root start stop = Entries.range start stop (contents root) := by
  rw [range, Entries.range, ← drop_take]
  split_ifs with hlt
  · rcases root with _ | ⟨n, tree⟩
    · show [] = ([].take stop).drop start
      rw [take_nil, drop_nil]
    · exact range_rec_spec start stop (h n tree rfl)
  · rw [drop_of_length_le]
    rw [length_take]
    omega

end FerricStore.BPlusTree
