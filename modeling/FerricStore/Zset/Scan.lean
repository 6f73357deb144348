import FerricStore.Zset.Refinement

/-!
# Cursor scans

`scan` of `ops.rs` returns a few members after a cursor, in the order of their bytes, and the cursor
to go on from. Writes may be committed between the calls, so each call of a `Scan` sees members of its
own. A call returns exactly the members from its cursor up to the next one (`scan_returned`), whatever
became of the member that the cursor names; a whole scan is then in order and misses no member that
was there all the time.
-/

namespace FerricStore.Zset

open List

/-! ## The scan -/

/-- A member with its score. -/
abbrev Entry := Bytes × Float64

/-- Members with their scores, in the order of their bytes. -/
abbrev Members := SortedMap Bytes Float64

/-- A score as a value of either tree. -/
def scoreValue (score : Float64) : Bytes := leBytes 8 score.bits.toNat

def decodeScoreValue (value : Bytes) : Result Float64 :=
  if value.length = 8 then .ok ⟨UInt64.ofNat (leNat value)⟩ else .error .notAScore

def scoreEntry (raw : Bytes × Bytes) : Result Entry :=
  if raw.1.length < 8 then .error .shortScoreKey
  else do return (raw.1.drop 8, ← decodeScoreValue raw.2)

def memberEntry (raw : Bytes × Bytes) : Result Entry := do
  return (raw.1, ← decodeScoreValue raw.2)

/-- The first key after a key. -/
def withZero (key : Bytes) : Bytes := key ++ [0]

namespace Tx

/-- The entries at the positions from `start` up to `stop`, reversed when `rev`. -/
def entries (tx : Tx) (tree : Tree) (start stop : Nat) (rev : Bool) : Result (List Entry) := do
  let raw ← tx.range tree start stop
  let out ← raw.mapM (match tree with
    | .score => scoreEntry
    | .member => memberEntry)
  return if rev then out.reverse else out

/-- The position of the first member after a cursor. -/
def scanStart (tx : Tx) : Option Bytes → Result Nat
  | some member => tx.rank .member (withZero member)
  | none => .ok 0

/-- Up to `count` members after `after` in member order, and the cursor to continue from when more
remain. The sum of `u64` numbers saturates. -/
def scan (tx : Tx) (after : Option Bytes) (count : Nat) : Result (List Entry × Option Bytes) := do
  let start ← tx.scanStart after
  let stop := min (min (start + count) (2 ^ 64 - 1)) tx.count
  let entries ← tx.entries .member start stop false
  return (entries, if stop < tx.count then entries.getLast?.map Prod.fst else none)

/-- The member tree holds members with their scores, and `count`, a `u64`, is their number. -/
structure HoldsMembers (tx : Tx) (members : Members) : Prop where
  tree : ∃ map, tx.HoldsMap .member map ∧
    map.entries = members.entries.map fun e => (e.1, scoreValue e.2)
  count_eq : tx.count = members.entries.length
  count_lt : tx.count < 2 ^ 64

end Tx

/-- The calls of a scan from a cursor on, each with the members that it saw and the entries that it
returned. -/
inductive Scan : Option Bytes → List (Members × List Entry) → Prop
  | last {tx : Tx} {members : Members} {after : Option Bytes} {count : Nat}
      {out : List Entry} (holds : tx.HoldsMembers members) (positive : 1 ≤ count)
      (returned : tx.scan after count = .ok (out, none)) : Scan after [(members, out)]
  | more {tx : Tx} {members : Members} {after : Option Bytes} {count : Nat}
      {out : List Entry} {cursor : Bytes} {calls : List (Members × List Entry)}
      (holds : tx.HoldsMembers members) (positive : 1 ≤ count)
      (returned : tx.scan after count = .ok (out, some cursor)) (rest : Scan (some cursor) calls) :
      Scan after ((members, out) :: calls)

/-- The members that a scan returned. -/
def returnedMembers (calls : List (Members × List Entry)) : List Bytes :=
  calls.flatMap fun call => call.2.map Prod.fst

/-- Is a member after a cursor? -/
def isAfter (after : Option Bytes) (member : Bytes) : Bool := after.all fun cursor => cursor < member

/-- The entries after a cursor and up to the next one, if there is one. -/
def between (after next : Option Bytes) (entries : List Entry) : List Entry :=
  entries.filter fun e => isAfter after e.1 && next.all fun cursor => e.1 ≤ cursor

variable {tx : Tx} {members : Members} {after next : Option Bytes} {count : Nat}
  {out : List Entry}

/-! ## One call -/

theorem lt_withZero_iff {key member : Bytes} : key < withZero member ↔ key ≤ member := by
  unfold withZero
  induction key generalizing member with
  | nil => cases member <;> simp [← not_lt]
  | cons first key ih =>
    cases member with
    | nil => simp [cons_lt_cons_iff]
    | cons first' member =>
      rw [cons_append, cons_lt_cons_iff, ih, ← not_lt, ← not_lt, cons_lt_cons_iff]
      grind

theorem memberEntry_scoreValue (e : Entry) : memberEntry (e.1, scoreValue e.2) = .ok e := by
  have hlt : e.2.bits.toNat < 256 ^ 8 := e.2.bits.toNat_lt
  rw [memberEntry, decodeScoreValue, scoreValue, if_pos (by simp), leNat_leBytes 8 hlt,
    UInt64.ofNat_toNat]
  rfl

theorem entries_eq (h : tx.HoldsMembers members) (start stop : Nat) :
    tx.entries .member start stop false = .ok (Entries.range start stop members.entries) := by
  obtain ⟨map, hmap, hentries⟩ := h.tree
  have hrange : map.range start stop =
      (Entries.range start stop members.entries).map fun e => (e.1, scoreValue e.2) := by
    rw [SortedMap.range, hentries, Entries.range, Entries.range, ← map_drop, ← map_take]
  unfold Tx.entries
  rw [hmap.reads.2.2, ok_bind, hrange, mapM_of_forall₂, ok_bind]
  · rfl
  · rw [forall₂_map_left_iff]
    exact forall₂_same.mpr fun e _ => memberEntry_scoreValue e

/-- The first position of a call splits the entries at its cursor. -/
theorem scanStart_spec (h : tx.HoldsMembers members) (after : Option Bytes) :
    ∃ before rest, members.entries = before ++ rest ∧ tx.scanStart after = .ok before.length ∧
      (∀ e ∈ before, isAfter after e.1 = false) ∧ ∀ e ∈ rest, isAfter after e.1 = true := by
  cases after with
  | none => exact ⟨[], _, rfl, rfl, nofun, fun _ _ => rfl⟩
  | some member =>
    obtain ⟨map, hmap, hmapEntries⟩ := h.tree
    obtain ⟨before, rest, hentries, hlen, hbefore, hrest⟩ :=
      BPlusTree.position_split members.sorted (withZero member)
    refine ⟨before, rest, hentries, ?_, fun e he => ?_, fun e he => ?_⟩
    · rw [hlen, BPlusTree.position_eq_rank members.sorted]
      rw [Tx.scanStart, hmap.reads.2.1, SortedMap.rank, hmapEntries, Entries.rank, countP_map]
      rfl
    · exact decide_eq_false (not_lt.mpr (lt_withZero_iff.mp (hbefore e he)))
    · exact decide_eq_true (not_le.mp fun hle => not_lt.mpr (hrest e he) (lt_withZero_iff.mpr hle))

theorem between_eq {before later : List Entry} (hbefore : ∀ e ∈ before, isAfter after e.1 = false)
    (hout : ∀ e ∈ out, isAfter after e.1 = true ∧ next.all (fun cursor => e.1 ≤ cursor) = true)
    (hlater : ∀ e ∈ later, next.all (fun cursor => e.1 ≤ cursor) = false) :
    between after next (before ++ (out ++ later)) = out := by
  have hnone : ∀ {l : List Entry}, (∀ e ∈ l, isAfter after e.1 = false ∨
      next.all (fun cursor => e.1 ≤ cursor) = false) → between after next l = [] := fun h =>
    filter_eq_nil_iff.mpr fun e he => by obtain h | h := h e he <;> simp [h]
  have hself : between after next out = out :=
    filter_eq_self.mpr fun e he => by rw [(hout e he).1, (hout e he).2]; rfl
  rw [between, filter_append, filter_append, ← between, ← between, ← between, hself,
    hnone fun e he => .inl (hbefore e he), hnone fun e he => .inr (hlater e he), nil_append,
    append_nil]

/-- A call returns the entries between its cursor and the next one, and that one is among them. -/
theorem scan_spec (h : tx.HoldsMembers members) (hcount : 1 ≤ count) (after : Option Bytes) :
    ∃ out next, tx.scan after count = .ok (out, next) ∧ between after next members.entries = out ∧
      ∀ cursor ∈ next, ∃ e ∈ out, e.1 = cursor := by
  obtain ⟨before, rest, hentries, hstart, hbefore, hrest⟩ := scanStart_spec h after
  have hlen : tx.count = before.length + rest.length := by
    rw [h.count_eq, hentries, length_append]
  have hstop : min (min (before.length + count) (2 ^ 64 - 1)) tx.count =
      before.length + min count rest.length := by
    have := h.count_lt
    omega
  have hscan : tx.scan after count = .ok (rest.take count,
      if count < rest.length then (rest.take count).getLast?.map Prod.fst else none) := by
    rw [Tx.scan, hstart, ok_bind]
    dsimp only
    rw [hstop, entries_eq h, ok_bind, Entries.range, hentries, drop_left, Nat.add_sub_cancel_left,
      take_eq_take_min.symm]
    simp only [hlen, Nat.add_lt_add_iff_left, min_lt_iff, lt_irrefl, or_false]
    rfl
  by_cases hmore : count < rest.length
  · obtain ⟨front, e, hfront⟩ := eq_nil_or_concat (rest.take count) |>.resolve_left fun hnil => by
      grind
    rw [concat_eq_append] at hfront
    have hsplit : rest = front ++ [e] ++ rest.drop count := by rw [← hfront, take_append_drop]
    have hsorted := members.sorted
    rw [hentries, Entries.sorted_append, hsplit, Entries.sorted_append, Entries.sorted_append]
      at hsorted
    obtain ⟨-, ⟨⟨-, -, hlast⟩, -, hlater⟩, -⟩ := hsorted
    rw [if_pos hmore, hfront, getLast?_concat] at hscan
    refine ⟨_, _, hscan, ?_, fun cursor hcursor => ⟨e, by simp, Option.some.inj hcursor⟩⟩
    rw [hentries, hsplit]
    refine between_eq hbefore (fun f hf => ⟨hrest f (hsplit ▸ mem_append_left _ hf), ?_⟩)
      fun f hf => decide_eq_false (not_le.mpr (hlater e (by simp) f hf))
    obtain hf | hf := mem_append.mp hf
    · exact decide_eq_true (hlast f hf e mem_cons_self).le
    · exact decide_eq_true (mem_singleton.mp hf ▸ le_rfl)
  · rw [if_neg hmore, take_of_length_le (not_lt.mp hmore)] at hscan
    refine ⟨_, _, hscan, ?_, by simp⟩
    have heq : between after none (before ++ (rest ++ [])) = rest :=
      between_eq hbefore (fun e he => ⟨hrest e he, rfl⟩) (by simp)
    rwa [append_nil, ← hentries] at heq

theorem scan_returned (h : tx.HoldsMembers members) (hcount : 1 ≤ count)
    (hscan : tx.scan after count = .ok (out, next)) :
    between after next members.entries = out ∧ ∀ cursor ∈ next, ∃ e ∈ out, e.1 = cursor := by
  obtain ⟨out', next', hscan', hspec⟩ := scan_spec h hcount after
  cases hscan.symm.trans hscan'
  exact hspec

theorem mem_between {entries : List Entry} {e : Entry} : e ∈ between after next entries ↔
    e ∈ entries ∧ isAfter after e.1 = true ∧ ∀ cursor ∈ next, e.1 ≤ cursor := by
  cases next <;> simp [between]

/-! ## Whole scans -/

/-- What is after a later cursor is after an earlier one. -/
theorem isAfter_of_lt {cursor member : Bytes} (h : isAfter after cursor = true)
    (hlt : cursor < member) : isAfter after member = true := by
  cases after with
  | none => rfl
  | some first => exact decide_eq_true (lt_trans (of_decide_eq_true h) hlt)

variable {calls : List (Members × List Entry)}

theorem Scan.sorted (h : Scan after calls) : (returnedMembers calls).Pairwise (· < ·) ∧
    ∀ member ∈ returnedMembers calls, isAfter after member = true := by
  induction h with
  | @last _ members _ _ _ holds positive returned =>
    obtain ⟨rfl, -⟩ := scan_returned holds positive returned
    rw [returnedMembers, flatMap_singleton]
    exact ⟨pairwise_map.mpr (members.sorted.filter _),
      forall_mem_map.mpr fun e he => (mem_between.mp he).2.1⟩
  | @more _ members _ _ _ _ calls holds positive returned rest ih =>
    obtain ⟨rfl, hcursor⟩ := scan_returned holds positive returned
    obtain ⟨e, he, rfl⟩ := hcursor _ rfl
    have hlater : ∀ member ∈ returnedMembers calls, e.1 < member := fun member hmember =>
      of_decide_eq_true (ih.2 member hmember)
    rw [returnedMembers, flatMap_cons, pairwise_append]
    refine ⟨⟨pairwise_map.mpr (members.sorted.filter _), ih.1, forall_mem_map.mpr
      fun f hf member hm => ?_⟩, fun member hm => ?_⟩
    · exact lt_of_le_of_lt ((mem_between.mp hf).2.2 _ rfl) (hlater member hm)
    · obtain hm | hm := mem_append.mp hm
      · obtain ⟨f, hf, rfl⟩ := mem_map.mp hm
        exact (mem_between.mp hf).2.1
      · exact isAfter_of_lt (mem_between.mp he).2.1 (hlater member hm)

/-- Every call returns what is there, and all of it together what is there at all calls. -/
theorem Scan.complete (h : Scan after calls) :
    (∀ call ∈ calls, ∀ e ∈ call.2, call.1.get e.1 = some e.2) ∧
      ∀ member, isAfter after member = true → (∀ call ∈ calls, (call.1.get member).isSome) →
        member ∈ returnedMembers calls := by
  induction h with
  | last holds positive returned =>
    obtain ⟨rfl, -⟩ := scan_returned holds positive returned
    refine ⟨forall_mem_singleton.mpr fun e he => ?_, fun member hafter hpresent => ?_⟩
    · exact SortedMap.get_eq_some_iff.mpr (mem_between.mp he).1
    · obtain ⟨score, hscore⟩ := Option.isSome_iff_exists.mp (hpresent _ mem_cons_self)
      rw [returnedMembers, flatMap_singleton]
      exact mem_map_of_mem (mem_between.mpr ⟨SortedMap.get_eq_some_iff.mp hscore, hafter, by simp⟩)
  | @more _ _ _ _ _ cursor _ holds positive returned rest ih =>
    obtain ⟨rfl, -⟩ := scan_returned holds positive returned
    refine ⟨forall_mem_cons.mpr ⟨fun e he => ?_, ih.1⟩, fun member hafter hpresent => ?_⟩
    · exact SortedMap.get_eq_some_iff.mpr (mem_between.mp he).1
    · obtain ⟨hhere, hpresent⟩ := forall_mem_cons.mp hpresent
      obtain ⟨score, hscore⟩ := Option.isSome_iff_exists.mp hhere
      rw [returnedMembers, flatMap_cons, mem_append]
      obtain hle | hlt := le_or_gt member cursor
      · refine .inl (mem_map_of_mem (mem_between.mpr
          ⟨SortedMap.get_eq_some_iff.mp hscore, hafter, fun other hother => ?_⟩))
        exact Option.some.inj hother ▸ hle
      · exact .inr (ih.2 member (decide_eq_true hlt) hpresent)

/-- The entries after the next cursor are fewer. -/
theorem unseen_decreases (h : tx.HoldsMembers members) (hcount : 1 ≤ count) {cursor : Bytes}
    (hscan : tx.scan after count = .ok (out, some cursor)) :
    (between (some cursor) none members.entries).length <
      (between after none members.entries).length := by
  obtain ⟨rfl, hcursor⟩ := scan_returned h hcount hscan
  obtain ⟨e, he, rfl⟩ := hcursor _ rfl
  obtain ⟨hmem, hafter, -⟩ := mem_between.mp he
  have hfilter : between (some e.1) none members.entries =
      (between after none members.entries).filter fun f => isAfter (some e.1) f.1 := by
    rw [between, between, filter_filter]
    refine filter_congr fun f _ => ?_
    have hlater : e.1 < f.1 → isAfter after f.1 = true := isAfter_of_lt hafter
    grind [isAfter]
  rw [hfilter, length_filter_lt_length_iff_exists]
  exact ⟨e, mem_between.mpr ⟨hmem, hafter, by simp⟩, by simp [isAfter]⟩

theorem scan_ends {txs : Nat → Tx} {cursors : Nat → Option Bytes} {counts : Nat → Nat}
    (hcount : ∀ n, 1 ≤ counts n)
    (hscan : ∀ n, ∃ out, (txs n).scan (cursors n) (counts n) = .ok (out, cursors (n + 1)))
    (hholds : ∀ n, (txs n).HoldsMembers members) : ∃ n, cursors (n + 1) = none := by
  by_contra hnever
  push Not at hnever
  have hbound : ∀ n, n + (between (cursors n) none members.entries).length ≤
      (between (cursors 0) none members.entries).length := by
    intro n
    induction n with
    | zero => omega
    | succ n ih =>
      obtain ⟨cursor, hcursor⟩ := Option.ne_none_iff_exists'.mp (hnever n)
      obtain ⟨out, hout⟩ := hscan n
      have := unseen_decreases (hholds n) (hcount n) (hcursor ▸ hout)
      rw [hcursor]
      omega
  have := hbound ((between (cursors 0) none members.entries).length + 1)
  omega

/-- A scan whose calls each see members of their own, as writes between them leave them, returns
members in strictly increasing order, each as it was at its call, and every member that all calls saw
exactly once. Every call answers, and once the calls see the same members the scan ends. -/
theorem scan_complete : (∀ calls, Scan none calls → (returnedMembers calls).Pairwise (· < ·) ∧
      (∀ call ∈ calls, ∀ e ∈ call.2, call.1.get e.1 = some e.2) ∧
      ∀ member, (∀ call ∈ calls, (call.1.get member).isSome) →
        (returnedMembers calls).count member = 1) ∧
    (∀ (tx : Tx) members after count, tx.HoldsMembers members → 1 ≤ count →
      ∃ answer, tx.scan after count = .ok answer) ∧
    ∀ (txs : Nat → Tx) (cursors : Nat → Option Bytes) (counts : Nat → Nat) members first,
      (∀ n, 1 ≤ counts n) →
      (∀ n, ∃ out, (txs n).scan (cursors n) (counts n) = .ok (out, cursors (n + 1))) →
      (∀ n, first ≤ n → (txs n).HoldsMembers members) → ∃ n, first < n ∧ cursors n = none := by
  refine ⟨fun calls h => ⟨h.sorted.1, h.complete.1, fun member hpresent => ?_⟩,
    fun tx members after count h hcount => ?_,
    fun txs cursors counts members first hcount hscan hholds => ?_⟩
  · have hnodup : (returnedMembers calls).Nodup := h.sorted.1.imp ne_of_lt
    exact count_eq_one_of_mem hnodup (h.complete.2 member rfl hpresent)
  · obtain ⟨out, next, hscan, -⟩ := scan_spec h hcount after
    exact ⟨_, hscan⟩
  · obtain ⟨n, hn⟩ := scan_ends (fun n => hcount (first + n)) (fun n => hscan (first + n))
      (fun n => hholds _ (Nat.le_add_right _ _))
    exact ⟨first + (n + 1), by omega, hn⟩

/-- A transaction whose member tree is one leaf. -/
def Tx.leaf (members : List Entry) : Tx where
  file := Tx.fresh.file
  base := Tx.fresh.base
  nodes := [.leaf ⟨members.map fun e => .new e.1, members.map fun e => scoreValue e.2⟩]
  roots _ := .dirty 0
  count := members.length
  log := []

/-- The leaf holds its members. -/
theorem Tx.leaf_holds {members : Members} (hne : members.entries ≠ [])
    (hcount : members.entries.length < 2 ^ 64) :
    (Tx.leaf members.entries).HoldsMembers members where
  tree := by
    have hsorted : (members.entries.map fun e => (e.1, scoreValue e.2)).Pairwise
        fun a b => a.1 < b.1 := pairwise_map.mpr members.sorted
    refine ⟨⟨_, hsorted⟩, ⟨some ⟨0, ⟨members.entries.map Prod.fst,
      members.entries.map fun e => scoreValue e.2⟩⟩, ⟨⟨_, rfl, trivial⟩, nodup_singleton 0, ?_⟩, ?_,
      ?_⟩, rfl⟩
    · show (⟨(members.entries.map fun e => Key.new e.1).map Key.bytes, _⟩ : BPlusTree.Leaf _ _) = _
      rw [map_map]
      rfl
    · rintro n tree ⟨⟩
      refine ⟨?_, by simpa using hne, pairwise_map.mpr members.sorted,
        fun _ _ => ⟨bot_le, WithTop.coe_lt_top _⟩⟩
      rw [length_map, length_map]
    · exact zip_map'
  count_eq := rfl
  count_lt := hcount

/-- Three members. -/
def threeMembers : Members := ⟨[([1], .zero), ([2], .zero), ([3], .zero)],
  show List.Pairwise _ _ by decide⟩

/-- The first of them removed, the last with another score, and one more added. -/
def changedMembers : Members := ⟨[([2], .zero), ([3], ⟨1⟩), ([4], .zero)],
  show List.Pairwise _ _ by decide⟩

/-- A scan of three members in a first call of two, and of the changed members from its cursor on: the
two members that both calls see are returned once each. -/
theorem scan_complete_single :
    (Tx.leaf threeMembers.entries).scan none 2 = .ok ([([1], .zero), ([2], .zero)], some [2]) ∧
      (Tx.leaf changedMembers.entries).scan (some [2]) 5 = .ok ([([3], ⟨1⟩), ([4], .zero)], none) ∧
      ∀ member ∈ [[2], [3]], (returnedMembers [(threeMembers, [([1], .zero), ([2], .zero)]),
        (changedMembers, [([3], ⟨1⟩), ([4], .zero)])]).count member = 1 := by
  have hfirst : (Tx.leaf threeMembers.entries).scan none 2 =
      .ok ([([1], .zero), ([2], .zero)], some [2]) := by decide +kernel
  have hsecond : (Tx.leaf changedMembers.entries).scan (some [2]) 5 =
      .ok ([([3], ⟨1⟩), ([4], .zero)], none) := by decide +kernel
  obtain ⟨hrun, -⟩ := scan_complete
  obtain ⟨-, -, honce⟩ := hrun _ (.more (Tx.leaf_holds (by decide) (by decide)) (by decide) hfirst
    (.last (Tx.leaf_holds (by decide) (by decide)) (by decide) hsecond))
  refine ⟨hfirst, hsecond, fun member hmember => honce member ?_⟩
  rcases mem_pair.mp hmember with rfl | rfl <;> decide

end FerricStore.Zset
