import FerricStore.Flow.OrderedIndex
import FerricStore.Lib.Kill

/-!
# The structures of the ordered index agree

`Matches` relates the ordered entries to the scores that the table gives, and each operation on
the two changes the scores at one member. `Consistent index pending` adds the counts, which may be
behind the table by `pending`: inside a batch of claims the counts wait for its end. The counts
never reach the limits of their 64 bits as long as the entries fit into an address space of 64
bits, so `index_invariant` holds for every sequence of requests.
-/

namespace FerricStore.Flow

open SortedMap Option FlowOrderedIndex
open Kill (Always runSteps)

/-! ## Entries and scores -/

theorem entryKey_inj {key key' member member' : Bytes} {score score' : Float64}
    (h : entryKey key score member = entryKey key' score' member') :
    key = key' ∧ member = member' := by
  have hpair := toLex_inj.mp h
  obtain ⟨hkey, hrest⟩ := Prod.mk.inj hpair
  obtain ⟨_, hrest⟩ := Prod.mk.inj (toLex_inj.mp hrest)
  exact ⟨hkey, (Prod.mk.inj (toLex_inj.mp hrest)).2⟩

/-- Scores with one member changed. -/
def changed (scores : Bytes → Bytes → Option Float64) (key member : Bytes)
    (score : Option Float64) : Bytes → Bytes → Option Float64 :=
  fun key' member' => if key' = key ∧ member' = member then score else scores key' member'

/-- The ordered entries are those of the scored members, each with the score of its member. -/
structure Matches (ordered : SortedMap EntryKey Float64)
    (scores : Bytes → Bytes → Option Float64) : Prop where
  has_entry : ∀ key member score, scores key member = some score →
    ordered.get (entryKey key score member) = some score
  of_entry : ∀ entry score, ordered.get entry = some score →
    ∃ key member, entry = entryKey key score member ∧ scores key member = some score

namespace Matches

variable {ordered : SortedMap EntryKey Float64} {scores : Bytes → Bytes → Option Float64}
  {key member : Bytes} {score : Float64}

section

variable (h : Matches ordered scores) (habsent : scores key member = none) (score : Float64)
include h habsent

/-- A member without a score has no entry. -/
theorem get_eq_none : ordered.get (entryKey key score member) = none := by
  cases hget : ordered.get (entryKey key score member) with
  | none => rfl
  | some found =>
    obtain ⟨key', member', heq, hscore⟩ := h.of_entry _ _ hget
    obtain ⟨rfl, rfl⟩ := entryKey_inj heq
    rw [habsent] at hscore
    cases hscore

/-- The entry of a new member is added. -/
theorem insert : Matches (ordered.put (entryKey key score member) score)
      (changed scores key member (some score)) := by
  refine ⟨fun key' member' score' hscore => ?_, fun entry score' hget => ?_⟩
  · rw [get_put]
    rw [changed] at hscore
    by_cases hsame : key' = key ∧ member' = member
    · obtain ⟨rfl, rfl⟩ := hsame
      rw [if_pos ⟨rfl, rfl⟩] at hscore
      cases hscore
      rw [if_pos rfl]
    · rw [if_neg hsame] at hscore
      rw [if_neg fun heq => hsame (entryKey_inj heq)]
      exact h.has_entry key' member' score' hscore
  · rw [get_put] at hget
    split_ifs at hget with heq
    · cases hget
      exact ⟨key, member, heq, if_pos ⟨rfl, rfl⟩⟩
    · obtain ⟨key', member', rfl, hscore⟩ := h.of_entry _ _ hget
      refine ⟨key', member', rfl, ?_⟩
      rw [changed, if_neg, hscore]
      rintro ⟨rfl, rfl⟩
      rw [habsent] at hscore
      cases hscore

end

/-- The entry of a member is removed. -/
theorem erase (h : Matches ordered scores) (hscore : scores key member = some score) :
    Matches (ordered.erase (entryKey key score member)) (changed scores key member none) := by
  refine ⟨fun key' member' score' hscore' => ?_, fun entry score' hget => ?_⟩
  · rw [changed] at hscore'
    split_ifs at hscore' with hsame
    rw [get_erase, if_neg fun heq => hsame (entryKey_inj heq)]
    exact h.has_entry key' member' score' hscore'
  · rw [get_erase] at hget
    split_ifs at hget with hne
    obtain ⟨key', member', rfl, hscore'⟩ := h.of_entry _ _ hget
    refine ⟨key', member', rfl, ?_⟩
    rw [changed, if_neg, hscore']
    rintro ⟨rfl, rfl⟩
    rw [hscore] at hscore'
    exact hne (by rw [some.inj hscore'])

end Matches

theorem changed_changed (scores : Bytes → Bytes → Option Float64) (key member : Bytes)
    (score score' : Option Float64) :
    changed (changed scores key member score) key member score' =
      changed scores key member score' := by
  funext key' member'
  rw [changed, changed, changed]
  split_ifs <;> rfl

/-! ## The table -/

section

variable (index : FlowOrderedIndex) (key member : Bytes)

/-- The number of members of a key. -/
def memberCount : Nat :=
  (index.lookup.get key).elim 0 size

/-- The members of a key with their scores. -/
def members : SortedMap Bytes Float64 :=
  (index.lookup.get key).getD empty

theorem get_members : (members index key).get member = index.lookupScore key member := by
  rw [members, lookupScore]
  cases index.lookup.get key <;> rfl

theorem size_members (key : Bytes) : (members index key).size = memberCount index key := by
  rw [members, memberCount]
  cases index.lookup.get key <;> rfl

theorem members_insertLookup (score : Float64)
    (key' : Bytes) : members (index.insertLookup key member score) key' =
      if key' = key then (members index key).put member score else members index key' := by
  rw [insertLookup, members, members, members]
  cases index.lookup.get key <;> dsimp only <;> rw [get_put] <;> split_ifs <;> rfl

theorem lookupScore_insertLookup (score : Float64) :
    (index.insertLookup key member score).lookupScore =
      changed index.lookupScore key member (some score) := by
  funext key' member'
  rw [← get_members, members_insertLookup, changed]
  by_cases hkey : key' = key
  · simp [hkey, get_members]
  · rw [if_neg hkey, if_neg fun h => hkey h.1, get_members]

end

variable {index : FlowOrderedIndex} {key member : Bytes}

/-- A new member is counted; one that is replaced is not counted again. -/
theorem memberCount_insertLookup (score : Float64) (key' : Bytes) :
    memberCount (index.insertLookup key member score) key' = memberCount index key' +
      if key' = key ∧ index.lookupScore key member = none then 1 else 0 := by
  rw [← size_members, members_insertLookup]
  by_cases hkey : key' = key
  · rw [if_pos hkey, size_put, get_members, size_members, hkey]
    cases index.lookupScore key member <;> simp
  · rw [if_neg hkey, if_neg fun h => hkey h.1, size_members, Nat.add_zero]

variable {old : Float64}

section

variable {index index' : FlowOrderedIndex} (h : index.removeLookup key member = some (old, index'))
include h

/-- A key that has no more members is dropped, which is as good as having none. -/
theorem members_removeLookup : (members index key).get member = some old ∧
      (∀ key', members index' key' =
        if key' = key then (members index key).erase member else members index key') ∧
      index' = { index with lookup := index'.lookup } := by
  rw [removeLookup] at h
  cases hget : index.lookup.get key with
  | none =>
    rw [hget] at h
    cases h
  | some found =>
    rw [hget] at h
    dsimp only at h
    cases hmember : found.get member with
    | none =>
      rw [hmember] at h
      cases h
    | some score =>
      rw [hmember] at h
      have hmembers : members index key = found := by rw [members, hget, getD_some]
      rw [hmembers]
      split_ifs at h with hempty
      · cases h
        refine ⟨hmember, fun key' => ?_, rfl⟩
        rw [members, get_erase]
        split_ifs
        · ext1 other
          rw [SortedMap.get, SortedMap.get, List.isEmpty_iff.mp hempty]
          rfl
        · rfl
      · cases h
        refine ⟨hmember, fun key' => ?_, rfl⟩
        rw [members, get_put]
        split_ifs <;> rfl

/-- Removing a member from the table. -/
theorem removeLookup_eq_some : index.lookupScore key member = some old ∧
      index'.lookupScore = changed index.lookupScore key member none ∧
      (∀ key', memberCount index' key' + (if key' = key then 1 else 0) = memberCount index key') ∧
      index' = { index with lookup := index'.lookup } := by
  obtain ⟨hold, hmembers, hfields⟩ := members_removeLookup h
  refine ⟨(get_members index key member).symm.trans hold, ?_, fun key' => ?_, hfields⟩
  · funext key' member'
    rw [← get_members, hmembers, changed]
    by_cases hkey : key' = key
    · simp [hkey, get_members]
    · rw [if_neg hkey, if_neg fun h => hkey h.1, get_members]
  · rw [← size_members, ← size_members, hmembers]
    split_ifs with hkey
    · rw [hkey, size_erase hold]
    · rfl

end

/-- A member that is not in the table has no score. -/
theorem removeLookup_eq_none
    (h : index.removeLookup key member = none) : index.lookupScore key member = none := by
  rw [removeLookup] at h
  rw [lookupScore]
  cases hget : index.lookup.get key with
  | none => rfl
  | some members =>
    rw [hget] at h
    dsimp only at h
    cases hmember : members.get member with
    | none => exact hmember
    | some old =>
      rw [hmember] at h
      split_ifs at h

/-! ## Counts -/

variable (pending : Bytes → Int)

/-- An amount per key with one key changed. -/
def shift (key : Bytes) (delta : Int) : Bytes → Int :=
  fun key' => pending key' + if key' = key then delta else 0

theorem shift_shift (key : Bytes) (delta delta' : Int) :
    shift (shift pending key delta) key delta' = shift pending key (delta + delta') := by
  funext key'
  rw [shift, shift, shift]
  split_ifs <;> omega

theorem shift_zero (key : Bytes) : shift pending key 0 = pending := by
  funext key'
  rw [shift]
  split_ifs <;> omega

theorem saturatingAdd_eq {a b : Int} (hlow : -(2 ^ 63) ≤ a + b) (hhigh : a + b < 2 ^ 63) :
    saturatingAdd a b = a + b := by
  rw [saturatingAdd]
  omega

section

variable (index : FlowOrderedIndex) (key : Bytes) (count : Int)

/-- Setting a count changes the count of its key, and nothing but counts and catalogues. -/
theorem count_setCount (key' : Bytes) :
    (index.setCount key count).count key' = if key' = key then count else index.count key' := by
  have hcounts : (index.setCount key count).counts = index.counts.put key count := by
    rw [setCount]
    split_ifs <;> rfl
  rw [FlowOrderedIndex.count, hcounts, get_put]
  split_ifs <;> rfl

theorem ordered_setCount : (index.setCount key count).ordered = index.ordered := by
  rw [setCount]
  split_ifs <;> rfl

theorem lookup_setCount : (index.setCount key count).lookup = index.lookup := by
  rw [setCount]
  split_ifs <;> rfl

end

/-- The catalogues hold the keys with a positive count. -/
structure Catalogued (index : FlowOrderedIndex) : Prop where
  positive : ∀ key, key ∈ index.positiveCountKeys ↔ 0 < index.count key
  due : ∀ key, key ∈ index.positiveDueCountKeys ↔ dueKey key = true ∧ 0 < index.count key

theorem Catalogued.setCount (h : Catalogued index) (key : Bytes)
    (count : Int) : Catalogued (index.setCount key count) := by
  refine ⟨fun key' => ?_, fun key' => ?_⟩
  · rw [count_setCount, FlowOrderedIndex.setCount]
    by_cases hkey : key' = key
    · split_ifs with hpositive <;> simp [hkey, hpositive]
    · rw [if_neg hkey, ← h.positive key']
      split_ifs <;> simp [hkey]
  · rw [count_setCount, FlowOrderedIndex.setCount]
    by_cases hkey : key' = key
    · split_ifs with hpositive hdue <;> simp [*]
    · rw [if_neg hkey, ← h.due key']
      split_ifs <;> simp [hkey]

/-! ## The invariant -/

/-- Entries, table, counts and catalogues agree, with counts that are behind by `pending`. -/
structure Consistent (index : FlowOrderedIndex) (pending : Bytes → Int) : Prop where
  paired : Matches index.ordered index.lookupScore
  counted : ∀ key, index.count key + pending key = memberCount index key
  catalogued : Catalogued index

variable {pending} {score : Float64}

/-- An exact change of a count. -/
theorem Consistent.incrementCount (h : Consistent index pending) (key : Bytes) (delta : Int)
    (hlow : -(2 ^ 63) ≤ index.count key + delta) (hhigh : index.count key + delta < 2 ^ 63) :
    Consistent (index.incrementCount key delta) (shift pending key (-delta)) := by
  rw [FlowOrderedIndex.incrementCount]
  by_cases hzero : delta = 0
  · rw [if_pos hzero, hzero, neg_zero, shift_zero]
    exact h
  · rw [if_neg hzero, saturatingAdd_eq hlow hhigh]
    refine ⟨?_, fun key' => ?_, h.catalogued.setCount key _⟩
    · rw [ordered_setCount]
      unfold lookupScore
      rw [lookup_setCount]
      exact h.paired
    · have hcounted := h.counted key'
      have hmembers : memberCount (index.setCount key (index.count key + delta)) key' =
          memberCount index key' := by
        rw [memberCount, lookup_setCount, memberCount]
      rw [count_setCount, shift, hmembers]
      split_ifs with hkey
      · rw [hkey] at hcounted ⊢
        omega
      · omega

/-- The member count and the scores that an increment leaves alone. -/
theorem memberCount_incrementCount (index : FlowOrderedIndex) (key : Bytes) (delta : Int)
    (key' : Bytes) : memberCount (index.incrementCount key delta) key' = memberCount index key' := by
  rw [incrementCount]
  split_ifs
  · rfl
  · rw [memberCount, lookup_setCount, memberCount]

theorem lookupScore_incrementCount (index : FlowOrderedIndex) (key : Bytes) (delta : Int) :
    (index.incrementCount key delta).lookupScore = index.lookupScore := by
  rw [incrementCount]
  split_ifs
  · rfl
  · unfold lookupScore
    rw [lookup_setCount]

/-- The new entry of a member that has none. -/
theorem insertOrdered_eq (h : Matches index.ordered index.lookupScore)
    (habsent : index.lookupScore key member = none) (score : Float64) :
    index.insertOrdered key score member =
      { index with ordered := index.ordered.put (entryKey key score member) score } := by
  rw [insertOrdered, h.get_eq_none habsent]

/-- Fields of an index after a change of the table. -/
theorem insertLookup_eq (index : FlowOrderedIndex) (key member : Bytes) (score : Float64) :
    index.insertLookup key member score =
      { index with lookup := (index.insertLookup key member score).lookup } := by
  rw [insertLookup]
  split <;> rfl

section

variable (h : Consistent index pending)
include h

/-- A new member is added, and the counts are behind by one. -/
theorem Consistent.insertEntry (habsent : index.lookupScore key member = none) (score : Float64) :
    Consistent (index.insertEntry key member score) (shift pending key 1) := by
  have habsent' : (lookupScore { index with
      ordered := index.ordered.put (entryKey key score member) score } key member) = none := habsent
  rw [FlowOrderedIndex.insertEntry, insertOrdered_eq h.paired habsent]
  refine ⟨?_, fun key' => ?_, ?_⟩
  · rw [lookupScore_insertLookup, insertLookup_eq]
    exact h.paired.insert habsent score
  · have hcounted := h.counted key'
    simp only [memberCount_insertLookup, habsent', and_true]
    rw [insertLookup_eq, shift]
    show index.count key' + _ = ((memberCount index key' + _ : Nat) : Int)
    split_ifs <;> push_cast <;> omega
  · rw [insertLookup_eq]
    exact ⟨h.catalogued.positive, h.catalogued.due⟩

/-- A member leaves, and the counts are ahead by one. -/
theorem Consistent.removeLookup
    {index' : FlowOrderedIndex} (hremove : index.removeLookup key member = some (old, index')) :
    Consistent (index'.removeOrdered key old member) (shift pending key (-1)) := by
  obtain ⟨hold, hscores, hmembers, hfields⟩ := removeLookup_eq_some hremove
  have hordered : index'.ordered = index.ordered := by rw [hfields]
  have hcounts : ∀ key', index'.count key' = index.count key' := fun key' => by
    rw [hfields]
    rfl
  refine ⟨?_, fun key' => ?_, ?_⟩
  · show Matches (index'.ordered.erase _) index'.lookupScore
    rw [hordered, hscores]
    exact h.paired.erase hold
  · have hcounted := h.counted key'
    have hmember := hmembers key'
    show index'.count key' + _ = (memberCount index' key' : Int)
    rw [hcounts, shift]
    split_ifs at hmember ⊢ <;> omega
  · refine ⟨fun key' => ?_, fun key' => ?_⟩
    · show key' ∈ index'.positiveCountKeys ↔ 0 < index'.count key'
      rw [hcounts, ← h.catalogued.positive, hfields]
    · show key' ∈ index'.positiveDueCountKeys ↔ _ ∧ 0 < index'.count key'
      rw [hcounts, ← h.catalogued.due, hfields]

/-- The entry of a member moves to its new score. -/
theorem Consistent.replaceEntry (hold : index.lookupScore key member = some old) (score : Float64) :
    Consistent ((index.removeOrdered key old member).insertEntry key member score) pending := by
  have hmatches := h.paired.erase hold
  have hnone : changed index.lookupScore key member none key member = none := if_pos ⟨rfl, rfl⟩
  have hinsert : (index.removeOrdered key old member).insertOrdered key score member = { index with
        ordered := (index.ordered.erase (entryKey key old member)).put
          (entryKey key score member) score } := by
    unfold FlowOrderedIndex.insertOrdered FlowOrderedIndex.removeOrdered
    rw [hmatches.get_eq_none hnone]
  rw [FlowOrderedIndex.insertEntry, hinsert]
  refine ⟨?_, fun key' => ?_, ?_⟩
  · rw [lookupScore_insertLookup, insertLookup_eq]
    have hput := hmatches.insert hnone score
    rw [changed_changed] at hput
    exact hput
  · have hold' : (lookupScore { index with
        ordered := (index.ordered.erase (entryKey key old member)).put
          (entryKey key score member) score } key member) = some old := hold
    rw [memberCount_insertLookup, hold', if_neg (by simp), insertLookup_eq]
    exact h.counted key'
  · rw [insertLookup_eq]
    exact ⟨h.catalogued.positive, h.catalogued.due⟩

end

/-! ## Operations -/

/-- The structures agree, and every key may get `room` more members. -/
structure Sound (index : FlowOrderedIndex) (room : Nat) : Prop where
  consistent : Consistent index fun _ => 0
  bounded : ∀ key, memberCount index key + room < 2 ^ 62

theorem Sound.weaken {room room' : Nat} (h : Sound index room) (hle : room' ≤ room) :
    Sound index room' :=
  ⟨h.consistent, fun key => by
    have := h.bounded key
    omega⟩

variable {room : Nat}

theorem Sound.count_eq (h : Sound index room) (key : Bytes) :
    index.count key = memberCount index key := by
  have := h.consistent.counted key
  omega

section

variable (index : FlowOrderedIndex) (key member : Bytes) (score : Float64)

/-- The scores after an entry is inserted are those after its row is. -/
theorem memberCount_insertOrdered (key' : Bytes) :
    memberCount (index.insertOrdered key score member) key' = memberCount index key' := by
  rw [insertOrdered]
  split <;> rfl

theorem lookupScore_insertOrdered :
    (index.insertOrdered key score member).lookupScore = index.lookupScore := by
  rw [insertOrdered]
  split <;> rfl

end

theorem memberCount_insertEntry (habsent : index.lookupScore key member = none) (score : Float64)
    (key' : Bytes) :
    memberCount (index.insertEntry key member score) key' =
      memberCount index key' + if key' = key then 1 else 0 := by
  simp [insertEntry, memberCount_insertLookup, lookupScore_insertOrdered, habsent,
    memberCount_insertOrdered]

theorem Sound.put (h : Sound index (room + 1)) (key member : Bytes)
    (score : Float64) (newOnly : Bool) : Sound (index.put key member score newOnly) room := by
  rw [FlowOrderedIndex.put]
  cases hscore : index.lookupScore key member with
  | some old =>
    dsimp only
    split_ifs
    · exact h.weaken (Nat.le_succ room)
    · refine ⟨h.consistent.replaceEntry hscore score, fun key' => ?_⟩
      have hbound := h.bounded key'
      have hold : (index.removeOrdered key old member).lookupScore key member = some old := hscore
      rw [insertEntry, memberCount_insertLookup, lookupScore_insertOrdered, hold, if_neg (by simp),
        memberCount_insertOrdered]
      show memberCount index key' + room < 2 ^ 62
      omega
  | none =>
    have hbound := h.bounded key
    have hcount := h.count_eq key
    have habsent : (index.incrementCount key 1).lookupScore key member = none := by
      rw [lookupScore_incrementCount, hscore]
    refine ⟨?_, fun key' => ?_⟩
    · have hstep := (h.consistent.incrementCount key 1 (by omega) (by omega)).insertEntry
        habsent score
      rwa [shift_shift, neg_add_cancel, shift_zero] at hstep
    · have hbound' := h.bounded key'
      rw [memberCount_insertEntry habsent, memberCount_incrementCount]
      split_ifs <;> omega

theorem Sound.delete (h : Sound index room) (key member : Bytes) :
    Sound (index.delete key member) room := by
  rw [FlowOrderedIndex.delete]
  cases hremove : index.removeLookup key member with
  | none => exact h
  | some removed =>
    obtain ⟨old, index'⟩ := removed
    obtain ⟨_, _, hmembers, hfields⟩ := removeLookup_eq_some hremove
    have hcount : (index'.removeOrdered key old member).count key = index.count key := by
      rw [hfields]
      rfl
    have hbound := h.bounded key
    have hexact := h.count_eq key
    refine ⟨?_, fun key' => ?_⟩
    · have hstep := (h.consistent.removeLookup hremove).incrementCount key (-1)
        (by rw [hcount]; omega) (by rw [hcount]; omega)
      rwa [shift_shift, neg_neg, neg_add_cancel, shift_zero] at hstep
    · have hmember := hmembers key'
      have hbound' := h.bounded key'
      rw [memberCount_incrementCount]
      show memberCount index' key' + room < 2 ^ 62
      omega

/-- A member that was deleted has no score. -/
theorem lookupScore_delete (index : FlowOrderedIndex) (key member : Bytes) :
    (index.delete key member).lookupScore key member = none := by
  rw [delete]
  cases hremove : index.removeLookup key member with
  | none => exact removeLookup_eq_none hremove
  | some removed =>
    obtain ⟨old, index'⟩ := removed
    obtain ⟨_, hscores, _⟩ := removeLookup_eq_some hremove
    rw [lookupScore_incrementCount]
    show index'.lookupScore key member = none
    rw [hscores]
    exact if_pos ⟨rfl, rfl⟩

/-- Removing an entry twice is removing it once. -/
theorem removeOrdered_removeOrdered (index : FlowOrderedIndex) (key member : Bytes)
    (score : Float64) :
    (index.removeOrdered key score member).removeOrdered key score member =
      index.removeOrdered key score member := by
  have herase : (index.ordered.erase (entryKey key score member)).erase
      (entryKey key score member) = index.ordered.erase (entryKey key score member) := by
    ext1 entry
    simp only [get_erase]
    split_ifs <;> rfl
  rw [removeOrdered, removeOrdered, herase]

theorem Sound.moveMember (h : Sound index (room + 1)) (fromKey toKey member : Bytes)
    (score : Float64) : Sound (index.moveMember fromKey toKey member score) room := by
  rw [FlowOrderedIndex.moveMember]
  by_cases hsame : fromKey = toKey
  · subst hsame
    rw [if_pos rfl]
    cases hscore : index.lookupScore fromKey member with
    | none => exact h.put fromKey member score false
    | some old =>
      -- the entry is gone when `put` removes it again
      have hput : (index.removeOrdered fromKey old member).put fromKey member score false =
          index.put fromKey member score false := by
        have hscore' : (index.removeOrdered fromKey old member).lookupScore fromKey member =
            some old := hscore
        rw [FlowOrderedIndex.put, FlowOrderedIndex.put, hscore, hscore']
        dsimp only
        rw [removeOrdered_removeOrdered]
        rfl
      dsimp only
      rw [hput]
      exact h.put fromKey member score false
  · rw [if_neg hsame]
    have hdeleted := (h.delete fromKey member).delete toKey member
    have habsent := lookupScore_delete (index.delete fromKey member) toKey member
    have hbound := hdeleted.bounded toKey
    have hinserted := hdeleted.consistent.insertEntry habsent score
    have hcount := hinserted.counted toKey
    rw [memberCount_insertEntry habsent, if_pos rfl, shift, if_pos rfl] at hcount
    refine ⟨?_, fun key' => ?_⟩
    · have hstep := hinserted.incrementCount toKey 1 (by omega) (by omega)
      rwa [shift_shift, add_neg_cancel, shift_zero] at hstep
    · have hbound' := hdeleted.bounded key'
      rw [memberCount_incrementCount, memberCount_insertEntry habsent]
      split_ifs <;> omega

/-! ## Claims -/

/-- A loop whose steps each cost some items. -/
theorem foldl_budget {σ τ : Type} (P : σ → Nat → Prop) (step : σ → τ → σ) (cost : τ → Cost)
    (hstep : ∀ state room entry, P state (room + (cost entry).items) → P (step state entry) room)
    (entries : List τ) (state : σ) (room : Nat)
    (h : P state (room + (Cost.sum cost entries).items)) : P (entries.foldl step state) room := by
  induction entries generalizing state with
  | nil => exact h
  | cons entry entries ih =>
    refine ih (step state entry) (hstep state _ entry ?_)
    rwa [Nat.add_assoc, Nat.add_comm (Cost.sum cost entries).items]

/-- What the collected deltas say. -/
def collected (deltas : SortedMap Bytes Int) (key : Bytes) : Int := (deltas.get key).getD 0

/-- An exact addition to the collected deltas. -/
theorem collected_addCountDelta {deltas : SortedMap Bytes Int} {key : Bytes} {delta : Int}
    (hlow : -(2 ^ 63) ≤ collected deltas key + delta)
    (hhigh : collected deltas key + delta < 2 ^ 63) :
    collected (addCountDelta deltas key delta) = shift (collected deltas) key delta := by
  have hput : delta ≠ 0 → addCountDelta deltas key delta =
      deltas.put key (collected deltas key + delta) := fun hzero => by
    rw [collected] at hlow hhigh
    rw [addCountDelta, if_neg hzero, collected]
    cases hget : deltas.get key with
    | some current =>
      rw [hget, getD_some] at hlow hhigh
      exact congrArg (deltas.put key) (saturatingAdd_eq hlow hhigh)
    | none => exact congrArg (deltas.put key) (zero_add delta).symm
  funext key'
  rw [shift]
  by_cases hzero : delta = 0
  · rw [addCountDelta, if_pos hzero, hzero, ite_self, add_zero]
  · rw [hput hzero, collected, get_put]
    split_ifs with hkey
    · rw [hkey, getD_some]
    · rw [add_zero, collected]

/-- Inside a batch the counts are those from before it and are behind by the deltas. -/
structure BatchSound (batch : Batch) (room : Nat) : Prop where
  consistent : Consistent batch.index (collected batch.deltas)
  bounded : ∀ key, memberCount batch.index key + room < 2 ^ 62
  counts : ∀ key, 0 ≤ batch.index.count key ∧ batch.index.count key < 2 ^ 62

namespace BatchSound

variable {batch : Batch}

theorem weaken {room' : Nat} (h : BatchSound batch room) (hle : room' ≤ room) :
    BatchSound batch room' :=
  ⟨h.consistent, fun key => by
    have := h.bounded key
    omega, h.counts⟩

theorem start (h : Sound index room) : BatchSound ⟨index, SortedMap.empty⟩ room := by
  refine ⟨h.consistent, h.bounded, fun key => ?_⟩
  have hbound := h.bounded key
  show 0 ≤ index.count key ∧ index.count key < 2 ^ 62
  rw [h.count_eq key]
  omega

theorem delete (h : BatchSound batch (room + 1)) (key id : Bytes) :
    BatchSound (batch.delete key id) room := by
  rw [Batch.delete, deleteWithoutCount]
  cases hremove : batch.index.removeLookup key id with
  | none => exact h.weaken (Nat.le_succ room)
  | some removed =>
    obtain ⟨old, index'⟩ := removed
    obtain ⟨_, _, hmembers, hfields⟩ := removeLookup_eq_some hremove
    have hcounts : ∀ key', (index'.removeOrdered key old id).count key' =
        batch.index.count key' := fun key' => by
      rw [hfields]
      rfl
    have hcounted := h.consistent.counted key
    have hcount := h.counts key
    have hbound := h.bounded key
    refine ⟨?_, fun key' => ?_, fun key' => ?_⟩
    · rw [collected_addCountDelta (by omega) (by omega)]
      exact h.consistent.removeLookup hremove
    · have hmember := hmembers key'
      have hbound' := h.bounded key'
      show memberCount index' key' + room < 2 ^ 62
      omega
    · rw [hcounts]
      exact h.counts key'

theorem putNew (h : BatchSound batch (room + 1)) (key id : Bytes) (score : Float64) :
    BatchSound (batch.putNew key id score) room := by
  rw [Batch.putNew, putNewWithoutCount]
  cases hscore : batch.index.lookupScore key id with
  | some old => exact h.weaken (Nat.le_succ room)
  | none =>
    have hcounted := h.consistent.counted key
    have hcount := h.counts key
    have hbound := h.bounded key
    have hcounts : ∀ key', (batch.index.insertEntry key id score).count key' =
        batch.index.count key' := fun key' => by
      rw [insertEntry, insertLookup_eq, insertOrdered_eq h.consistent.paired hscore]
      rfl
    refine ⟨?_, fun key' => ?_, fun key' => ?_⟩
    · rw [collected_addCountDelta (by omega) (by omega)]
      exact h.consistent.insertEntry hscore score
    · have hbound' := h.bounded key'
      rw [memberCount_insertEntry hscore]
      split_ifs <;> omega
    · rw [hcounts]
      exact h.counts key'

section

variable {entry : ClaimEntry} (h : BatchSound batch (room + entry.cost.items))
include h

theorem applyClaim : BatchSound (batch.applyClaim entry) room :=
  (((((BatchSound.delete h _ _).putNew _ _ _).delete _ _).putNew _ _ _).putNew _ _ _).putNew _ _ _

theorem rollbackClaim : BatchSound (batch.rollbackClaim entry) room :=
  (((((BatchSound.delete h _ _).putNew _ _ _).delete _ _).delete _ _).delete _ _).putNew _ _ _

end

end BatchSound

/-- The deltas of a sorted list are applied one after the other, and none is left. -/
theorem Consistent.applyCountDeltas {deltas : List (Bytes × Int)} (hsorted : Entries.Sorted deltas)
    (h : Consistent index fun key => (Entries.get key deltas).getD 0)
    (hbounded : ∀ key, memberCount index key < 2 ^ 62) :
    Consistent (index.applyCountDeltas deltas) (fun _ => 0) ∧
      ∀ key, memberCount (index.applyCountDeltas deltas) key = memberCount index key := by
  induction deltas generalizing index with
  | nil => exact ⟨h, fun _ => rfl⟩
  | cons first deltas ih =>
    obtain ⟨key, delta⟩ := first
    obtain ⟨hfirst, hrest⟩ := List.pairwise_cons.mp hsorted
    have habsent : Entries.get key deltas = none :=
      Entries.get_eq_none fun entry hentry => (hfirst entry hentry).ne'
    have hcounted := h.counted key
    have hbound := hbounded key
    rw [Entries.get, if_pos rfl, getD_some] at hcounted
    have hstep := h.incrementCount key delta (by omega) (by omega)
    have hpending : shift (fun key' => (Entries.get key' ((key, delta) :: deltas)).getD 0) key
        (-delta) = fun key' => (Entries.get key' deltas).getD 0 := by
      funext key'
      rw [shift, Entries.get]
      by_cases hkey : key = key'
      · subst hkey
        rw [if_pos rfl, if_pos rfl, habsent]
        exact add_neg_cancel delta
      · rw [if_neg hkey, if_neg (Ne.symm hkey), add_zero]
    rw [hpending] at hstep
    have hmembers := memberCount_incrementCount index key delta
    obtain ⟨hdone, hsame⟩ := ih hrest hstep fun key' => by
      rw [hmembers]
      exact hbounded key'
    exact ⟨hdone, fun key' => (hsame key').trans (hmembers key')⟩

/-- The end of a batch. -/
theorem BatchSound.finish {batch : Batch} (h : BatchSound batch room) :
    Sound (finishBatch batch) room := by
  obtain ⟨hconsistent, hsame⟩ := h.consistent.applyCountDeltas batch.deltas.sorted fun key => by
    have := h.bounded key
    omega
  refine ⟨hconsistent, fun key => ?_⟩
  rw [finishBatch, hsame]
  exact h.bounded key

section

variable (entries : List ClaimEntry)
  (h : Sound index (room + (Cost.sum ClaimEntry.cost entries).items))
include h

theorem Sound.applyClaimEntries : Sound (index.applyClaimEntries entries) room :=
  (foldl_budget BatchSound Batch.applyClaim ClaimEntry.cost (fun _ _ _ h => h.applyClaim) entries
    ⟨index, empty⟩ room (BatchSound.start h)).finish

theorem Sound.rollbackClaimEntries : Sound (index.rollbackClaimEntries entries) room :=
  (foldl_budget BatchSound Batch.rollbackClaim ClaimEntry.cost (fun _ _ _ h => h.rollbackClaim)
    entries ⟨index, empty⟩ room (BatchSound.start h)).finish

end

/-! ## Requests -/

theorem Sound.putEntries (newOnly : Bool) (entries : List PutEntry)
    (h : Sound index (room + (Cost.sum PutEntry.cost entries).items)) :
    Sound (index.putEntries newOnly entries) room :=
  foldl_budget Sound
    (fun index (entry : PutEntry) => index.put entry.key entry.member entry.score newOnly) PutEntry.cost
    (fun _ _ entry h => h.put entry.key entry.member entry.score newOnly) entries
    index room h

theorem Sound.moveEntries (entries : List MoveEntry)
    (h : Sound index (room + (Cost.sum MoveEntry.cost entries).items)) :
    Sound (index.moveEntries entries) room :=
  foldl_budget Sound (fun index (entry : MoveEntry) =>
      index.moveMember entry.fromKey entry.toKey entry.member entry.score) MoveEntry.cost
    (fun _ _ entry h => h.moveMember entry.fromKey entry.toKey entry.member entry.score) entries
    index room h

theorem Sound.deleteEntries (entries : List DeleteEntry)
    (h : Sound index (room + (Cost.sum DeleteEntry.cost entries).items)) :
    Sound (index.deleteEntries entries) room :=
  foldl_budget Sound (fun index (entry : DeleteEntry) => index.delete entry.key entry.member)
    DeleteEntry.cost
    (fun _ room entry h =>
      (h.delete entry.key entry.member).weaken (Nat.le_add_right room entry.cost.items)) entries
    index room h

/-- Deleting any members. -/
theorem Sound.deleteAll {τ : Type} (key : Bytes) (member : τ → Bytes)
    (members : List τ) (h : Sound index room) :
    Sound (members.foldl (fun index entry => index.delete key (member entry)) index) room := by
  induction members generalizing index with
  | nil => exact h
  | cons entry members ih => exact ih (h.delete key (member entry))

theorem Sound.applyBatch (batch : BatchRequest)
    (h : Sound index (room + (Request.applyBatch batch).cost.items)) :
    Sound (index.applyBatch batch) room := by
  refine Sound.applyClaimEntries _ (Sound.deleteEntries _ (Sound.moveEntries _
    (Sound.putEntries true _ (Sound.putEntries false _ (h.weaken ?_)))))
  show _ ≤ room + (_ + (_ + (_ + (_ + _))))
  omega

/-- A request that is within the limits keeps the structures in agreement. -/
theorem Sound.perform (request : Request) (h : Sound index request.cost.items) :
    Sound (request.perform index) 0 := by
  rw [← Nat.zero_add request.cost.items] at h
  cases request with
  | putEntries entries => exact Sound.putEntries false entries h
  | putNewEntries entries => exact Sound.putEntries true entries h
  | moveEntries entries => exact Sound.moveEntries entries h
  | deleteMembers key members => exact (h.weaken (Nat.zero_le _)).deleteAll key id members
  | deleteEntries entries => exact Sound.deleteEntries entries h
  | takeDue key maxScore count => exact (h.weaken (Nat.zero_le _)).deleteAll key Prod.fst _
  | applyBatch batch => exact Sound.applyBatch batch h
  | applyClaimEntries entries => exact Sound.applyClaimEntries entries h
  | rollbackClaimEntries entries => exact Sound.rollbackClaimEntries entries h

/-- The entries, of 64 bytes each, lie in an address space of 64 bits. -/
def Addressable (index : FlowOrderedIndex) : Prop := index.ordered.size * 64 ≤ 2 ^ 64

instance (index : FlowOrderedIndex) : Decidable (Addressable index) := Nat.decLe _ _

/-- The members of a key have entries of their own. -/
theorem memberCount_le_size (h : Matches index.ordered index.lookupScore) (key : Bytes) :
    memberCount index key ≤ index.ordered.size := by
  rw [memberCount]
  cases hget : index.lookup.get key with
  | none => exact Nat.zero_le _
  | some members =>
    refine size_le_size (fun entry => entryKey key entry.2 entry.1) ?_ ?_
    · exact fun a _ b _ heq => (entryKey_inj heq).2
    · intro member score hmember
      refine h.has_entry key member score ?_
      rw [lookupScore, hget]
      exact hmember

/-- One request. -/
theorem Consistent.exec (h : Consistent index fun _ => 0) (hfits : Addressable index)
    (request : Request) : Consistent (request.exec index) fun _ => 0 := by
  rw [Request.exec]
  split_ifs with hlimits
  · have hitems : request.cost.items ≤ 100000 :=
      of_decide_eq_true (Bool.and_eq_true_iff.mp hlimits).1
    refine (Sound.perform request ⟨h, fun key => ?_⟩).consistent
    have hmembers := memberCount_le_size h.paired key
    rw [Addressable] at hfits
    omega
  · exact h

theorem consistent_new : Consistent new fun _ => 0 :=
  ⟨⟨nofun, nofun⟩, fun _ => rfl, ⟨fun _ => by simp [new, count],
      fun _ => by simp [new, count]⟩⟩

/-- In every run whose indexes an address space holds, the ordered entries and the table are in
bijection with equal scores, every count is exactly the number of members of its key, and the
catalogues hold exactly the (due) keys with a positive count. -/
theorem index_invariant (requests : List Request)
    (hfits : Always Request.exec Addressable requests new) :
    Always Request.exec (fun index => Matches index.ordered index.lookupScore ∧
      (∀ key, index.count key = memberCount index key) ∧
      (∀ key, key ∈ index.positiveCountKeys ↔ 0 < memberCount index key) ∧
      ∀ key, key ∈ index.positiveDueCountKeys ↔ dueKey key = true ∧ 0 < memberCount index key)
      requests new := by
  have hconsistent : Always Request.exec (fun index => Consistent index fun _ => 0) requests
      new := Always.of_step
    (fun _ request hfits hconsistent => hconsistent.exec hfits request) hfits consistent_new
  intro count
  have h := hconsistent count
  have hcount : ∀ key, FlowOrderedIndex.count _ key = _ := fun key =>
    (add_zero _).symm.trans (h.counted key)
  refine ⟨h.paired, hcount, fun key => ?_, fun key => ?_⟩
  · rw [h.catalogued.positive, hcount, Int.natCast_pos]
  · rw [h.catalogued.due, hcount, Int.natCast_pos]

/-- A put under a due key, and the deletion of the member. -/
theorem index_invariant_sample :
    Always Request.exec (fun index => ∀ key, index.count key = memberCount index key)
      [.putEntries [⟨[0x66, 0x3A, 0x7B, 0x66, 0x7D, 0x3A, 0x64, 0x3A], [1], Float64.zero⟩],
        .deleteEntries [⟨[0x66, 0x3A, 0x7B, 0x66, 0x7D, 0x3A, 0x64, 0x3A], [1]⟩]]
      new := by
  refine fun count => (index_invariant _ (fun count => ?_) count).2.1
  match count with
  | 0 => decide
  | 1 => decide +kernel
  | _ + 2 =>
    rw [List.take_of_length_le (by simp)]
    decide +kernel

end FerricStore.Flow
