import FerricStore.Lists.Inside

/-!
# Insertions keep to the plain list

An insertion at the end of a list takes a step beyond it, and one between two entries the middle of
their positions. Positions without a middle are redistributed with the rows of the whole list.
-/

namespace FerricStore.Lists

open List

variable {V : Type} {budget : Nat} {stored : StoredList V} {entries : List (Int × V)}
  {info : ListMeta}

/-- The middle of two positions lies between them. -/
theorem middle_bounds {a b : Int} (h : a < b) : a ≤ (a + b).tdiv 2 ∧ (a + b).tdiv 2 ≤ b := by
  rw [Int.tdiv_eq_ediv]
  split_ifs with hsign
  · omega
  · rw [show Int.sign 2 = 1 from rfl]
    omega

theorem positionAt_eq {index : Nat} (h : index < entries.length) :
    positionAt entries index = entries[index].1 := by
  rw [positionAt, List.getElem?_eq_getElem h]
  rfl

section

variable (hsorted : Entries.Sorted entries)
include hsorted

section

variable {index : Nat} (h : index < entries.length) {entry : Int × V}
include h

/-- The entries up to an index are at most at its position. -/
theorem le_positionAt (hentry : entry ∈ entries.take (index + 1)) :
    entry.1 ≤ positionAt entries index := by
  obtain ⟨place, hplace, rfl⟩ := mem_take_iff_getElem.mp hentry
  rw [positionAt_eq h]
  rcases Nat.lt_or_ge place index with hlt | hge
  · exact (pairwise_iff_getElem.mp hsorted place index (by omega) h hlt).le
  · obtain rfl : place = index := by omega
    exact le_rfl

/-- The entries from an index on are at least at its position. -/
theorem positionAt_le (hentry : entry ∈ entries.drop index) :
    positionAt entries index ≤ entry.1 := by
  obtain ⟨place, hplace, rfl⟩ := mem_drop_iff_getElem.mp hentry
  rw [positionAt_eq h]
  rcases Nat.eq_zero_or_pos place with rfl | hpos
  · exact le_of_eq rfl
  · exact (pairwise_iff_getElem.mp hsorted index (index + place) h (by omega) (by omega)).le

end

/-- The place of an insertion in the list. -/
def Place.index (place : Place) (pivot : Nat) : Nat :=
  if place = .before then pivot else pivot + 1

/-- A position for an insertion at an index. -/
structure Between (info : ListMeta) (entries : List (Int × V)) (index : Nat) (position : Int) :
    Prop where
  below : ∀ entry ∈ entries.take index, entry.1 < position
  above : ∀ entry ∈ entries.drop index, position < entry.1
  left_le : info.leftPos - positionStep ≤ position
  le_right : position ≤ info.rightPos + positionStep

/-- What holds of an insertion at a position, or of one after a redistribution. -/
def InsertAt.Meets (P : Int → Prop) (Q : Int → List (Int × V) → Prop) : InsertAt V → Prop
  | .position place => P place
  | .rebalance place rebalanced => Q place rebalanced

theorem midpointOrRebalance_spec
    (hbounded : Bounded budget info entries) {index inserted : Nat} (h : index + 1 < entries.length)
    (hinserted : inserted = index + 1) :
    (midpointOrRebalance entries index (index + 1)).Meets (Between info entries inserted)
      fun position rebalanced => ∃ index, inserted = index + 1 ∧ index + 1 < entries.length ∧
        rebalanced = rebalancePositions entries ∧
        position = (positionAt rebalanced index + positionAt rebalanced (index + 1)).tdiv 2 := by
  subst hinserted
  have hlt : positionAt entries index < positionAt entries (index + 1) := by
    rw [positionAt_eq (by omega), positionAt_eq h]
    exact pairwise_iff_getElem.mp hsorted index (index + 1) (by omega) h (by omega)
  have hmiddle := middle_bounds hlt
  unfold midpointOrRebalance
  dsimp only
  split_ifs with hroom
  · exact ⟨index, rfl, h, rfl, rfl⟩
  · have hleft := hbounded.inside _ (getElem_mem (show index < entries.length by omega))
    have hright := hbounded.inside _ (getElem_mem h)
    rw [← positionAt_eq] at hleft hright
    have hstep : 0 < positionStep := by decide
    refine ⟨fun entry hentry => ?_, fun entry hentry => ?_, by omega, by omega⟩
    · have hle := le_positionAt hsorted (by omega) hentry
      omega
    · have hle := positionAt_le hsorted h hentry
      omega

theorem linsertPosition_spec (hbounded : Bounded budget info entries) (place : Place) {pivot : Nat}
    (h : pivot < entries.length) :
    (linsertPosition entries place pivot).Meets (Between info entries (place.index pivot))
      fun position rebalanced => ∃ index, place.index pivot = index + 1 ∧
        index + 1 < entries.length ∧ rebalanced = rebalancePositions entries ∧
        position = (positionAt rebalanced index + positionAt rebalanced (index + 1)).tdiv 2 := by
  have hstep : 0 < positionStep := by decide
  cases place with
  | before =>
    by_cases hfirst : pivot = 0
    · subst hfirst
      have hinside := hbounded.inside _ (getElem_mem h)
      rw [← positionAt_eq h] at hinside
      refine ⟨nofun, fun entry hentry => ?_, by omega, by omega⟩
      have hle := positionAt_le hsorted h hentry
      omega
    · obtain ⟨index, rfl⟩ := Nat.exists_eq_add_one_of_ne_zero hfirst
      exact midpointOrRebalance_spec hsorted hbounded h rfl
  | after =>
    unfold linsertPosition
    by_cases hlast : pivot = entries.length - 1
    · rw [if_pos hlast]
      have hlt : entries.length - 1 < entries.length := by omega
      have hinside := hbounded.inside _ (getElem_mem hlt)
      rw [← positionAt_eq hlt] at hinside
      have hindex : Place.after.index pivot = entries.length := by
        show pivot + 1 = entries.length
        omega
      refine ⟨fun entry hentry => ?_, fun entry hentry => ?_, by omega, by omega⟩
      · have hle := le_positionAt hsorted hlt (show entry ∈ entries.take _ by
          rw [hindex] at hentry
          rwa [show entries.length - 1 + 1 = entries.length by omega])
        omega
      · rw [hindex, drop_length] at hentry
        cases hentry
    · rw [if_neg hlast]
      exact midpointOrRebalance_spec hsorted hbounded (by omega) rfl

end

/-- An insertion in the parts of a list. -/
theorem insertIdx_eq {α : Type} (x : α) : ∀ {l : List α} {index : Nat}, index ≤ l.length →
    l.insertIdx index x = l.take index ++ x :: l.drop index
  | l, 0, _ => by rw [insertIdx_zero, take_zero, drop_zero, nil_append]
  | [], index + 1, h => absurd h (Nat.not_succ_le_zero index)
  | first :: l, index + 1, h => by
    rw [insertIdx_succ_cons, insertIdx_eq x (Nat.le_of_succ_le_succ h), take_succ_cons,
      drop_succ_cons, cons_append]

/-- The values after an insertion. -/
theorem map_snd_insert {index : Nat} (h : index ≤ entries.length) (position : Int) (element : V) :
    (entries.take index ++ ([(position, element)] ++ entries.drop index)).map Prod.snd =
      (entries.map Prod.snd).insertIdx index element := by
  rw [insertIdx_eq element (by rwa [length_map]), map_append, map_append, map_take, map_drop]
  rfl

theorem length_insert {index : Nat} (entry : Int × V) :
    (entries.take index ++ ([entry] ++ entries.drop index)).length = entries.length + 1 := by
  rw [length_append, length_append, length_singleton, length_take, length_drop]
  omega

variable {position : Int}

/-- Entries with one more between two of them are sorted. -/
theorem sorted_insert (hsorted : Entries.Sorted entries) {index : Nat}
    (hbelow : ∀ entry ∈ entries.take index, entry.1 < position)
    (habove : ∀ entry ∈ entries.drop index, position < entry.1) (element : V) :
    Entries.Sorted (entries.take index ++ ([(position, element)] ++ entries.drop index)) := by
  have hsplit := hsorted
  rw [← take_append_drop index entries, Entries.sorted_append] at hsplit
  obtain ⟨hfront, hback, hcross⟩ := hsplit
  refine Entries.sorted_append.mpr ⟨hfront, pairwise_cons.mpr ⟨habove, hback⟩, ?_⟩
  intro entry hentry other hother
  rcases mem_cons.mp hother with rfl | hother
  · exact hbelow entry hentry
  · exact hcross entry hentry other hother

/-- An insertion at a position between two entries. -/
theorem Holds.insert (h : Holds budget stored entries) (hbudget : budget + 1 ≤ 2 * 10 ^ 10)
    (hbounded : Bounded budget info entries) {index : Nat}
    (hbetween : Between info entries index position) (element : V) :
    Holds (budget + 1) ⟨some ⟨info.length + 1, min info.leftPos (position - positionStep),
        max info.rightPos (position + positionStep)⟩,
        putElements [(position, element)] stored.elements⟩
      (entries.take index ++ ([(position, element)] ++ entries.drop index)) := by
  have hstep : 0 < positionStep := by decide
  have hreach := reach_succ budget
  have hlow := hbounded.left_ge
  have hhigh := hbounded.right_le
  have hleft := hbetween.left_le
  have hright := hbetween.le_right
  have hparts : Holds budget stored (entries.take index ++ entries.drop index) := by
    rwa [take_append_drop]
  refine Holds.put _ _ _ hparts hbudget (sorted_insert h.sorted hbetween.below hbetween.above _) ?_ ?_
  · refine ⟨?_, by simp, fun entry hentry => ?_, ?_, ?_⟩
    · rw [length_insert, ← hbounded.length_eq]
    · show min info.leftPos _ < entry.1 ∧ entry.1 < max info.rightPos _
      rcases mem_append.mp hentry with hentry | hentry
      · have hinside := hbounded.inside entry (mem_of_mem_take hentry)
        omega
      · rcases mem_cons.mp hentry with rfl | hentry
        · omega
        · have hinside := hbounded.inside entry (mem_of_mem_drop hentry)
          omega
    · show -reach (budget + 1) ≤ min info.leftPos _
      omega
    · show max info.rightPos _ ≤ reach (budget + 1)
      omega
  · rw [length_insert]
    have hlength := h.length_le
    omega

/-! ## Redistributed positions -/

theorem rebalancePositions_eq (entries : List (Int × V)) : rebalancePositions entries =
      spread (fun index => 0 + (index : Int) * positionStep) (entries.map Prod.snd) := by
  refine map_congr_left fun pair _ => ?_
  dsimp only
  rw [zero_add]

theorem length_rebalancePositions : (rebalancePositions entries).length = entries.length := by
  rw [rebalancePositions_eq, length_spread, length_map]

theorem positionAt_rebalancePositions (entries : List (Int × V)) {index : Nat}
    (h : index < entries.length) :
    positionAt (rebalancePositions entries) index = (index : Int) * positionStep := by
  rw [positionAt_eq (by rwa [length_rebalancePositions])]
  simp [rebalancePositions]

section

variable {index : Nat} (hposition : position = (positionAt (rebalancePositions entries) index +
    positionAt (rebalancePositions entries) (index + 1)).tdiv 2)
include hposition

/-- Positions that are redistributed leave room for the insertion. -/
theorem between_rebalanced (h : index + 1 < entries.length) :
    (∀ entry ∈ (rebalancePositions entries).take (index + 1), entry.1 < position) ∧
      (∀ entry ∈ (rebalancePositions entries).drop (index + 1), position < entry.1) ∧
      0 < position ∧ position < (entries.length - 1 : Int) * positionStep := by
  have hsorted : Entries.Sorted (rebalancePositions entries) := by
    rw [rebalancePositions_eq]
    exact sorted_spread (strictMono_steps 0)
  have hlow := positionAt_rebalancePositions entries (show index < entries.length by omega)
  have hhigh := positionAt_rebalancePositions entries h
  have hmiddle : position = (index : Int) * positionStep + 500000000 := by
    rw [hposition, hlow, hhigh, Int.tdiv_eq_ediv_of_nonneg (by unfold positionStep; omega)]
    unfold positionStep
    omega
  have hroom : positionAt (rebalancePositions entries) index < position ∧
      position < positionAt (rebalancePositions entries) (index + 1) := by
    rw [hlow, hhigh, hmiddle]
    unfold positionStep
    omega
  refine ⟨fun entry hentry => ?_, fun entry hentry => ?_, ?_, ?_⟩
  · exact (le_positionAt hsorted (by rw [length_rebalancePositions]; omega) hentry).trans_lt hroom.1
  · exact hroom.2.trans_le (positionAt_le hsorted (by rwa [length_rebalancePositions]) hentry)
  · rw [hmiddle]
    unfold positionStep
    omega
  · rw [hmiddle]
    unfold positionStep
    omega

/-- An insertion after all positions have been redistributed. -/
theorem Holds.rebalance (h : Holds budget stored entries) (hbudget : budget + 1 ≤ 2 * 10 ^ 10)
    (hinfo : stored.metadata = some info) (hindex : index + 1 < entries.length) (element : V) :
    Holds (budget + 1) ⟨some ⟨info.length + 1,
        min (positionAt (rebalancePositions entries) 0) position - positionStep,
        max (positionAt (rebalancePositions entries) ((rebalancePositions entries).length - 1))
          position + positionStep⟩,
        putElements (rebalancePositions entries ++ [(position, element)])
          (Lists.deleteElements entries stored.elements)⟩
      ((rebalancePositions entries).take (index + 1) ++
        ([(position, element)] ++ (rebalancePositions entries).drop (index + 1))) := by
  obtain ⟨hbelow, habove, hpos, hlast⟩ := between_rebalanced hposition hindex
  have hbounded := h.bounded hinfo
  have hlength := h.length_le
  have hsorted : Entries.Sorted (rebalancePositions entries) := by
    rw [rebalancePositions_eq]
    exact sorted_spread (strictMono_steps 0)
  set rows := rebalancePositions entries with hrows
  have hempty : Lists.deleteElements entries stored.elements =
      Entries.rename encodePosition ([] ++ []) :=
    h.deleteElements (by omega) (nil_sublist _) (by simp)
  have hleft : min (positionAt rows 0) position = 0 := by
    rw [positionAt_rebalancePositions entries (by omega)]
    omega
  have hright : max (positionAt rows (rows.length - 1)) position =
      (entries.length - 1 : Int) * positionStep := by
    rw [length_rebalancePositions, positionAt_rebalancePositions entries (by omega)]
    unfold positionStep at *
    omega
  have hinside : ∀ entry ∈ rows, 0 ≤ entry.1 ∧
      entry.1 ≤ (entries.length - 1 : Int) * positionStep := by
    intro entry hentry
    rw [hrows, rebalancePositions_eq] at hentry
    obtain ⟨place, hplace, heq⟩ := mem_spread hentry
    rw [length_map] at hplace
    rw [heq]
    unfold positionStep
    omega
  have hall : ∀ entry ∈ rows, Encodable entry.1 := by
    intro entry hentry
    have hentryInside := hinside entry hentry
    refine encodable_of_reach hbudget ?_ ?_ <;> (unfold reach positionStep at *; push_cast; omega)
  -- All rows are deleted, the redistributed ones are written, and the new one goes between.
  have hwritten : putElements rows (Lists.deleteElements entries stored.elements) =
      Entries.rename encodePosition rows := by
    have hbetween : putElements rows (Entries.rename encodePosition ([] ++ [])) =
        Entries.rename encodePosition ([] ++ (rows ++ [])) :=
      putElements_between (by simpa using hall) (by simpa using hsorted)
    rw [hempty, hbetween, nil_append, append_nil]
  have hinserted := sorted_insert hsorted hbelow habove element
  have hfinal : Bounded (budget + 1) ⟨info.length + 1,
      min (positionAt rows 0) position - positionStep,
      max (positionAt rows (rows.length - 1)) position + positionStep⟩
      (rows.take (index + 1) ++ ([(position, element)] ++ rows.drop (index + 1))) := by
    rw [hleft, hright]
    refine ⟨?_, by simp, fun entry hentry => ?_, ?_, ?_⟩
    · rw [length_insert, length_rebalancePositions, ← hbounded.length_eq]
    · have hentryInside : 0 ≤ entry.1 ∧ entry.1 ≤ (entries.length - 1 : Int) * positionStep := by
        rcases mem_append.mp hentry with hentry | hentry
        · exact hinside entry (mem_of_mem_take hentry)
        · rcases mem_cons.mp hentry with rfl | hentry
          · exact ⟨hpos.le, hlast.le⟩
          · exact hinside entry (mem_of_mem_drop hentry)
      unfold positionStep at *
      dsimp only
      omega
    · unfold reach positionStep
      push_cast
      omega
    · unfold reach positionStep
      push_cast
      omega
  refine ⟨?_, hinserted, ?_, hfinal⟩
  · show putElements (rows ++ [(position, element)]) _ = _
    unfold putElements at hwritten ⊢
    rw [foldl_append, hwritten]
    have hparts := putElements_between (hfinal.encodable hbudget) hinserted
    rwa [take_append_drop] at hparts
  · rw [length_insert, length_rebalancePositions]
    omega

end

/-- `LINSERT` puts an element beside the first occurrence of another. -/
theorem linsert_simulates [DecidableEq V] (h : Holds budget stored entries)
    (hbudget : budget + 1 ≤ 2 * 10 ^ 10) (place : Place) (pivot element : V) :
    Simulates (budget + 1) (linsert stored place pivot element)
      (if entries = [] then (.integer 0, [])
        else ((entries.map Prod.snd).findIdx? (· = pivot)).elim
          (.integer (-1), entries.map Prod.snd) fun index =>
            (.integer ((entries.map Prod.snd).length + 1 : Nat), (entries.map Prod.snd).insertIdx
                (if place = .before then index else index + 1) element)) := by
  unfold linsert
  cases hinfo : stored.metadata with
  | none =>
    obtain rfl := h.eq_nil hinfo
    exact ⟨rfl, [], h.mono (Nat.le_succ _), rfl⟩
  | some info =>
    have hbounded := h.bounded hinfo
    rw [if_neg hbounded.ne_nil]
    rw [h.sortedElements (by omega)]
    dsimp only
    cases hfound : (entries.map Prod.snd).findIdx? (· = pivot) with
    | none => exact ⟨rfl, entries, h.mono (Nat.le_succ _), rfl⟩
    | some index =>
      have hindex : index < entries.length := by
        have hlt := (List.findIdx?_eq_some_iff_getElem.mp hfound).1
        rwa [length_map] at hlt
      have hspec := linsertPosition_spec h.sorted hbounded place hindex
      have hplace : place.index index ≤ entries.length := by
        unfold Place.index
        split_ifs <;> omega
      dsimp only [Option.elim_some]
      rw [length_map, ← hbounded.length_eq]
      cases hresult : linsertPosition entries place index with
      | position position =>
        rw [hresult] at hspec
        exact ⟨rfl, _, h.insert hbudget hbounded hspec element,
          map_snd_insert hplace position element⟩
      | rebalance position rebalanced =>
        rw [hresult] at hspec
        obtain ⟨before, hbefore, hlt, rfl, hposition⟩ := hspec
        refine ⟨rfl, _, h.rebalance hposition hbudget hinfo hlt element, ?_⟩
        rw [map_snd_insert (by rw [length_rebalancePositions]; omega), rebalancePositions_eq,
          map_snd_spread, ← hbefore]
        rfl

end FerricStore.Lists
