import FerricStore.Lists.Reads

/-!
# Writes inside of a list keep to the plain list

Replacing an element keeps its position. A removal or a trim deletes the rows of some entries and
takes the boundaries from those that remain.
-/

namespace FerricStore.Lists

open List

variable {V : Type} {budget larger : Nat} {stored : StoredList V} {entries : List (Int × V)}
  {info : ListMeta}

/-! ## Replacing -/

/-- A new value at the position of an entry. -/
theorem Holds.replace {front back : List (Int × V)} {position : Int} {old : V}
    (h : Holds budget stored (front ++ (position, old) :: back)) (hbudget : budget ≤ 2 * 10 ^ 10)
    (element : V) :
    Holds budget ⟨stored.metadata, putElements [(position, element)] stored.elements⟩
      (front ++ (position, element) :: back) := by
  have hall := h.encodable hbudget
  have hkeys : (front ++ (position, old) :: back).map Prod.fst =
      (front ++ (position, element) :: back).map Prod.fst := by simp
  refine ⟨?_, ?_, ?_, ?_⟩
  · show putElements [(position, element)] stored.elements = _
    have hwrite : ∀ write ∈ [(position, element)], Encodable write.1 := by
      intro write hwrite
      rw [mem_singleton.mp hwrite]
      exact hall (position, old) (by simp)
    obtain ⟨-, -, hcross⟩ := Entries.sorted_append.mp h.sorted
    rw [h.elements, putElements_rename hwrite _ hall, foldl_cons, foldl_nil,
      Entries.put_append_right fun entry hentry => hcross entry hentry _ mem_cons_self,
      Entries.put, if_neg (lt_irrefl _), if_pos rfl]
  · have hsorted : (map Prod.fst _).Pairwise (· < ·) := pairwise_map.mpr h.sorted
    rw [hkeys] at hsorted
    exact pairwise_map.mp hsorted
  · have hlength := h.length_le
    simpa using hlength
  · show stored.metadata.elim _ _
    cases hinfo : stored.metadata with
    | none => exact absurd (h.eq_nil hinfo) (by simp)
    | some info =>
      have hbounded := h.bounded hinfo
      have hlength := hbounded.length_eq
      refine ⟨by simpa using hlength, by simp, fun entry hentry => ?_, hbounded.left_ge,
        hbounded.right_le⟩
      obtain ⟨other, hother, heq⟩ := mem_map.mp (hkeys.symm ▸ mem_map_of_mem hentry)
      rw [← heq]
      exact hbounded.inside other hother

/-- `LSET` replaces one element. -/
theorem lset_simulates (h : Holds budget stored entries) (hbudget : budget ≤ 2 * 10 ^ 10)
    (index : Int) (element : V) :
    Simulates (budget + 1) (lset stored index element)
      (if entries = [] then (.error "ERR no such key", [])
        else (Plain.index? index (entries.map Prod.snd).length).elim
          (.error "ERR index out of range", entries.map Prod.snd)
          fun norm => (.ok, (entries.map Prod.snd).set norm element)) := by
  unfold lset
  cases hinfo : stored.metadata with
  | none =>
    obtain rfl := h.eq_nil hinfo
    exact ⟨rfl, [], h.mono (Nat.le_succ _), rfl⟩
  | some info =>
    have hbounded := h.bounded hinfo
    rw [if_neg hbounded.ne_nil, index?_eq, length_map, ← hbounded.length_eq]
    dsimp only
    by_cases hrange : 0 ≤ normalizeIndex index info.length ∧
        normalizeIndex index info.length < info.length
    · rw [if_pos hrange, if_pos hrange, h.sortedSlice hbudget, Option.elim_some]
      have hlt : (normalizeIndex index info.length).toNat < entries.length := by
        rw [← hbounded.length_eq]
        omega
      generalize (normalizeIndex index info.length).toNat = norm at hlt ⊢
      obtain ⟨front, ⟨position, old⟩, back, rfl, rfl⟩ :
          ∃ front entry back, entries = front ++ entry :: back ∧ front.length = norm :=
        ⟨entries.take norm, entries[norm], entries.drop (norm + 1),
          by rw [getElem_cons_drop, take_append_drop], by
            rw [length_take]
            omega⟩
      rw [drop_left]
      refine ⟨rfl, front ++ (position, element) :: back, ?_, by simp⟩
      have hreplaced := (h.replace hbudget element).mono (Nat.le_succ _)
      rw [hinfo] at hreplaced
      exact hreplaced
    · rw [if_neg hrange, if_neg hrange]
      exact ⟨rfl, entries, h.mono (Nat.le_succ _), rfl⟩

/-! ## Removing -/

/-- The metadata of entries that remain. -/
theorem Bounded.remaining {remaining : List (Int × V)} (h : Bounded budget info entries)
    (hsub : remaining.Sublist entries) (hsorted : Entries.Sorted entries) :
    (metaFromElements remaining.length remaining).elim (remaining = [])
      (Bounded (budget + 1) · remaining) := by
  have hordered : remaining.Pairwise fun entry other => entry.1 ≤ other.1 :=
    (hsorted.sublist hsub).imp le_of_lt
  have hlow := h.left_ge
  have hhigh := h.right_le
  have hreach := reach_succ budget
  have hstep : 0 < positionStep := by decide
  cases remaining with
  | nil => rfl
  | cons first rest =>
    have hne : first :: rest ≠ [] := cons_ne_nil _ _
    have hfirst := h.inside first (hsub.subset mem_cons_self)
    have hlast := h.inside _ (hsub.subset (getLast_mem hne))
    refine ⟨rfl, hne, fun entry hentry => ⟨?_, ?_⟩, ?_, ?_⟩
    · show first.1 - positionStep < entry.1
      have hle : first.1 ≤ entry.1 := hordered.rel_head_of_rel_head_head hentry le_rfl
      omega
    · show entry.1 < ((first :: rest).getLast hne).1 + positionStep
      have hle := hordered.rel_getLast_of_rel_getLast_getLast hentry le_rfl
      omega
    · show -reach (budget + 1) ≤ first.1 - positionStep
      omega
    · show ((first :: rest).getLast hne).1 + positionStep ≤ reach (budget + 1)
      omega

/-- A deletion that takes the metadata from what remains. -/
theorem Holds.keep {removed remaining : List (Int × V)} (h : Holds budget stored entries)
    (hbudget : budget ≤ 2 * 10 ^ 10) (hinfo : stored.metadata = some info)
    (hsub : remaining.Sublist entries) (hperm : (removed ++ remaining).Perm entries) :
    Holds (budget + 1) ⟨metaFromElements remaining.length remaining,
      Lists.deleteElements removed stored.elements⟩ remaining :=
  Holds.delete h hbudget (Nat.le_succ _) hsub hperm ((h.bounded hinfo).remaining hsub h.sorted)

/-- `LTRIM` keeps a range of the elements. -/
theorem ltrim_simulates (h : Holds budget stored entries) (hbudget : budget ≤ 2 * 10 ^ 10)
    (start stop : Int) :
    Simulates (budget + 1) (ltrim stored start stop)
      (.ok, Plain.range start stop (entries.map Prod.snd)) := by
  unfold ltrim
  cases hinfo : stored.metadata with
  | none =>
    obtain rfl := h.eq_nil hinfo
    refine ⟨rfl, [], h.mono (Nat.le_succ _), ?_⟩
    rw [range_eq]
    simp
  | some info =>
    have hbounded := h.bounded hinfo
    dsimp only
    rw [h.sortedElements hbudget, hbounded.length_eq]
    dsimp only
    generalize hkept : (if normalizeIndex stop entries.length <
        normalizeRangeStart start entries.length ∨
        (entries.length : Int) ≤ normalizeRangeStart start entries.length then []
      else (entries.drop (normalizeRangeStart start entries.length).toNat).take
        (normalizeIndex stop entries.length -
          normalizeRangeStart start entries.length + 1).toNat) = kept
    have hsub : kept.Sublist entries := by
      rw [← hkept]
      split_ifs
      · exact nil_sublist _
      · exact (take_sublist _ _).trans (drop_sublist _ _)
    have hvalues : kept.map Prod.snd = Plain.range start stop (entries.map Prod.snd) := by
      rw [← hkept, range_eq, length_map]
      by_cases hempty : normalizeIndex stop entries.length <
          normalizeRangeStart start entries.length
      · rw [if_pos (.inl hempty), if_pos hempty]
        rfl
      · by_cases hbeyond : (entries.length : Int) ≤ normalizeRangeStart start entries.length
        · rw [if_pos (.inr hbeyond), if_neg hempty,
            drop_eq_nil_of_le (by rw [length_map]; omega), take_nil]
          rfl
        · rw [if_neg (not_or.mpr ⟨hempty, hbeyond⟩), if_neg hempty, map_take, map_drop]
    refine ⟨rfl, kept, Holds.keep h hbudget hinfo hsub ?_, hvalues⟩
    have hparts := filter_append_perm (fun entry => decide (entry.1 ∈ kept.map Prod.fst)) entries
    rw [Entries.filter_keys_of_sublist h.sorted hsub] at hparts
    refine perm_append_comm.trans (List.Perm.trans (List.Perm.of_eq ?_) hparts)
    congr 1
    refine filter_congr fun entry _ => ?_
    simp

section

variable (target : V) (sorted : List (Int × V))

/-- What a removal from the head does: it parts the list, and keeps the plain values. -/
theorem foldl_removeStep [DecidableEq V] :
    ∀ (removed kept : List (Int × V)) (allowed : Nat), ∃ removed' kept' : List (Int × V),
      (sorted.foldl (removeStep target) (removed, kept, allowed)).1 = removed'.reverse ++ removed ∧
      (sorted.foldl (removeStep target) (removed, kept, allowed)).2.1 = kept'.reverse ++ kept ∧
      kept'.Sublist sorted ∧ (removed' ++ kept').Perm sorted ∧
      kept'.map Prod.snd = Plain.removeFirst allowed target (sorted.map Prod.snd) := by
  induction sorted with
  | nil =>
    intro removed kept allowed
    refine ⟨[], [], rfl, rfl, List.Sublist.refl _, List.Perm.refl _, ?_⟩
    cases allowed <;> rfl
  | cons entry sorted ih =>
    intro removed kept allowed
    rw [foldl_cons, map_cons]
    by_cases hgoes : entry.2 = target ∧ 0 < allowed
    · rw [show removeStep target (removed, kept, allowed) entry =
        (entry :: removed, kept, allowed - 1) from if_pos hgoes]
      obtain ⟨removed', kept', hremoved, hkept, hsub, hperm, hvalues⟩ :=
        ih (entry :: removed) kept (allowed - 1)
      refine ⟨entry :: removed', kept', ?_, hkept, hsub.cons _, hperm.cons _, ?_⟩
      · rw [hremoved, reverse_cons, append_assoc]
        rfl
      · obtain ⟨allowed, rfl⟩ := Nat.exists_eq_add_one_of_ne_zero hgoes.2.ne'
        rw [hvalues, Plain.removeFirst, if_pos hgoes.1]
        rfl
    · rw [show removeStep target (removed, kept, allowed) entry =
        (removed, entry :: kept, allowed) from if_neg hgoes]
      obtain ⟨removed', kept', hremoved, hkept, hsub, hperm, hvalues⟩ :=
        ih removed (entry :: kept) allowed
      refine ⟨removed', entry :: kept', hremoved, ?_, hsub.cons_cons _, ?_, ?_⟩
      · rw [hkept, reverse_cons, append_assoc]
        rfl
      · exact perm_middle.trans (hperm.cons _)
      · rw [map_cons, hvalues]
        cases allowed with
        | zero =>
          cases sorted <;> rfl
        | succ allowed =>
          rw [Plain.removeFirst, if_neg fun heq => hgoes ⟨heq, Nat.succ_pos _⟩]

theorem removeNFromHead_spec [DecidableEq V] (allowed : Nat) :
    (removeNFromHead sorted allowed target).2.Sublist sorted ∧
      ((removeNFromHead sorted allowed target).1 ++
        (removeNFromHead sorted allowed target).2).Perm sorted ∧
      (removeNFromHead sorted allowed target).2.map Prod.snd =
        Plain.removeFirst allowed target (sorted.map Prod.snd) := by
  obtain ⟨removed, kept, hremoved, hkept, hsub, hperm, hvalues⟩ :=
    foldl_removeStep target sorted [] [] allowed
  unfold removeNFromHead
  dsimp only
  rw [hremoved, hkept, append_nil, append_nil, reverse_reverse, reverse_reverse]
  exact ⟨hsub, hperm, hvalues⟩

theorem selectRemovals_spec [DecidableEq V] (count : Int) :
    (selectRemovals sorted count target).2.Sublist sorted ∧
      ((selectRemovals sorted count target).1 ++ (selectRemovals sorted count target).2).Perm
        sorted ∧
      (selectRemovals sorted count target).2.map Prod.snd =
        Plain.remove count target (sorted.map Prod.snd) := by
  unfold selectRemovals Plain.remove
  by_cases hzero : count = 0
  · rw [if_pos hzero, if_pos hzero]
    refine ⟨filter_sublist, ?_, ?_⟩
    · have hparts := filter_append_perm (fun entry => decide (entry.2 = target)) sorted
      simpa using hparts
    · rw [filter_map]
      rfl
  rw [if_neg hzero, if_neg hzero]
  by_cases hpos : 0 < count
  · rw [if_pos hpos, if_pos hpos]
    exact removeNFromHead_spec target sorted count.natAbs
  · rw [if_neg hpos, if_neg hpos]
    obtain ⟨hsub, hperm, hvalues⟩ := removeNFromHead_spec target sorted.reverse count.natAbs
    refine ⟨?_, ?_, ?_⟩
    · have hreversed := hsub.reverse
      rwa [reverse_reverse] at hreversed
    · exact ((reverse_perm _).append_left _).trans (hperm.trans (reverse_perm _))
    · rw [map_reverse, hvalues, map_reverse]

end

/-- `LREM` removes some occurrences of an element. -/
theorem lrem_simulates [DecidableEq V] (h : Holds budget stored entries)
    (hbudget : budget ≤ 2 * 10 ^ 10) (count : Int) (element : V) :
    Simulates (budget + 1) (lrem stored count element) (.integer ((entries.map Prod.snd).length -
          (Plain.remove count element (entries.map Prod.snd)).length : Nat),
        Plain.remove count element (entries.map Prod.snd)) := by
  obtain ⟨hsub, hperm, hvalues⟩ := selectRemovals_spec element entries count
  have hlength := hperm.length_eq
  rw [length_append] at hlength
  unfold lrem
  cases hinfo : stored.metadata with
  | none =>
    obtain rfl := h.eq_nil hinfo
    have hempty := sublist_nil.mp hsub
    rw [hempty] at hvalues
    exact ⟨by simp, [], h.mono (Nat.le_succ _), hvalues⟩
  | some info =>
    have hbounded := h.bounded hinfo
    dsimp only
    rw [h.sortedElements hbudget, hbounded.length_eq]
    dsimp only
    rw [← hvalues, length_map, length_map,
      show entries.length - (selectRemovals entries count element).2.length =
        (selectRemovals entries count element).1.length by omega]
    by_cases hnothing : (selectRemovals entries count element).1.length = 0
    · rw [if_pos hnothing, hnothing]
      refine ⟨rfl, entries, h.mono (Nat.le_succ _), ?_⟩
      rw [hsub.eq_of_length (by omega)]
    · rw [if_neg hnothing]
      refine ⟨rfl, _, ?_, rfl⟩
      have hkeep := Holds.keep h hbudget hinfo hsub hperm
      rwa [show (selectRemovals entries count element).2.length =
        entries.length - (selectRemovals entries count element).1.length by omega] at hkeep

end FerricStore.Lists
