import Mathlib

/-!
# Logs where the last writer wins

A log is a list of entries, each for a key and with an effect on that key: a value or its removal.
`replay` applies the entries in order and `newest` is the last entry of a key. What a key has after
a replay is what its newest entry says (`replay_apply`), so facts about replays are facts about
newest entries, and those go through concatenation (`newest_append`).
-/

namespace FerricStore.LastWriter

open List

variable {ε κ ν : Type} [DecidableEq κ] (keyOf : ε → κ) (effect : ε → Option ν)

/-- The last entry of a key. -/
def newest (key : κ) (log : List ε) : Option ε :=
  (log.filter fun entry => decide (keyOf entry = key)).getLast?

/-- The entries applied in order. -/
def replay (state : κ → Option ν) (log : List ε) : κ → Option ν :=
  log.foldl (fun state entry => Function.update state (keyOf entry) (effect entry)) state

variable {keyOf} {key : κ} {log : List ε} {entry : ε}

/-- The newest entry of a concatenation is in its second part if the key occurs there. -/
theorem newest_append (others : List ε) :
    newest keyOf key (log ++ others) = (newest keyOf key others).or (newest keyOf key log) := by
  rw [newest, filter_append, List.getLast?_append]
  rfl

theorem mem_of_newest (h : newest keyOf key log = some entry) : entry ∈ log ∧ keyOf entry = key := by
  have hmem := mem_of_getLast? h
  exact ⟨(mem_filter.mp hmem).1, of_decide_eq_true (mem_filter.mp hmem).2⟩

theorem newest_eq_none_iff : newest keyOf key log = none ↔ ∀ entry ∈ log, keyOf entry ≠ key := by
  rw [newest, List.getLast?_eq_none_iff, filter_eq_nil_iff]
  simp

theorem exists_newest (hmem : entry ∈ log) : ∃ last, newest keyOf (keyOf entry) log = some last := by
  cases h : newest keyOf (keyOf entry) log with
  | some last => exact ⟨last, rfl⟩
  | none => exact absurd rfl (newest_eq_none_iff.mp h entry hmem)

section

variable (h : newest keyOf key log = some entry)
include h

theorem filter_eq_of_newest :
    ∃ older, (log.filter fun entry => decide (keyOf entry = key)) = older ++ [entry] :=
  List.getLast?_eq_some_iff.mp h

/-- A newest entry that passes a filter stays the newest. -/
theorem newest_filter (p : ε → Bool) (hp : p entry = true) :
    newest keyOf key (log.filter p) = some entry := by
  obtain ⟨older, holder⟩ := filter_eq_of_newest h
  rw [newest, filter_comm, holder, filter_append, filter_cons_of_pos hp]
  simp

/-- In an ordered log every other entry of the key comes before the newest. -/
theorem eq_or_before_newest {R : ε → ε → Prop} (hordered : log.Pairwise R) {other : ε}
    (hmem : other ∈ log) (hkey : keyOf other = key) : other = entry ∨ R other entry := by
  obtain ⟨older, holder⟩ := filter_eq_of_newest h
  have hsub : (older ++ [entry]).Pairwise R := by
    rw [← holder]
    exact hordered.sublist filter_sublist
  have hother : other ∈ older ++ [entry] := by
    rw [← holder]
    exact mem_filter.mpr ⟨hmem, decide_eq_true hkey⟩
  rcases mem_append.mp hother with hold | hlast
  · exact Or.inr ((pairwise_append.mp hsub).2.2 other hold entry (mem_singleton_self _))
  · exact Or.inl (mem_singleton.mp hlast)

end

/-- One more entry. -/
theorem newest_concat (last : ε) : newest keyOf key (log ++ [last]) =
      if keyOf last = key then some last else newest keyOf key log := by
  by_cases h : keyOf last = key
  · simp [newest, h]
  · simp [newest, h]

/-- What a key has after a replay is what its newest entry says. -/
theorem replay_apply (state : κ → Option ν) (log : List ε) (key : κ) :
    replay keyOf effect state log key = (newest keyOf key log).elim (state key) effect := by
  induction log using List.reverseRecOn with
  | nil => rfl
  | append_singleton log last ih =>
    rw [replay, foldl_append, foldl_cons, foldl_nil, ← replay, newest_concat]
    by_cases h : keyOf last = key
    · rw [if_pos h, h, Function.update_self, Option.elim_some]
    · rw [if_neg h, Function.update_of_ne (Ne.symm h), ih]

end FerricStore.LastWriter
