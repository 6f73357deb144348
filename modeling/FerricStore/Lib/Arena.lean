import Mathlib

/-!
# Edits of an arena

An arena is a list of nodes that name each other by position. `Edit nodes nodes' owned owned'` says
that a computation which owned the positions `owned` left every other node as it was, and that
what it owns now was its own or is new. Edits compose, and an edit of a part is an edit of the
whole (`Edit.context`), which is the frame rule.
-/

namespace FerricStore.Arena

open List

variable {α : Type} {nodes nodes' nodes'' : List α} {owned owned' owned'' : List Nat}

/-- A computation that owned some nodes changed no others. -/
structure Edit (nodes nodes' : List α) (owned owned' : List Nat) : Prop where
  grows : nodes.length ≤ nodes'.length
  frame : ∀ i < nodes.length, i ∉ owned → nodes'[i]? = nodes[i]?
  nodup : owned'.Nodup
  bound : ∀ i ∈ owned', i < nodes'.length
  fresh : ∀ i ∈ owned', i ∈ owned ∨ nodes.length ≤ i

namespace Edit

theorem refl (hnodup : owned.Nodup) (hbound : ∀ i ∈ owned, i < nodes.length) :
    Edit nodes nodes owned owned :=
  ⟨le_rfl, fun _ _ _ => rfl, hnodup, hbound, fun _ h => .inl h⟩

section

variable (h : Edit nodes nodes' owned owned')
include h

/-- One edit after another. -/
theorem trans (h' : Edit nodes' nodes'' owned' owned'') : Edit nodes nodes'' owned owned'' := by
  refine ⟨h.grows.trans h'.grows, fun i hi howned => ?_, h'.nodup, h'.bound, fun i hi => ?_⟩
  · have hnot : i ∉ owned' := fun hmem => by
      rcases h.fresh i hmem with hold | hnew
      · exact howned hold
      · omega
    rw [h'.frame i (hi.trans_le h.grows) hnot, h.frame i hi howned]
  · rcases h'.fresh i hi with hold | hnew
    · exact h.fresh i hold
    · exact .inr (h.grows.trans hnew)

theorem shrink (hnodup : owned''.Nodup)
    (hsub : ∀ i ∈ owned'', i ∈ owned') : Edit nodes nodes' owned owned'' :=
  ⟨h.grows, h.frame, hnodup, fun i hi => h.bound i (hsub i hi), fun i hi => h.fresh i (hsub i hi)⟩

theorem widen {more : List Nat} (hsub : ∀ i ∈ owned, i ∈ more) : Edit nodes nodes' more owned' :=
  ⟨h.grows, fun i hi hmore => h.frame i hi fun howned => hmore (hsub i howned), h.nodup, h.bound,
    fun i hi => (h.fresh i hi).imp_left (hsub i)⟩

theorem survives {i : Nat} {node : α}
    (hnode : nodes[i]? = some node) (hi : i ∉ owned) : nodes'[i]? = some node := by
  obtain ⟨hlt, -⟩ := List.getElem?_eq_some_iff.mp hnode
  rw [h.frame i hlt hi, hnode]

/-- An edit of a part is an edit of the whole. -/
theorem context {before after : List Nat} (hnodup : (before ++ (owned ++ after)).Nodup)
    (hbound : ∀ i ∈ before ++ (owned ++ after), i < nodes.length) :
    Edit nodes nodes' (before ++ (owned ++ after)) (before ++ (owned' ++ after)) := by
  obtain ⟨hbefore, hrest, hdisjoint⟩ := nodup_append.mp hnodup
  obtain ⟨-, hafter, hdisjoint'⟩ := nodup_append.mp hrest
  -- what the part owns now is its own or new, so it meets neither side
  have hapart : ∀ i ∈ owned', i ∉ before ∧ i ∉ after := by
    intro i hi
    rcases h.fresh i hi with hold | hnew
    · exact ⟨fun hb => hdisjoint i hb i (mem_append_left _ hold) rfl,
        fun ha => hdisjoint' i hold i ha rfl⟩
    · refine ⟨fun hb => ?_, fun ha => ?_⟩
      · have := hbound i (mem_append_left _ hb)
        omega
      · have := hbound i (mem_append_right _ (mem_append_right _ ha))
        omega
  refine ⟨h.grows, fun i hi hnot => h.frame i hi fun hmem => hnot ?_, ?_, ?_, ?_⟩
  · exact mem_append_right _ (mem_append_left _ hmem)
  · refine nodup_append.mpr ⟨hbefore, nodup_append.mpr ⟨h.nodup, hafter, ?_⟩, ?_⟩
    · rintro i hi j hj rfl
      exact (hapart i hi).2 hj
    · rintro i hi j hj rfl
      rcases mem_append.mp hj with hj | hj
      · exact (hapart i hj).1 hi
      · exact hdisjoint i hi i (mem_append_right _ hj) rfl
  · intro i hi
    simp only [mem_append] at hi
    rcases hi with hi | hi | hi
    · exact (hbound i (mem_append_left _ hi)).trans_le h.grows
    · exact h.bound i hi
    · exact (hbound i (mem_append_right _ (mem_append_right _ hi))).trans_le h.grows
  · intro i hi
    simp only [mem_append] at hi ⊢
    rcases hi with hi | hi | hi
    · exact .inl (.inl hi)
    · rcases h.fresh i hi with hold | hnew
      · exact .inl (.inr (.inl hold))
      · exact .inr hnew
    · exact .inl (.inr (.inr hi))

end

/-- Replacing an owned node. -/
theorem set {i : Nat} (hi : i ∈ owned) (hnodup : owned.Nodup)
    (hbound : ∀ i ∈ owned, i < nodes.length) (node : α) :
    Edit nodes (nodes.set i node) owned owned := by
  refine ⟨by simp, fun j _ hj => ?_, hnodup, by simpa using hbound, fun _ h => .inl h⟩
  rw [List.getElem?_set_ne]
  rintro rfl
  exact hj hi

/-- Adding a node at the end. -/
theorem push (hnodup : owned.Nodup) (hbound : ∀ i ∈ owned, i < nodes.length) (node : α) :
    Edit nodes (nodes ++ [node]) owned (owned ++ [nodes.length]) := by
  refine ⟨by simp, fun i hi _ => List.getElem?_append_left hi, ?_, ?_, ?_⟩
  · refine nodup_append.mpr ⟨hnodup, nodup_singleton _, ?_⟩
    rintro i hi j hj rfl
    rw [mem_singleton] at hj
    have := hbound i hi
    omega
  · intro i hi
    rw [length_append, length_singleton]
    rcases mem_append.mp hi with hi | hi
    · have := hbound i hi
      omega
    · rw [mem_singleton] at hi
      omega
  · intro i hi
    rcases mem_append.mp hi with hi | hi
    · exact .inl hi
    · rw [mem_singleton] at hi
      exact .inr hi.ge

end Edit

end FerricStore.Arena
