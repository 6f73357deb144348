import FerricStore.Lib.EntriesBatch
import FerricStore.Lists.Plain

/-!
# What the rows of a list hold

The rows of a list are the encodings of entries in the order of their positions, and its metadata
counts them and bounds their positions. How far the boundaries can be from zero grows with the
number of operations, so that below 10^10 operations every position can be encoded, and what an
operation reads and writes is the same on the entries.
-/

namespace FerricStore.Lists

open Entries List

variable {V : Type} (budget : Nat)

/-- How far the boundaries can be after so many operations. -/
def reach : Int := 2 * budget * positionStep

theorem reach_succ : reach (budget + 1) = reach budget + 2 * positionStep := by
  unfold reach positionStep
  omega

/-- Metadata that counts the entries and bounds them. -/
structure Bounded (info : ListMeta) (entries : List (Int × V)) : Prop where
  length_eq : info.length = entries.length
  ne_nil : entries ≠ []
  inside : ∀ entry ∈ entries, info.leftPos < entry.1 ∧ entry.1 < info.rightPos
  left_ge : -reach budget ≤ info.leftPos
  right_le : info.rightPos ≤ reach budget

/-- The rows of a list are those of the entries. -/
structure Holds (stored : StoredList V) (entries : List (Int × V)) : Prop where
  elements : stored.elements = rename encodePosition entries
  sorted : Entries.Sorted entries
  length_le : entries.length ≤ budget
  metadata : stored.metadata.elim (entries = []) (Bounded budget · entries)

/-- A result and a plain one: the same reply, and rows that hold the plain values. -/
def Simulates (result : Reply V × StoredList V) (plain : Reply V × List V) : Prop :=
  result.1 = plain.1 ∧ ∃ entries, Holds budget result.2 entries ∧ entries.map Prod.snd = plain.2

/-! ## Rows and entries -/

/-- Positions that the boundaries can come to can be encoded. -/
theorem encodable_of_reach {budget : Nat} (hbudget : budget ≤ 2 * 10 ^ 10) {position : Int}
    (hlow : -reach budget ≤ position) (hhigh : position ≤ reach budget) : Encodable position := by
  unfold reach positionStep at hlow hhigh
  unfold Encodable positionLimit
  omega

section Rows

variable {budget} {stored : StoredList V} {entries : List (Int × V)}

/-- Entries within the boundaries have positions that can be encoded. -/
theorem Bounded.encodable {info : ListMeta} (h : Bounded budget info entries)
    (hbudget : budget ≤ 2 * 10 ^ 10) : ∀ entry ∈ entries, Encodable entry.1 := by
  intro entry hentry
  obtain ⟨hleft, hright⟩ := h.inside entry hentry
  exact encodable_of_reach hbudget (h.left_ge.trans hleft.le) (hright.le.trans h.right_le)

/-- Encoded entries are decoded. -/
theorem decodePositionPairs_rename (hall : ∀ entry ∈ entries, Encodable entry.1) :
    decodePositionPairs (rename encodePosition entries) = some entries := by
  induction entries with
  | nil => rfl
  | cons entry entries ih =>
    have hrest := ih (forall_mem_cons.mp hall).2
    unfold decodePositionPairs rename at hrest ⊢
    rw [map_cons, mapM_cons, hrest, decodePosition_encodePosition (hall entry mem_cons_self)]
    rfl

theorem putElements_rename {writes : List (Int × V)} (hwrites : ∀ write ∈ writes, Encodable write.1) :
    ∀ entries : List (Int × V), (∀ entry ∈ entries, Encodable entry.1) →
      putElements writes (rename encodePosition entries) = rename encodePosition
          (writes.foldl (fun entries write => put write.1 write.2 entries) entries) := by
  induction writes with
  | nil => exact fun _ _ => rfl
  | cons write writes ih =>
    intro entries hall
    have hwrite := hwrites write mem_cons_self
    have hrest := ih (forall_mem_cons.mp hwrites).2
      (put write.1 write.2 entries) fun entry hentry => by
        rcases mem_put hentry with rfl | hentry
        · exact hwrite
        · exact hall entry hentry
    rw [foldl_cons, ← hrest, putElements, putElements, foldl_cons,
      put_rename (P := Encodable) (fun _ _ => encodePosition_lt_iff) hwrite hall write.2]

/-- Writes that fit into a gap are put there. -/
theorem putElements_between {front writes back : List (Int × V)}
    (hall : ∀ entry ∈ front ++ (writes ++ back), Encodable entry.1)
    (hsorted : Entries.Sorted (front ++ (writes ++ back))) :
    putElements writes (rename encodePosition (front ++ back)) =
      rename encodePosition (front ++ (writes ++ back)) := by
  rw [putElements_rename (fun write hwrite => hall write (by simp [hwrite]))
    _ fun entry hentry => hall entry (by
      rcases mem_append.mp hentry with hentry | hentry <;> simp [hentry]),
    foldl_put_between hsorted]

theorem deleteElements_rename {removed : List (Int × V)}
    (hremoved : ∀ entry ∈ removed, Encodable entry.1) : ∀ entries : List (Int × V),
    (∀ entry ∈ entries, Encodable entry.1) →
      deleteElements removed (rename encodePosition entries) = rename encodePosition
          (removed.foldl (fun entries entry => erase entry.1 entries) entries) := by
  induction removed with
  | nil => exact fun _ _ => rfl
  | cons first removed ih =>
    intro entries hall
    have hfirst := hremoved first mem_cons_self
    have hrest := ih (forall_mem_cons.mp hremoved).2
      (erase first.1 entries) fun entry hentry =>
        hall entry (mem_of_mem_erase hentry)
    rw [foldl_cons, ← hrest, deleteElements, deleteElements, foldl_cons,
      erase_rename (P := Encodable) (fun _ _ => encodePosition_lt_iff) hfirst hall]

/-- Boundaries that have moved inwards bound the entries that are still between them. -/
theorem Bounded.inwards {larger : Nat} {info inner : ListMeta} {remaining : List (Int × V)}
    (h : Bounded budget info entries) (hle : budget ≤ larger) (hne : remaining ≠ [])
    (hlength : inner.length = remaining.length)
    (hinside : ∀ entry ∈ remaining, inner.leftPos < entry.1 ∧ entry.1 < inner.rightPos)
    (hleft : info.leftPos ≤ inner.leftPos) (hright : inner.rightPos ≤ info.rightPos) :
    Bounded larger inner remaining := by
  have hreach : reach budget ≤ reach larger := by
    unfold reach positionStep
    omega
  exact ⟨hlength, hne, hinside, (neg_le_neg hreach).trans (h.left_ge.trans hleft),
    hright.trans (h.right_le.trans hreach)⟩

section Held

variable (h : Holds budget stored entries)
include h

/-- A list without metadata has no entries. -/
theorem Holds.eq_nil (hinfo : stored.metadata = none) : entries = [] := by
  have hmeta := h.metadata
  rw [hinfo] at hmeta
  exact hmeta

/-- A list with metadata. -/
theorem Holds.bounded {info : ListMeta} (hinfo : stored.metadata = some info) :
    Bounded budget info entries := by
  have hmeta := h.metadata
  rw [hinfo] at hmeta
  exact hmeta

/-- A larger budget. -/
theorem Holds.mono {larger : Nat} (hle : budget ≤ larger) : Holds larger stored entries := by
  refine ⟨h.elements, h.sorted, h.length_le.trans hle, ?_⟩
  cases hinfo : stored.metadata with
  | none => exact h.eq_nil hinfo
  | some info =>
    have hbounded := h.bounded hinfo
    exact hbounded.inwards hle hbounded.ne_nil hbounded.length_eq hbounded.inside le_rfl le_rfl

theorem Holds.simulates {reply : Reply V} :
    Simulates (budget + 1) (reply, stored) (reply, entries.map Prod.snd) :=
  ⟨rfl, entries, h.mono (Nat.le_succ _), rfl⟩

variable (hbudget : budget ≤ 2 * 10 ^ 10)
include hbudget

/-- The entries of a list have positions that can be encoded. -/
theorem Holds.encodable : ∀ entry ∈ entries, Encodable entry.1 := by
  intro entry hentry
  cases hinfo : stored.metadata with
  | none =>
    rw [h.eq_nil hinfo] at hentry
    cases hentry
  | some info => exact (h.bounded hinfo).encodable hbudget entry hentry

theorem Holds.sortedElements : sortedElements stored = some entries := by
  rw [Lists.sortedElements, h.elements, decodePositionPairs_rename (h.encodable hbudget)]

theorem Holds.sortedSlice (start count : Nat) :
    sortedSlice stored start count = some ((entries.drop start).take count) := by
  rw [Lists.sortedSlice, h.elements, rename, ← map_drop, ← map_take]
  exact decodePositionPairs_rename fun entry hentry =>
    h.encodable hbudget entry (mem_of_mem_drop (mem_of_mem_take hentry))

theorem Holds.getElement {position : Int} (hposition : Encodable position) :
    getElement stored position = get position entries := by
  rw [Lists.getElement, h.elements]
  exact get_rename (P := Encodable) (fun _ _ => encodePosition_lt_iff) hposition
    (h.encodable hbudget)

/-- Deleting a part of the entries leaves the rows of the rest. -/
theorem Holds.deleteElements {removed remaining : List (Int × V)}
    (hsub : remaining.Sublist entries) (hperm : (removed ++ remaining).Perm entries) :
    deleteElements removed stored.elements = rename encodePosition remaining := by
  have hall := h.encodable hbudget
  rw [h.elements, deleteElements_rename (fun entry hentry =>
    hall entry (hperm.subset (mem_append_left _ hentry))) _ hall,
    foldl_erase_of_perm h.sorted hsub hperm]

end Held

end Rows

/-! ## Values at regular positions -/

/-- The values of a list at the positions of their indices. -/
def spread (f : Nat → Int) (values : List V) : List (Int × V) :=
  values.zipIdx.map fun pair => (f pair.2, pair.1)

section Spread

variable {f : Nat → Int} {values : List V}

@[simp] theorem length_spread : (spread f values).length = values.length := by
  rw [spread, length_map, length_zipIdx]

@[simp] theorem map_snd_spread : (spread f values).map Prod.snd = values := by
  rw [spread, map_map]
  exact zipIdx_map_fst 0 values

theorem mem_spread {entry : Int × V} (h : entry ∈ spread f values) :
    ∃ index < values.length, entry.1 = f index := by
  obtain ⟨pair, hpair, rfl⟩ := mem_map.mp h
  exact ⟨pair.2, snd_lt_of_mem_zipIdx hpair, rfl⟩

theorem sorted_spread (hf : StrictMono f) : Entries.Sorted (spread f values) := by
  refine pairwise_map.mpr (pairwise_iff_getElem.mpr fun i j hi hj hlt => ?_)
  rw [getElem_zipIdx, getElem_zipIdx]
  exact hf (by omega)

end Spread

end FerricStore.Lists
