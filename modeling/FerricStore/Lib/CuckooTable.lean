import Mathlib

/-!
# Cuckoo tables

A table of cells, each in a bucket and empty or holding a fingerprint. A fingerprint pairs every
bucket with an alternate one, and pairing twice leads back. `members` counts the cells of a pair of
buckets that hold a fingerprint, and `occupied` the cells that hold any. Putting a fingerprint into
a cell moves both counts by what goes and what comes (`card_filter_update`). An eviction chain
(`Evicts`) puts a fingerprint into an occupied cell and goes on with the one it drives out, at that
one's alternate bucket; whatever its length, it adds exactly one member to the class of the first
fingerprint and none to any other.
-/

namespace FerricStore.CuckooTable

open Function

/-- Buckets, with the alternate bucket of each under a fingerprint. -/
structure Pairing (β φ : Type) where
  buckets : Finset β
  alternate : φ → β → β
  alternate_mem : ∀ {f b}, b ∈ buckets → alternate f b ∈ buckets
  alternate_alternate : ∀ {f b}, b ∈ buckets → alternate f (alternate f b) = b

variable {β σ φ : Type} [DecidableEq β] [DecidableEq σ] [DecidableEq φ] (pairing : Pairing β φ)

/-- A bucket is one of the pair of another. -/
def Pairing.InPair (f : φ) (b c : β) : Prop :=
  c = b ∨ c = pairing.alternate f b

instance (pairing : Pairing β φ) (f : φ) (b c : β) : Decidable (pairing.InPair f b c) :=
  inferInstanceAs (Decidable (_ ∨ _))

omit [DecidableEq β] [DecidableEq φ] in
/-- A bucket and its alternate are in the same pair. -/
theorem Pairing.inPair_alternate {f : φ} {b c : β}
    (hb : b ∈ pairing.buckets) (hc : c ∈ pairing.buckets) :
    pairing.InPair f b (pairing.alternate f c) ↔ pairing.InPair f b c := by
  constructor
  · rintro (h | h)
    · exact .inr (by rw [← h, pairing.alternate_alternate hc])
    · refine .inl ?_
      rw [← pairing.alternate_alternate (f := f) hc, h, pairing.alternate_alternate hb]
  · rintro (h | h)
    · exact .inr (by rw [h])
    · exact .inl (by rw [h, pairing.alternate_alternate hb])

/-- What the cells hold. -/
abbrev Table (β σ φ : Type) := β × σ → Option φ

/-- The cells of a pair of buckets that hold a fingerprint. -/
def members (cells : Finset (β × σ)) (table : Table β σ φ) (f : φ) (b : β) : Nat :=
  (cells.filter fun cell => table cell = some f ∧ pairing.InPair f b cell.1).card

/-- The cells that hold a fingerprint. -/
def occupied (cells : Finset (β × σ)) (table : Table β σ φ) : Nat :=
  (cells.filter fun cell => table cell ≠ none).card

variable {cell : β × σ}

omit [DecidableEq φ] in
/-- A count of cells moves by the cell that is written. -/
theorem card_filter_update {cells : Finset (β × σ)} (hcell : cell ∈ cells)
    (table : Table β σ φ) (value : Option φ) (P : β × σ → Option φ → Prop)
    [∀ c v, Decidable (P c v)] :
    (cells.filter fun c => P c (update table cell value c)).card +
        (if P cell (table cell) then 1 else 0) =
      (cells.filter fun c => P c (table c)).card + (if P cell value then 1 else 0) := by
  have hrest : ∑ c ∈ cells.erase cell, (if P c (update table cell value c) then 1 else 0) =
      ∑ c ∈ cells.erase cell, if P c (table c) then 1 else 0 := by
    refine Finset.sum_congr rfl fun c hc => ?_
    rw [update_of_ne (Finset.ne_of_mem_erase hc)]
  rw [Finset.card_filter, Finset.card_filter, ← Finset.add_sum_erase _ _ hcell, hrest,
    ← Finset.add_sum_erase _ (fun c => if P c (table c) then 1 else 0) hcell, update_self]
  omega

variable {pairing} {cells : Finset (β × σ)}

/-- The members of a class after a write. -/
theorem members_update (pairing : Pairing β φ) (hcell : cell ∈ cells) (table : Table β σ φ)
    (value : Option φ) (f : φ) (b : β) :
    members pairing cells (update table cell value) f b +
        (if table cell = some f ∧ pairing.InPair f b cell.1 then 1 else 0) =
      members pairing cells table f b +
        (if value = some f ∧ pairing.InPair f b cell.1 then 1 else 0) :=
  card_filter_update hcell table value fun c v => v = some f ∧ pairing.InPair f b c.1

omit [DecidableEq φ] in
/-- The occupied cells after a write. -/
theorem occupied_update (hcell : cell ∈ cells) (table : Table β σ φ) (value : Option φ) :
    occupied cells (update table cell value) + (if table cell ≠ none then 1 else 0) =
      occupied cells table + (if value ≠ none then 1 else 0) :=
  card_filter_update hcell table value fun _ v => v ≠ none

variable {table : Table β σ φ}

/-- A fingerprint put into an empty cell is one more member of its class. -/
theorem members_place (hcell : cell ∈ cells) (hempty : table cell = none) (e f : φ) (b : β) :
    members pairing cells (update table cell (some e)) f b =
      members pairing cells table f b + (if e = f ∧ pairing.InPair f b cell.1 then 1 else 0) := by
  have h := members_update pairing hcell table (some e) f b
  rw [hempty, if_neg (by simp)] at h
  simpa using h

omit [DecidableEq φ] in
/-- A fingerprint put into an empty cell is one more occupied cell. -/
theorem occupied_place (hcell : cell ∈ cells) (hempty : table cell = none) (e : φ) :
    occupied cells (update table cell (some e)) = occupied cells table + 1 := by
  have h := occupied_update hcell table (some e)
  rw [hempty, if_neg (by simp), if_pos (by simp)] at h
  exact h

omit [DecidableEq φ] in
/-- An exchange leaves the number of occupied cells. -/
theorem occupied_exchange (hcell : cell ∈ cells) {e : φ} (hold : table cell = some e) (fp : φ) :
    occupied cells (update table cell (some fp)) = occupied cells table := by
  have h := occupied_update hcell table (some fp)
  rw [hold, if_pos (by simp), if_pos (by simp)] at h
  exact Nat.add_right_cancel h

/-- An eviction chain: a fingerprint takes the place of another, which finds an empty cell in its
alternate bucket or drives out the next. -/
inductive Evicts (pairing : Pairing β φ) (cells : Finset (β × σ)) :
    Table β σ φ → φ → β → Table β σ φ → Prop
  | place {table fp bucket slot e slot'} : (bucket, slot) ∈ cells → table (bucket, slot) = some e →
      (pairing.alternate e bucket, slot') ∈ cells →
      update table (bucket, slot) (some fp) (pairing.alternate e bucket, slot') = none →
      Evicts pairing cells table fp bucket
        (update (update table (bucket, slot) (some fp))
          (pairing.alternate e bucket, slot') (some e))
  | kick {table fp bucket slot e final} : (bucket, slot) ∈ cells → table (bucket, slot) = some e →
      Evicts pairing cells (update table (bucket, slot) (some fp)) e
        (pairing.alternate e bucket) final →
      Evicts pairing cells table fp bucket final

/-- One exchange moves one member from the class of what goes to the class of what comes. -/
theorem members_exchange {bucket : β} {slot : σ} {fp e f : φ} {b : β}
    (hcell : (bucket, slot) ∈ cells) (hbucket : bucket ∈ pairing.buckets)
    (hb : b ∈ pairing.buckets) (hold : table (bucket, slot) = some e) :
    members pairing cells (update table (bucket, slot) (some fp)) f b +
        (if e = f ∧ pairing.InPair f b (pairing.alternate e bucket) then 1 else 0) =
      members pairing cells table f b + (if fp = f ∧ pairing.InPair f b bucket then 1 else 0) := by
  have h := members_update pairing hcell table (some fp) f b
  rw [hold] at h
  simp only [Option.some.injEq] at h
  -- what is driven out stays in its class at its alternate bucket
  have hsame : (e = f ∧ pairing.InPair f b (pairing.alternate e bucket)) ↔
      e = f ∧ pairing.InPair f b bucket := by
    refine and_congr_right fun heq => ?_
    subst heq
    exact pairing.inPair_alternate hb hbucket
  rwa [if_congr hsame rfl rfl]

/-- An eviction chain adds one member to the class of its first fingerprint, and one occupied
cell. -/
theorem Evicts.counts {table final : Table β σ φ} {fp : φ} {bucket : β}
    (h : Evicts pairing cells table fp bucket final) (hbucket : bucket ∈ pairing.buckets) :
    (∀ f b, b ∈ pairing.buckets → members pairing cells final f b =
      members pairing cells table f b + (if fp = f ∧ pairing.InPair f b bucket then 1 else 0)) ∧
    occupied cells final = occupied cells table + 1 := by
  induction h with
  | place hcell hold hcell' hempty =>
    constructor
    · intro f b hb
      rw [members_place hcell' hempty]
      exact members_exchange hcell hbucket hb hold
    · rw [occupied_place hcell' hempty, occupied_exchange hcell hold]
  | kick hcell hold _ ih =>
    obtain ⟨hmembers, hoccupied⟩ := ih (pairing.alternate_mem hbucket)
    constructor
    · intro f b hb
      rw [hmembers f b hb]
      exact members_exchange hcell hbucket hb hold
    · rw [hoccupied, occupied_exchange hcell hold]

end FerricStore.CuckooTable
