import FerricStore.Lib.SortedMap

/-!
# Totals over finite maps

The entries of a map with one added or removed are the other entries and that one, so a total over
the entries changes by the amount of that one. Maps are also filtered here.
-/

namespace FerricStore

variable {K V : Type} [LinearOrder K]

namespace Entries

variable {l : List (K × V)}

/-- An added entry stands beside the other entries. -/
theorem perm_put (h : Sorted l) (key : K) (value : V) :
    (put key value l).Perm ((key, value) :: erase key l) := by
  induction l with
  | nil => exact List.Perm.refl _
  | cons entry rest ih =>
    obtain ⟨k, v⟩ := entry
    have hrest := (List.pairwise_cons.mp h).2
    simp only [put, erase]
    by_cases hlt : key < k
    · have habsent : ∀ e ∈ rest, e.1 ≠ key := fun e he =>
        (hlt.trans ((List.pairwise_cons.mp h).1 e he)).ne'
      rw [if_pos hlt, if_neg hlt.ne', erase_eq_self habsent]
    · rw [if_neg hlt]
      by_cases heq : k = key
      · rw [if_pos heq, if_pos heq]
      · rw [if_neg heq, if_neg heq]
        exact ((ih hrest).cons _).trans (List.Perm.swap _ _ _)

/-- A present entry stands beside the other entries. -/
theorem perm_erase {key : K} {value : V} (h : get key l = some value) :
    l.Perm ((key, value) :: erase key l) := by
  induction l with
  | nil => cases h
  | cons entry rest ih =>
    obtain ⟨k, v⟩ := entry
    simp only [get] at h
    simp only [erase]
    split at h
    · rename_i heq
      cases h
      rw [if_pos heq, heq]
    · rename_i hne
      rw [if_neg hne]
      exact ((ih h).cons _).trans (List.Perm.swap _ _ _)

/-- Changes the values in key order; what is left to do is handed from one entry to the next. -/
def mapAccum {σ : Type} (f : K → V → σ → V × σ) : List (K × V) → σ → List (K × V)
  | [], _ => []
  | (k, v) :: rest, left => (k, (f k v left).1) :: mapAccum f rest (f k v left).2

variable {σ : Type}

omit [LinearOrder K] in
theorem keys_mapAccum (f : K → V → σ → V × σ) (l : List (K × V)) (left : σ) :
    (mapAccum f l left).map Prod.fst = l.map Prod.fst := by
  induction l generalizing left with
  | nil => rfl
  | cons entry rest ih => simp [mapAccum, ih]

theorem sorted_mapAccum {f : K → V → σ → V × σ} (h : Sorted l)
    (left : σ) : Sorted (mapAccum f l left) := by
  have hkeys : ((mapAccum f l left).map Prod.fst).Pairwise (· < ·) := by
    rw [keys_mapAccum]
    exact List.pairwise_map.mpr h
  exact List.pairwise_map.mp hkeys

/-- A changed value comes from the value of its key. -/
theorem get_mapAccum {f : K → V → σ → V × σ} {key : K} :
    ∀ {l : List (K × V)} {left : σ}, ∃ left', get key (mapAccum f l left) =
      (get key l).map fun value => (f key value left').1 := by
  intro l
  induction l with
  | nil => exact fun {left} => ⟨left, rfl⟩
  | cons entry rest ih =>
    intro left
    obtain ⟨k, v⟩ := entry
    by_cases heq : k = key
    · subst heq
      exact ⟨left, by simp [mapAccum, get]⟩
    · obtain ⟨left', hleft⟩ := @ih (f k v left).2
      exact ⟨left', by simp [mapAccum, get, heq, hleft]⟩

end Entries

namespace SortedMap

/-- The sum of an amount of every entry. -/
def total (amount : K → V → Nat) (m : SortedMap K V) : Nat :=
  (m.entries.map fun entry => amount entry.1 entry.2).sum

variable (amount : K → V → Nat)

theorem total_put (m : SortedMap K V) (key : K) (value : V) :
    (m.put key value).total amount = amount key value + (m.erase key).total amount := by
  have hperm := (Entries.perm_put m.sorted key value).map fun entry => amount entry.1 entry.2
  simpa [total, put, erase] using hperm.sum_eq

variable {key : K} {m : SortedMap K V}

theorem total_erase {value : V} (h : m.get key = some value) :
    m.total amount = amount key value + (m.erase key).total amount := by
  have hperm := (Entries.perm_erase h).map fun entry => amount entry.1 entry.2
  simpa [total, erase] using hperm.sum_eq

/-- Removing a key that does not occur changes nothing. -/
theorem erase_of_get_eq_none (h : m.get key = none) : m.erase key = m := by
  ext other : 1
  rw [get_erase]
  split
  · rename_i heq
    rw [heq, h]
  · rfl

/-- The total after adding or replacing, in terms of what was there. -/
theorem total_put_add (m : SortedMap K V) (key : K) (value : V) :
    (m.put key value).total amount + ((m.get key).map (amount key)).getD 0 =
      m.total amount + amount key value := by
  rw [total_put]
  cases hget : m.get key with
  | none =>
    rw [erase_of_get_eq_none hget]
    simp only [Option.map_none, Option.getD_none]
    omega
  | some old =>
    rw [total_erase amount hget]
    simp only [Option.map_some, Option.getD_some]
    omega

/-- A total of amounts that are all zero is zero. -/
theorem total_eq_zero (h : ∀ key value, m.get key = some value →
    amount key value = 0) : m.total amount = 0 := by
  refine List.sum_eq_zero fun n hn => ?_
  obtain ⟨entry, hentry, rfl⟩ := List.mem_map.mp hn
  exact h _ _ (get_eq_some_iff.mpr hentry)

theorem le_total {value : V} (h : m.get key = some value) : amount key value ≤ m.total amount := by
  rw [total_erase amount h]
  exact Nat.le_add_right _ _

section

variable (m : SortedMap K V) (keep : K → V → Bool)

/-- The entries that are kept. -/
def filter : SortedMap K V :=
  ⟨m.entries.filter fun entry => keep entry.1 entry.2, m.sorted.filter _⟩

/-- A lookup in a filtered map. -/
@[simp] theorem get_filter (key : K) :
    (m.filter keep).get key = (m.get key).filter (keep key) := by
  ext value
  simp only [get_eq_some_iff, Option.filter_eq_some_iff]
  simp [filter]

theorem total_filter_le : (m.filter keep).total amount ≤ m.total amount :=
  (List.filter_sublist.map _).sum_le_sum fun _ _ => Nat.zero_le _

end

/-- Filtering with a test that every entry passes changes nothing. -/
theorem filter_eq_self {keep : K → V → Bool}
    (h : ∀ key value, m.get key = some value → keep key value = true) : m.filter keep = m := by
  ext key : 1
  rw [get_filter]
  cases hget : m.get key with
  | none => rfl
  | some value => simp [Option.filter, h key value hget]

/-- Changes the values in key order. -/
def mapAccum {σ : Type} (m : SortedMap K V) (f : K → V → σ → V × σ) (left : σ) : SortedMap K V :=
  ⟨Entries.mapAccum f m.entries left, Entries.sorted_mapAccum m.sorted left⟩

theorem get_mapAccum {σ : Type} (m : SortedMap K V) (f : K → V → σ → V × σ) (left : σ) (key : K) :
    ∃ left', (m.mapAccum f left).get key = (m.get key).map fun value => (f key value left').1 :=
  Entries.get_mapAccum

/-- A total that no change touches. -/
theorem total_mapAccum {σ : Type} {amount : K → V → Nat} {f : K → V → σ → V × σ}
    (h : ∀ key value left, amount key (f key value left).1 = amount key value)
    (m : SortedMap K V) (left : σ) : (m.mapAccum f left).total amount = m.total amount := by
  obtain ⟨entries, sorted⟩ := m
  show ((Entries.mapAccum f entries left).map _).sum = (entries.map _).sum
  clear sorted
  induction entries generalizing left with
  | nil => rfl
  | cons entry rest ih => simp [Entries.mapAccum, h, ih]

end SortedMap

end FerricStore
