import Mathlib

/-!
# Finite maps as sorted lists

A finite map from a linear order is the list of its entries in key order. `Entries.put`,
`Entries.erase`, `Entries.get` and `Entries.rank` are the operations on such a list, and
`SortedMap` is the list with the proof of its order. The `_append` lemmas say that an operation on
a concatenation whose parts lie on different sides of the key only touches one part: they carry
the operations of a search tree, whose contents are the concatenation of its children's.
-/

namespace FerricStore

open List

variable {K V : Type} [LinearOrder K]

namespace Entries

/-- The entries are in strict key order. -/
def Sorted (entries : List (K × V)) : Prop :=
  entries.Pairwise fun a b => a.1 < b.1

/-- The value of a key. -/
def get (key : K) : List (K × V) → Option V
  | [] => none
  | (k, v) :: rest => if k = key then some v else get key rest

/-- Adds an entry at its place, or replaces the value of its key. -/
def put (key : K) (value : V) : List (K × V) → List (K × V)
  | [] => [(key, value)]
  | (k, v) :: rest =>
    if key < k then (key, value) :: (k, v) :: rest
    else if k = key then (key, value) :: rest
    else (k, v) :: put key value rest

/-- Removes the entry of a key. -/
def erase (key : K) : List (K × V) → List (K × V)
  | [] => []
  | (k, v) :: rest => if k = key then rest else (k, v) :: erase key rest

/-- The number of keys below a key. -/
def rank (key : K) (entries : List (K × V)) : Nat :=
  entries.countP fun entry => decide (entry.1 < key)

/-- The entries at the positions from `start` up to `stop`. -/
def range (start stop : Nat) (entries : List (K × V)) : List (K × V) :=
  (entries.drop start).take (stop - start)

theorem sorted_append {l r : List (K × V)} :
    Sorted (l ++ r) ↔ Sorted l ∧ Sorted r ∧ ∀ a ∈ l, ∀ b ∈ r, a.1 < b.1 :=
  pairwise_append

variable {key : K} {l : List (K × V)}

/-- A key that does not occur has no value. -/
theorem get_eq_none (h : ∀ e ∈ l, e.1 ≠ key) : get key l = none := by
  induction l with
  | nil => rfl
  | cons e l ih =>
    obtain ⟨k, v⟩ := e
    rw [get, if_neg (h (k, v) (by simp)), ih fun e he => h e (by simp [he])]

theorem get_append (key : K) (l r : List (K × V)) :
    get key (l ++ r) = (get key l).or (get key r) := by
  induction l with
  | nil => rfl
  | cons e l ih =>
    rw [cons_append, get, get, ih]
    split <;> rfl

/-- A key above a first part is looked up in the second. -/
theorem get_append_right (h : ∀ e ∈ l, e.1 < key)
    (r : List (K × V)) : get key (l ++ r) = get key r := by
  rw [get_append, get_eq_none fun e he => (h e he).ne, Option.none_or]

variable {r : List (K × V)}

/-- An entry above a first part goes into the second. -/
theorem put_append_right (h : ∀ e ∈ l, e.1 < key) (value : V)
    (r : List (K × V)) : put key value (l ++ r) = l ++ put key value r := by
  induction l with
  | nil => rfl
  | cons e l ih =>
    obtain ⟨k, v⟩ := e
    have hk : k < key := h (k, v) (by simp)
    rw [cons_append, put, if_neg hk.not_gt, if_neg hk.ne,
      ih fun e he => h e (by simp [he]), cons_append]

/-- An entry below a second part goes into the first. -/
theorem put_append_left (h : ∀ e ∈ r, key < e.1) (value : V)
    (l : List (K × V)) : put key value (l ++ r) = put key value l ++ r := by
  induction l with
  | nil =>
    cases r with
    | nil => rfl
    | cons e r =>
      obtain ⟨k, v⟩ := e
      have hk : key < k := h (k, v) (by simp)
      rw [nil_append, put, put, if_pos hk, cons_append, nil_append]
  | cons e l ih =>
    rw [cons_append, put, put, ih]
    split_ifs <;> rfl

theorem erase_eq_eraseP (key : K) (l : List (K × V)) :
    erase key l = l.eraseP fun e => e.1 = key := by
  induction l with
  | nil => rfl
  | cons e l ih =>
    obtain ⟨k, v⟩ := e
    rw [erase, ih, eraseP_cons]
    by_cases heq : k = key <;> simp [heq]

/-- A key above a first part is removed from the second. -/
theorem erase_append_right (h : ∀ e ∈ l, e.1 < key)
    (r : List (K × V)) : erase key (l ++ r) = l ++ erase key r := by
  rw [erase_eq_eraseP, erase_eq_eraseP, eraseP_append_right _ fun e he => by simpa using (h e he).ne]

/-- Removing a key that does not occur changes nothing. -/
theorem erase_eq_self (h : ∀ e ∈ l, e.1 ≠ key) : erase key l = l := by
  rw [erase_eq_eraseP, eraseP_of_forall_not fun e he => by simpa using h e he]

/-- A key below a second part is removed from the first. -/
theorem erase_append_left (h : ∀ e ∈ r, key < e.1)
    (l : List (K × V)) : erase key (l ++ r) = erase key l ++ r := by
  induction l with
  | nil => exact erase_eq_self fun e he => (h e he).ne'
  | cons e l ih =>
    rw [cons_append, erase, erase, ih]
    split_ifs <;> rfl

/-- Removing a key without a value changes nothing. -/
theorem erase_of_get_eq_none (h : get key l = none) : erase key l = l := by
  induction l with
  | nil => rfl
  | cons e l ih =>
    obtain ⟨k, v⟩ := e
    by_cases heq : k = key
    · rw [get, if_pos heq] at h
      cases h
    · rw [get, if_neg heq] at h
      rw [erase, if_neg heq, ih h]

theorem rank_append_right (h : ∀ e ∈ l, e.1 < key)
    (r : List (K × V)) : rank key (l ++ r) = l.length + rank key r := by
  rw [rank, countP_append, countP_eq_length.mpr (by simpa using h), rank]

/-- A key below a second part has none of it below. -/
theorem rank_append_left (h : ∀ e ∈ r, key ≤ e.1)
    (l : List (K × V)) : rank key (l ++ r) = rank key l := by
  have hzero : r.countP (fun e => decide (e.1 < key)) = 0 :=
    countP_eq_zero.mpr fun e he => by simpa using h e he
  rw [rank, countP_append, hzero, Nat.add_zero, rank]

variable {value : V}

/-- What `put` holds: the new entry and old ones. -/
theorem mem_put {e : K × V} (h : e ∈ put key value l) : e = (key, value) ∨ e ∈ l := by
  induction l with
  | nil => exact .inl (by simpa [put] using h)
  | cons first l ih =>
    rw [put] at h
    split_ifs at h
    · simpa using h
    · rcases mem_cons.mp h with rfl | h
      · exact .inl rfl
      · exact .inr (by simp [h])
    · rcases mem_cons.mp h with rfl | h
      · exact .inr (by simp)
      · rcases ih h with h | h
        · exact .inl h
        · exact .inr (by simp [h])

/-- What `erase` holds: old entries. -/
theorem mem_of_mem_erase {e : K × V} (h : e ∈ erase key l) : e ∈ l :=
  mem_of_mem_eraseP (erase_eq_eraseP key l ▸ h)

/-- Adding keeps the order. -/
theorem sorted_put (h : Sorted l) (key : K) (value : V) : Sorted (put key value l) := by
  induction l with
  | nil => simp [put, Sorted]
  | cons first l ih =>
    obtain ⟨hfirst, hrest⟩ := pairwise_cons.mp h
    rw [put]
    split_ifs with hlt heq
    · exact pairwise_cons.mpr ⟨forall_mem_cons.mpr ⟨hlt, fun e he => hlt.trans (hfirst e he)⟩, h⟩
    · exact pairwise_cons.mpr ⟨fun e he => heq ▸ hfirst e he, hrest⟩
    · refine pairwise_cons.mpr ⟨fun e he => ?_, ih hrest⟩
      rcases mem_put he with rfl | he
      · exact lt_of_le_of_ne (not_lt.mp hlt) heq
      · exact hfirst e he

/-- Removing keeps the order. -/
theorem sorted_erase (h : Sorted l) (key : K) : Sorted (erase key l) :=
  erase_eq_eraseP key l ▸ h.eraseP _

/-- Adding a new key makes the map one longer; replacing keeps its length. -/
theorem length_put (h : Sorted l) (key : K) (value : V) :
    (put key value l).length = if (get key l).isNone then l.length + 1 else l.length := by
  induction l with
  | nil => rfl
  | cons first l ih =>
    obtain ⟨k, v⟩ := first
    obtain ⟨hfirst, hrest⟩ := pairwise_cons.mp h
    rw [put, get]
    by_cases hlt : key < k
    · have habsent : get key l = none := get_eq_none fun e he => (hlt.trans (hfirst e he)).ne'
      rw [if_pos hlt, if_neg hlt.ne', habsent]
      simp
    · by_cases heq : k = key
      · rw [if_neg hlt, if_pos heq, if_pos heq]
        simp
      · rw [if_neg hlt, if_neg heq, if_neg heq, length_cons, ih hrest]
        split <;> simp

/-- Removing a key that occurs makes the map one shorter. -/
theorem length_erase (h : get key l = some value) : (erase key l).length + 1 = l.length := by
  induction l with
  | nil => cases h
  | cons first l ih =>
    rw [get] at h
    rw [erase]
    split_ifs at h ⊢
    · rfl
    · rw [length_cons, ih h, length_cons]

/-- A lookup after adding. -/
theorem get_put (key key' : K) (value : V) (l : List (K × V)) :
    get key' (put key value l) = if key' = key then some value else get key' l := by
  induction l with
  | nil => simp [put, get, eq_comm]
  | cons first l ih =>
    obtain ⟨k, v⟩ := first
    rw [put]
    by_cases hlt : key < k
    · rw [if_pos hlt, get]
      simp [eq_comm]
    · by_cases heq : k = key
      · rw [if_neg hlt, if_pos heq, get, get, heq]
        by_cases hkey : key = key'
        · rw [if_pos hkey, if_pos hkey.symm]
        · rw [if_neg hkey, if_neg (Ne.symm hkey), if_neg hkey]
      · rw [if_neg hlt, if_neg heq, get, get, ih]
        by_cases hkey : key' = key
        · rw [if_pos hkey, if_pos hkey, if_neg (hkey ▸ heq)]
        · rw [if_neg hkey, if_neg hkey]

/-- A lookup after removing. -/
theorem get_erase (h : Sorted l) (key key' : K) :
    get key' (erase key l) = if key' = key then none else get key' l := by
  induction l with
  | nil => simp [erase, get]
  | cons first l ih =>
    obtain ⟨hfirst, hrest⟩ := pairwise_cons.mp h
    rw [erase]
    split_ifs with heq hkey hkey
    · exact get_eq_none fun e he => by
        rw [hkey, ← heq]
        exact (hfirst e he).ne'
    · rw [get, heq, if_neg (Ne.symm hkey)]
    · rw [get, ih hrest, if_pos hkey, if_neg (hkey ▸ heq)]
    · rw [get, ih hrest, if_neg hkey, get]

/-- A key has a value exactly when it occurs with it. -/
theorem get_eq_some_iff (h : Sorted l) : get key l = some value ↔ (key, value) ∈ l := by
  induction l with
  | nil => simp [get]
  | cons first l ih =>
    obtain ⟨k, v⟩ := first
    obtain ⟨hfirst, hrest⟩ := pairwise_cons.mp h
    rw [get, mem_cons]
    split_ifs with heq
    · subst heq
      constructor
      · intro hv
        exact .inl (by rw [Option.some.inj hv])
      · intro hmem
        rcases hmem with hmem | hmem
        · rw [(Prod.mk.inj hmem).2]
        · exact absurd (hfirst _ hmem) (lt_irrefl k)
    · rw [ih hrest]
      constructor
      · exact .inr
      · intro hmem
        rcases hmem with hmem | hmem
        · exact absurd (Prod.mk.inj hmem).1.symm heq
        · exact hmem

/-- Sorted lists with the same lookups are the same list. -/
theorem sorted_ext {l r : List (K × V)} (hl : Sorted l) (hr : Sorted r)
    (h : ∀ key, get key l = get key r) : l = r := by
  have hmem : ∀ e, e ∈ l ↔ e ∈ r := by
    intro e
    obtain ⟨key, value⟩ := e
    rw [← get_eq_some_iff hl, ← get_eq_some_iff hr, h key]
  have hnodup : ∀ {l : List (K × V)}, Sorted l → l.Nodup := fun hs =>
    hs.imp fun hlt heq => absurd (congrArg Prod.fst heq) hlt.ne
  exact ((perm_ext_iff_of_nodup (hnodup hl) (hnodup hr)).mpr hmem).eq_of_pairwise
    (fun a b _ _ hab hba => absurd (hab.trans hba) (lt_irrefl _)) hl hr

end Entries

/-- A finite map: its entries in key order. -/
structure SortedMap (K V : Type) [LinearOrder K] where
  entries : List (K × V)
  sorted : Entries.Sorted entries

namespace SortedMap

/-- The map without entries. -/
def empty : SortedMap K V := ⟨[], List.Pairwise.nil⟩

variable (m : SortedMap K V)

/-- The value of a key. -/
def get (key : K) : Option V := Entries.get key m.entries

/-- Adds or replaces an entry. -/
def put (key : K) (value : V) : SortedMap K V :=
  ⟨Entries.put key value m.entries, Entries.sorted_put m.sorted key value⟩

/-- Removes the entry of a key. -/
def erase (key : K) : SortedMap K V :=
  ⟨Entries.erase key m.entries, Entries.sorted_erase m.sorted key⟩

/-- The number of keys below a key. -/
def rank (key : K) : Nat := Entries.rank key m.entries

/-- The entries at the positions from `start` up to `stop`, in key order. -/
def range (start stop : Nat) : List (K × V) :=
  Entries.range start stop m.entries

/-- Maps with the same lookups are equal. -/
@[ext] theorem ext {m m' : SortedMap K V} (h : ∀ key, m.get key = m'.get key) : m = m' := by
  obtain ⟨entries, sorted⟩ := m
  obtain ⟨entries', sorted'⟩ := m'
  obtain rfl : entries = entries' := Entries.sorted_ext sorted sorted' h
  rfl

@[simp] theorem get_put (key key' : K) (value : V) :
    (m.put key value).get key' = if key' = key then some value else m.get key' :=
  Entries.get_put key key' value m.entries

/-- What holds of a new entry and of those that were there holds of every entry after a put. -/
theorem forall_put {P : K → V → Prop} {m : SortedMap K V} {key : K} {value : V} (hnew : P key value)
    (hold : ∀ key' value', m.get key' = some value' → P key' value') (key' : K) (value' : V)
    (h : (m.put key value).get key' = some value') : P key' value' := by
  rw [get_put] at h
  split at h
  · rename_i heq
    cases h
    exact heq ▸ hnew
  · exact hold key' value' h

@[simp] theorem get_erase (key key' : K) :
    (m.erase key).get key' = if key' = key then none else m.get key' :=
  Entries.get_erase m.sorted key key'

/-- The number of entries. -/
def size : Nat := m.entries.length

theorem size_put (key : K) (value : V) :
    (m.put key value).size = if (m.get key).isNone then m.size + 1 else m.size :=
  Entries.length_put m.sorted key value

variable {key : K} {value : V} {m}

theorem size_erase (h : m.get key = some value) : (m.erase key).size + 1 = m.size :=
  Entries.length_erase h

theorem get_eq_some_iff : m.get key = some value ↔ (key, value) ∈ m.entries :=
  Entries.get_eq_some_iff m.sorted

/-- A map whose entries are found in another under different keys is no larger. -/
theorem size_le_size {K' : Type} [LinearOrder K'] {m' : SortedMap K' V}
    (rename : K × V → K') (hinjective : ∀ a ∈ m.entries, ∀ b ∈ m.entries,
      rename a = rename b → a.1 = b.1)
    (hfound : ∀ key value, m.get key = some value → m'.get (rename (key, value)) = some value) :
    m.size ≤ m'.size := by
  have hnodup : (m.entries.map rename).Nodup := by
    refine pairwise_map.mpr (m.sorted.imp_of_mem fun {a b} ha hb hlt heq => ?_)
    exact hlt.ne (hinjective a ha b hb heq)
  have hsubset : m.entries.map rename ⊆ m'.entries.map Prod.fst := by
    intro key hkey
    obtain ⟨entry, hentry, rfl⟩ := mem_map.mp hkey
    have hget := hfound entry.1 entry.2 (get_eq_some_iff.mpr hentry)
    exact mem_map.mpr ⟨_, get_eq_some_iff.mp hget, rfl⟩
  have hle := (hnodup.subperm hsubset).length_le
  rwa [length_map, length_map] at hle

@[simp] theorem get_empty (key : K) : (empty : SortedMap K V).get key = none := rfl

end SortedMap

end FerricStore
