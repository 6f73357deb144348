import FerricStore.Lib.SortedMap

/-!
# Batches of entries, and entries under renamed keys

Writing a sorted batch into a gap of a sorted list puts it there as a whole, and removing a batch
leaves the entries of the other keys. A renaming of keys that keeps their order commutes with the
operations.
-/

namespace FerricStore.Entries

open List

variable {K V : Type} [LinearOrder K] {key : K}

theorem put_of_lt {r : List (K × V)} (h : ∀ e ∈ r, key < e.1) (value : V) :
    put key value r = (key, value) :: r := by
  have := put_append_left h value []
  rwa [nil_append] at this

/-- A batch that fits into a gap is put there. -/
theorem foldl_put_between {writes back : List (K × V)} : ∀ {front : List (K × V)},
    Sorted (front ++ (writes ++ back)) →
    writes.foldl (fun entries write => put write.1 write.2 entries) (front ++ back) =
      front ++ (writes ++ back) := by
  induction writes with
  | nil => exact fun _ => rfl
  | cons write writes ih =>
    intro front h
    obtain ⟨hfront, hrest, hcross⟩ := sorted_append.mp h
    obtain ⟨hfirst, -⟩ := pairwise_cons.mp hrest
    have hstep : put write.1 write.2 (front ++ back) = front ++ [write] ++ back := by
      rw [put_append_right (fun e he => hcross e he write mem_cons_self),
        put_of_lt fun e he => hfirst e (mem_append_right _ he), append_assoc]
      rfl
    rw [foldl_cons, hstep, ih (by simpa using h), append_assoc]
    rfl

variable {l : List (K × V)}

theorem Sorted.keys_nodup (h : Sorted l) : (l.map Prod.fst).Nodup :=
  pairwise_map.mpr (h.imp fun hlt => hlt.ne)

/-- Removing a key leaves the entries of the others. -/
theorem erase_eq_filter (h : Sorted l) (key : K) :
    erase key l = l.filter fun e => decide (e.1 ≠ key) := by
  induction l with
  | nil => rfl
  | cons first l ih =>
    obtain ⟨k, v⟩ := first
    obtain ⟨hfirst, hrest⟩ := pairwise_cons.mp h
    rw [erase]
    by_cases hkey : k = key
    · have hothers : l.filter (fun e => decide (e.1 ≠ key)) = l := filter_eq_self.mpr fun e he => by
          rw [← hkey]
          simpa using (hfirst e he).ne'
      rw [if_pos hkey, filter_cons, if_neg (by simpa using hkey), hothers]
    · rw [if_neg hkey, filter_cons, if_pos (by simpa using hkey), ih hrest]

/-- Removing a batch leaves the entries of the other keys. -/
theorem foldl_erase_eq_filter {removed : List (K × V)} : ∀ {l : List (K × V)}, Sorted l →
    removed.foldl (fun entries entry => erase entry.1 entries) l =
      l.filter fun e => decide (e.1 ∉ removed.map Prod.fst) := by
  induction removed with
  | nil =>
    intro l _
    exact (filter_eq_self.mpr fun e _ => by simp).symm
  | cons entry removed ih =>
    intro l h
    rw [foldl_cons, ih (sorted_erase h entry.1), erase_eq_filter h, filter_filter]
    refine filter_congr fun e _ => ?_
    by_cases hkey : e.1 = entry.1 <;> simp [hkey]

/-- Removing a part of a sorted list leaves the rest. -/
theorem foldl_erase_of_perm {removed remaining l : List (K × V)} (h : Sorted l)
    (hsub : remaining.Sublist l) (hperm : (removed ++ remaining).Perm l) :
    removed.foldl (fun entries entry => erase entry.1 entries) l = remaining := by
  rw [foldl_erase_eq_filter h]
  have hkeys : ((removed ++ remaining).map Prod.fst).Nodup :=
    (hperm.map Prod.fst).nodup_iff.mpr h.keys_nodup
  rw [map_append, nodup_append] at hkeys
  obtain ⟨-, -, hdisjoint⟩ := hkeys
  have hkept : remaining.filter (fun e => decide (e.1 ∉ removed.map Prod.fst)) = remaining :=
    filter_eq_self.mpr fun e he => decide_eq_true fun hmem =>
      hdisjoint e.1 hmem e.1 (mem_map_of_mem he) rfl
  have hgone : removed.filter (fun e => decide (e.1 ∉ removed.map Prod.fst)) = [] :=
    filter_eq_nil_iff.mpr fun e he => by
      simpa using ⟨e.2, he⟩
  have hlength := (hperm.filter fun e => decide (e.1 ∉ removed.map Prod.fst)).length_eq
  rw [filter_append, hgone, hkept, nil_append] at hlength
  have hfiltered := hsub.filter fun e => decide (e.1 ∉ removed.map Prod.fst)
  rw [hkept] at hfiltered
  exact (hfiltered.eq_of_length hlength).symm

/-- The entries of a part's keys are that part. -/
theorem filter_keys_of_sublist {kept l : List (K × V)} (h : Sorted l) (hsub : kept.Sublist l) :
    l.filter (fun e => decide (e.1 ∈ kept.map Prod.fst)) = kept := by
  have hkept : kept.filter (fun e => decide (e.1 ∈ kept.map Prod.fst)) = kept :=
    filter_eq_self.mpr fun e he => decide_eq_true (mem_map_of_mem he)
  have hfiltered := hsub.filter fun e => decide (e.1 ∈ kept.map Prod.fst)
  rw [hkept] at hfiltered
  have hsubset : (l.filter fun e => decide (e.1 ∈ kept.map Prod.fst)) ⊆ kept := by
    intro e he
    obtain ⟨hmem, hkey⟩ := mem_filter.mp he
    obtain ⟨other, hother, heq⟩ := mem_map.mp (of_decide_eq_true hkey)
    rwa [← inj_on_of_nodup_map h.keys_nodup (hsub.subset hother) hmem heq]
  have hnodup : (l.filter fun e => decide (e.1 ∈ kept.map Prod.fst)).Nodup :=
    (h.imp fun hlt heq => hlt.ne (congrArg Prod.fst heq)).filter _
  exact (hfiltered.eq_of_length_le (hnodup.subperm hsubset).length_le).symm

/-! ## Renamed keys -/

section Rename

variable {K' : Type} [LinearOrder K'] {P : K → Prop} {f : K → K'}

/-- The entries under renamed keys. -/
def rename (f : K → K') (l : List (K × V)) : List (K' × V) := l.map fun e => (f e.1, e.2)

theorem rename_inj (hf : ∀ a b, P a → P b → (f a < f b ↔ a < b)) {a b : K} (ha : P a) (hb : P b) :
    f a = f b ↔ a = b :=
  (show StrictMonoOn f {a | P a} from fun a ha b hb => (hf a b ha hb).mpr).injOn.eq_iff ha hb

variable (hf : ∀ a b, P a → P b → (f a < f b ↔ a < b)) (hkey : P key) (hl : ∀ e ∈ l, P e.1)
include hf hkey hl

theorem get_rename : get (f key) (rename f l) = get key l := by
  induction l with
  | nil => rfl
  | cons first l ih =>
    obtain ⟨hk, hrest⟩ := forall_mem_cons.mp hl
    show (if f first.1 = f key then some first.2 else get (f key) (rename f l)) = _
    rw [get, ih hrest]
    simp [rename_inj hf hk hkey]

theorem put_rename (value : V) : put (f key) value (rename f l) = rename f (put key value l) := by
  induction l with
  | nil => rfl
  | cons first l ih =>
    obtain ⟨hk, hrest⟩ := forall_mem_cons.mp hl
    show (if f key < f first.1 then _ else if f first.1 = f key then _ else
      (f first.1, first.2) :: put (f key) value (rename f l)) = _
    rw [put, ih hrest]
    simp only [hf key first.1 hkey hk, rename_inj hf hk hkey]
    split_ifs <;> rfl

theorem erase_rename : erase (f key) (rename f l) = rename f (erase key l) := by
  induction l with
  | nil => rfl
  | cons first l ih =>
    obtain ⟨hk, hrest⟩ := forall_mem_cons.mp hl
    show (if f first.1 = f key then rename f l else (f first.1, first.2) ::
      erase (f key) (rename f l)) = _
    rw [erase, ih hrest]
    simp only [rename_inj hf hk hkey]
    split_ifs <;> rfl

end Rename

end FerricStore.Entries
