import FerricStore.Lists.Ends

/-!
# Reads keep to the plain list

A range is a slice of the entries. The ranges of the first and of the last element read the row one
step inside of the boundary; if it is missing they answer the whole list, so that they are right only
if the row is there, or the list has one element.
-/

namespace FerricStore.Lists

open List

variable {V : Type} {budget : Nat} {stored : StoredList V} {entries : List (Int × V)}
  {info : ListMeta}

/-! ## Ranges -/

/-- A list of one element: whatever row is read, the answer is that element. -/
theorem singlePositionValues_single {entry : Int × V} (h : Holds budget stored [entry])
    (hbudget : budget ≤ 2 * 10 ^ 10) {position : Int} (hposition : Encodable position) :
    singlePositionValues stored position = .values [entry.2] := by
  unfold singlePositionValues
  rw [h.getElement hbudget hposition]
  cases hget : Entries.get position [entry] with
  | some value =>
    have hmem := (Entries.get_eq_some_iff h.sorted).mp hget
    rw [← mem_singleton.mp hmem]
  | none =>
    rw [h.sortedElements hbudget]
    rfl

section Probes

variable (h : Holds budget stored entries) (hbudget : budget ≤ 2 * 10 ^ 10)
include h hbudget

theorem singlePositionValues_of_mem {position : Int} {value : V}
    (hmem : (position, value) ∈ entries) :
    singlePositionValues stored position = .values [value] := by
  rw [singlePositionValues, h.getElement_eq hbudget hmem]

/-- The range of the first element. -/
theorem singlePositionValues_first (hbounded : Bounded budget info entries)
    (hprobe : info.length = 1 ∨ FirstAtBoundary stored info) :
    singlePositionValues stored (info.leftPos + positionStep) =
      .values ((entries.map Prod.snd).take 1) := by
  rcases hprobe with hone | hboundary
  · obtain ⟨entry, rfl⟩ := length_eq_one_iff.mp (hbounded.length_eq.symm.trans hone)
    exact singlePositionValues_single h hbudget (hbounded.probes_encodable hbudget).1
  · obtain ⟨value, rest, rfl⟩ := hboundary.eq_cons h hbudget hbounded
    exact singlePositionValues_of_mem h hbudget mem_cons_self

/-- The range of the last element. -/
theorem singlePositionValues_last (hbounded : Bounded budget info entries)
    (hprobe : info.length = 1 ∨ LastAtBoundary stored info) :
    singlePositionValues stored (info.rightPos - positionStep) =
      .values ((entries.map Prod.snd).drop ((entries.map Prod.snd).length - 1)) := by
  rcases hprobe with hone | hboundary
  · obtain ⟨entry, rfl⟩ := length_eq_one_iff.mp (hbounded.length_eq.symm.trans hone)
    exact singlePositionValues_single h hbudget (hbounded.probes_encodable hbudget).2
  · obtain ⟨value, rest, rfl⟩ := hboundary.eq_concat h hbudget hbounded
    rw [singlePositionValues_of_mem h hbudget (mem_append_right _ (mem_singleton_self _))]
    simp

end Probes

theorem normalizeRangeStart_nonneg (index : Int) (length : Nat) :
    0 ≤ normalizeRangeStart index length := by
  unfold normalizeRangeStart
  split_ifs <;> omega

/-- A range with its normalized indices. -/
theorem range_eq (start stop : Int) (l : List V) : Plain.range start stop l =
      if normalizeIndex stop l.length < normalizeRangeStart start l.length then []
      else (l.drop (normalizeRangeStart start l.length).toNat).take
        (normalizeIndex stop l.length - normalizeRangeStart start l.length + 1).toNat := rfl

theorem range_first {l : List V} : Plain.range 0 0 l = l.take 1 := rfl

theorem range_last {l : List V} (hne : l ≠ []) :
    Plain.range (-1) (-1) l = l.drop (l.length - 1) := by
  have hpos : 0 < l.length := length_pos_iff.mpr hne
  have hstart : normalizeRangeStart (-1) l.length = (l.length - 1 : Nat) := by
    unfold normalizeRangeStart
    omega
  have hstop : normalizeIndex (-1) l.length = (l.length - 1 : Nat) := by
    unfold normalizeIndex
    omega
  rw [range_eq, hstart, hstop, if_neg (lt_irrefl _), Int.toNat_natCast, sub_self]
  refine take_of_length_le ?_
  rw [length_drop]
  show l.length - (l.length - 1) ≤ 1
  omega

/-- What a range of the first or of the last element needs. -/
def RangeProbed (stored : StoredList V) (start stop : Int) : Prop :=
  ∀ info, stored.metadata = some info →
    (start = 0 ∧ stop = 0 → info.length = 1 ∨ FirstAtBoundary stored info) ∧
    (start = -1 ∧ stop = -1 → info.length = 1 ∨ LastAtBoundary stored info)

/-- `LRANGE` answers a range of the elements, if the rows it probes are at the ends. -/
theorem lrange_eq (h : Holds budget stored entries) (hbudget : budget ≤ 2 * 10 ^ 10) {start stop : Int}
    (hprobe : RangeProbed stored start stop) :
    lrange stored start stop = .values (Plain.range start stop (entries.map Prod.snd)) := by
  unfold lrange
  cases hinfo : stored.metadata with
  | none =>
    obtain rfl := h.eq_nil hinfo
    rw [range_eq]
    simp
  | some info =>
    obtain ⟨hfirst, hlast⟩ := hprobe info hinfo
    have hbounded := h.bounded hinfo
    have hleftProbe := (hbounded.probes_encodable hbudget).1
    have hzeroRange := fun hprobed => singlePositionValues_first h hbudget hbounded hprobed
    have hminusRange := fun hprobed => singlePositionValues_last h hbudget hbounded hprobed
    obtain ⟨length, leftPos, rightPos⟩ := info
    obtain rfl : length = entries.length := hbounded.length_eq
    dsimp only
    by_cases hzero : start = 0 ∧ stop = 0 ∧ 0 < entries.length
    · rw [if_pos hzero, hzero.1, hzero.2.1, range_first]
      exact hzeroRange (hfirst ⟨hzero.1, hzero.2.1⟩)
    rw [if_neg hzero]
    by_cases hminus : start = -1 ∧ stop = -1 ∧ 0 < entries.length
    · rw [if_pos hminus, hminus.1, hminus.2.1, range_last (by simpa using hbounded.ne_nil)]
      exact hminusRange (hlast ⟨hminus.1, hminus.2.1⟩)
    rw [if_neg hminus, range_eq, length_map]
    have hnonneg := normalizeRangeStart_nonneg start entries.length
    generalize hns : normalizeRangeStart start entries.length = ns at hnonneg ⊢
    generalize hne : normalizeIndex stop entries.length = ne
    by_cases hempty : ne < ns
    · rw [if_pos hempty, if_pos hempty]
    rw [if_neg hempty, if_neg hempty]
    by_cases hbeyond : (entries.length : Int) ≤ ns
    · rw [if_pos hbeyond, drop_eq_nil_of_le (by rw [length_map]; omega), take_nil]
    rw [if_neg hbeyond]
    by_cases hone : entries.length = 1
    · obtain ⟨entry, rfl⟩ := length_eq_one_iff.mp hone
      rw [singlePositionValues_single h hbudget hleftProbe]
      rw [show ns.toNat = 0 by omega, drop_zero, take_of_length_le (by simp; omega)]
      rfl
    · rw [if_neg hone, h.sortedSlice hbudget]
      dsimp only
      rw [map_take, map_drop]
      congr 1
      rcases Int.le_total ne (entries.length - 1) with hle | hle
      · rw [min_eq_left hle]
      · rw [min_eq_right hle, take_of_length_le (by simp; omega),
          take_of_length_le (by simp; omega)]

/-! ## Elements and their indices -/

theorem index?_eq (index : Int) (length : Nat) : Plain.index? index length =
      if 0 ≤ normalizeIndex index length ∧ normalizeIndex index length < length then
        some (normalizeIndex index length).toNat
      else none := rfl

/-- `LINDEX` answers one element. -/
theorem lindex_eq (h : Holds budget stored entries) (hbudget : budget ≤ 2 * 10 ^ 10) (index : Int) :
    lindex stored index = ((Plain.index? index (entries.map Prod.snd).length).bind
      ((entries.map Prod.snd)[·]?)).elim .nil .value := by
  unfold lindex
  cases hinfo : stored.metadata with
  | none =>
    obtain rfl := h.eq_nil hinfo
    simp
  | some info =>
    have hbounded := h.bounded hinfo
    obtain ⟨length, leftPos, rightPos⟩ := info
    obtain rfl : length = entries.length := hbounded.length_eq
    rw [index?_eq, length_map]
    dsimp only
    split_ifs with hrange
    · rw [h.sortedSlice hbudget]
      dsimp only
      rw [map_take, map_drop, head?_take, if_neg Nat.one_ne_zero,
        head?_drop, Option.bind_some]
    · rfl

/-- The places of an element in a list, counted from an offset. -/
theorem filter_zipIdx [DecidableEq V] (element : V) (f : Nat → Nat) (values : List V) :
    ∀ offset, ((values.zipIdx offset).filter fun pair => pair.1 = element).map
        (fun pair => f pair.2) =
      ((range' offset values.length).filter fun index =>
        values[index - offset]? = some element).map f := by
  induction values with
  | nil => exact fun _ => rfl
  | cons value values ih =>
    intro offset
    have hrest : (range' (offset + 1) values.length).filter (fun index =>
          (value :: values)[index - offset]? = some element) =
        (range' (offset + 1) values.length).filter fun index =>
          values[index - (offset + 1)]? = some element := by
      refine filter_congr fun index hindex => ?_
      obtain ⟨hlow, -⟩ := mem_range'_1.mp hindex
      rw [show index - offset = index - (offset + 1) + 1 by omega, getElem?_cons_succ]
    rw [zipIdx_cons, length_cons, range'_succ, filter_cons, filter_cons,
      hrest, Nat.sub_self, getElem?_cons_zero]
    by_cases hvalue : value = element
    · rw [if_pos (by simpa using hvalue), if_pos (by simpa using hvalue), map_cons, map_cons, ih]
    · rw [if_neg (by simpa using hvalue), if_neg (by simpa using hvalue), ih]

section

variable (element : V) (l : List V) {limit : Nat} (hlimit : limit ≤ l.length)
include hlimit

/-- The hits of a forward scan over the first values. -/
theorem hits_forward [DecidableEq V] :
    ((l.take limit).zipIdx.filter fun pair => pair.1 = element).map (fun pair => 0 + pair.2) =
      (range limit).filter fun index => l[index]? = some element := by
  have hfilter := filter_zipIdx element (fun index => 0 + index) (l.take limit) 0
  rw [hfilter, length_take, min_eq_left hlimit, ← range_eq_range']
  simp only [Nat.zero_add, map_id']
  refine filter_congr fun index hindex => ?_
  rw [Nat.sub_zero, getElem?_take_of_lt (mem_range.mp hindex)]

/-- The hits of a backward scan over the last values. -/
theorem hits_backward [DecidableEq V] :
    ((l.drop (l.length - limit)).reverse.zipIdx.filter fun pair => pair.1 = element).map
        (fun pair => l.length - limit + (l.drop (l.length - limit)).length - 1 - pair.2) =
      (((range l.length).drop (l.length - limit)).reverse).filter fun index =>
        l[index]? = some element := by
  have hlength : (l.drop (l.length - limit)).length = limit := by
    rw [length_drop]
    omega
  have hindices : ((range l.length).drop (l.length - limit)).reverse =
      (range limit).map fun index => l.length - limit + limit - 1 - index := by
    refine ext_getElem (by simp; omega) fun index hleft hright => ?_
    simp only [length_map, length_range] at hright
    rw [getElem_reverse, getElem_drop, getElem_range, getElem_map,
      getElem_range, length_drop, length_range]
    omega
  have hfilter := filter_zipIdx element (fun index => l.length - limit + limit - 1 - index)
    (l.drop (l.length - limit)).reverse 0
  rw [hlength, hfilter, hindices, length_reverse, hlength, ← range_eq_range', filter_map]
  congr 1
  refine filter_congr fun index hindex => ?_
  have hlt := mem_range.mp hindex
  rw [Nat.sub_zero, getElem?_reverse (by rw [hlength]; exact hlt), hlength, getElem?_drop]
  show decide (l[_]? = some element) = decide (l[_]? = some element)
  rw [show l.length - limit + (limit - 1 - index) = l.length - limit + limit - 1 - index by omega]

end

section

variable (element : V) (rank : Int) (count : Option Nat) (maxlen : Nat)

/-- The positions of an element. -/
theorem findPositions_eq [DecidableEq V] (l : List V) : findPositions ((l.drop (if rank < 0 then
        l.length - (if maxlen = 0 then l.length else min maxlen l.length) else 0)).take
        (if maxlen = 0 then l.length else min maxlen l.length)) element rank count
        (if rank < 0 then l.length - (if maxlen = 0 then l.length else min maxlen l.length) else 0) =
      lposReply count (Plain.positions element rank maxlen l) := by
  have hlimit : (if maxlen = 0 then l.length else min maxlen l.length) ≤ l.length := by
    split_ifs <;> omega
  unfold findPositions Plain.positions Plain.scanned
  generalize (if maxlen = 0 then l.length else min maxlen l.length) = limit at hlimit ⊢
  by_cases hrank : rank < 0
  · have hwindow : (l.drop (l.length - limit)).take limit = l.drop (l.length - limit) :=
      take_of_length_le (by rw [length_drop]; omega)
    simp only [if_pos hrank, hwindow, hits_backward element l hlimit]
  · simp only [if_neg hrank, drop_zero, hits_forward element l hlimit]

/-- `LPOS` answers where an element occurs, if the list is there or no count is given. -/
theorem lpos_eq [DecidableEq V] (h : Holds budget stored entries) (hbudget : budget ≤ 2 * 10 ^ 10)
    (hthere : count.isSome → stored.metadata ≠ none) :
    lpos stored element rank count maxlen =
      lposReply count (Plain.positions element rank maxlen (entries.map Prod.snd)) := by
  unfold lpos
  cases hinfo : stored.metadata with
  | none =>
    obtain rfl := h.eq_nil hinfo
    obtain rfl : count = none :=
      Option.not_isSome_iff_eq_none.mp fun hsome => hthere hsome hinfo
    have hnone : Plain.positions element rank maxlen (([] : List (Int × V)).map Prod.snd) = [] := by
      unfold Plain.positions
      simp
    rw [hnone]
    rfl
  | some info =>
    have hbounded := h.bounded hinfo
    obtain ⟨length, leftPos, rightPos⟩ := info
    obtain rfl : length = entries.length := hbounded.length_eq
    have hfound := findPositions_eq element rank count maxlen (entries.map Prod.snd)
    rw [length_map, ← map_drop, ← map_take] at hfound
    dsimp only
    rw [h.sortedSlice hbudget]
    exact hfound

end

/-- `LLEN` answers the number of elements. -/
theorem llen_eq (h : Holds budget stored entries) :
    llen stored = .integer (entries.map Prod.snd).length := by
  unfold llen
  cases hinfo : stored.metadata with
  | none =>
    obtain rfl := h.eq_nil hinfo
    rfl
  | some info =>
    rw [length_map, ← (h.bounded hinfo).length_eq]
    rfl

end FerricStore.Lists
