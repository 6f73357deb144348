import FerricStore.Lists.Invariant

/-!
# Pushes and pops keep to the plain list

A push writes regular positions beyond a boundary, and a scan pops a part of the entries at an end.
The pop of one element reads the row one step inside of the boundary, and pops the right element only
if no other entry is nearer to the boundary.
-/

namespace FerricStore.Lists

open List

variable {V : Type} {budget larger : Nat} {stored : StoredList V}
  {entries : List (Int × V)} {info : ListMeta}

theorem Bounded.left_lt_right (h : Bounded budget info entries) : info.leftPos < info.rightPos := by
  obtain ⟨entry, rest, hentries⟩ := exists_cons_of_ne_nil h.ne_nil
  obtain ⟨hleft, hright⟩ := h.inside entry (hentries ▸ mem_cons_self)
  exact hleft.trans hright

/-- Writes into a gap. -/
theorem Holds.put (front writes back : List (Int × V))
    (h : Holds budget stored (front ++ back)) (hbudget : larger ≤ 2 * 10 ^ 10)
    (hsorted : Entries.Sorted (front ++ (writes ++ back)))
    (hinfo : Bounded larger info (front ++ (writes ++ back)))
    (hlength : (front ++ (writes ++ back)).length ≤ larger) :
    Holds larger ⟨some info, putElements writes stored.elements⟩ (front ++ (writes ++ back)) := by
  refine ⟨?_, hsorted, hlength, hinfo⟩
  show putElements writes stored.elements = _
  rw [h.elements, putElements_between (hinfo.encodable hbudget) hsorted]

variable {metadata : Option ListMeta}

/-- Deleting a part of the entries. -/
theorem Holds.delete {removed remaining : List (Int × V)}
    (h : Holds budget stored entries) (hbudget : budget ≤ 2 * 10 ^ 10) (hle : budget ≤ larger)
    (hsub : remaining.Sublist entries) (hperm : (removed ++ remaining).Perm entries)
    (hmeta : metadata.elim (remaining = []) (Bounded larger · remaining)) :
    Holds larger ⟨metadata, Lists.deleteElements removed stored.elements⟩ remaining :=
  ⟨h.deleteElements hbudget hsub hperm, h.sorted.sublist hsub,
    hsub.length_le.trans (h.length_le.trans hle), hmeta⟩

/-! ## Pushes -/

theorem strictMono_steps (base : Int) :
    StrictMono fun index : Nat => base + (index : Int) * positionStep := by
  intro i j hlt
  show base + (i : Int) * positionStep < base + (j : Int) * positionStep
  unfold positionStep
  omega

/-- The writes of a push on the left are those of one on the right, from further left. -/
theorem lpushWrites_eq (base : Int) (elements : List V) : lpushWrites base elements =
      rpushWrites (base - ((elements.length : Int) - 1) * positionStep) elements.reverse := by
  refine map_congr_left fun pair _ => ?_
  rw [show base - ((elements.length : Int) - 1 - (pair.2 : Int)) * positionStep =
    base - ((elements.length : Int) - 1) * positionStep + (pair.2 : Int) * positionStep by ring]

theorem rpushWrites_eq (base : Int) (elements : List V) : rpushWrites base elements =
      spread (fun index => base + (index : Int) * positionStep) elements := rfl

variable {elements : List V}

/-- Elements are written into a gap of the entries. -/
theorem Holds.push (front back : List (Int × V)) (elements : List V) {start : Int} {count : Nat}
    (reply : Reply V) (h : Holds budget stored (front ++ back)) (hcount : elements.length = count)
    (hpos : 0 < count) (hbudget : budget + count ≤ 2 * 10 ^ 10)
    (hlength : info.length = (front ++ back).length + count)
    (hinside : ∀ entry ∈ front ++ back, info.leftPos < entry.1 ∧ entry.1 < info.rightPos)
    (hgap : info.leftPos < start ∧ start + ((count : Int) - 1) * positionStep < info.rightPos)
    (hfront : ∀ entry ∈ front, entry.1 < start)
    (hback : ∀ entry ∈ back, start + ((count : Int) - 1) * positionStep < entry.1)
    (hreach : -reach (budget + count) ≤ info.leftPos ∧ info.rightPos ≤ reach (budget + count)) :
    Simulates (budget + count)
      (reply, ⟨some info, putElements (rpushWrites start elements) stored.elements⟩)
      (reply, front.map Prod.snd ++ (elements ++ back.map Prod.snd)) := by
  have hwrites : ∀ entry ∈ rpushWrites start elements, start ≤ entry.1 ∧
      entry.1 ≤ start + ((count : Int) - 1) * positionStep := by
    intro entry hentry
    obtain ⟨index, hindex, heq⟩ := mem_spread (rpushWrites_eq start elements ▸ hentry)
    rw [heq]
    unfold positionStep
    omega
  obtain ⟨hsortedFront, hsortedBack, hcross⟩ := Entries.sorted_append.mp h.sorted
  have hsorted : Entries.Sorted (front ++ (rpushWrites start elements ++ back)) := by
    refine Entries.sorted_append.mpr ⟨hsortedFront, Entries.sorted_append.mpr
      ⟨sorted_spread (strictMono_steps start), hsortedBack, fun write hwrite entry hentry =>
        (hwrites write hwrite).2.trans_lt (hback entry hentry)⟩, fun entry hentry other hother => ?_⟩
    rcases mem_append.mp hother with hother | hother
    · exact (hfront entry hentry).trans_le (hwrites other hother).1
    · exact hcross entry hentry other hother
  have hle := h.length_le
  have hinfo : Bounded (budget + count) info (front ++ (rpushWrites start elements ++ back)) := by
    refine ⟨?_, ?_, fun entry hentry => ?_, hreach.1, hreach.2⟩
    · simp [hlength, hcount, rpushWrites_eq]
      omega
    · exact fun hempty => by simp [rpushWrites_eq, ← length_eq_zero_iff, hcount] at hempty; omega
    · simp only [mem_append] at hentry hinside
      rcases hentry with hentry | hentry | hentry
      · exact hinside entry (.inl hentry)
      · have := hwrites entry hentry
        exact ⟨by omega, by omega⟩
      · exact hinside entry (.inr hentry)
  refine ⟨rfl, _, h.put front _ back hbudget hsorted hinfo ?_, by simp [rpushWrites_eq]⟩
  rw [← hinfo.length_eq, hlength]
  omega

section

variable (h : Holds budget stored entries) (hne : elements ≠ [])
  (hbudget : budget + elements.length ≤ 2 * 10 ^ 10)
include h hne hbudget

/-- A push on the left puts the elements before the list, the last one first. -/
theorem lpush_simulates : Simulates (budget + elements.length) (lpush stored elements)
      (.integer (entries.length + elements.length : Nat),
        elements.reverse ++ entries.map Prod.snd) := by
  have hcount : 0 < elements.length := length_pos_iff.mpr hne
  unfold lpush
  cases hinfo : stored.metadata with
  | none =>
    obtain rfl := h.eq_nil hinfo
    rw [lpushWrites_eq, length_nil, Nat.zero_add]
    refine Holds.push [] [] _ _ h length_reverse hcount hbudget ?_ ?_ ?_ ?_ ?_ ?_ <;>
      simp [reach, positionStep]
    omega
  | some found =>
    obtain ⟨hlength, -, hinside, hlow, hhigh⟩ := h.bounded hinfo
    have hsides := (h.bounded hinfo).left_lt_right
    dsimp only at hlength hinside hlow hhigh hsides ⊢
    unfold reach positionStep at hlow hhigh
    rw [lpushWrites_eq, hlength]
    refine Holds.push [] entries _ _ h length_reverse hcount hbudget rfl
      (fun entry hentry => ?_) ?_ nofun (fun entry hentry => ?_) ?_
    all_goals
      try have hentry := hinside entry hentry
      simp only [reach, positionStep]
      omega

/-- A push on the right puts the elements behind the list. -/
theorem rpush_simulates : Simulates (budget + elements.length) (rpush stored elements)
      (.integer (entries.length + elements.length : Nat), entries.map Prod.snd ++ elements) := by
  have hcount : 0 < elements.length := length_pos_iff.mpr hne
  suffices hpush : Simulates (budget + elements.length) (rpush stored elements)
      (.integer (entries.length + elements.length : Nat), entries.map Prod.snd ++ (elements ++ [])) by
    rwa [append_nil] at hpush
  unfold rpush
  cases hinfo : stored.metadata with
  | none =>
    obtain rfl := h.eq_nil hinfo
    rw [length_nil, Nat.zero_add]
    refine Holds.push [] [] elements _ h rfl hcount hbudget ?_ ?_ ?_ ?_ ?_ ?_ <;>
      simp [reach, positionStep]
    omega
  | some found =>
    obtain ⟨hlength, -, hinside, hlow, hhigh⟩ := h.bounded hinfo
    have hsides := (h.bounded hinfo).left_lt_right
    dsimp only at hlength hinside hlow hhigh hsides ⊢
    unfold reach positionStep at hlow hhigh
    have hend : Holds budget stored (entries ++ []) := by rwa [append_nil]
    rw [hlength]
    refine Holds.push entries [] elements _ hend rfl hcount hbudget (by simp)
      (fun entry hentry => ?_) ?_ (fun entry hentry => (hinside entry hentry).2)
      nofun ?_
    all_goals
      try have hentry := hinside entry (by simpa using hentry)
      simp only [reach, positionStep]
      omega

end

/-! ## Pops by a scan -/

variable {count : Nat}

section

variable {popped rest : List (Int × V)} (hne : popped ≠ []) (hbudget : budget + 1 ≤ 2 * 10 ^ 10)
  (hall : popped.length = info.length → metadata = none)
include hne hbudget hall

/-- Entries at the left end are popped, and the boundary moves to the last of them. -/
theorem Holds.popFront (h : Holds budget stored (popped ++ rest))
    (hbounded : Bounded budget info (popped ++ rest))
    (hpart : popped.length ≠ info.length →
      metadata = some ⟨info.length - popped.length, (popped.getLast hne).1, info.rightPos⟩) :
    Holds (budget + 1) ⟨metadata, Lists.deleteElements popped stored.elements⟩ rest := by
  have hlength := hbounded.length_eq
  rw [length_append] at hlength
  refine Holds.delete h (by omega) (Nat.le_succ _) (sublist_append_right _ _) (.refl _) ?_
  by_cases hsome : popped.length = info.length
  · rw [hall hsome]
    exact eq_nil_of_length_eq_zero (by omega)
  · rw [hpart hsome]
    obtain ⟨-, -, hcross⟩ := Entries.sorted_append.mp h.sorted
    have hlast := getLast_mem hne
    refine hbounded.inwards (Nat.le_succ _) ?_ (show info.length - _ = _ by omega)
      (fun entry hentry => ⟨hcross _ hlast entry hentry,
        (hbounded.inside entry (mem_append_right _ hentry)).2⟩)
      (hbounded.inside _ (mem_append_left _ hlast)).1.le le_rfl
    rintro rfl
    exact hsome hlength.symm

/-- Entries at the right end are popped, and the boundary moves to the first of them. -/
theorem Holds.popBack (h : Holds budget stored (rest ++ popped))
    (hbounded : Bounded budget info (rest ++ popped))
    (hpart : popped.length ≠ info.length →
      metadata = some ⟨info.length - popped.length, info.leftPos, (popped.head hne).1⟩) :
    Holds (budget + 1) ⟨metadata, Lists.deleteElements popped stored.elements⟩ rest := by
  have hlength := hbounded.length_eq
  rw [length_append] at hlength
  refine Holds.delete h (by omega) (Nat.le_succ _) (sublist_append_left _ _) perm_append_comm ?_
  by_cases hsome : popped.length = info.length
  · rw [hall hsome]
    exact eq_nil_of_length_eq_zero (by omega)
  · rw [hpart hsome]
    obtain ⟨-, -, hcross⟩ := Entries.sorted_append.mp h.sorted
    have hfirst := head_mem hne
    refine hbounded.inwards (Nat.le_succ _) ?_ (show info.length - _ = _ by omega)
      (fun entry hentry => ⟨(hbounded.inside entry (mem_append_left _ hentry)).1,
        hcross entry hentry _ hfirst⟩)
      le_rfl (hbounded.inside _ (mem_append_right _ hfirst)).2.le
    rintro rfl
    exact hsome (by simpa using hlength.symm)

end

section

variable (h : Holds budget stored entries) (hbudget : budget + 1 ≤ 2 * 10 ^ 10)
  (hinfo : stored.metadata = some info) (hcount : 0 < count)
include h hbudget hinfo hcount

/-- A pop on the left by a scan takes the first elements. -/
theorem popLeftByScan_simulates : Simulates (budget + 1) (popLeftByScan stored info count)
      (popReply count ((entries.map Prod.snd).take count), (entries.map Prod.snd).drop count) := by
  have hbounded := h.bounded hinfo
  have hpos : 0 < entries.length := length_pos_iff.mpr hbounded.ne_nil
  have hlength : (entries.take count).length = min count info.length := by
    rw [hbounded.length_eq, length_take]
  have hne : entries.take count ≠ [] := length_pos_iff.mp (by rw [length_take]; omega)
  have hwindow : (entries.drop 0).take (min count info.length) = entries.take count := by
    rw [hbounded.length_eq, drop_zero]
    simp [take_eq_take_iff]
  unfold popLeftByScan
  rw [h.sortedSlice (by omega), hwindow]
  dsimp only
  rw [if_pos hlength, List.getLast?_eq_some_getLast hne, ← hlength]
  have hsplit := take_append_drop count entries
  exact ⟨by rw [map_take], entries.drop count,
    Holds.popFront hne hbudget (fun hall => if_pos hall) (hsplit.symm ▸ h) (hsplit.symm ▸ hbounded)
      fun hpart => if_neg hpart, map_drop⟩

/-- A pop on the right by a scan takes the last elements, the last one first. -/
theorem popRightByScan_simulates : Simulates (budget + 1) (popRightByScan stored info count)
      (popReply count ((entries.map Prod.snd).drop (entries.length - count)).reverse,
        (entries.map Prod.snd).take (entries.length - count)) := by
  have hbounded := h.bounded hinfo
  have hpos : 0 < entries.length := length_pos_iff.mpr hbounded.ne_nil
  have hall := hbounded.length_eq
  have hlength : (entries.drop (entries.length - count)).length = min count info.length := by
    rw [length_drop]
    omega
  have hne : entries.drop (entries.length - count) ≠ [] := length_pos_iff.mp (by omega)
  have hwindow : (entries.drop (info.length - min count info.length)).take (min count info.length) =
      entries.drop (entries.length - count) := by
    rw [show info.length - min count info.length = entries.length - count by omega,
      take_of_length_le hlength.le]
  unfold popRightByScan
  rw [h.sortedSlice (by omega), hwindow]
  dsimp only
  rw [if_pos hlength, List.head?_eq_some_head hne, ← hlength]
  have hsplit := take_append_drop (entries.length - count) entries
  exact ⟨by rw [map_drop], entries.take (entries.length - count),
    Holds.popBack hne hbudget (fun hall => if_pos hall) (hsplit.symm ▸ h) (hsplit.symm ▸ hbounded)
      fun hpart => if_neg hpart, map_take⟩

end

/-! ## Pops at a boundary -/

/-- The first row is one step inside of the left boundary. -/
def FirstAtBoundary (stored : StoredList V) (info : ListMeta) : Prop :=
  stored.elements.head?.map Prod.fst = some (encodePosition (info.leftPos + positionStep))

/-- The last row is one step inside of the right boundary. -/
def LastAtBoundary (stored : StoredList V) (info : ListMeta) : Prop :=
  stored.elements.getLast?.map Prod.fst = some (encodePosition (info.rightPos - positionStep))

instance (stored : StoredList V) (info : ListMeta) : Decidable (FirstAtBoundary stored info) :=
  inferInstanceAs (Decidable (_ = _))

instance (stored : StoredList V) (info : ListMeta) : Decidable (LastAtBoundary stored info) :=
  inferInstanceAs (Decidable (_ = _))

/-- The positions that are read at the boundaries can be encoded. -/
theorem Bounded.probes_encodable (h : Bounded budget info entries) (hbudget : budget ≤ 2 * 10 ^ 10) :
    Encodable (info.leftPos + positionStep) ∧ Encodable (info.rightPos - positionStep) := by
  have hsides := h.left_lt_right
  have hlow := h.left_ge
  have hhigh := h.right_le
  unfold reach positionStep at hlow hhigh
  unfold Encodable positionLimit positionStep
  omega

section

variable (h : Holds budget stored entries)
include h

section

variable (hbudget : budget ≤ 2 * 10 ^ 10)
include hbudget

/-- A first row at the boundary is the first entry. -/
theorem FirstAtBoundary.eq_cons (hbounded : Bounded budget info entries)
    (hfirst : FirstAtBoundary stored info) :
    ∃ value rest, entries = (info.leftPos + positionStep, value) :: rest := by
  obtain ⟨entry, rest, rfl⟩ := exists_cons_of_ne_nil hbounded.ne_nil
  rw [FirstAtBoundary, h.elements] at hfirst
  have hkey : encodePosition entry.1 = encodePosition (info.leftPos + positionStep) :=
    Option.some.inj hfirst
  rw [encodePosition_inj (hbounded.encodable hbudget entry mem_cons_self)
    (hbounded.probes_encodable hbudget).1] at hkey
  exact ⟨entry.2, rest, by rw [← hkey]⟩

/-- A last row at the boundary is the last entry. -/
theorem LastAtBoundary.eq_concat (hbounded : Bounded budget info entries)
    (hlast : LastAtBoundary stored info) :
    ∃ value rest, entries = rest ++ [(info.rightPos - positionStep, value)] := by
  have hne := hbounded.ne_nil
  obtain ⟨rest, entry, rfl⟩ : ∃ rest entry, entries = rest ++ [entry] :=
    ⟨_, _, (dropLast_append_getLast hne).symm⟩
  rw [LastAtBoundary, h.elements, Entries.rename, map_append, map_singleton,
    List.getLast?_concat] at hlast
  have hkey : encodePosition entry.1 = encodePosition (info.rightPos - positionStep) :=
    Option.some.inj hlast
  rw [encodePosition_inj (hbounded.encodable hbudget entry (by simp))
    (hbounded.probes_encodable hbudget).2] at hkey
  exact ⟨entry.2, rest, by rw [← hkey]⟩

/-- The value at a position is that of the entry there. -/
theorem Holds.getElement_eq {position : Int} {value : V} (hmem : (position, value) ∈ entries) :
    Lists.getElement stored position = some value := by
  rw [h.getElement hbudget (h.encodable hbudget _ hmem)]
  exact (Entries.get_eq_some_iff h.sorted).mpr hmem

end

section

variable (hbudget : budget + 1 ≤ 2 * 10 ^ 10) (hinfo : stored.metadata = some info)
include hbudget hinfo

/-- A pop of one element on the left takes the first one, if the row it reads is the first or
missing. -/
theorem popLeftBoundary_simulates
    (hprobe : Lists.getElement stored (info.leftPos + positionStep) = none ∨
      FirstAtBoundary stored info) :
    Simulates (budget + 1) (popSingleBoundary stored info (info.leftPos + positionStep) .left)
      (popReply 1 ((entries.map Prod.snd).take 1), (entries.map Prod.snd).drop 1) := by
  have hbounded := h.bounded hinfo
  unfold popSingleBoundary
  rcases hprobe with hnone | hfirst
  · rw [hnone]
    exact popLeftByScan_simulates h hbudget hinfo Nat.one_pos
  · obtain ⟨value, rest, rfl⟩ := hfirst.eq_cons h (by omega) hbounded
    rw [h.getElement_eq (by omega) mem_cons_self]
    exact ⟨rfl, rest, Holds.popFront (cons_ne_nil _ []) hbudget (fun hall => if_pos hall.symm) h
      hbounded fun hpart => if_neg (Ne.symm hpart), rfl⟩

/-- A pop of one element on the right takes the last one, if the row it reads is the last or
missing. -/
theorem popRightBoundary_simulates
    (hprobe : Lists.getElement stored (info.rightPos - positionStep) = none ∨
      LastAtBoundary stored info) :
    Simulates (budget + 1) (popSingleBoundary stored info (info.rightPos - positionStep) .right)
      (popReply 1 ((entries.map Prod.snd).drop (entries.length - 1)).reverse,
        (entries.map Prod.snd).take (entries.length - 1)) := by
  have hbounded := h.bounded hinfo
  unfold popSingleBoundary
  rcases hprobe with hnone | hlast
  · rw [hnone]
    exact popRightByScan_simulates h hbudget hinfo Nat.one_pos
  · obtain ⟨value, rest, rfl⟩ := hlast.eq_concat h (by omega) hbounded
    rw [h.getElement_eq (by omega) (mem_append_right _ (mem_singleton_self _))]
    exact ⟨by simp [popReply], rest, Holds.popBack (cons_ne_nil _ []) hbudget
      (fun hall => if_pos hall.symm) h hbounded fun hpart => if_neg (Ne.symm hpart), by simp⟩

end

/-- What `LPOP` and `RPOP` share: an empty list, no elements, one at the boundary, or a scan. -/
theorem pop_simulates {single scan : ListMeta → Reply V × StoredList V} {popped rest : List V}
    (hzero : count = 0 → popped = [] ∧ rest = entries.map Prod.snd)
    (hsingle : ∀ info, stored.metadata = some info → count = 1 →
      Simulates (budget + 1) (single info) (popReply 1 popped, rest))
    (hscan : ∀ info, stored.metadata = some info → 0 < count →
      Simulates (budget + 1) (scan info) (popReply count popped, rest)) :
    Simulates (budget + 1) (match stored.metadata with
        | none => (.nil, stored)
        | some info =>
          if info.length = 0 then (.nil, stored)
          else if count = 0 then (.values [], stored)
          else if count = 1 then single info else scan info)
      (if entries = [] then (.nil, []) else (popReply count popped, rest)) := by
  cases hinfo : stored.metadata with
  | none =>
    obtain rfl := h.eq_nil hinfo
    exact ⟨rfl, [], h.mono (Nat.le_succ _), rfl⟩
  | some info =>
    have hbounded := h.bounded hinfo
    have hpos : info.length ≠ 0 := by
      rw [hbounded.length_eq]
      exact fun hzero => hbounded.ne_nil (eq_nil_of_length_eq_zero hzero)
    dsimp only
    rw [if_neg hpos, if_neg hbounded.ne_nil]
    split_ifs with hnone hone
    · obtain ⟨rfl, rfl⟩ := hzero hnone
      exact ⟨by simp [popReply, hnone], entries, h.mono (Nat.le_succ _), rfl⟩
    · exact hone ▸ hsingle info hinfo hone
    · exact hscan info hinfo (Nat.pos_of_ne_zero hnone)

/-- `LPOP` takes the first elements. -/
theorem lpop_simulates (hbudget : budget + 1 ≤ 2 * 10 ^ 10)
    (hprobe : count = 1 → ∀ info, stored.metadata = some info →
      Lists.getElement stored (info.leftPos + positionStep) = none ∨ FirstAtBoundary stored info) :
    Simulates (budget + 1) (lpop stored count) (if entries = [] then (.nil, [])
        else (popReply count ((entries.map Prod.snd).take count),
          (entries.map Prod.snd).drop count)) := by
  refine pop_simulates h (by simp +contextual) (fun info hinfo hone => ?_)
    fun info hinfo hcount => popLeftByScan_simulates h hbudget hinfo hcount
  subst hone
  exact popLeftBoundary_simulates h hbudget hinfo (hprobe rfl info hinfo)

/-- `RPOP` takes the last elements. -/
theorem rpop_simulates (hbudget : budget + 1 ≤ 2 * 10 ^ 10)
    (hprobe : count = 1 → ∀ info, stored.metadata = some info →
      Lists.getElement stored (info.rightPos - positionStep) = none ∨ LastAtBoundary stored info) :
    Simulates (budget + 1) (rpop stored count) (if entries = [] then (.nil, [])
        else (popReply count ((entries.map Prod.snd).drop (entries.length - count)).reverse,
          (entries.map Prod.snd).take (entries.length - count))) := by
  refine pop_simulates h (by simp +contextual) (fun info hinfo hone => ?_)
    fun info hinfo hcount => popRightByScan_simulates h hbudget hinfo hcount
  subst hone
  exact popRightBoundary_simulates h hbudget hinfo (hprobe rfl info hinfo)

end

end FerricStore.Lists
