import FerricStore.Lists.Insert

/-!
# List commands refine plain lists

Every command on stored lists answers as it does on plain lists, and leaves rows that hold the plain
values, as long as the reads at the boundaries find the element at the end of the list. They do not
always: a pop of one element moves the boundary onto its position, and an element that has been
inserted less than a step behind it is passed over by the next one.
-/

namespace FerricStore.Lists

open List Plain

variable {V : Type} {budget : Nat} {stored : StoredList V} {entries : List (Int × V)}
  {info : ListMeta}

/-! ## One list -/

/-- What the reads at the boundaries need: the row that they find is that of the end of the list. A
search with a count needs a list that is there. -/
def Probed (stored : StoredList V) : ListOp V → Prop
  | .lpop count => count = 1 → ∀ info, stored.metadata = some info →
      getElement stored (info.leftPos + positionStep) = none ∨ FirstAtBoundary stored info
  | .rpop count => count = 1 → ∀ info, stored.metadata = some info →
      getElement stored (info.rightPos - positionStep) = none ∨ LastAtBoundary stored info
  | .lrange start stop => RangeProbed stored start stop
  | .lpos _ _ _ count _ => count.isSome → stored.metadata ≠ none
  | _ => True

/-- The operations that an operation counts for: a push counts its elements. -/
def ListOp.weight : ListOp V → Nat
  | .lpush _ rest | .rpush _ rest | .lpushx _ rest | .rpushx _ rest => rest.length + 1
  | _ => 1

theorem map_snd_eq_nil_iff : entries.map Prod.snd = [] ↔ entries = [] := map_eq_nil_iff

/-- Each operation on one list is the operation on the plain list. -/
theorem execute_simulates [DecidableEq V] (h : Holds budget stored entries) (op : ListOp V)
    (hbudget : budget + op.weight ≤ 2 * 10 ^ 10) (hprobed : Probed stored op) :
    Simulates (budget + op.weight) (execute stored op) (Plain.execute (entries.map Prod.snd) op) := by
  have hone : ∀ op : ListOp V, 1 ≤ op.weight := by
    intro op
    cases op <;> simp [ListOp.weight]
  have hsmall : budget + 1 ≤ 2 * 10 ^ 10 := by
    have := hone op
    omega
  have hmeta : stored.metadata = none ↔ entries = [] := by
    refine ⟨h.eq_nil, fun hempty => ?_⟩
    cases hinfo : stored.metadata with
    | none => rfl
    | some info => exact absurd hempty (h.bounded hinfo).ne_nil
  have hguard : ∀ {pushed : Reply V × StoredList V} {plain : Reply V × List V},
      Simulates (budget + op.weight) pushed plain →
      Simulates (budget + op.weight) (if stored.metadata = none then (.integer 0, stored) else pushed)
        (if entries.map Prod.snd = [] then (.integer 0, []) else plain) := by
    intro pushed plain hpush
    by_cases hempty : entries = []
    · rw [if_pos (hmeta.mpr hempty), if_pos (map_snd_eq_nil_iff.mpr hempty)]
      exact ⟨rfl, entries, h.mono (Nat.le_add_right _ _), map_snd_eq_nil_iff.mpr hempty⟩
    · rwa [if_neg (mt hmeta.mp hempty), if_neg (mt map_snd_eq_nil_iff.mp hempty)]
  cases op <;> unfold execute Plain.execute <;> dsimp only
  case lpush first rest =>
    rw [length_map]
    exact lpush_simulates h (cons_ne_nil first rest) hbudget
  case rpush first rest =>
    rw [length_map]
    exact rpush_simulates h (cons_ne_nil first rest) hbudget
  case lpushx first rest =>
    rw [length_map]
    exact hguard (lpush_simulates h (cons_ne_nil first rest) hbudget)
  case rpushx first rest =>
    rw [length_map]
    exact hguard (rpush_simulates h (cons_ne_nil first rest) hbudget)
  case lpop count =>
    simp only [map_eq_nil_iff]
    exact lpop_simulates h hsmall hprobed
  case rpop count =>
    simp only [map_eq_nil_iff, length_map]
    exact rpop_simulates h hsmall hprobed
  case lset index element =>
    simp only [map_eq_nil_iff]
    exact lset_simulates h (by omega) index element
  case lrem count element => exact lrem_simulates h (by omega) count element
  case ltrim start stop => exact ltrim_simulates h (by omega) start stop
  case linsert place pivot element =>
    simp only [map_eq_nil_iff]
    exact linsert_simulates h hsmall place pivot element
  case lrange start stop =>
    rw [lrange_eq h (by omega) hprobed]
    exact h.simulates
  case lindex index =>
    rw [lindex_eq h (by omega)]
    exact h.simulates
  case lpos element rank rank_ne count maxlen =>
    rw [lpos_eq _ _ _ _ h (by omega) hprobed]
    exact h.simulates
  case llen =>
    rw [llen_eq h]
    exact h.simulates

/-! ## Moves -/

/-- What a move takes from a list: the element of its end, with the metadata of the rest. -/
structure Taken (budget : Nat) (entries : List (Int × V)) (side : Side) (position : Int)
    (element : V) (remaining : Option ListMeta) (rest : List (Int × V)) : Prop where
  values : Plain.take side (entries.map Prod.snd) = some (element, rest.map Prod.snd)
  sub : rest.Sublist entries
  perm : ([(position, element)] ++ rest).Perm entries
  metadata : remaining.elim (rest = []) (Bounded (budget + 1) · rest)

/-- The end of a list on one side. -/
theorem exists_taken (side : Side) (hne : entries ≠ []) :
    ∃ entry rest, (if side = .left then entries.head? else entries.getLast?) = some entry ∧
      Plain.take side (entries.map Prod.snd) = some (entry.2, rest.map Prod.snd) ∧
      rest.Sublist entries ∧ ([entry] ++ rest).Perm entries := by
  cases side with
  | left =>
    obtain ⟨entry, rest, rfl⟩ := exists_cons_of_ne_nil hne
    exact ⟨entry, rest, rfl, rfl, sublist_cons_self _ _, List.Perm.refl _⟩
  | right =>
    obtain ⟨rest, entry, rfl⟩ : ∃ rest entry, entries = rest ++ [entry] :=
      ⟨_, _, (dropLast_append_getLast hne).symm⟩
    refine ⟨entry, rest, by simp, ?_, sublist_append_left _ _, perm_append_comm⟩
    simp [Plain.take]

section Window

variable (h : Holds budget stored entries) (hbudget : budget ≤ 2 * 10 ^ 10)
  (hinfo : stored.metadata = some info) (side : Side)
include h hbudget hinfo

/-- The window of a bounded store: the end of the list and its neighbour. -/
theorem lmoveSourceWindow_bounded : ∃ position element remaining rest,
      lmoveSourceWindow true stored info side = some (position, element, remaining) ∧
        Taken budget entries side position element remaining rest := by
  have hbounded := h.bounded hinfo
  have hlow := hbounded.left_ge
  have hhigh := hbounded.right_le
  have hlength := hbounded.length_eq
  have hordered : entries.Pairwise fun entry other => entry.1 ≤ other.1 := h.sorted.imp le_of_lt
  have hreach := reach_succ budget
  have hstep : 0 < positionStep := by decide
  unfold lmoveSourceWindow
  rw [if_pos rfl, h.sortedSlice hbudget]
  cases side with
  | left =>
    obtain ⟨⟨position, element⟩, rest, rfl⟩ := exists_cons_of_ne_nil hbounded.ne_nil
    cases rest with
    | nil =>
      have hone : info.length = 1 := hlength
      refine ⟨position, element, none, [], ?_, rfl, nil_sublist _, List.Perm.refl _, rfl⟩
      rw [if_pos rfl, hone]
      rfl
    | cons next rest =>
      have hmany : info.length ≠ 1 := by
        rw [hlength, length_cons, length_cons]
        omega
      have hnext := hbounded.inside next (by simp)
      refine ⟨position, element, some ⟨info.length - 1, next.1 - positionStep, info.rightPos⟩,
        next :: rest, ?_, rfl, sublist_cons_self _ _, List.Perm.refl _, ?_⟩
      · rw [if_pos rfl, show min info.length 2 = 2 by
          rw [hlength, length_cons, length_cons]
          omega]
        exact if_neg hmany
      · obtain ⟨-, hrest⟩ := pairwise_cons.mp hordered
        refine ⟨?_, cons_ne_nil _ _, fun entry hentry => ⟨?_, ?_⟩, ?_, ?_⟩
        · show info.length - 1 = _
          rw [hlength]
          rfl
        · show next.1 - positionStep < entry.1
          have hle : next.1 ≤ entry.1 := hrest.rel_head_of_rel_head_head hentry le_rfl
          omega
        · exact (hbounded.inside entry (mem_cons_of_mem _ hentry)).2
        all_goals
          dsimp only
          omega
  | right =>
    obtain ⟨front, ⟨position, element⟩, rfl⟩ : ∃ front entry, entries = front ++ [entry] :=
      ⟨_, _, (dropLast_append_getLast hbounded.ne_nil).symm⟩
    rcases eq_nil_or_concat front with rfl | ⟨rest, previous, rfl⟩
    · have hone : info.length = 1 := hlength
      refine ⟨position, element, none, [], ?_, rfl, nil_sublist _, List.Perm.refl _, rfl⟩
      rw [if_neg (by decide), hone]
      rfl
    · rw [concat_eq_append] at h hbounded hlength hordered ⊢
      have hlast : info.length - 2 = rest.length := by
        rw [hlength]
        simp
      have hmany : info.length ≠ 1 := by
        rw [hlength]
        simp
      have hprevious := hbounded.inside previous (by simp)
      refine ⟨position, element,
        some ⟨info.length - 1, info.leftPos, previous.1 + positionStep⟩, rest ++ [previous], ?_,
        by simp [Plain.take], sublist_append_left _ _, perm_append_comm, ?_⟩
      · rw [if_neg (by decide), show min info.length 2 = 2 by
          rw [hlength]
          simp, hlast, append_assoc, drop_left]
        exact if_neg hmany
      · obtain ⟨hkept, -, -⟩ := pairwise_append.mp hordered
        refine ⟨?_, by simp, fun entry hentry => ⟨?_, ?_⟩, ?_, ?_⟩
        · show info.length - 1 = _
          rw [hlength]
          simp
        · exact (hbounded.inside entry (mem_append_left _ hentry)).1
        · show entry.1 < previous.1 + positionStep
          have hle := hkept.rel_getLast_of_rel_getLast_getLast hentry le_rfl
          rw [getLast_concat] at hle
          omega
        all_goals
          dsimp only
          omega

/-- A store without slices scans the list. -/
theorem lmoveSourceWindow_scan : ∃ position element remaining rest,
      lmoveSourceWindow false stored info side = some (position, element, remaining) ∧
        Taken budget entries side position element remaining rest := by
  have hbounded := h.bounded hinfo
  obtain ⟨entry, rest, hend, hvalues, hsub, hperm⟩ := exists_taken side hbounded.ne_nil
  have hrest : entries.filter (fun candidate => candidate.1 ≠ entry.1) = rest := by
    rw [← Entries.foldl_erase_of_perm h.sorted hsub hperm]
    exact (Entries.erase_eq_filter h.sorted entry.1).symm
  refine ⟨entry.1, entry.2, metaFromElements rest.length rest, rest, ?_, hvalues, hsub, hperm,
    hbounded.remaining hsub h.sorted⟩
  unfold lmoveSourceWindow
  rw [if_neg Bool.false_ne_true, h.sortedElements hbudget, Option.bind_some, hend, Option.map_some]
  rw [hrest]

theorem lmoveSourceWindow_spec (bounded : Bool) : ∃ position element remaining rest,
      lmoveSourceWindow bounded stored info side = some (position, element, remaining) ∧
        Taken budget entries side position element remaining rest := by
  cases bounded with
  | true => exact lmoveSourceWindow_bounded h hbudget hinfo side
  | false => exact lmoveSourceWindow_scan h hbudget hinfo side

end Window

/-- A moved element is pushed as any other. -/
theorem pushMovedElement_simulates (h : Holds budget stored entries)
    (hbudget : budget + 1 ≤ 2 * 10 ^ 10) (element : V) (side : Side) :
    ∃ pushed, Holds (budget + 1) (pushMovedElement stored element side) pushed ∧
      pushed.map Prod.snd = push side element (entries.map Prod.snd) := by
  cases side with
  | left =>
    obtain ⟨-, pushed, hholds, hvalues⟩ := lpush_simulates h (cons_ne_nil element []) hbudget
    refine ⟨pushed, ?_, hvalues⟩
    have heq : pushMovedElement stored element .left = (lpush stored [element]).2 := by
      unfold pushMovedElement lpush lpushWrites
      cases stored.metadata <;> simp
    rw [heq]
    exact hholds
  | right =>
    obtain ⟨-, pushed, hholds, hvalues⟩ := rpush_simulates h (cons_ne_nil element []) hbudget
    refine ⟨pushed, ?_, hvalues⟩
    have heq : pushMovedElement stored element .right = (rpush stored [element]).2 := by
      unfold pushMovedElement rpush rpushWrites
      cases stored.metadata <;> simp
    rw [heq]
    exact hholds

/-! ## All lists -/

/-- Every stored list holds the plain one. -/
def Agree (budget : Nat) (lists : Bytes → StoredList V) (plain : Bytes → List V) : Prop :=
  ∀ key, ∃ entries, Holds budget (lists key) entries ∧ entries.map Prod.snd = plain key

variable {lists : Bytes → StoredList V} {plain : Bytes → List V}

theorem Agree.update {larger : Nat}
    (h : Agree budget lists plain) (hle : budget ≤ larger) (key : Bytes) {stored : StoredList V}
    (hstored : Holds larger stored entries) :
    Agree larger (Function.update lists key stored)
      (Function.update plain key (entries.map Prod.snd)) := by
  intro other
  rcases eq_or_ne other key with rfl | hother
  · rw [Function.update_self, Function.update_self]
    exact ⟨entries, hstored, rfl⟩
  · rw [Function.update_of_ne hother, Function.update_of_ne hother]
    obtain ⟨found, hfound, hvalues⟩ := h other
    exact ⟨found, hfound.mono hle, hvalues⟩

/-- An element that is put back where it was taken. -/
theorem push_take {side : Side} {l rest : List V} {element : V}
    (h : take side l = some (element, rest)) : push side element rest = l := by
  cases side with
  | left =>
    obtain ⟨found, hhead, heq⟩ := Option.map_eq_some_iff.mp h
    cases heq
    obtain ⟨tail, rfl⟩ := head?_eq_some_iff.mp hhead
    rfl
  | right =>
    obtain ⟨found, hlast, heq⟩ := Option.map_eq_some_iff.mp h
    cases heq
    obtain ⟨front, rfl⟩ := getLast?_eq_some_iff.mp hlast
    simp [push]

theorem push_nil (side other : Side) (element : V) :
    push side element [] = push other element [] := by
  cases side <;> cases other <;> rfl

/-- A move between two lists is the move between the plain lists. -/
theorem executeLmove_simulates [DecidableEq V] (bounded : Bool)
    (h : Agree budget lists plain) (hbudget : budget + 2 ≤ 2 * 10 ^ 10)
    (source destination : Bytes) (fromSide toSide : Side) :
    (executeLmove bounded lists source destination fromSide toSide).1 =
        (Plain.run plain (.lmove source destination fromSide toSide)).1 ∧
      Agree (budget + 2) (executeLmove bounded lists source destination fromSide toSide).2
        (Plain.run plain (.lmove source destination fromSide toSide)).2 := by
  have hmono : Agree (budget + 2) lists plain := fun key => by
    obtain ⟨found, hfound, hvalues⟩ := h key
    exact ⟨found, hfound.mono (by omega), hvalues⟩
  obtain ⟨entries, hentries, hsource⟩ := h source
  unfold executeLmove
  cases hinfo : (lists source).metadata with
  | none =>
    obtain rfl := hentries.eq_nil hinfo
    have hnone : take fromSide (plain source) = none := by
      rw [← hsource]
      cases fromSide <;> rfl
    unfold Plain.run
    dsimp only
    rw [hnone]
    exact ⟨rfl, hmono⟩
  | some info =>
    have hinfoBounded := hentries.bounded hinfo
    have hpos : info.length ≠ 0 := by
      rw [hinfoBounded.length_eq]
      exact fun hzero => hinfoBounded.ne_nil (eq_nil_of_length_eq_zero hzero)
    obtain ⟨position, element, remaining, rest, hwindow, htaken⟩ :=
      lmoveSourceWindow_spec hentries (by omega) hinfo fromSide bounded
    have hvalues := htaken.values
    rw [hsource] at hvalues
    unfold Plain.run
    dsimp only
    rw [if_neg hpos, hwindow, hvalues]
    dsimp only
    by_cases hsame : source = destination ∧ (fromSide = toSide ∨ info.length = 1)
    · -- The element is put back where it was.
      obtain ⟨rfl, hback⟩ := hsame
      rw [if_pos ⟨rfl, hback⟩, Function.update_self, Function.update_idem]
      have hput : push toSide element (rest.map Prod.snd) = plain source := by
        rcases hback with rfl | hone
        · exact push_take hvalues
        · have hlength := htaken.perm.length_eq
          rw [← hinfoBounded.length_eq, hone, length_append, length_singleton] at hlength
          have hnil : rest = [] := eq_nil_of_length_eq_zero (by omega)
          have hfrom := push_take hvalues
          rw [hnil, map_nil] at hfrom ⊢
          rw [push_nil toSide fromSide, hfrom]
      rw [hput, Function.update_eq_self]
      exact ⟨rfl, hmono⟩
    · rw [if_neg hsame]
      have hremoved := Agree.update h (Nat.le_succ budget) source
        (Holds.delete hentries (by omega) (Nat.le_succ _) htaken.sub htaken.perm htaken.metadata)
      obtain ⟨found, hfound, hfoundValues⟩ := hremoved destination
      obtain ⟨pushed, hpushed, hpushedValues⟩ :=
        pushMovedElement_simulates hfound (by omega) element toSide
      have hdone := Agree.update hremoved (Nat.le_succ _) destination hpushed
      rw [hpushedValues, hfoundValues] at hdone
      exact ⟨rfl, hdone⟩

/-! ## Runs -/

def Command.weight : Command V → Nat
  | .on _ op => op.weight
  | .lmove .. => 1

/-- What the reads of a command need of the lists before it. -/
def Command.Probed (lists : Bytes → StoredList V) : Command V → Prop
  | .on key op => Lists.Probed (lists key) op
  | .lmove .. => True

/-- The replies of a sequence of commands, and the lists after it. -/
def runAll [DecidableEq V] (bounded : Bool) :
    (Bytes → StoredList V) → List (Command V) → List (Reply V) × (Bytes → StoredList V)
  | lists, [] => ([], lists)
  | lists, command :: rest =>
    ((run bounded lists command).1 :: (runAll bounded (run bounded lists command).2 rest).1,
      (runAll bounded (run bounded lists command).2 rest).2)

def Plain.runAll [DecidableEq V] :
    (Bytes → List V) → List (Command V) → List (Reply V) × (Bytes → List V)
  | lists, [] => ([], lists)
  | lists, command :: rest =>
    ((Plain.run lists command).1 :: (Plain.runAll (Plain.run lists command).2 rest).1,
      (Plain.runAll (Plain.run lists command).2 rest).2)

/-- Every command of a run finds what its reads need. -/
def ProbedRun [DecidableEq V] (bounded : Bool) :
    (Bytes → StoredList V) → List (Command V) → Prop
  | _, [] => True
  | lists, command :: rest =>
    command.Probed lists ∧ ProbedRun bounded (run bounded lists command).2 rest

/-- One command. -/
theorem run_simulates [DecidableEq V] (bounded : Bool)
    (h : Agree budget lists plain) (command : Command V)
    (hbudget : budget + 2 * command.weight ≤ 2 * 10 ^ 10) (hprobed : command.Probed lists) :
    (run bounded lists command).1 = (Plain.run plain command).1 ∧
      Agree (budget + 2 * command.weight) (run bounded lists command).2
        (Plain.run plain command).2 := by
  cases command with
  | on key op =>
    have hweight : (Command.on key op).weight = op.weight := rfl
    obtain ⟨entries, hentries, hkey⟩ := h key
    obtain ⟨hreply, after, hafter, hvalues⟩ := execute_simulates hentries op (by omega) hprobed
    rw [hkey] at hreply hvalues
    refine ⟨hreply, ?_⟩
    show Agree _ (Function.update lists key _) (Function.update plain key _)
    rw [← hvalues]
    exact Agree.update h (Nat.le_add_right _ _) key (hafter.mono (by omega))
  | lmove source destination fromSide toSide =>
    exact executeLmove_simulates bounded h hbudget source destination fromSide toSide

/-- A sequence of commands, by induction on it. -/
theorem runAll_simulates [DecidableEq V] (bounded : Bool) (commands : List (Command V)) :
    ∀ {budget : Nat} {lists : Bytes → StoredList V} {plain : Bytes → List V},
      Agree budget lists plain →
      budget + 2 * (commands.map Command.weight).sum ≤ 2 * 10 ^ 10 →
      ProbedRun bounded lists commands →
      (runAll bounded lists commands).1 = (Plain.runAll plain commands).1 ∧
        Agree (budget + 2 * (commands.map Command.weight).sum) (runAll bounded lists commands).2
          (Plain.runAll plain commands).2 := by
  induction commands with
  | nil => exact fun h _ _ => ⟨rfl, h⟩
  | cons command rest ih =>
    intro budget lists plain h hbudget hprobed
    rw [map_cons, sum_cons] at hbudget ⊢
    obtain ⟨hfirst, hrest⟩ := hprobed
    obtain ⟨hreply, hagree⟩ := run_simulates bounded h command (by omega) hfirst
    obtain ⟨hreplies, hfinal⟩ := ih hagree (by omega) hrest
    refine ⟨?_, ?_⟩
    · show (run bounded lists command).1 :: _ = (Plain.run plain command).1 :: _
      rw [hreply, hreplies]
    · rw [show budget + 2 * (command.weight + (rest.map Command.weight).sum) =
        budget + 2 * command.weight + 2 * (rest.map Command.weight).sum by ring]
      exact hfinal

/-- The rows of a list hold its values: the positions increase along the list, the stored length is
the number of elements, and the boundaries are outside of the positions. -/
def WellStored (stored : StoredList V) (values : List V) : Prop :=
  ∃ entries, sortedElements stored = some entries ∧ entries.map Prod.snd = values ∧
    (entries.map Prod.fst).Pairwise (· < ·) ∧
    stored.metadata.elim (entries = []) fun info =>
      info.length = values.length ∧
        ∀ entry ∈ entries, info.leftPos < entry.1 ∧ entry.1 < info.rightPos

/-- Lists that start absent: a run of fewer than 10^10 operations, in which every read at a boundary
finds the end of the list or nothing and every search with a count a list that is there, answers as
on plain lists and stores them well. -/
theorem lists_refine [DecidableEq V] (bounded : Bool) (commands : List (Command V))
    (hweight : (commands.map Command.weight).sum < 10 ^ 10)
    (hprobed : ProbedRun bounded (fun _ => StoredList.empty) commands) :
    (runAll bounded (fun _ => StoredList.empty) commands).1 =
        (Plain.runAll (fun _ => []) commands).1 ∧
      ∀ key, WellStored ((runAll bounded (fun _ => StoredList.empty) commands).2 key)
        ((Plain.runAll (fun _ => []) commands).2 key) := by
  have hstart : Agree 0 (fun _ => (StoredList.empty : StoredList V)) fun _ => [] :=
    fun _ => ⟨[], ⟨rfl, List.Pairwise.nil, le_rfl, rfl⟩, rfl⟩
  obtain ⟨hreplies, hagree⟩ := runAll_simulates bounded commands hstart (by omega) hprobed
  refine ⟨hreplies, fun key => ?_⟩
  obtain ⟨entries, hentries, hvalues⟩ := hagree key
  rw [← hvalues]
  refine ⟨entries, hentries.sortedElements (by omega), rfl, pairwise_map.mpr hentries.sorted, ?_⟩
  cases hinfo : (_ : StoredList _).metadata with
  | none => exact hentries.eq_nil hinfo
  | some info =>
    have hbounded := hentries.bounded hinfo
    exact ⟨hbounded.length_eq.trans (length_map _).symm, hbounded.inside⟩

/-! ## A run with an insertion -/

instance decidableForallSome {α : Type} {P : α → Prop} [∀ a, Decidable (P a)] :
    (o : Option α) → Decidable (∀ a, o = some a → P a)
  | none => isTrue fun _ h => nomatch h
  | some a => decidable_of_iff (P a) ⟨fun h _ heq => Option.some.inj heq ▸ h, fun h => h a rfl⟩

instance [DecidableEq V] (stored : StoredList V) : (op : ListOp V) → Decidable (Probed stored op)
  | .lpop _ | .rpop _ => inferInstanceAs (Decidable (_ → _))
  | .lrange _ _ => decidableForallSome stored.metadata
  | .lpos .. => inferInstanceAs (Decidable (_ → _))
  | .lpush .. | .rpush .. | .lpushx .. | .rpushx .. | .lset .. | .lrem .. | .ltrim .. |
    .linsert .. | .lindex .. | .llen => instDecidableTrue

instance [DecidableEq V] (lists : Bytes → StoredList V) :
    (command : Command V) → Decidable (command.Probed lists)
  | .on key op => inferInstanceAs (Decidable (Probed (lists key) op))
  | .lmove .. => instDecidableTrue

instance decidableProbedRun [DecidableEq V] (bounded : Bool) : (lists : Bytes → StoredList V) →
    (commands : List (Command V)) → Decidable (ProbedRun bounded lists commands)
  | _, [] => instDecidableTrue
  | lists, command :: rest =>
    have : Decidable (ProbedRun bounded (run bounded lists command).2 rest) :=
      decidableProbedRun bounded _ rest
    instDecidableAnd (p := command.Probed lists)

/-- An insertion between two elements, and pops from both ends. -/
def insertedRun (pops : List (Command Nat)) : List (Command Nat) :=
  [.on [1] (.rpush 1 [3]), .on [1] (.linsert .after 1 2)] ++ pops

/-- A pop from the right, a search with a count and a pop of the rest. -/
theorem lists_refine_inserted : (runAll true (fun _ => StoredList.empty)
      (insertedRun [.on [1] (.rpop 1), .on [1] (.lrange 0 0),
        .on [1] (.lpos 2 1 (by decide) (some 0) 0), .on [1] (.lpop 2)])).1 =
        [.integer 2, .integer 3, .value 3, .values [1], .positions [1], .values [1, 2]] :=
  (lists_refine true _ (by decide) (by decide +kernel)).1.trans (by decide)

/-- Two pops from the left: the second passes over the inserted element. A search with a count in an
absent list answers nil. -/
theorem second_pop_passes_over : (runAll true (fun _ => StoredList.empty)
      (insertedRun [.on [1] (.lpop 1), .on [1] (.lpop 1)])).1 =
        [.integer 2, .integer 3, .value 1, .value 3] ∧
      (Plain.runAll (fun _ => []) (insertedRun [.on [1] (.lpop 1), .on [1] (.lpop 1)])).1 =
        [.integer 2, .integer 3, .value 1, .value 2] ∧
      ¬ ProbedRun true (fun _ => StoredList.empty)
        (insertedRun [.on [1] (.lpop 1), .on [1] (.lpop 1)]) ∧
      (runAll true (fun _ => (StoredList.empty : StoredList Nat))
        [.on [1] (.lpos 2 1 (by decide) (some 0) 0)]).1 = [.nil] ∧
      (Plain.runAll (fun _ => ([] : List Nat))
        [.on [1] (.lpos 2 1 (by decide) (some 0) 0)]).1 = [.positions []] := by
  exact ⟨by decide +kernel, by decide, by decide +kernel, by decide, by decide⟩

end FerricStore.Lists
