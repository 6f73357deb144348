import FerricStore.Lib.Bytes

/-!
# Relocation of the planned locators

Compacting a segment moves records within it. The Flow locators that name those records are rows of
the key-value store, and they are moved page by page after the plan that the compaction has left: a
live state has a query row, and a cold state has a query row, a park row, and a row under its segment
and offset that names it. A page is one write batch: what it compares, deletes and puts takes effect
in the order of the batch, and all of it or nothing. The plan is walked in the same order forward
and in reverse.
-/

namespace FerricStore.Store

open Function List

structure Location where
  fileId : Nat
  offset : Nat
  valueSize : Nat
  deriving DecidableEq

/-- The rows of the key-value store that hold locators, by state key and by segment and offset. -/
structure Locators where
  query : Bytes → Option Location
  park : Bytes → Option Location
  bySegment : Nat × Nat → Option Bytes

inductive KvOp where
  | comparePark (key : Bytes) (location : Location)
  | compareQuery (key : Bytes) (location : Location)
  | compareSegment (place : Nat × Nat) (key : Bytes)
  | deleteSegment (place : Nat × Nat)
  | putSegment (place : Nat × Nat) (key : Bytes)
  | putPark (key : Bytes) (location : Location)
  | putQuery (key : Bytes) (location : Location)

def KvOp.exec (rows : Locators) : KvOp → Option Locators
  | .comparePark key location => if rows.park key = some location then some rows else none
  | .compareQuery key location => if rows.query key = some location then some rows else none
  | .compareSegment place key => if rows.bySegment place = some key then some rows else none
  | .deleteSegment place => some { rows with bySegment := update rows.bySegment place none }
  | .putSegment place key =>
    some { rows with bySegment := update rows.bySegment place (some key) }
  | .putPark key location => some { rows with park := update rows.park key (some location) }
  | .putQuery key location =>
    some { rows with query := update rows.query key (some location) }

/-- A batch in one transaction: a comparison sees what the operations before it have written. -/
def writeBatch (rows : Locators) : List KvOp → Option Locators
  | [] => some rows
  | op :: rest => (op.exec rows).bind fun rows => writeBatch rows rest

inductive Direction where
  | forward
  | reverse
  deriving DecidableEq

/-- A planned locator; relocation keeps the size of the value. -/
structure PlanEntry where
  cold : Bool
  stateKey : Bytes
  valueSize : Nat
  oldOffset : Nat
  newOffset : Nat
  deriving DecidableEq

variable (fid : Nat) (entry : PlanEntry)

def PlanEntry.oldLocation : Location :=
  ⟨fid, entry.oldOffset, entry.valueSize⟩

def PlanEntry.newLocation : Location :=
  ⟨fid, entry.newOffset, entry.valueSize⟩

def Direction.source : Direction → Location
  | .forward => entry.oldLocation fid
  | .reverse => entry.newLocation fid

def Direction.target : Direction → Location
  | .forward => entry.newLocation fid
  | .reverse => entry.oldLocation fid

section

variable (key : Bytes) (source target : Location)

/-- `cold_compaction_ops`. -/
def coldCompactionOps : List KvOp :=
  [.comparePark key source, .compareQuery key source,
    .compareSegment (source.fileId, source.offset) key,
    .deleteSegment (source.fileId, source.offset),
    .putSegment (target.fileId, target.offset) key, .putPark key target, .putQuery key target]

/-- `cold_relocation_ops` for one entry: a park row at neither end is left alone. -/
def coldRelocationOps (rows : Locators) : Option (List KvOp) :=
  if rows.park key = some target then
    if rows.query key = some target then some [] else none
  else if rows.park key = some source then
    if rows.query key = some source then some (coldCompactionOps key source target) else none
  else some []

/-- `flow_relocation_entry_ops`: a query row at neither end is left alone. -/
def flowRelocationOps (rows : Locators) : Option (List KvOp) :=
  if rows.query key = some target then some []
  else if rows.query key = some source then
    some [.compareQuery key source, .putQuery key target]
  else some []

end

def relocationOps (direction : Direction) (rows : Locators) (entry : PlanEntry) :
    Option (List KvOp) :=
  if entry.cold then
    coldRelocationOps entry.stateKey (direction.source fid entry) (direction.target fid entry) rows
  else
    flowRelocationOps entry.stateKey (direction.source fid entry) (direction.target fid entry) rows

/-- The cold entries of a page come before its live ones. -/
def coldFirst (page : List PlanEntry) : List PlanEntry :=
  page.filter (·.cold) ++ page.filter (!·.cold)

/-- One page: what is done is decided on the rows read first, and written as one batch. -/
def relocateFlowLocatorPage (direction : Direction) (page : List PlanEntry)
    (rows : Locators) : Option Locators :=
  ((coldFirst page).mapM (relocationOps fid direction rows)).bind fun ops =>
    writeBatch rows ops.flatten

/-! ## Where a locator stands -/

/-- Every row of an entry names one location. -/
def Settled (rows : Locators) (entry : PlanEntry) (location : Location) : Prop :=
  rows.query entry.stateKey = some location ∧
    (entry.cold = true → rows.park entry.stateKey = some location ∧
      rows.bySegment (location.fileId, location.offset) = some entry.stateKey)

/-- A row that does not name the segment. -/
def Outside (row : Option Location) : Prop :=
  ∀ location, row = some location → location.fileId ≠ fid

/-- The rows of a state that has left the segment while it was being compacted. -/
structure Departure where
  query : Option Location
  park : Option Location
  query_outside : Outside fid query
  park_outside : Outside fid park

/-- A state leaves the segment: its rows are replaced and its row by segment is deleted. -/
def Locators.depart {fid : Nat} (rows : Locators) (key : Bytes) (departure : Departure fid) :
    Locators where
  query := update rows.query key departure.query
  park := update rows.park key departure.park
  bySegment place := if rows.bySegment place = some key then none else rows.bySegment place

section Stands

variable {fid} {departed : Bytes → Option (Departure fid)} {rows : Locators}

/-- An entry that has not left the segment is at one of the locations; one that has left has the
rows it left with. -/
def Stands (departed : Bytes → Option (Departure fid)) (rows : Locators) (locations : List Location)
    (entry : PlanEntry) : Prop :=
  (departed entry.stateKey).elim (∃ location ∈ locations, Settled rows entry location)
    fun departure =>
      rows.query entry.stateKey = departure.query ∧ rows.park entry.stateKey = departure.park

variable {entry}

theorem Stands.mono {locations others : List Location}
    (hsubset : locations ⊆ others) (h : Stands departed rows locations entry) :
    Stands departed rows others entry := by
  unfold Stands at h ⊢
  cases hdeparted : departed entry.stateKey with
  | some departure =>
    rw [hdeparted] at h
    exact h
  | none =>
    rw [hdeparted] at h
    obtain ⟨location, hlocation, hsettled⟩ := h
    exact ⟨location, hsubset hlocation, hsettled⟩

/-- A departure leaves every other state where it is. -/
theorem Stands.depart {locations : List Location} {key : Bytes}
    {departure : Departure fid} (h : Stands departed rows locations entry) :
    Stands (update departed key (some departure)) (rows.depart key departure) locations
      entry := by
  unfold Stands at h ⊢
  rcases eq_or_ne entry.stateKey key with hkey | hkey
  · rw [hkey, update_self]
    exact ⟨update_self .., update_self ..⟩
  · have hquery : (rows.depart key departure).query entry.stateKey = rows.query entry.stateKey :=
      update_of_ne hkey _ _
    have hpark : (rows.depart key departure).park entry.stateKey = rows.park entry.stateKey :=
      update_of_ne hkey _ _
    rw [update_of_ne hkey]
    cases hdeparted : departed entry.stateKey with
    | some other =>
      rw [hdeparted] at h
      exact ⟨hquery.trans h.1, hpark.trans h.2⟩
    | none =>
      rw [hdeparted] at h
      obtain ⟨location, hlocation, hat, hcold⟩ := h
      refine ⟨location, hlocation, hquery.trans hat, fun hentry => ?_⟩
      obtain ⟨hparked, hsegment⟩ := hcold hentry
      refine ⟨hpark.trans hparked, ?_⟩
      show (if rows.bySegment _ = some key then none else rows.bySegment _) = _
      rw [hsegment, if_neg (fun heq => hkey (Option.some.inj heq))]

/-! ## One entry -/

/-- The rows after one entry has been moved. -/
def Locators.move (rows : Locators) (entry : PlanEntry) (source target : Location) : Locators where
  query := update rows.query entry.stateKey (some target)
  park :=
    if entry.cold then update rows.park entry.stateKey (some target) else rows.park
  bySegment :=
    if entry.cold then
      update (update rows.bySegment (source.fileId, source.offset) none)
        (target.fileId, target.offset) (some entry.stateKey)
    else rows.bySegment

variable {direction : Direction}

/-- An entry at its source is moved to its target. -/
theorem writeBatch_of_settled (hsource : Settled rows entry (direction.source fid entry))
    (hne : direction.source fid entry ≠ direction.target fid entry) :
    ∃ ops, relocationOps fid direction rows entry = some ops ∧ writeBatch rows ops =
        some (rows.move entry (direction.source fid entry) (direction.target fid entry)) := by
  obtain ⟨hquery, hcold⟩ := hsource
  cases hentry : entry.cold with
  | true =>
    obtain ⟨hpark, hsegment⟩ := hcold hentry
    refine ⟨coldCompactionOps entry.stateKey (direction.source fid entry)
      (direction.target fid entry), ?_, ?_⟩
    · simp [relocationOps, coldRelocationOps, hentry, hpark, hquery, hne]
    · simp [coldCompactionOps, writeBatch, KvOp.exec, hpark, hquery, hsegment, Locators.move,
        hentry]
  | false =>
    refine ⟨[.compareQuery entry.stateKey (direction.source fid entry),
      .putQuery entry.stateKey (direction.target fid entry)], ?_, ?_⟩
    · simp [relocationOps, flowRelocationOps, hentry, hquery, hne]
    · simp [writeBatch, KvOp.exec, hquery, Locators.move, hentry]

theorem settled_move {source target : Location} :
    Settled (rows.move entry source target) entry target := by
  refine ⟨update_self .., fun hcold => ?_⟩
  simp [Locators.move, hcold]

/-- Another entry stays where it is, unless the moved one takes its place by segment. -/
theorem Settled.move {entry other : PlanEntry} {source target location : Location}
    (hkey : other.stateKey ≠ entry.stateKey) (hsource : Settled rows entry source)
    (hfree : entry.cold = true → other.cold = true →
      (location.fileId, location.offset) ≠ (target.fileId, target.offset))
    (h : Settled rows other location) :
    Settled (rows.move entry source target) other location := by
  refine ⟨(update_of_ne hkey _ _).trans h.1, fun hother => ?_⟩
  obtain ⟨hpark, hsegment⟩ := h.2 hother
  cases hentry : entry.cold with
  | false => simpa [Locators.move, hentry] using ⟨hpark, hsegment⟩
  | true =>
    -- Two entries at one place would have one key.
    have hplace : (location.fileId, location.offset) ≠ (source.fileId, source.offset) := by
      intro heq
      have := (hsource.2 hentry).2
      rw [← heq, hsegment] at this
      exact hkey (Option.some.inj this)
    constructor
    · show (if entry.cold then update rows.park entry.stateKey _ else rows.park) _ = _
      rw [if_pos hentry, update_of_ne hkey, hpark]
    · show (if entry.cold then _ else rows.bySegment) _ = _
      rw [if_pos hentry, update_of_ne (hfree hentry hother), update_of_ne hplace, hsegment]

/-- The relocation of one entry: it reaches its target, no row of another key changes, and an entry
that is not in the way stays. -/
def Relocates (departed : Bytes → Option (Departure fid)) (rows : Locators) (direction : Direction)
    (entry : PlanEntry) (ops : List KvOp) (after : Locators) : Prop :=
  relocationOps fid direction rows entry = some ops ∧ writeBatch rows ops = some after ∧
    Stands departed after [direction.target fid entry] entry ∧
    (∀ key, key ≠ entry.stateKey →
      after.query key = rows.query key ∧ after.park key = rows.park key) ∧
    ∀ other locations, other.stateKey ≠ entry.stateKey →
      (entry.cold = true → other.cold = true → ∀ location ∈ locations,
        location.offset ≠ (direction.target fid entry).offset) →
      Stands departed rows locations other → Stands departed after locations other

/-- An entry without operations changes nothing. -/
theorem Relocates.stay (hops : relocationOps fid direction rows entry = some [])
    (hstands : Stands departed rows [direction.target fid entry] entry) :
    Relocates departed rows direction entry [] rows :=
  ⟨hops, rfl, hstands, fun _ _ => ⟨rfl, rfl⟩, fun _ _ _ _ hother => hother⟩

/-- The move of an entry at its source. -/
theorem Relocates.move (hdeparted : departed entry.stateKey = none)
    (hsource : Settled rows entry (direction.source fid entry))
    (hne : direction.source fid entry ≠ direction.target fid entry) :
    ∃ ops, Relocates departed rows direction entry ops
      (rows.move entry (direction.source fid entry) (direction.target fid entry)) := by
  obtain ⟨ops, hops, hbatch⟩ := writeBatch_of_settled hsource hne
  have hpark : ∀ key, key ≠ entry.stateKey → ∀ source target,
      (rows.move entry source target).park key = rows.park key := by
    intro key hkey source target
    show (if entry.cold then update rows.park entry.stateKey _ else rows.park) _ = _
    cases entry.cold with
    | true => exact update_of_ne hkey _ _
    | false => rfl
  refine ⟨ops, hops, hbatch, ?_, fun key hkey => ⟨update_of_ne hkey _ _, hpark key hkey _ _⟩, ?_⟩
  · rw [Stands, hdeparted]
    exact ⟨_, mem_singleton_self _, settled_move⟩
  · intro other locations hkey hfree hother
    unfold Stands at hother ⊢
    cases hleft : departed other.stateKey with
    | some departure =>
      rw [hleft] at hother
      exact ⟨(update_of_ne hkey _ _).trans hother.1, (hpark other.stateKey hkey _ _).trans hother.2⟩
    | none =>
      rw [hleft] at hother
      obtain ⟨place, hplace, hsettled⟩ := hother
      refine ⟨place, hplace, Settled.move hkey hsource (fun hentry hcold heq => ?_) hsettled⟩
      exact hfree hentry hcold place hplace (Prod.mk.inj heq).2

/-- An entry that stands at one of its two ends, or has left, can be relocated. -/
theorem relocate_entry
    (h : Stands departed rows [direction.source fid entry, direction.target fid entry] entry) :
    ∃ ops after, Relocates departed rows direction entry ops after := by
  have hfile : ∀ location, location = direction.source fid entry ∨
      location = direction.target fid entry → location.fileId = fid := by
    intro location hlocation
    rcases hlocation with rfl | rfl <;> cases direction <;> rfl
  cases hdeparted : departed entry.stateKey with
  | some departure =>
    -- A state that has left the segment is at neither end.
    have hrows := h
    rw [Stands, hdeparted] at hrows
    obtain ⟨hquery, hpark⟩ := hrows
    have haway : ∀ row, Outside fid row → ∀ location, (location = direction.source fid entry ∨
        location = direction.target fid entry) → row ≠ some location :=
      fun row hrow location hlocation heq => hrow location heq (hfile location hlocation)
    have hops : relocationOps fid direction rows entry = some [] := by
      unfold relocationOps coldRelocationOps flowRelocationOps
      rw [hquery, hpark, if_neg (haway _ departure.park_outside _ (.inr rfl)),
        if_neg (haway _ departure.park_outside _ (.inl rfl)),
        if_neg (haway _ departure.query_outside _ (.inr rfl)),
        if_neg (haway _ departure.query_outside _ (.inl rfl)), ite_self]
    refine ⟨_, _, Relocates.stay hops ?_⟩
    rw [Stands, hdeparted]
    exact ⟨hquery, hpark⟩
  | none =>
    have hlocation := h
    rw [Stands, hdeparted] at hlocation
    obtain ⟨location, hmem, hsettled⟩ := hlocation
    by_cases htarget : location = direction.target fid entry
    · rw [htarget] at hsettled
      have hops : relocationOps fid direction rows entry = some [] := by
        unfold relocationOps coldRelocationOps flowRelocationOps
        rw [hsettled.1, if_pos rfl, if_pos rfl]
        cases hcold : entry.cold with
        | true => rw [if_pos rfl, if_pos (hsettled.2 hcold).1]
        | false => rfl
      refine ⟨_, _, Relocates.stay hops ?_⟩
      rw [Stands, hdeparted]
      exact ⟨_, mem_singleton_self _, hsettled⟩
    · have hsource : location = direction.source fid entry := by
        rcases mem_cons.mp hmem with heq | heq
        · exact heq
        · exact absurd (mem_singleton.mp heq) htarget
      rw [hsource] at hsettled htarget
      obtain ⟨ops, hmove⟩ := Relocates.move hdeparted hsettled htarget
      exact ⟨ops, _, hmove⟩

/-! ## One page -/

/-- A batch after another. -/
theorem writeBatch_append (ops others : List KvOp) : ∀ rows, writeBatch rows (ops ++ others) =
      (writeBatch rows ops).bind fun rows => writeBatch rows others := by
  induction ops with
  | nil => exact fun rows => rfl
  | cons op rest ih =>
    intro rows
    show (op.exec rows).bind _ = ((op.exec rows).bind _).bind _
    rw [Option.bind_assoc]
    exact Option.bind_congr fun after _ => ih after

/-- An entry may be relocated before another: they are of different keys, and the earlier one does
not take a place by segment from which the later one still has to leave, or where it arrives. -/
def Clear (fid : Nat) (direction : Direction) (entry other : PlanEntry) : Prop :=
  entry.stateKey ≠ other.stateKey ∧
    (entry.cold = true → other.cold = true →
      (direction.target fid entry).offset ≠ (direction.target fid other).offset ∧
      (direction.target fid entry).offset ≠ (direction.source fid other).offset)

/-- The entries of a page one after the other, with the operations decided on earlier rows. -/
theorem relocate_entries {before : Locators} {later : List PlanEntry}
    (entries : List PlanEntry) : ∀ (rows : Locators) (done : List PlanEntry),
    (∀ entry ∈ entries, rows.query entry.stateKey = before.query entry.stateKey ∧
      rows.park entry.stateKey = before.park entry.stateKey) →
    (done ++ (entries ++ later)).Pairwise (Clear fid direction) →
    (∀ entry ∈ done, Stands departed rows [direction.target fid entry] entry) →
    (∀ entry ∈ entries ++ later,
      Stands departed rows [direction.source fid entry, direction.target fid entry] entry) →
    ∃ ops after, entries.mapM (relocationOps fid direction before) = some ops ∧
      writeBatch rows ops.flatten = some after ∧
      (∀ entry ∈ done ++ entries, Stands departed after [direction.target fid entry] entry) ∧
      ∀ entry ∈ later,
        Stands departed after [direction.source fid entry, direction.target fid entry] entry := by
  induction entries with
  | nil =>
    intro rows done _ _ hdone hlater
    exact ⟨[], rows, rfl, rfl, by simpa using hdone, by simpa using hlater⟩
  | cons entry rest ih =>
    intro rows done hagree hclear hdone htodo
    obtain ⟨ops, after, hops, hbatch, harrived, hothers, hstay⟩ :=
      relocate_entry (htodo entry mem_cons_self)
    rw [pairwise_append, cons_append, pairwise_cons] at hclear
    obtain ⟨hpast, ⟨hnext, hrest⟩, hcross⟩ := hclear
    have hdoneAfter : ∀ other ∈ done ++ [entry],
        Stands departed after [direction.target fid other] other := by
      intro other hother
      rcases mem_append.mp hother with hother | hother
      · have hfirst := hcross other hother entry mem_cons_self
        refine hstay other _ hfirst.1 (fun hentry hcold location hlocation => ?_)
          (hdone other hother)
        rw [mem_singleton.mp hlocation]
        exact (hfirst.2 hcold hentry).1
      · rw [mem_singleton.mp hother]
        exact harrived
    have htodoAfter : ∀ other ∈ rest ++ later, Stands departed after
        [direction.source fid other, direction.target fid other] other := by
      intro other hother
      have hsecond := hnext other hother
      refine hstay other _ (Ne.symm hsecond.1) (fun hentry hcold location hlocation => ?_)
        (htodo other (mem_cons_of_mem _ hother))
      obtain ⟨htarget, hsource⟩ := hsecond.2 hentry hcold
      rcases mem_cons.mp hlocation with rfl | hlocation
      · exact Ne.symm hsource
      · rw [mem_singleton.mp hlocation]
        exact Ne.symm htarget
    have hagreeAfter : ∀ other ∈ rest, after.query other.stateKey = before.query other.stateKey ∧
        after.park other.stateKey = before.park other.stateKey := by
      intro other hother
      obtain ⟨hquery, hpark⟩ := hothers other.stateKey
        (Ne.symm (hnext other (mem_append_left _ hother)).1)
      obtain ⟨hqueryBefore, hparkBefore⟩ := hagree other (mem_cons_of_mem _ hother)
      exact ⟨hquery.trans hqueryBefore, hpark.trans hparkBefore⟩
    have hclearAfter : (done ++ [entry] ++ (rest ++ later)).Pairwise (Clear fid direction) := by
      rw [append_assoc, singleton_append, pairwise_append, pairwise_cons]
      exact ⟨hpast, ⟨hnext, hrest⟩, hcross⟩
    obtain ⟨restOps, final, hrestOps, hrestBatch, hfinalDone, hfinalLater⟩ :=
      ih after (done ++ [entry]) hagreeAfter hclearAfter hdoneAfter htodoAfter
    obtain ⟨hquery, hpark⟩ := hagree entry mem_cons_self
    -- the rows agree on the key of the entry
    unfold relocationOps coldRelocationOps flowRelocationOps at hops
    rw [hquery, hpark] at hops
    refine ⟨ops :: restOps, final, ?_, ?_, ?_, hfinalLater⟩
    · rw [mapM_cons, hrestOps]
      exact congrArg (· >>= _) hops
    · rw [flatten_cons, writeBatch_append, hbatch]
      exact hrestBatch
    · rwa [append_assoc, singleton_append] at hfinalDone

variable {page : List PlanEntry}

theorem mem_coldFirst : entry ∈ coldFirst page ↔ entry ∈ page := by
  cases h : entry.cold <;> simp [coldFirst, h]

/-- Taking the cold entries first keeps the order between cold entries. -/
theorem pairwise_coldFirst (h : page.Pairwise (Clear fid direction)) :
    (coldFirst page).Pairwise (Clear fid direction) := by
  refine pairwise_append.mpr ⟨h.filter _, h.filter _, fun entry hentry other hother => ?_⟩
  obtain ⟨hentryMem, hentryCold⟩ := mem_filter.mp hentry
  obtain ⟨hotherMem, hotherCold⟩ := mem_filter.mp hother
  have hnotCold : other.cold = false := by simpa using hotherCold
  have hkeys : page.Pairwise fun entry other => entry.stateKey ≠ other.stateKey :=
    h.imp fun hclear => hclear.1
  refine ⟨?_, fun _ hcold => absurd hcold (by rw [hnotCold]; decide)⟩
  have : Std.Symm fun entry other : PlanEntry => entry.stateKey ≠ other.stateKey :=
    ⟨fun _ _ => Ne.symm⟩
  refine hkeys.forall hentryMem hotherMem fun heq => ?_
  rw [heq, hnotCold] at hentryCold
  exact Bool.false_ne_true hentryCold

/-- A page succeeds: with the pages before it done, its entries reach their targets and the later
ones stay at one of their ends. -/
theorem relocateFlowLocatorPage_eq_some {done later : List PlanEntry}
    (hclear : (done ++ (page ++ later)).Pairwise (Clear fid direction))
    (hdone : ∀ entry ∈ done, Stands departed rows [direction.target fid entry] entry)
    (htodo : ∀ entry ∈ page ++ later,
      Stands departed rows [direction.source fid entry, direction.target fid entry] entry) :
    ∃ after, relocateFlowLocatorPage fid direction page rows = some after ∧
      (∀ entry ∈ done ++ page, Stands departed after [direction.target fid entry] entry) ∧
      ∀ entry ∈ later,
        Stands departed after [direction.source fid entry, direction.target fid entry] entry := by
  have hsorted : (done ++ (coldFirst page ++ later)).Pairwise (Clear fid direction) := by
    rw [pairwise_append, pairwise_append] at hclear ⊢
    obtain ⟨hpast, ⟨hpage, hlater, hcross⟩, hacross⟩ := hclear
    refine ⟨hpast, ⟨pairwise_coldFirst hpage, hlater, fun entry hentry =>
      hcross entry (mem_coldFirst.mp hentry)⟩, fun entry hentry other hother => ?_⟩
    refine hacross entry hentry other (mem_append.mpr ?_)
    rcases mem_append.mp hother with hother | hother
    · exact .inl (mem_coldFirst.mp hother)
    · exact .inr hother
  obtain ⟨ops, after, hops, hbatch, harrived, hlater⟩ :=
    relocate_entries (coldFirst page) rows done (fun _ _ => ⟨rfl, rfl⟩) hsorted
      hdone (fun entry hentry => htodo entry (by
        rcases mem_append.mp hentry with hentry | hentry
        · exact mem_append_left _ (mem_coldFirst.mp hentry)
        · exact mem_append_right _ hentry))
  refine ⟨after, ?_, fun entry hentry => harrived entry ?_, hlater⟩
  · rw [relocateFlowLocatorPage, hops]
    exact hbatch
  · rcases mem_append.mp hentry with hentry | hentry
    · exact mem_append_left _ hentry
    · exact mem_append_right _ (mem_coldFirst.mpr hentry)

end Stands

end FerricStore.Store
