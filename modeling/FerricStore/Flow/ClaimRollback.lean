import FerricStore.Flow.IndexInvariant

/-!
# Rolling claims back

A claim changes the rows of one id only, so a list of claims with distinct ids is looked at one id
at a time: `Column` is the score of an id under every key. What a rollback makes of the column that
a claim left is the column from before. The entries, the counts and the catalogues follow from the
scores.
-/

namespace FerricStore.Flow

open Kill Function FlowOrderedIndex

/-! ## One id -/

/-- The scores of an id under all keys. -/
abbrev Column := Bytes → Option Float64

variable (column : Column)

/-- A score that is there stays. -/
def Column.putNew (key : Bytes) (score : Float64) : Column :=
  update column key (some ((column key).getD score))

variable (entry : ClaimEntry)

def Column.applyClaim : Column :=
  (((Column.putNew (update (Column.putNew (update column entry.fromDueKey none) entry.toDueKey
    entry.toDueScore) entry.fromStateKey none) entry.toStateKey entry.toStateScore).putNew
    entry.inflightKey entry.leaseScore).putNew entry.workerKey entry.leaseScore)

def Column.rollbackClaim : Column :=
  Column.putNew (update (update (update (Column.putNew (update column entry.toDueKey none)
    entry.fromDueKey entry.fromDueScore) entry.toStateKey none) entry.inflightKey none)
    entry.workerKey none) entry.fromStateKey entry.fromStateScore

/-- The id of a claim is where the claim takes it from, and not where it takes it to. -/
structure Column.Claimable : Prop where
  fromDue : column entry.fromDueKey = some entry.fromDueScore
  fromState : column entry.fromStateKey = some entry.fromStateScore
  toState : column entry.toStateKey = none
  inflight : column entry.inflightKey = none
  worker : column entry.workerKey = none

/-- The id is not under the due key yet, other than where the claim takes it from. -/
def Column.NotDue : Prop :=
  column entry.toDueKey = none ∨ entry.toDueKey = entry.fromDueKey ∨
    entry.toDueKey = entry.fromStateKey

variable {entry}

theorem Column.rollbackClaim_applyClaim {column : Column} (h : column.Claimable entry)
    (hdue : column.NotDue entry) : (column.applyClaim entry).rollbackClaim entry = column := by
  obtain ⟨hfromDue, hfromState, htoState, hinflight, hworker⟩ := h
  funext key
  simp only [Column.applyClaim, Column.rollbackClaim, Column.putNew, update_apply]
  simp only [Column.NotDue] at hdue
  grind

/-! ## Lists of claims -/

section Own

variable {ι α β : Type} [DecidableEq ι] (idOf : β → ι) {change back : α → β → α}
  {values : ι → α} {id : ι} {entries : List β}

/-- A step that changes the value of its own id. -/
def own (change : α → β → α) (values : ι → α) (entry : β) : ι → α :=
  update values (idOf entry) (change (values (idOf entry)) entry)

theorem foldl_own_update (hid : id ∉ entries.map idOf) (value : α) :
    entries.foldl (own idOf change) (update values id value) =
      update (entries.foldl (own idOf change) values) id value := by
  induction entries generalizing values with
  | nil => rfl
  | cons first entries ih =>
    obtain ⟨hne, hid⟩ := List.ne_and_not_mem_of_not_mem_cons hid
    rw [List.foldl_cons, List.foldl_cons, own, update_of_ne hne.symm, update_comm hne, ih hid]
    rfl

/-- Steps with distinct ids are undone in the order in which they were made. -/
theorem foldl_own_cancel (hids : (entries.map idOf).Nodup)
    (h : ∀ entry ∈ entries, back (change (values (idOf entry)) entry) entry = values (idOf entry)) :
    entries.foldl (own idOf back) (entries.foldl (own idOf change) values) = values := by
  induction entries with
  | nil => rfl
  | cons first entries ih =>
    obtain ⟨hfirst, hrest⟩ := List.nodup_cons.mp hids
    obtain ⟨hback, hbacks⟩ := List.forall_mem_cons.mp h
    have hstep : own idOf back ((first :: entries).foldl (own idOf change) values) first =
        entries.foldl (own idOf change) values := by
      rw [List.foldl_cons, own, own, foldl_own_update idOf hfirst, update_self, update_idem, hback,
        ← foldl_own_update idOf hfirst, update_eq_self]
    rw [List.foldl_cons, hstep, ih hrest hbacks]

end Own

variable {index : FlowOrderedIndex} {batch : Batch} {key id : Bytes}

/-- The scores of an index, id by id. -/
def columns (index : FlowOrderedIndex) : Bytes → Column := fun id key => index.lookupScore key id

variable {index' : FlowOrderedIndex}

theorem columns_of_changed {value : Option Float64}
    (h : index'.lookupScore = changed index.lookupScore key id value) :
    columns index' = update (columns index) id (update (columns index id) key value) := by
  funext id' key'
  rw [columns, h, changed]
  by_cases hid : id' = id
  · simp only [hid, and_true, update_self, update_apply]
    rfl
  · rw [update_of_ne hid, if_neg fun hboth => hid hboth.2]
    rfl

theorem columns_delete : columns (batch.delete key id).index =
    update (columns batch.index) id (update (columns batch.index id) key none) := by
  refine columns_of_changed ?_
  rw [Batch.delete, deleteWithoutCount]
  cases hremove : batch.index.removeLookup key id with
  | none =>
    have habsent := removeLookup_eq_none hremove
    funext key' member'
    rw [changed]
    grind
  | some removed => exact (removeLookup_eq_some hremove).2.1

theorem columns_putNew {score : Float64} : columns (batch.putNew key id score).index =
    update (columns batch.index) id (Column.putNew (columns batch.index id) key score) := by
  refine columns_of_changed ?_
  rw [Batch.putNew, putNewWithoutCount, columns]
  cases hscore : batch.index.lookupScore key id with
  | none =>
    rw [insertEntry, lookupScore_insertLookup, lookupScore_insertOrdered]
    rfl
  | some old =>
    funext key' member'
    rw [changed]
    grind

theorem columns_applyClaim (batch : Batch) (entry : ClaimEntry) :
    own ClaimEntry.id Column.applyClaim (columns batch.index) entry =
      columns (batch.applyClaim entry).index := by
  simp only [Batch.applyClaim, columns_delete, columns_putNew, update_self, update_idem]
  rfl

theorem columns_rollbackClaim (batch : Batch) (entry : ClaimEntry) :
    own ClaimEntry.id Column.rollbackClaim (columns batch.index) entry =
      columns (batch.rollbackClaim entry).index := by
  simp only [Batch.rollbackClaim, columns_delete, columns_putNew, update_self, update_idem]
  rfl

theorem columns_finishBatch (batch : Batch) :
    columns (finishBatch batch) = columns batch.index := by
  rw [finishBatch]
  generalize batch.index = index
  induction batch.deltas.entries generalizing index with
  | nil => rfl
  | cons delta deltas ih =>
    refine (ih _).trans ?_
    unfold columns
    rw [lookupScore_incrementCount]

variable {entries : List ClaimEntry}

/-- The scores from before the claims. -/
theorem columns_rollback (hids : (entries.map ClaimEntry.id).Nodup)
    (hclaimable : ∀ entry ∈ entries, (columns index entry.id).Claimable entry)
    (hdue : ∀ entry ∈ entries, (columns index entry.id).NotDue entry) :
    columns ((index.applyClaimEntries entries).rollbackClaimEntries entries) = columns index := by
  have hfold := @List.foldl_hom _ _ ClaimEntry fun batch : Batch => columns batch.index
  rw [rollbackClaimEntries, columns_finishBatch, ← hfold columns_rollbackClaim,
    applyClaimEntries, columns_finishBatch, ← hfold columns_applyClaim]
  exact foldl_own_cancel _ hids fun entry hentry =>
    Column.rollbackClaim_applyClaim (hclaimable entry hentry) (hdue entry hentry)

/-! ## The other structures -/

/-- The entries are those of the scores. -/
theorem Matches.unique {ordered ordered' : SortedMap EntryKey Float64}
    {scores : Bytes → Bytes → Option Float64} (h : Matches ordered scores)
    (h' : Matches ordered' scores) : ordered = ordered' := by
  ext1 entry
  rw [Option.ext_iff]
  refine fun score => ⟨fun hget => ?_, fun hget => ?_⟩
  · obtain ⟨key, member, rfl, hscore⟩ := h.of_entry _ _ hget
    exact h'.has_entry key member score hscore
  · obtain ⟨key, member, rfl, hscore⟩ := h'.of_entry _ _ hget
    exact h.has_entry key member score hscore

/-- Indexes that answer every query alike. -/
structure Alike (index index' : FlowOrderedIndex) : Prop where
  scores : index.lookupScore = index'.lookupScore
  ordered : index.ordered = index'.ordered
  counts : ∀ key, index.count key = index'.count key
  positive : index.positiveCountKeys = index'.positiveCountKeys
  positiveDue : index.positiveDueCountKeys = index'.positiveDueCountKeys

/-- Consistent indexes with the same scores. -/
theorem Consistent.alike (h : Consistent index fun _ => 0)
    (h' : Consistent index' fun _ => 0) (hcolumns : columns index = columns index') :
    Alike index index' := by
  have hscores : index.lookupScore = index'.lookupScore := by
    funext key id
    exact congrFun₂ hcolumns id key
  have hcount : ∀ key, index.count key = index'.count key := fun key => by
    have hcounted := h.counted key
    have hcounted' := h'.counted key
    have hmembers : members index key = members index' key := by
      ext1 member
      rw [get_members, get_members, hscores]
    rw [← size_members, hmembers, size_members] at hcounted
    omega
  refine ⟨hscores, (hscores ▸ h.paired).unique h'.paired, hcount, ?_, ?_⟩
  · ext key
    rw [h.catalogued.positive, h'.catalogued.positive, hcount]
  · ext key
    rw [h.catalogued.due, h'.catalogued.due, hcount]

/-- Claims with distinct ids that are applied and rolled back leave no trace, if no id was already
under the due key that its claim takes it to, other than where the claim takes it from. -/
theorem rollback_of_claims (index : FlowOrderedIndex) (hindex : Consistent index fun _ => 0)
    (hfits : Addressable index) (entries : List ClaimEntry)
    (hids : (entries.map ClaimEntry.id).Nodup)
    (hclaimable : ∀ entry ∈ entries, (columns index entry.id).Claimable entry)
    (hdue : ∀ entry ∈ entries, (columns index entry.id).NotDue entry) :
    Alike ((Request.rollbackClaimEntries entries).exec
      ((Request.applyClaimEntries entries).exec index)) index := by
  have hcost : (Request.rollbackClaimEntries entries).cost =
    (Request.applyClaimEntries entries).cost := rfl
  rw [Request.exec, Request.exec, hcost]
  split_ifs with hlimits
  · have hitems : (Request.applyClaimEntries entries).cost.items ≤ 100000 :=
      of_decide_eq_true (Bool.and_eq_true_iff.mp hlimits).1
    have hsound : Sound index (0 + (Cost.sum ClaimEntry.cost entries).items +
        (Cost.sum ClaimEntry.cost entries).items) := by
      refine ⟨hindex, fun key => ?_⟩
      have hmembers := memberCount_le_size hindex.paired key
      rw [Request.cost] at hitems
      rw [Addressable] at hfits
      omega
    exact ((hsound.applyClaimEntries entries).rollbackClaimEntries entries).consistent.alike hindex
      (columns_rollback hids hclaimable hdue)
  · exact ⟨rfl, rfl, fun _ => rfl, rfl, rfl⟩

/-- A flow that is due under one key and is claimed to another. -/
def sampleClaim (id : Bytes) : ClaimEntry :=
  ⟨id, [1], Float64.zero, [2], Float64.zero, [3], Float64.zero, [4], Float64.zero, [5], [6],
    Float64.zero⟩

/-- Ids under the due and state keys of the sample and under others. -/
def sampleIndex (ids others : List Bytes) : FlowOrderedIndex :=
  (Request.putEntries (ids.flatMap fun id =>
    ([1] :: [3] :: others).map fun key => ⟨key, id, Float64.zero⟩)).exec FlowOrderedIndex.new

/-- Two flows that are claimed by one worker, with the same keys. -/
theorem rollback_of_claims_sample :
    Alike ((Request.rollbackClaimEntries [sampleClaim [1], sampleClaim [7]]).exec
      ((Request.applyClaimEntries [sampleClaim [1], sampleClaim [7]]).exec
        (sampleIndex [[1], [7]] []))) (sampleIndex [[1], [7]] []) := by
  refine rollback_of_claims _ (consistent_new.exec (by decide) _) (by decide +kernel) _ (by decide)
    ?_ ?_
  · simp only [List.forall_mem_cons]
    exact ⟨by constructor <;> decide +kernel, by constructor <;> decide +kernel, nofun⟩
  · simp only [List.forall_mem_cons]
    exact ⟨.inl (by decide +kernel), .inl (by decide +kernel), nofun⟩

/-- An id that was under the target due key is gone from there after the rollback. -/
theorem rollback_of_claims_due :
    (columns (sampleIndex [[1]] [[2]]) [1]).Claimable (sampleClaim [1]) ∧
      ¬ Alike ((Request.rollbackClaimEntries [sampleClaim [1]]).exec
        ((Request.applyClaimEntries [sampleClaim [1]]).exec (sampleIndex [[1]] [[2]])))
        (sampleIndex [[1]] [[2]]) := by
  refine ⟨by constructor <;> decide +kernel, fun h => ?_⟩
  have hscore := congrFun₂ h.scores [2] [1]
  revert hscore
  decide +kernel

/-- The index has no memory: two runs that leave every member the same score leave indexes that
answer every query alike, whatever came and went on the way. -/
theorem runs_with_same_scores_alike (requests requests' : List Request)
    (hfits : Always Request.exec Addressable requests new)
    (hfits' : Always Request.exec Addressable requests' new)
    (hscores : (runSteps Request.exec requests new).lookupScore =
      (runSteps Request.exec requests' new).lookupScore) :
    Alike (runSteps Request.exec requests new) (runSteps Request.exec requests' new) := by
  have hconsistent : ∀ requests, Always Request.exec Addressable requests new →
      Consistent (runSteps Request.exec requests new) fun _ => 0 := fun requests hfits => by
    have hall : Always Request.exec (fun index => Consistent index fun _ => 0) requests new :=
      Always.of_step (fun _ request hfits h => h.exec hfits request) hfits consistent_new
    exact hall.whole
  refine (hconsistent _ hfits).alike (hconsistent _ hfits') ?_
  funext id key
  exact congrFun₂ hscores key id

/-- A member that is moved to another key and back. -/
theorem runs_with_same_scores_alike_moved :
    Alike (runSteps Request.exec [.putEntries [⟨[1], [7], Float64.zero⟩]] new)
      (runSteps Request.exec [.putEntries [⟨[2], [7], Float64.zero⟩],
        .moveEntries [⟨[2], [1], [7], Float64.zero⟩]] new) :=
  runs_with_same_scores_alike _ _
    (always_cons.mpr ⟨by decide, always_nil.mpr (by decide)⟩)
    (always_cons.mpr ⟨by decide, always_cons.mpr ⟨by decide, always_nil.mpr (by decide)⟩⟩) (by rfl)

end FerricStore.Flow
