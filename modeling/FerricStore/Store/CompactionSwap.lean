import FerricStore.Store.Relocation

/-!
# The compaction swap and its recovery

Publishing a compacted segment writes a journal, moves the segment to a backup and the compacted file
into its place, relocates the planned locators page by page, and writes a marker; then the backup,
the marker, the plan and the journal go one by one. After a kill the recovery decides by the backup,
the segment and the marker whether to go on or to go back, and it may be killed itself. A running
process has the list of the steps it still has to take; a kill replaces it by the list of the
recovery.
-/

namespace FerricStore.Store

inductive Contents where
  | original
  | compacted
  deriving DecidableEq

/-- What a kill leaves: the files of the shard that the swap touches, the marker and the rows of the
locators. -/
structure Disk where
  source : Option Contents
  backup : Option Contents
  dest : Option Contents
  journal : Bool
  plan : Bool
  marker : Bool
  rows : Locators

/-- The pages of a plan as a compaction writes it: in the order of the segment, with one entry for a
state key, and no record moved up. -/
structure CompactionPlan where
  fid : Nat
  pages : List (List PlanEntry)
  keys_ne : pages.flatten.Pairwise fun entry other => entry.stateKey ≠ other.stateKey
  ordered : pages.flatten.Pairwise fun entry other =>
    entry.oldOffset < other.oldOffset ∧ entry.newOffset < other.newOffset
  newOffset_le : ∀ entry ∈ pages.flatten, entry.newOffset ≤ entry.oldOffset

inductive SwapStep where
  | begin
  | backupSource
  | installCompacted
  | relocate (direction : Direction) (page : List PlanEntry)
  | writeMarker
  | removeBackup
  | removeSource
  | restoreBackup
  | deleteMarker
  | removePlan
  | removeJournal
  | removeTemporary
  deriving DecidableEq

/-- One step: a rename needs its file, relocation needs the plan, and removing what is not there
succeeds. -/
def SwapStep.exec (fid : Nat) (disk : Disk) : SwapStep → Option Disk
  | .begin =>
    if disk.plan = true ∧ disk.journal = false ∧ disk.backup = none then
      some { disk with journal := true }
    else none
  | .backupSource =>
    disk.source.map fun contents => { disk with source := none, backup := some contents }
  | .installCompacted =>
    disk.dest.map fun contents => { disk with dest := none, source := some contents }
  | .relocate direction page =>
    if disk.plan then
      (relocateFlowLocatorPage fid direction page disk.rows).map fun rows =>
        { disk with rows := rows }
    else none
  | .writeMarker => some { disk with marker := true }
  | .removeBackup => some { disk with backup := none }
  | .removeSource => some { disk with source := none }
  | .restoreBackup =>
    disk.backup.map fun contents => { disk with backup := none, source := some contents }
  | .deleteMarker => some { disk with marker := false }
  | .removePlan => some { disk with plan := false }
  | .removeJournal => some { disk with journal := false }
  | .removeTemporary => some { disk with dest := none }

section Programs

variable (pages : List (List PlanEntry))

def relocateAll (direction : Direction) : List SwapStep := pages.map (SwapStep.relocate direction)

/-- `clear_recovered_transaction`. -/
def clearRecoveredTransaction : List SwapStep := [.deleteMarker, .removePlan, .removeJournal]

def complete : List SwapStep :=
  relocateAll pages .forward ++ .removeBackup :: clearRecoveredTransaction

def completeWithoutBackup : List SwapStep := relocateAll pages .forward ++ clearRecoveredTransaction

def rollback : List SwapStep :=
  relocateAll pages .reverse ++ .removeSource :: .restoreBackup :: clearRecoveredTransaction

def restoreBackupWithoutSource : List SwapStep :=
  relocateAll pages .reverse ++ .restoreBackup :: clearRecoveredTransaction

def abortBeforeSwap : List SwapStep := [.removeJournal, .removePlan]

/-- `commit_compacted_locations` and what follows it. -/
def commitCompactedLocations : List SwapStep :=
  relocateAll pages .forward ++ .writeMarker :: complete pages

def publishCompactedSegment : List SwapStep :=
  .begin :: .backupSource :: .installCompacted :: commitCompactedLocations pages

/-- `cleanup_compact_temps`, which runs after the journals have been recovered. -/
def cleanupCompactTemps : List SwapStep := [.removePlan, .removeTemporary]

/-- `recover_transaction`. -/
def recoverTransaction (disk : Disk) : Option (List SwapStep) :=
  match disk.backup.isSome, disk.source.isSome, disk.marker with
  | false, true, false => some clearRecoveredTransaction
  | false, true, true => some (completeWithoutBackup pages)
  | true, false, false => some (restoreBackupWithoutSource pages)
  | true, true, false => some (rollback pages)
  | true, true, true => some (complete pages)
  | true, false, true => none
  | false, false, _ => none

/-- The steps of a start: `recover_all`, then the cleanup. -/
def recoverAll (disk : Disk) : Option (List SwapStep) :=
  (if disk.journal then recoverTransaction pages disk else some []).map (· ++ cleanupCompactTemps)

end Programs

/-! ## Runs -/

variable (plan : CompactionPlan)

/-- A process with the steps it still has to take. Beside the disk it records whether the marker has
ever been written, and the states that have left the segment in the meantime. -/
structure SwapRun where
  disk : Disk
  program : List SwapStep
  marked : Bool
  departed : Bytes → Option (Departure plan.fid)

/-- What can happen next: the process takes a step, it is killed and started again, it rolls back or
aborts before the marker, or a state leaves the segment. -/
inductive SwapRun.Next {plan : CompactionPlan} : SwapRun plan → SwapRun plan → Prop
  | step {run : SwapRun plan} {step : SwapStep} {rest : List SwapStep} {disk : Disk}
      (program : run.program = step :: rest) (taken : step.exec plan.fid run.disk = some disk) :
      Next run { run with
        disk := disk, program := rest, marked := run.marked || decide (step = .writeMarker) }
  | kill {run : SwapRun plan} {program : List SwapStep}
      (recover : recoverAll plan.pages run.disk = some program) :
      Next run { run with program := program }
  | rollBack {run : SwapRun plan} (backup : run.disk.backup.isSome = true)
      (marker : run.disk.marker = false) :
      Next run { run with program := rollback plan.pages }
  | abort {run : SwapRun plan} (journal : run.disk.journal = true)
      (backup : run.disk.backup = none) (marker : run.disk.marker = false) :
      Next run { run with program := abortBeforeSwap }
  | depart {run : SwapRun plan} (key : Bytes) (departure : Departure plan.fid) :
      Next run { run with
        disk := { run.disk with rows := run.disk.rows.depart key departure },
        departed := Function.update run.departed key (some departure) }

/-- The compaction is about to publish: the plan and the compacted file are written, and every
planned locator is at its old offset. -/
structure SwapRun.Start {plan : CompactionPlan} (run : SwapRun plan) : Prop where
  source : run.disk.source = some .original
  backup : run.disk.backup = none
  dest : run.disk.dest = some .compacted
  journal : run.disk.journal = false
  hasPlan : run.disk.plan = true
  marker : run.disk.marker = false
  settled : ∀ entry ∈ plan.pages.flatten,
    Settled run.disk.rows entry (entry.oldLocation plan.fid)
  program : run.program = publishCompactedSegment plan.pages
  marked : run.marked = false
  departed : ∀ key, run.departed key = none

/-- The end of a swap: the compacted segment with the new locators if the marker has been written,
else the original segment with the old ones, and nothing left over. -/
structure SwapRun.Atomic {plan : CompactionPlan} (run : SwapRun plan) : Prop where
  source : run.disk.source = some (if run.marked then .compacted else .original)
  backup : run.disk.backup = none
  journal : run.disk.journal = false
  noPlan : run.disk.plan = false
  marker : run.disk.marker = false
  stands : ∀ entry ∈ plan.pages.flatten, Stands run.departed run.disk.rows
    [if run.marked then entry.newLocation plan.fid else entry.oldLocation plan.fid] entry

/-- No cold entry returns to a place that a later one of the plan has taken. -/
def CompactionPlan.Reversible : Prop :=
  plan.pages.flatten.Pairwise fun entry other =>
    entry.cold = true → other.cold = true → entry.oldOffset ≠ other.newOffset

instance (plan : CompactionPlan) : Decidable plan.Reversible :=
  inferInstanceAs (Decidable (List.Pairwise _ _))

/-- Forward, a plan is always clear. -/
theorem CompactionPlan.clear_forward : plan.pages.flatten.Pairwise (Clear plan.fid .forward) := by
  have hall := (plan.keys_ne.and plan.ordered).imp_of_mem (S := Clear plan.fid .forward)
    fun {entry other} hentry _ hboth => ?_
  · exact hall
  · obtain ⟨hkeys, hold, hnew⟩ := hboth
    have hle := plan.newOffset_le entry hentry
    exact ⟨hkeys, fun _ _ => ⟨Nat.ne_of_lt hnew, Nat.ne_of_lt (hle.trans_lt hold)⟩⟩

theorem CompactionPlan.Reversible.clear {plan : CompactionPlan} (h : plan.Reversible) :
    plan.pages.flatten.Pairwise (Clear plan.fid .reverse) :=
  ((plan.keys_ne.and plan.ordered).and h).imp fun ⟨⟨hkeys, hold, _⟩, hfree⟩ =>
    ⟨hkeys, fun hentry hother => ⟨Nat.ne_of_lt hold, hfree hentry hother⟩⟩

end FerricStore.Store
