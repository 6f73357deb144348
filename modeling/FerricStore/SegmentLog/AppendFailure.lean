import FerricStore.Lib.Faults
import FerricStore.SegmentLog.Truncate

/-!
# Failed appends

An append writes one group of records after another. When a step fails it truncates what it has
written back to the old sizes, newest group first, and when a truncation fails too it leaves a marker.
Appends, truncations, trims, resets and opens look for the marker before they change anything, and
fail; a trim that is put off does not look. The two registry updates are the exception: when one of
them fails, the bytes of the last group, or of all groups, stay although the append returns an error.
-/

namespace FerricStore.SegmentLog

open Faults

/-- The steps of the directory's operations that can fail. -/
inductive AppendStep where
  | ensureDir
  | validateDir
  | statMarker
  | segmentConfig
  | acquire
  | write
  | sync
  | syncDir
  | writerRegistry
  | offsetRegistry
  | position
  | truncate
  | truncateSync
  | close
  | closeWriter
  | validate
  | openFile
  | writeMarker
  | renameMarker
  | syncMarker
  | closeWriters
  | prepareTrim
  | trimFloor
  | rewrite
  | recoverRewrite
  | clearOffsets
  | loadSegments
  deriving DecidableEq, Repr

/-- The errors of an operation. -/
inductive AppendError where
  | at (step : AppendStep)
  | previousGroup
  | rollbackFailed (original reason : AppendError)
  | markerFailed (reason markerReason : AppendError)
  | poisoned
  | nonMonotonicSegmentGroup (group : NonMonotonicSegmentGroup)
  deriving DecidableEq, Repr

/-- A directory and its append failure marker. -/
structure Store where
  disk : Disk
  marker : Bool

/-- A filesystem or registry step; those that change segment files say how. -/
inductive AppendOp where
  | acquire (ordinal : Nat)
  | write (ordinal : Nat) (bytes : Bytes)
  | truncate (ordinal size : Nat)
  | renameMarker
  | trim (recordsPerSegment index : Nat) (kept : Nat → Bool)
  | rewrite (recordsPerSegment : Nat) (record : Record)
  | load (d : Disk)
  | other (step : AppendStep)

namespace AppendOp

/-- The step for error reports. -/
def name : AppendOp → AppendStep
  | .acquire _ => .acquire
  | .write _ _ => .write
  | .truncate _ _ => .truncate
  | .renameMarker => .renameMarker
  | .trim _ _ _ => .trimFloor
  | .rewrite _ _ => .rewrite
  | .load _ => .loadSegments
  | .other step => step

/-- A step that is done. An acquired segment file exists. -/
def apply : AppendOp → Store → Store
  | .acquire ordinal, s => { s with disk := s.disk.extend ordinal [] }
  | .write ordinal bytes, s => { s with disk := s.disk.extend ordinal bytes }
  | .truncate ordinal size, s => { s with disk := s.disk.cut ordinal size }
  | .renameMarker, s => { s with marker := true }
  | .trim recordsPerSegment index kept, s =>
    { s with disk := s.disk.trim recordsPerSegment index kept }
  | .rewrite recordsPerSegment record, s =>
    { s with disk := writeRecords recordsPerSegment ⟨record.index, .empty⟩ [record] }
  | .load d, s => { s with disk := d }
  | .other _, s => s

/-- What a failed step leaves: a file that may have been created, or some of the bytes. Of a failed
rewrite or load only the marker is known. -/
def Fails : AppendOp → Store → Store → Prop
  | .acquire ordinal, s, s' => s' = s ∨ s' = { s with disk := s.disk.extend ordinal [] }
  | .write ordinal bytes, s, s' =>
    ∃ count, s' = { s with disk := s.disk.extend ordinal (bytes.take count) }
  | .rewrite _ _, s, s' | .load _, s, s' => s'.marker = s.marker
  | _, s, s' => s' = s

/-- Failures of the steps that may fail. -/
def FailsIn (mayFail : AppendStep → Prop) (op : AppendOp) (s s' : Store) : Prop :=
  op.Fails s s' ∧ mayFail op.name

end AppendOp

/-- A procedure of an append. -/
abbrev AppendProc (ρ : Type) := Proc AppendOp Store (Except AppendError ρ)

/-- A step as a procedure, with its error. -/
def run1 (op : AppendOp) : AppendProc Unit :=
  .step op fun ok => .done (if ok then .ok () else .error (.at op.name))

/-- Goes on after a success. -/
def andThen {ρ τ : Type} (first : AppendProc ρ) (second : ρ → AppendProc τ) : AppendProc τ :=
  first.bind fun
    | .ok value => second value
    | .error reason => .done (.error reason)

variable (ordinal oldSize : Nat)

/-- `rollback_append_fd` -/
def rollbackAppendFd : AppendProc Unit :=
  andThen (run1 (.other .position)) fun _ =>
    andThen (run1 (.truncate ordinal oldSize)) fun _ => run1 (.other .truncateSync)

variable (original : AppendError)

/-- The error after a rollback, by the results of the rollback and of the close after it. -/
def rollbackError : Except AppendError Unit → Except AppendError Unit → AppendError
  | .ok _, .ok _ => original
  | .error reason, _ => .rollbackFailed original reason
  | .ok _, .error reason => .rollbackFailed original reason

/-- `rollback_append_fd_and_close_writer` -/
def rollbackAppendFdAndCloseWriter : AppendProc Unit :=
  (rollbackAppendFd ordinal oldSize).bind fun rollback =>
    (run1 (.other .close)).bind fun close => .done (.error (rollbackError original rollback close))

/-- `rollback_append_path` -/
def rollbackAppendPath : AppendProc Unit :=
  (andThen (run1 (.other .closeWriter)) fun _ =>
    andThen (run1 (.other .validate)) fun _ => run1 (.other .openFile)).bind fun
      | .error reason => .done (.error (.rollbackFailed original reason))
      | .ok _ => rollbackAppendFdAndCloseWriter ordinal oldSize original

/-- `write_record_group_file_direct` -/
def writeRecordGroupFileDirect (bytes : Bytes) (newSegment : Bool) : AppendProc Unit :=
  (andThen (run1 (.write ordinal bytes)) fun _ => run1 (.other .sync)).bind fun
    | .error reason => rollbackAppendFdAndCloseWriter ordinal oldSize reason
    | .ok _ =>
      (if newSegment then run1 (.other .syncDir) else .done (.ok ())).bind fun
        | .error reason => rollbackAppendPath ordinal oldSize reason
        | .ok _ => run1 (.other .writerRegistry)

section

-- which segments have a cached writer; a segment is new when it has none and is empty
variable (cached : Nat → Bool)

/-- `open_record_group_once_file_direct`: the old size of the file of the group. -/
def openRecordGroupOnce (group : Group) : AppendProc Nat :=
  andThen (run1 (.acquire group.1)) fun _ =>
    .look fun s =>
      let oldSize := (s.disk.content group.1).length
      andThen (writeRecordGroupFileDirect group.1 oldSize group.bytes
        (!cached group.1 && oldSize == 0)) fun _ => .done (.ok oldSize)

/-- `rollback_written_groups` -/
def rollbackWrittenGroups : List (Nat × Nat) → AppendProc Unit
  | [] => .done (.ok ())
  | (ordinal, oldSize) :: rest =>
    (rollbackAppendPath ordinal oldSize .previousGroup).bind fun
      | .error .previousGroup => rollbackWrittenGroups rest
      | .error reason => .done (.error reason)
      | .ok _ => rollbackWrittenGroups rest

/-- `poison_segment_log` with `write_append_failure_marker`. -/
def poisonSegmentLog (reason : AppendError) : AppendProc Unit :=
  (andThen (run1 (.other .writeMarker)) fun _ =>
    andThen (run1 .renameMarker) fun _ => run1 (.other .syncMarker)).bind fun
      | .ok _ => .done (.error reason)
      | .error markerReason => .done (.error (.markerFailed reason markerReason))

/-- `maybe_poison_after_append_rollback_failure` -/
def maybePoison : AppendError → AppendProc Unit
  | .rollbackFailed original reason => poisonSegmentLog (.rollbackFailed original reason)
  | reason => .done (.error reason)

/-- `write_record_group_list` -/
def writeRecordGroupList : List Group → List (Nat × Nat) → AppendProc Unit
  | [], _ => run1 (.other .offsetRegistry)
  | group :: rest, rollbacks =>
    (openRecordGroupOnce cached group).bind fun
      | .ok oldSize => writeRecordGroupList rest ((group.1, oldSize) :: rollbacks)
      | .error reason =>
        (rollbackWrittenGroups rollbacks).bind fun
          | .ok _ => maybePoison reason
          | .error rollback => poisonSegmentLog (.rollbackFailed reason rollback)

/-- `check_append_failure_marker`, and what an operation does when there is none. -/
def checkAppendFailureMarker {ρ : Type} (next : AppendProc ρ) : AppendProc ρ :=
  andThen (run1 (.other .statMarker)) fun _ =>
    .look fun s => if s.marker then .done (.error .poisoned) else next

/-- `write_records` -/
def writeRecordsChecked (recordsPerSegment : Nat) (batch : List Record) : AppendProc Unit :=
  if batch = [] then .done (.ok ())
  else
    andThen (run1 (.other .ensureDir)) fun _ =>
      checkAppendFailureMarker (andThen (run1 (.other .segmentConfig)) fun _ =>
        match groupRecords recordsPerSegment batch with
        | .ok groups => writeRecordGroupList cached groups []
        | .error group => .done (.error (.nonMonotonicSegmentGroup group)))

end

/-! ## The other operations of the directory -/

section Calls

variable (recordsPerSegment : Nat)

/-- `truncate_segment_paths_from` -/
def truncatePaths : List (Nat × Nat) → AppendProc Unit
  | [] => .done (.ok ())
  | (ordinal, size) :: rest => andThen (run1 (.truncate ordinal size)) fun _ => truncatePaths rest

/-- `truncate`; no index stands for the end of the table. -/
def truncateLog : Option Nat → AppendProc Unit
  | none => .done (.ok ())
  | some index =>
    checkAppendFailureMarker (andThen (run1 (.other .closeWriters)) fun _ =>
      .look fun s => truncatePaths (s.disk.truncateStepsFrom recordsPerSegment index))

/-- What `prepare_segment_projection_for_trim` answers. -/
inductive TrimPreparation where
  | ok
  | deferred
  | trimmedTo (adopted : Nat)
  | error
  deriving DecidableEq

/-- `trim_to`. Files that could not be deleted are no error. -/
def trimTo (kept : Nat → Bool) (index : Nat) : AppendProc Unit :=
  checkAppendFailureMarker (run1 (.trim recordsPerSegment index kept))

/-- `trim`; a retry that is not due and a deferred trim leave the log as it is. -/
def trimLog (kept : Nat → Bool) (index : Nat) (retryDue : Bool) (preparation : TrimPreparation) :
    AppendProc Unit :=
  if retryDue = false then .done (.ok ())
  else
    match preparation with
    | .deferred => .done (.ok ())
    | .ok => trimTo recordsPerSegment kept index
    | .trimmedTo adopted => trimTo recordsPerSegment kept adopted
    | .error => .done (.error (.at .prepareTrim))

/-- `reset` -/
def resetLog (record : Record) : AppendProc Unit :=
  checkAppendFailureMarker (andThen (run1 (.other .closeWriters)) fun _ =>
    run1 (.rewrite recordsPerSegment record))

/-- `load_segments_bounded` and `delete_segments_below_floor` -/
def loadSegments (kept : Nat → Bool) : AppendProc Unit :=
  .look fun s =>
    match openAndDelete recordsPerSegment s.disk kept with
    | .ok (_, d) => run1 (.load d)
    | .error _ => .done (.error (.at .loadSegments))

/-- The steps of `open` behind the check. -/
def openSteps : List AppendStep :=
  [.recoverRewrite, .ensureDir, .validateDir, .segmentConfig, .trimFloor, .clearOffsets]

/-- `open` -/
def openDir (kept : Nat → Bool) : AppendProc Unit :=
  andThen (run1 (.other .ensureDir)) fun _ =>
    andThen (run1 (.other .validateDir)) fun _ =>
      checkAppendFailureMarker (openSteps.foldr
        (fun step rest => andThen (run1 (.other step)) fun _ => rest)
        (loadSegments recordsPerSegment kept))

/-- A call of an operation of the directory. -/
inductive DirCall where
  | append (cached : Nat → Bool) (batch : List Record)
  | truncate (index : Option Nat)
  | trim (kept : Nat → Bool) (index : Nat) (retryDue : Bool) (preparation : TrimPreparation)
  | reset (record : Record)
  | openDir (kept : Nat → Bool)

/-- What a call does. -/
def DirCall.proc : DirCall → AppendProc Unit
  | .append cached batch => writeRecordsChecked cached recordsPerSegment batch
  | .truncate index => truncateLog recordsPerSegment index
  | .trim kept index retryDue preparation =>
    trimLog recordsPerSegment kept index retryDue preparation
  | .reset record => resetLog recordsPerSegment record
  | .openDir kept => SegmentLog.openDir recordsPerSegment kept

/-- The calls that have something to do: an append of records, a truncation at an index, and a trim
that is due and not deferred. -/
def DirCall.Acts : DirCall → Prop
  | .append _ batch => batch ≠ []
  | .truncate index => index ≠ none
  | .trim _ _ retryDue preparation => retryDue = true ∧ preparation ≠ .deferred
  | .reset _ | .openDir _ => True

end Calls

/-- The segment files have the same bytes. -/
def SameBytes (s s' : Store) : Prop := ∀ ordinal, s'.disk.content ordinal = s.disk.content ordinal

/-- The error says that a rollback failed. -/
def AppendError.IsRollbackFailed : AppendError → Prop
  | .rollbackFailed _ _ => True
  | _ => False

/-- A rollback ends with an error: the rollback failed, or it is the original one and the file is
cut. -/
def RolledBack (s : Store) (result : Except AppendError Unit) (s' : Store) : Prop :=
  s'.marker = s.marker ∧ ∃ reason, result = .error reason ∧ (reason.IsRollbackFailed ∨
    reason = original ∧ s'.disk = s.disk.cut ordinal oldSize)

/-- A group has been written, or its write failed: then the rollback failed or the bytes are the old
ones. -/
def WroteGroup (ordinal : Nat) (bytes : Bytes) (s : Store) (result : Except AppendError Unit)
    (s' : Store) : Prop :=
  s'.marker = s.marker ∧ (result = .ok () → s'.disk = s.disk.extend ordinal bytes) ∧
    ∀ reason, result = .error reason → reason.IsRollbackFailed ∨ SameBytes s s'

/-! ## What each procedure leaves -/

open AppendOp

/-- Bytes that were appended are cut again. -/
theorem Disk.content_cut_extend (d : Disk) (ordinal : Nat) (bytes : Bytes) (other : Nat) :
    ((d.extend ordinal bytes).cut ordinal (d.content ordinal).length).content other =
      d.content other := by
  rw [Disk.content_cut, Disk.content_extend, if_pos rfl, List.take_left, Disk.content_extend]
  split
  case isTrue heq => rw [heq]
  case isFalse => exact List.append_nil _

/-- Cuts depend on the bytes only. -/
theorem Disk.content_runCuts_congr {d d' : Disk}
    (h : ∀ ordinal, d'.content ordinal = d.content ordinal) (steps : List (Nat × Nat))
    (ordinal : Nat) : (d'.runCuts steps).content ordinal = (d.runCuts steps).content ordinal := by
  induction steps generalizing d d' with
  | nil => exact h ordinal
  | cons step steps ih =>
    refine ih fun other => ?_
    rw [Disk.content_cut, Disk.content_cut, h, h]

section Specs

variable {fails : AppendOp → Store → Store → Prop}
  (hfails : ∀ op s s', fails op s s' → op.Fails s s')
include hfails

theorem run1_other_ends (step : AppendStep) (s : Store) :
    EndsAny apply fails (fun _ s' => s' = s) (run1 (.other step)) s := by
  refine endsAny_step.mpr ⟨endsAny_done.mpr rfl, fun failed h => endsAny_done.mpr ?_⟩
  exact hfails _ _ _ h

/-- A rollback that succeeds has cut the file; none touches the marker. -/
theorem rollbackAppendFd_ends (ordinal oldSize : Nat) (s : Store) :
    EndsAny apply fails (fun result s' => s'.marker = s.marker ∧
      (result = .ok () → s'.disk = s.disk.cut ordinal oldSize))
      (rollbackAppendFd ordinal oldSize) s := by
  simp only [rollbackAppendFd, andThen, run1, Proc.bind, endsAny_step, endsAny_done,
    apply, if_true, Bool.false_eq_true, if_false]
  refine ⟨⟨⟨by simp, fun failed h => ?_⟩, fun failed h => ?_⟩, fun failed h => ?_⟩ <;>
    obtain rfl : failed = _ := hfails _ _ _ h <;> simp

theorem rollbackAppendFdAndCloseWriter_ends (ordinal oldSize : Nat) (original : AppendError)
    (s : Store) :
    EndsAny apply fails (RolledBack ordinal oldSize original s)
      (rollbackAppendFdAndCloseWriter ordinal oldSize original) s := by
  refine ((rollbackAppendFd_ends hfails ordinal oldSize s).mono ?_).bind
  rintro rollback s' ⟨hmarker, hcut⟩
  refine ((run1_other_ends hfails .close s').mono ?_).bind
  rintro close s'' rfl
  refine endsAny_done.mpr ⟨hmarker, _, rfl, ?_⟩
  cases rollback with
  | error reason => exact .inl trivial
  | ok value =>
    cases close with
    | error reason => exact .inl trivial
    | ok value => exact .inr ⟨rfl, hcut rfl⟩

/-- The same for a rollback that opens the file again. -/
theorem rollbackAppendPath_ends (ordinal oldSize : Nat) (original : AppendError) (s : Store) :
    EndsAny apply fails (RolledBack ordinal oldSize original s)
      (rollbackAppendPath ordinal oldSize original) s := by
  have hsteps : EndsAny apply fails (fun _ s' => s' = s)
      (andThen (run1 (.other .closeWriter)) fun _ =>
        andThen (run1 (.other .validate)) fun _ => run1 (.other .openFile)) s := by
    simp only [andThen, run1, Proc.bind, endsAny_step, endsAny_done, apply, if_true,
      Bool.false_eq_true, if_false]
    refine ⟨⟨⟨by simp, fun failed h => ?_⟩, fun failed h => ?_⟩, fun failed h => ?_⟩ <;>
      exact hfails _ _ _ h
  refine (hsteps.mono ?_).bind
  rintro result s' rfl
  cases result with
  | error reason => exact endsAny_done.mpr ⟨rfl, _, rfl, .inl trivial⟩
  | ok value => exact rollbackAppendFdAndCloseWriter_ends hfails ordinal oldSize original s'

/-- Writing a group, unless the writer registry fails. -/
theorem writeRecordGroupFileDirect_ends
    (hregistry : ∀ s s', ¬ fails (.other .writerRegistry) s s') (ordinal : Nat) (bytes : Bytes)
    (newSegment : Bool) (s : Store) :
    EndsAny apply fails (WroteGroup ordinal bytes s)
      (writeRecordGroupFileDirect ordinal (s.disk.content ordinal).length bytes newSegment) s := by
  -- the bytes that were written, all of them when the write and its sync succeeded
  have hwrite : EndsAny apply fails (fun result s' => ∃ written,
      s' = { s with disk := s.disk.extend ordinal written } ∧ (result = .ok () → written = bytes))
      (andThen (run1 (.write ordinal bytes)) fun _ => run1 (.other .sync)) s := by
    simp only [andThen, run1, Proc.bind, endsAny_step, endsAny_done, apply, if_true,
      Bool.false_eq_true, if_false]
    refine ⟨⟨⟨bytes, rfl, fun _ => rfl⟩, fun failed h => ?_⟩, fun failed h => ?_⟩
    · exact ⟨bytes, hfails _ _ _ h, by simp⟩
    · obtain ⟨count, rfl⟩ := hfails _ _ _ h
      exact ⟨bytes.take count, rfl, by simp⟩
  have hrolled : ∀ written (proc : AppendProc Unit) (original : AppendError),
      EndsAny apply fails (RolledBack ordinal (s.disk.content ordinal).length original
        { s with disk := s.disk.extend ordinal written })
        proc { s with disk := s.disk.extend ordinal written } →
      EndsAny apply fails (WroteGroup ordinal bytes s)
        proc { s with disk := s.disk.extend ordinal written } := by
    refine fun written proc original h => h.mono ?_
    rintro result s' ⟨hmarker, reason, rfl, hreason⟩
    refine ⟨hmarker, by simp, fun reason' heq => ?_⟩
    obtain rfl : reason = reason' := Except.error.inj heq
    refine hreason.imp_right fun h other => ?_
    rw [h.2, Disk.content_cut_extend]
  refine (hwrite.mono ?_).bind
  rintro result s' ⟨written, rfl, hwritten⟩
  cases result with
  | error reason =>
    exact hrolled written _ reason (rollbackAppendFdAndCloseWriter_ends hfails _ _ _ _)
  | ok value =>
    obtain rfl : written = bytes := hwritten rfl
    have hsync : EndsAny apply fails
        (fun _ s' => s' = { s with disk := s.disk.extend ordinal written })
        (if newSegment then run1 (.other .syncDir) else .done (.ok ()))
        { s with disk := s.disk.extend ordinal written } := by
      split
      · exact run1_other_ends hfails _ _
      · exact endsAny_done.mpr rfl
    refine (hsync.mono ?_).bind
    rintro result s' rfl
    cases result with
    | error reason =>
      exact hrolled written _ reason (rollbackAppendPath_ends hfails _ _ _ _)
    | ok value =>
      refine endsAny_step.mpr ⟨endsAny_done.mpr ⟨rfl, fun _ => rfl, by simp⟩, ?_⟩
      exact fun failed h => absurd h (hregistry _ _)

/-- The same for a group and its file, which is created first. -/
theorem openRecordGroupOnce_ends (hregistry : ∀ s s', ¬ fails (.other .writerRegistry) s s')
    (cached : Nat → Bool) (group : Group) (s : Store) :
    EndsAny apply fails (fun result s' => s'.marker = s.marker ∧
      (∀ size, result = .ok size → size = (s.disk.content group.1).length ∧
        ∀ other, s'.disk.content other = (s.disk.extend group.1 group.bytes).content other) ∧
      ∀ reason, result = .error reason → reason.IsRollbackFailed ∨ SameBytes s s')
      (openRecordGroupOnce cached group) s := by
  have hempty : ∀ other, (s.disk.extend group.1 []).content other = s.disk.content other := by
    intro other
    rw [Disk.content_extend]
    split <;> exact List.append_nil _
  rw [openRecordGroupOnce, andThen, run1]
  simp only [Proc.bind, endsAny_step, endsAny_done, apply, if_true, Bool.false_eq_true,
    if_false, endsAny_look]
  refine ⟨?_, fun failed h => ?_⟩
  · refine ((writeRecordGroupFileDirect_ends hfails hregistry group.1 group.bytes _
      { s with disk := s.disk.extend group.1 [] }).mono ?_).bind
    rintro result s' ⟨hmarker, hok, herror⟩
    cases result with
    | ok value =>
      refine endsAny_done.mpr ⟨hmarker, fun size hsize => ?_, by simp⟩
      cases hsize
      refine ⟨by rw [hempty], fun other => ?_⟩
      rw [hok rfl, Disk.extend_extend, List.nil_append]
    | error reason =>
      refine endsAny_done.mpr ⟨hmarker, by simp, fun reason' h => ?_⟩
      cases h
      refine (herror reason rfl).imp_right fun hsame other => ?_
      rw [hsame other]
      exact hempty other
  · refine ⟨?_, by simp, fun reason hreason => .inr ?_⟩
    · rcases hfails _ _ _ h with rfl | rfl <;> rfl
    · rcases hfails _ _ _ h with rfl | rfl
      · exact fun _ => rfl
      · exact hempty

/-- The rollback of the written groups cuts them all, or returns an error. -/
theorem rollbackWrittenGroups_ends (rollbacks : List (Nat × Nat)) (s : Store) :
    EndsAny apply fails (fun result s' => s'.marker = s.marker ∧
      (result = .ok () → s'.disk = s.disk.runCuts rollbacks))
      (rollbackWrittenGroups rollbacks) s := by
  induction rollbacks generalizing s with
  | nil => exact endsAny_done.mpr ⟨rfl, fun _ => rfl⟩
  | cons rollback rollbacks ih =>
    obtain ⟨ordinal, oldSize⟩ := rollback
    refine ((rollbackAppendPath_ends hfails ordinal oldSize .previousGroup s).mono ?_).bind
    rintro result s' ⟨hmarker, reason, rfl, hreason⟩
    rcases hreason with hfailed | ⟨rfl, hcut⟩
    · cases reason with
      | rollbackFailed original reason =>
        exact endsAny_done.mpr ⟨hmarker, nofun⟩
      | _ => exact hfailed.elim
    · refine (ih s').mono ?_
      rintro result s'' ⟨hmarker', hok⟩
      refine ⟨hmarker'.trans hmarker, fun h => ?_⟩
      rw [hok h, hcut]
      rfl

omit hfails in
/-- Poisoning leaves the marker, or reports that it could not be written. -/
theorem poisonSegmentLog_ends (reason : AppendError) (s : Store) :
    EndsAny apply fails (fun result s' => ∃ error, result = .error error ∧
      (s'.marker = true ∨ ∃ marker, error = .markerFailed reason marker))
      (poisonSegmentLog reason) s := by
  simp only [poisonSegmentLog, andThen, run1, Proc.bind, endsAny_step, endsAny_done,
    apply, if_true, Bool.false_eq_true, if_false]
  exact ⟨⟨⟨⟨_, rfl, .inl trivial⟩, fun _ _ => ⟨_, rfl, .inr ⟨_, rfl⟩⟩⟩,
    fun _ _ => ⟨_, rfl, .inr ⟨_, rfl⟩⟩⟩, fun _ _ => ⟨_, rfl, .inr ⟨_, rfl⟩⟩⟩

/-- An append of groups that returns an error has left the bytes that were there at the start, the
marker, or an error that says that the marker could not be written. -/
theorem writeRecordGroupList_ends (hregistry : ∀ s s', ¬ fails (.other .writerRegistry) s s')
    (hoffset : ∀ s s', ¬ fails (.other .offsetRegistry) s s') (cached : Nat → Bool)
    (start : Store) (groups : List Group) (rollbacks : List (Nat × Nat)) (s : Store)
    (hrollbacks : ∀ ordinal, (s.disk.runCuts rollbacks).content ordinal =
      start.disk.content ordinal) :
    EndsAny apply fails (fun result s' => ∀ error, result = .error error →
      SameBytes start s' ∨ s'.marker = true ∨ ∃ reason marker, error = .markerFailed reason marker)
      (writeRecordGroupList cached groups rollbacks) s := by
  induction groups generalizing rollbacks s with
  | nil =>
    refine endsAny_step.mpr ⟨endsAny_done.mpr nofun, fun failed h => ?_⟩
    exact absurd h (hoffset _ _)
  | cons group groups ih =>
    refine ((openRecordGroupOnce_ends hfails hregistry cached group s).mono ?_).bind
    rintro result s' ⟨hmarker, hok, herror⟩
    cases result with
    | ok size =>
      obtain ⟨rfl, hcontent⟩ := hok size rfl
      refine ih _ s' fun ordinal => ?_
      rw [← hrollbacks ordinal]
      refine Disk.content_runCuts_congr (fun other => ?_) rollbacks ordinal
      rw [Disk.content_cut]
      split
      case isTrue heq =>
        rw [hcontent, Disk.content_extend, if_pos rfl, List.take_left, heq]
      case isFalse hne => rw [hcontent, Disk.content_extend, if_neg hne, List.append_nil]
    | error reason =>
      refine ((rollbackWrittenGroups_ends hfails rollbacks s').mono ?_).bind
      rintro result s'' ⟨hmarker', hcut⟩
      have hpoison : ∀ reason, EndsAny apply fails (fun result s' => ∀ error,
          result = .error error → SameBytes start s' ∨ s'.marker = true ∨
            ∃ reason marker, error = .markerFailed reason marker)
          (poisonSegmentLog reason) s'' := by
        refine fun reason => (poisonSegmentLog_ends reason s'').mono ?_
        rintro result s' ⟨error, rfl, h⟩ error' heq
        cases heq
        exact .inr (h.imp_right fun ⟨marker, h⟩ => ⟨reason, marker, h⟩)
      cases result with
      | error rollback => exact hpoison _
      | ok value =>
        -- either the group's own rollback failed, or every byte is an old one
        rcases herror reason rfl with hfailed | hsame
        · cases reason with
          | rollbackFailed original reason => exact hpoison _
          | _ => exact hfailed.elim
        · have hbytes : SameBytes start s'' := fun ordinal => by
            rw [hcut rfl, ← hrollbacks ordinal]
            exact Disk.content_runCuts_congr hsame rollbacks ordinal
          cases reason with
          | rollbackFailed original reason => exact hpoison _
          | _ => exact endsAny_done.mpr fun _ _ => .inl hbytes

end Specs

/-! ## A poisoned directory -/

/-- The operation fails and leaves the directory as it is. -/
def Refused (s : Store) (result : Except AppendError Unit) (s' : Store) : Prop :=
  (∃ error, result = .error error) ∧ s' = s

/-- A step without an effect, before something that is refused. -/
theorem andThen_refused (step : AppendStep) {next : Unit → AppendProc Unit} {s : Store}
    (h : EndsAny apply Fails (Refused s) (next ()) s) :
    EndsAny apply Fails (Refused s) (andThen (run1 (.other step)) next) s := by
  refine ((run1_other_ends (fun _ _ _ h => h) step s).mono ?_).bind
  rintro result s' rfl
  cases result with
  | ok value => exact h
  | error reason => exact endsAny_done.mpr ⟨⟨reason, rfl⟩, rfl⟩

theorem check_refused (next : AppendProc Unit) {s : Store} (hmarker : s.marker = true) :
    EndsAny apply Fails (Refused s) (checkAppendFailureMarker next) s := by
  refine andThen_refused .statMarker (endsAny_look.mpr ?_)
  rw [if_pos hmarker]
  exact endsAny_done.mpr ⟨⟨_, rfl⟩, rfl⟩

/-- On a directory with a marker every call that has something to do fails and changes nothing. -/
theorem DirCall.refused {recordsPerSegment : Nat} {call : DirCall} (hacts : call.Acts) {s : Store}
    (hmarker : s.marker = true) :
    EndsAny apply Fails (Refused s) (call.proc recordsPerSegment) s := by
  cases call with
  | append cached batch =>
    rw [DirCall.proc, writeRecordsChecked, if_neg hacts]
    exact andThen_refused .ensureDir (check_refused _ hmarker)
  | truncate index =>
    cases index with
    | none => exact absurd rfl hacts
    | some index => exact check_refused _ hmarker
  | trim kept index retryDue preparation =>
    obtain ⟨rfl, hdeferred⟩ := hacts
    cases preparation with
    | deferred => exact absurd rfl hdeferred
    | ok => exact check_refused _ hmarker
    | trimmedTo adopted => exact check_refused _ hmarker
    | error => exact endsAny_done.mpr ⟨⟨_, rfl⟩, rfl⟩
  | reset record => exact check_refused _ hmarker
  | openDir kept =>
    exact andThen_refused .ensureDir (andThen_refused .validateDir (check_refused _ hmarker))

/-- A call that has nothing to do returns ok, marker or not. -/
theorem DirCall.idle {recordsPerSegment : Nat} {call : DirCall} (hidle : ¬ call.Acts) (s : Store) :
    EndsAny apply Fails (fun result s' => result = .ok () ∧ s' = s)
      (call.proc recordsPerSegment) s := by
  cases call with
  | append cached batch =>
    rw [DirCall.proc, writeRecordsChecked, if_pos (not_not.mp hidle)]
    exact endsAny_done.mpr ⟨rfl, rfl⟩
  | truncate index =>
    obtain rfl : index = none := not_not.mp hidle
    exact endsAny_done.mpr ⟨rfl, rfl⟩
  | trim kept index retryDue preparation =>
    cases retryDue with
    | false => exact endsAny_done.mpr ⟨rfl, rfl⟩
    | true =>
      obtain rfl : preparation = .deferred := by
        by_contra hne
        exact hidle ⟨rfl, hne⟩
      exact endsAny_done.mpr ⟨rfl, rfl⟩
  | reset record | openDir kept => exact absurd trivial hidle

/-! ## Failed appends -/

/-- What a failed append leaves: the old bytes, or a marker on which exactly the calls that have
something to do fail, or an error that says that the marker could not be written. -/
def CleanOrPoisoned (recordsPerSegment : Nat) (s : Store) (error : AppendError) (s' : Store) : Prop :=
  SameBytes s s' ∨
    (s'.marker = true ∧ ∀ call : DirCall,
      (call.Acts → EndsAny apply Fails (Refused s') (call.proc recordsPerSegment) s') ∧
      (¬ call.Acts → EndsAny apply Fails (fun result s'' => result = .ok () ∧ s'' = s')
        (call.proc recordsPerSegment) s')) ∨
    ∃ reason marker, error = .markerFailed reason marker

theorem writeRecordsChecked_ends {mayFail : AppendStep → Prop} (hwriter : ¬ mayFail .writerRegistry)
    (hoffset : ¬ mayFail .offsetRegistry) (cached : Nat → Bool) (recordsPerSegment : Nat)
    (batch : List Record) (s : Store) :
    EndsAny apply (FailsIn mayFail) (fun result s' => ∀ error,
      result = .error error → SameBytes s s' ∨ s'.marker = true ∨
        ∃ reason marker, error = .markerFailed reason marker)
      (writeRecordsChecked cached recordsPerSegment batch) s := by
  have hfails : ∀ op s s', FailsIn mayFail op s s' → op.Fails s s' := fun _ _ _ h => h.1
  have hstep : ∀ (step : AppendStep) (next : Unit → AppendProc Unit),
      EndsAny apply (FailsIn mayFail) (fun result s' => ∀ error,
        result = .error error → SameBytes s s' ∨ s'.marker = true ∨
          ∃ reason marker, error = .markerFailed reason marker) (next ()) s →
      EndsAny apply (FailsIn mayFail) (fun result s' => ∀ error,
        result = .error error → SameBytes s s' ∨ s'.marker = true ∨
          ∃ reason marker, error = .markerFailed reason marker)
        (andThen (run1 (.other step)) next) s := by
    refine fun step next h => ((run1_other_ends hfails step s).mono ?_).bind
    rintro result s' rfl
    cases result with
    | ok value => exact h
    | error reason => exact endsAny_done.mpr fun _ _ => .inl fun _ => rfl
  rw [writeRecordsChecked]
  split
  · exact endsAny_done.mpr nofun
  · refine hstep _ _ (hstep _ _ (endsAny_look.mpr ?_))
    split
    · exact endsAny_done.mpr fun _ _ => .inl fun _ => rfl
    · refine hstep _ _ ?_
      split
      · exact writeRecordGroupList_ends hfails (fun _ _ h => hwriter h.2) (fun _ _ h => hoffset h.2)
          cached s _ [] s fun _ => rfl
      · exact endsAny_done.mpr fun _ _ => .inl fun _ => rfl

/-- An empty directory. -/
def emptyStore : Store := ⟨⟨0, .empty⟩, false⟩

/-- A failed registry update at the end of an append of one record: the append returns an error, the
record stays and the log is not poisoned. -/
theorem registry_failure_leaves_record {mayFail : AppendStep → Prop} {step : AppendStep}
    (hstep : step = .writerRegistry ∨ step = .offsetRegistry) (hfails : mayFail step) :
    ∃ s' : Store, Returns apply (FailsIn mayFail) 1
        (writeRecordsChecked (fun _ => false) 1 [⟨0, []⟩]) emptyStore (.error (.at step)) s' ∧
      s'.marker = false ∧ s'.disk.content 0 = encodeRecord ⟨0, []⟩ := by
  refine ⟨⟨((⟨0, .empty⟩ : Disk).extend 0 []).extend 0 (encodeRecord ⟨0, []⟩ ++ []), false⟩,
    .step (.step (.look (.step (.step (.look (.step (.step (.step ?_)))))))), rfl,
    List.append_nil _⟩
  rcases hstep with rfl | rfl
  · exact .fail ⟨rfl, hfails⟩ (.done _ _)
  · exact .step (.fail ⟨rfl, hfails⟩ (.done _ _))

/-- Failed appends leave no trace or poison the log, whatever the batch, the directory and the number
of failing steps, if and only if neither the update of the writer registry nor that of the offset
registry may fail. -/
theorem failed_append_clean_or_poisoned (mayFail : AppendStep → Prop) :
    (∀ (cached : Nat → Bool) (recordsPerSegment : Nat) (batch : List Record) (s s' : Store) (n : Nat)
        (error : AppendError), Returns AppendOp.apply (AppendOp.FailsIn mayFail) n
          (writeRecordsChecked cached recordsPerSegment batch) s (.error error) s' →
        CleanOrPoisoned recordsPerSegment s error s') ↔
      ¬ mayFail .writerRegistry ∧ ¬ mayFail .offsetRegistry := by
  constructor
  · -- one failed update after the record of an append is written breaks it
    intro h
    have hbreaks : ∀ step, step = .writerRegistry ∨ step = .offsetRegistry → ¬ mayFail step := by
      intro step hstep hfails
      obtain ⟨s', hreturns, hmarker, hbytes⟩ := registry_failure_leaves_record hstep hfails
      rcases h _ _ _ _ _ _ _ hreturns with hsame | ⟨hmarked, -⟩ | ⟨_, _, herror⟩
      · have hlength := congrArg List.length (hbytes.symm.trans (hsame 0))
        rw [length_encodeRecord] at hlength
        exact absurd hlength (by simp [emptyStore, Disk.content, SortedMap.get, SortedMap.empty,
          Entries.get, recordHeaderSize])
      · rw [hmarker] at hmarked
        cases hmarked
      · cases herror
    exact ⟨hbreaks _ (.inl rfl), hbreaks _ (.inr rfl)⟩
  · rintro ⟨hwriter, hoffset⟩ cached recordsPerSegment batch s s' n error hreturns
    have hends := writeRecordsChecked_ends hwriter hoffset cached recordsPerSegment batch s
    refine (hends n _ s' hreturns error rfl).imp_right fun h => h.imp_left fun hmarker => ?_
    exact ⟨hmarker, fun call => ⟨fun hacts => call.refused hacts hmarker, fun h => call.idle h s'⟩⟩

/-- Three bytes of a record and a marker. -/
def poisonedStore : Store :=
  ⟨((⟨0, .empty⟩ : Disk).extend 0 []).extend 0 ((encodeRecord ⟨0, []⟩ ++ []).take 3), true⟩

/-- A write that stops after three bytes, and a rollback whose truncation fails: the bytes stay, the
marker is written, and a reset fails then. -/
theorem failed_append_clean_or_poisoned_write :
    (poisonedStore.disk.content 0).length = 3 ∧
      EndsAny AppendOp.apply AppendOp.Fails (Refused poisonedStore) (resetLog 1 ⟨5, []⟩)
        poisonedStore := by
  have hreturns : Returns apply (AppendOp.FailsIn fun step => step = .write ∨ step = .truncate) 2
      (writeRecordsChecked (fun _ => false) 1 [⟨0, []⟩]) emptyStore
      (.error (.rollbackFailed (.at .write) (.at .truncate))) poisonedStore :=
    .step (.step (.look (.step (.step (.look (.fail ⟨⟨3, rfl⟩, .inl rfl⟩
      (.step (.fail ⟨rfl, .inr rfl⟩ (.step (.step (.step (.step (.done _ _)))))))))))))
  have hlength : (poisonedStore.disk.content 0).length = 3 := by decide +kernel
  refine ⟨hlength, ?_⟩
  rcases (failed_append_clean_or_poisoned fun step => step = .write ∨ step = .truncate).mpr
    ⟨by decide, by decide⟩ _ _ _ _ _ _ _ hreturns with hsame | ⟨-, hcalls⟩ | ⟨_, _, herror⟩
  · exact absurd (congrArg List.length (hsame 0)) (by rw [hlength]; decide)
  · exact (hcalls (.reset ⟨5, []⟩)).1 trivial
  · cases herror

/-- The update of the offset registry fails after the records are on disk: the append returns an
error, the records stay and the log is not poisoned. -/
theorem failed_append_leaves_records : ∃ s' : Store, Returns AppendOp.apply AppendOp.Fails 1
      (writeRecordsChecked (fun _ => false) 1 [⟨0, []⟩]) emptyStore
        (.error (.at .offsetRegistry)) s' ∧
      s'.marker = false ∧ s'.disk.content 0 = encodeRecord ⟨0, []⟩ := by
  refine ⟨⟨((⟨0, .empty⟩ : Disk).extend 0 []).extend 0 (encodeRecord ⟨0, []⟩ ++ []), false⟩,
    .step (.step (.look (.step (.step (.look (.step (.step (.step (.step (.fail rfl
      (.done _ _))))))))))), rfl, ?_⟩
  exact List.append_nil _

end FerricStore.SegmentLog
