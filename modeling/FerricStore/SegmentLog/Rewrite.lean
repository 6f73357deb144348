import FerricStore.Lib.Faults

/-!
# Rewriting a segment directory

A rewrite builds the new records in a staging directory, writes a marker, moves the live directory
to a backup and the staging directory to its place, and then deletes the marker and the backup. What
an interrupted rewrite left is repaired from the presence of the marker and of the three directories
alone. A directory is the list of its records, or missing; the staging and backup paths of a rewrite
are fresh, and only its own marker can exist.
-/

namespace FerricStore.SegmentLog

open Faults

variable {α : Type}

/-- The directories of a rewrite. -/
inductive Tree where
  | live
  | backup
  | staging
  deriving DecidableEq, Repr

/-- What is on disk: the records of each directory that exists, and the rewrite marker. -/
structure Dirs (α : Type) where
  live : Option (List α)
  backup : Option (List α)
  staging : Option (List α)
  marker : Bool
  deriving DecidableEq, Repr

namespace Dirs

def get (s : Dirs α) : Tree → Option (List α)
  | .live => s.live
  | .backup => s.backup
  | .staging => s.staging

def set (s : Dirs α) (records : Option (List α)) : Tree → Dirs α
  | .live => { s with live := records }
  | .backup => { s with backup := records }
  | .staging => { s with staging := records }

/-- Before a rewrite: the old directory or none. -/
def before (old : Option (List α)) : Dirs α := ⟨old, none, none, false⟩

/-- `path_exists`. -/
def pathExists (tree : Tree) (s : Dirs α) : Bool := (s.get tree).isSome

/-- The records that the directory holds. -/
def records (s : Dirs α) : List α := s.live.getD []

end Dirs

/-- The filesystem steps. `build` writes the configuration and the records of a new staging
directory; `rebuild` is the offset registry, which changes no directory. -/
inductive FileOp (α : Type) where
  | remove (tree : Tree)
  | build (records : List α)
  | rename (source target : Tree)
  | writeTemporary
  | renameMarker
  | deleteMarker
  | syncParent
  | ensureLive
  | rebuild

namespace FileOp

/-- A step that is done. -/
def apply : FileOp α → Dirs α → Dirs α
  | .remove tree, s => s.set none tree
  | .build records, s => s.set (some records) .staging
  | .rename source target, s => (s.set (s.get source) target).set none source
  | .renameMarker, s => { s with marker := true }
  | .deleteMarker, s => { s with marker := false }
  | .ensureLive, s => s.set (some []) .live
  | .writeTemporary, s | .syncParent, s | .rebuild, s => s

/-- What a recursive removal that did not finish leaves of a directory. -/
def PartOf : Option (List α) → Option (List α) → Prop
  | _, none => True
  | none, some _ => False
  | some records, some left => left.Sublist records

/-- What a step leaves that is killed in its middle or returns an error. -/
def Leaves : FileOp α → Dirs α → Dirs α → Prop
  | .remove tree, s, s' => ∃ left, PartOf (s.get tree) left ∧ s' = s.set left tree
  | .build _, s, s' => ∃ left, s' = s.set left .staging
  | _, s, s' => s' = s

/-- An error of the removal of the backup leaves the whole of it, or nothing. -/
def LeavesWhole (op : FileOp α) (s s' : Dirs α) : Prop :=
  op.Leaves s s' ∧ (op = .remove .backup → s' = s ∨ s'.backup = none)

end FileOp

/-- A procedure over the filesystem steps. -/
abbrev FileProc (α : Type) := Proc (FileOp α) (Dirs α) Bool

def cleanupRewriteMarker : FileProc α :=
  (Proc.op (.remove .staging)).bind fun _ =>
    (Proc.op .deleteMarker).andThen (.op .syncParent)

def recoverWithoutBackup : FileProc α :=
  .test (Dirs.pathExists .live) fun
    | true => cleanupRewriteMarker
    | false =>
      .test (Dirs.pathExists .staging) fun
        | true => (Proc.op (.rename .staging .live)).andThen cleanupRewriteMarker
        | false => (Proc.op .ensureLive).andThen cleanupRewriteMarker

def rollbackRewrite : FileProc α :=
  .test (Dirs.pathExists .backup) fun
    | true =>
      (Proc.op (.remove .live)).andThen
        ((Proc.op (.rename .backup .live)).andThen cleanupRewriteMarker)
    | false => recoverWithoutBackup

def recoverRewrite : FileProc α :=
  .test Dirs.marker fun
    | true => rollbackRewrite
    | false => .done true

def prepareRewriteStage (records : List α) : FileProc α :=
  (Proc.op (.remove .staging)).andThen (.op (.build records))

def writeRewriteMarker : FileProc α :=
  (Proc.op .writeTemporary).andThen ((Proc.op .renameMarker).andThen (.op .syncParent))

def moveLiveToBackup : FileProc α :=
  .test (Dirs.pathExists .live) fun
    | true =>
      (Proc.op (.remove .backup)).andThen
        ((Proc.op (.rename .live .backup)).andThen (.op .syncParent))
    | false => .done true

def swapRewriteDirs : FileProc α :=
  moveLiveToBackup.andThen ((Proc.op (.rename .staging .live)).andThen (.op .syncParent))

def finishRewrite : FileProc α :=
  (Proc.op .deleteMarker).andThen
    ((Proc.op .syncParent).andThen ((Proc.op (.remove .backup)).andThen (.op .syncParent)))

def rewriteRecordsAtomic (records : List α) : FileProc α :=
  (prepareRewriteStage records).orElse (.op (.remove .staging))
    (writeRewriteMarker.orElse (.op (.remove .staging))
      (swapRewriteDirs.orElse rollbackRewrite
        (finishRewrite.orElse rollbackRewrite (.op .rebuild))))

/-- A state from which recovery leads to the old or the new records, by what it finds: without a
marker the live directory counts, and with one the backup, the live and the staging directory in
this order. -/
def Recoverable (old : Option (List α)) (new : List α) : Dirs α → Prop
  | ⟨live, _, _, false⟩ => live.getD [] = old.getD [] ∨ live.getD [] = new
  | ⟨_, some backup, _, true⟩ => old = some backup
  | ⟨some live, none, _, true⟩ => live = old.getD [] ∨ live = new
  | ⟨none, none, some staging, true⟩ => staging = new
  | ⟨none, none, none, true⟩ => old.getD [] = []

variable {s : Dirs α}

/-- What is left by a removal that did not finish. -/
@[simp] theorem forall_leaves_remove {P : Dirs α → Prop} {tree : Tree} :
    (∀ s', FileOp.Leaves (.remove tree) s s' → P s') ↔
      ∀ left, FileOp.PartOf (s.get tree) left → P (s.set left tree) := by
  simp only [FileOp.Leaves]
  grind

@[simp] theorem forall_leaves_build {P : Dirs α → Prop} {records : List α} :
    (∀ s', FileOp.Leaves (.build records) s s' → P s') ↔ ∀ left, P (s.set left .staging) := by
  simp only [FileOp.Leaves]
  grind

@[simp] theorem partOf_none {left : Option (List α)} : FileOp.PartOf none left ↔ left = none := by
  cases left <;> simp [FileOp.PartOf]

section
variable {s s' : Dirs α}

@[simp] theorem leaves_rename {source target : Tree} :
    FileOp.Leaves (.rename source target) s s' ↔ s' = s := .rfl

@[simp] theorem leaves_writeTemporary : FileOp.Leaves .writeTemporary s s' ↔ s' = s := .rfl

@[simp] theorem leaves_renameMarker : FileOp.Leaves .renameMarker s s' ↔ s' = s := .rfl

@[simp] theorem leaves_deleteMarker : FileOp.Leaves .deleteMarker s s' ↔ s' = s := .rfl

@[simp] theorem leaves_syncParent : FileOp.Leaves .syncParent s s' ↔ s' = s := .rfl

@[simp] theorem leaves_ensureLive : FileOp.Leaves .ensureLive s s' ↔ s' = s := .rfl

@[simp] theorem leaves_rebuild : FileOp.Leaves .rebuild s s' ↔ s' = s := .rfl

end

variable {old : Option (List α)} {new : List α}

-- a rewrite and its recovery are run on directories that are there or not
attribute [local simp] recoverRewrite rollbackRewrite recoverWithoutBackup cleanupRewriteMarker
  rewriteRecordsAtomic prepareRewriteStage writeRewriteMarker swapRewriteDirs moveLiveToBackup
  finishRewrite Dirs.before Proc.op Proc.andThen Proc.orElse Proc.test Proc.bind Dirs.pathExists
  Dirs.get FileOp.apply Dirs.set Recoverable

/-- Recovery keeps the state recoverable wherever it is killed. -/
theorem recover_always (h : Recoverable old new s) :
    Always FileOp.apply FileOp.Leaves (Recoverable old new) recoverRewrite s := by
  obtain ⟨live, backup, staging, marker⟩ := s
  cases marker with
  | false => simpa using h
  | true =>
    -- the presence of the three directories decides the branch
    cases backup <;> cases live <;> cases staging <;> simp only [Recoverable] at h <;> simp [h]

/-- Recovery that is not killed removes the marker. -/
theorem recover_ends (h : Recoverable old new s) :
    Ends FileOp.apply FileOp.Leaves 0 (fun _ s' => s'.marker = false ∧ Recoverable old new s')
      recoverRewrite s := by
  obtain ⟨live, backup, staging, marker⟩ := s
  cases marker with
  | false => simpa using h
  | true =>
    cases backup <;> cases live <;> cases staging <;> simp only [Recoverable] at h <;> simp [h]

section

variable (old : Option (List α)) (new : List α)

/-- A rewrite leaves a recoverable state wherever it is killed. -/
theorem rewrite_always :
    Always FileOp.apply FileOp.Leaves (Recoverable old new) (rewriteRecordsAtomic new)
      (.before old) := by
  cases old <;> simp

/-- A rewrite without an error ends with the new records and without the marker. -/
theorem rewrite_ends : Ends FileOp.apply FileOp.LeavesWhole 0
      (fun ok s' => ok = true ∧ s' = ⟨some new, none, none, false⟩)
      (rewriteRecordsAtomic new) (.before old) := by
  cases old <;> simp

/-- A rewrite with one error leaves a recoverable state and does not return ok. -/
theorem rewrite_fails :
    Ends FileOp.apply FileOp.LeavesWhole 1 (fun ok s' => ok = false ∧ Recoverable old new s')
      (rewriteRecordsAtomic new) (.before old) := by
  cases old with
  | none => simp [FileOp.LeavesWhole]
  | some records =>
    simp [FileOp.LeavesWhole]
    -- what is left is the removal of the backup: it is whole and restored, or gone
    rintro left - (rfl | rfl) <;> simp

end

/-- A rewrite that is killed (`none`) or returns a result after at most one error. -/
inductive Rewrites (fails : FileOp α → Dirs α → Dirs α → Prop) (new : List α) (s : Dirs α) :
    Option Bool → Dirs α → Prop where
  | killed {s' : Dirs α} : Killed FileOp.apply FileOp.Leaves (rewriteRecordsAtomic new) s s' →
      Rewrites fails new s none s'
  | returned {s' : Dirs α} {n : Nat} {ok : Bool} : n ≤ 1 →
      Returns FileOp.apply fails n (rewriteRecordsAtomic new) s ok s' →
      Rewrites fails new s (some ok) s'

/-- What a rewrite leaves is recoverable, and is the new directory when it returned ok. -/
theorem Rewrites.recoverable {result : Option Bool}
    (h : Rewrites FileOp.LeavesWhole new (.before old) result s) :
    Recoverable old new s ∧ (result = some true → Recoverable (some new) new s) := by
  cases h with
  | killed hkilled => exact ⟨rewrite_always old new s hkilled, nofun⟩
  | @returned _ errors ok herrors hreturns =>
    obtain rfl | rfl : errors = 0 ∨ errors = 1 := by omega
    · obtain ⟨-, rfl⟩ := rewrite_ends old new ok s hreturns
      exact ⟨.inr rfl, fun _ => .inr rfl⟩
    · obtain ⟨rfl, hs⟩ := rewrite_fails old new ok s hreturns
      exact ⟨hs, nofun⟩

/-- Recoveries, killed any number of times and then completed, end with the old or new records. -/
theorem Recoverable.recovers {s' s'' : Dirs α} {ok : Bool} (h : Recoverable old new s)
    (hkilled : Relation.ReflTransGen (Killed FileOp.apply FileOp.Leaves recoverRewrite) s s')
    (hreturns : Returns FileOp.apply FileOp.Leaves 0 recoverRewrite s' ok s'') :
    s''.records = old.getD [] ∨ s''.records = new := by
  have hs' : Recoverable old new s' := by
    clear hreturns
    induction hkilled with
    | refl => exact h
    | tail _ hstep ih => exact recover_always ih _ hstep
  obtain ⟨hmarker, hs''⟩ := recover_ends hs' ok s'' hreturns
  obtain ⟨live, backup, staging, marker⟩ := s''
  obtain rfl : marker = false := hmarker
  exact hs''

/-- A rewrite that is killed anywhere, or has one error, and is then recovered leaves exactly the
old or exactly the new records, and the new ones when it returned ok. An error of the removal of the
backup must not have removed a part of it. -/
theorem rewrite_all_or_nothing {old : Option (List α)} {new : List α} {result : Option Bool}
    {s s' s'' : Dirs α} {ok : Bool}
    (hrewrite : Rewrites FileOp.LeavesWhole new (.before old) result s)
    (hkilled : Relation.ReflTransGen (Killed FileOp.apply FileOp.Leaves recoverRewrite) s s')
    (hrecover : Returns FileOp.apply FileOp.Leaves 0 recoverRewrite s' ok s'') :
    (s''.records = old.getD [] ∨ s''.records = new) ∧ (result = some true → s''.records = new) := by
  obtain ⟨hs, hnew⟩ := hrewrite.recoverable
  refine ⟨hs.recovers hkilled hrecover, fun hok => ?_⟩
  simpa using (hnew hok).recovers hkilled hrecover

/-- The new directory is live and the sync of the parent fails: the old records are restored. -/
theorem rewrite_all_or_nothing_sync_error :
    ∃ s, Rewrites FileOp.LeavesWhole [3] (.before (some [1, 2])) (some false) s ∧
      (s.records = [1, 2] ∨ s.records = [3]) := by
  have hrewrite : Rewrites FileOp.LeavesWhole [3] (.before (some [1, 2])) (some false)
      ⟨some [1, 2], none, none, false⟩ := by
    refine .returned (n := 1) le_rfl ?_
    exact .step (.step (.step (.step (.step (.look (.step (.step (.step (.step (.fail
      ⟨rfl, nofun⟩ (.look (.step (.step (.step (.step (.step (.done _ _)))))))))))))))))
  have hrecover : Returns FileOp.apply FileOp.Leaves 0 recoverRewrite
      ⟨some [1, 2], none, none, false⟩ true ⟨some [1, 2], none, none, false⟩ := .look (.done _ _)
  exact ⟨_, hrewrite, (rewrite_all_or_nothing hrewrite .refl hrecover).1⟩

/-- A removal of the backup that fails after one of two records: the rewrite removes the new records
and restores the rest of the backup, and returns an error. -/
theorem partial_backup_restored :
    ∃ s s' : Dirs Nat, Rewrites FileOp.Leaves [3] (.before (some [1, 2])) (some false) s ∧
      Returns FileOp.apply FileOp.Leaves 0 recoverRewrite s true s' ∧ s'.records = [2] := by
  refine ⟨⟨some [2], none, none, false⟩, ⟨some [2], none, none, false⟩, ?_, .look (.done _ _), rfl⟩
  refine .returned (n := 1) le_rfl ?_
  exact .step (.step (.step (.step (.step (.look (.step (.step (.step (.step (.step (.step (.step
    (.fail ⟨some [2], show [2].Sublist [1, 2] by decide, rfl⟩
      (.look (.step (.step (.step (.step (.step (.done _ _))))))))))))))))))))

end FerricStore.SegmentLog
