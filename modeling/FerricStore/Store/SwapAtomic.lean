import FerricStore.Store.CompactionSwap

/-!
# Every run of a compaction swap is atomic

The swap succeeds or goes back in every run of a plan that can be walked back: each phase of a
publication, of a rollback and of a recovery fixes what is on the disk, a step leads from one phase
to the next, and a kill leads to the phase that the recovery starts with. A plan in which a cold
record has moved to the place of an earlier cold one cannot be walked back: the relocation in reverse
takes that place first, and the comparison for the later record fails on every start.
-/

namespace FerricStore.Store

open Option List

/-! ## The phases of a run -/

section Phases

variable {plan : CompactionPlan} (run : SwapRun plan)

/-- The locators of a list of pages are at one end. -/
def AllAt (direction : Direction) (pages : List (List PlanEntry)) : Prop :=
  ∀ entry ∈ pages.flatten,
    Stands run.departed run.disk.rows [direction.target plan.fid entry] entry

/-- Every planned locator is at one of its ends. -/
def Mixed : Prop :=
  ∀ entry ∈ plan.pages.flatten, Stands run.departed run.disk.rows
    [entry.oldLocation plan.fid, entry.newLocation plan.fid] entry

theorem AllAt.mixed {run : SwapRun plan} {direction : Direction}
    (h : AllAt run direction plan.pages) : Mixed run := by
  intro entry hentry
  refine (h entry hentry).mono ?_
  cases direction <;> simp [Direction.target]

/-- What stays on the disk until the end of a publication. -/
structure Swapping : Prop where
  journal : run.disk.journal = true
  hasPlan : run.disk.plan = true
  marker : run.disk.marker = run.marked
  mixed : Mixed run

/-- The swap is decided: only what is left over has still to be removed. -/
structure Decided : Prop where
  source : run.disk.source = some (if run.marked then .compacted else .original)
  backup : run.disk.backup = none
  marker : run.disk.marker = false
  stands : AllAt run (if run.marked then .forward else .reverse) plan.pages

/-- The phases of a publication and of its recoveries: what is on the disk for each list of steps
that a process can have before it. -/
inductive Phase (run : SwapRun plan) : List SwapStep → Prop
  | begin (decided : Decided run) (unmarked : run.marked = false)
      (dest : run.disk.dest = some .compacted) (journal : run.disk.journal = false)
      (hasPlan : run.disk.plan = true) : Phase run (publishCompactedSegment plan.pages)
  | backup (decided : Decided run) (unmarked : run.marked = false)
      (dest : run.disk.dest = some .compacted) (journal : run.disk.journal = true)
      (hasPlan : run.disk.plan = true) :
      Phase run (.backupSource :: .installCompacted :: commitCompactedLocations plan.pages)
  | install (swapping : Swapping run) (unmarked : run.marked = false)
      (source : run.disk.source = none) (backup : run.disk.backup = some .original)
      (dest : run.disk.dest = some .compacted) :
      Phase run (.installCompacted :: commitCompactedLocations plan.pages)
  | forward (done todo : List (List PlanEntry)) (pages : plan.pages = done ++ todo)
      (swapping : Swapping run) (unmarked : run.marked = false)
      (source : run.disk.source = some .compacted) (backup : run.disk.backup = some .original)
      (arrived : AllAt run .forward done) :
      Phase run (relocateAll todo .forward ++ .writeMarker :: complete plan.pages)
  | reverse (done todo : List (List PlanEntry)) (pages : plan.pages = done ++ todo)
      (swapping : Swapping run) (unmarked : run.marked = false)
      (backup : run.disk.backup = some .original) (arrived : AllAt run .reverse done)
      (drop after : List SwapStep) (hdrop : drop = [] ∨ drop = [.removeSource])
      (hafter : after = [] ∨ after = cleanupCompactTemps) :
      Phase run (relocateAll todo .reverse ++
        (drop ++ .restoreBackup :: (clearRecoveredTransaction ++ after)))
  | complete (done todo : List (List PlanEntry)) (pages : plan.pages = done ++ todo)
      (swapping : Swapping run) (marked : run.marked = true)
      (source : run.disk.source = some .compacted) (backup : run.disk.backup = some .original)
      (arrived : AllAt run .forward done) (after : List SwapStep)
      (hafter : after = [] ∨ after = cleanupCompactTemps) :
      Phase run (relocateAll todo .forward ++
        .removeBackup :: (clearRecoveredTransaction ++ after))
  | withoutBackup (done todo : List (List PlanEntry)) (pages : plan.pages = done ++ todo)
      (swapping : Swapping run) (marked : run.marked = true)
      (source : run.disk.source = some .compacted) (backup : run.disk.backup = none)
      (arrived : AllAt run .forward done) (after : List SwapStep)
      (hafter : after = [] ∨ after = cleanupCompactTemps) :
      Phase run (relocateAll todo .forward ++ (clearRecoveredTransaction ++ after))
  | decided (program : List SwapStep) (decided : Decided run)
      (cleanup : ∀ step ∈ program, step ∈ clearRecoveredTransaction ++ cleanupCompactTemps)
      (journal : run.disk.journal = true → SwapStep.removeJournal ∈ program)
      (hasPlan : run.disk.plan = true → SwapStep.removePlan ∈ program) : Phase run program

end Phases

/-! ## Steps -/

section Steps

variable {plan : CompactionPlan} {run : SwapRun plan}

/-- The run after a step. -/
def SwapRun.next (run : SwapRun plan) (step : SwapStep) (disk : Disk) (rest : List SwapStep) :
    SwapRun plan :=
  { run with disk := disk, program := rest, marked := run.marked || decide (step = .writeMarker) }

variable {direction : Direction} {done todo : List (List PlanEntry)} {page : List PlanEntry}

/-- A page of the plan is relocated, and the pages before it stay. -/
theorem relocate_page (hclear : plan.pages.flatten.Pairwise (Clear plan.fid direction))
    (hpages : plan.pages = done ++ page :: todo) (hplan : run.disk.plan = true)
    (hmixed : Mixed run) (hdone : AllAt run direction done) :
    ∃ rows, (SwapStep.relocate direction page).exec plan.fid run.disk =
        some { run.disk with rows := rows } ∧
      ∀ other : SwapRun plan, other.departed = run.departed → other.disk.rows = rows →
        Mixed other ∧ AllAt other direction (done ++ [page]) := by
  have hflatten : plan.pages.flatten = done.flatten ++ (page ++ todo.flatten) := by
    rw [hpages, flatten_append, flatten_cons]
  have hends : ∀ entry ∈ plan.pages.flatten, Stands run.departed run.disk.rows
      [direction.source plan.fid entry, direction.target plan.fid entry] entry := by
    intro entry hentry
    refine (hmixed entry hentry).mono ?_
    cases direction <;> simp [Direction.source, Direction.target]
  rw [hflatten] at hclear hends
  obtain ⟨rows, hrows, harrived, hlater⟩ := relocateFlowLocatorPage_eq_some hclear hdone
    fun entry hentry => hends entry (mem_append_right _ hentry)
  refine ⟨rows, ?_, fun other hdeparted hother => ⟨fun entry hentry => ?_, fun entry hentry => ?_⟩⟩
  · rw [SwapStep.exec, if_pos hplan, hrows]
    rfl
  · rw [hdeparted, hother]
    rw [hflatten, ← append_assoc] at hentry
    rcases mem_append.mp hentry with hentry | hentry
    · refine (harrived entry hentry).mono ?_
      cases direction <;> simp [Direction.target]
    · refine (hlater entry hentry).mono ?_
      cases direction <;> simp [Direction.source, Direction.target]
  · rw [hdeparted, hother]
    rw [flatten_append, flatten_singleton] at hentry
    exact harrived entry hentry

section

variable {step : SwapStep} {disk : Disk} {rest : List SwapStep}

theorem next_marked (hstep : step ≠ .writeMarker) :
    (run.next step disk rest).marked = run.marked := by
  show (run.marked || decide (step = .writeMarker)) = run.marked
  rw [decide_eq_false hstep, Bool.or_false]

/-- A page of a swap: the rest of the disk stays, and so does the decision. -/
theorem Swapping.relocate (h : Swapping run)
    (hclear : plan.pages.flatten.Pairwise (Clear plan.fid direction))
    (hpages : plan.pages = done ++ page :: todo) (hdone : AllAt run direction done) :
    ∃ rows, (SwapStep.relocate direction page).exec plan.fid run.disk =
        some { run.disk with rows := rows } ∧
      Swapping (run.next (.relocate direction page) { run.disk with rows := rows } rest) ∧
      (run.next (.relocate direction page) { run.disk with rows := rows } rest).marked =
        run.marked ∧
      plan.pages = done ++ [page] ++ todo ∧
      AllAt (run.next (.relocate direction page) { run.disk with rows := rows } rest) direction
        (done ++ [page]) := by
  obtain ⟨rows, hexec, hrows⟩ := relocate_page hclear hpages h.hasPlan h.mixed hdone
  obtain ⟨hmixed, harrived⟩ := hrows
    (run.next (.relocate direction page) { run.disk with rows := rows } rest) rfl rfl
  refine ⟨rows, hexec, ⟨h.journal, h.hasPlan, ?_, hmixed⟩, next_marked (by nofun), ?_, harrived⟩
  · exact h.marker.trans (next_marked (by nofun)).symm
  · rw [hpages, append_assoc, singleton_append]

/-- A step that keeps the journal, the plan, the marker and the rows. -/
theorem Swapping.next (h : Swapping run) (hstep : step ≠ .writeMarker)
    (hjournal : disk.journal = run.disk.journal) (hplan : disk.plan = run.disk.plan)
    (hmarker : disk.marker = run.disk.marker) (hrows : disk.rows = run.disk.rows) :
    Swapping (run.next step disk rest) where
  journal := hjournal.trans h.journal
  hasPlan := hplan.trans h.hasPlan
  marker := by rw [next_marked hstep, ← h.marker, ← hmarker]; rfl
  mixed := by
    intro entry hentry
    show Stands run.departed disk.rows _ entry
    rw [hrows]
    exact h.mixed entry hentry

/-- A step that leaves a decided swap, with the segment that the marker written before it asks for. -/
theorem decided_next (hstep : step ≠ .writeMarker)
    (hsource : disk.source = some (if run.marked then .compacted else .original))
    (hbackup : disk.backup = none) (hmarker : disk.marker = false)
    (hrows : disk.rows = run.disk.rows)
    (hstands : AllAt run (if run.marked then .forward else .reverse) plan.pages) :
    Decided (run.next step disk rest) := by
  refine ⟨?_, hbackup, hmarker, ?_⟩
  · rw [next_marked hstep]
    exact hsource
  · rw [next_marked hstep]
    intro entry hentry
    show Stands run.departed disk.rows _ entry
    rw [hrows]
    exact hstands entry hentry

end

/-- A step of a decided swap only removes what is left over. -/
theorem Decided.step {step : SwapStep} {rest : List SwapStep} (h : Decided run)
    (hcleanup : ∀ other ∈ step :: rest, other ∈ clearRecoveredTransaction ++ cleanupCompactTemps)
    (hjournal : run.disk.journal = true → SwapStep.removeJournal ∈ step :: rest)
    (hplan : run.disk.plan = true → SwapStep.removePlan ∈ step :: rest) :
    ∃ disk, step.exec plan.fid run.disk = some disk ∧ Phase (run.next step disk rest) rest := by
  have hrest : ∀ other ∈ rest, other ∈ clearRecoveredTransaction ++ cleanupCompactTemps :=
    (forall_mem_cons.mp hcleanup).2
  have hstep : step = .deleteMarker ∨ step = .removePlan ∨ step = .removeJournal ∨
      step = .removeTemporary := by
    have := hcleanup step mem_cons_self
    simp only [clearRecoveredTransaction, cleanupCompactTemps, cons_append, nil_append,
      mem_cons, not_mem_nil, or_false] at this
    tauto
  rcases hstep with rfl | rfl | rfl | rfl
  · exact ⟨_, rfl, .decided rest (decided_next nofun h.source h.backup rfl rfl h.stands) hrest
      (fun htrue => by simpa using hjournal htrue) (fun htrue => by simpa using hplan htrue)⟩
  · exact ⟨_, rfl, .decided rest (decided_next nofun h.source h.backup h.marker rfl h.stands) hrest
      (fun htrue => by simpa using hjournal htrue) nofun⟩
  · exact ⟨_, rfl, .decided rest (decided_next nofun h.source h.backup h.marker rfl h.stands) hrest
      nofun (fun htrue => by simpa using hplan htrue)⟩
  · exact ⟨_, rfl, .decided rest (decided_next nofun h.source h.backup h.marker rfl h.stands) hrest
      (fun htrue => by simpa using hjournal htrue) (fun htrue => by simpa using hplan htrue)⟩

variable {program : List SwapStep}

/-- Every step of every phase succeeds and leads to a phase. -/
theorem Phase.step (hplan : plan.Reversible) (h : Phase run program) :
    ∀ step rest, program = step :: rest →
      ∃ disk, step.exec plan.fid run.disk = some disk ∧ Phase (run.next step disk rest) rest := by
  intro step rest hprogram
  cases h with
  | begin decided unmarked dest journal hasPlan =>
    cases hprogram
    refine ⟨{ run.disk with journal := true }, ?_, ?_⟩
    · exact if_pos ⟨hasPlan, journal, decided.backup⟩
    · exact .backup
        (decided_next nofun decided.source decided.backup decided.marker rfl decided.stands)
        ((next_marked (by nofun)).trans unmarked) dest rfl hasPlan
  | backup decided unmarked dest journal hasPlan =>
    cases hprogram
    have hsource := decided.source
    rw [unmarked] at hsource
    have hold := decided.stands
    refine ⟨{ run.disk with source := none, backup := some .original }, ?_, ?_⟩
    · rw [SwapStep.exec, hsource]
      rfl
    · refine .install ⟨journal, hasPlan, ?_, AllAt.mixed hold⟩
        ((next_marked (by nofun)).trans unmarked) rfl rfl dest
      refine Eq.trans ?_ (next_marked (by nofun)).symm
      rw [unmarked]
      exact decided.marker
  | install swapping unmarked source backup dest =>
    cases hprogram
    refine ⟨{ run.disk with dest := none, source := some .compacted }, ?_, ?_⟩
    · rw [SwapStep.exec, dest]
      rfl
    · exact .forward [] plan.pages rfl
        (swapping.next (by nofun) rfl rfl rfl rfl) ((next_marked (by nofun)).trans unmarked) rfl
        backup nofun
  | forward done todo pages swapping unmarked source backup arrived =>
    cases todo with
    | cons page todo =>
      cases hprogram
      obtain ⟨rows, hexec, hswapping, hmarked, hpages, harrived⟩ :=
        swapping.relocate plan.clear_forward pages arrived
      exact ⟨_, hexec, .forward (done ++ [page]) todo hpages hswapping
        (hmarked.trans unmarked) source backup harrived⟩
    | nil =>
      cases hprogram
      have hmarked : (run.next .writeMarker { run.disk with marker := true }
          (Store.complete plan.pages)).marked = true := Bool.or_true _
      have hswapping : Swapping (run.next .writeMarker { run.disk with marker := true }
          (Store.complete plan.pages)) :=
        ⟨swapping.journal, swapping.hasPlan, hmarked.symm, swapping.mixed⟩
      have hphase := Phase.complete [] plan.pages rfl hswapping hmarked source backup
        nofun [] (.inl rfl)
      exact ⟨_, rfl, hphase⟩
  | reverse done todo pages swapping unmarked backup arrived drop after hdrop hafter =>
    cases todo with
    | cons page todo =>
      cases hprogram
      obtain ⟨rows, hexec, hswapping, hmarked, hpages, harrived⟩ :=
        swapping.relocate hplan.clear pages arrived
      exact ⟨_, hexec, .reverse (done ++ [page]) todo hpages hswapping
        (hmarked.trans unmarked) backup harrived drop after hdrop hafter⟩
    | nil =>
      rw [append_nil] at pages
      rcases hdrop with rfl | rfl
      · cases hprogram
        refine ⟨{ run.disk with backup := none, source := some .original }, ?_, ?_⟩
        · rw [SwapStep.exec, backup]
          rfl
        · refine .decided _ (decided_next nofun ?_ rfl (swapping.marker.trans unmarked) rfl ?_)
            ?_ ?_ ?_
          · rw [unmarked]
            rfl
          · rw [unmarked, pages]
            exact arrived
          · rcases hafter with rfl | rfl <;> simp +contextual
          · exact fun _ => by simp [clearRecoveredTransaction]
          · exact fun _ => by simp [clearRecoveredTransaction]
      · cases hprogram
        have hswapping : ∀ rest,
            Swapping (run.next .removeSource { run.disk with source := none } rest) :=
          fun _ => swapping.next nofun rfl rfl rfl rfl
        exact ⟨_, rfl, .reverse done [] (by simpa using pages) (hswapping _)
          ((next_marked (by nofun)).trans unmarked) backup arrived [] after (.inl rfl) hafter⟩
  | complete done todo pages swapping marked source backup arrived after hafter =>
    cases todo with
    | cons page todo =>
      cases hprogram
      obtain ⟨rows, hexec, hswapping, hmarked, hpages, harrived⟩ :=
        swapping.relocate plan.clear_forward pages arrived
      exact ⟨_, hexec, .complete (done ++ [page]) todo hpages hswapping
        (hmarked.trans marked) source backup harrived after hafter⟩
    | nil =>
      cases hprogram
      have hswapping : ∀ rest,
          Swapping (run.next .removeBackup { run.disk with backup := none } rest) :=
        fun _ => swapping.next nofun rfl rfl rfl rfl
      exact ⟨_, rfl, .withoutBackup done [] pages (hswapping _) ((next_marked (by nofun)).trans marked)
        source rfl arrived after hafter⟩
  | withoutBackup done todo pages swapping marked source backup arrived after hafter =>
    cases todo with
    | cons page todo =>
      cases hprogram
      obtain ⟨rows, hexec, hswapping, hmarked, hpages, harrived⟩ :=
        swapping.relocate plan.clear_forward pages arrived
      exact ⟨_, hexec, .withoutBackup (done ++ [page]) todo hpages hswapping
        (hmarked.trans marked) source backup harrived after hafter⟩
    | nil =>
      rw [append_nil] at pages
      cases hprogram
      refine ⟨_, rfl, .decided _ (decided_next nofun ?_ backup rfl rfl ?_) ?_ ?_ ?_⟩
      · rw [marked]
        exact source
      · rw [marked, pages]
        exact arrived
      · rcases hafter with rfl | rfl <;>
          simp [clearRecoveredTransaction, cleanupCompactTemps]
      · exact fun _ => by simp
      · exact fun _ => by simp
  | decided program decided cleanup journal hasPlan =>
    subst hprogram
    exact decided.step cleanup journal hasPlan

/-! ## Kills, rollbacks and departures -/

theorem Swapping.withProgram (h : Swapping run) (program : List SwapStep) :
    Swapping { run with program := program } :=
  { h with }

/-- What a kill can find: a decided swap, one with a backup and no marker, or one with the marker. -/
theorem Phase.found (h : Phase run program) : Decided run ∨
      (Swapping run ∧ run.marked = false ∧ run.disk.backup = some .original) ∨
      (Swapping run ∧ run.marked = true ∧ run.disk.source = some .compacted ∧
        (run.disk.backup = some .original ∨ run.disk.backup = none)) := by
  cases h with
  | begin decided | backup decided | decided _ decided => exact .inl decided
  | install swapping unmarked _ backup | forward _ _ _ swapping unmarked _ backup
  | reverse _ _ _ swapping unmarked backup => exact .inr (.inl ⟨swapping, unmarked, backup⟩)
  | complete _ _ _ swapping marked source backup =>
    exact .inr (.inr ⟨swapping, marked, source, .inl backup⟩)
  | withoutBackup _ _ _ swapping marked source backup =>
    exact .inr (.inr ⟨swapping, marked, source, .inr backup⟩)

/-- A backup without a marker can be walked back from the first page on. -/
theorem Swapping.reverse (h : Swapping run) (hunmarked : run.marked = false)
    (hbackup : run.disk.backup = some .original) {drop after : List SwapStep}
    (hdrop : drop = [] ∨ drop = [.removeSource])
    (hafter : after = [] ∨ after = cleanupCompactTemps) (program : List SwapStep) :
    Phase { run with program := program } (relocateAll plan.pages .reverse ++
      (drop ++ .restoreBackup :: (clearRecoveredTransaction ++ after))) :=
  .reverse [] plan.pages rfl (h.withProgram program) hunmarked hbackup
    nofun drop after hdrop hafter

/-- The recovery of a decided swap. -/
theorem Decided.kill (h : Decided run) : ∃ program, recoverAll plan.pages run.disk = some program ∧
      Phase { run with program := program } program := by
  cases hjournal : run.disk.journal with
  | true =>
    refine ⟨clearRecoveredTransaction ++ cleanupCompactTemps, ?_, ?_⟩
    · simp [recoverAll, recoverTransaction, hjournal, h.backup, h.source, h.marker]
    · exact .decided _ { h with } (fun _ hstep => hstep)
        (fun _ => by simp [clearRecoveredTransaction])
        (fun _ => by simp [clearRecoveredTransaction])
  | false =>
    refine ⟨cleanupCompactTemps, ?_, ?_⟩
    · simp [recoverAll, hjournal]
    · refine .decided _ { h with } (fun _ hstep => mem_append_right _ hstep)
        (fun htrue => ?_) (fun _ => mem_cons_self)
      exact absurd (hjournal.symm.trans htrue) Bool.false_ne_true

/-- A start after a kill finds its way, and begins a phase. -/
theorem Phase.kill (h : Phase run program) :
    ∃ recovery, recoverAll plan.pages run.disk = some recovery ∧
      Phase { run with program := recovery } recovery := by
  rcases h.found with hdecided | ⟨hswapping, hunmarked, hbackup⟩ |
    ⟨hswapping, hmarked, hsource, hbackup⟩
  · exact hdecided.kill
  · have hmarker := hswapping.marker.trans hunmarked
    cases hsource : run.disk.source with
    | none =>
      refine ⟨restoreBackupWithoutSource plan.pages ++ cleanupCompactTemps, ?_, ?_⟩
      · simp [recoverAll, recoverTransaction, hswapping.journal, hbackup, hsource, hmarker]
      · have hphase := hswapping.reverse hunmarked hbackup (.inl rfl) (.inr rfl)
          (restoreBackupWithoutSource plan.pages ++ cleanupCompactTemps)
        rw [restoreBackupWithoutSource, append_assoc, cons_append]
        rw [restoreBackupWithoutSource, append_assoc, cons_append] at hphase
        exact hphase
    | some contents =>
      refine ⟨Store.rollback plan.pages ++ cleanupCompactTemps, ?_, ?_⟩
      · simp [recoverAll, recoverTransaction, hswapping.journal, hbackup, hsource, hmarker]
      · have hphase := hswapping.reverse hunmarked hbackup (.inr rfl) (.inr rfl)
          (Store.rollback plan.pages ++ cleanupCompactTemps)
        rw [Store.rollback, append_assoc, cons_append, cons_append] at hphase ⊢
        exact hphase
  · have hmarker := hswapping.marker.trans hmarked
    rcases hbackup with hbackup | hbackup
    · refine ⟨Store.complete plan.pages ++ cleanupCompactTemps, ?_, ?_⟩
      · simp [recoverAll, recoverTransaction, hswapping.journal, hbackup, hsource, hmarker]
      · have hphase := Phase.complete [] plan.pages rfl
          (hswapping.withProgram (Store.complete plan.pages ++ cleanupCompactTemps)) hmarked hsource
          hbackup nofun cleanupCompactTemps (.inr rfl)
        rw [Store.complete, append_assoc, cons_append] at hphase ⊢
        exact hphase
    · refine ⟨completeWithoutBackup plan.pages ++ cleanupCompactTemps, ?_, ?_⟩
      · simp [recoverAll, recoverTransaction, hswapping.journal, hbackup, hsource, hmarker]
      · have hphase := Phase.withoutBackup [] plan.pages rfl
          (hswapping.withProgram (completeWithoutBackup plan.pages ++ cleanupCompactTemps)) hmarked
          hsource hbackup nofun cleanupCompactTemps (.inr rfl)
        rw [completeWithoutBackup, append_assoc] at hphase ⊢
        exact hphase

/-- A rollback by the running process. -/
theorem Phase.rollBack (h : Phase run program)
    (hbackup : run.disk.backup.isSome = true) (hmarker : run.disk.marker = false) :
    Phase { run with program := rollback plan.pages } (rollback plan.pages) := by
  rcases h.found with hdecided | ⟨hswapping, hunmarked, horiginal⟩ | ⟨hswapping, hmarked, -, -⟩
  · rw [hdecided.backup] at hbackup
    cases hbackup
  · have hphase := hswapping.reverse hunmarked horiginal (.inr rfl) (.inl rfl) (rollback plan.pages)
    rwa [append_nil] at hphase
  · rw [hswapping.marker, hmarked] at hmarker
    exact absurd hmarker.symm Bool.false_ne_true

/-- An abort before the backup has been made. -/
theorem Phase.abort (h : Phase run program)
    (hbackup : run.disk.backup = none) (hmarker : run.disk.marker = false) :
    Phase { run with program := abortBeforeSwap } abortBeforeSwap := by
  rcases h.found with hdecided | ⟨-, -, horiginal⟩ | ⟨hswapping, hmarked, -, -⟩
  · refine .decided _ { hdecided with } ?_ (fun _ => mem_cons_self)
      (fun _ => mem_cons_of_mem _ mem_cons_self)
    simp [abortBeforeSwap, clearRecoveredTransaction]
  · rw [horiginal] at hbackup
    cases hbackup
  · rw [hswapping.marker, hmarked] at hmarker
    exact absurd hmarker.symm Bool.false_ne_true

/-- The run after a state has left the segment. -/
def SwapRun.departs (run : SwapRun plan) (key : Bytes) (departure : Departure plan.fid) :
    SwapRun plan :=
  { run with
    disk := { run.disk with rows := run.disk.rows.depart key departure },
    departed := Function.update run.departed key (some departure) }

section Departs

variable (key : Bytes) (departure : Departure plan.fid)

theorem AllAt.departs {pages : List (List PlanEntry)}
    (h : AllAt run direction pages) : AllAt (run.departs key departure) direction pages :=
  fun entry hentry => (h entry hentry).depart

theorem Swapping.departs (h : Swapping run) : Swapping (run.departs key departure) :=
  { h with mixed := fun entry hentry => (h.mixed entry hentry).depart }

theorem Decided.departs (h : Decided run) : Decided (run.departs key departure) :=
  { h with stands := h.stands.departs key departure }

/-- A departure leaves the phase. -/
theorem Phase.departs (h : Phase run program) : Phase (run.departs key departure) program := by
  cases h with
  | begin decided unmarked dest journal hasPlan =>
    exact .begin (decided.departs key departure) unmarked dest journal hasPlan
  | backup decided unmarked dest journal hasPlan =>
    exact .backup (decided.departs key departure) unmarked dest journal hasPlan
  | install swapping unmarked source backup dest =>
    exact .install (swapping.departs key departure) unmarked source backup dest
  | forward done todo pages swapping unmarked source backup arrived =>
    exact .forward done todo pages (swapping.departs key departure) unmarked source backup
      (arrived.departs key departure)
  | reverse done todo pages swapping unmarked backup arrived drop after hdrop hafter =>
    exact .reverse done todo pages (swapping.departs key departure) unmarked backup
      (arrived.departs key departure) drop after hdrop hafter
  | complete done todo pages swapping marked source backup arrived after hafter =>
    exact .complete done todo pages (swapping.departs key departure) marked source backup
      (arrived.departs key departure) after hafter
  | withoutBackup done todo pages swapping marked source backup arrived after hafter =>
    exact .withoutBackup done todo pages (swapping.departs key departure) marked source backup
      (arrived.departs key departure) after hafter
  | decided program decided cleanup journal hasPlan =>
    exact .decided program (decided.departs key departure) cleanup journal hasPlan

end Departs

/-! ## Runs -/

theorem SwapRun.Start.phase (h : run.Start) : Phase run run.program := by
  rw [h.program]
  refine .begin ⟨?_, h.backup, h.marker, ?_⟩ h.marked h.dest h.journal h.hasPlan
  · rw [h.marked]
    exact h.source
  · intro entry hentry
    rw [h.marked, Stands, h.departed]
    exact ⟨_, mem_singleton_self _, h.settled entry hentry⟩

/-- What can happen next keeps a run in a phase. -/
theorem Phase.next {other : SwapRun plan} (hplan : plan.Reversible) (h : Phase run run.program)
    (hnext : run.Next other) : Phase other other.program := by
  cases hnext with
  | step program taken =>
    obtain ⟨disk, hexec, hphase⟩ := h.step hplan _ _ program
    rw [taken] at hexec
    cases hexec
    exact hphase
  | kill recover =>
    obtain ⟨recovery, hrecover, hphase⟩ := h.kill
    rw [recover] at hrecover
    cases hrecover
    exact hphase
  | rollBack backup marker => exact h.rollBack backup marker
  | abort journal backup marker => exact h.abort backup marker
  | depart key departure => exact h.departs key departure

/-- A run in a phase that has no step left is at the end of a swap. -/
theorem Phase.atomic (h : Phase run []) : run.Atomic := by
  have hdecided : Decided run ∧ run.disk.journal ≠ true ∧ run.disk.plan ≠ true := by
    generalize hprogram : ([] : List SwapStep) = program at h
    cases h with
    | decided program decided cleanup journal hasPlan =>
      subst hprogram
      exact ⟨decided, fun htrue => (nomatch journal htrue), fun htrue => (nomatch hasPlan htrue)⟩
    | reverse done todo pages swapping unmarked backup arrived drop after hdrop hafter =>
      exact absurd hprogram (by simp)
    | _ => exact absurd hprogram (by simp [publishCompactedSegment, clearRecoveredTransaction])
  obtain ⟨h, hjournal, hplan⟩ := hdecided
  refine ⟨h.source, h.backup, Bool.not_eq_true _ ▸ hjournal, Bool.not_eq_true _ ▸ hplan, h.marker,
    fun entry hentry => ?_⟩
  have hstands := h.stands entry hentry
  cases hmarked : run.marked with
  | true =>
    rw [hmarked] at hstands
    exact hstands
  | false =>
    rw [hmarked] at hstands
    exact hstands

/-- In every run of a plan that can be walked back, whatever is killed and however often, the next
step succeeds, a start finds its way, and a process that reaches its end leaves the compacted
segment with the new locators if the marker has been written and the original segment with the old
ones if not, with nothing left over and with the states that have left untouched. -/
theorem swap_atomic {plan : CompactionPlan} {start run : SwapRun plan} (hplan : plan.Reversible)
    (hstart : start.Start) (hrun : Relation.ReflTransGen SwapRun.Next start run) :
    (∀ step rest, run.program = step :: rest → (step.exec plan.fid run.disk).isSome = true) ∧
      (recoverAll plan.pages run.disk).isSome = true ∧ (run.program = [] → run.Atomic) := by
  have hphase : Phase run run.program := by
    induction hrun with
    | refl => exact hstart.phase
    | tail _ hnext ih => exact ih.next hplan hnext
  refine ⟨fun step rest hprogram => ?_, ?_, fun hend => ?_⟩
  · obtain ⟨disk, hexec, -⟩ := hphase.step hplan step rest hprogram
    rw [hexec]
    rfl
  · obtain ⟨recovery, hrecover, -⟩ := hphase.kill
    rw [hrecover]
    rfl
  · rw [hend] at hphase
    exact hphase.atomic

end Steps

/-! ## A cold and a live state, and two cold states -/

/-- The rows of the planned states at their old offsets. -/
def plannedRows (fid : Nat) (entries : List PlanEntry) : Locators where
  query key := (entries.find? (·.stateKey = key)).map (·.oldLocation fid)
  park key :=
    (entries.find? fun entry => entry.cold ∧ entry.stateKey = key).map (·.oldLocation fid)
  bySegment place :=
    (entries.find? fun entry =>
      entry.cold ∧ fid = place.1 ∧ entry.oldOffset = place.2).map (·.stateKey)

/-- A publication that is about to begin. -/
def publication (plan : CompactionPlan) : SwapRun plan where
  disk := ⟨some .original, none, some .compacted, false, true, false,
    plannedRows plan.fid plan.pages.flatten⟩
  program := publishCompactedSegment plan.pages
  marked := false
  departed _ := none

/-- A live state and a cold one behind a dropped record, in a page each. -/
def mixedPlan : CompactionPlan where
  fid := 0
  pages := [[⟨false, [1], 8, 40, 0⟩], [⟨true, [2], 8, 80, 40⟩]]
  keys_ne := by decide
  ordered := by decide
  newOffset_le := by decide

/-- Two cold states of one size behind a dropped record of that size. -/
def shiftedPlan : CompactionPlan where
  fid := 0
  pages := [[⟨true, [1], 8, 40, 0⟩, ⟨true, [2], 8, 80, 40⟩]]
  keys_ne := by decide
  ordered := by decide
  newOffset_le := by decide

theorem start_mixedPlan : (publication mixedPlan).Start := by
  refine ⟨rfl, rfl, rfl, rfl, rfl, rfl, ?_, rfl, rfl, fun _ => rfl⟩
  unfold Settled
  decide

theorem start_shiftedPlan : (publication shiftedPlan).Start := by
  refine ⟨rfl, rfl, rfl, rfl, rfl, rfl, ?_, rfl, rfl, fun _ => rfl⟩
  unfold Settled
  decide

/-- The process takes steps. -/
def SwapRun.steps {plan : CompactionPlan} : Nat → SwapRun plan → Option (SwapRun plan)
  | 0, run => some run
  | count + 1, run =>
    match run.program with
    | [] => some run
    | step :: rest =>
      (step.exec plan.fid run.disk).bind fun disk => steps count (run.next step disk rest)

theorem reach_of_steps {plan : CompactionPlan} (count : Nat) :
    ∀ {run other : SwapRun plan}, run.steps count = some other →
      Relation.ReflTransGen SwapRun.Next run other := by
  induction count with
  | zero =>
    intro run other h
    cases h
    exact .refl
  | succ count ih =>
    intro run other h
    rw [SwapRun.steps] at h
    cases hprogram : run.program with
    | nil =>
      rw [hprogram] at h
      cases h
      exact .refl
    | cons step rest =>
      rw [hprogram] at h
      obtain ⟨disk, hdisk, hsteps⟩ := bind_eq_some_iff.mp h
      exact .head (.step hprogram hdisk) (ih hsteps)

/-- A publication that is killed between two pages is rolled back by the next start. -/
theorem swap_atomic_mixed : ∃ killed run program,
    Relation.ReflTransGen SwapRun.Next (publication mixedPlan) killed ∧
      killed.program.head? = some (.relocate .forward [⟨true, [2], 8, 80, 40⟩]) ∧
      recoverAll mixedPlan.pages killed.disk = some program ∧
      Relation.ReflTransGen SwapRun.Next { killed with program := program } run ∧
      run.marked = false ∧ run.Atomic := by
  have hends : ((publication mixedPlan).steps 4).bind (fun killed =>
      (recoverAll mixedPlan.pages killed.disk).bind fun program =>
        (SwapRun.steps 12 { killed with program := program }).map fun run =>
          decide (killed.program.head? = some (.relocate .forward [⟨true, [2], 8, 80, 40⟩])) &&
            (decide (run.program = []) && !run.marked)) = some true := by
    decide
  obtain ⟨killed, hkilled, hends⟩ := bind_eq_some_iff.mp hends
  obtain ⟨program, hprogram, hends⟩ := bind_eq_some_iff.mp hends
  obtain ⟨run, hrun, hboth⟩ := map_eq_some_iff.mp hends
  simp only [Bool.and_eq_true, decide_eq_true_eq, Bool.not_eq_true'] at hboth
  obtain ⟨hhead, hnone, hmarked⟩ := hboth
  have hstart := reach_of_steps 4 hkilled
  have hend := reach_of_steps 12 hrun
  exact ⟨killed, run, program, hstart, hhead, hprogram, hend, hmarked,
    (swap_atomic (by decide) start_mixedPlan ((hstart.tail (.kill hprogram)).trans hend)).2.2 hnone⟩

/-- A kill between the relocation and the marker: the recovery walks back, the first state takes the
place of the second, and the comparison for the second fails. -/
theorem rollback_takes_place : ¬ shiftedPlan.Reversible ∧ (publication shiftedPlan).Start ∧
    ∃ run, Relation.ReflTransGen SwapRun.Next (publication shiftedPlan) run ∧
      recoverAll shiftedPlan.pages run.disk = some run.program ∧
      ∃ step rest, run.program = step :: rest ∧ step.exec shiftedPlan.fid run.disk = none := by
  have hfails : ((publication shiftedPlan).steps 4).bind (fun run =>
      (recoverAll shiftedPlan.pages run.disk).bind fun program =>
        program.head?.map fun step => (step.exec shiftedPlan.fid run.disk).isNone) =
      some true := by
    decide
  obtain ⟨run, hrun, hrecovery⟩ := bind_eq_some_iff.mp hfails
  obtain ⟨program, hprogram, hhead⟩ := bind_eq_some_iff.mp hrecovery
  obtain ⟨step, hstep, hnone⟩ := map_eq_some_iff.mp hhead
  obtain ⟨rest, hrest⟩ := List.head?_eq_some_iff.mp hstep
  refine ⟨by decide, start_shiftedPlan, { run with program := program },
    .tail (reach_of_steps 4 hrun) (.kill hprogram), hprogram, step, rest, hrest, ?_⟩
  exact isNone_iff_eq_none.mp hnone

end FerricStore.Store
