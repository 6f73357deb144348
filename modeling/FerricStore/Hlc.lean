import Mathlib

/-!
# The hybrid logical clock

One atomic word holds the clock: the milliseconds above, and a counter in the 16 bits below them.
`now` and `update` read it and publish a later value with a compare-and-swap, again and again until
one succeeds. However the calls interleave, and however the wall clock jumps, the timestamps that
`now` returns increase until the word is full.
-/

namespace FerricStore.Hlc

open Function

/-! ## Timestamps -/

def maxPacked : Nat := 2 ^ 64 - 1

def maxPhysicalMs : Nat := 2 ^ 48 - 1

/-- `pack`: the milliseconds and the counter in one word -/
def pack (timestamp : Nat × Nat) : Nat := timestamp.1 * 2 ^ 16 + timestamp.2

/-- `unpack` -/
def unpack (packed : Nat) : Nat × Nat := (packed / 2 ^ 16, packed % 2 ^ 16)

/-- `compare` of timestamps -/
def compare (t u : Nat × Nat) : Ordering :=
  if u.1 < t.1 then .gt
  else if t.1 < u.1 then .lt
  else if u.2 < t.2 then .gt
  else if t.2 < u.2 then .lt
  else .eq

/-- `merge_by_max` -/
def mergeByMax (maxPhys wall localPhys localLogical remotePhys remoteLog : Nat) : Nat × Nat :=
  if maxPhys = wall ∧ localPhys < wall ∧ remotePhys < wall then (wall, 0)
  else if localPhys = remotePhys then (localPhys, max localLogical remoteLog + 1)
  else if maxPhys = wall ∧ wall = localPhys then (localPhys, localLogical + 1)
  else if maxPhys = wall ∧ wall = remotePhys then (remotePhys, remoteLog + 1)
  else if maxPhys = localPhys then (localPhys, localLogical + 1)
  else if maxPhys = remotePhys then (remotePhys, remoteLog + 1)
  else (maxPhys, 0)

/-- `merge_timestamps` -/
def mergeTimestamps (wall : Nat) (current remote : Nat × Nat) : Nat × Nat :=
  mergeByMax (max wall (max current.1 remote.1)) wall current.1 current.2 remote.1 remote.2

/-- `normalize_remote_timestamp`, with the check of the milliseconds before it -/
def normalizeRemoteTimestamp (remote : Nat × Nat) : Option (Nat × Nat) :=
  if remote.1 ≤ maxPhysicalMs ∧ remote.2 ≤ maxPacked - remote.1 * 2 ^ 16 then
    some (unpack (pack remote))
  else none

/-! ## Calls -/

inductive Call
  | now
  | update (remote : Nat × Nat)

/-- Where a call is: before its read, before its compare-and-swap or at its end. `now` returns a
timestamp. -/
inductive Phase
  | reading
  | swapping (current target : Nat)
  | returned (timestamp : Option (Nat × Nat))

/-- What a call does with what it has read: `hlc_now_packed_with_wall` and `hlc_update_packed` -/
def Call.read (wall current : Nat) : Call → Phase
  | .now =>
    if current = maxPacked then .returned (some (unpack current))
    else .swapping current (max (pack (wall, 0)) (current + 1))
  | .update remote =>
    match normalizeRemoteTimestamp remote with
    | none => .returned none
    | some remote =>
      let target := pack (mergeTimestamps wall (unpack current) remote)
      if maxPacked < target then .returned none
      else if target ≤ current then .returned none
      else .swapping current target

/-- What a call returns after its compare-and-swap. -/
def Call.result (target : Nat) : Call → Option (Nat × Nat)
  | .now => some (unpack target)
  | .update _ => none

variable (call : Call)

/-- A step of a call: its read, or its compare-and-swap. -/
def Call.step (wall clock : Nat) : Phase → Phase × Nat
  | .reading => (call.read wall clock, clock)
  | .swapping current target =>
    if clock = current then (.returned (call.result target), target) else (.reading, clock)
  | .returned timestamp => (.returned timestamp, clock)

variable {ι : Type} [DecidableEq ι]

structure State (ι : Type) where
  clock : Nat
  phases : ι → Phase

def State.step (calls : ι → Call) (s : State ι) (event : ι × Nat) : State ι :=
  ⟨((calls event.1).step event.2 s.clock (s.phases event.1)).2,
    update s.phases event.1 ((calls event.1).step event.2 s.clock (s.phases event.1)).1⟩

/-- The calls in the order in which a schedule lets them take steps, with what the wall clock says
at each step. -/
def run (calls : ι → Call) (schedule : List (ι × Nat)) : State ι :=
  schedule.foldl (State.step calls) ⟨0, fun _ => .reading⟩

/-! ## One call -/

theorem pack_unpack (packed : Nat) : pack (unpack packed) = packed := by
  rw [pack, unpack]
  omega

/-- The order of the words is the order of the timestamps, also where the counter has overflowed. -/
theorem compare_eq_lt {t u : Nat × Nat} (h : pack t < pack u) (hu : u.2 < 2 ^ 16) :
    compare t u = .lt := by
  rw [pack, pack] at h
  rw [compare]
  split_ifs <;> first | rfl | omega

/-- What is in a phase is behind what the clock will be. -/
def Phase.Sound (clock : Nat) : Phase → Prop
  | .reading => True
  | .swapping current target => current < target ∧ target ≤ maxPacked ∧
      ∀ remote, call = .update remote → pack remote < target
  | .returned (some timestamp) => pack timestamp ≤ clock ∧ timestamp.2 < 2 ^ 16
  | .returned none => ∀ remote, call = .update remote → pack remote < maxPacked →
      pack remote < clock

theorem Phase.Sound.mono {call : Call} {clock clock' : Nat} {phase : Phase}
    (h : phase.Sound call clock) (hle : clock ≤ clock') : phase.Sound call clock' := by
  match phase, h with
  | .reading, h => exact h
  | .swapping _ _, h => exact h
  | .returned (some _), h => exact ⟨h.1.trans hle, h.2⟩
  | .returned none, h => exact fun remote hcall hmax => (h remote hcall hmax).trans_le hle

/-- A merge is after both of its timestamps, and no further than it has to be. -/
theorem pack_mergeTimestamps {wall clock remote target : Nat}
    (h : pack (mergeTimestamps wall (unpack clock) (unpack remote)) = target) :
    clock < target ∧ remote < target ∧
      (target ≤ clock + 1 ∨ target ≤ remote + 1 ∨ target ≤ pack (wall, 0)) := by
  rw [mergeTimestamps, mergeByMax] at h
  split_ifs at h <;> simp only [pack, unpack] at * <;> omega

theorem Call.read_sound {wall clock : Nat} (hwall : wall ≤ maxPhysicalMs)
    (hclock : clock ≤ maxPacked) : (call.read wall clock).Sound call clock := by
  have hbound : pack (wall, 0) ≤ maxPacked := by
    simp only [pack, maxPacked, maxPhysicalMs] at *
    omega
  cases call with
  | now =>
    rw [Call.read]
    split
    · exact ⟨(pack_unpack _).le, Nat.mod_lt _ (by decide)⟩
    · exact ⟨by omega, by omega, nofun⟩
  | update remote =>
    rw [Call.read, normalizeRemoteTimestamp]
    by_cases hvalid : remote.1 ≤ maxPhysicalMs ∧ remote.2 ≤ maxPacked - remote.1 * 2 ^ 16
    · rw [if_pos hvalid]
      dsimp only
      generalize htarget : pack (mergeTimestamps wall (unpack clock) (unpack (pack remote))) =
        target
      obtain ⟨hlocal, hremote, hclose⟩ := pack_mergeTimestamps htarget
      split_ifs with hfull
      · rintro other ⟨⟩ hmax
        omega
      · omega
      · refine ⟨hlocal, by omega, ?_⟩
        rintro other ⟨⟩
        exact hremote
    · rw [if_neg hvalid]
      rintro other ⟨⟩ hmax
      simp only [pack, maxPacked, maxPhysicalMs] at *
      omega

/-- A step of a call: the clock does not go back, and a timestamp that is returned is after it,
unless the word is full. -/
theorem Call.step_spec {wall clock clock' : Nat} {phase phase' : Phase}
    (hwall : wall ≤ maxPhysicalMs) (hclock : clock ≤ maxPacked) (h : phase.Sound call clock)
    (hstep : call.step wall clock phase = (phase', clock')) :
    clock ≤ clock' ∧ clock' ≤ maxPacked ∧ phase'.Sound call clock' ∧
      ∀ timestamp, phase' = .returned (some timestamp) →
        phase = phase' ∨ clock < pack timestamp ∨ pack timestamp = maxPacked := by
  cases phase with
  | reading =>
    cases hstep
    refine ⟨le_rfl, hclock, call.read_sound hwall hclock, fun timestamp hreturned => ?_⟩
    refine .inr (.inr ?_)
    cases call with
    | now =>
      rw [Call.read] at hreturned
      split at hreturned
      · rename_i hfull
        cases hreturned
        rw [pack_unpack, hfull]
      · cases hreturned
    | update remote =>
      rw [Call.read] at hreturned
      split at hreturned
      · cases hreturned
      · dsimp only at hreturned
        split_ifs at hreturned <;> cases hreturned
  | swapping current target =>
    obtain ⟨hlater, hmax, hremote⟩ := h
    rw [Call.step] at hstep
    split at hstep
    · rename_i hcurrent
      subst hcurrent
      cases hstep
      cases call with
      | now =>
        refine ⟨hlater.le, hmax, ⟨(pack_unpack _).le, Nat.mod_lt _ (by decide)⟩,
          fun timestamp hreturned => .inr (.inl ?_)⟩
        cases hreturned
        rw [pack_unpack]
        exact hlater
      | update remote =>
        exact ⟨hlater.le, hmax, fun other hcall _ => hremote other hcall, nofun⟩
    · cases hstep
      exact ⟨le_rfl, hclock, trivial, nofun⟩
  | returned timestamp =>
    cases hstep
    exact ⟨le_rfl, hclock, h, fun _ _ => .inl rfl⟩

/-! ## All calls -/

/-- The wall clock stays below 2^48 ms. -/
def Readable (schedule : List (ι × Nat)) : Prop := ∀ event ∈ schedule, event.2 ≤ maxPhysicalMs

structure State.Sound (calls : ι → Call) (s : State ι) : Prop where
  clock : s.clock ≤ maxPacked
  phases : ∀ i, (s.phases i).Sound (calls i) s.clock
  distinct : ∀ i j t u, s.phases i = .returned (some t) → s.phases j = .returned (some u) →
    pack t = pack u → i = j ∨ pack t = maxPacked

variable {calls : ι → Call}

omit [DecidableEq ι] in
theorem State.Sound.le_clock {s : State ι} (h : s.Sound calls) {i : ι} {t : Nat × Nat}
    (ht : s.phases i = .returned (some t)) : pack t ≤ s.clock ∧ t.2 < 2 ^ 16 := by
  have hphase := h.phases i
  rw [ht] at hphase
  exact hphase

/-- A timestamp that is new after a step is after the clock before it, unless the word is full. -/
theorem State.Sound.step {s : State ι} (h : s.Sound calls) {event : ι × Nat}
    (hwall : event.2 ≤ maxPhysicalMs) :
    s.clock ≤ (s.step calls event).clock ∧ (s.step calls event).Sound calls ∧
      ∀ i t, (s.step calls event).phases i = .returned (some t) →
        s.phases i = .returned (some t) ∨
          i = event.1 ∧ (s.clock < pack t ∨ pack t = maxPacked) := by
  obtain ⟨hlater, hmax, hsound, hreturns⟩ :=
    (calls event.1).step_spec hwall h.clock (h.phases event.1) rfl
  have hself : (s.step calls event).phases event.1 = _ := update_self ..
  have hother {i : ι} (hi : i ≠ event.1) : (s.step calls event).phases i = s.phases i :=
    update_of_ne hi ..
  have hnew (i : ι) (t : Nat × Nat) (ht : (s.step calls event).phases i = .returned (some t)) :
      s.phases i = .returned (some t) ∨ i = event.1 ∧ (s.clock < pack t ∨ pack t = maxPacked) := by
    by_cases hi : i = event.1
    · subst hi
      rw [hself] at ht
      exact (hreturns t ht).imp (fun hsame => hsame.trans ht) fun hafter => ⟨rfl, hafter⟩
    · rw [hother hi] at ht
      exact .inl ht
  refine ⟨hlater, ⟨hmax, fun i => ?_, fun i j t u ht hu hpack => ?_⟩, hnew⟩
  · by_cases hi : i = event.1
    · subst hi
      rw [hself]
      exact hsound
    · rw [hother hi]
      exact (h.phases i).mono hlater
  · -- At most one of two calls has taken the step.
    obtain ht' | ⟨hi, ht'⟩ := hnew i t ht <;> obtain hu' | ⟨hj, hu'⟩ := hnew j u hu
    · exact h.distinct i j t u ht' hu' hpack
    · have hbound := (h.le_clock ht').1
      omega
    · have hbound := (h.le_clock hu').1
      omega
    · exact .inl (hi.trans hj.symm)

theorem run_append_singleton (schedule : List (ι × Nat)) (event : ι × Nat) :
    run calls (schedule ++ [event]) = (run calls schedule).step calls event := by
  rw [run, List.foldl_append]
  rfl

variable (calls) in
theorem run_sound {schedule : List (ι × Nat)} (h : Readable schedule) :
    (run calls schedule).Sound calls := by
  induction schedule using List.reverseRecOn with
  | nil => exact ⟨Nat.zero_le _, fun _ => trivial, nofun⟩
  | append_singleton schedule event ih =>
    obtain ⟨hbefore, hevent⟩ := List.forall_mem_append.mp h
    rw [run_append_singleton]
    exact ((ih hbefore).step (hevent event (List.mem_singleton_self _))).2.1

variable (calls) in
/-- The clock does not go back, and a call that returns after a schedule returns a timestamp after
the clock of then, unless the word is full. -/
theorem run_later {first later : List (ι × Nat)} (h : Readable (first ++ later)) :
    (run calls first).clock ≤ (run calls (first ++ later)).clock ∧
      ∀ i t, (run calls (first ++ later)).phases i = .returned (some t) →
        (run calls first).phases i = .returned (some t) ∨
          (run calls first).clock < pack t ∨ pack t = maxPacked := by
  induction later using List.reverseRecOn with
  | nil =>
    rw [List.append_nil]
    exact ⟨le_rfl, fun i t ht => .inl ht⟩
  | append_singleton later event ih =>
    rw [← List.append_assoc] at h ⊢
    obtain ⟨hbefore, hevent⟩ := List.forall_mem_append.mp h
    obtain ⟨hclock, hreturns⟩ := ih hbefore
    obtain ⟨hnext, -, hnew⟩ :=
      (run_sound calls hbefore).step (hevent event (List.mem_singleton_self _))
    rw [run_append_singleton]
    refine ⟨hclock.trans hnext, fun i t ht => ?_⟩
    obtain hold | ⟨-, hlater⟩ := hnew i t ht
    · exact hreturns i t hold
    · exact .inr (hlater.imp_left hclock.trans_lt)

/-- However calls interleave, the clock does not go back and does not wrap. A call that returns
after others returns a later timestamp than theirs, and than what they merged, until the word is
full. -/
theorem timestamps_increase (calls : ι → Call) (first later : List (ι × Nat))
    (hwall : Readable (first ++ later)) :
    (run calls first).clock ≤ (run calls (first ++ later)).clock ∧
      (run calls (first ++ later)).clock ≤ maxPacked ∧
      (∀ i j t u, i ≠ j → (run calls first).phases i = .returned (some t) →
        (run calls first).phases j = .returned (some u) → t ≠ u ∨ pack t = maxPacked) ∧
      ∀ j u, (∀ result, (run calls first).phases j ≠ .returned result) →
        (run calls (first ++ later)).phases j = .returned (some u) →
        (∀ i t, (run calls first).phases i = .returned (some t) →
          compare t u = .lt ∨ pack t = maxPacked) ∧
        ∀ i remote, calls i = .update remote → (run calls first).phases i = .returned none →
          pack remote < maxPacked → compare remote u = .lt := by
  have hfirst := run_sound calls (List.forall_mem_append.mp hwall).1
  obtain ⟨hclock, hreturns⟩ := run_later calls hwall
  refine ⟨hclock, (run_sound calls hwall).clock, fun i j t u hne ht hu => ?_,
    fun j u hopen hu => ?_⟩
  · rw [ne_eq, ← imp_iff_not_or]
    rintro rfl
    exact (hfirst.distinct i j t t ht hu rfl).resolve_left hne
  · have hcounter := ((run_sound calls hwall).le_clock hu).2
    have hafter := (hreturns j u hu).resolve_left (hopen _)
    refine ⟨fun i t ht => ?_, fun i remote hcall hreturned hmax => ?_⟩
    · have hle := (hfirst.le_clock ht).1
      have hlater : pack t < pack u ∨ pack t = maxPacked := by
        have hmax := hfirst.clock
        omega
      exact hlater.imp_left (compare_eq_lt · hcounter)
    · have hmerged := hfirst.phases i
      rw [hreturned] at hmerged
      have hremote := hmerged remote hcall hmax
      refine compare_eq_lt ?_ hcounter
      obtain hlater | hfull := hafter
      · exact hremote.trans hlater
      · rw [hfull]
        exact hmax

/-- A merge by the first call, and two readings. -/
def threeCalls (remote : Nat × Nat) (i : Fin 3) : Call := if i = 0 then .update remote else .now

/-- After a merge with a clock that is ahead, a reading under an earlier wall clock is later than
what was merged. -/
theorem timestamps_increase_back :
    (run (threeCalls (9, 3)) ([(0, 5), (0, 5), (1, 7), (1, 7)] ++ [(2, 1), (2, 1)])).phases 2 =
        .returned (some (9, 6)) ∧
      compare (9, 3) (9, 6) = .lt := by
  refine ⟨rfl, ?_⟩
  exact ((timestamps_increase (threeCalls (9, 3)) [(0, 5), (0, 5), (1, 7), (1, 7)] [(2, 1), (2, 1)]
    (by simp [Readable, maxPhysicalMs])).2.2.2 2 (9, 6) nofun rfl).2 0 (9, 3) rfl rfl (by decide)

/-- After a merge just below the maximum, a reading that starts after another returns the same. -/
theorem timestamps_increase_full :
    let first : List (Fin 3 × Nat) := [(0, 0), (0, 0), (1, 0)]
    let calls := threeCalls (maxPhysicalMs, 2 ^ 16 - 2)
    pack (maxPhysicalMs, 2 ^ 16 - 2) < maxPacked ∧
      (run calls first).phases 0 = .returned none ∧
      (run calls first).phases 1 = .returned (some (unpack maxPacked)) ∧
      (run calls first).phases 2 = .reading ∧
      (run calls (first ++ [(2, 0)])).phases 2 = .returned (some (unpack maxPacked)) := by
  refine ⟨by decide, rfl, rfl, rfl, rfl⟩

end FerricStore.Hlc
