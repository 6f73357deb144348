import FerricStore.Lib.Bytes

/-!
# Concurrent updates of a governance record

`AtomicRecord.mutate` reads a record, applies its callbacks and writes the result with a
set-if-absent or a compare-and-set. When another call was faster it starts again, a bounded number
of times. Every interleaving of such calls has the effects and replies of some sequential order.
-/

namespace FerricStore.AtomicRecord

open Function List

/-! ## One call -/

variable (R T : Type)

/-- What `init` answers. -/
inductive Init where
  | returned (reply : T)
  | ok (record : R)
  | error (reason : T)

/-- What `mutate` answers. -/
inductive Mutated where
  | ok (updated : R)
  | okReply (updated : R) (reply : T)
  | error (reason : T)
  | errorRecord (reason : T) (updated : R)
  | returned (reply : T)

/-- What an encoder gives: a binary, another value or an exception. -/
inductive Encoded where
  | binary (bytes : Bytes)
  | invalid
  | raised

/-- The reply of a call. The errors of `AtomicRecord` itself have a message. -/
inductive Reply where
  | ok (updated : R)
  | okReply (reply : T)
  | error (reason : T)
  | failed (message : String)
  | returned (reply : T)
  deriving DecidableEq

/-- The callbacks and the retries of a call. -/
structure Call where
  decode : Bytes → Except T R
  encode : R → Encoded
  init : Init R T
  mutate : R → Mutated R T
  maxRetries : Nat := 16

/-- What a call does with what it read: it replies, writes and then replies, or raises. -/
inductive Attempt where
  | reply (reply : Reply R T)
  | write (encoded : Bytes) (reply : Reply R T)
  | raise

variable {ι R T : Type}

def maxEncodedBytes : Nat := 900000

/-- `encode_record` -/
def encodeRecord (encode : R → Encoded) (record : R) : Except String Bytes :=
  match encode record with
  | .binary encoded =>
    if encoded.length ≤ maxEncodedBytes then .ok encoded
    else .error "ERR governance record exceeds 900000-byte durable limit"
  | .invalid => .error "ERR governance record encoder returned an invalid value"
  | .raised => .error "ERR governance record encoder failed"

/-- `mutation_result`: the record to write and the reply. It has no clause for the last form. -/
def mutationResult : Mutated R T → Option (Option R × Reply R T)
  | .ok updated => some (some updated, .ok updated)
  | .okReply updated reply => some (some updated, .okReply reply)
  | .error reason => some (none, .error reason)
  | .errorRecord reason updated => some (some updated, .error reason)
  | .returned _ => none

namespace Call

/-- `create_record` and `update_record` up to the write -/
def prepare (call : Call R T) (record : R) : Attempt R T :=
  match mutationResult (call.mutate record) with
  | none => .raise
  | some (none, reply) => .reply reply
  | some (some updated, reply) =>
    match encodeRecord call.encode updated with
    | .ok encoded => .write encoded reply
    | .error message => .reply (.failed message)

/-- `do_mutate` up to the write -/
def attempt (call : Call R T) : Option Bytes → Attempt R T
  | none =>
    match call.init with
    | .returned reply => .reply (.returned reply)
    | .ok record => call.prepare record
    | .error reason => .reply (.error reason)
  | some value =>
    match call.decode value with
    | .ok record => call.prepare record
    | .error reason => .reply (.error reason)

/-- A call by itself: its callbacks are applied once to the record. -/
def once (call : Call R T) (stored : Option Bytes) : Option (Reply R T) × Option Bytes :=
  match call.attempt stored with
  | .reply reply => (some reply, stored)
  | .write encoded reply => (some reply, some encoded)
  | .raise => (none, stored)

end Call

/-! ## Concurrent calls -/

/-- Where a call is. A write knows what was read and the retries that are left if it fails. -/
inductive Phase (R T : Type) where
  | reading (retriesLeft : Nat)
  | writing (expected : Option Bytes) (encoded : Bytes) (reply : Reply R T) (retriesLeft : Nat)
  | replied (reply : Reply R T)
  | conflict
  | raised

/-- If a write is made: `Router.set` with `nx` for a missing record, and `Router.cas` for a record
that was read. -/
def Writes : Option Bytes → Option Bytes → Bool
  | none, none => true
  | none, some _ => false
  | some expected, some value => decide (value = expected)
  | some _, none => false

/-- The record under the key, and the calls on it. -/
structure State (ι R T : Type) where
  stored : Option Bytes
  phases : ι → Phase R T

/-- A step of a call: a read with the callbacks, or a write. -/
def Call.step (call : Call R T) (stored : Option Bytes) : Phase R T → Phase R T × Option Bytes
  | .reading 0 => (.conflict, stored)
  | .reading (retriesLeft + 1) =>
    match call.attempt stored with
    | .reply reply => (.replied reply, stored)
    | .write encoded reply => (.writing stored encoded reply retriesLeft, stored)
    | .raise => (.raised, stored)
  | .writing expected encoded reply retriesLeft =>
    if Writes expected stored then (.replied reply, some encoded)
    else (.reading retriesLeft, stored)
  | phase => (phase, stored)

variable [DecidableEq ι] (calls : ι → Call R T)

def State.step (s : State ι R T) (i : ι) : State ι R T :=
  ⟨((calls i).step s.stored (s.phases i)).2,
    update s.phases i ((calls i).step s.stored (s.phases i)).1⟩

variable (stored : Option Bytes)

/-- Calls on a record in the order in which a schedule lets them take steps. -/
def run (schedule : List ι) : State ι R T :=
  schedule.foldl (State.step calls) ⟨stored, fun i => .reading (calls i).maxRetries⟩

/-- The reply of a call, once there is one. -/
def Phase.reply : Phase R T → Option (Reply R T)
  | .replied reply => some reply
  | _ => none

/-- Calls one after another: the record and the replies. -/
def serial (order : List ι) : Option Bytes × (ι → Option (Reply R T)) :=
  order.foldl (fun s i => (((calls i).once s.1).2, update s.2 i ((calls i).once s.1).1))
    (stored, fun _ => none)

/-- The calls that replied have the effects and replies of a sequential order. -/
structure Serialized (s : State ι R T) (order : List ι) : Prop where
  nodup : order.Nodup
  mem : ∀ i, i ∈ order ↔ (s.phases i).reply.isSome
  view : serial calls stored order = (s.stored, fun i => (s.phases i).reply)

/-- What a write knows is what its call computes from what it read. -/
def Phase.Prepared (call : Call R T) : Phase R T → Prop
  | .writing expected encoded reply _ => call.attempt expected = .write encoded reply
  | _ => True

/-! ## Serializability -/

theorem writes_iff {expected stored : Option Bytes} :
    Writes expected stored ↔ stored = expected := by
  cases expected <;> cases stored <;> simp [Writes]

variable {call : Call R T}

section Step

variable {calls stored} {s : State ι R T} {order : List ι}

theorem reply_update (phases : ι → Phase R T) (i : ι) (phase : Phase R T) :
    (fun j => (update phases i phase j).reply) = update (fun j => (phases j).reply) i phase.reply :=
  comp_update Phase.reply phases i phase

/-- A step of a call is nothing to the sequential order, or it is the whole call. -/
theorem Call.step_cases {phase : Phase R T} (hp : phase.Prepared call) (stored : Option Bytes) :
    (call.step stored phase).1.Prepared call ∧
      ((call.step stored phase).1.reply = phase.reply ∧ (call.step stored phase).2 = stored ∨
        phase.reply = none ∧ (call.step stored phase).1.reply.isSome ∧
          call.once stored = ((call.step stored phase).1.reply, (call.step stored phase).2)) := by
  cases phase with
  | reading retriesLeft =>
    cases retriesLeft with
    | zero => exact ⟨trivial, .inl ⟨rfl, rfl⟩⟩
    | succ retriesLeft =>
      rw [Call.step, Call.once]
      cases hattempt : call.attempt stored with
      | reply reply => exact ⟨trivial, .inr ⟨rfl, rfl, rfl⟩⟩
      | write encoded reply => exact ⟨hattempt, .inl ⟨rfl, rfl⟩⟩
      | raise => exact ⟨trivial, .inl ⟨rfl, rfl⟩⟩
  | writing expected encoded reply retriesLeft =>
    have hattempt : call.attempt expected = .write encoded reply := hp
    rw [Call.step, Call.once]
    split
    · -- what was read is still there, so that the call could have read it now
      rename_i hwrites
      rw [writes_iff.mp hwrites, hattempt]
      exact ⟨trivial, .inr ⟨rfl, rfl, rfl⟩⟩
    · exact ⟨trivial, .inl ⟨rfl, rfl⟩⟩
  | replied reply | conflict | raised => exact ⟨trivial, .inl ⟨rfl, rfl⟩⟩

/-- A step keeps a sequential order, or adds its call to it. -/
theorem Serialized.step (h : Serialized calls stored s order) {i : ι}
    (hp : (s.phases i).Prepared (calls i)) :
    ∃ order', Serialized calls stored (s.step calls i) order' := by
  rcases (Call.step_cases hp s.stored).2 with ⟨hreply, hstored⟩ | ⟨hopen, hreply, honce⟩
  · have hview : (fun j => ((s.step calls i).phases j).reply) = fun j => (s.phases j).reply := by
      rw [State.step, reply_update, hreply]
      exact update_eq_self i _
    refine ⟨order, h.nodup, fun j => ?_, ?_⟩
    · rw [congrFun hview j]
      exact h.mem j
    · rw [h.view, hview, State.step, hstored]
  · have hnew : i ∉ order := by simp [h.mem, hopen]
    refine ⟨order ++ [i], by simpa using h.nodup.concat hnew, fun j => ?_, ?_⟩
    · rw [State.step, congrFun (reply_update ..) j, mem_append, h.mem, mem_singleton]
      by_cases heq : j = i
      · subst heq
        simpa using hreply
      · simp [heq]
    · rw [serial, foldl_append, ← serial, h.view]
      simp [honce, State.step, reply_update]

end Step

/-! ## Calls return -/

/-- The steps that a call can still take. -/
def Phase.work : Phase R T → Nat
  | .reading retriesLeft => 2 * retriesLeft + 1
  | .writing _ _ _ retriesLeft => 2 * retriesLeft + 2
  | _ => 0

theorem Call.work_step (call : Call R T) (stored : Option Bytes) (phase : Phase R T) :
    (call.step stored phase).1.work ≤ phase.work - 1 := by
  cases phase with
  | reading retriesLeft =>
    cases retriesLeft with
    | zero => exact le_rfl
    | succ retriesLeft =>
      rw [Call.step]
      split <;> simp only [Phase.work] <;> omega
  | writing expected encoded reply retriesLeft =>
    rw [Call.step]
    split <;> simp [Phase.work]
  | replied reply | conflict | raised => exact le_rfl

/-- The record that the callback `mutate` is given for what was read. -/
def Call.record (call : Call R T) : Option Bytes → Option R
  | none =>
    match call.init with
    | .ok record => some record
    | _ => none
  | some value =>
    match call.decode value with
    | .ok record => some record
    | .error _ => none

/-- What was read gives a record that `mutate` answers with `{:return, reply}`, for which
`mutation_result` has no clause. -/
def Call.Gap (call : Call R T) (stored : Option Bytes) : Prop :=
  ∃ record reply, call.record stored = some record ∧ call.mutate record = .returned reply

theorem Call.prepare_eq_raise_iff {record : R} :
    call.prepare record = .raise ↔ ∃ reply, call.mutate record = .returned reply := by
  unfold prepare
  cases call.mutate record <;> simp [mutationResult] <;> split <;> simp

theorem Call.attempt_eq_raise_iff {stored : Option Bytes} :
    call.attempt stored = .raise ↔ call.Gap stored := by
  unfold attempt Gap Call.record
  cases stored with
  | none => cases call.init <;> simp [prepare_eq_raise_iff]
  | some value =>
    dsimp only
    cases call.decode value <;> simp [prepare_eq_raise_iff]

/-- A step raises when it reads a gap, and in no other way. -/
theorem Call.step_eq_raised_iff {stored : Option Bytes} {phase : Phase R T} :
    (call.step stored phase).1 = .raised ↔
      phase = .raised ∨ ∃ retriesLeft, phase = .reading (retriesLeft + 1) ∧ call.Gap stored := by
  rw [← attempt_eq_raise_iff]
  cases phase with
  | reading retriesLeft =>
    cases retriesLeft with
    | zero => simp [Call.step]
    | succ retriesLeft =>
      rw [Call.step]
      split <;> simp_all
  | writing expected encoded reply retriesLeft =>
    rw [Call.step]
    split <;> simp
  | replied reply | conflict | raised => simp [Call.step]

/-- In a run a call reads a gap. -/
def ReadsGap (schedule : List ι) (i : ι) : Prop :=
  ∃ before after retriesLeft, schedule = before ++ i :: after ∧
    (run calls stored before).phases i = .reading (retriesLeft + 1) ∧
    (calls i).Gap (run calls stored before).stored

theorem readsGap_concat {schedule : List ι} {i j : ι} :
    ReadsGap calls stored (schedule ++ [j]) i ↔ ReadsGap calls stored schedule i ∨
      j = i ∧ ∃ retriesLeft, (run calls stored schedule).phases i = .reading (retriesLeft + 1) ∧
        (calls i).Gap (run calls stored schedule).stored := by
  constructor
  · rintro ⟨before, after, retriesLeft, hsplit, hphase, hgap⟩
    rcases eq_nil_or_concat after with rfl | ⟨after, last, rfl⟩
    · obtain ⟨rfl, heq⟩ := append_inj' hsplit rfl
      exact .inr ⟨(cons.inj heq).1, retriesLeft, hphase, hgap⟩
    · rw [concat_eq_append, ← cons_append, ← append_assoc] at hsplit
      exact .inl ⟨before, after, retriesLeft, (append_inj' hsplit rfl).1, hphase, hgap⟩
  · rintro (⟨before, after, retriesLeft, rfl, hphase, hgap⟩ | ⟨rfl, retriesLeft, hphase, hgap⟩)
    · exact ⟨before, after ++ [j], retriesLeft, by simp, hphase, hgap⟩
    · exact ⟨schedule, [], retriesLeft, rfl, hphase, hgap⟩

/-- The calls that raise are those that read a gap, by induction on the schedule. -/
theorem run_raised_iff (schedule : List ι) (i : ι) :
    (run calls stored schedule).phases i = .raised ↔ ReadsGap calls stored schedule i := by
  induction schedule using List.reverseRecOn with
  | nil =>
    refine iff_of_false nofun ?_
    rintro ⟨before, after, _, hsplit, -⟩
    exact absurd hsplit (by simp)
  | append_singleton schedule j ih =>
    rw [readsGap_concat, ← ih, run, foldl_append, foldl_cons, foldl_nil, ← run, State.step]
    by_cases heq : j = i
    · subst heq
      simp [Call.step_eq_raised_iff]
    · simp [update_of_ne (Ne.symm heq), heq]

/-- What holds of a call after each of its steps holds in a run. -/
theorem run_phase {i : ι} {P : Nat → Phase R T → Prop}
    (hstart : P 0 (.reading (calls i).maxRetries))
    (hstep : ∀ stored count phase, P count phase →
      P (count + 1) ((calls i).step stored phase).1) (stored : Option Bytes) (schedule : List ι) :
    P (schedule.count i) ((run calls stored schedule).phases i) := by
  induction schedule using List.reverseRecOn with
  | nil => exact hstart
  | append_singleton schedule j ih =>
    rw [run, foldl_append, foldl_cons, foldl_nil, ← run, State.step, count_append, count_singleton]
    by_cases heq : j = i
    · subst heq
      simpa using hstep _ _ _ ih
    · simpa [heq, update_of_ne (Ne.symm heq)] using ih

/-- The calls on a record that reply have the effects and replies of a sequential order. A call raises
if and only if it reads a record in the run to which its callback answers `{:return, reply}`; every
other call that takes its steps replies, or reports a conflict after its last retry. -/
theorem mutate_serializable (calls : ι → Call R T) (stored : Option Bytes) (schedule : List ι) :
    (∃ order, Serialized calls stored (run calls stored schedule) order) ∧
      ∀ i, ((run calls stored schedule).phases i = .raised ↔ ReadsGap calls stored schedule i) ∧
        (2 * (calls i).maxRetries + 1 ≤ schedule.count i →
          ((∃ reply, (run calls stored schedule).phases i = .replied reply) ∨
            (run calls stored schedule).phases i = .conflict ↔
              ¬ ReadsGap calls stored schedule i)) := by
  constructor
  · induction schedule using List.reverseRecOn with
    | nil => exact ⟨[], nodup_nil, by simp [run, Phase.reply], rfl⟩
    | append_singleton schedule i ih =>
      obtain ⟨order, hserialized⟩ := ih
      have hprepared := run_phase calls (i := i) (P := fun _ => Phase.Prepared (calls i)) trivial
        (fun stored _ _ hphase => (Call.step_cases hphase stored).1) stored schedule
      rw [run, foldl_append]
      exact hserialized.step hprepared
  · refine fun i => ⟨run_raised_iff calls stored schedule i, fun hcount => ?_⟩
    rw [← run_raised_iff]
    have hwork := run_phase calls (i := i)
      (P := fun count phase => phase.work ≤ 2 * (calls i).maxRetries + 1 - count) le_rfl
      (fun stored count phase hphase => ((calls i).work_step stored phase).trans (by omega))
      stored schedule
    cases hphase : (run calls stored schedule).phases i with
    | reading retriesLeft | writing expected encoded reply retriesLeft =>
      rw [hphase, Phase.work] at hwork
      omega
    | replied reply | conflict | raised => simp

/-- A call that appends a byte to the record, and leaves a record of two bytes alone. -/
def appends (byte : UInt8) : Call Bytes Unit where
  decode := .ok
  encode := .binary
  init := .ok []
  mutate record := if record.length = 2 then .returned () else .ok (record ++ [byte])
  maxRetries := 1

/-- Two calls on a missing record, neither of which reads two bytes: one replies, and the other
reports a conflict. -/
theorem mutate_serializable_pair :
    let calls := fun first : Bool => if first then appends 1 else appends 2
    let schedule := [true, false, true, false, false, true]
    (run calls none schedule).stored = some [1] ∧ ¬ ReadsGap calls none schedule false ∧
      ((∃ reply, (run calls none schedule).phases false = .replied reply) ∨
        (run calls none schedule).phases false = .conflict) := by
  intro calls schedule
  have hgap : ¬ ReadsGap calls none schedule false := by
    rintro ⟨before, after, _, hsplit, -, record, reply, hrecord, hmutate⟩
    have hbefore : before = schedule.take before.length := by rw [hsplit, take_left]
    have hlength : before.length < 6 := by
      have := congrArg List.length hsplit
      rw [length_append, length_cons] at this
      simp only [length_cons, length_nil] at this
      omega
    -- the record that was read has no byte or one
    rw [hbefore] at hrecord
    generalize before.length = n at hrecord hlength
    interval_cases n <;> (cases hrecord; cases hmutate)
  exact ⟨rfl, hgap, (((mutate_serializable calls none schedule).2 false).2 (by decide)).mpr hgap⟩

/-- A call that reads two bytes raises, as `record_success` does with a circuit that stays the
same. -/
theorem mutate_returned_raises :
    (run (fun _ : Unit => appends 1) (some [1, 2]) (replicate 3 ())).phases () = .raised := rfl

end FerricStore.AtomicRecord
