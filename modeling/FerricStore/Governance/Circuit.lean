import FerricStore.Lib.Bytes

/-!
# Circuit breaker records

The circuit record of a governance scope, the transitions that failures, successes, probes and manual
commands make on it, and the check that a stored record has to pass when it is read. `Sane` is what
the transitions keep at a time: everything that the check asks for except that a half-open circuit
has fewer successes than it needs, which a changed threshold can break.
-/

namespace FerricStore.Governance

open Option List

/-- `@max_exact_integer` -/
def maxExactInteger : Nat := 9007199254740991

/-- `@max_events` -/
def maxEvents : Nat := 64

/-- The states of a circuit. -/
inductive CircuitStatus where
  | closed
  | opened
  | halfOpen
  deriving DecidableEq, Repr

/-- The kinds of events that a circuit keeps. -/
inductive EventKind where
  | halfOpenProbe
  | ignoredFailure
  | failure
  | slowCall
  | success
  | opened
  | manualOpen
  | closed
  | manualClose
  deriving DecidableEq, Repr

/-- An event of the circuit, newest first in the record. -/
structure CircuitEvent where
  atMs : Nat
  kind : EventKind
  status : CircuitStatus
  failures : Nat
  counted : Bool
  latencyMs : Option Nat
  errorClass : Option Bytes
  deriving DecidableEq, Repr

/-- `%Circuit{}` -/
structure Circuit where
  scope : Bytes
  failureThreshold : Nat
  openMs : Nat
  openedAtMs : Option Nat
  windowMs : Option Nat
  minCalls : Option Nat
  failureRatePct : Option Nat
  latencyThresholdMs : Option Nat
  errorClasses : List Bytes
  halfOpenMaxProbes : Nat
  halfOpenSuccessThreshold : Nat
  halfOpenInFlight : Nat
  halfOpenSuccesses : Nat
  halfOpenStartedAtMs : Option Nat
  lastFailureMs : Option Nat
  lastSuccessMs : Option Nat
  updatedAtMs : Option Nat
  events : List CircuitEvent
  status : CircuitStatus
  failures : Nat
  deriving DecidableEq, Repr

/-- The rule options that the store has admitted; an option that is not given is `none`. -/
structure RuleOpts where
  openMs : Option Nat
  failureThreshold : Option Nat
  windowMs : Option Nat
  minCalls : Option Nat
  failureRatePct : Option Nat
  latencyThresholdMs : Option Nat
  errorClasses : Option (List Bytes)
  halfOpenMaxProbes : Option Nat
  halfOpenSuccessThreshold : Option Nat
  latencyMs : Option Nat
  errorClass : Option Bytes
  deriving DecidableEq, Repr

/-- The url-safe Base64 of a SHA-256 digest, without padding. -/
structure Digest where
  encode : Bytes → Bytes
  length_encode : ∀ value, (encode value).length = 43

namespace Circuit

/-! ## Transitions -/

/-- `Circuit.new` -/
def new (scope : Bytes) (opts : RuleOpts) : Circuit where
  scope := scope
  failureThreshold := opts.failureThreshold.getD 5
  openMs := opts.openMs.getD 30000
  openedAtMs := none
  windowMs := opts.windowMs
  minCalls := opts.minCalls
  failureRatePct := opts.failureRatePct
  latencyThresholdMs := opts.latencyThresholdMs
  errorClasses := opts.errorClasses.getD []
  halfOpenMaxProbes := opts.halfOpenMaxProbes.getD 1
  halfOpenSuccessThreshold := opts.halfOpenSuccessThreshold.getD 1
  halfOpenInFlight := 0
  halfOpenSuccesses := 0
  halfOpenStartedAtMs := none
  lastFailureMs := none
  lastSuccessMs := none
  updatedAtMs := none
  events := []
  status := .closed
  failures := 0

/-- `maybe_put_positive`, over a field that always has a value -/
def maybePutPositive (current : Nat) (value : Option Nat) : Nat :=
  match value with
  | none => current
  | some value => if 0 < value then value else current

/-- `maybe_put_positive`, over a field that may be missing -/
def maybePutPositiveOpt (current value : Option Nat) : Option Nat :=
  match value with
  | none => current
  | some value => if 0 < value then some value else current

/-- `maybe_put_percent` -/
def maybePutPercent (current value : Option Nat) : Option Nat :=
  match value with
  | none => current
  | some value => if 1 ≤ value ∧ value ≤ 100 then some value else current

variable (c : Circuit)

/-- `Circuit.configure` -/
def configure (opts : RuleOpts) : Circuit :=
  { c with
    failureThreshold := maybePutPositive c.failureThreshold opts.failureThreshold
    openMs := maybePutPositive c.openMs opts.openMs
    windowMs := maybePutPositiveOpt c.windowMs opts.windowMs
    minCalls := maybePutPositiveOpt c.minCalls opts.minCalls
    failureRatePct := maybePutPercent c.failureRatePct opts.failureRatePct
    latencyThresholdMs := maybePutPositiveOpt c.latencyThresholdMs opts.latencyThresholdMs
    errorClasses := opts.errorClasses.getD c.errorClasses
    halfOpenMaxProbes := maybePutPositive c.halfOpenMaxProbes opts.halfOpenMaxProbes
    halfOpenSuccessThreshold :=
      maybePutPositive c.halfOpenSuccessThreshold opts.halfOpenSuccessThreshold }

variable (events : List CircuitEvent)

/-- `trim_window` and `recent_events`: the events that are not older than the window. -/
def recentEvents (c : Circuit) (nowMs : Nat) : List CircuitEvent :=
  match c.windowMs with
  | some windowMs => events.filter fun event => nowMs - event.atMs ≤ windowMs
  | none => events

variable (nowMs : Nat)

/-- `append_event` -/
def appendEvent (kind : EventKind) (counted : Bool)
    (latencyMs : Option Nat) (errorClass : Option Bytes) : Circuit :=
  let event : CircuitEvent := ⟨nowMs, kind, c.status, c.failures, counted, latencyMs, errorClass⟩
  { c with events := recentEvents ((event :: c.events).take maxEvents) c nowMs }

/-- `probe_due?` -/
def probeDue : Bool :=
  match c.status, c.openedAtMs with
  | .opened, some openedAtMs => decide (openedAtMs + c.openMs ≤ nowMs)
  | _, _ => false

/-- `probe_available?` -/
def probeAvailable : Bool :=
  match c.status with
  | .opened => c.probeDue nowMs
  | .halfOpen => decide (c.halfOpenInFlight < c.halfOpenMaxProbes)
  | .closed => false

/-- `allow?`: whether a call is let through. -/
def allow : Bool :=
  match c.status with
  | .opened => c.probeDue nowMs
  | .halfOpen => false
  | .closed => true

/-- `claim_probe`; a closed circuit has no clause and is left alone here. -/
def claimProbe : Circuit :=
  match c.status with
  | .opened =>
    { c with
      status := .halfOpen
      halfOpenStartedAtMs := some nowMs
      halfOpenInFlight := 1
      halfOpenSuccesses := 0
      updatedAtMs := some nowMs }.appendEvent nowMs .halfOpenProbe false none none
  | .halfOpen =>
    if c.probeAvailable nowMs then
      { c with
        halfOpenInFlight := c.halfOpenInFlight + 1
        updatedAtMs := some nowMs }.appendEvent nowMs .halfOpenProbe false none none
    else c
  | .closed => c

/-- `decrement_probe` -/
def decrementProbe : Circuit :=
  match c.status with
  | .halfOpen => { c with halfOpenInFlight := c.halfOpenInFlight - 1 }
  | _ => c

/-- `release_probe` -/
def releaseProbe : Circuit :=
  if c.status = .halfOpen ∧ 0 < c.halfOpenInFlight then
    { c.decrementProbe with updatedAtMs := some nowMs }
  else c

/-- `open` -/
def openCircuit : Circuit :=
  { c with
    status := .opened
    openedAtMs := some nowMs
    halfOpenInFlight := 0
    halfOpenSuccesses := 0
    halfOpenStartedAtMs := none
    updatedAtMs := some nowMs }.appendEvent nowMs .opened false none none

/-- `close` -/
def closeCircuit : Circuit :=
  { c with
    status := .closed
    failures := 0
    openedAtMs := none
    halfOpenInFlight := 0
    halfOpenSuccesses := 0
    halfOpenStartedAtMs := none
    lastSuccessMs := some nowMs
    updatedAtMs := some nowMs }.appendEvent nowMs .closed false none none

/-- `record_manual_open` -/
def recordManualOpen : Circuit :=
  (c.openCircuit nowMs).appendEvent nowMs .manualOpen false none none

/-- `record_manual_close` -/
def recordManualClose : Circuit :=
  (c.closeCircuit nowMs).appendEvent nowMs .manualClose false none none

/-- `events_since_reset` -/
def eventsSinceReset : List CircuitEvent :=
  events.takeWhile fun event => event.kind ≠ .closed ∧ event.kind ≠ .manualClose

variable (event : CircuitEvent)

/-- `failure_event?` -/
def failureEvent : Bool :=
  event.counted && (event.kind = .failure || event.kind = .slowCall)

/-- `counted_call?` -/
def countedCall : Bool :=
  event.counted && (event.kind = .failure || event.kind = .success || event.kind = .slowCall)

/-- `count_recent_failures` -/
def countRecentFailures : Nat :=
  (recentEvents (eventsSinceReset c.events) c nowMs).countP failureEvent

/-- `count_recent_calls` -/
def countRecentCalls : Nat :=
  (recentEvents (eventsSinceReset c.events) c nowMs).countP countedCall

/-- `rate_exceeded?` -/
def rateExceeded (failures total : Nat) : Bool :=
  match c.failureRatePct with
  | none => false
  | some pct =>
    decide (c.minCalls.getD c.failureThreshold ≤ total) && decide (pct * total ≤ failures * 100)

/-- Open when the failures or their rate have reached the threshold. -/
def openIfExceeded (failures total nowMs : Nat) : Circuit :=
  if c.failureThreshold ≤ failures ∨ c.rateExceeded failures total = true then c.openCircuit nowMs
  else c

/-- `after_failure` -/
def afterFailure : Circuit :=
  match c.status with
  | .halfOpen => c.openCircuit nowMs
  | _ =>
    let failures := c.countRecentFailures nowMs
    let total := c.countRecentCalls nowMs
    { c with
      failures := failures
      lastFailureMs := some nowMs
      updatedAtMs := some nowMs }.openIfExceeded failures total nowMs

/-- `ignored_error_class?` -/
def ignoredErrorClass (errorClass : Option Bytes) : Bool :=
  match c.errorClasses, errorClass with
  | [], _ => false
  | _, none => true
  | classes, some errorClass => !classes.contains errorClass

/-- `slow_call?` -/
def slowCall (latencyMs : Option Nat) : Bool :=
  match c.latencyThresholdMs, latencyMs with
  | some threshold, some latencyMs => decide (threshold ≤ latencyMs)
  | _, _ => false

/-- The text `sha256:` -/
def digestTag : Bytes := [115, 104, 97, 50, 53, 54, 58]

/-- `normalize_error_class` -/
def normalizeErrorClass (digest : Digest) : Option Bytes → Option Bytes
  | none => none
  | some value => if value.length ≤ 256 then some value else some (digestTag ++ digest.encode value)

/-- `Circuit.record_failure` -/
def recordFailure (digest : Digest) (c : Circuit) (nowMs : Nat) (latencyMs : Option Nat)
    (errorClass : Option Bytes) : Circuit :=
  let errorClass := normalizeErrorClass digest errorClass
  if c.ignoredErrorClass errorClass then
    { c.decrementProbe with updatedAtMs := some nowMs }.appendEvent nowMs .ignoredFailure false
      latencyMs errorClass
  else
    (c.decrementProbe.appendEvent nowMs .failure true latencyMs errorClass).afterFailure nowMs

/-- `do_record_success` -/
def doRecordSuccess (latencyMs : Option Nat) : Circuit :=
  match c.status with
  | .halfOpen =>
    let c' := { c.decrementProbe with
      halfOpenSuccesses := c.halfOpenSuccesses + 1 }.appendEvent nowMs .success true latencyMs none
    if c'.halfOpenSuccessThreshold ≤ c'.halfOpenSuccesses then c'.closeCircuit nowMs
    else { c' with lastSuccessMs := some nowMs, updatedAtMs := some nowMs }
  | .opened => c
  | .closed =>
    if c.failureRatePct = none then
      if c.failures = 0 then c else c.closeCircuit nowMs
    else
      let c' := { c.appendEvent nowMs .success true latencyMs none with
        lastSuccessMs := some nowMs
        updatedAtMs := some nowMs }
      let failures := c'.countRecentFailures nowMs
      let total := c'.countRecentCalls nowMs
      { c' with failures := failures }.openIfExceeded failures total nowMs

/-- `Circuit.record_success` -/
def recordSuccess (latencyMs : Option Nat) : Circuit :=
  if c.slowCall latencyMs then
    (c.decrementProbe.appendEvent nowMs .slowCall true latencyMs none).afterFailure nowMs
  else c.doRecordSuccess nowMs latencyMs

/-! ## The check of a stored record -/

/-- `positive_integer?` -/
def PositiveInteger (n : Nat) : Prop := 0 < n ∧ n ≤ maxExactInteger

/-- `optional_positive_integer?` -/
def OptionalPositive (n : Option Nat) : Prop := ∀ value ∈ n, PositiveInteger value

/-- `optional_non_negative_integer?` -/
def OptionalInteger (n : Option Nat) : Prop := ∀ value ∈ n, value ≤ maxExactInteger

/-- `valid_percentage?` -/
def ValidPercentage (n : Option Nat) : Prop := ∀ value ∈ n, 1 ≤ value ∧ value ≤ 100

/-- The check of an error class, of the list or of an event. -/
def ValidErrorClass (value : Bytes) : Prop := value ≠ [] ∧ value.length ≤ 256

/-- `valid_string_list?` -/
def ValidStringList (values : List Bytes) : Prop :=
  values.length ≤ 1000 ∧ ∀ value ∈ values, ValidErrorClass value

/-- `valid_event?` -/
def ValidEvent : Prop :=
  event.atMs ≤ maxExactInteger ∧ event.failures ≤ maxExactInteger ∧
    OptionalInteger event.latencyMs ∧ ∀ value ∈ event.errorClass, ValidErrorClass value

/-- `valid_events?` -/
def ValidEvents : Prop :=
  events.length ≤ maxEvents ∧ ∀ event ∈ events, ValidEvent event

/-- `valid_opened_at?` -/
def ValidOpenedAt : Prop :=
  c.status = .closed ∧ c.openedAtMs = none ∨
    c.status ≠ .closed ∧ ∃ openedAtMs ∈ c.openedAtMs, openedAtMs ≤ maxExactInteger

/-- `valid_probe_state?` -/
def ValidProbeState : Prop :=
  c.status ≠ .halfOpen ∧ c.halfOpenInFlight = 0 ∧ c.halfOpenSuccesses = 0 ∧
      c.halfOpenStartedAtMs = none ∨
    c.status = .halfOpen ∧
      (∃ startedAtMs ∈ c.halfOpenStartedAtMs, ∀ openedAtMs ∈ c.openedAtMs,
        openedAtMs ≤ startedAtMs) ∧ c.halfOpenSuccesses < c.halfOpenSuccessThreshold

/-- `timestamp_not_after?` -/
def NotAfter (timestamp : Option Nat) (updatedAtMs : Nat) : Prop :=
  ∀ value ∈ timestamp, value ≤ updatedAtMs

/-- `events_not_after?` -/
def EventsNotAfter : List CircuitEvent → Nat → Prop
  | [], _ => True
  | event :: rest, latest => event.atMs ≤ latest ∧ EventsNotAfter rest event.atMs

/-- `valid_temporal_state?` -/
def ValidTemporalState : Prop :=
  c.updatedAtMs = none ∧ c.openedAtMs = none ∧ c.halfOpenStartedAtMs = none ∧
      c.lastFailureMs = none ∧ c.lastSuccessMs = none ∧ c.events = [] ∨
    ∃ updatedAtMs ∈ c.updatedAtMs, NotAfter c.openedAtMs updatedAtMs ∧
      NotAfter c.halfOpenStartedAtMs updatedAtMs ∧ NotAfter c.lastFailureMs updatedAtMs ∧
      NotAfter c.lastSuccessMs updatedAtMs ∧ EventsNotAfter c.events updatedAtMs

/-- The bytes of a non-negative integer in the external term format. -/
def integerSize (n : Nat) : Nat :=
  if n < 256 then 2 else if n < 2 ^ 31 then 5 else 3 + (n.size + 7) / 8

/-- The bytes of a value that may be `nil`. -/
def optionalSize {α : Type} (size : α → Nat) : Option α → Nat
  | none => 5
  | some value => size value

/-- The bytes of a binary. -/
def binarySize (value : Bytes) : Nat := 5 + value.length

/-- The bytes of a list. -/
def listSize {α : Type} (size : α → Nat) : List α → Nat
  | [] => 1
  | values => 6 + (values.map size).sum

/-- The bytes of the atom of a status. -/
def statusSize : CircuitStatus → Nat
  | .closed => 8
  | .opened => 6
  | .halfOpen => 11

/-- The bytes of the atom of a kind. -/
def kindSize : EventKind → Nat
  | .halfOpenProbe => 17
  | .ignoredFailure => 17
  | .failure => 9
  | .slowCall => 11
  | .success => 9
  | .opened => 8
  | .manualOpen => 13
  | .closed => 8
  | .manualClose => 14

/-- The bytes of an event: a map with five keys (40 bytes) and at most two more (12 and 13 bytes). -/
def eventSize : Nat :=
  5 + 40 + integerSize event.atMs + kindSize event.kind + statusSize event.status +
    integerSize event.failures + (if event.counted then 6 else 7) +
    (match event.latencyMs with
      | none => 0
      | some latencyMs => 12 + integerSize latencyMs) +
    (match event.errorClass with
      | none => 0
      | some errorClass => 13 + binarySize errorClass)

/-- `:erlang.external_size`: the version byte, a map with 21 keys (331 bytes), the name of the struct
and the fields. -/
def externalSize : Nat :=
  1 + 5 + 331 + 44 + binarySize c.scope + integerSize c.failureThreshold + integerSize c.openMs +
    optionalSize integerSize c.openedAtMs + optionalSize integerSize c.windowMs +
    optionalSize integerSize c.minCalls + optionalSize integerSize c.failureRatePct +
    optionalSize integerSize c.latencyThresholdMs + listSize binarySize c.errorClasses +
    integerSize c.halfOpenMaxProbes + integerSize c.halfOpenSuccessThreshold +
    integerSize c.halfOpenInFlight + integerSize c.halfOpenSuccesses +
    optionalSize integerSize c.halfOpenStartedAtMs + optionalSize integerSize c.lastFailureMs +
    optionalSize integerSize c.lastSuccessMs + optionalSize integerSize c.updatedAtMs +
    listSize eventSize c.events + statusSize c.status + integerSize c.failures

/-- The part of the check that reads the rules. -/
def ValidRules : Prop :=
  (c.scope ≠ [] ∧ c.scope.length ≤ 65535) ∧ PositiveInteger c.failureThreshold ∧
    PositiveInteger c.openMs ∧ OptionalPositive c.windowMs ∧ OptionalPositive c.minCalls ∧
    ValidPercentage c.failureRatePct ∧ OptionalPositive c.latencyThresholdMs ∧
    ValidStringList c.errorClasses ∧ PositiveInteger c.halfOpenMaxProbes ∧
    PositiveInteger c.halfOpenSuccessThreshold

/-- The part of the check that reads the counters and the times one by one. -/
structure ValidCounters : Prop where
  inFlight : c.halfOpenInFlight ≤ maxExactInteger
  successes : c.halfOpenSuccesses ≤ maxExactInteger
  startedAt : OptionalInteger c.halfOpenStartedAtMs
  lastFailure : OptionalInteger c.lastFailureMs
  lastSuccess : OptionalInteger c.lastSuccessMs
  updatedAt : OptionalInteger c.updatedAtMs
  failures : c.failures ≤ maxExactInteger

/-- `Circuit.valid?` -/
structure Valid : Prop where
  rules : c.ValidRules
  counters : c.ValidCounters
  openedAt : c.ValidOpenedAt
  probeState : c.ValidProbeState
  temporal : c.ValidTemporalState
  events : ValidEvents c.events
  size : c.externalSize ≤ 900000

section Decidable

instance (n : Nat) : Decidable (PositiveInteger n) := inferInstanceAs (Decidable (_ ∧ _))

instance (n : Option Nat) : Decidable (OptionalPositive n) :=
  inferInstanceAs (Decidable (∀ value ∈ n, PositiveInteger value))

instance (n : Option Nat) : Decidable (OptionalInteger n) :=
  inferInstanceAs (Decidable (∀ value ∈ n, value ≤ maxExactInteger))

instance (n : Option Nat) : Decidable (ValidPercentage n) :=
  inferInstanceAs (Decidable (∀ value ∈ n, 1 ≤ value ∧ value ≤ 100))

instance (value : Bytes) : Decidable (ValidErrorClass value) :=
  inferInstanceAs (Decidable (_ ∧ _))

instance (values : List Bytes) : Decidable (ValidStringList values) :=
  inferInstanceAs (Decidable (_ ∧ ∀ value ∈ values, ValidErrorClass value))

instance (event : CircuitEvent) : Decidable (ValidEvent event) :=
  inferInstanceAs (Decidable (_ ∧ _ ∧ _ ∧ ∀ value ∈ event.errorClass, ValidErrorClass value))

instance (events : List CircuitEvent) : Decidable (ValidEvents events) :=
  inferInstanceAs (Decidable (_ ∧ ∀ event ∈ events, ValidEvent event))

instance (c : Circuit) : Decidable c.ValidOpenedAt := inferInstanceAs (Decidable (_ ∨ _))

instance (c : Circuit) : Decidable c.ValidProbeState := inferInstanceAs (Decidable (_ ∨ _))

instance (timestamp : Option Nat) (updatedAtMs : Nat) : Decidable (NotAfter timestamp updatedAtMs) :=
  inferInstanceAs (Decidable (∀ value ∈ timestamp, value ≤ updatedAtMs))

instance decidableEventsNotAfter :
    ∀ (events : List CircuitEvent) (latest : Nat), Decidable (EventsNotAfter events latest)
  | [], _ => isTrue trivial
  | event :: rest, _ =>
    have := decidableEventsNotAfter rest event.atMs
    inferInstanceAs (Decidable (_ ∧ _))

instance (c : Circuit) : Decidable c.ValidTemporalState := inferInstanceAs (Decidable (_ ∨ _))

instance (c : Circuit) : Decidable c.ValidRules := inferInstanceAs (Decidable (_ ∧ _))

instance (c : Circuit) : Decidable c.ValidCounters :=
  decidable_of_iff
    (c.halfOpenInFlight ≤ maxExactInteger ∧ c.halfOpenSuccesses ≤ maxExactInteger ∧
      OptionalInteger c.halfOpenStartedAtMs ∧ OptionalInteger c.lastFailureMs ∧
      OptionalInteger c.lastSuccessMs ∧ OptionalInteger c.updatedAtMs ∧
      c.failures ≤ maxExactInteger)
    ⟨fun ⟨h1, h2, h3, h4, h5, h6, h7⟩ => ⟨h1, h2, h3, h4, h5, h6, h7⟩,
      fun ⟨h1, h2, h3, h4, h5, h6, h7⟩ => ⟨h1, h2, h3, h4, h5, h6, h7⟩⟩

instance (c : Circuit) : Decidable c.Valid :=
  decidable_of_iff
    (c.ValidRules ∧ c.ValidCounters ∧ c.ValidOpenedAt ∧ c.ValidProbeState ∧ c.ValidTemporalState ∧
      ValidEvents c.events ∧ c.externalSize ≤ 900000)
    ⟨fun ⟨h1, h2, h3, h4, h5, h6, h7⟩ => ⟨h1, h2, h3, h4, h5, h6, h7⟩,
      fun ⟨h1, h2, h3, h4, h5, h6, h7⟩ => ⟨h1, h2, h3, h4, h5, h6, h7⟩⟩

end Decidable

/-! ## The size of a record -/

/-- The external size of an exact integer. -/
theorem integerSize_le {n : Nat} (h : n ≤ maxExactInteger) : integerSize n ≤ 10 := by
  have hsize : n.size ≤ 53 := Nat.size_le.mpr (lt_of_le_of_lt h (by decide))
  unfold integerSize
  split
  · omega
  · split <;> omega

theorem optionalSize_le {n : Option Nat} (h : OptionalInteger n) :
    optionalSize integerSize n ≤ 10 := by
  cases n with
  | none => simp [optionalSize]
  | some n => exact integerSize_le (h n rfl)

/-- The external size of a list, from a bound on its elements. -/
theorem listSize_le {α : Type} {size : α → Nat} {values : List α} {bound : Nat}
    (h : ∀ value ∈ values, size value ≤ bound) :
    listSize size values ≤ 6 + values.length * bound := by
  have hsum : (values.map size).sum ≤ values.length * bound := by
    have := sum_le_card_nsmul (values.map size) bound (by simpa using h)
    simpa using this
  cases values with
  | nil => simp [listSize]
  | cons value rest =>
    simp only [listSize]
    omega

/-- An event that the check admits is small. -/
theorem eventSize_le {event : CircuitEvent} (h : ValidEvent event) : eventSize event ≤ 400 := by
  obtain ⟨hat, hfailures, hlatency, hclass⟩ := h
  have hkind : kindSize event.kind ≤ 17 := by cases event.kind <;> decide
  have hstatus : statusSize event.status ≤ 11 := by cases event.status <;> decide
  have hat := integerSize_le hat
  have hfailures := integerSize_le hfailures
  have hcounted : (if event.counted then 6 else 7) ≤ 7 := by split <;> decide
  have hlatency : (match event.latencyMs with
      | none => 0
      | some latencyMs => 12 + integerSize latencyMs) ≤ 22 := by
    cases hvalue : event.latencyMs with
    | none => simp
    | some latencyMs =>
      have := integerSize_le (hlatency latencyMs hvalue)
      show 12 + integerSize latencyMs ≤ 22
      omega
  have hclass : (match event.errorClass with
      | none => 0
      | some errorClass => 13 + binarySize errorClass) ≤ 274 := by
    cases hvalue : event.errorClass with
    | none => simp
    | some errorClass =>
      have := (hclass errorClass hvalue).2
      simp only [binarySize]
      omega
  unfold eventSize
  omega

theorem OptionalPositive.integer {n : Option Nat} (h : OptionalPositive n) : OptionalInteger n :=
  fun value hvalue => (h value hvalue).2

/-- A circuit whose fields pass the check is small enough. -/
theorem externalSize_le {c : Circuit} (hrules : c.ValidRules) (hcounters : c.ValidCounters)
    (hopened : OptionalInteger c.openedAtMs) (hevents : ValidEvents c.events) :
    c.externalSize ≤ 900000 := by
  obtain ⟨hscope, hthreshold, hopenMs, hwindow, hmin, hrate, hlatency, hstrings, hprobes,
    hneeded⟩ := hrules
  have hpct : OptionalInteger c.failureRatePct := fun value hvalue =>
    (hrate value hvalue).2.trans (by decide)
  have hclasses : listSize binarySize c.errorClasses ≤ 6 + 1000 * 261 := by
    refine (listSize_le (fun value hvalue => ?_)).trans
      (Nat.add_le_add_left (Nat.mul_le_mul_right 261 hstrings.1) 6)
    have := (hstrings.2 value hvalue).2
    simp only [binarySize]
    omega
  have hlist : listSize eventSize c.events ≤ 6 + 64 * 400 :=
    (listSize_le fun event hevent => eventSize_le (hevents.2 event hevent)).trans
      (Nat.add_le_add_left (Nat.mul_le_mul_right 400 hevents.1) 6)
  have hstatus : statusSize c.status ≤ 11 := by cases c.status <;> decide
  have h1 := integerSize_le hthreshold.2
  have h2 := integerSize_le hopenMs.2
  have h3 := optionalSize_le hopened
  have h4 := optionalSize_le hwindow.integer
  have h5 := optionalSize_le hmin.integer
  have h6 := optionalSize_le hpct
  have h7 := optionalSize_le hlatency.integer
  have h8 := integerSize_le hprobes.2
  have h9 := integerSize_le hneeded.2
  have h10 := integerSize_le hcounters.inFlight
  have h11 := integerSize_le hcounters.successes
  have h12 := optionalSize_le hcounters.startedAt
  have h13 := optionalSize_le hcounters.lastFailure
  have h14 := optionalSize_le hcounters.lastSuccess
  have h15 := optionalSize_le hcounters.updatedAt
  have h16 := integerSize_le hcounters.failures
  have hbinary : binarySize c.scope = 5 + c.scope.length := rfl
  unfold externalSize
  omega

/-! ## What the transitions keep -/

/-- Everything that the check asks for at a time, but that a half-open circuit has fewer successes
than it needs. -/
structure Sane (c : Circuit) : Prop where
  rules : c.ValidRules
  inFlight : c.halfOpenInFlight ≤ maxExactInteger
  failures : c.failures ≤ maxExactInteger
  openedAt : c.openedAtMs.isSome ↔ c.status ≠ .closed
  startedAt : c.halfOpenStartedAtMs.isSome ↔ c.status = .halfOpen
  idle : c.status ≠ .halfOpen → c.halfOpenInFlight = 0 ∧ c.halfOpenSuccesses = 0
  order : ∀ startedAtMs ∈ c.halfOpenStartedAtMs, ∀ openedAtMs ∈ c.openedAtMs,
    openedAtMs ≤ startedAtMs
  opened : NotAfter c.openedAtMs nowMs
  started : NotAfter c.halfOpenStartedAtMs nowMs
  lastFailure : NotAfter c.lastFailureMs nowMs
  lastSuccess : NotAfter c.lastSuccessMs nowMs
  eventOrder : EventsNotAfter c.events nowMs
  events : ValidEvents c.events

variable {c nowMs}

theorem NotAfter.integer {timestamp : Option Nat} (h : NotAfter timestamp nowMs)
    (hnow : nowMs ≤ maxExactInteger) : OptionalInteger timestamp :=
  fun value hvalue => (h value hvalue).trans hnow

/-- What was not after an earlier time is not after a later one. -/
theorem NotAfter.mono {timestamp : Option Nat} {earlier : Nat} (h : NotAfter timestamp earlier)
    (hle : earlier ≤ nowMs) : NotAfter timestamp nowMs :=
  fun value hvalue => (h value hvalue).trans hle

theorem notAfter_none : NotAfter none nowMs := nofun

theorem notAfter_now : NotAfter (some nowMs) nowMs :=
  fun _ hvalue => (mem_some.mp hvalue).ge

theorem EventsNotAfter.mono {events : List CircuitEvent} {earlier : Nat}
    (h : EventsNotAfter events earlier) (hle : earlier ≤ nowMs) : EventsNotAfter events nowMs := by
  cases events with
  | nil => trivial
  | cons event rest => exact ⟨h.1.trans hle, h.2⟩

/-- Trimming the events keeps their order in time. -/
theorem EventsNotAfter.sublist {events kept : List CircuitEvent} (hsub : kept.Sublist events) :
    ∀ {latest : Nat}, EventsNotAfter events latest → EventsNotAfter kept latest := by
  induction hsub with
  | slnil => exact fun h => h
  | cons event _ ih => exact fun h => ih (h.2.mono h.1)
  | cons_cons event _ ih => exact fun h => ⟨h.1, ih h.2⟩

/-- A circuit that was just updated passes the check unless its successes have reached the
threshold. -/
theorem Sane.valid (h : c.Sane nowMs) (hnow : nowMs ≤ maxExactInteger)
    (hupdated : c.updatedAtMs = some nowMs)
    (hprobe : c.status = .halfOpen → c.halfOpenSuccesses < c.halfOpenSuccessThreshold) :
    c.Valid := by
  have hsuccesses : c.halfOpenSuccesses ≤ maxExactInteger := by
    by_cases hstatus : c.status = .halfOpen
    · exact (hprobe hstatus).le.trans h.rules.2.2.2.2.2.2.2.2.2.2
    · rw [(h.idle hstatus).2]
      exact Nat.zero_le _
  have hcounters : c.ValidCounters :=
    ⟨h.inFlight, hsuccesses, h.started.integer hnow, h.lastFailure.integer hnow,
      h.lastSuccess.integer hnow, by rw [hupdated]; exact notAfter_now.integer hnow, h.failures⟩
  have hopened := h.opened.integer hnow
  refine ⟨h.rules, hcounters, ?_, ?_, .inr ⟨nowMs, hupdated, h.opened, h.started, h.lastFailure,
    h.lastSuccess, h.eventOrder⟩, h.events, externalSize_le h.rules hcounters hopened h.events⟩
  · by_cases hclosed : c.status = .closed
    · refine .inl ⟨hclosed, not_isSome_iff_eq_none.mp fun hsome => ?_⟩
      exact h.openedAt.mp hsome hclosed
    · obtain ⟨openedAtMs, hvalue⟩ := isSome_iff_exists.mp (h.openedAt.mpr hclosed)
      exact .inr ⟨hclosed, openedAtMs, hvalue, hopened openedAtMs hvalue⟩
  · by_cases hstatus : c.status = .halfOpen
    · obtain ⟨startedAtMs, hvalue⟩ := isSome_iff_exists.mp (h.startedAt.mpr hstatus)
      exact .inr ⟨hstatus, ⟨startedAtMs, hvalue, h.order startedAtMs hvalue⟩, hprobe hstatus⟩
    · refine .inl ⟨hstatus, (h.idle hstatus).1, (h.idle hstatus).2,
        not_isSome_iff_eq_none.mp fun hsome => ?_⟩
      exact hstatus (h.startedAt.mp hsome)

/-- A stored circuit that passes the check is sane at every time that is not before its update. -/
theorem Valid.sane (h : c.Valid) (htime : NotAfter c.updatedAtMs nowMs) : c.Sane nowMs := by
  have htimes : NotAfter c.openedAtMs nowMs ∧ NotAfter c.halfOpenStartedAtMs nowMs ∧
      NotAfter c.lastFailureMs nowMs ∧ NotAfter c.lastSuccessMs nowMs ∧
      EventsNotAfter c.events nowMs := by
    obtain ⟨-, h1, h2, h3, h4, h5⟩ | ⟨updatedAtMs, hupdated, h1, h2, h3, h4, h5⟩ := h.temporal
    · rw [h1, h2, h3, h4, h5]
      exact ⟨notAfter_none, notAfter_none, notAfter_none, notAfter_none, trivial⟩
    · have hle := htime updatedAtMs hupdated
      exact ⟨h1.mono hle, h2.mono hle, h3.mono hle, h4.mono hle, h5.mono hle⟩
  obtain ⟨hopened, hstarted, hfailure, hsuccess, hevents⟩ := htimes
  refine ⟨h.rules, h.counters.inFlight, h.counters.failures, ?_, ?_, ?_, ?_, hopened, hstarted,
    hfailure, hsuccess, hevents, h.events⟩
  · obtain ⟨hstatus, hnone⟩ | ⟨hstatus, openedAtMs, hvalue, -⟩ := h.openedAt
    · simp [hstatus, hnone]
    · simp [hstatus, mem_def.mp hvalue]
  · obtain ⟨hstatus, -, -, hnone⟩ | ⟨hstatus, ⟨startedAtMs, hvalue, -⟩, -⟩ := h.probeState
    · simp [hstatus, hnone]
    · simp [hstatus, mem_def.mp hvalue]
  · intro hstatus
    obtain ⟨-, hflight, hsuccesses, -⟩ | ⟨hhalf, -⟩ := h.probeState
    · exact ⟨hflight, hsuccesses⟩
    · exact absurd hhalf hstatus
  · intro startedAtMs hvalue
    obtain ⟨-, -, -, hnone⟩ | ⟨-, ⟨other, hother, horder⟩, -⟩ := h.probeState
    · rw [hnone] at hvalue
      cases hvalue
    · rwa [mem_unique hvalue hother]

/-- The window drops events and keeps their order. -/
theorem recentEvents_sublist (c : Circuit) (nowMs : Nat) :
    (recentEvents events c nowMs).Sublist events := by
  unfold recentEvents
  split
  · exact filter_sublist
  · exact List.Sublist.refl _

variable {latencyMs : Option Nat} {errorClass : Option Bytes}

/-- Giving a probe back keeps a circuit sane. -/
theorem Sane.decrementProbe (h : c.Sane nowMs) : c.decrementProbe.Sane nowMs := by
  unfold Circuit.decrementProbe
  split
  · rename_i hstatus
    exact { h with
      inFlight := (Nat.sub_le _ _).trans h.inFlight
      idle := fun hne => absurd hstatus hne }
  · exact h

@[simp] theorem decrementProbe_status (c : Circuit) : c.decrementProbe.status = c.status := by
  unfold Circuit.decrementProbe
  split <;> rfl

/-- What a transition writes: a sane circuit, updated now, whose probe state is as the check asks. -/
def Written (nowMs : Nat) (c : Circuit) : Prop :=
  c.Sane nowMs ∧ c.updatedAtMs = some nowMs ∧
    (c.status = .halfOpen → c.halfOpenSuccesses < c.halfOpenSuccessThreshold)

/-- What a transition writes passes the check of a read. -/
theorem Written.valid (h : c.Written nowMs) (hnow : nowMs ≤ maxExactInteger) : c.Valid :=
  h.1.valid hnow h.2.1 h.2.2

/-- The failures that are counted are among the events, so they are an exact integer. -/
theorem countRecentFailures_le (hevents : ValidEvents c.events) :
    c.countRecentFailures nowMs ≤ maxExactInteger :=
  calc c.countRecentFailures nowMs
      ≤ (recentEvents (eventsSinceReset c.events) c nowMs).length := countP_le_length
    _ ≤ (eventsSinceReset c.events).length := (recentEvents_sublist _ _ _).length_le
    _ ≤ c.events.length := (takeWhile_sublist _).length_le
    _ ≤ maxEvents := hevents.1
    _ ≤ maxExactInteger := by decide

/-- The error class of an event is short. -/
theorem normalizeErrorClass_valid (digest : Digest) (h : ∀ value ∈ errorClass, value ≠ []) :
    ∀ value ∈ normalizeErrorClass digest errorClass, ValidErrorClass value := by
  intro value hvalue
  cases errorClass with
  | none => cases hvalue
  | some given =>
    simp only [normalizeErrorClass] at hvalue
    split at hvalue
    · obtain rfl := mem_some.mp hvalue
      exact ⟨h _ rfl, ‹_›⟩
    · obtain rfl := mem_some.mp hvalue
      refine ⟨by simp [digestTag], ?_⟩
      rw [length_append, digest.length_encode]
      decide

/-- A probe is given back, or the circuit is left as it is. -/
theorem Sane.releaseProbe (h : c.Sane nowMs)
    (hprobe : c.status = .halfOpen → c.halfOpenSuccesses < c.halfOpenSuccessThreshold) :
    (c.releaseProbe nowMs).Written nowMs ∨ c.releaseProbe nowMs = c := by
  unfold Circuit.releaseProbe
  split
  · rename_i hheld
    have hdec := h.decrementProbe
    refine .inl ⟨?_, rfl, fun _ => ?_⟩
    · exact { hdec with }
    · simpa [Circuit.decrementProbe, hheld.1] using hprobe hheld.1
  · exact .inr rfl

section Transitions

variable (h : c.Sane nowMs) (hnow : nowMs ≤ maxExactInteger)
include h hnow

/-- Appending an event of now keeps a circuit sane. -/
theorem Sane.appendEvent (kind : EventKind) (counted : Bool)
    (hlatency : OptionalInteger latencyMs) (hclass : ∀ value ∈ errorClass, ValidErrorClass value) :
    (c.appendEvent nowMs kind counted latencyMs errorClass).Sane nowMs := by
  have hsub : (c.appendEvent nowMs kind counted latencyMs errorClass).events.Sublist
      (_ :: c.events) := (recentEvents_sublist _ c nowMs).trans (take_sublist _ _)
  have hlength : (c.appendEvent nowMs kind counted latencyMs errorClass).events.length ≤
      maxEvents :=
    (recentEvents_sublist _ c nowMs).length_le.trans (length_take_le _ _)
  refine { h with
    eventOrder := EventsNotAfter.sublist hsub ⟨le_rfl, h.eventOrder⟩
    events := ⟨hlength, fun event hevent => ?_⟩ }
  obtain rfl | hold := mem_cons.mp (hsub.subset hevent)
  · exact ⟨hnow, h.failures, hlatency, hclass⟩
  · exact h.events.2 event hold

theorem Sane.appendPlain (kind : EventKind) (counted : Bool) :
    (c.appendEvent nowMs kind counted none none).Sane nowMs :=
  h.appendEvent hnow kind counted nofun nofun

/-- Opening a circuit resets its probes. -/
theorem Sane.openCircuit : (c.openCircuit nowMs).Sane nowMs := by
  refine Sane.appendPlain ?_ hnow _ _
  exact ⟨h.rules, Nat.zero_le _, h.failures, by simp, by simp, fun _ => ⟨rfl, rfl⟩,
    nofun, notAfter_now, notAfter_none, h.lastFailure, h.lastSuccess,
    h.eventOrder, h.events⟩

/-- Closing a circuit resets its failures and its probes. -/
theorem Sane.closeCircuit : (c.closeCircuit nowMs).Sane nowMs := by
  refine Sane.appendPlain ?_ hnow _ _
  exact ⟨h.rules, Nat.zero_le _, Nat.zero_le _, by simp, by simp, fun _ => ⟨rfl, rfl⟩,
    nofun, notAfter_none, notAfter_none, h.lastFailure, notAfter_now,
    h.eventOrder, h.events⟩

theorem Sane.written_open : (c.openCircuit nowMs).Written nowMs := ⟨h.openCircuit hnow, rfl, nofun⟩

theorem Sane.written_close : (c.closeCircuit nowMs).Written nowMs :=
  ⟨h.closeCircuit hnow, rfl, nofun⟩

/-- A circuit is opened, or stays as it is and was not half-open. -/
theorem Sane.openIfExceeded {failures total : Nat} (hupdated : c.updatedAtMs = some nowMs)
    (hstatus : c.status ≠ .halfOpen) : (c.openIfExceeded failures total nowMs).Written nowMs := by
  unfold Circuit.openIfExceeded
  split
  · exact h.written_open hnow
  · exact ⟨h, hupdated, fun hhalf => absurd hhalf hstatus⟩

/-- A counted failure opens a half-open circuit, and any other one over its limits. -/
theorem Sane.afterFailure : (c.afterFailure nowMs).Written nowMs := by
  unfold Circuit.afterFailure
  split
  · exact h.written_open hnow
  · rename_i hstatus
    refine Sane.openIfExceeded ?_ hnow rfl fun hhalf => hstatus hhalf
    exact { h with failures := countRecentFailures_le h.events, lastFailure := notAfter_now }

/-- A failure is recorded, unless it is ignored on a half-open circuit that has as many successes as
it needs. -/
theorem Sane.recordFailure {digest : Digest} (hlatency : OptionalInteger latencyMs)
    (hclass : ∀ value ∈ errorClass, value ≠ []) (hprobe : c.status = .halfOpen →
      c.ignoredErrorClass (normalizeErrorClass digest errorClass) = true →
      c.halfOpenSuccesses < c.halfOpenSuccessThreshold) :
    (c.recordFailure digest nowMs latencyMs errorClass).Written nowMs := by
  have hvalid := normalizeErrorClass_valid digest hclass
  unfold Circuit.recordFailure
  dsimp only
  split
  · rename_i hignored
    have hdec := h.decrementProbe
    refine ⟨Sane.appendEvent ?_ hnow _ _ hlatency hvalid, rfl, fun hstatus => ?_⟩
    · exact { hdec with }
    · have hhalf : c.status = .halfOpen := (decrementProbe_status c).symm.trans hstatus
      have hlt := hprobe hhalf hignored
      simpa [Circuit.appendEvent, Circuit.decrementProbe, hhalf] using hlt
  · exact (h.decrementProbe.appendEvent hnow _ _ hlatency hvalid).afterFailure hnow

/-- A success is recorded, or the circuit is left as it is. -/
theorem Sane.recordSuccess (hlatency : OptionalInteger latencyMs) :
    (c.recordSuccess nowMs latencyMs).Written nowMs ∨
      c.recordSuccess nowMs latencyMs = c ∧ c.status ≠ .halfOpen := by
  have hclass : ∀ value ∈ (none : Option Bytes), ValidErrorClass value :=
    nofun
  unfold Circuit.recordSuccess
  split
  · exact .inl ((h.decrementProbe.appendEvent hnow _ _ hlatency hclass).afterFailure hnow)
  · unfold Circuit.doRecordSuccess
    split
    · rename_i hstatus
      dsimp only
      have hdec := h.decrementProbe
      have hcounted : ({ c.decrementProbe with
          halfOpenSuccesses := c.halfOpenSuccesses + 1 } : Circuit).Sane nowMs :=
        { hdec with idle := fun hne => absurd ((decrementProbe_status c).trans hstatus) hne }
      have happend := hcounted.appendEvent hnow .success true hlatency hclass
      split
      · exact .inl (happend.written_close hnow)
      · rename_i hbelow
        refine .inl ⟨?_, rfl, fun _ => not_le.mp hbelow⟩
        exact { happend with lastSuccess := notAfter_now }
    · rename_i hstatus
      exact .inr ⟨rfl, by simp [hstatus]⟩
    · rename_i hstatus
      have hne : c.status ≠ .halfOpen := by simp [hstatus]
      split
      · split
        · exact .inr ⟨rfl, hne⟩
        · exact .inl (h.written_close hnow)
      · have happend := h.appendEvent hnow .success true hlatency hclass
        refine .inl (Sane.openIfExceeded ?_ hnow rfl hne)
        exact { happend with
          failures := countRecentFailures_le happend.events
          lastSuccess := notAfter_now }

/-- A probe is claimed where one is available. -/
theorem Sane.claimProbe
    (hprobe : c.status = .halfOpen → c.halfOpenSuccesses < c.halfOpenSuccessThreshold)
    (havailable : c.probeAvailable nowMs = true) : (c.claimProbe nowMs).Written nowMs := by
  have hneeded : PositiveInteger c.halfOpenSuccessThreshold := h.rules.2.2.2.2.2.2.2.2.2
  unfold Circuit.claimProbe
  split
  · rename_i hstatus
    refine ⟨Sane.appendPlain ?_ hnow _ _, rfl, fun _ => hneeded.1⟩
    refine { h with
      inFlight := show 1 ≤ maxExactInteger by decide
      openedAt := ?_
      startedAt := by simp
      idle := fun hne => absurd rfl hne
      order := ?_
      started := notAfter_now }
    · simp [h.openedAt, hstatus]
    · intro startedAtMs hvalue openedAtMs hopened
      obtain rfl := mem_some.mp hvalue
      exact h.opened openedAtMs hopened
  · rename_i hstatus
    rw [if_pos havailable]
    have hroom : c.halfOpenInFlight < c.halfOpenMaxProbes := by
      simpa [Circuit.probeAvailable, hstatus] using havailable
    have hmax : PositiveInteger c.halfOpenMaxProbes := h.rules.2.2.2.2.2.2.2.2.1
    refine ⟨Sane.appendPlain ?_ hnow _ _, rfl, fun _ => hprobe hstatus⟩
    exact { h with
      inFlight := (Nat.succ_le_of_lt hroom).trans hmax.2
      idle := fun hne => absurd hstatus hne }
  · rename_i hstatus
    simp [Circuit.probeAvailable, hstatus] at havailable

end Transitions

end Circuit

end FerricStore.Governance
