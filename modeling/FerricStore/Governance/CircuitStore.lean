import FerricStore.Governance.Circuit
import FerricStore.Lib.Result

/-!
# The circuit store

The calls of the circuit store on one scope: the options they admit, what each reads, and the record
that it writes. `stored_circuit_stays_valid` is the result over whole runs of calls: the record stays
one that the check of a read admits, as long as no ignored failure lowers the number of successes that
a half-open circuit needs to what it has counted.
-/

namespace FerricStore.Governance

open Option

/-! ## Options -/

/-- The options of a call as they are given. -/
structure RawOpts where
  openMs : Option Int
  failureThreshold : Option Int
  windowMs : Option Int
  minCalls : Option Int
  failureRatePct : Option Int
  latencyThresholdMs : Option Int
  errorClasses : Option (List Bytes)
  halfOpenMaxProbes : Option Int
  halfOpenSuccessThreshold : Option Int
  latencyMs : Option Int
  errorClass : Option Bytes

/-- An integer option with a check and the message of its failure. -/
def optionalInteger (check : Int → Bool) (message : String) :
    Option Int → Except String (Option Nat)
  | none => .ok none
  | some value => if check value then .ok (some value.toNat) else .error message

variable (key : String)

/-- `optional_positive_integer_or_nil` -/
def optionalPositiveIntegerOrNil : Option Int → Except String (Option Nat) :=
  optionalInteger (fun value => decide (0 < value ∧ value ≤ maxExactInteger))
    ("ERR flow circuit " ++ key ++ " must be a positive integer")

/-- `optional_non_negative_integer_or_nil` -/
def optionalNonNegativeIntegerOrNil : Option Int → Except String (Option Nat) :=
  optionalInteger (fun value => decide (0 ≤ value ∧ value ≤ maxExactInteger))
    ("ERR flow circuit " ++ key ++ " must be a non-negative integer")

/-- `optional_percent_or_nil` -/
def optionalPercentOrNil : Option Int → Except String (Option Nat) :=
  optionalInteger (fun value => decide (1 ≤ value ∧ value ≤ 100))
    ("ERR flow circuit " ++ key ++ " must be an integer from 1 to 100")

/-- `optional_binary_or_nil` -/
def optionalBinaryOrNil : Option Bytes → Except String (Option Bytes)
  | none => .ok none
  | some value =>
    if value ≠ [] ∧ value.length ≤ 262144 then .ok (some value)
    else .error ("ERR flow circuit " ++ key ++
      " must be a non-empty string of at most 262144 bytes")

/-- `normalize_string_list`: `values` collects the distinct values, newest first, and is also the set
of those seen. -/
def normalizeStringList (key : String) :
    List Bytes → List Bytes → Nat → Except String (List Bytes)
  | [], values, _ => .ok values.reverse
  | value :: rest, values, count =>
    if count = 1000 then .error ("ERR flow circuit " ++ key ++ " must contain at most 1000 values")
    else if value = [] then
      .error ("ERR flow circuit " ++ key ++ " must be a list of non-empty strings")
    else if value.length ≤ 256 then
      if value ∈ values then normalizeStringList key rest values (count + 1)
      else normalizeStringList key rest (value :: values) (count + 1)
    else
      .error ("ERR flow circuit " ++ key ++
        " must contain non-empty strings of at most 256 bytes")

/-- `optional_string_list` -/
def optionalStringList : Option (List Bytes) → Except String (Option (List Bytes))
  | none => .ok none
  | some values => some <$> normalizeStringList key values [] 0

/-- `validate_tracking_bounds` -/
def validateTrackingBounds (failureThreshold : Nat) (minCalls failureRatePct : Option Nat) :
    Except String Unit :=
  if 64 < minCalls.getD 0 then .error "ERR flow circuit min_calls must be <= 64"
  else if failureRatePct = none ∧ 64 < failureThreshold then
    .error "ERR flow circuit failure_threshold must be <= 64 without failure_rate_pct"
  else if failureRatePct ≠ none ∧ minCalls = none ∧ 64 < failureThreshold then
    .error "ERR flow circuit min_calls is required when failure_threshold exceeds 64"
  else .ok ()

/-- `optional_rule_opts` -/
def optionalRuleOpts (raw : RawOpts) : Except String RuleOpts := do
  let openMs ← optionalPositiveIntegerOrNil "open_ms" raw.openMs
  let failureThreshold ← optionalPositiveIntegerOrNil "failure_threshold" raw.failureThreshold
  let windowMs ← optionalPositiveIntegerOrNil "window_ms" raw.windowMs
  let minCalls ← optionalPositiveIntegerOrNil "min_calls" raw.minCalls
  let failureRatePct ← optionalPercentOrNil "failure_rate_pct" raw.failureRatePct
  let latencyThresholdMs ← optionalPositiveIntegerOrNil "latency_threshold_ms" raw.latencyThresholdMs
  let errorClasses ← optionalStringList "error_classes" raw.errorClasses
  let halfOpenMaxProbes ← optionalPositiveIntegerOrNil "half_open_max_probes" raw.halfOpenMaxProbes
  let halfOpenSuccessThreshold ←
    optionalPositiveIntegerOrNil "half_open_success_threshold" raw.halfOpenSuccessThreshold
  let latencyMs ← optionalNonNegativeIntegerOrNil "latency_ms" raw.latencyMs
  let errorClass ← optionalBinaryOrNil "error_class" raw.errorClass
  let _ ← validateTrackingBounds (failureThreshold.getD 5) minCalls failureRatePct
  pure ⟨openMs, failureThreshold, windowMs, minCalls, failureRatePct, latencyThresholdMs,
    errorClasses, halfOpenMaxProbes, halfOpenSuccessThreshold, latencyMs, errorClass⟩

/-- What admitted options satisfy. -/
structure RuleOpts.Admitted (opts : RuleOpts) : Prop where
  openMs : Circuit.OptionalPositive opts.openMs
  failureThreshold : Circuit.OptionalPositive opts.failureThreshold
  windowMs : Circuit.OptionalPositive opts.windowMs
  minCalls : Circuit.OptionalPositive opts.minCalls
  failureRatePct : Circuit.ValidPercentage opts.failureRatePct
  latencyThresholdMs : Circuit.OptionalPositive opts.latencyThresholdMs
  errorClasses : ∀ values ∈ opts.errorClasses, Circuit.ValidStringList values
  halfOpenMaxProbes : Circuit.OptionalPositive opts.halfOpenMaxProbes
  halfOpenSuccessThreshold : Circuit.OptionalPositive opts.halfOpenSuccessThreshold
  latencyMs : Circuit.OptionalInteger opts.latencyMs
  errorClass : ∀ value ∈ opts.errorClass, value ≠ []

variable {value : Option Nat} {raw : Option Int}

/-- An admitted integer has what its check says. -/
theorem optionalInteger_ok {check : Int → Bool} {message : String} {P : Nat → Prop}
    (hcheck : ∀ given, check given = true → P given.toNat)
    (h : optionalInteger check message raw = .ok value) : ∀ n ∈ value, P n := by
  intro n hn
  cases raw with
  | none =>
    cases h
    cases hn
  | some given =>
    simp only [optionalInteger] at h
    split at h
    · cases h
      cases hn
      exact hcheck given ‹_›
    · exact nomatch h

variable {key}

theorem optionalPositive_ok
    (h : optionalPositiveIntegerOrNil key raw = .ok value) : Circuit.OptionalPositive value := by
  refine optionalInteger_ok (fun given hcheck => ?_) h
  obtain ⟨hpos, hle⟩ := of_decide_eq_true hcheck
  exact ⟨by omega, by omega⟩

theorem optionalNonNegative_ok
    (h : optionalNonNegativeIntegerOrNil key raw = .ok value) : Circuit.OptionalInteger value := by
  refine optionalInteger_ok (fun given hcheck => ?_) h
  obtain ⟨-, hle⟩ := of_decide_eq_true hcheck
  omega

theorem optionalPercent_ok
    (h : optionalPercentOrNil key raw = .ok value) : Circuit.ValidPercentage value := by
  refine optionalInteger_ok (fun given hcheck => ?_) h
  obtain ⟨hpos, hle⟩ := of_decide_eq_true hcheck
  exact ⟨by omega, by omega⟩

theorem optionalBinary_ok {raw value : Option Bytes}
    (h : optionalBinaryOrNil key raw = .ok value) : ∀ bytes ∈ value, bytes ≠ [] := by
  intro bytes hbytes
  cases raw with
  | none =>
    cases h
    cases hbytes
  | some given =>
    simp only [optionalBinaryOrNil] at h
    split at h
    · rename_i hgiven
      obtain rfl := Except.ok.inj h
      rw [← mem_some.mp hbytes]
      exact hgiven.1
    · exact nomatch h

/-- The collected values stay within the count, and each passed its check. -/
theorem normalizeStringList_ok : ∀ {rest values : List Bytes} {count : Nat}
    {result : List Bytes}, normalizeStringList key rest values count = .ok result →
    values.length ≤ count → count ≤ 1000 → (∀ value ∈ values, Circuit.ValidErrorClass value) →
    Circuit.ValidStringList result := by
  intro rest
  induction rest with
  | nil =>
    intro values count result h hlength hcount hvalues
    cases h
    refine ⟨?_, fun value hvalue => hvalues value (List.mem_reverse.mp hvalue)⟩
    rw [List.length_reverse]
    exact hlength.trans hcount
  | cons value rest ih =>
    intro values count result h hlength hcount hvalues
    simp only [normalizeStringList] at h
    split at h
    · cases h
    · split at h
      · cases h
      · split at h
        · split at h
          · exact ih h (by omega) (by omega) hvalues
          · refine ih h (by simpa using hlength) (by omega) ?_
            intro other hother
            obtain rfl | hold := List.mem_cons.mp hother
            · exact ⟨‹_›, ‹_›⟩
            · exact hvalues other hold
        · cases h

theorem optionalStringList_ok {raw value : Option (List Bytes)}
    (h : optionalStringList key raw = .ok value) :
    ∀ values ∈ value, Circuit.ValidStringList values := by
  intro values hvalues
  cases raw with
  | none =>
    cases h
    cases hvalues
  | some given =>
    simp only [optionalStringList] at h
    cases hresult : normalizeStringList key given [] 0 with
    | error message => simp [hresult, Functor.map, Except.map] at h
    | ok result =>
      simp only [hresult, Functor.map, Except.map, Except.ok.injEq] at h
      subst h
      rw [← mem_some.mp hvalues]
      exact normalizeStringList_ok hresult le_rfl (Nat.zero_le _)
        nofun

/-- Options that the store admits are in range. -/
theorem optionalRuleOpts_ok {raw : RawOpts} {opts : RuleOpts}
    (h : optionalRuleOpts raw = .ok opts) : opts.Admitted := by
  obtain ⟨openMs, h1, h⟩ := bind_eq_ok_iff.mp h
  obtain ⟨failureThreshold, h2, h⟩ := bind_eq_ok_iff.mp h
  obtain ⟨windowMs, h3, h⟩ := bind_eq_ok_iff.mp h
  obtain ⟨minCalls, h4, h⟩ := bind_eq_ok_iff.mp h
  obtain ⟨failureRatePct, h5, h⟩ := bind_eq_ok_iff.mp h
  obtain ⟨latencyThresholdMs, h6, h⟩ := bind_eq_ok_iff.mp h
  obtain ⟨errorClasses, h7, h⟩ := bind_eq_ok_iff.mp h
  obtain ⟨halfOpenMaxProbes, h8, h⟩ := bind_eq_ok_iff.mp h
  obtain ⟨halfOpenSuccessThreshold, h9, h⟩ := bind_eq_ok_iff.mp h
  obtain ⟨latencyMs, h10, h⟩ := bind_eq_ok_iff.mp h
  obtain ⟨errorClass, h11, h⟩ := bind_eq_ok_iff.mp h
  obtain ⟨-, -, h⟩ := bind_eq_ok_iff.mp h
  cases h
  exact ⟨optionalPositive_ok h1, optionalPositive_ok h2, optionalPositive_ok h3,
    optionalPositive_ok h4, optionalPercent_ok h5, optionalPositive_ok h6, optionalStringList_ok h7,
    optionalPositive_ok h8, optionalPositive_ok h9, optionalNonNegative_ok h10,
    optionalBinary_ok h11⟩

namespace Circuit

variable {c : Circuit} {opts : RuleOpts} {nowMs : Nat}

/-- A required rule takes an admitted value. -/
theorem maybePutPositive_valid {current : Nat}
    (hcurrent : PositiveInteger current) (hvalue : OptionalPositive value) :
    PositiveInteger (maybePutPositive current value) := by
  cases value with
  | none => exact hcurrent
  | some value => simpa [maybePutPositive, (hvalue value rfl).1] using hvalue value rfl

theorem maybePutPositiveOpt_valid {current value : Option Nat}
    (hcurrent : OptionalPositive current) (hvalue : OptionalPositive value) :
    OptionalPositive (maybePutPositiveOpt current value) := by
  cases value with
  | none => exact hcurrent
  | some value => simpa [maybePutPositiveOpt, (hvalue value rfl).1] using hvalue

theorem maybePutPercent_valid {current value : Option Nat}
    (hcurrent : ValidPercentage current) (hvalue : ValidPercentage value) :
    ValidPercentage (maybePutPercent current value) := by
  cases value with
  | none => exact hcurrent
  | some value => simpa [maybePutPercent, hvalue value rfl] using hvalue

/-- Configuring with admitted options keeps the rules valid. -/
theorem ValidRules.configure (h : c.ValidRules) (hopts : opts.Admitted) :
    (c.configure opts).ValidRules := by
  obtain ⟨hscope, hthreshold, hopenMs, hwindow, hmin, hrate, hlatency, hstrings, hprobes,
    hneeded⟩ := h
  refine ⟨hscope, maybePutPositive_valid hthreshold hopts.failureThreshold,
    maybePutPositive_valid hopenMs hopts.openMs, maybePutPositiveOpt_valid hwindow hopts.windowMs,
    maybePutPositiveOpt_valid hmin hopts.minCalls, maybePutPercent_valid hrate hopts.failureRatePct,
    maybePutPositiveOpt_valid hlatency hopts.latencyThresholdMs, ?_,
    maybePutPositive_valid hprobes hopts.halfOpenMaxProbes,
    maybePutPositive_valid hneeded hopts.halfOpenSuccessThreshold⟩
  show ValidStringList (opts.errorClasses.getD c.errorClasses)
  cases hvalue : opts.errorClasses with
  | none => exact hstrings
  | some values => exact hopts.errorClasses values hvalue

theorem Sane.configure (h : c.Sane nowMs) (hopts : opts.Admitted) : (c.configure opts).Sane nowMs :=
  { h with rules := h.rules.configure hopts }

theorem Sane.touch (h : c.Sane nowMs) (updatedAtMs : Option Nat) :
    ({ c with updatedAtMs := updatedAtMs } : Circuit).Sane nowMs :=
  { h with }

theorem getD_positive {other : Nat} (hvalue : OptionalPositive value)
    (hother : PositiveInteger other) : PositiveInteger (value.getD other) := by
  cases value with
  | none => exact hother
  | some value => exact hvalue value rfl

/-- A new circuit is sane. -/
theorem sane_new {scope : Bytes} (hscope : scope ≠ [] ∧ scope.length ≤ 65535)
    (hopts : opts.Admitted) : (new scope opts).Sane nowMs := by
  have hone : PositiveInteger 1 := by decide
  have hstrings : ValidStringList (opts.errorClasses.getD []) := by
    cases hvalue : opts.errorClasses with
    | none => exact ⟨Nat.zero_le _, nofun⟩
    | some values => exact hopts.errorClasses values hvalue
  refine ⟨⟨hscope, getD_positive hopts.failureThreshold (by decide),
    getD_positive hopts.openMs (by decide), hopts.windowMs, hopts.minCalls, hopts.failureRatePct,
    hopts.latencyThresholdMs, hstrings, getD_positive hopts.halfOpenMaxProbes hone,
    getD_positive hopts.halfOpenSuccessThreshold hone⟩, Nat.zero_le _, Nat.zero_le _, by simp [new],
    by simp [new], fun _ => ⟨rfl, rfl⟩, nofun, notAfter_none,
    notAfter_none, notAfter_none, notAfter_none, trivial, Nat.zero_le _, nofun⟩

end Circuit

/-! ## Calls -/

/-- What the store computes with: the digest of an error class, the hash tag of a key and the
fingerprint of a reviewed record (of the scope where the record is missing). -/
structure CircuitEnv where
  digest : Digest
  tag : Bytes → Bytes
  fingerprint : Bytes ⊕ Circuit → Bytes

/-- A time that a call admits. -/
structure Time where
  ms : Nat
  le : ms ≤ maxExactInteger

inductive CircuitCall where
  | manualOpen (raw : RawOpts) (expectedReview : Option Bytes)
  | manualClose (expectedReview : Option Bytes)
  | recordFailure (raw : RawOpts)
  | recordSuccess (raw : RawOpts)
  | claimProbe
  | releasePermit

variable (env : CircuitEnv) (scope : Bytes)

/-- `circuit_key`, with the check of the scope that every call makes first -/
def circuitKey : Except String Unit :=
  if scope = [] then .error "ERR flow circuit scope must be a non-empty string"
  else if 2 + (env.tag scope).length + 7 + scope.length ≤ 65535 then .ok ()
  else .error "ERR key too large (max 65535 bytes)"

/-- `validate_mutation_time` -/
def validateMutationTime (c : Circuit) (nowMs : Nat) : Except String Unit :=
  match c.updatedAtMs with
  | none => .ok ()
  | some updatedAtMs =>
    if updatedAtMs ≤ nowMs then .ok ()
    else .error "ERR flow circuit now_ms cannot precede updated_at_ms"

/-- `validate_manual_review` -/
def validateManualReview (c : Circuit) (missing : Bool) : Option Bytes → Except String Unit
  | none => .ok ()
  | some expected =>
    if expected = env.fingerprint (if missing then .inl c.scope else .inr c) then .ok ()
    else .error "ERR circuit changed since review; review the circuit again before retrying"

/-- `success_tracking_required?` -/
def successTrackingRequired (opts : RuleOpts) : Bool :=
  opts.failureRatePct.isSome ||
    match opts.latencyThresholdMs, opts.latencyMs with
    | some threshold, some latencyMs => decide (threshold ≤ latencyMs)
    | _, _ => false

/-- `AtomicRecord.mutate` on the record of a circuit: `init` makes a missing record and `mutate` the
next one, where `none` stands for a return without a write. -/
def mutateCircuit (stored : Option Circuit) (init : Option Circuit)
    (mutate : Bool → Circuit → Except String (Option Circuit)) : Except String (Option Circuit) :=
  match stored with
  | some c => if c.Valid then mutate false c else .error "ERR flow circuit record is corrupt"
  | none =>
    match init with
    | some c => mutate true c
    | none => .ok none

/-- The options that `close` makes a missing circuit with. -/
def closeOpts : RuleOpts :=
  ⟨some 30000, some 1, none, none, none, none, none, none, none, none, none⟩

/-- The record that a call writes, if it writes one. -/
def CircuitCall.apply (nowMs : Nat) (stored : Option Circuit) :
    CircuitCall → Except String (Option Circuit)
  | .manualOpen raw expectedReview => do
    let _ ← circuitKey env scope
    let opts ← optionalRuleOpts raw
    mutateCircuit stored (some (Circuit.new scope opts)) fun missing c => do
      let _ ← validateManualReview env c missing expectedReview
      let _ ← validateMutationTime c nowMs
      pure (some ((c.configure opts).recordManualOpen nowMs))
  | .manualClose expectedReview => do
    let _ ← circuitKey env scope
    mutateCircuit stored (some (Circuit.new scope closeOpts)) fun missing c => do
      let _ ← validateManualReview env c missing expectedReview
      let _ ← validateMutationTime c nowMs
      pure (some (c.recordManualClose nowMs))
  | .recordFailure raw => do
    let _ ← circuitKey env scope
    let opts ← optionalRuleOpts raw
    mutateCircuit stored (some (Circuit.new scope opts)) fun _ c => do
      let _ ← validateMutationTime c nowMs
      pure (some ((c.configure opts).recordFailure env.digest nowMs opts.latencyMs
        opts.errorClass))
  | .recordSuccess raw => do
    let _ ← circuitKey env scope
    let opts ← optionalRuleOpts raw
    let init := if successTrackingRequired opts then some (Circuit.new scope opts) else none
    mutateCircuit stored init fun _ c => do
      let _ ← validateMutationTime c nowMs
      let configured := c.configure opts
      let configured :=
        if configured = c then configured else { configured with updatedAtMs := some nowMs }
      let updated := configured.recordSuccess nowMs opts.latencyMs
      pure (if updated = c then none else some updated)
  | .claimProbe => do
    let _ ← circuitKey env scope
    mutateCircuit stored none fun _ c => do
      let _ ← validateMutationTime c nowMs
      if c.probeAvailable nowMs then pure (some (c.claimProbe nowMs))
      else if c.allow nowMs then pure none
      else throw "Circuit is open"
  | .releasePermit => do
    let _ ← circuitKey env scope
    mutateCircuit stored none fun _ c => do
      let _ ← validateMutationTime c nowMs
      let updated := c.releaseProbe nowMs
      pure (if updated = c then none else some updated)

/-- The record after a call. -/
def CircuitCall.store (nowMs : Nat) (call : CircuitCall)
    (stored : Option Circuit) : Option Circuit :=
  match call.apply env scope nowMs stored with
  | .ok (some c) => some c
  | _ => stored

/-- No ignored failure leaves a half-open circuit with as many successes as it needs. -/
def CircuitCall.KeepsProbes (call : CircuitCall) (stored : Option Circuit) : Prop :=
  ∀ raw opts c, call = .recordFailure raw → optionalRuleOpts raw = .ok opts → stored = some c →
    c.status = .halfOpen →
    (c.configure opts).ignoredErrorClass
      (Circuit.normalizeErrorClass env.digest opts.errorClass) = true →
    c.halfOpenSuccesses < (c.configure opts).halfOpenSuccessThreshold

section Apply

variable {env scope} {now : Time} {stored : Option Circuit} {c : Circuit}

theorem circuitKey_ok (h : circuitKey env scope = .ok ()) : scope ≠ [] ∧ scope.length ≤ 65535 := by
  unfold circuitKey at h
  split at h
  · exact nomatch h
  · split at h
    · exact ⟨‹_›, by omega⟩
    · exact nomatch h

theorem validateMutationTime_ok {nowMs : Nat} (h : validateMutationTime c nowMs = .ok ()) :
    Circuit.NotAfter c.updatedAtMs nowMs := by
  unfold validateMutationTime at h
  split at h
  · rename_i hnone
    rw [hnone]
    exact Circuit.notAfter_none
  · rename_i updatedAtMs hsome
    split at h
    · rw [hsome]
      intro value hvalue
      rwa [← mem_some.mp hvalue]
    · exact nomatch h

/-- A call that goes on after the check of its time is not before the last update. -/
theorem validateMutationTime_bind {nowMs : Nat} {α : Type} {next : Unit → Except String α} {a : α}
    (h : (validateMutationTime c nowMs >>= next) = .ok a) :
    Circuit.NotAfter c.updatedAtMs nowMs ∧ next () = .ok a := by
  obtain ⟨⟨⟩, htime, h⟩ := bind_eq_ok_iff.mp h
  exact ⟨validateMutationTime_ok htime, h⟩

section

variable {init : Option Circuit} {opts : RuleOpts} (hinit : ∀ c ∈ init, c = Circuit.new scope opts)
include hinit

/-- A call that writes has made its record from a sane circuit: a stored one that passed the check, or
a new one. -/
theorem mutateCircuit_ok
    {mutate next : Bool → Circuit → Except String (Option Circuit)} {written : Circuit}
    (h : mutateCircuit stored init mutate = .ok (some written))
    (hscope : scope ≠ [] ∧ scope.length ≤ 65535) (hopts : opts.Admitted)
    (htime : ∀ missing c, mutate missing c = .ok (some written) →
      Circuit.NotAfter c.updatedAtMs now.ms ∧ next missing c = .ok (some written)) :
    ∃ missing c, c.Sane now.ms ∧ next missing c = .ok (some written) ∧
      (stored = some c ∧ c.Valid ∨ init = some c) := by
  unfold mutateCircuit at h
  split at h
  · rename_i c
    split at h
    · rename_i hvalid
      obtain ⟨hafter, hnext⟩ := htime false c h
      exact ⟨false, c, hvalid.sane hafter, hnext, .inl ⟨rfl, hvalid⟩⟩
    · exact nomatch h
  · split at h
    · rename_i c
      refine ⟨true, c, ?_, (htime true c h).2, .inr rfl⟩
      rw [hinit c rfl]
      exact Circuit.sane_new hscope hopts
    · cases h

/-- A new circuit is not half open. -/
theorem probe_of_start
    (hstart : stored = some c ∧ c.Valid ∨ init = some c) (hstatus : c.status = .halfOpen) :
    stored = some c ∧ c.halfOpenSuccesses < c.halfOpenSuccessThreshold := by
  obtain ⟨hstored, hvalid⟩ | hnew := hstart
  · obtain ⟨hne, -⟩ | ⟨-, -, hlt⟩ := hvalid.probeState
    · exact absurd hstatus hne
    · exact ⟨hstored, hlt⟩
  · rw [hinit c hnew] at hstatus
    cases hstatus

end

theorem init_eq_new {opts : RuleOpts} :
    ∀ c ∈ some (Circuit.new scope opts), c = Circuit.new scope opts :=
  fun _ hmem => (mem_some.mp hmem).symm

theorem init_none (scope : Bytes) : ∀ c ∈ none, c = Circuit.new scope closeOpts :=
  nofun

theorem admitted_closeOpts : closeOpts.Admitted := by
  constructor <;> decide

/-- What a call writes passes the check of a read. -/
theorem CircuitCall.apply_valid {call : CircuitCall} {written : Circuit}
    (h : call.apply env scope now.ms stored = .ok (some written))
    (hkeeps : call.KeepsProbes env stored) : written.Valid := by
  cases call with
  | manualOpen raw expectedReview =>
    obtain ⟨⟨⟩, hkey, h⟩ := bind_eq_ok_iff.mp h
    obtain ⟨opts, hraw, h⟩ := bind_eq_ok_iff.mp h
    have hopts := optionalRuleOpts_ok hraw
    obtain ⟨missing, c, hsane, h, -⟩ := mutateCircuit_ok init_eq_new h (circuitKey_ok hkey) hopts
      fun missing c h => by
        obtain ⟨-, -, h⟩ := bind_eq_ok_iff.mp h
        exact validateMutationTime_bind h
    cases h
    have hopened := (hsane.configure hopts).openCircuit now.le
    exact Circuit.Written.valid ⟨hopened.appendPlain now.le _ _, rfl, nofun⟩ now.le
  | manualClose expectedReview =>
    obtain ⟨⟨⟩, hkey, h⟩ := bind_eq_ok_iff.mp h
    obtain ⟨missing, c, hsane, h, -⟩ := mutateCircuit_ok init_eq_new h (circuitKey_ok hkey)
      admitted_closeOpts fun missing c h => by
        obtain ⟨-, -, h⟩ := bind_eq_ok_iff.mp h
        exact validateMutationTime_bind h
    cases h
    have hclosed := hsane.closeCircuit now.le
    exact Circuit.Written.valid ⟨hclosed.appendPlain now.le _ _, rfl, nofun⟩ now.le
  | recordFailure raw =>
    obtain ⟨⟨⟩, hkey, h⟩ := bind_eq_ok_iff.mp h
    obtain ⟨opts, hraw, h⟩ := bind_eq_ok_iff.mp h
    have hopts := optionalRuleOpts_ok hraw
    obtain ⟨missing, c, hsane, h, hstart⟩ := mutateCircuit_ok init_eq_new h (circuitKey_ok hkey)
      hopts fun _ _ => validateMutationTime_bind
    cases h
    refine ((hsane.configure hopts).recordFailure now.le hopts.latencyMs hopts.errorClass
      fun hhalf hignored => ?_).valid now.le
    exact hkeeps raw opts c rfl hraw (probe_of_start init_eq_new hstart hhalf).1 hhalf hignored
  | recordSuccess raw =>
    obtain ⟨⟨⟩, hkey, h⟩ := bind_eq_ok_iff.mp h
    obtain ⟨opts, hraw, h⟩ := bind_eq_ok_iff.mp h
    have hopts := optionalRuleOpts_ok hraw
    have hinit : ∀ c ∈ (if successTrackingRequired opts then some (Circuit.new scope opts)
        else none), c = Circuit.new scope opts := by
      split
      · exact init_eq_new
      · exact nofun
    obtain ⟨missing, c, hsane, h, -⟩ := mutateCircuit_ok hinit h (circuitKey_ok hkey) hopts
      fun _ _ => validateMutationTime_bind
    have hconfigured := hsane.configure hopts
    -- the configured circuit is updated now, or it is the stored one
    by_cases hsame : c.configure opts = c
    · rw [hsame] at h hconfigured
      simp only [if_true, pure_eq_ok, Except.ok.injEq] at h
      obtain hwritten | ⟨hkept, -⟩ := hconfigured.recordSuccess now.le hopts.latencyMs
      · split at h
        · exact nomatch h
        · obtain rfl := some.inj h
          exact hwritten.valid now.le
      · rw [if_pos hkept] at h
        cases h
    · simp only [if_neg hsame, pure_eq_ok, Except.ok.injEq] at h
      split at h
      · exact nomatch h
      · obtain rfl := some.inj h
        obtain hwritten | ⟨hkept, hidle⟩ :=
          (hconfigured.touch (some now.ms)).recordSuccess now.le hopts.latencyMs
        · exact hwritten.valid now.le
        · rw [hkept]
          exact (hconfigured.touch (some now.ms)).valid now.le rfl fun hhalf => absurd hhalf hidle
  | claimProbe =>
    obtain ⟨⟨⟩, hkey, h⟩ := bind_eq_ok_iff.mp h
    obtain ⟨missing, c, hsane, h, hstart⟩ := mutateCircuit_ok (init_none scope) h
      (circuitKey_ok hkey) admitted_closeOpts fun _ _ => validateMutationTime_bind
    split at h
    · rename_i havailable
      cases h
      exact (hsane.claimProbe now.le
        (fun hhalf => (probe_of_start (init_none scope) hstart hhalf).2) havailable).valid now.le
    · split at h
      · cases h
      · cases h
  | releasePermit =>
    obtain ⟨⟨⟩, hkey, h⟩ := bind_eq_ok_iff.mp h
    obtain ⟨missing, c, hsane, h, hstart⟩ := mutateCircuit_ok (init_none scope) h
      (circuitKey_ok hkey) admitted_closeOpts fun _ _ => validateMutationTime_bind
    simp only [pure_eq_ok, Except.ok.injEq] at h
    split at h
    · exact nomatch h
    · rename_i hchanged
      obtain rfl := some.inj h
      obtain hwritten | hkept := hsane.releaseProbe fun hhalf =>
        (probe_of_start (init_none scope) hstart hhalf).2
      · exact hwritten.valid now.le
      · exact absurd hkept hchanged

end Apply

/-! ## Runs -/

/-- A run of calls on one scope, each at a time of its own; in every state the call meets the
condition on probes. -/
inductive CircuitRun (env : CircuitEnv) (scope : Bytes) : Option Circuit → Option Circuit → Prop where
  | refl (stored : Option Circuit) : CircuitRun env scope stored stored
  | step {start stored : Option Circuit} (call : CircuitCall) (now : Time)
      (run : CircuitRun env scope start stored) (keeps : call.KeepsProbes env stored) :
      CircuitRun env scope start (call.store env scope now.ms stored)

/-- A call leaves a record that passes the check of a read. -/
theorem CircuitCall.store_valid {env : CircuitEnv} {scope : Bytes} {call : CircuitCall} {now : Time}
    {stored : Option Circuit} (h : ∀ c ∈ stored, c.Valid) (hkeeps : call.KeepsProbes env stored) :
    ∀ c ∈ call.store env scope now.ms stored, c.Valid := by
  unfold CircuitCall.store
  split
  · rename_i written hwritten
    intro c hmem
    rw [← mem_some.mp hmem]
    exact CircuitCall.apply_valid hwritten hkeeps
  · exact h

/-- The record of a circuit stays one that a read admits, over every run of the calls of the store. -/
theorem stored_circuit_stays_valid {env : CircuitEnv} {scope : Bytes}
    {start stored : Option Circuit} (hstart : ∀ c ∈ start, c.Valid)
    (hrun : CircuitRun env scope start stored) : ∀ c ∈ stored, c.Valid := by
  induction hrun with
  | refl => exact hstart
  | step call now _ keeps ih => exact CircuitCall.store_valid ih keeps

/-- An environment in which a digest is 43 zero bytes. -/
def plainEnv : CircuitEnv where
  digest := ⟨fun _ => List.replicate 43 0, fun _ => List.length_replicate⟩
  tag := fun _ => []
  fingerprint := fun _ => []

/-- No options. -/
def noOpts : RawOpts :=
  ⟨none, none, none, none, none, none, none, none, none, none, none⟩

/-- The record after calls at their times. -/
def runCalls (calls : List (CircuitCall × Nat)) (stored : Option Circuit) : Option Circuit :=
  calls.foldl (fun stored call => call.1.store env scope call.2 stored) stored

/-- An ignored failure that configures the number of successes. -/
def ignoredFailure (threshold : Nat) : CircuitCall :=
  .recordFailure { noOpts with
    halfOpenSuccessThreshold := some threshold
    errorClasses := some [[120]]
    errorClass := some [121] }

/-- A circuit that needs three successes, with one success. -/
def halfOpenCalls : List (CircuitCall × Nat) :=
  [(.manualOpen { noOpts with halfOpenSuccessThreshold := some 3 } none, 0), (.claimProbe, 30000),
    (.recordSuccess noOpts, 30001)]

/-- A half-open circuit that needs three successes has one. An ignored failure that configures two as
enough leaves it half-open and valid. -/
theorem stored_circuit_stays_valid_probed :
    let calls := halfOpenCalls ++ [(ignoredFailure 2, 30002)]
    (∃ c ∈ runCalls plainEnv [115] calls none, c.status = .halfOpen ∧ c.halfOpenSuccesses = 1 ∧
      c.halfOpenSuccessThreshold = 2) ∧
    ∀ c ∈ runCalls plainEnv [115] calls none, c.Valid := by
  intro calls
  have hstart : ∀ c ∈ (none : Option Circuit), c.Valid := fun _ hmem => nomatch hmem
  have hprobed : CircuitRun plainEnv [115] none (runCalls plainEnv [115] halfOpenCalls none) := by
    have hopened := CircuitRun.step (.manualOpen { noOpts with halfOpenSuccessThreshold := some 3 } none)
      ⟨0, by decide⟩ (CircuitRun.refl none : CircuitRun plainEnv [115] none none)
      (fun _ _ _ hcall => nomatch hcall)
    have hclaimed := CircuitRun.step .claimProbe ⟨30000, by decide⟩ hopened
      (fun _ _ _ hcall => nomatch hcall)
    exact CircuitRun.step (.recordSuccess noOpts) ⟨30001, by decide⟩ hclaimed
      (fun _ _ _ hcall => nomatch hcall)
  refine ⟨by decide, stored_circuit_stays_valid hstart
    (CircuitRun.step (ignoredFailure 2) ⟨30002, by decide⟩ hprobed ?_)⟩
  intro raw opts c hcall hopts hstored _ _
  cases hcall
  cases hopts
  cases hstored
  decide

/-- A half-open circuit that needs three successes has one. An ignored failure that configures one
success as enough leaves a record that no read admits. -/
theorem ignored_failure_corrupts_circuit :
    ∃ c ∈ runCalls plainEnv [115] (halfOpenCalls ++ [(ignoredFailure 1, 30002)]) none, ¬ c.Valid := by
  decide

end FerricStore.Governance
