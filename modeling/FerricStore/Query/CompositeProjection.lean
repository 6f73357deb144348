import FerricStore.Lib.MapTotal
import FerricStore.Query.CompositeIndex

/-!
# The composite projection

A call plans a transaction from what it has read or cached: guards on the exact reverse value and on the
exact counters, the counters that change, the rows that go and the rows that come, and the new reverse
value. The transaction is applied as a whole, or not at all when a guard does not hold.
-/

namespace FerricStore.Query

/-! ## The store -/

/-- The value of a counter. -/
structure CounterValue where
  lead : Bytes
  count : Nat
  expiringCount : Nat
  physicalCount : Nat
  deriving DecidableEq

/-- The three families of keys: index rows, reverse values and counters. The common first bytes of a
family are left out of the keys of the last two. -/
structure CompositeStore where
  rows : SortedMap Bytes Bytes
  reverse : SortedMap Bytes Bytes
  counters : SortedMap Bytes CounterValue

/-- An operation; a comparison with nothing is `:compare_missing`. -/
inductive Op
  | compareReverse (key : Bytes) (expected : Option Bytes)
  | compareCounter (key : Bytes) (expected : Option CounterValue)
  | deleteCounter (key : Bytes)
  | putCounter (key : Bytes) (value : CounterValue)
  | deleteRow (key : Bytes)
  | putRow (key value : Bytes)
  | deleteReverse (key : Bytes)
  | putReverse (key blob : Bytes)

def applyOp (s : CompositeStore) : Op → Option CompositeStore
  | .compareReverse key expected => if s.reverse.get key = expected then some s else none
  | .compareCounter key expected => if s.counters.get key = expected then some s else none
  | .deleteCounter key => some { s with counters := s.counters.erase key }
  | .putCounter key value => some { s with counters := s.counters.put key value }
  | .deleteRow key => some { s with rows := s.rows.erase key }
  | .putRow key value => some { s with rows := s.rows.put key value }
  | .deleteReverse key => some { s with reverse := s.reverse.erase key }
  | .putReverse key blob => some { s with reverse := s.reverse.put key blob }

/-- The operations in order; nothing is applied when a guard does not hold. -/
def applyOps : List Op → CompositeStore → Option CompositeStore
  | [], s => some s
  | op :: rest, s => (applyOp s op).bind (applyOps rest)

/-- What a batch remembers of the values it has read and planned. -/
structure Cache where
  reverseValues : SortedMap Bytes (Option Bytes × List Bytes × Nat)
  counterValues : SortedMap Bytes (Bytes × Option CounterValue × Nat × Nat × Nat)

/-- `new_cache` -/
def newCache : Cache := ⟨.empty, .empty⟩

def Cache.putReverse (cache : Cache) (stateKey : Bytes) (blob : Option Bytes) (keys : List Bytes)
    (expireAtMs : Nat) : Cache :=
  { cache with reverseValues := cache.reverseValues.put stateKey (blob, keys, expireAtMs) }

def Cache.putCounter (cache : Cache) (key lead : Bytes) (value : Option CounterValue)
    (count expiringCount physicalCount : Nat) : Cache :=
  { cache with counterValues :=
      cache.counterValues.put key (lead, value, count, expiringCount, physicalCount) }

inductive ProjectionError
  | entry (reason : EntryError)
  | compositeProjectionTooLarge
  | invalidCompositeProjection
  | invalidCompositeReverse
  | compositeCounterCollision
  | invalidCompositeCounterRead
  | compositeCounterUnderflow
  | compositeCounterOverflow
  | invalidCompositeCounter
  | argumentError

/-! ## Planning -/

variable (env : QueryEnv)

/-- `reverse_key` -/
def reverseKey (stateKey : Bytes) : Bytes := env.sha256 stateKey

variable (d : IndexDefinition)

/-- `CompositeCounter.key` -/
def counterKey (lead : Bytes) : Bytes :=
  beBytes 8 d.version ++ (d.fingerprint ++ env.sha256 lead)

/-- `projected_entries` -/
def projectedEntries (env : QueryEnv) (r : Record) (stateKey : Bytes) (expireAtMs : Nat) :
    List IndexDefinition → List (Bytes × Bytes) → Except ProjectionError (List (Bytes × Bytes))
  | [], acc => .ok acc
  | d :: rest, acc =>
    match entries env d r stateKey expireAtMs with
    | .ok found =>
      if acc.length + found.length ≤ 128 then
        projectedEntries env r stateKey expireAtMs rest (acc ++ found)
      else .error .compositeProjectionTooLarge
    | .error .unscopedRecord => projectedEntries env r stateKey expireAtMs rest acc
    | .error reason => .error (.entry reason)

variable (seen : CompositeStore)

/-- `reverse_value`: the value, its keys and its expiry, from the cache or from the store. -/
def reverseValue (stateKey : Bytes) (cache : Cache) :
    Except ProjectionError (Option Bytes × List Bytes × Nat × Cache) :=
  match cache.reverseValues.get stateKey with
  | some (blob, keys, expireAtMs) => .ok (blob, keys, expireAtMs, cache)
  | none =>
    match seen.reverse.get (reverseKey env stateKey) with
    | none => .ok (none, [], 0, cache.putReverse stateKey none [] 0)
    | some blob =>
      match decodeReverseState env blob stateKey with
      | some (keys, expireAtMs) =>
        .ok (some blob, keys, expireAtMs,
          cache.putReverse stateKey (some blob) keys expireAtMs)
      | none => .error .invalidCompositeReverse

/-- The prefixes of a key that a definition counts, as `definition_prefix_counts` cuts them out. -/
def declaredPrefixes (key : Bytes) : List Bytes :=
  if key.length = entryKeyBytes d ∧ d.storagePrefix <+: key then
    d.countPrefixes.map fun prefixLength => key.take (prefixBytes d prefixLength)
  else []

/-- The prefixes that a definition counts for a list of keys, each as often as it is counted. -/
def countedPrefixes (keys : List Bytes) : List Bytes :=
  keys.flatMap (declaredPrefixes d)

/-- One change of a counter. -/
structure CounterChange where
  definition : IndexDefinition
  lead : Bytes
  countDelta : Int
  expiringDelta : Int
  physicalDelta : Int

/-- `membership_delta`, `expiring_membership_delta` and the change of the physical count -/
def counterDelta (old next : List Bytes) (oldExpireAtMs nextExpireAtMs : Nat) (d : IndexDefinition)
    (lead : Bytes) : CounterChange :=
  { definition := d
    lead := lead
    countDelta := (if lead ∈ next then 1 else 0) - (if lead ∈ old then 1 else 0)
    expiringDelta := (if 0 < nextExpireAtMs ∧ lead ∈ next then 1 else 0) -
      (if 0 < oldExpireAtMs ∧ lead ∈ old then 1 else 0)
    physicalDelta := (next.count lead : Int) - old.count lead }

variable (definitions : List IndexDefinition)

/-- The changes of `reconcile_counters`: one for each prefix that is counted before or after, unless
nothing changes. -/
def counterChanges (oldKeys nextKeys : List Bytes)
    (oldExpireAtMs nextExpireAtMs : Nat) : List CounterChange :=
  definitions.flatMap fun d =>
    let old := countedPrefixes d oldKeys
    let next := countedPrefixes d nextKeys
    ((old ++ next).dedup.map (counterDelta old next oldExpireAtMs nextExpireAtMs d)).filter
      fun change => decide (¬ (change.countDelta = 0 ∧ change.expiringDelta = 0 ∧
        change.physicalDelta = 0))

/-- `checked_counter_delta` -/
def checkedCounterDelta (count : Nat) (delta : Int) : Except ProjectionError Nat :=
  if (count : Int) + delta < 0 then .error .compositeCounterUnderflow
  else if 2 ^ 64 ≤ (count : Int) + delta then .error .compositeCounterOverflow
  else .ok ((count : Int) + delta).toNat

/-- `counter_value` -/
def counterValue (key lead : Bytes) (cache : Cache) :
    Except ProjectionError (Option CounterValue × Nat × Nat × Nat × Cache) :=
  match cache.counterValues.get key with
  | some (cachedLead, value, count, expiringCount, physicalCount) =>
    if cachedLead = lead then .ok (value, count, expiringCount, physicalCount, cache)
    else .error .compositeCounterCollision
  | none =>
    match seen.counters.get key with
    | none => .ok (none, 0, 0, 0, cache.putCounter key lead none 0 0 0)
    | some value =>
      if value.lead = lead ∧ value.expiringCount ≤ value.count ∧
          value.count ≤ value.physicalCount then
        .ok (some value, value.count, value.expiringCount, value.physicalCount,
          cache.putCounter key lead (some value) value.count value.expiringCount
            value.physicalCount)
      else .error .invalidCompositeCounterRead

/-- `counter_change` -/
def counterChange (change : CounterChange) (cache : Cache) :
    Except ProjectionError (List Op × Cache) := do
  let key := counterKey env change.definition change.lead
  let (value, count, expiringCount, physicalCount, cache) ←
    counterValue seen key change.lead cache
  let nextCount ← checkedCounterDelta count change.countDelta
  let nextExpiringCount ← checkedCounterDelta expiringCount change.expiringDelta
  let nextPhysicalCount ← checkedCounterDelta physicalCount change.physicalDelta
  if nextExpiringCount ≤ nextCount ∧ nextCount ≤ nextPhysicalCount ∧
      (nextCount = 0 ↔ nextPhysicalCount = 0) then
    if nextCount = 0 then
      pure ([.compareCounter key value, .deleteCounter key],
        cache.putCounter key change.lead none nextCount nextExpiringCount nextPhysicalCount)
    else
      let next : CounterValue := ⟨change.lead, nextCount, nextExpiringCount, nextPhysicalCount⟩
      pure ([.compareCounter key value, .putCounter key next],
        cache.putCounter key change.lead (some next) nextCount nextExpiringCount nextPhysicalCount)
  else .error .invalidCompositeCounter

/-- `reconcile_counters`, of the changes -/
def reconcileCounters (env : QueryEnv) (seen : CompositeStore) :
    List CounterChange → Cache → Except ProjectionError (List Op × Cache)
  | [], cache => .ok ([], cache)
  | change :: rest, cache => do
    let (ops, cache) ← counterChange env seen change cache
    let (others, cache) ← reconcileCounters env seen rest cache
    pure (ops ++ others, cache)

/-- `reverse_write` -/
def reverseWrite (stateKey : Bytes) (keys : List Bytes) (expireAtMs : Nat) :
    Except ProjectionError (Op × Option Bytes) :=
  if keys = [] then .ok (.deleteReverse (reverseKey env stateKey), none)
  else if keys.length ≤ 128 then
    match encodeReverseValue env stateKey keys expireAtMs with
    | some blob => .ok (.putReverse (reverseKey env stateKey) blob, some blob)
    | none => .error .argumentError
  else .error .compositeProjectionTooLarge

/-- The keys after a call. -/
def nextKeysOf (preserved : List Bytes) (found : List (Bytes × Bytes)) : List Bytes :=
  (preserved ++ found.map Prod.fst).dedup.mergeSort

/-- `reconcile_entries` -/
def reconcileEntries (stateKey : Bytes)
    (found : List (Bytes × Bytes)) (preserved : List Bytes) (oldBlob : Option Bytes)
    (oldKeys : List Bytes) (oldExpireAtMs nextExpireAtMs : Nat)
    (definitions : List IndexDefinition) (cache : Cache) :
    Except ProjectionError (List Op × Cache) := do
  let nextKeys := nextKeysOf preserved found
  let (reverseOp, nextBlob) ← reverseWrite env stateKey nextKeys nextExpireAtMs
  let (counterOps, cache) ← reconcileCounters env seen
    (counterChanges definitions oldKeys nextKeys oldExpireAtMs nextExpireAtMs) cache
  let staleOps := (oldKeys.filter fun key => decide (key ∉ nextKeys)).mergeSort.map Op.deleteRow
  let putOps := found.map fun entry => Op.putRow entry.1 entry.2
  pure (.compareReverse (reverseKey env stateKey) oldBlob ::
      (counterOps ++ (staleOps ++ (putOps ++ [reverseOp]))),
    cache.putReverse stateKey nextBlob nextKeys nextExpireAtMs)

/-- `preserved_keys` -/
def preservedKeys (keys : List Bytes) (definitions projected : List IndexDefinition) : List Bytes :=
  keys.filter fun key => projected.any fun d =>
    decide (d.storagePrefix ∉ definitions.map IndexDefinition.storagePrefix ∧ d.storagePrefix <+: key)

/-- The calls, with the definitions that a call on a subset manages. -/
inductive Call
  | reconcile (stateKey : Bytes) (record : Record) (expireAtMs : Nat)
  | reconcileSubset (stateKey : Bytes) (record : Record) (expireAtMs : Nat)
      (managed : List IndexDefinition)
  | remove (stateKey : Bytes)
  | removeSubset (stateKey : Bytes) (managed : List IndexDefinition)

def Call.stateKey : Call → Bytes
  | .reconcile stateKey _ _ => stateKey
  | .reconcileSubset stateKey _ _ _ => stateKey
  | .remove stateKey => stateKey
  | .removeSubset stateKey _ => stateKey

/-- `reconcile`, `reconcile_subset`, `remove` and `remove_subset`, with the projected definitions. -/
def plan (seen : CompositeStore) (cache : Cache)
    (call : Call) : Except ProjectionError (List Op × Cache) :=
  if call.stateKey = [] ∨ 65535 < call.stateKey.length then .error .invalidCompositeProjection
  else
    match call with
    | .reconcile stateKey record expireAtMs =>
      if definitions = [] then .ok ([], cache)
      else do
        let found ← projectedEntries env record stateKey expireAtMs definitions []
        let (oldBlob, oldKeys, oldExpireAtMs, cache) ← reverseValue env seen stateKey cache
        let nextExpireAtMs := if found = [] then 0 else expireAtMs
        reconcileEntries env seen stateKey found [] oldBlob oldKeys oldExpireAtMs nextExpireAtMs
          definitions cache
    | .reconcileSubset stateKey record expireAtMs managed => do
      let found ← projectedEntries env record stateKey expireAtMs managed []
      let (oldBlob, oldKeys, oldExpireAtMs, cache) ← reverseValue env seen stateKey cache
      let preserved := preservedKeys oldKeys managed definitions
      let nextExpireAtMs := if found = [] ∧ preserved = [] then 0 else expireAtMs
      reconcileEntries env seen stateKey found preserved oldBlob oldKeys oldExpireAtMs
        nextExpireAtMs managed cache
    | .remove stateKey => do
      let (oldBlob, oldKeys, oldExpireAtMs, cache) ← reverseValue env seen stateKey cache
      reconcileEntries env seen stateKey [] [] oldBlob oldKeys oldExpireAtMs 0 definitions cache
    | .removeSubset stateKey managed => do
      let (oldBlob, oldKeys, oldExpireAtMs, cache) ← reverseValue env seen stateKey cache
      let preserved := preservedKeys oldKeys managed definitions
      let nextExpireAtMs := if preserved = [] then 0 else oldExpireAtMs
      reconcileEntries env seen stateKey [] preserved oldBlob oldKeys oldExpireAtMs nextExpireAtMs
        managed cache

/-- A call with what it is planned from: the store as it is when the call reads it, and its cache. -/
structure PlannedCall where
  call : Call
  seen : CompositeStore
  cache : Cache

/-- The store after a transaction that commits. -/
def commit (s : CompositeStore) (p : PlannedCall) : Option CompositeStore :=
  match plan env definitions p.seen p.cache p.call with
  | .ok (ops, _) => applyOps ops s
  | .error _ => none

end FerricStore.Query
