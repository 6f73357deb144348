import FerricStore.Query.CompositeProjection

/-!
# What a committed transaction does

`Committed` states the effect of a transaction of the composite projection whose guards hold, on the
rows and on the reverse value. `Cache.Sound` is what every cache keeps that is made by planning.
-/

namespace FerricStore.Query

open Option List

variable {env : QueryEnv} {s s' : CompositeStore} {seen : CompositeStore} {cache cache' : Cache}
  {stateKey : Bytes}

/-! ## Applying operations -/

/-- Operations in two parts. -/
theorem applyOps_append (first second : List Op) (s : CompositeStore) :
    applyOps (first ++ second) s = (applyOps first s).bind (applyOps second) := by
  induction first generalizing s with
  | nil => rfl
  | cons op rest ih =>
    simp only [cons_append, applyOps]
    cases applyOp s op with
    | none => rfl
    | some next => exact ih next

/-- Operations that change one row each. -/
theorem applyOps_map {α : Type} {op : α → Op}
    (f : SortedMap Bytes Bytes → α → SortedMap Bytes Bytes)
    (hop : ∀ s item, applyOp s (op item) = some { s with rows := f s.rows item }) (items : List α)
    (s : CompositeStore) :
    applyOps (items.map op) s = some { s with rows := items.foldl f s.rows } := by
  induction items generalizing s with
  | nil => rfl
  | cons item rest ih => simp only [map_cons, applyOps, hop, bind_some, ih, foldl_cons]

/-- Deleting rows leaves the others. -/
theorem get_foldl_erase (keys : List Bytes) (rows : SortedMap Bytes Bytes) (key : Bytes) :
    (keys.foldl (fun rows key => rows.erase key) rows).get key =
      if key ∈ keys then none else rows.get key := by
  induction keys generalizing rows with
  | nil => simp
  | cons first rest ih =>
    rw [foldl_cons, ih, SortedMap.get_erase]
    by_cases hrest : key ∈ rest
    · simp [hrest]
    · by_cases hfirst : key = first
      · simp [hfirst]
      · simp [hrest, hfirst]

variable {key : Bytes}

/-- Writing rows leaves the others. -/
theorem get_foldl_put_of_not_mem {found : List (Bytes × Bytes)}
    (h : key ∉ found.map Prod.fst) (rows : SortedMap Bytes Bytes) :
    (found.foldl (fun rows entry => rows.put entry.1 entry.2) rows).get key = rows.get key := by
  induction found generalizing rows with
  | nil => rfl
  | cons entry rest ih =>
    simp only [map_cons, mem_cons, not_or] at h
    rw [foldl_cons, ih h.2, SortedMap.get_put, if_neg h.1]

/-- Every row that is written is there. -/
theorem isSome_foldl_put_of_mem {found : List (Bytes × Bytes)}
    (h : key ∈ found.map Prod.fst) (rows : SortedMap Bytes Bytes) :
    ((found.foldl (fun rows entry => rows.put entry.1 entry.2) rows).get key).isSome = true := by
  induction found generalizing rows with
  | nil => cases h
  | cons entry rest ih =>
    rw [foldl_cons]
    by_cases hrest : key ∈ rest.map Prod.fst
    · exact ih hrest _
    · obtain rfl | hmem := mem_cons.mp h
      · rw [get_foldl_put_of_not_mem hrest]
        simp
      · exact absurd hmem hrest

/-- The operations on counters. -/
def Op.OnCounter : Op → Prop
  | .compareCounter _ _ => True
  | .deleteCounter _ => True
  | .putCounter _ _ => True
  | _ => False

variable {ops : List Op}

/-- Operations on counters leave the rows and the reverse values. -/
theorem applyOps_onCounter (hops : ∀ op ∈ ops, op.OnCounter) :
    ∀ {s s' : CompositeStore}, applyOps ops s = some s' →
      s'.rows = s.rows ∧ s'.reverse = s.reverse := by
  induction ops with
  | nil =>
    intro s s' h
    cases h
    exact ⟨rfl, rfl⟩
  | cons op rest ih =>
    intro s s' h
    obtain ⟨next, hop, hrest⟩ := bind_eq_some_iff.mp h
    obtain ⟨hrows, hreverse⟩ := ih (forall_mem_cons.mp hops).2 hrest
    have hnext : next.rows = s.rows ∧ next.reverse = s.reverse := by
      have hcounter := hops op mem_cons_self
      cases op with
      | compareCounter key expected =>
        simp only [applyOp] at hop
        split at hop
        · obtain rfl := some.inj hop
          exact ⟨rfl, rfl⟩
        · exact nomatch hop
      | deleteCounter | putCounter =>
        cases hop
        exact ⟨rfl, rfl⟩
      | _ => exact hcounter.elim
    exact ⟨hrows.trans hnext.1, hreverse.trans hnext.2⟩

/-- Reading a counter leaves the cached reverse values. -/
theorem counterValue_reverseValues {key lead : Bytes}
    {found : Option CounterValue × Nat × Nat × Nat × Cache}
    (h : counterValue seen key lead cache = .ok found) :
    found.2.2.2.2.reverseValues = cache.reverseValues := by
  unfold counterValue at h
  split at h
  · split at h
    · cases h
      rfl
    · cases h
  · split at h
    · cases h
      rfl
    · split at h
      · cases h
        rfl
      · cases h

/-- A change of a counter has operations on counters only, and leaves the cached reverse values. -/
theorem counterChange_onCounter {change : CounterChange}
    (h : counterChange env seen change cache = .ok (ops, cache')) :
    (∀ op ∈ ops, op.OnCounter) ∧ cache'.reverseValues = cache.reverseValues := by
  obtain ⟨value, hvalue, h⟩ := bind_eq_ok_iff.mp h
  obtain ⟨nextCount, -, h⟩ := bind_eq_ok_iff.mp h
  obtain ⟨nextExpiringCount, -, h⟩ := bind_eq_ok_iff.mp h
  obtain ⟨nextPhysicalCount, -, h⟩ := bind_eq_ok_iff.mp h
  have hcached := counterValue_reverseValues hvalue
  split at h
  · split at h
    all_goals
      cases h
      exact ⟨by simp [Op.OnCounter], hcached⟩
  · cases h

/-- So do the changes of all counters, by induction on them. -/
theorem reconcileCounters_onCounter {changes : List CounterChange} :
    ∀ {cache cache' : Cache} {ops : List Op},
      reconcileCounters env seen changes cache = .ok (ops, cache') →
        (∀ op ∈ ops, op.OnCounter) ∧ cache'.reverseValues = cache.reverseValues := by
  induction changes with
  | nil =>
    intro cache cache' ops h
    cases h
    exact ⟨nofun, rfl⟩
  | cons change rest ih =>
    intro cache cache' ops h
    obtain ⟨⟨first, cache₁⟩, hfirst, h⟩ := bind_eq_ok_iff.mp h
    obtain ⟨⟨others, cache₂⟩, hothers, h⟩ := bind_eq_ok_iff.mp h
    cases h
    obtain ⟨hops, hcached⟩ := counterChange_onCounter hfirst
    obtain ⟨hops', hcached'⟩ := ih hothers
    exact ⟨fun op hop => (mem_append.mp hop).elim (hops op) (hops' op), hcached'.trans hcached⟩

/-! ## The effect of a transaction -/

/-- What a call computes its transaction from. -/
structure Inputs where
  stateKey : Bytes
  found : List (Bytes × Bytes)
  preserved : List Bytes
  oldBlob : Option Bytes
  oldKeys : List Bytes
  oldExpireAtMs : Nat
  nextExpireAtMs : Nat
  managed : List IndexDefinition

/-- The keys that the reverse value lists after the call. -/
def Inputs.nextKeys (x : Inputs) : List Bytes := nextKeysOf x.preserved x.found

/-- The keys of the rows that go. -/
def Inputs.stale (x : Inputs) : List Bytes := x.oldKeys.filter fun key => decide (key ∉ x.nextKeys)

@[simp] theorem Inputs.mem_nextKeys {x : Inputs} :
    key ∈ x.nextKeys ↔ key ∈ x.preserved ∨ key ∈ x.found.map Prod.fst := by
  rw [nextKeys, nextKeysOf, mem_mergeSort, mem_dedup, mem_append]

/-- Nothing is listed when nothing is preserved and nothing is found. -/
theorem Inputs.nextKeys_eq_nil {x : Inputs} :
    x.nextKeys = [] ↔ x.preserved = [] ∧ x.found = [] := by
  simp [eq_nil_iff_forall_not_mem, forall_and]

/-- The reverse value goes with the last key, and is written otherwise. -/
theorem reverseWrite_ok {keys : List Bytes} {expireAtMs : Nat} {op : Op} {blob : Option Bytes}
    (h : reverseWrite env stateKey keys expireAtMs = .ok (op, blob)) :
    (keys = [] ∧ op = .deleteReverse (reverseKey env stateKey) ∧ blob = none) ∨
      ∃ value, encodeReverseValue env stateKey keys expireAtMs = some value ∧
        op = .putReverse (reverseKey env stateKey) value ∧ blob = some value := by
  unfold reverseWrite at h
  split at h
  · rename_i hempty
    cases h
    exact .inl ⟨hempty, rfl, rfl⟩
  · split at h
    · split at h
      · rename_i value hvalue
        cases h
        exact .inr ⟨value, hvalue, rfl, rfl⟩
      · cases h
    · cases h

/-- The effect of a transaction that commits. -/
structure Committed (env : QueryEnv) (x : Inputs) (s s' : CompositeStore) : Prop where
  guard : s.reverse.get (reverseKey env x.stateKey) = x.oldBlob
  kept : ∀ key, key ∉ x.stale → key ∉ x.found.map Prod.fst → s'.rows.get key = s.rows.get key
  gone : ∀ key ∈ x.stale, key ∉ x.found.map Prod.fst → s'.rows.get key = none
  put : ∀ key ∈ x.found.map Prod.fst, (s'.rows.get key).isSome = true
  reverse : (x.nextKeys = [] ∧ s'.reverse = s.reverse.erase (reverseKey env x.stateKey)) ∨
    ∃ blob, encodeReverseValue env x.stateKey x.nextKeys x.nextExpireAtMs = some blob ∧
      s'.reverse = s.reverse.put (reverseKey env x.stateKey) blob

/-- A call plans its transaction from its inputs. -/
def Inputs.Plans (env : QueryEnv) (seen : CompositeStore) (cache : Cache) (x : Inputs)
    (ops : List Op) (cache' : Cache) : Prop :=
  reconcileEntries env seen x.stateKey x.found x.preserved x.oldBlob x.oldKeys x.oldExpireAtMs
    x.nextExpireAtMs x.managed cache = .ok (ops, cache')

/-- A transaction commits if its guards hold, and then has the effect of its inputs. -/
theorem Inputs.Plans.commit {x : Inputs} (hplan : x.Plans env seen cache ops cache')
    (happly : applyOps ops s = some s') : Committed env x s s' := by
  obtain ⟨⟨reverseOp, nextBlob⟩, hreverse, hplan⟩ := bind_eq_ok_iff.mp hplan
  obtain ⟨⟨counterOps, cache₁⟩, hcounters, hplan⟩ := bind_eq_ok_iff.mp hplan
  cases hplan
  simp only [applyOps, applyOp] at happly
  split at happly
  · rename_i hguard
    simp only [bind_some, applyOps_append] at happly
    obtain ⟨between, hbetween, happly⟩ := bind_eq_some_iff.mp happly
    obtain ⟨hrows, hreverseSame⟩ :=
      applyOps_onCounter (reconcileCounters_onCounter hcounters).1 hbetween
    rw [applyOps_map (fun rows key => rows.erase key) fun _ _ => rfl, bind_some,
      applyOps_map (fun rows entry => rows.put entry.1 entry.2) fun _ _ => rfl, bind_some] at happly
    have hstale : ∀ key, key ∈ (x.oldKeys.filter fun key => decide (key ∉ x.nextKeys)).mergeSort ↔
        key ∈ x.stale := fun key => mem_mergeSort
    have hrow : ∀ key, s'.rows.get key = ((x.found.foldl (fun rows entry =>
          rows.put entry.1 entry.2) (((x.oldKeys.filter fun key =>
            decide (key ∉ x.nextKeys)).mergeSort).foldl (fun rows key => rows.erase key)
              s.rows)).get key) := by
      intro key
      rw [← hrows]
      obtain ⟨-, rfl, -⟩ | ⟨value, -, rfl, -⟩ := reverseWrite_ok hreverse <;>
      · cases happly
        rfl
    refine ⟨hguard, fun key hkept hnew => ?_, fun key hgone hnew => ?_, fun key hnew => ?_, ?_⟩
    · rw [hrow key, get_foldl_put_of_not_mem hnew, get_foldl_erase,
        if_neg fun hmem => hkept ((hstale key).mp hmem)]
    · rw [hrow key, get_foldl_put_of_not_mem hnew, get_foldl_erase,
        if_pos ((hstale key).mpr hgone)]
    · rw [hrow key]
      exact isSome_foldl_put_of_mem hnew _
    · obtain ⟨hempty, rfl, -⟩ | ⟨value, hvalue, rfl, -⟩ := reverseWrite_ok hreverse
      · cases happly
        exact .inl ⟨hempty, by rw [← hreverseSame]⟩
      · cases happly
        exact .inr ⟨value, hvalue, by rw [← hreverseSame]⟩
  · exact nomatch happly

/-! ## What a call is planned from -/

/-- A value that a cache may hold of a reverse value: what it says. -/
def Says (env : QueryEnv) (stateKey : Bytes) (blob : Option Bytes) (keys : List Bytes)
    (expireAtMs : Nat) : Prop :=
  match blob with
  | none => keys = [] ∧ expireAtMs = 0
  | some blob => decodeReverseState env blob stateKey = some (keys, expireAtMs)

/-- A cache holds what the reverse values that it names say. -/
def Cache.Sound (env : QueryEnv) (cache : Cache) : Prop :=
  ∀ stateKey blob keys expireAtMs,
    cache.reverseValues.get stateKey = some (blob, keys, expireAtMs) →
      Says env stateKey blob keys expireAtMs

theorem newCache_sound : newCache.Sound env := nofun

section

variable {blob : Option Bytes} {keys : List Bytes} {expireAtMs : Nat}

/-- A cache may remember what a reverse value says. -/
theorem Cache.Sound.putReverse (h : cache.Sound env)
    (htold : Says env stateKey blob keys expireAtMs) :
    (cache.putReverse stateKey blob keys expireAtMs).Sound env := by
  intro other blob' keys' expireAtMs' hget
  simp only [Cache.putReverse, SortedMap.get_put] at hget
  split at hget
  · rename_i heq
    cases hget
    rw [heq]
    exact htold
  · exact h _ _ _ _ hget

/-- What is read from a sound cache or from the store is what the value says. -/
theorem reverseValue_ok (hcache : cache.Sound env)
    (h : reverseValue env seen stateKey cache = .ok (blob, keys, expireAtMs, cache')) :
    Says env stateKey blob keys expireAtMs ∧ cache'.Sound env := by
  unfold reverseValue at h
  split at h
  · rename_i hcached
    cases h
    exact ⟨hcache _ _ _ _ hcached, hcache⟩
  · split at h
    · cases h
      exact ⟨⟨rfl, rfl⟩, hcache.putReverse ⟨rfl, rfl⟩⟩
    · split at h
      · rename_i hdecode
        cases h
        exact ⟨hdecode, hcache.putReverse hdecode⟩
      · cases h

end

/-- The inputs of a call, from the old keys and the old expiry. -/
def Call.Gives (env : QueryEnv) (definitions : List IndexDefinition) (x : Inputs) : Call → Prop
  | .reconcile stateKey record expireAtMs => x.stateKey = stateKey ∧ x.managed = definitions ∧
      projectedEntries env record stateKey expireAtMs definitions [] = .ok x.found ∧
      x.preserved = [] ∧ x.nextExpireAtMs = if x.found = [] then 0 else expireAtMs
  | .reconcileSubset stateKey record expireAtMs managed => x.stateKey = stateKey ∧
      x.managed = managed ∧
      projectedEntries env record stateKey expireAtMs managed [] = .ok x.found ∧
      x.preserved = preservedKeys x.oldKeys managed definitions ∧
      x.nextExpireAtMs = if x.found = [] ∧ x.preserved = [] then 0 else expireAtMs
  | .remove stateKey => x.stateKey = stateKey ∧ x.managed = definitions ∧ x.found = [] ∧
      x.preserved = [] ∧ x.nextExpireAtMs = 0
  | .removeSubset stateKey managed => x.stateKey = stateKey ∧ x.managed = managed ∧ x.found = [] ∧
      x.preserved = preservedKeys x.oldKeys managed definitions ∧
      x.nextExpireAtMs = if x.preserved = [] then 0 else x.oldExpireAtMs

/-- Without keys there is no expiry. -/
theorem Call.Gives.expiry {definitions : List IndexDefinition} {x : Inputs} {call : Call}
    (h : call.Gives env definitions x) (hnone : x.nextKeys = []) : x.nextExpireAtMs = 0 := by
  obtain ⟨hpreserved, hfound⟩ := Inputs.nextKeys_eq_nil.mp hnone
  cases call with
  | reconcile => exact h.2.2.2.2.trans (if_pos hfound)
  | reconcileSubset => exact h.2.2.2.2.trans (if_pos ⟨hfound, hpreserved⟩)
  | remove => exact h.2.2.2.2
  | removeSubset => exact h.2.2.2.2.trans (if_pos hpreserved)

/-- A call plans from its inputs, with the old reverse value as it was read. A reconciliation without
definitions does nothing. -/
theorem plan_ok {definitions : List IndexDefinition} {call : Call}
    (h : plan env definitions seen cache call = .ok (ops, cache')) :
    (definitions = [] ∧ ops = [] ∧ cache' = cache) ∨ ∃ x cache₁, call.Gives env definitions x ∧
      x.stateKey = call.stateKey ∧
      reverseValue env seen x.stateKey cache =
        .ok (x.oldBlob, x.oldKeys, x.oldExpireAtMs, cache₁) ∧
      x.Plans env seen cache₁ ops cache' := by
  unfold plan at h
  split at h
  · cases h
  · cases call with
    | reconcile stateKey record expireAtMs =>
      dsimp only at h
      split at h
      · rename_i hnone
        cases h
        exact .inl ⟨hnone, rfl, rfl⟩
      · obtain ⟨found, hfound, h⟩ := bind_eq_ok_iff.mp h
        obtain ⟨⟨oldBlob, oldKeys, oldExpireAtMs, cache₁⟩, hreverse, h⟩ := bind_eq_ok_iff.mp h
        exact .inr ⟨⟨stateKey, found, [], oldBlob, oldKeys, oldExpireAtMs, _, definitions⟩, cache₁,
          ⟨rfl, rfl, hfound, rfl, rfl⟩, rfl, hreverse, h⟩
    | reconcileSubset stateKey record expireAtMs managed =>
      obtain ⟨found, hfound, h⟩ := bind_eq_ok_iff.mp h
      obtain ⟨⟨oldBlob, oldKeys, oldExpireAtMs, cache₁⟩, hreverse, h⟩ := bind_eq_ok_iff.mp h
      exact .inr ⟨⟨stateKey, found, _, oldBlob, oldKeys, oldExpireAtMs, _, managed⟩, cache₁,
        ⟨rfl, rfl, hfound, rfl, rfl⟩, rfl, hreverse, h⟩
    | remove stateKey =>
      obtain ⟨⟨oldBlob, oldKeys, oldExpireAtMs, cache₁⟩, hreverse, h⟩ := bind_eq_ok_iff.mp h
      exact .inr ⟨⟨stateKey, [], [], oldBlob, oldKeys, oldExpireAtMs, 0, definitions⟩, cache₁,
        ⟨rfl, rfl, rfl, rfl, rfl⟩, rfl, hreverse, h⟩
    | removeSubset stateKey managed =>
      obtain ⟨⟨oldBlob, oldKeys, oldExpireAtMs, cache₁⟩, hreverse, h⟩ := bind_eq_ok_iff.mp h
      exact .inr ⟨⟨stateKey, [], _, oldBlob, oldKeys, oldExpireAtMs, _, managed⟩, cache₁,
        ⟨rfl, rfl, rfl, rfl, rfl⟩, rfl, hreverse, h⟩

/-- The cache that a plan returns is one to plan from. -/
theorem plan_sound {definitions : List IndexDefinition} {call : Call} (hcache : cache.Sound env)
    (h : plan env definitions seen cache call = .ok (ops, cache')) : cache'.Sound env := by
  obtain ⟨-, -, rfl⟩ | ⟨x, cache₁, hgives, -, hread, hplan⟩ := plan_ok h
  · exact hcache
  have hread' := (reverseValue_ok hcache hread).2
  obtain ⟨⟨reverseOp, nextBlob⟩, hreverse, hplan⟩ := bind_eq_ok_iff.mp hplan
  obtain ⟨⟨counterOps, cache₂⟩, hcounters, hplan⟩ := bind_eq_ok_iff.mp hplan
  cases hplan
  have hcounted : cache₂.Sound env := by
    unfold Cache.Sound
    rw [(reconcileCounters_onCounter hcounters).2]
    exact hread'
  refine hcounted.putReverse ?_
  obtain ⟨hempty, -, rfl⟩ | ⟨value, hvalue, -, rfl⟩ := reverseWrite_ok hreverse
  · exact ⟨hempty, hgives.expiry hempty⟩
  · exact decodeReverseState_encode hvalue

/-- A call that commits has the effect of its inputs. -/
theorem commit_ok {definitions : List IndexDefinition} {p : PlannedCall}
    (h : commit env definitions s p = some s') :
    (definitions = [] ∧ s' = s) ∨ ∃ x cache₁, p.call.Gives env definitions x ∧
      x.stateKey = p.call.stateKey ∧
      reverseValue env p.seen x.stateKey p.cache =
        .ok (x.oldBlob, x.oldKeys, x.oldExpireAtMs, cache₁) ∧
      Committed env x s s' := by
  unfold commit at h
  split at h
  · rename_i ops cache' hplan
    obtain ⟨hnone, rfl, -⟩ | ⟨x, cache₁, hgives, hkey, hread, hplan⟩ := plan_ok hplan
    · exact .inl ⟨hnone, (some.inj h).symm⟩
    · exact .inr ⟨x, cache₁, hgives, hkey, hread, hplan.commit h⟩
  · cases h

end FerricStore.Query
