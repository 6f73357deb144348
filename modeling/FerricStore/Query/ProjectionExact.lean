import FerricStore.Query.Transaction

/-!
# The projection holds exactly the current entries

`Projected` is what the composite projection is for: for each state key and each definition, the entry
keys of the record that was last reconciled. Along every run of planned calls the reverse value of a
state key lists exactly these keys, and the rows are exactly the listed keys.
-/

namespace FerricStore.Query

open List

open FerricStore.Flow (Value Direction encodeComponent binaryTag escape)

variable {env : QueryEnv} {definitions : List IndexDefinition} {s s' : CompositeStore}
  {stateKey key : Bytes}

/-! ## Entry keys -/

/-- The entry keys of a record under a definition; a record that has none projects to nothing. -/
def keysOf (env : QueryEnv) (d : IndexDefinition) (r : Record) (stateKey : Bytes) (expireAtMs : Nat) :
    List Bytes :=
  match entries env d r stateKey expireAtMs with
  | .ok found => found.map Prod.fst
  | .error _ => []

variable {r : Record} {expireAtMs : Nat} {managed : List IndexDefinition}

/-- What the entries of several definitions are made of. -/
theorem mem_projectedEntries : ∀ {acc found : List (Bytes × Bytes)},
      projectedEntries env r stateKey expireAtMs managed acc = .ok found →
      ∀ key, key ∈ found.map Prod.fst ↔
        key ∈ acc.map Prod.fst ∨ ∃ d ∈ managed, key ∈ keysOf env d r stateKey expireAtMs := by
  induction managed with
  | nil =>
    intro acc found h key
    cases h
    simp
  | cons d rest ih =>
    intro acc found h key
    rw [projectedEntries] at h
    split at h
    · rename_i first hfirst
      split at h
      · rw [ih h key, map_append, mem_append]
        simp only [mem_cons, exists_eq_or_imp, keysOf, hfirst]
        exact or_assoc
      · exact nomatch h
    · rename_i hfirst
      rw [ih h key]
      simp [keysOf, hfirst]
    · exact nomatch h

/-- The encoded partition that leads the components of a key. -/
def canonicalPartition (partition : Bytes) : Bytes := binaryTag :: (escape partition ++ [0, 0])

/-- The parts of an entry key that come from the owner of the record. -/
structure EntryParts (env : QueryEnv) (d : IndexDefinition) (r : Record) (stateKey key : Bytes) where
  id : Bytes
  partition : Bytes
  scope : Bytes
  rest : Bytes
  hasId : r.id = some id
  hasPartition : r.partition = some partition
  runId : env.runIdFromStateKey stateKey = some id
  owns : env.stateKey id r.scopePrefix partition = stateKey
  hasScope : encodeScopePrefix d r.scopePrefix = .ok scope
  eq : key = d.storagePrefix ++ (scope ++ ((0x50 :: env.sha256 (canonicalPartition partition)) ++
    (rest ++ identitySuffix env id)))

theorem mem_mapM_ok {α β ε : Type} {f : α → Except ε β} {items : List α} {results : List β}
    (h : items.mapM f = .ok results) {b : β} : b ∈ results ↔ ∃ a ∈ items, f a = .ok b := by
  induction items generalizing results with
  | nil =>
    cases h
    simp
  | cons item rest ih =>
    rw [mapM_cons] at h
    obtain ⟨first, hfirst, h⟩ := bind_eq_ok_iff.mp h
    obtain ⟨others, hothers, h⟩ := bind_eq_ok_iff.mp h
    cases h
    simp [ih hothers, hfirst, eq_comm]

variable {d : IndexDefinition} {partition : Bytes}

section

variable {valueSets : List (List Value)} (h : fieldValueSets d r partition = .ok valueSets)
include h

theorem mapM_of_fieldValueSets :
    d.fields.mapM (fun spec => projectedValues r partition spec.field) = .ok valueSets := by
  obtain ⟨sets, hsets, h⟩ := bind_eq_ok_iff.mp h
  split at h
  · split at h
    · cases h
    · cases h
      exact hsets
  · cases h

/-- The value sets of a record start with its partition. -/
theorem fieldValueSets_ok (hd : d.Valid) : ∃ others, valueSets = [.binary partition] :: others := by
  obtain ⟨rest, htenant⟩ := hd.tenant
  have hsets := mapM_of_fieldValueSets h
  rw [htenant, mapM_cons] at hsets
  obtain ⟨first, hfirst, hsets⟩ := bind_eq_ok_iff.mp hsets
  obtain ⟨others, -, hsets⟩ := bind_eq_ok_iff.mp hsets
  cases hfirst
  cases hsets
  exact ⟨others, rfl⟩

end

variable {encoded : Bytes}

/-- The components of a tuple that starts with the partition. -/
theorem encodeComponents_partition (hd : d.Valid) {others : List Value}
    (h : encodeComponents env (.binary partition :: others) d.fields = .ok encoded) :
    ∃ rest, encoded = (0x50 :: env.sha256 (canonicalPartition partition)) ++ rest := by
  obtain ⟨specs, htenant⟩ := hd.tenant
  rw [htenant, encodeComponents] at h
  obtain ⟨component, hcomponent, h⟩ := bind_eq_ok_iff.mp h
  obtain ⟨rest, -, h⟩ := bind_eq_ok_iff.mp h
  cases h
  have : component = 0x50 :: env.sha256 (canonicalPartition partition) :=
    (Except.ok.inj hcomponent).symm
  exact ⟨rest, by rw [this]⟩

/-- What an entry key is computed from. -/
structure KeyBuilt (env : QueryEnv) (d : IndexDefinition) (r : Record) (stateKey key : Bytes) where
  id : Bytes
  partition : Bytes
  scope : Bytes
  valueSets : List (List Value)
  values : List Value
  encoded : Bytes
  hasId : r.id = some id
  hasPartition : r.partition = some partition
  runId : env.runIdFromStateKey stateKey = some id
  owns : env.stateKey id r.scopePrefix partition = stateKey
  hasScope : encodeScopePrefix d r.scopePrefix = .ok scope
  hasSets : fieldValueSets d r partition = .ok valueSets
  hasValues : values ∈ cartesianValues valueSets
  components : encodeComponents env values d.fields = .ok encoded
  eq : key = d.storagePrefix ++ (scope ++ (encoded ++ identitySuffix env id))

/-- The keys of the entries of a record: the tuples of its values between what comes from its owner. -/
theorem entries_ok {found : List (Bytes × Bytes)}
    (h : entries env d r stateKey expireAtMs = .ok found) :
    ∃ id partition scope valueSets, stateKey ≠ [] ∧ r.id = some id ∧ r.partition = some partition ∧
      env.runIdFromStateKey stateKey = some id ∧
      env.stateKey id r.scopePrefix partition = stateKey ∧
      encodeScopePrefix d r.scopePrefix = .ok scope ∧
      fieldValueSets d r partition = .ok valueSets ∧
      ∀ key, key ∈ found.map Prod.fst ↔ key.length ≤ 511 ∧ ∃ values ∈ cartesianValues valueSets,
        ∃ encoded, encodeComponents env values d.fields = .ok encoded ∧
          d.storagePrefix ++ (scope ++ (encoded ++ identitySuffix env id)) = key := by
  unfold entries at h
  split at h
  · cases h
  rename_i hstateKey
  obtain ⟨id, hid, h⟩ := bind_eq_ok_iff.mp h
  obtain ⟨partition, hpartition, h⟩ := bind_eq_ok_iff.mp h
  split at h
  · cases h
  rename_i howns
  obtain ⟨howner, hstate⟩ := not_not.mp howns
  obtain ⟨scope, hscope, h⟩ := bind_eq_ok_iff.mp h
  obtain ⟨version, -, h⟩ := bind_eq_ok_iff.mp h
  obtain ⟨valueSets, hsets, h⟩ := bind_eq_ok_iff.mp h
  obtain ⟨⟨⟩, -, h⟩ := bind_eq_ok_iff.mp h
  obtain ⟨keys, hkeys, h⟩ := bind_eq_ok_iff.mp h
  obtain ⟨value, -, h⟩ := bind_eq_ok_iff.mp h
  cases h
  obtain ⟨built, hbuilt, hkeys⟩ := bind_eq_ok_iff.mp hkeys
  cases hkeys
  refine ⟨id, partition, scope, valueSets, fun hnil => hstateKey (.inl hnil),
    orFail_eq_ok_iff.mp hid, orFail_eq_ok_iff.mp hpartition, howner, hstate, hscope, hsets,
    fun key => ?_⟩
  simp only [map_map, mem_map, Function.comp_apply, exists_eq_right, mem_eraseDups,
    mem_mapM_ok hbuilt, bind_eq_ok_iff]
  constructor
  · rintro ⟨values, hvalues, encoded, hencoded, hkey⟩
    split at hkey
    · obtain rfl := Except.ok.inj hkey
      exact ⟨‹_›, values, hvalues, encoded, hencoded, rfl⟩
    · exact nomatch hkey
  · rintro ⟨hlength, values, hvalues, encoded, hencoded, rfl⟩
    exact ⟨values, hvalues, encoded, hencoded, if_pos hlength⟩

theorem keyBuilt_of_mem
    (h : key ∈ keysOf env d r stateKey expireAtMs) : Nonempty (KeyBuilt env d r stateKey key) := by
  unfold keysOf at h
  split at h
  · rename_i found hfound
    obtain ⟨id, partition, scope, valueSets, -, hid, hpartition, howner, hstate, hscope, hsets,
      hkeys⟩ := entries_ok hfound
    obtain ⟨-, values, hvalues, encoded, hencoded, rfl⟩ := (hkeys key).mp h
    exact ⟨⟨id, partition, scope, valueSets, values, encoded, hid, hpartition, howner, hstate,
      hscope, hsets, hvalues, hencoded, rfl⟩⟩
  · exact nomatch h

/-- Every entry key has its parts. -/
theorem entryParts_of_mem (hd : d.Valid)
    (h : key ∈ keysOf env d r stateKey expireAtMs) : Nonempty (EntryParts env d r stateKey key) := by
  obtain ⟨built⟩ := keyBuilt_of_mem h
  obtain ⟨others, hsets⟩ := fieldValueSets_ok built.hasSets hd
  have hmem := built.hasValues
  rw [hsets, cartesianValues, mem_flatMap] at hmem
  obtain ⟨first, hfirst, hmem⟩ := hmem
  obtain ⟨tail, -, hvalues⟩ := mem_map.mp hmem
  obtain rfl := mem_singleton.mp hfirst
  obtain ⟨rest, hencoded⟩ := encodeComponents_partition hd (hvalues ▸ built.components)
  exact ⟨⟨built.id, built.partition, built.scope, rest, built.hasId, built.hasPartition, built.runId,
    built.owns, built.hasScope, built.eq.trans (by rw [hencoded, append_assoc])⟩⟩

theorem length_storagePrefix (hd : d.Valid) : d.storagePrefix.length = 63 := by
  rw [IndexDefinition.storagePrefix, length_append, length_append, length_beBytes, hd.fingerprint]
  rfl

theorem EntryParts.storagePrefix
    (parts : EntryParts env d r stateKey key) : d.storagePrefix <+: key :=
  ⟨_, parts.eq.symm⟩

/-- An entry key ends with the identity of its run. -/
theorem EntryParts.identity
    (parts : EntryParts env d r stateKey key) : identitySuffix env parts.id <:+ key := by
  refine ⟨d.storagePrefix ++ (parts.scope ++ ((0x50 :: env.sha256 (canonicalPartition
    parts.partition)) ++ parts.rest)), ?_⟩
  have := parts.eq
  simp only [append_assoc] at this ⊢
  exact this.symm

/-- The length of an encoded scope is fixed by the definition, and the scope can be read back. -/
theorem encodeScopePrefix_ok {scope : Option Bytes} (h : encodeScopePrefix d scope = .ok encoded) :
    encoded.length = scopeStorageBytes d.scopeBytes ∧
      scope = if d.scopeBytes = 0 then none else some (encoded.drop 3) := by
  unfold encodeScopePrefix at h
  split at h
  · split at h
    · rename_i hzero
      obtain rfl := Except.ok.inj h
      simp [scopeStorageBytes, hzero]
    · exact nomatch h
  · split at h
    · rename_i hscope
      obtain rfl := Except.ok.inj h
      simp only [length_cons, length_append, length_beBytes, hscope.2, scopeStorageBytes,
        hscope.1.ne', if_false]
      exact ⟨by omega, rfl⟩
    · exact nomatch h

/-- No two ids and no two partitions of the records have the same hash. -/
structure NoCollision (env : QueryEnv) (records : List Record) : Prop where
  ids : ∀ r ∈ records, ∀ r' ∈ records, ∀ id id', r.id = some id → r'.id = some id' →
    env.sha256 id = env.sha256 id' → id = id'
  partitions : ∀ r ∈ records, ∀ r' ∈ records, ∀ partition partition',
    r.partition = some partition → r'.partition = some partition' →
    env.sha256 (canonicalPartition partition) = env.sha256 (canonicalPartition partition') →
    partition = partition'

/-- A key is an entry of a state key: of one of the records, under one of the definitions. -/
def EntryOf (env : QueryEnv) (definitions : List IndexDefinition) (records : List Record)
    (stateKey key : Bytes) : Prop :=
  ∃ d ∈ definitions, ∃ r ∈ records, ∃ expireAtMs, key ∈ keysOf env d r stateKey expireAtMs

/-- The definitions are valid, and no two have the same storage prefix. -/
structure Catalog (definitions : List IndexDefinition) : Prop where
  valid : ∀ d ∈ definitions, d.Valid
  separate : ∀ d ∈ definitions, ∀ d' ∈ definitions, d.storagePrefix = d'.storagePrefix → d = d'

/-- Two definitions that a key starts with are the same. -/
theorem Catalog.eq_of_prefix (h : Catalog definitions) {d d' : IndexDefinition}
    (hd : d ∈ definitions) (hd' : d' ∈ definitions) (hkey : d.storagePrefix <+: key)
    (hkey' : d'.storagePrefix <+: key) : d = d' := by
  refine h.separate d hd d' hd' ?_
  rw [prefix_iff_eq_take.mp hkey, prefix_iff_eq_take.mp hkey',
    length_storagePrefix (h.valid d hd), length_storagePrefix (h.valid d' hd')]

/-- No key is an entry of two state keys. -/
theorem EntryOf.unique {records : List Record} (hcatalog : Catalog definitions)
    (hhash : NoCollision env records) {stateKey' : Bytes}
    (h : EntryOf env definitions records stateKey key)
    (h' : EntryOf env definitions records stateKey' key) : stateKey = stateKey' := by
  obtain ⟨d, hd, r, hr, expireAtMs, hmem⟩ := h
  obtain ⟨d', hd', r', hr', expireAtMs', hmem'⟩ := h'
  obtain ⟨parts⟩ := entryParts_of_mem (hcatalog.valid d hd) hmem
  obtain ⟨parts'⟩ := entryParts_of_mem (hcatalog.valid d' hd') hmem'
  obtain rfl := hcatalog.eq_of_prefix hd hd' parts.storagePrefix parts'.storagePrefix
  have heq := parts.eq.symm.trans parts'.eq
  have htail := (append_inj heq rfl).2
  have hscopeLength : parts.scope.length = parts'.scope.length := by
    rw [(encodeScopePrefix_ok parts.hasScope).1, (encodeScopePrefix_ok parts'.hasScope).1]
  obtain ⟨hscope, htail⟩ := append_inj htail hscopeLength
  have hpartitionLength : (0x50 :: env.sha256 (canonicalPartition parts.partition) : Bytes).length =
      (0x50 :: env.sha256 (canonicalPartition parts'.partition) : Bytes).length := by
    simp [env.length_sha256]
  obtain ⟨hpartition, htail⟩ := append_inj htail hpartitionLength
  have hidentity := (append_inj' htail (by rw [length_identitySuffix, length_identitySuffix])).2
  have hid : parts.id = parts'.id :=
    hhash.ids r hr r' hr' _ _ parts.hasId parts'.hasId (List.cons.inj hidentity).2
  have hpart : parts.partition = parts'.partition :=
    hhash.partitions r hr r' hr' _ _ parts.hasPartition parts'.hasPartition
      (List.cons.inj hpartition).2
  have hscopes : r.scopePrefix = r'.scopePrefix := by
    rw [(encodeScopePrefix_ok parts.hasScope).2, (encodeScopePrefix_ok parts'.hasScope).2, hscope]
  rw [← parts.owns, ← parts'.owns, hid, hpart, hscopes]

/-! ## Reverse values -/

/-- What the store says of a state key: its keys and its expiry. -/
def reverseState (env : QueryEnv) (s : CompositeStore) (stateKey : Bytes) :
    Option (List Bytes × Nat) :=
  (s.reverse.get (reverseKey env stateKey)).bind fun blob => decodeReverseState env blob stateKey

/-- The keys that the reverse value of a state key lists. -/
def listed (env : QueryEnv) (s : CompositeStore) (stateKey : Bytes) : List Bytes :=
  ((reverseState env s stateKey).map Prod.fst).getD []

/-- A reverse value names its state key. -/
theorem decodeReverseState_other {blob stateKey' : Bytes} {state : List Bytes × Nat}
    (h : decodeReverseState env blob stateKey = some state) (hne : stateKey' ≠ stateKey) :
    decodeReverseState env blob stateKey' = none := by
  unfold decodeReverseState at h ⊢
  split at h
  · exact nomatch h
  · rename_i hsize
    rw [if_neg hsize]
    simp only [Option.bind_eq_bind] at h ⊢
    obtain ⟨id, -, h⟩ := Option.bind_eq_some_iff.mp h
    obtain ⟨⟨owner, keys, expireAtMs⟩, hpayload, h⟩ := Option.bind_eq_some_iff.mp h
    split at h
    · rename_i howner
      rw [hpayload]
      cases env.runIdFromStateKey stateKey' with
      | none => rfl
      | some id' =>
        simp only [Option.bind_some]
        rw [if_neg]
        rintro ⟨rfl, -⟩
        exact hne howner.1
    · exact nomatch h

/-- What a guarded reverse value says of its state key and of any other one with the same hash. -/
theorem Says.reverseState {blob : Option Bytes} {keys : List Bytes}
    (h : Says env stateKey blob keys expireAtMs)
    (hguard : s.reverse.get (reverseKey env stateKey) = blob) :
    listed env s stateKey = keys ∧
      ∀ other, other ≠ stateKey → reverseKey env other = reverseKey env stateKey →
        reverseState env s other = none := by
  unfold listed FerricStore.Query.reverseState
  rw [hguard]
  cases blob with
  | none =>
    refine ⟨h.1.symm, fun other _ hkey => ?_⟩
    rw [hkey, hguard]
    rfl
  | some blob =>
    have hdecode : decodeReverseState env blob stateKey = some (keys, expireAtMs) := h
    refine ⟨?_, fun other hne hkey => ?_⟩
    · simp [hdecode]
    · rw [hkey, hguard]
      exact decodeReverseState_other hdecode hne

variable {x : Inputs}

/-- After a commit the reverse value of the state key lists the next keys, and no other changes. -/
theorem Committed.listed (h : Committed env x s s')
    (htold : Says env x.stateKey x.oldBlob x.oldKeys x.oldExpireAtMs) :
    listed env s x.stateKey = x.oldKeys ∧ listed env s' x.stateKey = x.nextKeys ∧
      ∀ other, other ≠ x.stateKey → reverseState env s' other = reverseState env s other := by
  obtain ⟨hold, hcollision⟩ := htold.reverseState h.guard
  refine ⟨hold, ?_, fun other hne => ?_⟩
  · obtain ⟨hempty, hreverse⟩ | ⟨blob, hblob, hreverse⟩ := h.reverse
    · rw [hempty]
      simp [FerricStore.Query.listed, FerricStore.Query.reverseState, hreverse]
    · simp [FerricStore.Query.listed, FerricStore.Query.reverseState, hreverse,
        decodeReverseState_encode hblob]
  · by_cases hkey : reverseKey env other = reverseKey env x.stateKey
    · rw [hcollision other hne hkey]
      obtain ⟨-, hreverse⟩ | ⟨blob, hblob, hreverse⟩ := h.reverse
      · simp [reverseState, hreverse, hkey]
      · simp [reverseState, hreverse, hkey,
          decodeReverseState_other (decodeReverseState_encode hblob) hne]
    · obtain ⟨-, hreverse⟩ | ⟨blob, -, hreverse⟩ := h.reverse
      · simp [reverseState, hreverse, hkey]
      · simp [reverseState, hreverse, hkey]

/-! ## The abstract projection -/

/-- For each state key and definition, the entry keys that are projected. -/
abbrev Projected := Bytes → IndexDefinition → List Bytes

/-- What a call is for: it replaces the entries of its state key under the definitions it manages. -/
def Call.project (env : QueryEnv) (p : Projected) : Call → Projected
  | .reconcile owner r expireAtMs => fun stateKey d =>
    if stateKey = owner then keysOf env d r owner expireAtMs else p stateKey d
  | .reconcileSubset owner r expireAtMs managed => fun stateKey d =>
    if stateKey = owner ∧ d ∈ managed then keysOf env d r owner expireAtMs else p stateKey d
  | .remove owner => fun stateKey d => if stateKey = owner then [] else p stateKey d
  | .removeSubset owner managed => fun stateKey d =>
    if stateKey = owner ∧ d ∈ managed then [] else p stateKey d

/-- The record of a call. -/
def Call.record : Call → Option Record
  | .reconcile _ r _ => some r
  | .reconcileSubset _ r _ _ => some r
  | _ => none

/-- A call manages definitions of the catalog only. -/
def Call.Within (definitions : List IndexDefinition) : Call → Prop
  | .reconcileSubset _ _ _ managed => ∀ d ∈ managed, d ∈ definitions
  | .removeSubset _ managed => ∀ d ∈ managed, d ∈ definitions
  | _ => True

/-- A call leaves the entries of other state keys. -/
theorem Call.project_other (call : Call) (p : Projected) {other : Bytes} (h : other ≠ call.stateKey) :
    call.project env p other = p other := by
  funext d
  cases call with
  | reconcile owner r expireAtMs => exact if_neg h
  | reconcileSubset owner r expireAtMs managed => exact if_neg fun hboth => h hboth.1
  | remove owner => exact if_neg h
  | removeSubset owner managed => exact if_neg fun hboth => h hboth.1

section

variable (env : QueryEnv) (definitions : List IndexDefinition) (records : List Record)
  (s : CompositeStore) (p : Projected)

/-- The reverse values list the projection, which is made of entries of the records. -/
structure Lists : Prop where
  keys : ∀ stateKey key, key ∈ listed env s stateKey ↔ ∃ d ∈ definitions, key ∈ p stateKey d
  entries : ∀ stateKey, ∀ d ∈ definitions, ∀ key ∈ p stateKey d, ∃ r ∈ records, ∃ expireAtMs,
    key ∈ keysOf env d r stateKey expireAtMs

/-- The store holds the projection. -/
structure Holds : Prop extends Lists env definitions records s p where
  rows : ∀ key, (s.rows.get key).isSome = true ↔ ∃ stateKey, key ∈ listed env s stateKey

end

variable {records : List Record} {p : Projected}

section

variable (h : Lists env definitions records s p)
include h

theorem Lists.entryOf (hmem : key ∈ listed env s stateKey) :
    EntryOf env definitions records stateKey key := by
  obtain ⟨d, hd, hkey⟩ := (h.keys stateKey key).mp hmem
  obtain ⟨r, hr, expireAtMs, hentry⟩ := h.entries stateKey d hd key hkey
  exact ⟨d, hd, r, hr, expireAtMs, hentry⟩

theorem Lists.lead (hcatalog : Catalog definitions)
    (hd : d ∈ definitions) (hkey : key ∈ p stateKey d) :
    d.storagePrefix <+: key := by
  obtain ⟨r, hr, expireAtMs, hentry⟩ := h.entries stateKey d hd key hkey
  obtain ⟨parts⟩ := entryParts_of_mem (hcatalog.valid d hd) hentry
  exact parts.storagePrefix

/-- The keys that a subset preserves are those of the definitions it does not manage. -/
theorem Lists.mem_preservedKeys
    (hcatalog : Catalog definitions) (hmanaged : ∀ d ∈ managed, d ∈ definitions) :
    key ∈ preservedKeys (listed env s stateKey) managed definitions ↔
      ∃ d ∈ definitions, d ∉ managed ∧ key ∈ p stateKey d := by
  simp only [preservedKeys, mem_filter, any_eq_true, decide_eq_true_eq]
  constructor
  · rintro ⟨hmem, d, hd, hout, hlead⟩
    obtain ⟨d', hd', hkey⟩ := (h.keys stateKey key).mp hmem
    obtain rfl := hcatalog.eq_of_prefix hd hd' hlead (h.lead hcatalog hd' hkey)
    exact ⟨d, hd, fun hin => hout (mem_map_of_mem hin), hkey⟩
  · rintro ⟨d, hd, hout, hkey⟩
    refine ⟨(h.keys stateKey key).mpr ⟨d, hd, hkey⟩, d, hd, fun hin => ?_, h.lead hcatalog hd hkey⟩
    obtain ⟨d', hd', heq⟩ := mem_map.mp hin
    exact hout (hcatalog.separate d' (hmanaged d' hd') d hd heq ▸ hd')

/-- The keys that a call on managed definitions leaves: fresh entries for these, and what it preserves of
the others. -/
theorem Lists.nextKeys_of {fresh project : IndexDefinition → List Bytes}
    (hold : listed env s x.stateKey = x.oldKeys)
    (hmanaged : ∀ d ∈ managed, d ∈ definitions)
    (hfound : ∀ key, key ∈ x.found.map Prod.fst ↔ ∃ d ∈ managed, key ∈ fresh d)
    (hfresh : ∀ d ∈ managed, ∀ key ∈ fresh d, ∃ r ∈ records, ∃ expireAtMs,
      key ∈ keysOf env d r x.stateKey expireAtMs)
    (hkept : ∀ key, key ∈ x.preserved ↔ ∃ d ∈ definitions, d ∉ managed ∧ key ∈ p x.stateKey d)
    (hproject : ∀ d ∈ definitions, project d = if d ∈ managed then fresh d else p x.stateKey d) :
    (∀ key, key ∈ x.nextKeys ↔ ∃ d ∈ definitions, key ∈ project d) ∧
      (∀ key ∈ x.preserved, key ∈ x.oldKeys) ∧
      (∀ key ∈ x.found.map Prod.fst, EntryOf env definitions records x.stateKey key) ∧
      ∀ d ∈ definitions, ∀ key ∈ project d, ∃ r ∈ records, ∃ expireAtMs,
        key ∈ keysOf env d r x.stateKey expireAtMs := by
  refine ⟨fun key => ?_, fun key hmem => ?_, fun key hnew => ?_, fun d hd key hentry => ?_⟩
  · rw [Inputs.mem_nextKeys, hkept, hfound]
    constructor
    · rintro (⟨d, hd, hout, hkey⟩ | ⟨d, hin, hkey⟩)
      · exact ⟨d, hd, by rwa [hproject d hd, if_neg hout]⟩
      · exact ⟨d, hmanaged d hin, by rwa [hproject d (hmanaged d hin), if_pos hin]⟩
    · rintro ⟨d, hd, hkey⟩
      rw [hproject d hd] at hkey
      split at hkey
      · rename_i hin
        exact .inr ⟨d, hin, hkey⟩
      · rename_i hout
        exact .inl ⟨d, hd, hout, hkey⟩
  · obtain ⟨d, hd, -, hkey⟩ := (hkept key).mp hmem
    rw [← hold]
    exact (h.keys x.stateKey key).mpr ⟨d, hd, hkey⟩
  · obtain ⟨d, hin, hkey⟩ := (hfound key).mp hnew
    exact ⟨d, hmanaged d hin, hfresh d hin key hkey⟩
  · rw [hproject d hd] at hentry
    split at hentry
    · rename_i hin
      exact hfresh d hin key hentry
    · exact h.entries x.stateKey d hd key hentry

/-- The next keys of a call are those of the projection after it, and what it finds are entries. -/
theorem Lists.nextKeys (hcatalog : Catalog definitions)
    {call : Call} (hwithin : call.Within definitions) (hrecord : ∀ r ∈ call.record, r ∈ records)
    (hgives : call.Gives env definitions x)
    (hold : listed env s x.stateKey = x.oldKeys) :
    (∀ key, key ∈ x.nextKeys ↔ ∃ d ∈ definitions, key ∈ call.project env p x.stateKey d) ∧
      (∀ key ∈ x.preserved, key ∈ x.oldKeys) ∧
      (∀ key ∈ x.found.map Prod.fst, EntryOf env definitions records x.stateKey key) ∧
      ∀ d ∈ definitions, ∀ key ∈ call.project env p x.stateKey d, ∃ r ∈ records, ∃ expireAtMs,
        key ∈ keysOf env d r x.stateKey expireAtMs := by
  have hsubset : ∀ {managed}, (∀ d ∈ managed, d ∈ definitions) →
      x.preserved = preservedKeys x.oldKeys managed definitions →
      ∀ key, key ∈ x.preserved ↔ ∃ d ∈ definitions, d ∉ managed ∧ key ∈ p x.stateKey d := by
    intro managed hmanaged hpreserved key
    rw [hpreserved, ← hold]
    exact h.mem_preservedKeys hcatalog hmanaged
  -- a call on all definitions preserves nothing, as there is no other one
  have hall : x.preserved = [] → ∀ key,
      key ∈ x.preserved ↔ ∃ d ∈ definitions, d ∉ definitions ∧ key ∈ p x.stateKey d := by
    intro hpreserved key
    rw [hpreserved]
    exact ⟨nofun, fun ⟨d, hd, hout, _⟩ => absurd hd hout⟩
  cases call with
  | reconcile owner r expireAtMs =>
    obtain ⟨howner, -, hfound, hpreserved, -⟩ := hgives
    have hmem := mem_projectedEntries hfound
    rw [← howner] at hmem
    refine h.nextKeys_of hold (fun _ hd => hd) (fun key => (hmem key).trans (by simp))
      (fun d _ key hkey => ⟨r, hrecord r rfl, expireAtMs, hkey⟩) (hall hpreserved) fun d hd => ?_
    rw [if_pos hd, howner]
    exact if_pos rfl
  | reconcileSubset owner r expireAtMs managed =>
    obtain ⟨howner, -, hfound, hpreserved, -⟩ := hgives
    have hmem := mem_projectedEntries hfound
    rw [← howner] at hmem
    refine h.nextKeys_of hold hwithin (fun key => (hmem key).trans (by simp))
      (fun d _ key hkey => ⟨r, hrecord r rfl, expireAtMs, hkey⟩) (hsubset hwithin hpreserved)
      fun d _ => ?_
    simp [Call.project, howner]
  | remove owner =>
    obtain ⟨howner, -, hfound, hpreserved, -⟩ := hgives
    have hnone : ∀ key, key ∈ x.found.map Prod.fst ↔
        ∃ d ∈ definitions, key ∈ (fun _ => [] : IndexDefinition → List Bytes) d := by
      simp [hfound]
    refine h.nextKeys_of hold (fun _ hd => hd) hnone nofun (hall hpreserved) fun d hd => ?_
    rw [if_pos hd]
    exact if_pos howner
  | removeSubset owner managed =>
    obtain ⟨howner, -, hfound, hpreserved, -⟩ := hgives
    have hnone : ∀ key, key ∈ x.found.map Prod.fst ↔
        ∃ d ∈ managed, key ∈ (fun _ => [] : IndexDefinition → List Bytes) d := by
      simp [hfound]
    refine h.nextKeys_of hold hwithin hnone nofun (hsubset hwithin hpreserved) fun d _ => ?_
    simp [Call.project, howner]

end

/-! ## Runs -/

section

variable (hcatalog : Catalog definitions) {c : PlannedCall} (hcache : c.cache.Sound env)
  (hwithin : c.call.Within definitions) (hrecord : ∀ r ∈ c.call.record, r ∈ records)
  (hcommit : commit env definitions s c = some s')
include hcatalog hcache hwithin hrecord hcommit

/-- A committed call takes the lists with it. -/
theorem Lists.commit (h : Lists env definitions records s p) :
    Lists env definitions records s' (c.call.project env p) := by
  obtain ⟨rfl, rfl⟩ | ⟨x, cache₁, hgives, hkey, hread, hcommitted⟩ := commit_ok hcommit
  · refine ⟨fun stateKey key => ?_, nofun⟩
    rw [h.keys]
    simp
  obtain ⟨hold, hnew, hothers⟩ := hcommitted.listed (reverseValue_ok hcache hread).1
  obtain ⟨hnext, -, -, hentries⟩ := h.nextKeys hcatalog hwithin hrecord hgives hold
  refine ⟨fun stateKey key => ?_, fun stateKey d hd key hmem => ?_⟩
  · by_cases hsame : stateKey = x.stateKey
    · rw [hsame, hnew]
      exact hnext key
    · rw [listed, hothers stateKey hsame, ← listed, h.keys, Call.project_other _ _ (hkey ▸ hsame)]
  · by_cases hsame : stateKey = x.stateKey
    · rw [hsame] at hmem ⊢
      exact hentries d hd key hmem
    · rw [Call.project_other _ _ (hkey ▸ hsame)] at hmem
      exact h.entries stateKey d hd key hmem

/-- A committed call takes the projection with it; the rows of other state keys stay as they are. -/
theorem Holds.commit (h : Holds env definitions records s p) (hhash : NoCollision env records) :
    Holds env definitions records s' (c.call.project env p) ∧
      ∀ other, other ≠ c.call.stateKey → listed env s' other = listed env s other ∧
        ∀ key ∈ listed env s other, s'.rows.get key = s.rows.get key := by
  have hlists := h.toLists.commit hcatalog hcache hwithin hrecord hcommit
  obtain ⟨rfl, rfl⟩ | ⟨x, cache₁, hgives, hkey, hread, hcommitted⟩ := commit_ok hcommit
  · exact ⟨⟨hlists, h.rows⟩, fun _ _ => ⟨rfl, fun _ _ => rfl⟩⟩
  obtain ⟨hold, hnew, hothers⟩ := hcommitted.listed (reverseValue_ok hcache hread).1
  obtain ⟨-, hpreserved, hfound, -⟩ := h.nextKeys hcatalog hwithin hrecord hgives hold
  have hlisted : ∀ other, other ≠ x.stateKey → listed env s' other = listed env s other := by
    intro other hne
    rw [listed, listed, hothers other hne]
  -- an entry of another state key is neither written nor deleted
  have hapart : ∀ other, other ≠ x.stateKey → ∀ key ∈ listed env s other,
      key ∉ x.stale ∧ key ∉ x.found.map Prod.fst := by
    intro other hne key hmem
    have hentry := h.entryOf hmem
    refine ⟨fun hstale => hne ?_, fun hput => hne ?_⟩
    · have hmine : key ∈ listed env s x.stateKey := hold ▸ mem_of_mem_filter hstale
      exact hentry.unique hcatalog hhash (h.entryOf hmine)
    · exact hentry.unique hcatalog hhash (hfound key hput)
  refine ⟨⟨hlists, fun key => ?_⟩, ?_⟩
  · constructor
    · intro hrow
      by_cases hput : key ∈ x.found.map Prod.fst
      · exact ⟨x.stateKey, hnew ▸ Inputs.mem_nextKeys.mpr (.inr hput)⟩
      · by_cases hstale : key ∈ x.stale
        · rw [hcommitted.gone key hstale hput] at hrow
          cases hrow
        · rw [hcommitted.kept key hstale hput] at hrow
          obtain ⟨stateKey, hmem⟩ := (h.rows key).mp hrow
          by_cases hsame : stateKey = x.stateKey
          · rw [hsame, hold] at hmem
            refine ⟨x.stateKey, hnew ▸ ?_⟩
            by_contra hout
            exact hstale (mem_filter.mpr ⟨hmem, decide_eq_true hout⟩)
          · exact ⟨stateKey, (hlisted stateKey hsame).symm ▸ hmem⟩
    · rintro ⟨stateKey, hmem⟩
      by_cases hput : key ∈ x.found.map Prod.fst
      · exact hcommitted.put key hput
      · have hstays : key ∉ x.stale ∧ ∃ owner, key ∈ listed env s owner := by
          by_cases hsame : stateKey = x.stateKey
          · rw [hsame, hnew] at hmem
            obtain hkept | hput' := Inputs.mem_nextKeys.mp hmem
            · refine ⟨fun hstale => ?_, x.stateKey, hold ▸ hpreserved key hkept⟩
              exact of_decide_eq_true (mem_filter.mp hstale).2 hmem
            · exact absurd hput' hput
          · rw [hlisted stateKey hsame] at hmem
            exact ⟨(hapart stateKey hsame key hmem).1, stateKey, hmem⟩
        rw [hcommitted.kept key hstays.1 hput]
        exact (h.rows key).mpr hstays.2
  · intro other hne
    rw [← hkey] at hne
    exact ⟨hlisted other hne, fun key hmem =>
      hcommitted.kept key (hapart other hne key hmem).1 (hapart other hne key hmem).2⟩

end

/-- A store and the projection that it is to hold, after a planned call. -/
def runStep (env : QueryEnv) (definitions : List IndexDefinition) (state : CompositeStore × Projected)
    (c : PlannedCall) : CompositeStore × Projected :=
  match commit env definitions state.1 c with
  | some s' => (s', c.call.project env state.2)
  | none => state

def CompositeStore.empty : CompositeStore := ⟨.empty, .empty, .empty⟩

/-- A run of planned calls from the empty store. -/
def runCalls (env : QueryEnv) (definitions : List IndexDefinition) (calls : List PlannedCall) :
    CompositeStore × Projected :=
  calls.foldl (runStep env definitions) (.empty, fun _ _ => [])

/-- The records of a run. -/
def recordsOf (calls : List PlannedCall) : List Record := calls.filterMap fun c => c.call.record

theorem mem_recordsOf {calls : List PlannedCall} {c : PlannedCall} {r : Record} (hc : c ∈ calls)
    (hr : r ∈ c.call.record) : r ∈ recordsOf calls :=
  mem_filterMap.mpr ⟨c, hc, hr⟩

theorem Holds.run (hcatalog : Catalog definitions) (hhash : NoCollision env records)
    {calls : List PlannedCall} (hcalls : ∀ c ∈ calls, c.cache.Sound env ∧ c.call.Within definitions)
    (hrecords : ∀ c ∈ calls, ∀ r ∈ c.call.record, r ∈ records) :
    ∀ {state : CompositeStore × Projected}, Holds env definitions records state.1 state.2 →
      Holds env definitions records (calls.foldl (runStep env definitions) state).1
        (calls.foldl (runStep env definitions) state).2 := by
  induction calls with
  | nil => exact fun h => h
  | cons c rest ih =>
    intro state h
    refine ih (forall_mem_cons.mp hcalls).2 (forall_mem_cons.mp hrecords).2 ?_
    obtain ⟨hcache, hwithin⟩ := hcalls c mem_cons_self
    unfold runStep
    split
    · rename_i s' hcommit
      exact (h.commit hcatalog hcache hwithin (hrecords c mem_cons_self) hcommit hhash).1
    · exact h

theorem holds_empty : Holds env definitions records .empty fun _ _ => [] := by
  refine ⟨⟨fun stateKey key => ?_, nofun⟩, fun key => ?_⟩
  · simp [listed, reverseState, CompositeStore.empty]
  · simp [listed, reverseState, CompositeStore.empty]

/-- A listed key carries the identity of its run. -/
theorem Lists.identity (h : Lists env definitions records s p) (hcatalog : Catalog definitions)
    {id : Bytes} (hid : env.runIdFromStateKey stateKey = some id)
    (hmem : key ∈ listed env s stateKey) : identitySuffix env id <:+ key := by
  obtain ⟨d, hd, r, -, expireAtMs, hentry⟩ := h.entryOf hmem
  obtain ⟨parts⟩ := entryParts_of_mem (hcatalog.valid d hd) hentry
  obtain rfl : parts.id = id := Option.some.inj (parts.runId.symm.trans hid)
  exact parts.identity

/-- A row is listed by one state key. -/
theorem Holds.row_iff (h : Holds env definitions records s p) (hcatalog : Catalog definitions)
    (hhash : NoCollision env records) (key : Bytes) :
    (s.rows.get key).isSome = true ↔ ∃! stateKey, key ∈ listed env s stateKey := by
  rw [h.rows]
  constructor
  · rintro ⟨stateKey, hmem⟩
    refine ⟨stateKey, hmem, fun other hother => ?_⟩
    exact (h.entryOf hother).unique hcatalog hhash (h.entryOf hmem)
  · exact fun hone => hone.exists

/-- The rows that carry the identity of a state key are its listed keys, if no other state key with
listed keys has the same identity. -/
theorem Holds.identity_iff (h : Holds env definitions records s p) (hcatalog : Catalog definitions)
    {id : Bytes} (hid : env.runIdFromStateKey stateKey = some id)
    (halone : ∀ other id', other ≠ stateKey → listed env s other ≠ [] →
      env.runIdFromStateKey other = some id' → identitySuffix env id' ≠ identitySuffix env id)
    (key : Bytes) : (s.rows.get key).isSome = true ∧ identitySuffix env id <:+ key ↔
      key ∈ listed env s stateKey := by
  constructor
  · rintro ⟨hrow, hends⟩
    obtain ⟨owner, hmem⟩ := (h.rows key).mp hrow
    by_cases hsame : owner = stateKey
    · exact hsame ▸ hmem
    · exfalso
      obtain ⟨d, hd, r, -, expireAtMs, hentry⟩ := h.entryOf hmem
      obtain ⟨parts⟩ := entryParts_of_mem (hcatalog.valid d hd) hentry
      refine halone owner parts.id hsame (ne_nil_of_mem hmem) parts.runId ?_
      have hlength : (identitySuffix env parts.id).length = (identitySuffix env id).length := by
        rw [length_identitySuffix, length_identitySuffix]
      rw [suffix_iff_eq_drop.mp parts.identity, suffix_iff_eq_drop.mp hends, hlength]
  · intro hmem
    exact ⟨(h.rows key).mpr ⟨stateKey, hmem⟩, h.identity hcatalog hid hmem⟩

/-- A plan commits only where the reverse value that it was made from is stored. -/
theorem commit_stale {c : PlannedCall} {blob : Option Bytes} {keys : List Bytes} {cache' : Cache}
    (hne : definitions ≠ [])
    (hread : reverseValue env c.seen c.call.stateKey c.cache = .ok (blob, keys, expireAtMs, cache'))
    (hstale : s.reverse.get (reverseKey env c.call.stateKey) ≠ blob) :
    commit env definitions s c = none := by
  cases hcommit : commit env definitions s c with
  | none => rfl
  | some s' =>
    obtain ⟨hnone, -⟩ | ⟨x, cache₁, -, hkey, hread', hcommitted⟩ := commit_ok hcommit
    · exact absurd hnone hne
    · rw [hkey, hread] at hread'
      obtain ⟨hblob, -⟩ := Prod.mk.inj (Except.ok.inj hread')
      rw [← hkey, hblob] at hstale
      exact absurd hcommitted.guard hstale

/-- After every run: the reverse value of a state key lists exactly the projected keys, for each
definition those of the record last reconciled; the rows are exactly the listed keys, each listed by
one state key; the listed keys carry the identity of their run, and are all the rows that carry it when
no other state key with listed keys has the same identity. A further transaction leaves the rows of the
other state keys, and commits only if it was planned from the reverse value that is stored. The caches
of a run may be new ones or what earlier plans returned. -/
theorem projection_exact (env : QueryEnv) (definitions : List IndexDefinition)
    (hcatalog : Catalog definitions) (calls : List PlannedCall)
    (hcalls : ∀ c ∈ calls, c.cache.Sound env ∧ c.call.Within definitions)
    (hhash : NoCollision env (recordsOf calls)) (s : CompositeStore) (p : Projected)
    (hrun : runCalls env definitions calls = (s, p)) :
    (∀ stateKey key, key ∈ listed env s stateKey ↔ ∃ d ∈ definitions, key ∈ p stateKey d) ∧
    (∀ key, (s.rows.get key).isSome = true ↔ ∃! stateKey, key ∈ listed env s stateKey) ∧
    (∀ stateKey id, env.runIdFromStateKey stateKey = some id →
      (∀ key ∈ listed env s stateKey, identitySuffix env id <:+ key) ∧
      ((∀ other id', other ≠ stateKey → listed env s other ≠ [] →
          env.runIdFromStateKey other = some id' → identitySuffix env id' ≠ identitySuffix env id) →
        ∀ key, (s.rows.get key).isSome = true ∧ identitySuffix env id <:+ key ↔
          key ∈ listed env s stateKey)) ∧
    (∀ c s', c.cache.Sound env → c.call.Within definitions →
      NoCollision env (recordsOf (calls ++ [c])) → commit env definitions s c = some s' →
      ∀ other, other ≠ c.call.stateKey → listed env s' other = listed env s other ∧
        ∀ key ∈ listed env s other, s'.rows.get key = s.rows.get key) ∧
    (∀ c blob keys expireAtMs cache', definitions ≠ [] →
      reverseValue env c.seen c.call.stateKey c.cache = .ok (blob, keys, expireAtMs, cache') →
      s.reverse.get (reverseKey env c.call.stateKey) ≠ blob →
      commit env definitions s c = none) ∧
    newCache.Sound env ∧ ∀ seen cache call ops cache', cache.Sound env →
      plan env definitions seen cache call = .ok (ops, cache') → cache'.Sound env := by
  have hholds : ∀ {records}, NoCollision env records →
      (∀ c ∈ calls, ∀ r ∈ c.call.record, r ∈ records) → Holds env definitions records s p := by
    intro records hhash hrecords
    have hempty : Holds env definitions records
        ((CompositeStore.empty, fun _ _ => []) : CompositeStore × Projected).1
        ((CompositeStore.empty, fun _ _ => []) : CompositeStore × Projected).2 := holds_empty
    have := Holds.run hcatalog hhash hcalls hrecords hempty
    rw [show calls.foldl (runStep env definitions) (.empty, fun _ _ => []) = (s, p) from hrun] at this
    exact this
  have h := hholds hhash fun c hc _ => mem_recordsOf hc
  refine ⟨h.keys, h.row_iff hcatalog hhash, fun stateKey id hid => ⟨fun key => h.identity hcatalog hid,
    fun halone => h.identity_iff hcatalog hid halone⟩, fun c s' hcache hwithin hhash' hcommit => ?_,
    fun c blob keys expireAtMs cache' => commit_stale, newCache_sound,
    fun seen cache call ops cache' => plan_sound⟩
  have hbefore := hholds hhash' fun _ hc _ => mem_recordsOf (mem_append_left _ hc)
  exact (hbefore.commit hcatalog hcache hwithin (fun _ => mem_recordsOf (by simp)) hcommit hhash').2

/-- Hashes that are the last bytes, and states that are kept under one byte of partition. -/
def shortEnv : QueryEnv where
  sha256 := fun bytes => (bytes.reverse ++ List.replicate 32 0).take 32
  length_sha256 := fun bytes => by simp
  stateKey := fun id _ partition => partition ++ id
  runIdFromStateKey := fun stateKey => some (stateKey.drop 1)
  encodeEntryValue := fun _ _ _ _ => .ok []

/-- Runs by another field of their record. -/
def byField (version : Nat) (field : Field) : IndexDefinition :=
  ⟨version, [⟨.partitionKey, .asc, .hashed⟩, ⟨field, .asc, .hashed⟩], List.replicate 32 0, [1], 0⟩

/-- Run 1 of a partition in a state. -/
def runOne (partition : UInt8) (state : Bytes) : Record where
  id := some [1]
  partition := some [partition]
  scopePrefix := none
  fetch field := if field = .state then .scalar (.binary state) else .missing

/-- A call without a cache that reads the given store. -/
def uncached (call : Call) (seen : CompositeStore) : PlannedCall := ⟨call, seen, newCache⟩

/-- The cache after a call is planned. -/
def PlannedCall.cacheAfter (env : QueryEnv) (definitions : List IndexDefinition) (c : PlannedCall) :
    Cache :=
  match plan env definitions c.seen c.cache c.call with
  | .ok (_, cache) => cache
  | .error _ => c.cache

theorem valid_byField {version : Nat} {field : Field} (hversion : 0 < version ∧ version < 2 ^ 64)
    (hfield : field ≠ .partitionKey) : (byField version field).Valid := by
  refine ⟨hversion, rfl, by simp [byField], ⟨_, rfl⟩, by simp [byField, hfield.symm], ?_,
    ⟨nodup_singleton _, ?_⟩, Nat.zero_le _, ?_⟩
  · intro spec hspec
    simp only [byField, mem_cons, not_mem_nil, or_false] at hspec
    obtain rfl | rfl := hspec
    · exact ⟨fun _ => rfl, nofun⟩
    · exact ⟨fun _ => rfl, nofun⟩
  · intro prefixLength hprefix
    obtain rfl := mem_singleton.mp hprefix
    exact ⟨one_pos, by simp [byField], fun spec hspec => mem_singleton.mp hspec ▸ rfl⟩
  · simp [entryKeyBytes, IndexDefinition.storagePrefix, byField, globalStoragePrefix,
      scopeStorageBytes, Encoding.bytes]

theorem byStateAndType : Catalog [byField 1 .state, byField 2 .type] := by
  refine ⟨fun d hd => ?_, fun d hd d' hd' => ?_⟩
  · simp only [mem_cons, not_mem_nil, or_false] at hd
    obtain rfl | rfl := hd
    · exact valid_byField (by decide) nofun
    · exact valid_byField (by decide) nofun
  · simp only [mem_cons, not_mem_nil, or_false] at hd hd'
    obtain rfl | rfl := hd <;> obtain rfl | rfl := hd' <;> first | exact fun _ => rfl | decide

theorem cacheAfter_sound {c : PlannedCall} (h : c.cache.Sound env) :
    (c.cacheAfter env definitions).Sound env := by
  unfold PlannedCall.cacheAfter
  split
  · rename_i hplan
    exact plan_sound h hplan
  · exact h

/-- A call that has the cache of an earlier plan, and finds nothing in the store. -/
def cached (call : Call) (after : PlannedCall) : PlannedCall :=
  ⟨call, .empty, after.cacheAfter shortEnv [byField 1 .state, byField 2 .type]⟩

def firstState : PlannedCall :=
  uncached (.reconcileSubset [65, 1] (runOne 65 [10]) 0 [byField 1 .state]) .empty

def nextState : PlannedCall :=
  cached (.reconcileSubset [65, 1] (runOne 65 [11]) 0 [byField 1 .state]) firstState

def withoutType : PlannedCall := cached (.removeSubset [65, 1] [byField 2 .type]) nextState

set_option maxRecDepth 100000 in
/-- A run is projected by its state, then by its next state and not by its type, where only the first
call finds in the store what it replaces: the others commit from the cache, and a further one that has
read the empty store does not. -/
theorem projection_exact_reconciled :
    let definitions := [byField 1 .state, byField 2 .type]
    let s := (runCalls shortEnv definitions [firstState, nextState, withoutType]).1
    ((listed shortEnv s [65, 1]).length = 1 ∧
      listed shortEnv s [65, 1] ≠
        listed shortEnv (runCalls shortEnv definitions [firstState]).1 [65, 1]) ∧
    (∀ key, (s.rows.get key).isSome = true ↔ ∃! stateKey, key ∈ listed shortEnv s stateKey) ∧
    commit shortEnv definitions s (uncached (.remove [65, 1]) .empty) = none := by
  intro definitions s
  have hcalls : ∀ c ∈ [firstState, nextState, withoutType],
      c.cache.Sound shortEnv ∧ c.call.Within definitions := by
    have hmember : ∀ d d', d' ∈ definitions → d ∈ [d'] → d ∈ definitions :=
      fun d d' hd' hd => mem_singleton.mp hd ▸ hd'
    have hfirst : firstState.cache.Sound shortEnv := newCache_sound
    have hnext : nextState.cache.Sound shortEnv := cacheAfter_sound hfirst
    simp only [forall_mem_cons]
    exact ⟨⟨hfirst, fun d => hmember d _ (by simp [definitions])⟩,
      ⟨hnext, fun d => hmember d _ (by simp [definitions])⟩,
      ⟨cacheAfter_sound hnext, fun d => hmember d _ (by simp [definitions])⟩, nofun⟩
  have hrecords : ∀ r ∈ recordsOf [firstState, nextState, withoutType],
      r.id = some [1] ∧ r.partition = some [65] := by
    intro r hr
    obtain rfl | hr := mem_cons.mp hr
    · exact ⟨rfl, rfl⟩
    · obtain rfl := mem_singleton.mp hr
      exact ⟨rfl, rfl⟩
  have hhash : NoCollision shortEnv (recordsOf [firstState, nextState, withoutType]) := by
    refine ⟨fun r hr r' hr' id id' hid hid' _ => ?_,
      fun r hr r' hr' partition partition' hp hp' _ => ?_⟩
    · rw [(hrecords r hr).1] at hid
      rw [(hrecords r' hr').1] at hid'
      exact (Option.some.inj hid).symm.trans (Option.some.inj hid')
    · rw [(hrecords r hr).2] at hp
      rw [(hrecords r' hr').2] at hp'
      exact (Option.some.inj hp).symm.trans (Option.some.inj hp')
  obtain ⟨-, hrows, -, -, hstale, -⟩ := projection_exact shortEnv definitions byStateAndType
    [firstState, nextState, withoutType] hcalls hhash s _ Prod.mk.eta.symm
  refine ⟨by decide +kernel, hrows, hstale _ none [] 0 _ nofun rfl ?_⟩
  decide +kernel

set_option maxRecDepth 100000 in
/-- Two partitions may have runs of the same id: the rows that carry the identity of one state key are
then more than its reverse value lists. -/
theorem identity_shared_by_partitions :
    let calls := [uncached (.reconcile [65, 1] (runOne 65 [10]) 0) .empty,
      uncached (.reconcile [66, 1] (runOne 66 [10]) 0) .empty]
    let s := (runCalls shortEnv [byField 1 .state] calls).1
    (listed shortEnv s [65, 1]).length = 1 ∧
      (s.rows.entries.filter fun row => decide (identitySuffix shortEnv [1] <:+ row.1)).length = 2 := by
  decide +kernel

end FerricStore.Query
