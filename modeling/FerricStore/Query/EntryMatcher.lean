import FerricStore.Query.ProjectionExact

/-!
# Entry keys are matched without generating them

A reader that holds a key and a record asks whether the key is an entry of the record. It takes the
components of the key one by one, each against the values that the record has for the field. The
answer is the one that the generated keys give.
-/

namespace FerricStore.Query

open List

open FerricStore.Flow (Value)

/-- `key_components_match?` -/
def keyComponentsMatch (env : QueryEnv) (r : Record) (partition : Bytes) :
    List FieldSpec → Bytes → Bool
  | [], components => components.isEmpty
  | spec :: specs, components =>
    match projectedValues r partition spec.field with
    | .error _ => false
    | .ok values => values.any fun value =>
      match encodeKeyComponent env spec value with
      | .error _ => false
      | .ok encoded => encoded.isPrefixOf components &&
          keyComponentsMatch env r partition specs (components.drop encoded.length)

/-- `entry_key_matches_record_validated?` of a definition, a record and its state key -/
def entryKeyMatchesRecord (env : QueryEnv) (d : IndexDefinition) (r : Record) (stateKey key : Bytes) :
    Bool :=
  match r.id, r.partition, encodeScopePrefix d r.scopePrefix with
  | some id, some partition, .ok scope =>
    let front := d.storagePrefix ++ scope
    let suffix := identitySuffix env id
    let count := key.length - front.length - suffix.length
    decide (stateKey ≠ [] ∧ key.length ≤ 511 ∧ env.runIdFromStateKey stateKey = some id ∧
      env.stateKey id r.scopePrefix partition = stateKey ∧
      front.length + suffix.length ≤ key.length) &&
    front.isPrefixOf key && suffix.isSuffixOf key &&
      keyComponentsMatch env r partition d.fields (slice key front.length count)
  | _, _, _ => false

section Components

variable {env : QueryEnv} {r : Record} {partition : Bytes}

theorem isPrefixOf_and_iff {first whole : Bytes} {p : Bytes → Bool} :
    (first.isPrefixOf whole && p (whole.drop first.length)) = true ↔
      ∃ rest, p rest = true ∧ first ++ rest = whole := by
  rw [Bool.and_eq_true, isPrefixOf_iff_prefix]
  constructor
  · rintro ⟨⟨rest, rfl⟩, hrest⟩
    rw [drop_left] at hrest
    exact ⟨rest, hrest, rfl⟩
  · rintro ⟨rest, hrest, rfl⟩
    rw [drop_left]
    exact ⟨prefix_append first rest, hrest⟩

/-- Matching components one by one is finding a tuple of the values that they encode. -/
theorem keyComponentsMatch_iff {specs : List FieldSpec} : ∀ {valueSets : List (List Value)}
    {components : Bytes}, specs.mapM (fun spec => projectedValues r partition spec.field) =
      .ok valueSets →
    (keyComponentsMatch env r partition specs components = true ↔
      ∃ values ∈ cartesianValues valueSets, encodeComponents env values specs = .ok components) := by
  induction specs with
  | nil =>
    intro valueSets components hsets
    cases hsets
    cases components <;> simp [keyComponentsMatch, cartesianValues, encodeComponents]
  | cons spec specs ih =>
    intro valueSets components hsets
    rw [mapM_cons] at hsets
    obtain ⟨values, hvalues, hsets⟩ := bind_eq_ok_iff.mp hsets
    obtain ⟨others, hothers, hsets⟩ := bind_eq_ok_iff.mp hsets
    cases hsets
    rw [keyComponentsMatch, hvalues]
    rw [any_eq_true]
    simp only [cartesianValues, mem_flatMap, mem_map]
    constructor
    · rintro ⟨value, hvalue, hmatch⟩
      split at hmatch
      · cases hmatch
      · rename_i encoded hencoded
        obtain ⟨rest, hrest, rfl⟩ := isPrefixOf_and_iff.mp hmatch
        obtain ⟨tail, htail, hcomponents⟩ := (ih hothers).mp hrest
        refine ⟨value :: tail, ⟨value, hvalue, tail, htail, rfl⟩, ?_⟩
        rw [encodeComponents, hencoded, ok_bind, hcomponents]
        rfl
    · rintro ⟨-, ⟨value, hvalue, tail, htail, rfl⟩, hcomponents⟩
      obtain ⟨encoded, hencoded, hcomponents⟩ := bind_eq_ok_iff.mp hcomponents
      obtain ⟨rest, hrest, hcomponents⟩ := bind_eq_ok_iff.mp hcomponents
      refine ⟨value, hvalue, ?_⟩
      rw [hencoded]
      exact isPrefixOf_and_iff.mpr
        ⟨rest, (ih hothers).mpr ⟨tail, htail, hrest⟩, Except.ok.inj hcomponents⟩

end Components

/-- A key between a front and a suffix is the two with what is between them. -/
theorem between_iff {front suffix key : Bytes} {p : Bytes → Prop} :
    ((front.length + suffix.length ≤ key.length ∧ front <+: key) ∧ suffix <:+ key) ∧
        p (slice key front.length (key.length - front.length - suffix.length)) ↔
      ∃ middle, p middle ∧ front ++ (middle ++ suffix) = key := by
  constructor
  · rintro ⟨⟨⟨hlength, rest, rfl⟩, hsuffix⟩, hp⟩
    rw [length_append, Nat.add_le_add_iff_left] at hlength
    obtain ⟨middle, rfl⟩ := suffix_of_suffix_length_le hsuffix (suffix_append front rest) hlength
    rw [slice_middle rfl (by simp)] at hp
    exact ⟨middle, hp, rfl⟩
  · rintro ⟨middle, hp, rfl⟩
    rw [slice_middle rfl (by simp)]
    refine ⟨⟨⟨by simp, prefix_append _ _⟩, ?_⟩, hp⟩
    rw [← append_assoc]
    exact suffix_append _ _

/-- The matcher accepts a key exactly if it is one of the keys of the entries. -/
theorem entry_matcher_exact (env : QueryEnv) (d : IndexDefinition) (r : Record) (stateKey : Bytes)
    (expireAtMs : Nat) (found : List (Bytes × Bytes))
    (h : entries env d r stateKey expireAtMs = .ok found) (key : Bytes) (hkey : key.length ≤ 511) :
    entryKeyMatchesRecord env d r stateKey key = true ↔ key ∈ found.map Prod.fst := by
  obtain ⟨id, partition, scope, valueSets, hstateKey, hid, hpartition, howner, hstate, hscope, hsets,
    hkeys⟩ := entries_ok h
  simp only [entryKeyMatchesRecord, hid, hpartition, hscope, Bool.and_eq_true, decide_eq_true_eq,
    isPrefixOf_iff_prefix, isSuffixOf_iff_suffix, keyComponentsMatch_iff (mapM_of_fieldValueSets hsets),
    hstateKey, hkey, howner, hstate, ne_eq, not_false_eq_true, true_and]
  rw [hkeys, between_iff (p := fun components => ∃ values ∈ cartesianValues valueSets,
    encodeComponents env values d.fields = .ok components)]
  simp only [append_assoc]
  constructor
  · rintro ⟨encoded, ⟨values, hvalues, hencoded⟩, heq⟩
    exact ⟨hkey, values, hvalues, encoded, hencoded, heq⟩
  · rintro ⟨-, values, hvalues, encoded, hencoded, heq⟩
    exact ⟨encoded, ⟨values, hvalues, hencoded⟩, heq⟩

/-- Runs by an attribute and by when they were updated last. -/
def byAttribute (name : Bytes) : IndexDefinition :=
  ⟨1, [⟨.partitionKey, .asc, .hashed⟩, ⟨.attribute name, .asc, .hashed⟩,
    ⟨.updatedAtMs, .desc, .ordered⟩], List.replicate 32 0, [], 0⟩

/-- A run with two values of the attribute, which has never been updated. -/
def tagged : Record where
  id := some [1]
  partition := some [65]
  scopePrefix := none
  fetch
    | .attribute _ => .list [.binary [10], .binary [11]]
    | .updatedAtMs => .scalar .null
    | _ => .missing

/-- The matcher accepts the two keys of a run, and no other key. -/
theorem entry_matcher_exact_tagged :
    (keysOf shortEnv (byAttribute [97]) tagged [65, 1] 0).length = 2 ∧
      ∀ key : Bytes, key.length ≤ 511 →
        (entryKeyMatchesRecord shortEnv (byAttribute [97]) tagged [65, 1] key = true ↔
          key ∈ keysOf shortEnv (byAttribute [97]) tagged [65, 1] 0) := by
  have hlength : (keysOf shortEnv (byAttribute [97]) tagged [65, 1] 0).length = 2 := by decide +kernel
  refine ⟨hlength, fun key hkey => ?_⟩
  cases hfound : entries shortEnv (byAttribute [97]) tagged [65, 1] 0 with
  | error reason =>
    rw [keysOf, hfound] at hlength
    cases hlength
  | ok found =>
    rw [keysOf, hfound]
    exact entry_matcher_exact _ _ _ _ _ _ hfound key hkey

end FerricStore.Query
