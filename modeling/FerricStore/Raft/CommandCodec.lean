import FerricStore.Lib.Bytes

/-!
# Compact Raft commands

A command is an external term: a tag byte, then fields and nested terms. `compactTerm` copies one
term and puts a reference in the place of an atom or of a whole term of the dictionary, and
`expandTerm` copies the compact form and puts the bytes back. Both read from the front of the bytes
that are left, which is the input past the position the source counts, and both count the levels
that are left below `maxDepth`.

`Inverse` says what makes the pair lossless, of one term or of a run of them. It is proved for
leaves, for references and for nested terms, and by induction on the levels for every term.
-/

namespace FerricStore.Raft

open Option List

def magic : UInt8 := 0xFC

def dictionaryV1 : UInt8 := 1

def atomRefTag : UInt8 := 1

def termRefTag : UInt8 := 2

def wideAtomRefTag : UInt8 := 3

/-- Commands nest a few levels; deeper user values stay in the plain form. -/
def maxDepth : Nat := 128

def versionMagic : UInt8 := 131

def newFloatExt : UInt8 := 70

def bitBinaryExt : UInt8 := 77

def smallIntegerExt : UInt8 := 97

def integerExt : UInt8 := 98

def smallTupleExt : UInt8 := 104

def largeTupleExt : UInt8 := 105

def nilExt : UInt8 := 106

def stringExt : UInt8 := 107

def listExt : UInt8 := 108

def binaryExt : UInt8 := 109

def smallBigExt : UInt8 := 110

def largeBigExt : UInt8 := 111

def mapExt : UInt8 := 116

def atomUtf8Ext : UInt8 := 118

def smallAtomUtf8Ext : UInt8 := 119

/-- A dictionary whose references fit: atoms in two bytes and terms in one. -/
structure Dictionary where
  atoms : List Bytes
  terms : List Bytes
  atoms_fit : atoms.length ≤ 65536
  terms_fit : terms.length ≤ 256

/-- The atoms of Raft commands. -/
def atomsV1 : List String :=
  ["wall_time_ms", "ferricstore_apply_context_v1", "ferricstore_apply_context",
   "policy_reference_captured", "flow_policy_fence", "hlc_ts", "partition_key", "clear_key_locks",
   "generation", "policy_ref", "true", "type", "digest", "attributes_delete", "attributes_merge",
   "attributes", "policy_guard", "incarnation", "fencing_token", "run_at_ms", "now_ms",
   "flow_create", "nil", "flush_shard", "state_key", "lease_token", "flow_complete", "state",
   "payload", "id", "stream_append", "result", "compound_delete_prefix", "flow_claim_due",
   "ferricstore_apply_context_barrier", "cold_due_mode", "created_at_ms", "initial_run_at_ms",
   "ownership_secret", "next_run_at_ms", "priority", "lease_ms", "planned_key_count", "fire_count",
   "false", "schedule_metadata", "stream_mutate", "correlation_id", "flow_signal",
   "governance_ledger_index_key", "terminal_retention_until_ms", "worker", "one_shot",
   "expected_version", "allow", "history_hot_max_events", "cleanup_member_entries",
   "compound_delete", "limit", "target_type", "kind", "last_fire_at_ms", "parent_partition_key",
   "explicit", "exclude_states", "history_max_events", "target", "last_target_id",
   "overlap_policy", "guard_key", "hset_single", "cleanup_index_key", "lease_deadline_ms",
   "retention_ttl_ms", "signal", "auto", "catchup_policy", "history_entries", "state_enter_seq",
   "start_at_ms", "parent_flow_id", "expected_guard", "delete_state?", "updated_at_ms",
   "id_prefix", "flow_policy_put", "root_flow_id", "ttl_ms", "child_groups", "cleanup_plan",
   "registry_key", "interval", "payload_ref", "history_key", "lease_owner", "shard_index",
   "result_ref", "fire_once", "run_state", "flow_reschedule", "error_ref", "flow_consistent_state",
   "every_ms", "queue_after_previous", "attempts", "end_reason", "any",
   "flow_policy_patch_allocate", "version", "last_overlap_target_id", "overlap_retry_ms",
   "flow_schedule_replace", "fired_at_ms", "flow_policy_catalog_backfill_step",
   "last_overlap_reason", "record", "last_overlap_at_ms", "partition_key_explicit",
   "fetch_or_compute_lock", "overlap_queued_due_at_ms", "target_id", "delete",
   "overlap_retry_streak", "read", "fetch_or_compute_fail", "timezone", "ratelimit_add",
   "expected_cursor", "cron", "put", "source_token", "maxlen", "expect_state", "policy_refs",
   "compound_type_claim", "flow_create_many", "run_token", "fetch_or_compute_publish",
   "flow_cancel", "flow_retention_cleanup", "candidates", "compound_batch_put",
   "last_coalesced_count", "create", "last_catchup_at_ms", "stream_append_many_auto", "mode",
   "terminal_candidates", "stream_append_grouped_auto", "states", "msetnx", "records",
   "coalesced_count", "schedule_id", "error", "end_at_ms", "skipped_count", "fifo", "ack", "done?",
   "from_state", "cursor", "indexed_state_meta", "last_skipped_at_ms",
   "flow_policy_migration_step", "skip", "__flow_shard_index__", "migration_generation",
   "flow_fail", "flow_retry", "flow_transition", "max_retries", "exhausted_to", "partition_keys",
   "to_state", "fail_schedule", "membership_revision", "catalog_entries", "flow_start_and_claim",
   "last_planning_error", "backfill_proof", "job_key", "flow_step_continue", "state_meta_update",
   "claim", "idempotent", "lock", "state_meta_state", "batch", "max_fires", "list_op", "infinity",
   "record_value", "retention", "retry_policy", "flow_start_and_claim_pipeline_batch",
   "flow_extend_lease", "hash", "extend", "reason", "unlock", "value_refs", "max_active_ms",
   "flow_create_pipeline_batch", "key_lifecycle", "retry", "rpush", "cas", "compound_put",
   "fetch_or_compute_release", "compound_blob_batch_put", "stream_append_blob_ref", "backoff",
   "base_ms", "compound_batch_delete", "flow_transition_many", "idle?", "jitter_pct",
   "flow_spawn_children", "flow_complete_many", "max_ms", "previous_target_id", "flow_cancel_many",
   "on_parent_closed", "parallel", "idempotency_key", "block", "cancel_children", "fixed",
   "flow_retry_many", "on_child_failed", "flow_fail_many", "list_op_lmove", "transition_to", "job",
   "catalog_key", "fail_parent", "flow_rewind", "delay", "exhaust_to", "reason_ref", "wait_state",
   "blob_ref", "children", "delay_ms", "group_id", "if_state", "to_event", "rename", "shared",
   "values", "lpush", "right", "copy", "left", "list", "mset", "trim", "wait", "zset", "set",
   "flow_named_value_put", "indexed_attributes", "override", "value", "name", "append",
   "append_blob_ref", "async", "bloom_add", "bloom_create", "bloom_madd", "cas_blob_ref",
   "cms_create", "cms_incrby", "cms_merge", "compound_put_blob_ref", "cross_shard_tx",
   "cuckoo_add", "cuckoo_addnx", "cuckoo_create", "cuckoo_del", "delete_batch", "delete_prefix",
   "expire_if_batch", "ferricstore_latency_trace", "fetch_or_compute_publish_blob_ref",
   "flow_create_with_catalog", "flow_governance_limit_catalog_outbox_ack",
   "flow_governance_limit_mutate", "flow_governance_release_outbox_ack",
   "flow_governance_release_outbox_mark_completed", "flow_named_value_put_pipeline_batch",
   "flow_policy_attribute_catalog_repair", "flow_policy_attribute_catalog_repair_request",
   "flow_restore", "flow_run_steps_many", "flow_signal_many", "flow_step_continue_many",
   "flow_terminal_pipeline_batch", "getdel", "getex", "getset", "getset_blob_ref", "hincrby",
   "hincrbyfloat", "incr", "incr_float", "lpush_single", "mset_blob_batch", "msetnx_blob_batch",
   "pfadd", "pfmerge", "prob_restore", "put_batch", "put_blob_batch", "put_blob_ref",
   "rpush_single", "sadd_single", "server_catalog_mutate", "server_catalog_replace",
   "set_blob_ref", "setbit", "setrange", "setrange_blob_ref", "spop", "srem_single", "topk_add",
   "topk_create", "topk_incrby", "ttb", "tx_execute", "watch_token", "watch_tokens",
   "zadd_many_single", "zadd_single", "zincrby", "zpop", "zrem_single"]

/-- The terms of Raft commands: the apply context. -/
def termsV1 : List Bytes :=
  [[104, 24, 119, 28, 102, 101, 114, 114, 105, 99, 115, 116, 111, 114, 101, 95, 97, 112, 112, 108,
    121, 95, 99, 111, 110, 116, 101, 120, 116, 95, 118, 49, 98, 36, 12, 132, 0, 97, 0, 98, 0, 1,
    134, 160, 98, 0, 0, 39, 16, 98, 0, 15, 66, 64, 98, 0, 0, 4, 0, 98, 0, 128, 0, 0, 98, 0, 1, 134,
    160, 98, 0, 1, 134, 160, 119, 4, 116, 114, 117, 101, 98, 0, 4, 147, 224, 97, 0, 98, 0, 0, 234,
    96, 98, 0, 4, 147, 224, 98, 0, 0, 3, 232, 97, 100, 98, 0, 0, 78, 32, 98, 0, 0, 16, 0, 98, 0, 0,
    3, 232, 98, 0, 0, 16, 0, 98, 0, 128, 0, 0, 98, 0, 16, 0, 0, 119, 3, 110, 105, 108]]

/-- The dictionary of version 1. -/
def v1 : Dictionary where
  atoms := atomsV1.map fun atom => atom.toUTF8.toList
  terms := termsV1
  atoms_fit := by
    rw [length_map]
    decide +kernel
  terms_fit := by decide

/-- The dictionary of a version byte. -/
def dictionary (version : UInt8) : Option Dictionary :=
  if version = dictionaryV1 then some v1 else none

variable (dict : Dictionary)

/-- The reference of an atom. The table is filled in order, so the last of equal names wins. -/
def Dictionary.atomRef (name : Bytes) : Option Nat :=
  (dict.atoms.zipIdx.reverse.find? fun entry => entry.1 == name).map (·.2)

/-- The atom a reference names. -/
def Dictionary.atom (index : Nat) : Option Bytes :=
  dict.atoms[index]?

/-- The first dictionary term that starts the bytes, with its index. -/
def Dictionary.termAt (rest : Bytes) : Option (Bytes × Nat) :=
  dict.terms.zipIdx.find? fun entry => entry.1.isPrefixOf rest

/-- The first `size` bytes, when there are that many. -/
def upTo (rest : Bytes) (size : Nat) : Option Bytes :=
  if size ≤ rest.length then some (rest.take size) else none

/-- The big-endian field of `width` bytes at an offset, when it is there. -/
def fieldAt (width : Nat) (bytes : Bytes) (start : Nat) : Option Nat :=
  if start + width ≤ bytes.length then some (beNat (slice bytes start width)) else none

variable (tag : UInt8)

/-- Of a tag of a term that holds no nested terms: the bytes besides its data and the width of the
length field that counts the data, zero where the size is fixed. `none` for a tag the codec does
not cover (pids, ports, references, funs, old atom forms). -/
def leafForm : Option (Nat × Nat) :=
  if tag = smallIntegerExt then some (2, 0)
  else if tag = integerExt then some (5, 0)
  else if tag = newFloatExt then some (9, 0)
  else if tag = nilExt then some (1, 0)
  else if tag = smallBigExt then some (3, 1)
  else if tag = largeBigExt then some (6, 4)
  else if tag = stringExt then some (3, 2)
  else if tag = binaryExt then some (5, 4)
  else if tag = bitBinaryExt then some (6, 4)
  else if tag = atomUtf8Ext then some (3, 2)
  else none

/-- The size of a term that holds no nested terms, when all of it is there. -/
def leafSize (rest : Bytes) : Option Nat := do
  let tag ← rest.head?
  let (base, width) ← leafForm tag
  let len ← fieldAt width rest 1
  if base + len ≤ rest.length then some (base + len) else none

/-- Of a term that holds nested terms: the bytes before the first of them and how many there are.
A map holds two terms per pair, and a list its elements and then its tail. -/
def nestedShape (rest : Bytes) : Option (Nat × Nat) :=
  if tag = smallTupleExt then (fieldAt 1 rest 1).map fun arity => (2, arity)
  else if tag = largeTupleExt then (fieldAt 4 rest 1).map fun arity => (5, arity)
  else if tag = mapExt then (fieldAt 4 rest 1).map fun arity => (5, arity * 2)
  else (fieldAt 4 rest 1).map fun len => (5, len + 1)

/-- The tags of terms that hold nested terms. -/
def isNested : Bool :=
  tag = smallTupleExt ∨ tag = largeTupleExt ∨ tag = mapExt ∨ tag = listExt

/-- A reader of one term: what it writes and the bytes it leaves. -/
abbrev Reader := Bytes → Option (Bytes × Bytes)

/-- `count` terms one after another. -/
def many (term : Reader) : Nat → Reader
  | 0, rest => some ([], rest)
  | count + 1, rest => do
    let (out, rest) ← term rest
    let (outs, rest) ← many term count rest
    some (out ++ outs, rest)

/-- A term that holds nested terms: its head as it is, then the nested terms. -/
def nested (term : Reader) : Reader := fun rest => do
  let (size, count) ← nestedShape tag rest
  let head ← upTo rest size
  let (outs, rest) ← many term count (rest.drop size)
  some (head ++ outs, rest)

/-- A term that holds no nested terms, as it is. -/
def leaf : Reader := fun rest => do
  let size ← leafSize rest
  let out ← upTo rest size
  some (out, rest.drop size)

/-- What is written for an atom: its reference, or the atom itself when it has none. -/
def compactAtom : Reader := fun rest => do
  let len ← fieldAt 1 rest 1
  let whole ← upTo rest (2 + len)
  let out :=
    match dict.atomRef (whole.drop 2) with
    | some index =>
      if index < 256 then [atomRefTag, UInt8.ofNat index]
      else wideAtomRefTag :: beBytes 2 index
    | none => whole
  some (out, rest.drop (2 + len))

/-- The compact form of the term in front. -/
def compactTerm (dict : Dictionary) : (levels : Nat) → Reader
  | 0, _ => none
  | levels + 1, rest =>
    match dict.termAt rest with
    | some (term, index) => some ([termRefTag, UInt8.ofNat index], rest.drop term.length)
    | none => do
      let tag ← rest.head?
      if tag = smallAtomUtf8Ext then compactAtom dict rest
      else if isNested tag then nested tag (compactTerm dict levels) rest
      else leaf rest

/-- The atom a reference in front names. -/
def expandAtomRef : Reader := fun rest => do
  let (index, size) ←
    if tag = atomRefTag then (fieldAt 1 rest 1).map fun index => (index, 2)
    else (fieldAt 2 rest 1).map fun index => (index, 3)
  let name ← dict.atom index
  some ([smallAtomUtf8Ext, UInt8.ofNat name.length] ++ name, rest.drop size)

/-- The term a reference in front names. -/
def expandTermRef : Reader := fun rest => do
  let index ← fieldAt 1 rest 1
  let term ← dict.terms[index]?
  some (term, rest.drop 2)

/-- An atom that is not a reference, as it is. -/
def expandAtom : Reader := fun rest => do
  let len ← fieldAt 1 rest 1
  let out ← upTo rest (2 + len)
  some (out, rest.drop (2 + len))

/-- The external term of the compact term in front. -/
def expandTerm (dict : Dictionary) : (levels : Nat) → Reader
  | 0, _ => none
  | levels + 1, rest => do
    let tag ← rest.head?
    if tag = atomRefTag ∨ tag = wideAtomRefTag then expandAtomRef dict tag rest
    else if tag = termRefTag then expandTermRef dict rest
    else if tag = smallAtomUtf8Ext then expandAtom rest
    else if isNested tag then nested tag (expandTerm dict levels) rest
    else leaf rest

variable (input : Bytes)

/-- The external term of a compact binary, or `none` when it is malformed or names an unknown
dictionary. -/
def expand : Option Bytes :=
  match input with
  | first :: version :: body =>
    if first ≠ magic then none
    else do
      let dict ← dictionary version
      let (out, rest) ← expandTerm dict (maxDepth + 1) body
      if rest = [] then some (versionMagic :: out) else none
  | _ => none

/-- What the compactor writes, when its grammar covers the whole input. -/
def compactRaw : Option Bytes :=
  match input with
  | [] => none
  | first :: body =>
    if first ≠ versionMagic then none
    else do
      let (out, rest) ← compactTerm v1 (maxDepth + 1) body
      if rest = [] then some (magic :: dictionaryV1 :: out) else none

/-- The compact form of an external term, or `none` when the codec does not cover it or the result
is not smaller. The result is checked to expand back to the input. -/
def compact : Option Bytes := do
  let out ← compactRaw input
  if input.length ≤ out.length then none
  else if expand out = some input then some out
  else none

/-- A reader reads the bytes in front and nothing behind them, and `back` restores them. -/
def Inverse (forth back : Reader) : Prop :=
  ∀ {rest out left : Bytes}, forth rest = some (out, left) →
    ∃ used, rest = used ++ left ∧ ∀ tail, back (out ++ tail) = some (used, tail)

/-- A reader leaves a tail of what it reads, and what it writes depends on the bytes before that
tail alone. -/
def Local (reader : Reader) : Prop :=
  ∀ {rest out left : Bytes}, reader rest = some (out, left) →
    ∃ used, rest = used ++ left ∧ ∀ tail, reader (used ++ tail) = some (out, tail)

theorem upTo_append (used tail : Bytes) : upTo (used ++ tail) used.length = some used := by
  rw [upTo, if_pos (by simp), take_left]

/-- The first bytes, when there are enough, are a part with the rest behind it. -/
theorem upTo_eq_some {rest out : Bytes} {size : Nat} (h : upTo rest size = some out) :
    rest = out ++ rest.drop size ∧ out.length = size := by
  rw [upTo] at h
  split_ifs at h with hle
  cases h
  exact ⟨(take_append_drop size rest).symm, length_take_of_le hle⟩

variable (tail : Bytes)

/-- A field that lies in the first part does not depend on what follows. -/
theorem fieldAt_append {used : Bytes} {start width : Nat} (h : start + width ≤ used.length) :
    fieldAt width (used ++ tail) start = fieldAt width used start := by
  have hle : start + width ≤ (used ++ tail).length := by
    rw [length_append]
    omega
  rw [fieldAt, fieldAt, if_pos h, if_pos hle, slice_append_left h]

variable {tag : UInt8}

theorem leafForm_le {base width : Nat} (h : leafForm tag = some (base, width)) :
    1 + width ≤ base := by
  rw [leafForm] at h
  split_ifs at h <;> cases h <;> decide

/-- The size of a leaf is told by the leaf itself. -/
theorem leafSize_append {used left : Bytes} (h : leafSize (used ++ left) = some used.length) :
    leafSize (used ++ tail) = some used.length := by
  rw [leafSize] at h ⊢
  simp only [bind_eq_bind, bind_eq_some_iff, Prod.exists] at h ⊢
  obtain ⟨tag, htag, base, width, hform, len, hfield, hlen⟩ := h
  have hwidth : 1 + width ≤ base := leafForm_le hform
  split_ifs at hlen
  have hsize : base + len = used.length := some.inj hlen
  have hused : used ≠ [] := length_pos_iff.mp (by omega)
  rw [head?_append_of_ne_nil _ hused] at htag ⊢
  rw [fieldAt_append _ (by omega)] at hfield
  refine ⟨tag, htag, base, width, hform, len, ?_, ?_⟩
  · rw [fieldAt_append _ (by omega), hfield]
  · rw [hsize, if_pos (by simp)]

/-- A leaf is read as it is. -/
theorem leaf_eq_some {rest out left : Bytes} :
    leaf rest = some (out, left) ↔ rest = out ++ left ∧ leafSize rest = some out.length := by
  rw [leaf]
  simp only [bind_eq_bind, bind_eq_some_iff, some.injEq, Prod.mk.injEq]
  constructor
  · rintro ⟨size, hsize, whole, hwhole, rfl, rfl⟩
    obtain ⟨hrest, rfl⟩ := upTo_eq_some hwhole
    exact ⟨hrest, hsize⟩
  · rintro ⟨rfl, hsize⟩
    exact ⟨_, hsize, out, upTo_append out left, rfl, drop_left⟩

/-- What `forth` reads and what it writes determine each other through `back`, which is asked for
the one or for the other. Restoring and reading alone are the two cases. -/
def Answers (read : Bool) (forth back : Reader) : Prop :=
  ∀ {rest out left : Bytes}, forth rest = some (out, left) → ∃ used, rest = used ++ left ∧
    ∀ tail, back (cond read used out ++ tail) = some (cond read out used, tail)

theorem cond_append (b : Bool) (x x' y y' : Bytes) :
    cond b (x ++ x') (y ++ y') = cond b x y ++ cond b x' y' := by
  cases b <;> rfl

variable (read : Bool) {forth back : Reader}

/-- A leaf is restored, and read alone. -/
theorem leaf_answers : Answers read leaf leaf := by
  intro rest out left h
  obtain ⟨rfl, hsize⟩ := leaf_eq_some.mp h
  refine ⟨out, rfl, fun tail => ?_⟩
  rw [Bool.cond_self]
  exact leaf_eq_some.mpr ⟨rfl, leafSize_append tail hsize⟩

/-- Runs of terms are answered when terms are. -/
theorem many_answers (h : Answers read forth back) (count : Nat) :
    Answers read (many forth count) (many back count) := by
  induction count with
  | zero =>
    intro rest out left hmany
    cases hmany
    exact ⟨[], rfl, fun _ => by rw [Bool.cond_self]; rfl⟩
  | succ count ih =>
    intro rest out left hmany
    rw [many] at hmany
    simp only [bind_eq_bind, bind_eq_some_iff, some.injEq, Prod.exists, Prod.mk.injEq] at hmany
    obtain ⟨first, middle, hfirst, others, _, hothers, rfl, rfl⟩ := hmany
    obtain ⟨usedFirst, hrest, hback⟩ := h hfirst
    obtain ⟨usedOthers, hmiddle, hbacks⟩ := ih hothers
    refine ⟨usedFirst ++ usedOthers, ?_, fun tail => ?_⟩
    · rw [hrest, hmiddle, append_assoc]
    · rw [many, cond_append, cond_append, append_assoc, hback]
      simp [hbacks]

/-- The head of a term with nested terms tells its own size and their number. -/
theorem nestedShape_append {head left : Bytes} {count : Nat}
    (h : nestedShape tag (head ++ left) = some (head.length, count)) :
    nestedShape tag (head ++ tail) = some (head.length, count) := by
  have hfield : ∀ (width : Nat) (shape : Nat → Nat × Nat), (∀ n, 1 + width ≤ (shape n).1) →
      (fieldAt width (head ++ left) 1).map shape = some (head.length, count) →
      (fieldAt width (head ++ tail) 1).map shape = some (head.length, count) := by
    intro width shape hshape hsome
    obtain ⟨n, hn, heq⟩ := map_eq_some_iff.mp hsome
    have hle : 1 + width ≤ head.length := by
      have := hshape n
      rwa [heq] at this
    rw [fieldAt_append _ hle] at hn ⊢
    rw [hn, map_some, heq]
  rw [nestedShape] at h ⊢
  split_ifs at h ⊢
  all_goals exact hfield _ _ (fun _ => by simp) h

/-- Terms with nested terms are answered when the nested terms are. -/
theorem nested_answers (h : Answers read forth back) (tag : UInt8) :
    Answers read (nested tag forth) (nested tag back) := by
  intro rest out left hnested
  rw [nested] at hnested
  simp only [bind_eq_bind, bind_eq_some_iff, some.injEq, Prod.exists, Prod.mk.injEq] at hnested
  obtain ⟨size, count, hshape, head, hhead, outs, _, hmany, rfl, rfl⟩ := hnested
  obtain ⟨hrest, hlen⟩ := upTo_eq_some hhead
  obtain ⟨used, hdrop, hback⟩ := many_answers read h count hmany
  refine ⟨head ++ used, ?_, fun tail => ?_⟩
  · rw [hrest, append_assoc, ← hdrop, ← hrest]
  · rw [hrest, ← hlen] at hshape
    rw [nested, cond_append, cond_append, Bool.cond_self, append_assoc, nestedShape_append _ hshape]
    simp [upTo_append, hback]

variable {dict} {index : Nat}

/-- The reference of an atom names that atom. -/
theorem atom_of_atomRef {name : Bytes}
    (h : dict.atomRef name = some index) : dict.atom index = some name ∧ index < 65536 := by
  rw [Dictionary.atomRef, map_eq_some_iff] at h
  obtain ⟨⟨atom, position⟩, hfind, rfl⟩ := h
  have hname : atom = name := by simpa using find?_some hfind
  have hmem := mem_reverse.mp (mem_of_find?_eq_some hfind)
  have hatom : dict.atoms[position]? = some atom := mem_zipIdx_iff_getElem?.mp hmem
  have hlt : position < dict.atoms.length := (List.getElem?_eq_some_iff.mp hatom).1
  exact ⟨hname ▸ hatom, hlt.trans_le dict.atoms_fit⟩

theorem beNat_singleton (byte : UInt8) : beNat [byte] = byte.toNat := by
  simp [beNat]

theorem fieldAt_byte (tag byte : UInt8) (tail : Bytes) :
    fieldAt 1 (tag :: byte :: tail) 1 = some byte.toNat := by
  rw [fieldAt, if_pos (by simp)]
  simp [slice, beNat_singleton]

/-- The two-byte field behind a tag. -/
theorem fieldAt_wide (tag : UInt8) (h : index < 65536) (tail : Bytes) :
    fieldAt 2 (tag :: (beBytes 2 index ++ tail)) 1 = some index := by
  rw [fieldAt, if_pos (by simp)]
  have hslice : slice (tag :: (beBytes 2 index ++ tail)) 1 2 = beBytes 2 index := by
    rw [← singleton_append, slice_middle (by simp) (by simp)]
  rw [hslice, beNat_beBytes 2 (by omega)]

/-- Expansion goes by the tag in front. -/
theorem expandTerm_cons (dict : Dictionary) (levels : Nat) (tag : UInt8) (rest : Bytes) :
    expandTerm dict (levels + 1) (tag :: rest) =
      if tag = atomRefTag ∨ tag = wideAtomRefTag then expandAtomRef dict tag (tag :: rest)
      else if tag = termRefTag then expandTermRef dict (tag :: rest)
      else if tag = smallAtomUtf8Ext then expandAtom (tag :: rest)
      else if isNested tag then nested tag (expandTerm dict levels) (tag :: rest)
      else leaf (tag :: rest) := rfl

/-- An atom as it is in front of other bytes. -/
theorem expandAtom_append {used left : Bytes} {len : Nat}
    (hfield : fieldAt 1 (used ++ left) 1 = some len) (hlen : used.length = 2 + len) :
    expandAtom (used ++ tail) = some (used, tail) := by
  rw [fieldAt_append _ (by omega)] at hfield
  rw [expandAtom, fieldAt_append _ (by omega), hfield]
  simp [← hlen, upTo_append]

variable {rest out left : Bytes}

/-- The compact form of an atom expands to the atom. -/
theorem compactAtom_inverse (dict : Dictionary) (levels : Nat)
    (htag : rest.head? = some smallAtomUtf8Ext) (h : compactAtom dict rest = some (out, left)) :
    ∃ used, rest = used ++ left ∧
      ∀ tail, expandTerm dict (levels + 1) (out ++ tail) = some (used, tail) := by
  rw [compactAtom] at h
  simp only [bind_eq_bind, bind_eq_some_iff, some.injEq, Prod.mk.injEq] at h
  obtain ⟨len, hfield, whole, hwhole, hout, rfl⟩ := h
  obtain ⟨hrest, hlen⟩ := upTo_eq_some hwhole
  refine ⟨whole, hrest, fun tail => ?_⟩
  -- the two bytes in front of the name are its tag and its length
  obtain ⟨byte, name, rfl⟩ : ∃ byte name, whole = smallAtomUtf8Ext :: byte :: name := by
    match whole, hlen with
    | first :: byte :: name, _ =>
      rw [hrest] at htag
      cases htag
      exact ⟨byte, name, rfl⟩
    | [_], hlen => simp at hlen; omega
    | [], hlen => simp at hlen; omega
  have hname : name.length = len := by
    simp only [length_cons] at hlen
    omega
  have hbyte : byte.toNat = len := by
    rw [hrest, cons_append, cons_append, fieldAt_byte] at hfield
    exact some.inj hfield
  have hspell : UInt8.ofNat name.length = byte := by
    rw [hname, ← hbyte]
    exact UInt8.ofNat_toNat
  simp only [drop_succ_cons, drop_zero] at hout
  cases href : dict.atomRef name with
  | none =>
    rw [href] at hout
    subst hout
    rw [hrest] at hfield
    exact expandAtom_append tail hfield hlen
  | some index =>
    obtain ⟨hatom, hwide⟩ := atom_of_atomRef href
    rw [href] at hout
    dsimp only at hout
    split_ifs at hout with hnarrow
    · subst hout
      have hindex : (UInt8.ofNat index).toNat = index := by
        rw [UInt8.toNat_ofNat']
        omega
      rw [cons_append, cons_append, expandTerm_cons, if_pos (.inl rfl), expandAtomRef,
        if_pos rfl, fieldAt_byte, hindex]
      simp only [map_some, bind_eq_bind, bind_some, hatom, hspell]
      rfl
    · subst hout
      rw [cons_append, expandTerm_cons, if_pos (.inr rfl), expandAtomRef,
        if_neg (by decide), fieldAt_wide _ hwide]
      simp only [map_some, bind_eq_bind, bind_some, hatom, hspell]
      rfl

/-- The reference of a dictionary term expands to the term. -/
theorem termRef_inverse {rest term : Bytes} (levels : Nat)
    (h : dict.termAt rest = some (term, index)) :
    rest = term ++ rest.drop term.length ∧ ∀ tail,
      expandTerm dict (levels + 1) ([termRefTag, UInt8.ofNat index] ++ tail) = some (term, tail) := by
  have hprefix : term.isPrefixOf rest = true := find?_some (p := fun entry : Bytes × Nat =>
    entry.1.isPrefixOf rest) h
  have hterm : dict.terms[index]? = some term := mem_zipIdx_iff_getElem?.mp (mem_of_find?_eq_some h)
  have hindex : (UInt8.ofNat index).toNat = index := by
    have hlt : index < dict.terms.length := (List.getElem?_eq_some_iff.mp hterm).1
    have hfit := dict.terms_fit
    rw [UInt8.toNat_ofNat']
    omega
  refine ⟨(prefix_iff_eq_append.mp (List.isPrefixOf_iff_prefix.mp hprefix)).symm, fun tail => ?_⟩
  rw [cons_append, cons_append, expandTerm_cons, if_neg (by decide), if_pos rfl,
    expandTermRef, fieldAt_byte, hindex]
  simp only [bind_eq_bind, bind_some, hterm]
  rfl

/-- The first bytes of a term start with its tag. -/
theorem head_of_append (hrest : rest = out ++ left) (hpos : 0 < out.length)
    (htag : rest.head? = some tag) : ∃ more, out = tag :: more := by
  cases out with
  | nil => cases hpos
  | cons first more =>
    rw [hrest] at htag
    cases htag
    exact ⟨more, rfl⟩

/-- The head of a term with nested terms is not empty. -/
theorem nestedShape_pos {size count : Nat}
    (h : nestedShape tag rest = some (size, count)) : 0 < size := by
  rw [nestedShape] at h
  split_ifs at h
  all_goals
    obtain ⟨_, -, heq⟩ := map_eq_some_iff.mp h
    cases heq
    decide

/-- A term with nested terms keeps its tag. -/
theorem nested_head {term : Reader}
    (htag : rest.head? = some tag) (h : nested tag term rest = some (out, left)) :
    ∃ more, out = tag :: more := by
  rw [nested] at h
  simp only [bind_eq_bind, bind_eq_some_iff, some.injEq, Prod.exists, Prod.mk.injEq] at h
  obtain ⟨size, count, hshape, head, hhead, outs, _, -, rfl, -⟩ := h
  obtain ⟨hrest, hlen⟩ := upTo_eq_some hhead
  obtain ⟨more, rfl⟩ := head_of_append hrest (hlen ▸ nestedShape_pos hshape) htag
  exact ⟨more ++ outs, rfl⟩

/-- A leaf keeps its tag, which is one of the tags of leaves. -/
theorem leaf_head (htag : rest.head? = some tag)
    (h : leaf rest = some (out, left)) : (∃ more, out = tag :: more) ∧ (leafForm tag).isSome := by
  obtain ⟨hrest, hsize⟩ := leaf_eq_some.mp h
  rw [leafSize, htag] at hsize
  simp only [bind_eq_bind, bind_eq_some_iff, Prod.exists] at hsize
  obtain ⟨_, ⟨⟩, base, width, hform, len, -, hlen⟩ := hsize
  have hwidth : 1 + width ≤ base := leafForm_le hform
  split_ifs at hlen
  have hout : base + len = out.length := some.inj hlen
  exact ⟨head_of_append hrest (by omega) htag, isSome_of_mem hform⟩

/-- A term with nested terms is no reference and no atom. -/
theorem expandTerm_nested {levels : Nat} (h : isNested tag = true) :
    expandTerm dict (levels + 1) (tag :: rest) =
      nested tag (expandTerm dict levels) (tag :: rest) := by
  have htags : tag = smallTupleExt ∨ tag = largeTupleExt ∨ tag = mapExt ∨ tag = listExt := by
    simpa [isNested] using h
  rw [expandTerm_cons]
  rcases htags with rfl | rfl | rfl | rfl <;>
    rw [if_neg (by decide), if_neg (by decide), if_neg (by decide), if_pos (by decide)]

/-- A leaf is no reference, no atom and no term with nested terms. -/
theorem expandTerm_leaf {levels : Nat}
    (h : (leafForm tag).isSome) (hatom : tag ≠ smallAtomUtf8Ext) (hnested : isNested tag ≠ true) :
    expandTerm dict (levels + 1) (tag :: rest) = leaf (tag :: rest) := by
  have hrefs : ∀ ref ∈ [atomRefTag, wideAtomRefTag, termRefTag], tag ≠ ref := by
    intro ref href heq
    subst heq
    simp only [mem_cons, not_mem_nil, or_false] at href
    rcases href with rfl | rfl | rfl <;> cases h
  rw [expandTerm_cons, if_neg, if_neg (hrefs _ (by simp)), if_neg hatom, if_neg hnested]
  rw [not_or]
  exact ⟨hrefs _ (by simp), hrefs _ (by simp)⟩

/-- The compact form of a term expands to the term, at every depth. -/
theorem compactTerm_inverse (dict : Dictionary) (levels : Nat) :
    Inverse (compactTerm dict levels) (expandTerm dict levels) := by
  induction levels with
  | zero => intro rest out left h; cases h
  | succ levels ih =>
    intro rest out left h
    rw [compactTerm] at h
    cases hterm : dict.termAt rest with
    | some found =>
      obtain ⟨term, index⟩ := found
      rw [hterm] at h
      cases h
      obtain ⟨hrest, hback⟩ := termRef_inverse levels hterm
      exact ⟨term, hrest, hback⟩
    | none =>
      rw [hterm] at h
      simp only [bind_eq_bind, bind_eq_some_iff] at h
      obtain ⟨tag, htag, h⟩ := h
      split_ifs at h with hatom hnested
      · subst hatom
        exact compactAtom_inverse dict levels htag h
      · obtain ⟨used, hrest, hback⟩ := nested_answers false ih tag h
        refine ⟨used, hrest, fun tail => ?_⟩
        obtain ⟨more, rfl⟩ := nested_head htag h
        rw [cons_append, expandTerm_nested hnested]
        exact hback tail
      · obtain ⟨used, hrest, hback⟩ := leaf_answers false h
        refine ⟨used, hrest, fun tail => ?_⟩
        obtain ⟨⟨more, rfl⟩, hform⟩ := leaf_head htag h
        rw [cons_append, expandTerm_leaf hform hatom hnested]
        exact hback tail

/-- A field that is there lies in the bytes. -/
theorem fieldAt_bound {width start n : Nat} {bytes : Bytes}
    (h : fieldAt width bytes start = some n) : start + width ≤ bytes.length := by
  rw [fieldAt] at h
  split_ifs at h with hle
  exact hle

/-- A field of the bytes in front is a field of those bytes alone. -/
theorem fieldAt_take {width n : Nat} (h : fieldAt width rest 1 = some n)
    (tail : Bytes) : fieldAt width (rest.take (1 + width) ++ tail) 1 = some n := by
  have hlen := length_take_of_le (fieldAt_bound h)
  rw [← take_append_drop (1 + width) rest, fieldAt_append _ hlen.ge] at h
  rw [fieldAt_append _ hlen.ge, h]

theorem take_field {width n : Nat} (h : fieldAt width rest 1 = some n) :
    rest = rest.take (1 + width) ++ rest.drop (1 + width) ∧
      (rest.take (1 + width)).length = 1 + width :=
  ⟨(take_append_drop _ _).symm, length_take_of_le (fieldAt_bound h)⟩

/-- References of atoms are read alone. -/
theorem expandAtomRef_local (dict : Dictionary) (tag : UInt8) : Local (expandAtomRef dict tag) := by
  intro rest out left h
  rw [expandAtomRef] at h
  split_ifs at h with hnarrow
  all_goals
    simp only [bind_eq_bind, bind_eq_some_iff, map_eq_some_iff, Prod.exists,
      Prod.mk.injEq, some.injEq] at h
    obtain ⟨_, _, ⟨index, hindex, rfl, rfl⟩, name, hname, rfl, rfl⟩ := h
    obtain ⟨hrest, hlen⟩ := take_field hindex
    refine ⟨_, hrest, fun tail => ?_⟩
    simp only [expandAtomRef, hnarrow, if_true, if_false, fieldAt_take hindex, map_some,
      bind_eq_bind, bind_some, hname, some.injEq, Prod.mk.injEq, true_and]
    exact drop_left' hlen

/-- References of terms are read alone. -/
theorem expandTermRef_local (dict : Dictionary) : Local (expandTermRef dict) := by
  intro rest out left h
  rw [expandTermRef] at h
  simp only [bind_eq_bind, bind_eq_some_iff, some.injEq, Prod.mk.injEq] at h
  obtain ⟨index, hindex, term, hterm, rfl, rfl⟩ := h
  obtain ⟨hrest, hlen⟩ := take_field hindex
  refine ⟨_, hrest, fun tail => ?_⟩
  simp only [expandTermRef, fieldAt_take hindex, bind_eq_bind, bind_some, hterm,
    some.injEq, Prod.mk.injEq, true_and]
  exact drop_left' hlen

/-- Atoms are read alone. -/
theorem expandAtom_local : Local expandAtom := by
  intro rest out left h
  rw [expandAtom] at h
  simp only [bind_eq_bind, bind_eq_some_iff, some.injEq, Prod.mk.injEq] at h
  obtain ⟨len, hfield, whole, hwhole, rfl, rfl⟩ := h
  obtain ⟨hrest, hlen⟩ := upTo_eq_some hwhole
  rw [hrest] at hfield
  exact ⟨whole, hrest, fun tail => expandAtom_append tail hfield hlen⟩

/-- A reader that has read something has read the tag. -/
theorem local_cons {reader : Reader} (h : Local reader) (hnil : reader [] = none)
    (hread : reader (tag :: rest) = some (out, left)) :
    ∃ used, rest = used ++ left ∧ ∀ tail, reader (tag :: (used ++ tail)) = some (out, tail) := by
  obtain ⟨used, hrest, hagain⟩ := h hread
  cases used with
  | nil =>
    have hempty := hagain []
    rw [append_nil, hnil] at hempty
    cases hempty
  | cons first used =>
    obtain ⟨rfl, rfl⟩ := hrest
    exact ⟨used, rfl, hagain⟩

/-- A term with nested terms has a head. -/
theorem nested_nil (tag : UInt8) (term : Reader) : nested tag term [] = none := by
  have hshape : nestedShape tag [] = none := by
    rw [nestedShape]
    split_ifs <;> rfl
  rw [nested, hshape]
  rfl

/-- Expansion reads the term in front alone, at every depth. -/
theorem expandTerm_local (dict : Dictionary) (levels : Nat) : Local (expandTerm dict levels) := by
  induction levels with
  | zero => intro rest out left h; cases h
  | succ levels ih =>
    intro rest out left h
    cases rest with
    | nil => cases h
    | cons tag rest =>
      suffices hcons : ∃ used, rest = used ++ left ∧
          ∀ tail, expandTerm dict (levels + 1) (tag :: (used ++ tail)) = some (out, tail) by
        obtain ⟨used, rfl, hagain⟩ := hcons
        exact ⟨tag :: used, rfl, hagain⟩
      simp only [expandTerm_cons] at h ⊢
      split_ifs at h ⊢
      · exact local_cons (expandAtomRef_local dict tag) (by rw [expandAtomRef]; split_ifs <;> rfl) h
      · exact local_cons (expandTermRef_local dict) rfl h
      · exact local_cons expandAtom_local rfl h
      · exact local_cons (nested_answers true ih tag) (nested_nil tag _) h
      · exact local_cons (leaf_answers true) rfl h

/-- What the compactor writes expands to its input. -/
theorem expand_of_compactRaw {input out : Bytes} (h : compactRaw input = some out) :
    expand out = some input := by
  cases input with
  | nil => cases h
  | cons first body =>
    rw [compactRaw] at h
    split_ifs at h with hfirst
    simp only [bind_eq_bind, bind_eq_some_iff, Prod.exists] at h
    obtain ⟨compacted, rest, hterm, hout⟩ := h
    split_ifs at hout with hrest
    cases hout
    obtain ⟨used, rfl, hback⟩ := compactTerm_inverse v1 (maxDepth + 1) hterm
    have hexpand := hback []
    rw [append_nil] at hexpand
    rw [not_ne_iff] at hfirst
    rw [expand, if_neg (by simp), dictionary, if_pos rfl]
    simp [hexpand, hrest, hfirst]

/-- The check in `compact` never is the reason for a refusal. -/
theorem compact_eq :
    compact input = (compactRaw input).filter fun out => out.length < input.length := by
  rw [compact]
  cases h : compactRaw input with
  | none => rfl
  | some out =>
    simp only [bind_eq_bind, bind_some, filter_some, decide_eq_true_eq,
      expand_of_compactRaw h, if_true]
    split_ifs <;> first | rfl | omega

/-- An input is expanded exactly when it is a header and one term that is read to the last byte. -/
theorem expand_eq_some_iff {input out : Bytes} :
    expand input = some out ↔ ∃ body term, input = magic :: dictionaryV1 :: body ∧
      out = versionMagic :: term ∧
      ∀ tail, expandTerm v1 (maxDepth + 1) (body ++ tail) = some (term, tail) := by
  constructor
  · intro h
    match input, h with
    | first :: version :: body, h =>
      rw [expand] at h
      split_ifs at h with hfirst
      simp only [bind_eq_bind, bind_eq_some_iff, Prod.exists] at h
      obtain ⟨dict, hdict, term, rest, hterm, hout⟩ := h
      rw [dictionary] at hdict
      split_ifs at hdict with hversion
      cases hdict
      split_ifs at hout with hrest
      cases hout
      obtain ⟨used, rfl, hagain⟩ := expandTerm_local v1 (maxDepth + 1) hterm
      rw [not_ne_iff] at hfirst
      rw [hrest, append_nil, hfirst, hversion]
      exact ⟨used, term, rfl, rfl, hagain⟩
  · rintro ⟨body, term, rfl, rfl, hterm⟩
    have hbody := hterm []
    rw [append_nil] at hbody
    rw [expand, if_neg (by simp), dictionary, if_pos rfl]
    simp [hbody]

/-- Compaction is lossless without its own check, and expansion takes exactly the inputs it reads to
the last byte. -/
theorem compaction_lossless (input out : Bytes) :
    (compactRaw input = some out → expand out = some input) ∧
    compact input = (compactRaw input).filter (fun out => out.length < input.length) ∧
    (expand input = some out ↔ ∃ body term, input = magic :: dictionaryV1 :: body ∧
      out = versionMagic :: term ∧
      ∀ tail, expandTerm v1 (maxDepth + 1) (body ++ tail) = some (term, tail)) :=
  ⟨expand_of_compactRaw, compact_eq input, expand_eq_some_iff⟩

/-- A pair of a dictionary atom and another atom loses eleven bytes and comes back. -/
theorem compaction_lossless_pair :
    compactRaw ([131, 104, 2, 119, 12] ++ "wall_time_ms".toUTF8.toList ++ [119, 1, 120]) =
      some [0xFC, 1, 104, 2, 1, 0, 119, 1, 120] ∧
    expand [0xFC, 1, 104, 2, 1, 0, 119, 1, 120] =
      some ([131, 104, 2, 119, 12] ++ "wall_time_ms".toUTF8.toList ++ [119, 1, 120]) := by
  have hraw : compactRaw ([131, 104, 2, 119, 12] ++ "wall_time_ms".toUTF8.toList ++ [119, 1, 120]) =
      some [0xFC, 1, 104, 2, 1, 0, 119, 1, 120] := by decide +kernel
  exact ⟨hraw, (compaction_lossless _ _).1 hraw⟩

end FerricStore.Raft
