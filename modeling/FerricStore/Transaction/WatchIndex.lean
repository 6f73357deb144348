import Mathlib

/-!
# The replicated WATCH index

`WATCH` registers a row for each key it watches, and every applied entry raises the rows of the
keys it writes, so that a token can later be judged from what the log wrote alone. A row has the
version `2 * index` of the entry that registered it, or `2 * index + 1` of the last one that wrote
the key. Rows expire, and an entry that hits no row may be applied by a projection that does not
know the index.

The tables that classify the single commands are parameters, as is what a command does to the client
keys; a log is a list of entries.
-/

namespace FerricStore.WatchIndex

open List

/-! ### What a command writes -/

inductive Written (K : Type) where
  | none
  | keys (listed : List K)
  | all

inductive Command (L : Type) where
  | single (command : L)
  | batch (commands : List L)

inductive Result (R : Type) where
  | one (result : R)
  | many (results : List R)

/-- The tables of a single command: `classify` and `unchanged?`. -/
structure Table (K L R : Type) where
  classify : L → Written K
  unchanged : L → R → Bool

section written

variable {K L R : Type}

def Written.Has : Written K → K → Prop
  | .none, _ => False
  | .keys listed, k => k ∈ listed
  | .all, _ => True

instance [DecidableEq K] (w : Written K) (k : K) : Decidable (w.Has k) :=
  match w with
  | .none => inferInstanceAs (Decidable False)
  | .keys listed => inferInstanceAs (Decidable (k ∈ listed))
  | .all => inferInstanceAs (Decidable True)

@[simp] theorem not_has_none (k : K) : ¬ (Written.none : Written K).Has k := id

@[simp] theorem has_keys {listed : List K} {k : K} :
    (Written.keys listed).Has k ↔ k ∈ listed := .rfl

@[simp] theorem has_all (k : K) : (Written.all : Written K).Has k := trivial

variable [DecidableEq K]

/-- The reduction over a batch, which stops at the first command that may write every key. -/
def combine (acc : List K) : List (Written K) → Written K
  | [] => .keys acc.dedup
  | .none :: rest => combine acc rest
  | .keys listed :: rest => combine (listed ++ acc) rest
  | .all :: _ => .all

variable (t : Table K L R)

/-- `written/1`. -/
def Table.written : Command L → Written K
  | .single command => t.classify command
  | .batch commands => combine [] (commands.map t.classify)

def Table.classifyApplied (command : L) (result : R) : Written K :=
  if t.unchanged command result then .none else t.classify command

/-- `written/2`; a result that does not tell counts as a write. -/
def Table.writtenBy : Command L → Result R → Written K
  | .single command, .one result => t.classifyApplied command result
  | .batch commands, .many results =>
    if results.length = commands.length then
      combine [] (List.zipWith t.classifyApplied commands results)
    else t.written (.batch commands)
  | command, _ => t.written command

theorem combine_has {acc : List K} {ws : List (Written K)} {k : K} :
    (combine acc ws).Has k ↔ k ∈ acc ∨ ∃ w ∈ ws, w.Has k := by
  induction ws generalizing acc with
  | nil => simp [combine]
  | cons w rest ih => cases w <;> simp [combine, ih, or_assoc, or_left_comm]

/-- A result only takes keys away. -/
theorem Table.written_of_writtenBy {command : Command L} {result : Result R}
    {k : K} (h : (t.writtenBy command result).Has k) : (t.written command).Has k := by
  have happlied : ∀ {c : L} {r : R}, (t.classifyApplied c r).Has k → (t.classify c).Has k := by
    intro c r hc
    unfold classifyApplied at hc
    split at hc
    · exact hc.elim
    · exact hc
  unfold writtenBy at h
  split at h
  · exact happlied h
  · next commands results =>
      split at h
      · rw [combine_has] at h
        rw [written, combine_has]
        obtain h | ⟨w, hw, hk⟩ := h
        · exact .inl h
        obtain ⟨i, hi, rfl⟩ := mem_iff_getElem.mp hw
        rw [getElem_zipWith] at hk
        exact .inr ⟨_, mem_map_of_mem (getElem_mem _), happlied hk⟩
      · exact h
  · exact h

end written

/-! ### The index -/

/-- `row_ttl_ms`. -/
def rowTtlMs : Nat := 60 * 60 * 1000

/-- Is an expiry time live? 0 is none. -/
def live (nowMs expireAtMs : Nat) : Bool :=
  expireAtMs = 0 ∨ nowMs < expireAtMs

structure Row where
  version : Nat
  expireAtMs : Nat
deriving DecidableEq

/-- What is stored under a client key: the expiry times of its string, type and list metadata rows,
where it has them, and everything else. -/
structure Client (β : Type) where
  string : Option Nat
  type : Option Nat
  listMeta : Option Nat
  contents : Option β

/-- `watch_key_live?`. -/
def watchKeyLive {β : Type} (c : Client β) (nowMs : Nat) : Bool :=
  [c.string, c.type, c.listMeta].any fun row => row.any (live nowMs)

structure Token where
  version : Nat
  live : Bool

/-- An entry of the log. `sweeps` and `purges` say which expired client keys and which expired rows
it removes, and `projected` whether it comes through the projection. -/
structure Entry (K L R β : Type) where
  index : Nat
  nowMs : Nat
  watches : List K
  command : Command L
  result : Result R
  effect : (K → Client β) → K → Client β
  sweeps : K → Bool
  purges : K → Bool
  projected : Bool

structure State (K β : Type) where
  client : K → Client β
  rows : K → Option Row
  inUse : Bool

section index

variable {K L R β : Type} [DecidableEq K] (t : Table K L R) (s : State K β)

/-- Expired keys and rows go away at the time of an entry. -/
def State.expire (e : Entry K L R β) : State K β :=
  { s with
    client := fun k =>
      if e.sweeps k ∧ !watchKeyLive (s.client k) e.nowMs then ⟨none, none, none, none⟩
      else s.client k
    rows := fun k => (s.rows k).filter fun row => live e.nowMs row.expireAtMs || !e.purges k }

/-- `watch_index_row`. -/
def liveRow (row : Option Row) (nowMs : Nat) : Option Row :=
  row.filter fun row => live nowMs row.expireAtMs

variable (e : Entry K L R β)

/-- `watch_index_registration_version` and `put_watch_index_row`: a live row keeps its version. -/
def registeredRow (row : Option Row) : Row :=
  ⟨((liveRow row e.nowMs).map Row.version).getD (2 * e.index), e.nowMs + rowTtlMs⟩

/-- `transaction_watch_index_tokens`. -/
def register (e : Entry K L R β) : List K → State K β → State K β × List (K × Token)
  | [], s => (s, [])
  | k :: rest, s =>
    let row := registeredRow e (s.rows k)
    let next := register e rest
      { s with inUse := true, rows := Function.update s.rows k (some row) }
    (next.1, (k, ⟨row.version, watchKeyLive (s.client k) e.nowMs⟩) :: next.2)

/-- `raise_watch_index_row`. -/
def raiseRow (row : Option Row) : Option Row :=
  row.map fun row =>
    if live e.nowMs row.expireAtMs ∧ row.version < 2 * e.index + 1 then
      { row with version := 2 * e.index + 1 }
    else row

/-- `watch_index_requires_apply?`. -/
def requiresApply (command : Command L) : Bool :=
  s.inUse && match t.written command with
    | .none => false
    | .all => true
    | .keys listed => listed.any fun k => (s.rows k).isSome

/-- One entry: it registers what it watches, changes the client keys and, while the index is in use,
raises the rows of the keys it wrote. A projected entry that does not need the index skips it. -/
def State.apply (e : Entry K L R β) : State K β :=
  let s := s.expire e
  if e.projected ∧ e.watches = [] ∧ requiresApply t s e.command = false then
    { s with client := e.effect s.client }
  else
    let s := (register e e.watches s).1
    { s with
      client := e.effect s.client
      rows := fun k =>
        if s.inUse ∧ (t.writtenBy e.command e.result).Has k then raiseRow e (s.rows k)
        else s.rows k }

/-- `watch_index_token_clean?`. -/
def watchIndexTokenClean (k : K) (token : Token) (nowMs : Nat) : Bool :=
  match liveRow (s.rows k) nowMs with
  | some row => row.version = token.version ∧ (token.live → watchKeyLive (s.client k) nowMs)
  | none => false

/-- The state after a log, from a store without an index. -/
def run (client : K → Client β) (log : List (Entry K L R β)) : State K β :=
  log.foldl (State.apply t) ⟨client, fun _ => none, false⟩

/-- An entry changes no client key beyond those it is said to write. -/
def Entry.Confined : Prop :=
  ∀ client k, ¬ (t.writtenBy e.command e.result).Has k → e.effect client k = client k

/-- An entry changes a key, as it finds it at its time. -/
def Entry.Changes (s : State K β) (k : K) : Prop :=
  e.effect (s.expire e).client k ≠ (s.expire e).client k

/-- Later entries have larger indexes and no earlier times. -/
def Ordered (log : List (Entry K L R β)) : Prop :=
  log.Pairwise fun a b => a.index < b.index ∧ a.nowMs ≤ b.nowMs

end index

/-! ### The row of one key -/

variable {nowMs v : Nat}

section rows

variable {K L R β : Type} [DecidableEq K] {t : Table K L R} {s : State K β} {e : Entry K L R β}
  {k : K}

omit [DecidableEq K] in
theorem registeredRow_idem (e : Entry K L R β) (row : Option Row) :
    registeredRow e (some (registeredRow e row)) = registeredRow e row := by
  have hlive : live e.nowMs (e.nowMs + rowTtlMs) = true := by simp [live, rowTtlMs]
  simp [registeredRow, liveRow, Option.filter, hlive]

theorem register_inUse (ks : List K) (s : State K β) :
    (register e ks s).1.inUse = (s.inUse || !ks.isEmpty) := by
  induction ks generalizing s with
  | nil => simp [register]
  | cons first rest ih => simp [register, ih]

/-- Registering a list of keys, for one key: its row is registered once, and every token of it has
the version of that row. -/
theorem register_spec (ks : List K) (s : State K β) : (register e ks s).1.rows k =
        (if k ∈ ks then some (registeredRow e (s.rows k)) else s.rows k) ∧
      ∀ token, (k, token) ∈ (register e ks s).2 → k ∈ ks ∧
        token = ⟨(registeredRow e (s.rows k)).version, watchKeyLive (s.client k) e.nowMs⟩ := by
  induction ks generalizing s with
  | nil => simp [register]
  | cons first rest ih =>
    obtain ⟨hrows, htokens⟩ := ih { s with
      inUse := true, rows := Function.update s.rows first (some (registeredRow e (s.rows first))) }
    constructor
    · rw [register, hrows]
      -- a key that is watched again keeps the row it has just got
      by_cases hk : k = first
      · subst hk
        simp [registeredRow_idem]
      · simp [hk]
    · intro token htoken
      rcases mem_cons.mp htoken with heq | hrest
      · cases heq
        exact ⟨mem_cons_self, rfl⟩
      · obtain ⟨hmem, rfl⟩ := htokens token hrest
        refine ⟨mem_cons_of_mem _ hmem, ?_⟩
        by_cases hk : k = first
        · subst hk
          simp [registeredRow_idem]
        · simp [hk]

theorem apply_inUse : (s.apply t e).inUse = (s.inUse || !e.watches.isEmpty) := by
  unfold State.apply
  dsimp only
  split
  · next hskip =>
      rw [hskip.2.1, isEmpty_nil, Bool.not_true, Bool.or_false]
      rfl
  · exact register_inUse e.watches _

/-- The row of a key before an entry raises it: expired rows may go, and a watched key is
registered. -/
def watchedRow (s : State K β) (e : Entry K L R β) (k : K) : Option Row :=
  if k ∈ e.watches then some (registeredRow e ((s.expire e).rows k)) else (s.expire e).rows k

/-- The row of a key after an entry. -/
theorem apply_rows : (s.apply t e).rows k =
    if (s.inUse || !e.watches.isEmpty) ∧ (t.writtenBy e.command e.result).Has k then
      raiseRow e (watchedRow s e k)
    else watchedRow s e k := by
  have hexpire : (s.expire e).inUse = s.inUse := rfl
  unfold State.apply watchedRow
  dsimp only
  split
  · next hskip =>
      -- a row that is there would have kept the entry from being skipped
      obtain ⟨-, hwatches, hrequires⟩ := hskip
      simp only [hwatches, not_mem_nil, if_false, isEmpty_nil, Bool.not_true, Bool.or_false]
      split
      · next hwritten =>
          obtain ⟨hin, hhas⟩ := hwritten
          have hnone : (s.expire e).rows k = none := by
            have hhas' := t.written_of_writtenBy hhas
            simp only [requiresApply, hexpire, hin, Bool.true_and] at hrequires
            cases hw : t.written e.command <;> simp_all
          simp [hnone, raiseRow]
      · rfl
  · simp [register_inUse, (register_spec e.watches (s.expire e)).1, hexpire]

/-- Versions of entries before `n`. -/
def Bounded (n : Nat) (s : State K β) : Prop :=
  ∀ k row, s.rows k = some row → row.version < 2 * n

/-- Where a row that is not raised comes from: it is registered, with the version of a live row or
a new one, or it was there. -/
theorem watchedRow_cases {row : Row} (h : watchedRow s e k = some row) :
    (row.version = 2 * e.index ∨ ∃ old, s.rows k = some old ∧ row.version = old.version ∧
        live e.nowMs old.expireAtMs = true) ∧ row.expireAtMs = e.nowMs + rowTtlMs ∨
      s.rows k = some row := by
  have hexpire : ∀ {row}, (s.expire e).rows k = some row → s.rows k = some row := fun h =>
    (Option.filter_eq_some_iff.mp h).1
  unfold watchedRow at h
  split at h
  · cases h
    refine .inl ⟨?_, rfl⟩
    unfold registeredRow liveRow
    cases hrow : (s.expire e).rows k with
    | none => exact .inl rfl
    | some old =>
      by_cases hlive : live e.nowMs old.expireAtMs = true
      · exact .inr ⟨old, hexpire hrow, by simp [Option.filter, hlive], hlive⟩
      · exact .inl (by simp [Option.filter, hlive])
  · exact .inr (hexpire h)

theorem watchedRow_version (hb : Bounded e.index s) {row : Row} (h : watchedRow s e k = some row) :
    row.version < 2 * e.index + 1 := by
  rcases watchedRow_cases h with ⟨hnew | ⟨old, hold, hversion, -⟩, -⟩ | hold
  · omega
  · have := hb k old hold
    omega
  · have := hb k row hold
    omega

omit [DecidableEq K] in
/-- A raised row has the version of the entry, unless it is not raised because it has expired or
has it already. -/
theorem raiseRow_cases {before : Option Row} {row : Row} (h : raiseRow e before = some row) :
    row.version = 2 * e.index + 1 ∨ before = some row ∧
      (live e.nowMs row.expireAtMs = false ∨ 2 * e.index + 1 ≤ row.version) := by
  obtain ⟨old, rfl, rfl⟩ := Option.map_eq_some_iff.mp h
  split
  · exact .inl rfl
  · next hnot =>
      refine .inr ⟨rfl, ?_⟩
      rw [not_and_or, not_lt, Bool.not_eq_true] at hnot
      exact hnot

theorem Bounded.apply (h : Bounded e.index s) : Bounded (e.index + 1) (s.apply t e) := by
  intro k row hrow
  rw [apply_rows] at hrow
  split at hrow
  · rcases raiseRow_cases hrow with hversion | ⟨hbefore, -⟩
    · omega
    · have := watchedRow_version h hbefore
      omega
  · have := watchedRow_version h hrow
    omega

/-- A row of the key with the version `v` has expired. -/
def Lost (v : Nat) (s : State K β) (nowMs : Nat) (k : K) : Prop :=
  ∀ row, s.rows k = some row → row.version = v → live nowMs row.expireAtMs = false

omit [DecidableEq K] in
theorem Lost.mono {later : Nat} (h : Lost v s nowMs k) (hle : nowMs ≤ later) :
    Lost v s later k := by
  intro row hrow hversion
  have hdead := h row hrow hversion
  simp only [live, decide_eq_false_iff_not] at hdead ⊢
  omega

theorem Lost.apply (h : Lost v s nowMs k) (hv : v < 2 * e.index)
    (hnow : nowMs ≤ e.nowMs) : Lost v (s.apply t e) e.nowMs k := by
  have hstill := h.mono hnow
  have hbefore : ∀ {row}, watchedRow s e k = some row → row.version = v →
      live e.nowMs row.expireAtMs = false := by
    intro row hrow hversion
    rcases watchedRow_cases hrow with ⟨hnew | ⟨old, hold, hsame, hlive⟩, -⟩ | hold
    · omega
    · exact absurd hlive (by simp [hstill old hold (hsame.symm.trans hversion)])
    · exact hstill row hold hversion
  intro row hrow hversion
  rw [apply_rows] at hrow
  split at hrow
  · rcases raiseRow_cases hrow with hraised | ⟨hrow, -⟩
    · omega
    · exact hbefore hrow hversion
  · exact hbefore hrow hversion

theorem lost_of_written (hv : v < 2 * e.index) (hinUse : s.inUse = true)
    (hhas : (t.writtenBy e.command e.result).Has k) :
    Lost v (s.apply t e) e.nowMs k := by
  intro row hrow hversion
  rw [apply_rows, if_pos ⟨by simp [hinUse], hhas⟩] at hrow
  -- a live row of an older version would have been raised
  rcases raiseRow_cases hrow with hraised | ⟨hbefore, hexpired | hlarge⟩
  · omega
  · exact hexpired
  · omega

/-- The row of the key has the version `v` and lasts until `deadline`. -/
def Kept (v deadline : Nat) (s : State K β) (k : K) : Prop :=
  ∃ row, s.rows k = some row ∧ row.version = v ∧ deadline ≤ row.expireAtMs

theorem Kept.apply {deadline : Nat} (h : Kept v deadline s k) (hnow : e.nowMs < deadline)
    (hhas : ¬ (t.writtenBy e.command e.result).Has k) (hdeadline : deadline ≤ e.nowMs + rowTtlMs) :
    Kept v deadline (s.apply t e) k := by
  obtain ⟨row, hrow, hversion, hexpire⟩ := h
  have hlive : live e.nowMs row.expireAtMs = true := by
    simp only [live, decide_eq_true_eq]
    omega
  have hthere : (s.expire e).rows k = some row := by
    simp [State.expire, hrow, hlive]
  unfold Kept
  rw [apply_rows, if_neg fun hboth => hhas hboth.2, watchedRow]
  split
  · refine ⟨_, rfl, ?_, hdeadline⟩
    simp [registeredRow, liveRow, hthere, hlive, Option.filter, hversion]
  · exact ⟨row, hthere, hversion, hexpire⟩

end rows

/-! ### Logs -/

section logs

variable {K L R β : Type} [DecidableEq K] {t : Table K L R} {s : State K β}
  {log : List (Entry K L R β)} {k : K}

theorem bounded_foldl {n m : Nat} (hs : Bounded n s) (hle : n ≤ m) (hlog : Ordered log)
    (hindex : ∀ e ∈ log, n ≤ e.index ∧ e.index < m) :
    Bounded m (log.foldl (State.apply t) s) := by
  induction log generalizing s n with
  | nil =>
    intro k row hrow
    have := hs k row hrow
    omega
  | cons e rest ih =>
    obtain ⟨hfirst, hrest⟩ := pairwise_cons.mp hlog
    have he := hindex e mem_cons_self
    have hbefore : Bounded e.index s := fun k row hrow => by
      have := hs k row hrow
      omega
    refine ih hbefore.apply (by omega) hrest fun later hlater => ?_
    have := hfirst later hlater
    have := hindex later (mem_cons_of_mem _ hlater)
    omega

theorem inUse_foldl (h : s.inUse = true) : (log.foldl (State.apply t) s).inUse = true := by
  induction log generalizing s with
  | nil => exact h
  | cons e rest ih => exact ih (by rw [apply_inUse, h, Bool.true_or])

theorem Lost.foldl {later : Nat} (h : Lost v s nowMs k) (hle : nowMs ≤ later)
    (hlog : Ordered log) (hrest : ∀ e ∈ log, v < 2 * e.index ∧ nowMs ≤ e.nowMs ∧ e.nowMs ≤ later) :
    Lost v (log.foldl (State.apply t) s) later k := by
  induction log generalizing s nowMs with
  | nil => exact h.mono hle
  | cons e rest ih =>
    obtain ⟨hfirst, hordered⟩ := pairwise_cons.mp hlog
    obtain ⟨hv, hnow, hlater⟩ := hrest e mem_cons_self
    refine ih (h.apply hv hnow) hlater hordered fun next hnext => ?_
    obtain ⟨hv', -, hlater'⟩ := hrest next (mem_cons_of_mem _ hnext)
    exact ⟨hv', (hfirst next hnext).2, hlater'⟩

theorem Kept.foldl {deadline : Nat} (h : Kept v deadline s k)
    (hlog : ∀ e ∈ log, ¬ (t.writtenBy e.command e.result).Has k ∧ e.nowMs < deadline ∧
      deadline ≤ e.nowMs + rowTtlMs) :
    Kept v deadline (log.foldl (State.apply t) s) k := by
  induction log generalizing s with
  | nil => exact h
  | cons e rest ih =>
    obtain ⟨hhas, hnow, hdeadline⟩ := hlog e mem_cons_self
    exact ih (h.apply hnow hhas hdeadline) fun next hnext =>
      hlog next (mem_cons_of_mem _ hnext)

omit [DecidableEq K] in
/-- A token is clean when a live row has its version and a key that was live still is. -/
theorem clean_iff {token : Token} : watchIndexTokenClean s k token nowMs = true ↔
      (∃ row, s.rows k = some row ∧ row.version = token.version ∧
        live nowMs row.expireAtMs = true) ∧
      (token.live = true → watchKeyLive (s.client k) nowMs = true) := by
  unfold watchIndexTokenClean liveRow
  cases s.rows k with
  | none => simp
  | some row =>
    cases token.live <;> by_cases hlive : live nowMs row.expireAtMs = true <;>
      simp [Option.filter, hlive]

end logs

/-- A token that `WATCH` gave for a key is judged clean only if no entry since has changed the key
and the key is live if it was; and it is judged clean if no entry since, the registering one
included, had the key among those it wrote, the key is live if it was, and the registered row has
not expired. This holds for every log, with any other registrations of the key and whichever entries
the projection skips. -/
theorem watch_index_sound_complete {K L R β : Type} [DecidableEq K] (t : Table K L R)
    (client : K → Client β) (before after : List (Entry K L R β)) (w : Entry K L R β) (k : K)
    (token : Token) (nowMs : Nat) (hlog : Ordered (before ++ w :: after))
    (hnow : ∀ e ∈ w :: after, e.nowMs ≤ nowMs) (hconfined : ∀ e ∈ after, e.Confined t)
    (htoken : (k, token) ∈ (register w w.watches ((run t client before).expire w)).2) :
    (watchIndexTokenClean (run t client (before ++ w :: after)) k token nowMs = true →
      (∀ mid e rest, after = mid ++ e :: rest → ¬ e.Changes (run t client (before ++ w :: mid)) k) ∧
      (token.live = true →
        watchKeyLive ((run t client (before ++ w :: after)).client k) nowMs = true)) ∧
    ((∀ e ∈ w :: after, ¬ (t.writtenBy e.command e.result).Has k) → (token.live = true →
        watchKeyLive ((run t client (before ++ w :: after)).client k) nowMs = true) →
      nowMs < w.nowMs + rowTtlMs →
      watchIndexTokenClean (run t client (before ++ w :: after)) k token nowMs = true) := by
  obtain ⟨hwatched, hversion⟩ := (register_spec w.watches _).2 token htoken
  obtain ⟨hbefore, hfrom, hcross⟩ := pairwise_append.mp hlog
  obtain ⟨hafterw, hafter⟩ := pairwise_cons.mp hfrom
  have hrow : watchedRow (run t client before) w k =
      some (registeredRow w (((run t client before).expire w).rows k)) := if_pos hwatched
  have hbound : Bounded w.index (run t client before) :=
    bounded_foldl nofun (Nat.zero_le _) hbefore fun e he =>
      ⟨Nat.zero_le _, (hcross e he w mem_cons_self).1⟩
  have hv : token.version < 2 * w.index + 1 := by
    rw [hversion]
    exact watchedRow_version hbound hrow
  have hrun : ∀ log, run t client (before ++ w :: log) =
      log.foldl (State.apply t) ((run t client before).apply t w) := fun log => by
    rw [run, foldl_append, foldl_cons]
    rfl
  refine ⟨fun hclean => ⟨?_, (clean_iff.mp hclean).2⟩, fun hwritten hlive hdeadline => ?_⟩
  · -- a change is written, so the row loses the version of the token for good
    rintro mid e rest rfl hchanges
    obtain ⟨hmid, hfrome, hmide⟩ := pairwise_append.mp hafter
    obtain ⟨hafter, hrest⟩ := pairwise_cons.mp hfrome
    have he : e ∈ mid ++ e :: rest := mem_append_right _ mem_cons_self
    have hindex := (hafterw e he).1
    have hhas : (t.writtenBy e.command e.result).Has k := by
      by_contra hnot
      exact hchanges (hconfined e he _ k hnot)
    have hbounde : Bounded e.index (run t client (before ++ w :: mid)) := by
      rw [hrun]
      refine bounded_foldl hbound.apply hindex hmid fun m hm => ?_
      exact ⟨(hafterw m (mem_append_left _ hm)).1, (hmide m hm e mem_cons_self).1⟩
    have hinUse : (run t client (before ++ w :: mid)).inUse = true := by
      rw [hrun]
      refine inUse_foldl ?_
      rw [apply_inUse]
      cases hw : w.watches with
      | nil => simp [hw] at hwatched
      | cons => simp
    have hlost := (lost_of_written (v := token.version) (by omega) hinUse hhas).foldl
      (t := t) (hnow e (mem_cons_of_mem _ he)) hrest fun next (hnext : next ∈ rest) => by
        have hmem : next ∈ mid ++ e :: rest := mem_append_right _ (mem_cons_of_mem _ hnext)
        have := (hafterw next hmem).1
        exact ⟨by omega, (hafter next hnext).2, hnow next (mem_cons_of_mem _ hmem)⟩
    obtain ⟨row, hfound, hsame, hlive⟩ := (clean_iff.mp hclean).1
    rw [hrun, foldl_append, foldl_cons, ← hrun] at hfound
    exact absurd hlive (by simp [hlost row hfound hsame])
  · have hkept : Kept token.version (w.nowMs + rowTtlMs) ((run t client before).apply t w) k := by
      refine ⟨_, ?_, (congrArg Token.version hversion).symm, le_refl (w.nowMs + rowTtlMs)⟩
      rw [apply_rows, if_neg fun hboth => hwritten w mem_cons_self hboth.2, hrow]
    obtain ⟨row, hfound, hsame, hexpire⟩ := hkept.foldl (t := t) fun e (he : e ∈ after) =>
      ⟨hwritten e (mem_cons_of_mem _ he), (hnow e (mem_cons_of_mem _ he)).trans_lt hdeadline,
        Nat.add_le_add_right (hafterw e he).2 _⟩
    refine clean_iff.mpr ⟨⟨row, by rwa [hrun], hsame, ?_⟩, hlive⟩
    simp only [live, decide_eq_true_eq]
    omega

/-- Commands that write the key they name. -/
def namedKeys : Table Nat Nat Unit := ⟨fun k => .keys [k], fun _ _ => false⟩

/-- An entry that watches keys and deletes the key its command names. -/
def deleteEntry (index nowMs : Nat) (watches : List Nat) (key : Nat) : Entry Nat Nat Unit Unit :=
  { index, nowMs, watches, command := .single key, result := .one ()
    effect := fun client => Function.update client key ⟨none, none, none, none⟩
    sweeps := fun _ => false, purges := fun _ => false, projected := true }

/-- A token of a key stays clean while another key is deleted, whose own token does not. -/
theorem watch_index_sound_complete_unwritten :
    let s := run namedKeys (fun _ => ⟨some 0, none, none, none⟩)
      [deleteEntry 1 10 [7, 8] 0, deleteEntry 2 20 [] 8]
    watchIndexTokenClean s 7 ⟨2, true⟩ 30 = true ∧ watchIndexTokenClean s 8 ⟨2, true⟩ 30 = false := by
  intro s
  have hjudged := fun k token => watch_index_sound_complete namedKeys
    (fun _ => ⟨some 0, none, none, none⟩) [] [deleteEntry 2 20 [] 8] (deleteEntry 1 10 [7, 8] 0) k
    token 30 (by simp [Ordered, deleteEntry]) (by simp [deleteEntry]) (by
      intro e he client k hk
      cases mem_singleton.mp he
      have hne : k ≠ 8 := fun heq => hk (heq ▸ mem_singleton_self k)
      exact Function.update_of_ne hne _ _)
  constructor
  · exact (hjudged 7 ⟨2, true⟩ (mem_cons_self ..)).2 (by decide) (fun _ => rfl) (by decide)
  · rw [Bool.eq_false_iff]
    intro hclean
    refine ((hjudged 8 ⟨2, true⟩ (mem_cons_of_mem _ (mem_cons_self ..))).1 hclean).1 [] _ [] rfl ?_
    exact fun hsame => nomatch hsame

end FerricStore.WatchIndex
