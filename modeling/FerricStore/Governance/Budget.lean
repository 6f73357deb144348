import FerricStore.Governance.Circuit
import FerricStore.Lib.EntriesBatch
import FerricStore.Lib.MapTotal

/-!
# Fixed-window budgets

A budget counts what is reserved and committed in the current window. `Exact` ties its counter to the
reservations: `used` is what the active reservations of the window hold and what those committed in
it have cost. `budget_accounting_exact` says that every run of calls keeps this, together with the
check that a stored budget has to pass and the rules for repeated calls.
-/

namespace FerricStore.Governance

open Option List SortedMap

inductive ReservationStatus where
  | reserved
  | committed
  | released
  deriving DecidableEq, Repr

/-- A reservation, active or settled. -/
structure Reservation (U : Type) where
  id : Bytes
  amount : Nat
  actualAmount : Option Nat
  status : ReservationStatus
  usage : Option U
  reservedAtMs : Nat
  settledAtMs : Option Nat
  windowStartMs : Nat
  overageAmount : Nat
  deriving DecidableEq, Repr

/-- `%Budget{}` -/
structure Budget (U : Type) where
  scope : Bytes
  limit : Nat
  windowMs : Nat
  windowStartMs : Nat
  used : Nat
  reservations : SortedMap Bytes (Reservation U)
  settledReservations : SortedMap Bytes (Reservation U)
  settledReservationOrder : List Bytes
  settledReservationLimit : Nat

inductive BudgetError where
  | message (text : String)
  | exhausted (scope : Bytes) (requested used limit windowMs retryAfterMs : Nat)
  deriving DecidableEq, Repr

/-- A reply and the budget that is written with it. -/
abbrev BudgetReply (U : Type) := Except BudgetError (Reservation U) × Budget U

namespace Budget

variable {U : Type}

/-! ## Calls -/

/-- `fixed_window` -/
def fixedWindow (scope : Bytes) (limit windowMs nowMs : Nat) : Budget U :=
  ⟨scope, limit, windowMs, nowMs, 0, .empty, .empty, [], 128⟩

variable (b : Budget U)

def error (text : String) : BudgetReply U := (.error (.message text), b)

/-- `maybe_reset` -/
def maybeReset (nowMs : Nat) : Budget U :=
  if b.windowMs ≤ nowMs - b.windowStartMs then
    { b with
      used := 0
      windowStartMs := nowMs
      reservations := b.reservations.filter fun _ r => decide (r.status = .reserved)
      settledReservations := .empty
      settledReservationOrder := [] }
  else b

/-- `create_reservation` -/
def createReservation (amount : Nat) (id : Bytes) (nowMs : Nat) : BudgetReply U :=
  if 4096 ≤ b.reservations.size then b.error "ERR flow budget has too many active reservations"
  else if b.used + amount ≤ b.limit then
    let r : Reservation U :=
      ⟨id, amount, none, .reserved, none, nowMs, none, b.windowStartMs, 0⟩
    (.ok r, { b with used := b.used + amount, reservations := b.reservations.put id r })
  else
    (.error (.exhausted b.scope amount b.used b.limit b.windowMs
      (b.windowMs - (nowMs - b.windowStartMs))), b)

/-- `Budget.reserve` -/
def reserve (amount : Nat) (id : Bytes) (nowMs : Nat) : BudgetReply U :=
  if nowMs < b.windowStartMs then b.error "ERR flow budget now_ms cannot precede window_start_ms"
  else
    let b := b.maybeReset nowMs
    match b.reservations.get id with
    | some r =>
      if r.amount = amount then (.ok r, b)
      else b.error "ERR flow budget reservation id already exists"
    | none =>
      if (b.settledReservations.get id).isSome then
        b.error "ERR flow budget reservation id already exists"
      else b.createReservation amount id nowMs

/-- `settle_reservation` -/
def settleReservation (id : Bytes) (settled : Reservation U) : Budget U :=
  let order := (id :: b.settledReservationOrder.erase id).take b.settledReservationLimit
  { b with
    reservations := b.reservations.erase id
    settledReservations :=
      (b.settledReservations.put id settled).filter fun key _ => order.contains key
    settledReservationOrder := order }

/-- `committed_used`: the new counter and the overage. -/
def committedUsed (r : Reservation U) (actualAmount : Nat) : Option (Nat × Nat) :=
  if r.windowStartMs = b.windowStartMs then
    let used := (b.used : Int) + ((actualAmount : Int) - r.amount) |>.toNat
    if used ≤ maxExactInteger then some (used, used - b.limit) else none
  else some (b.used, actualAmount - r.amount)

/-- The text of a status in a message. -/
def statusText : ReservationStatus → String
  | .reserved => "reserved"
  | .committed => "committed"
  | .released => "released"

/-- `settled_result` of a commit (with its amount) or of a release (without one). -/
def settledResult (id : Bytes) (actualAmount : Option Nat) : BudgetReply U :=
  match b.settledReservations.get id with
  | none => b.error "ERR flow budget reservation not found"
  | some r =>
    match actualAmount with
    | some actualAmount =>
      if r.status = .committed ∧ r.actualAmount = some actualAmount then (.ok r, b)
      else b.error ("ERR flow budget reservation already " ++ statusText r.status)
    | none =>
      if r.status = .released then (.ok r, b)
      else b.error ("ERR flow budget reservation already " ++ statusText r.status)

variable (validUsage : U → Bool)

/-- `Budget.commit`. An active reservation is always `:reserved`; the clauses for other statuses are
those of `settled_result`. -/
def commit (b : Budget U) (id : Bytes) (actualAmount : Nat)
    (usage : Option U) (nowMs : Nat) : BudgetReply U :=
  if nowMs < b.windowStartMs then b.error "ERR flow budget now_ms cannot precede window_start_ms"
  else
    let b := b.maybeReset nowMs
    match b.reservations.get id with
    | none => b.settledResult id (some actualAmount)
    | some r =>
      match r.status with
      | .reserved =>
        if nowMs < r.reservedAtMs then
          b.error "ERR flow budget now_ms cannot precede reservation"
        else if usage.all validUsage then
          match b.committedUsed r actualAmount with
          | none =>
            b.error "ERR flow budget aggregate usage exceeds durable integer range"
          | some (used, overageAmount) =>
            let settled := { r with
              actualAmount := some actualAmount
              status := .committed
              usage := usage
              settledAtMs := some nowMs
              overageAmount := overageAmount }
            (.ok settled, { b.settleReservation id settled with used := used })
        else b.error "ERR flow budget usage must be a bounded portable term"
      | status =>
        if status = .committed ∧ r.actualAmount = some actualAmount then (.ok r, b)
        else b.error ("ERR flow budget reservation already " ++ statusText status)

/-- `Budget.release` -/
def release (id : Bytes) (nowMs : Nat) : BudgetReply U :=
  if nowMs < b.windowStartMs then b.error "ERR flow budget now_ms cannot precede window_start_ms"
  else
    let b := b.maybeReset nowMs
    match b.reservations.get id with
    | none => b.settledResult id none
    | some r =>
      match r.status with
      | .reserved =>
        if nowMs < r.reservedAtMs then
          b.error "ERR flow budget now_ms cannot precede reservation"
        else
          let used :=
            if r.windowStartMs = b.windowStartMs then b.used - r.amount else b.used
          let settled := { r with
            actualAmount := some 0
            status := .released
            settledAtMs := some nowMs }
          (.ok settled, { b.settleReservation id settled with used := used })
      | .released => (.ok r, b)
      | status => b.error ("ERR flow budget reservation already " ++ statusText status)

/-! ## The check of a stored budget -/

/-- `valid_reservation_id?` -/
def ValidReservationId (id : Bytes) : Prop := id ≠ [] ∧ id.length ≤ 256

/-- `valid_reservation_window?` -/
def ValidReservationWindow (r : Reservation U) (windowStartMs : Nat) : Prop :=
  r.windowStartMs ≤ maxExactInteger ∧ r.windowStartMs ≤ r.reservedAtMs ∧
    r.windowStartMs ≤ windowStartMs

variable (windowStartMs : Nat)

/-- `valid_active_reservations?` of one entry -/
structure ValidActive (id : Bytes) (r : Reservation U) : Prop where
  validId : ValidReservationId id
  id : r.id = id
  status : r.status = .reserved
  amount : 0 < r.amount ∧ r.amount ≤ maxExactInteger
  actualAmount : r.actualAmount = none
  reservedAt : r.reservedAtMs ≤ maxExactInteger
  settledAt : r.settledAtMs = none
  window : ValidReservationWindow r windowStartMs

/-- `valid_settled_payload?` -/
def ValidSettledPayload (r : Reservation U) : Prop :=
  r.status = .released → r.actualAmount = some 0 ∧ r.usage = none ∧ r.overageAmount = 0

/-- `valid_settled_reservations?` of one entry -/
structure ValidSettled (windowStartMs : Nat) (id : Bytes) (r : Reservation U) : Prop where
  validId : ValidReservationId id
  id : r.id = id
  status : r.status ≠ .reserved
  amount : 0 < r.amount ∧ r.amount ≤ maxExactInteger
  actualAmount : ∃ actual ∈ r.actualAmount, actual ≤ maxExactInteger
  overage : r.overageAmount ≤ maxExactInteger
  usage : r.usage.all validUsage = true
  payload : ValidSettledPayload r
  reservedAt : r.reservedAtMs ≤ maxExactInteger
  settledAt : ∃ settled ∈ r.settledAtMs, settled ≤ maxExactInteger ∧ r.reservedAtMs ≤ settled
  window : ValidReservationWindow r windowStartMs

/-- `valid_settled_order?` -/
def ValidSettledOrder : Prop :=
  b.settledReservationOrder.Nodup ∧
    b.settledReservationOrder.length ≤ b.settledReservationLimit ∧
    (∀ id ∈ b.settledReservationOrder, id ≠ []) ∧
    b.settledReservationOrder.length = b.settledReservations.size ∧
    ∀ id ∈ b.settledReservationOrder, (b.settledReservations.get id).isSome

/-- The loop of `valid_current_window_reservations?` -/
def fitsReservable (reservable windowStartMs : Nat) : List (Bytes × Reservation U) → Nat → Bool
  | [], _ => true
  | (_, r) :: rest, total =>
    if r.windowStartMs = windowStartMs then
      if total + r.amount ≤ reservable then
        fitsReservable reservable windowStartMs rest (total + r.amount)
      else false
    else fitsReservable reservable windowStartMs rest total

/-- `Budget.valid?`, but for the size of the record -/
structure Valid (b : Budget U) : Prop where
  scope : b.scope ≠ [] ∧ b.scope.length ≤ 65535
  limit : b.limit ≤ maxExactInteger
  windowMs : 0 < b.windowMs ∧ b.windowMs ≤ maxExactInteger
  windowStart : b.windowStartMs ≤ maxExactInteger
  used : b.used ≤ maxExactInteger
  settledLimit : 0 < b.settledReservationLimit ∧ b.settledReservationLimit ≤ 128
  activeCount : b.reservations.size ≤ 4096
  settledCount : b.settledReservations.size ≤ b.settledReservationLimit
  order : b.ValidSettledOrder
  active : ∀ id r, b.reservations.get id = some r → ValidActive b.windowStartMs id r
  currentWindow :
    fitsReservable (min b.used b.limit) b.windowStartMs b.reservations.entries 0 = true
  settled : ∀ id r, b.settledReservations.get id = some r →
    ValidSettled validUsage b.windowStartMs id r

/-! ## What the counter counts -/

/-- What a reservation holds in a window. -/
def heldIn (r : Reservation U) : Nat :=
  if r.windowStartMs = windowStartMs then r.amount else 0

/-- What the active reservations of the current window hold. -/
def activeInWindow : Nat :=
  b.reservations.total fun _ r => heldIn b.windowStartMs r

/-- What a settled reservation cost the window that it was made in. -/
def costIn (r : Reservation U) : Nat :=
  if r.windowStartMs = windowStartMs ∧ r.status = .committed then r.actualAmount.getD 0 else 0

/-- What the reservations of a window that were committed have cost, out of all settled ones. -/
def committedIn (log : List (Reservation U)) : Nat :=
  (log.map (costIn windowStartMs)).sum

/-- The counter is exact: `log` holds every reservation that was settled. -/
structure Exact (b : Budget U) (log : List (Reservation U)) : Prop where
  scope : b.scope ≠ [] ∧ b.scope.length ≤ 65535
  limit : b.limit ≤ maxExactInteger
  windowMs : 0 < b.windowMs ∧ b.windowMs ≤ maxExactInteger
  windowStart : b.windowStartMs ≤ maxExactInteger
  usedBound : b.used ≤ maxExactInteger
  settledLimit : 0 < b.settledReservationLimit ∧ b.settledReservationLimit ≤ 128
  activeCount : b.reservations.size ≤ 4096
  active : ∀ id r, b.reservations.get id = some r → ValidActive b.windowStartMs id r
  settled : ∀ id r, b.settledReservations.get id = some r →
    ValidSettled validUsage b.windowStartMs id r
  orderNodup : b.settledReservationOrder.Nodup
  orderLength : b.settledReservationOrder.length ≤ b.settledReservationLimit
  orderKeys : ∀ id, id ∈ b.settledReservationOrder ↔ (b.settledReservations.get id).isSome
  apart : ∀ id, (b.reservations.get id).isSome → b.settledReservations.get id = none
  used : b.used = b.activeInWindow + committedIn b.windowStartMs log
  activeLimit : b.activeInWindow ≤ b.limit
  madeIn : ∀ id r, b.reservations.get id = some r →
    (r.windowStartMs = b.windowStartMs → r.reservedAtMs < b.windowStartMs + b.windowMs) ∧
      (r.windowStartMs ≠ b.windowStartMs → r.reservedAtMs < b.windowStartMs)
  blank : ∀ id r, b.reservations.get id = some r → r.usage = none ∧ r.overageAmount = 0
  logged : ∀ r ∈ log, r.windowStartMs ≤ b.windowStartMs

variable {validUsage b} {log : List (Reservation U)} {nowMs : Nat}

/-- The loop of the check adds up what the window holds. -/
theorem fitsReservable_of_le {reservable windowStartMs : Nat} :
    ∀ {entries : List (Bytes × Reservation U)} {total : Nat},
      total + (entries.map fun entry => heldIn windowStartMs entry.2).sum ≤ reservable →
      fitsReservable reservable windowStartMs entries total = true := by
  intro entries
  induction entries with
  | nil => exact fun _ => rfl
  | cons entry rest ih =>
    intro total h
    simp only [map_cons, sum_cons, heldIn] at h
    simp only [fitsReservable]
    split at h
    · rename_i hcurrent
      rw [if_pos hcurrent, if_pos (by omega)]
      exact ih (by simp only [heldIn]; omega)
    · rename_i hother
      rw [if_neg hother]
      exact ih (by simp only [heldIn]; omega)

/-- The remembered reservations are as many as the list of their ids. -/
theorem Exact.length_order (h : b.Exact validUsage log) :
    b.settledReservationOrder.length = b.settledReservations.size := by
  have hperm : b.settledReservationOrder.Perm (b.settledReservations.entries.map Prod.fst) := by
    refine (perm_ext_iff_of_nodup h.orderNodup ?_).mpr fun id => ?_
    · exact Entries.Sorted.keys_nodup b.settledReservations.sorted
    · rw [h.orderKeys id, isSome_iff_exists]
      constructor
      · rintro ⟨r, hr⟩
        exact mem_map.mpr ⟨_, get_eq_some_iff.mp hr, rfl⟩
      · intro hmem
        obtain ⟨entry, hentry, rfl⟩ := mem_map.mp hmem
        exact ⟨entry.2, get_eq_some_iff.mpr hentry⟩
  rw [hperm.length_eq, length_map]
  rfl

/-- An exact budget passes the check. -/
theorem Exact.valid (h : b.Exact validUsage log) : b.Valid validUsage := by
  have hlength := h.length_order
  refine ⟨h.scope, h.limit, h.windowMs, h.windowStart, h.usedBound, h.settledLimit, h.activeCount,
    hlength ▸ h.orderLength, ⟨h.orderNodup, h.orderLength, fun id hid => ?_, hlength,
      fun id hid => (h.orderKeys id).mp hid⟩, h.active, ?_, h.settled⟩
  · obtain ⟨r, hr⟩ := isSome_iff_exists.mp ((h.orderKeys id).mp hid)
    exact (h.settled id r hr).validId.1
  · refine fitsReservable_of_le ?_
    have hactive : b.activeInWindow ≤ min b.used b.limit :=
      le_min (h.used ▸ Nat.le_add_right _ _) h.activeLimit
    simpa [activeInWindow, total] using hactive

/-! ## Windows -/

variable {r : Reservation U}

section

variable (hstart : b.windowStartMs ≤ nowMs)
include hstart

/-- A window rolls over to one in which nothing is used. -/
theorem Exact.maybeReset (h : b.Exact validUsage log)
    (hnow : nowMs ≤ maxExactInteger) : (b.maybeReset nowMs).Exact validUsage log := by
  unfold Budget.maybeReset
  split
  · have hpos := h.windowMs.1
    have hlt : b.windowStartMs < nowMs := by omega
    have hkeep : b.reservations.filter (fun _ r => decide (r.status = .reserved)) =
        b.reservations :=
      filter_eq_self fun id r hr => decide_eq_true (h.active id r hr).status
    rw [hkeep]
    have hearlier : ∀ id r, b.reservations.get id = some r → r.windowStartMs < nowMs :=
      fun id r hr => lt_of_le_of_lt (h.active id r hr).window.2.2 hlt
    have hheld : b.reservations.total (fun _ r => heldIn nowMs r) = 0 :=
      total_eq_zero _ fun id r hr => if_neg (hearlier id r hr).ne
    have hcommitted : committedIn nowMs log = 0 := by
      refine sum_eq_zero fun n hn => ?_
      obtain ⟨r, hr, rfl⟩ := mem_map.mp hn
      exact if_neg fun hcurrent => ((h.logged r hr).trans_lt hlt).ne hcurrent.1
    refine ⟨h.scope, h.limit, h.windowMs, hnow, Nat.zero_le _, h.settledLimit, h.activeCount, ?_,
      nofun, nodup_nil, Nat.zero_le _, by simp, fun _ _ => rfl, ?_, ?_,
      ?_, h.blank, fun r hr => (h.logged r hr).trans hstart⟩
    · intro id r hr
      have hactive := h.active id r hr
      obtain ⟨hmade, hwindow, hle⟩ := hactive.window
      exact { hactive with window := ⟨hmade, hwindow, hle.trans hstart⟩ }
    · show 0 = b.reservations.total (fun _ r => heldIn nowMs r) + committedIn nowMs log
      rw [hheld, hcommitted]
    · show b.reservations.total (fun _ r => heldIn nowMs r) ≤ b.limit
      rw [hheld]
      exact Nat.zero_le _
    · intro id r hr
      refine ⟨fun hcurrent => absurd hcurrent (hearlier id r hr).ne, fun _ => ?_⟩
      show r.reservedAtMs < nowMs
      obtain ⟨hsame, hother⟩ := h.madeIn id r hr
      by_cases hcurrent : r.windowStartMs = b.windowStartMs
      · omega
      · exact (hother hcurrent).trans hlt
  · exact h

theorem le_windowStart_maybeReset : (b.maybeReset nowMs).windowStartMs ≤ nowMs := by
  unfold Budget.maybeReset
  split
  · exact le_rfl
  · exact hstart

theorem lt_windowEnd_maybeReset (hpos : 0 < b.windowMs) :
    nowMs < (b.maybeReset nowMs).windowStartMs + (b.maybeReset nowMs).windowMs := by
  unfold Budget.maybeReset
  split
  · show nowMs < nowMs + b.windowMs
    omega
  · omega

end

/-! ## Reserving -/

variable {amount : Nat} {id : Bytes}

/-- A new reservation is counted. -/
theorem Exact.create (h : b.Exact validUsage log)
    (hid : ValidReservationId id) (hamount : 0 < amount ∧ amount ≤ maxExactInteger)
    (hnow : nowMs ≤ maxExactInteger) (hstart : b.windowStartMs ≤ nowMs)
    (hend : nowMs < b.windowStartMs + b.windowMs) (hnew : b.reservations.get id = none)
    (hunsettled : b.settledReservations.get id = none) (hroom : b.reservations.size < 4096)
    (hfits : b.used + amount ≤ b.limit) :
    ({ b with
      used := b.used + amount
      reservations := b.reservations.put id
        ⟨id, amount, none, .reserved, none, nowMs, none, b.windowStartMs, 0⟩ } : Budget U).Exact
      validUsage log := by
  have htotal : (b.reservations.put id
      (⟨id, amount, none, .reserved, none, nowMs, none, b.windowStartMs, 0⟩ :
        Reservation U)).total (fun _ r => heldIn b.windowStartMs r) = amount + b.activeInWindow := by
    rw [total_put, erase_of_get_eq_none hnew]
    simp [heldIn, activeInWindow]
  have hused := h.used
  refine { h with
    usedBound := hfits.trans h.limit
    activeCount := ?_
    active := ?_
    apart := ?_
    used := ?_
    activeLimit := ?_
    madeIn := ?_
    blank := ?_ }
  · show (b.reservations.put id _).size ≤ 4096
    rw [size_put]
    split <;> omega
  · exact forall_put
      ⟨hid, rfl, rfl, hamount, rfl, hnow, rfl, h.windowStart, hstart, le_rfl⟩ h.active
  · intro other hsome
    simp only [get_put] at hsome
    split at hsome
    · rename_i heq
      rw [heq]
      exact hunsettled
    · exact h.apart other hsome
  · show b.used + amount = _ + committedIn b.windowStartMs log
    rw [activeInWindow, htotal]
    omega
  · rw [activeInWindow, htotal]
    show amount + b.activeInWindow ≤ b.limit
    omega
  · exact forall_put ⟨fun _ => hend, fun hne => absurd rfl hne⟩ h.madeIn
  · exact forall_put ⟨rfl, rfl⟩ h.blank

/-! ## Settling -/

/-- A reservation that was settled is as it was reserved, but for its outcome. -/
structure SettledFrom (r settled : Reservation U) : Prop where
  id : settled.id = r.id
  amount : settled.amount = r.amount
  reservedAt : settled.reservedAtMs = r.reservedAtMs
  window : settled.windowStartMs = r.windowStartMs
  status : settled.status ≠ .reserved

/-- What is settled by a reply: a reservation that was active before. -/
def settledBy (before : Budget U) : Except BudgetError (Reservation U) → List (Reservation U)
  | .ok r =>
    if r.status ≠ .reserved ∧ (before.reservations.get r.id).isSome then [r] else []
  | .error _ => []

section Settling

variable (h : b.Exact validUsage log)
include h

/-- Settling moves a reservation from the active to the remembered ones. The counter is exact again
when it lost what the reservation held and took up what it cost. -/
theorem Exact.settle {before : Budget U}
    (hbefore : b.reservations = before.reservations) {r settled : Reservation U} {used : Nat}
    (hget : b.reservations.get id = some r) (hfrom : SettledFrom r settled)
    (hvalid : ValidSettled validUsage b.windowStartMs id settled)
    (hused : used + heldIn b.windowStartMs r = b.used + costIn b.windowStartMs settled)
    (hbound : used ≤ maxExactInteger) :
    ({ b.settleReservation id settled with used := used } : Budget U).Exact validUsage
      (settledBy before (.ok settled) ++ log) := by
  have hlog : settledBy before (.ok settled) = [settled] :=
    if_pos ⟨hvalid.status, by rw [← hbefore, hvalid.id, hget]; rfl⟩
  rw [hlog]
  have hsplit : b.activeInWindow = heldIn b.windowStartMs r +
      (b.reservations.erase id).total (fun _ r => heldIn b.windowStartMs r) :=
    SortedMap.total_erase _ hget
  have hcost : committedIn b.windowStartMs (settled :: log) =
      costIn b.windowStartMs settled + committedIn b.windowStartMs log := rfl
  have hactive := h.active id r hget
  have hexact := h.used
  have hkept : ∀ {other : Bytes} {kept : Reservation U},
      (b.reservations.erase id).get other = some kept →
      other ≠ id ∧ b.reservations.get other = some kept := by
    intro other kept hkept
    rw [SortedMap.get_erase] at hkept
    split at hkept
    · exact nomatch hkept
    · exact ⟨‹_›, hkept⟩
  refine ⟨h.scope, h.limit, h.windowMs, h.windowStart, hbound, h.settledLimit, ?_, ?_, ?_, ?_, ?_,
    ?_, ?_, ?_, ?_, ?_, ?_, ?_⟩
  · show (b.reservations.erase id).size ≤ 4096
    have := SortedMap.size_erase hget
    have := h.activeCount
    omega
  · exact fun other kept hother => h.active other kept (hkept hother).2
  · intro other kept hother
    simp only [settleReservation, SortedMap.get_filter] at hother
    exact SortedMap.forall_put hvalid h.settled other kept (filter_eq_some_iff.mp hother).1
  · have hnotin : id ∉ b.settledReservationOrder.erase id := fun hmem =>
      absurd hmem (h.orderNodup.not_mem_erase)
    exact (nodup_cons.mpr ⟨hnotin, h.orderNodup.erase id⟩).sublist (take_sublist _ _)
  · exact length_take_le _ _
  · intro other
    simp only [settleReservation, SortedMap.get_filter, SortedMap.get_put]
    constructor
    · intro hmem
      obtain rfl | hold := mem_cons.mp (mem_of_mem_take hmem)
      · simp [hmem]
      · obtain ⟨kept, hkept⟩ := isSome_iff_exists.mp
          ((h.orderKeys other).mp (mem_of_mem_erase hold))
        split
        · simp [hmem]
        · simp [hkept, hmem]
    · intro hsome
      obtain ⟨kept, hkept⟩ := isSome_iff_exists.mp hsome
      have := (filter_eq_some_iff.mp hkept).2
      simpa using this
  · intro other hsome
    obtain ⟨kept, hkeptGet⟩ := isSome_iff_exists.mp hsome
    obtain ⟨hne, hold⟩ := hkept hkeptGet
    simp only [settleReservation, SortedMap.get_filter, SortedMap.get_put, if_neg hne,
      h.apart other (by rw [hold]; rfl)]
    rfl
  · show used = (b.reservations.erase id).total (fun _ r => heldIn b.windowStartMs r) +
      committedIn b.windowStartMs (settled :: log)
    omega
  · show (b.reservations.erase id).total (fun _ r => heldIn b.windowStartMs r) ≤ b.limit
    have := h.activeLimit
    omega
  · exact fun other kept hother => h.madeIn other kept (hkept hother).2
  · exact fun other kept hother => h.blank other kept (hkept hother).2
  · refine forall_mem_cons.mpr ⟨?_, h.logged⟩
    rw [hfrom.window]
    exact hactive.window.2.2

/-- A reservation that is active holds its amount within the counter. -/
theorem Exact.heldIn_le
    (hget : b.reservations.get id = some r) : heldIn b.windowStartMs r ≤ b.used :=
  calc heldIn b.windowStartMs r
      ≤ b.activeInWindow := le_total (fun _ r => heldIn b.windowStartMs r) hget
    _ ≤ b.used := h.used ▸ Nat.le_add_right _ _

/-- The counter of a commit takes up the difference, without a clamp. -/
theorem Exact.committedUsed
    {actualAmount used overageAmount : Nat} (hget : b.reservations.get id = some r)
    (hactual : actualAmount ≤ maxExactInteger)
    (hcommit : b.committedUsed r actualAmount = some (used, overageAmount)) :
    used + heldIn b.windowStartMs r =
        b.used + (if r.windowStartMs = b.windowStartMs then actualAmount else 0) ∧
      used ≤ maxExactInteger ∧ overageAmount ≤ maxExactInteger := by
  have hheld := h.heldIn_le hget
  have hbound := h.usedBound
  unfold Budget.committedUsed at hcommit
  unfold heldIn at hheld ⊢
  split at hcommit
  · rename_i hcurrent
    rw [if_pos hcurrent] at hheld ⊢
    rw [if_pos hcurrent]
    dsimp only at hcommit
    split at hcommit
    · rename_i hrange
      obtain ⟨rfl, rfl⟩ := Prod.mk.inj (some.inj hcommit)
      exact ⟨by omega, hrange, (Nat.sub_le _ _).trans hrange⟩
    · exact nomatch hcommit
  · rename_i hother
    cases hcommit
    rw [if_neg hother, if_neg hother]
    exact ⟨rfl, hbound, (Nat.sub_le _ _).trans hactual⟩

theorem Exact.reservations_maybeReset (nowMs : Nat) :
    (b.maybeReset nowMs).reservations = b.reservations := by
  unfold Budget.maybeReset
  split
  · exact filter_eq_self fun id r hr => decide_eq_true (h.active id r hr).status
  · rfl

/-- A remembered reservation settles nothing. -/
theorem Exact.settledResult {before : Budget U}
    (hbefore : before.reservations = b.reservations) (actualAmount : Option Nat)
    (hget : b.reservations.get id = none) :
    (b.settledResult id actualAmount).2 = b ∧
      settledBy before (b.settledResult id actualAmount).1 = [] := by
  unfold Budget.settledResult
  split
  · exact ⟨rfl, rfl⟩
  · rename_i r hr
    have hnone : before.reservations.get r.id = none := by
      rw [hbefore, (h.settled id r hr).id, hget]
    split
    · split
      · exact ⟨rfl, by simp [settledBy, hnone]⟩
      · exact ⟨rfl, rfl⟩
    · split
      · exact ⟨rfl, by simp [settledBy, hnone]⟩
      · exact ⟨rfl, rfl⟩

/-- Reserving keeps the counter exact. -/
theorem Exact.reserve
    (hid : ValidReservationId id) (hamount : 0 < amount ∧ amount ≤ maxExactInteger)
    (hnow : nowMs ≤ maxExactInteger) :
    (b.reserve amount id nowMs).2.Exact validUsage
      (settledBy b (b.reserve amount id nowMs).1 ++ log) := by
  unfold Budget.reserve
  split
  · exact h
  · rename_i hstart
    have hstart := not_lt.mp hstart
    have hreset := h.maybeReset hstart hnow
    dsimp only
    split
    · rename_i r hr
      split
      · have hstatus := (hreset.active id r hr).status
        simpa [settledBy, hstatus] using hreset
      · exact hreset
    · rename_i hnew
      split
      · exact hreset
      · rename_i hunsettled
        unfold createReservation
        split
        · exact hreset
        · split
          · exact hreset.create hid hamount hnow (le_windowStart_maybeReset hstart)
              (lt_windowEnd_maybeReset hstart h.windowMs.1) hnew
              (not_isSome_iff_eq_none.mp hunsettled) (by omega) ‹_›
          · exact hreset

variable {actualAmount : Nat} {usage : Option U}

/-- Committing keeps the counter exact. -/
theorem Exact.commit (hactual : actualAmount ≤ maxExactInteger) (hnow : nowMs ≤ maxExactInteger) :
    (b.commit validUsage id actualAmount usage nowMs).2.Exact validUsage
      (settledBy b (b.commit validUsage id actualAmount usage nowMs).1 ++ log) := by
  unfold Budget.commit
  split
  · exact h
  · rename_i hstart
    have hstart := not_lt.mp hstart
    have hreset := h.maybeReset hstart hnow
    have hsame := h.reservations_maybeReset nowMs
    dsimp only
    split
    · rename_i hnone
      obtain ⟨hkept, hlog⟩ := hreset.settledResult hsame.symm (some actualAmount) hnone
      rw [hkept, hlog]
      exact hreset
    · rename_i r hr
      have hactive := hreset.active id r hr
      split
      · split
        · exact hreset
        · split
          · rename_i htime husage
            split
            · exact hreset
            · rename_i used overageAmount hcommit
              obtain ⟨hused, hbound, hoverage⟩ := hreset.committedUsed hr hactual hcommit
              refine hreset.settle hsame hr ⟨rfl, rfl, rfl, rfl, by simp⟩ ?_ ?_ hbound
              · exact ⟨hactive.validId, hactive.id, by simp, hactive.amount,
                  ⟨actualAmount, rfl, hactual⟩, hoverage, husage,
                  nofun, hactive.reservedAt,
                  ⟨nowMs, rfl, hnow, not_lt.mp htime⟩, hactive.window⟩
              · rw [hused]
                simp [costIn]
          · exact hreset
      · rename_i hstatus
        exact absurd hactive.status hstatus

/-- Releasing keeps the counter exact. -/
theorem Exact.release (hnow : nowMs ≤ maxExactInteger) :
    (b.release id nowMs).2.Exact validUsage (settledBy b (b.release id nowMs).1 ++ log) := by
  unfold Budget.release
  split
  · exact h
  · rename_i hstart
    have hstart := not_lt.mp hstart
    have hreset := h.maybeReset hstart hnow
    have hsame := h.reservations_maybeReset nowMs
    dsimp only
    split
    · rename_i hnone
      obtain ⟨hkept, hlog⟩ := hreset.settledResult hsame.symm none hnone
      rw [hkept, hlog]
      exact hreset
    · rename_i r hr
      have hactive := hreset.active id r hr
      split
      · split
        · exact hreset
        · rename_i htime
          obtain ⟨husage, hoverage⟩ := hreset.blank id r hr
          have hheld := hreset.heldIn_le hr
          have hbound := hreset.usedBound
          refine hreset.settle hsame hr ⟨rfl, rfl, rfl, rfl, by simp⟩ ?_ ?_ ?_
          · exact ⟨hactive.validId, hactive.id, by simp, hactive.amount,
              ⟨0, rfl, Nat.zero_le _⟩, by simp [hoverage], by simp [husage],
              fun _ => ⟨rfl, husage, hoverage⟩, hactive.reservedAt,
              ⟨nowMs, rfl, hnow, not_lt.mp htime⟩, hactive.window⟩
          · unfold heldIn at hheld ⊢
            simp only [costIn]
            split <;> simp_all
          · split
            · exact (Nat.sub_le _ _).trans hbound
            · exact hbound
      · exact absurd hactive.status (by simp_all)
      · rename_i hstatus _
        exact absurd hactive.status hstatus

/-! ## Repeated calls and earlier windows -/

theorem Exact.get_of_settled
    (hget : b.settledReservations.get id = some r) : b.reservations.get id = none := by
  by_contra hsome
  have := h.apart id (isSome_iff_ne_none.mpr hsome)
  rw [hget] at this
  exact nomatch this

/-- An active reservation of an earlier window can be committed and released at every time that the
budget admits, and the counter stays. -/
theorem Exact.settle_earlier (hstart : b.windowStartMs ≤ nowMs)
    (hnow : nowMs ≤ maxExactInteger) (hget : b.reservations.get id = some r)
    (hearlier : r.windowStartMs ≠ (b.maybeReset nowMs).windowStartMs)
    (husage : usage.all validUsage = true) :
    (∃ settled b', b.commit validUsage id actualAmount usage nowMs = (.ok settled, b') ∧
        b'.used = (b.maybeReset nowMs).used ∧ b'.reservations.get id = none) ∧
      ∃ settled b', b.release id nowMs = (.ok settled, b') ∧
        b'.used = (b.maybeReset nowMs).used ∧ b'.reservations.get id = none := by
  have hreset := h.maybeReset hstart hnow
  have hr : (b.maybeReset nowMs).reservations.get id = some r := by
    rw [h.reservations_maybeReset nowMs]
    exact hget
  have hstatus := (hreset.active id r hr).status
  have htime : ¬ nowMs < r.reservedAtMs := by
    have := (hreset.madeIn id r hr).2 hearlier
    have := le_windowStart_maybeReset hstart
    omega
  have hcommit : ∃ settled, b.commit validUsage id actualAmount usage nowMs = (.ok settled,
      { (b.maybeReset nowMs).settleReservation id settled with
        used := (b.maybeReset nowMs).used }) := by
    simp only [Budget.commit, if_neg (not_lt.mpr hstart), hr, hstatus, if_neg htime,
      if_pos husage, Budget.committedUsed, if_neg hearlier]
    exact ⟨_, rfl⟩
  have hrelease : ∃ settled, b.release id nowMs = (.ok settled,
      { (b.maybeReset nowMs).settleReservation id settled with
        used := (b.maybeReset nowMs).used }) := by
    simp only [Budget.release, if_neg (not_lt.mpr hstart), hr, hstatus, if_neg htime,
      if_neg hearlier]
    exact ⟨_, rfl⟩
  obtain ⟨committed, hcommit⟩ := hcommit
  obtain ⟨released, hrelease⟩ := hrelease
  exact ⟨⟨committed, _, hcommit, rfl, by simp [settleReservation]⟩,
    ⟨released, _, hrelease, rfl, by simp [settleReservation]⟩⟩

/-- Within the window nothing rolls over. -/
theorem Exact.maybeReset_of_lt (hnow : nowMs < b.windowStartMs + b.windowMs) :
    b.maybeReset nowMs = b := by
  have hpos := h.windowMs.1
  exact if_neg (by omega)

section Again

variable (hget : b.settledReservations.get id = some r) (hstart : b.windowStartMs ≤ nowMs)
include hget hstart

/-- Settling a remembered reservation again within the window returns it. -/
theorem Exact.settle_again (hnow : nowMs < b.windowStartMs + b.windowMs) :
    (r.status = .committed → ∀ actualAmount usage, r.actualAmount = some actualAmount →
        b.commit validUsage id actualAmount usage nowMs = (.ok r, b)) ∧
      (r.status = .released → b.release id nowMs = (.ok r, b)) := by
  have hnone := h.get_of_settled hget
  have hsame := h.maybeReset_of_lt hnow
  refine ⟨fun hstatus actualAmount usage hactual => ?_, fun hstatus => ?_⟩
  · simp [Budget.commit, not_lt.mpr hstart, hsame, hnone, Budget.settledResult, hget, hstatus,
      hactual]
  · simp [Budget.release, not_lt.mpr hstart, hsame, hnone, Budget.settledResult, hget, hstatus]

/-- After the end of the window the reservation is forgotten: the roll keeps the active ones only. -/
theorem Exact.settle_forgotten (hnow : b.windowStartMs + b.windowMs ≤ nowMs) :
    (∀ actualAmount usage, b.commit validUsage id actualAmount usage nowMs =
        (b.maybeReset nowMs).error "ERR flow budget reservation not found") ∧
      b.release id nowMs = (b.maybeReset nowMs).error "ERR flow budget reservation not found" := by
  have hactive : (b.maybeReset nowMs).reservations.get id = none := by
    rw [h.reservations_maybeReset nowMs]
    exact h.get_of_settled hget
  have hsettled : (b.maybeReset nowMs).settledReservations.get id = none := by
    rw [Budget.maybeReset, if_pos (by omega)]
    rfl
  simp [Budget.commit, Budget.release, not_lt.mpr hstart, hactive, Budget.settledResult, hsettled]

end Again

end Settling

/-- A reserve that makes a reservation leaves the counter within the limit. -/
theorem used_le_limit_of_create {b' : Budget U} (hreply : b.reserve amount id nowMs = (.ok r, b'))
    (hnew : (b.maybeReset nowMs).reservations.get id = none) : b'.used ≤ b'.limit := by
  unfold Budget.reserve at hreply
  split at hreply
  · exact nomatch (Prod.mk.inj hreply).1
  · simp only [hnew] at hreply
    split at hreply
    · exact nomatch (Prod.mk.inj hreply).1
    · unfold createReservation at hreply
      split at hreply
      · exact nomatch (Prod.mk.inj hreply).1
      · split at hreply
        · cases hreply
          assumption
        · exact nomatch (Prod.mk.inj hreply).1

end Budget

/-! ## The store and its runs -/

/-- A call of the budget store on one scope. -/
inductive BudgetCall (U : Type) where
  | reserve (amount : Nat) (id : Bytes)
  | commit (id : Bytes) (actualAmount : Nat) (usage : Option U)
  | release (id : Bytes)

section Store

variable {U : Type}

/-- `validate_reservation_id`, also that of `optional_reservation_id` -/
def validateReservationId (id : Bytes) : Option String :=
  if id = [] then some "ERR flow budget reservation_id must be a non-empty string"
  else if 256 < id.length then some "ERR flow budget reservation_id must be at most 256 bytes"
  else none

/-- The checks that the store makes before it reads the budget: the message of the first that
fails. -/
def BudgetCall.validate (nowMs : Nat) : BudgetCall U → Option String
  | .reserve amount id =>
    if amount = 0 ∨ maxExactInteger < amount then
      some "ERR flow budget amount must be a positive integer"
    else if maxExactInteger < nowMs then
      some "ERR flow budget now_ms must be a non-negative integer"
    else validateReservationId id
  | .commit id actualAmount _ =>
    if maxExactInteger < actualAmount then
      some "ERR flow budget actual_amount must be a non-negative integer"
    else (validateReservationId id).or
      (if maxExactInteger < nowMs then
        some "ERR flow budget now_ms must be a non-negative integer" else none)
  | .release id =>
    (validateReservationId id).or
      (if maxExactInteger < nowMs then
        some "ERR flow budget now_ms must be a non-negative integer" else none)

/-- A call on the stored budget: the reply and the budget that is stored after it. -/
def BudgetCall.apply (validUsage : U → Bool) (b : Budget U) (nowMs : Nat) (call : BudgetCall U) :
    BudgetReply U :=
  match call.validate nowMs with
  | some text => b.error text
  | none =>
    match call with
    | .reserve amount id => b.reserve amount id nowMs
    | .commit id actualAmount usage => b.commit validUsage id actualAmount usage nowMs
    | .release id => b.release id nowMs

theorem validateReservationId_eq_none {id : Bytes} (h : validateReservationId id = none) :
    Budget.ValidReservationId id := by
  unfold validateReservationId at h
  split at h
  · exact nomatch h
  · split at h
    · exact nomatch h
    · exact ⟨‹_›, not_lt.mp ‹_›⟩

/-- The budgets that runs of calls on a new budget reach, with all reservations settled on the way. -/
inductive BudgetRun (validUsage : U → Bool) (start : Budget U) :
    Budget U → List (Reservation U) → Prop where
  | start : BudgetRun validUsage start start []
  | call {b : Budget U} {log : List (Reservation U)} (run : BudgetRun validUsage start b log)
      (call : BudgetCall U) (nowMs : Nat) :
      BudgetRun validUsage start (call.apply validUsage b nowMs).2
        (b.settledBy (call.apply validUsage b nowMs).1 ++ log)

/-- What a new budget is made with. -/
structure BudgetConfig where
  scope : Bytes
  limit : Nat
  windowMs : Nat
  nowMs : Nat
  scope_valid : scope ≠ [] ∧ scope.length ≤ 65535
  limit_le : limit ≤ maxExactInteger
  windowMs_valid : 0 < windowMs ∧ windowMs ≤ maxExactInteger
  nowMs_le : nowMs ≤ maxExactInteger

/-- `new_budget` -/
def BudgetConfig.budget (config : BudgetConfig) : Budget U :=
  .fixedWindow config.scope config.limit config.windowMs config.nowMs

theorem BudgetConfig.exact (validUsage : U → Bool) (config : BudgetConfig) :
    (config.budget : Budget U).Exact validUsage [] :=
  ⟨config.scope_valid, config.limit_le, config.windowMs_valid, config.nowMs_le, Nat.zero_le _,
    ⟨Nat.zero_lt_succ 127, le_refl 128⟩, Nat.zero_le _, nofun,
    nofun, nodup_nil, Nat.zero_le _, by simp [BudgetConfig.budget, Budget.fixedWindow],
    fun _ _ => rfl, rfl, Nat.zero_le _, nofun,
    nofun, nofun⟩

section

variable {validUsage : U → Bool} {b : Budget U} {log : List (Reservation U)}

/-- A call keeps the counter exact. -/
theorem BudgetCall.exact (h : b.Exact validUsage log) (call : BudgetCall U) (nowMs : Nat) :
    (call.apply validUsage b nowMs).2.Exact validUsage
      (b.settledBy (call.apply validUsage b nowMs).1 ++ log) := by
  unfold BudgetCall.apply
  cases hvalidate : call.validate nowMs with
  | some text => exact h
  | none =>
    cases call with
    | reserve amount id =>
      simp only [BudgetCall.validate] at hvalidate
      split at hvalidate
      · exact nomatch hvalidate
      · split at hvalidate
        · exact nomatch hvalidate
        · exact h.reserve (validateReservationId_eq_none hvalidate) (by omega) (by omega)
    | commit id actualAmount usage =>
      simp only [BudgetCall.validate] at hvalidate
      split at hvalidate
      · cases hvalidate
      · obtain ⟨-, htime⟩ := or_eq_none_iff.mp hvalidate
        split at htime
        · exact nomatch htime
        · exact h.commit (by omega) (by omega)
    | release id =>
      obtain ⟨-, htime⟩ := or_eq_none_iff.mp hvalidate
      split at htime
      · exact nomatch htime
      · exact h.release (by omega)

theorem BudgetRun.exact {config : BudgetConfig} (h : BudgetRun validUsage config.budget b log) :
    b.Exact validUsage log := by
  induction h with
  | start => exact config.exact validUsage
  | call _ call nowMs ih => exact call.exact ih nowMs

end

/-- Budgets account exactly, over every run of calls. The stored budget passes the check of a read,
its counter is the amount of the active reservations of the window and the cost of those committed
in it, and no id is active and remembered at once. A call before the window is refused, a new
reservation stays within the limit, a reservation of an earlier window can be settled and the counter
stays, and a repeated reserve returns the same reservation and does no more than roll the window over
where its time has come. A repeated commit or release of a remembered reservation returns it and
changes nothing within the window; after its end the roll has forgotten the reservation. -/
theorem budget_accounting_exact (validUsage : U → Bool) (config : BudgetConfig) {b : Budget U}
    {log : List (Reservation U)} (h : BudgetRun validUsage config.budget b log) :
    b.Valid validUsage ∧ b.used = b.activeInWindow + Budget.committedIn b.windowStartMs log ∧
      (∀ id, (b.reservations.get id).isSome → b.settledReservations.get id = none) ∧
      (∀ (call : BudgetCall U) nowMs, nowMs < b.windowStartMs →
        ∃ e, call.apply validUsage b nowMs = (.error e, b)) ∧
      (∀ amount id nowMs r b', b.reserve amount id nowMs = (.ok r, b') →
        b.reservations.get id = none → b'.used ≤ b'.limit) ∧
      (∀ id r nowMs actualAmount usage, b.reservations.get id = some r →
        b.windowStartMs ≤ nowMs → nowMs ≤ maxExactInteger →
        r.windowStartMs ≠ (b.maybeReset nowMs).windowStartMs → usage.all validUsage = true →
        (∃ settled b', b.commit validUsage id actualAmount usage nowMs = (.ok settled, b') ∧
            b'.used = (b.maybeReset nowMs).used ∧ b'.reservations.get id = none) ∧
          ∃ settled b', b.release id nowMs = (.ok settled, b') ∧
            b'.used = (b.maybeReset nowMs).used ∧ b'.reservations.get id = none) ∧
      (∀ id r nowMs, b.reservations.get id = some r → b.windowStartMs ≤ nowMs →
        b.reserve r.amount id nowMs = (.ok r, b.maybeReset nowMs)) ∧
      (∀ id r nowMs, b.settledReservations.get id = some r → b.windowStartMs ≤ nowMs →
        (nowMs < b.windowStartMs + b.windowMs →
          (r.status = .committed → ∀ actualAmount usage, r.actualAmount = some actualAmount →
            b.commit validUsage id actualAmount usage nowMs = (.ok r, b)) ∧
          (r.status = .released → b.release id nowMs = (.ok r, b))) ∧
        (b.windowStartMs + b.windowMs ≤ nowMs →
          (∀ actualAmount usage, b.commit validUsage id actualAmount usage nowMs =
            (b.maybeReset nowMs).error "ERR flow budget reservation not found") ∧
          b.release id nowMs =
            (b.maybeReset nowMs).error "ERR flow budget reservation not found")) ∧
      ∀ nowMs, nowMs < b.windowStartMs + b.windowMs → b.maybeReset nowMs = b := by
  have hexact := h.exact
  refine ⟨hexact.valid, hexact.used, hexact.apart, ?_, ?_, ?_, ?_, ?_,
    fun nowMs => hexact.maybeReset_of_lt⟩
  · intro call nowMs hbefore
    unfold BudgetCall.apply
    cases call.validate nowMs with
    | some text => exact ⟨_, rfl⟩
    | none =>
      cases call with
      | reserve | commit | release => exact ⟨_, if_pos hbefore⟩
  · intro amount id nowMs r b' hreply hnew
    refine Budget.used_le_limit_of_create hreply ?_
    rw [hexact.reservations_maybeReset nowMs]
    exact hnew
  · intro id r nowMs actualAmount usage hget hstart hnow hearlier husage
    exact hexact.settle_earlier hstart hnow hget hearlier husage
  · intro id r nowMs hget hstart
    have hsame := hexact.reservations_maybeReset nowMs
    simp [Budget.reserve, not_lt.mpr hstart, hsame, hget]
  · intro id r nowMs hget hstart
    exact ⟨hexact.settle_again hget hstart, hexact.settle_forgotten hget hstart⟩

/-- A budget of ten per window of ten milliseconds. -/
def tenPerWindow : BudgetConfig :=
  ⟨[115], 10, 10, 0, by decide, by decide, by decide, by decide⟩

/-- Five are reserved at the start of the window. -/
def reservedFive : Budget Nat :=
  ((BudgetCall.reserve 5 [97]).apply (fun _ => true) tenPerWindow.budget 0).2

/-- Three of them are committed a millisecond later. -/
def committedThree : Budget Nat :=
  ((BudgetCall.commit [97] 3 none).apply (fun _ => true) reservedFive 1).2

/-- The commit counts three, and a repeated one within the window changes nothing. -/
theorem budget_accounting_exact_committed :
    committedThree.used = 3 ∧ committedThree.Valid (fun _ => true) ∧
      ∃ r, r.status = .committed ∧
        committedThree.commit (fun _ => true) [97] 3 none 9 = (.ok r, committedThree) := by
  obtain ⟨hvalid, -, -, -, -, -, -, hsettled, -⟩ := budget_accounting_exact (fun _ => true)
    tenPerWindow (.call (.call .start (.reserve 5 [97]) 0) (.commit [97] 3 none) 1)
  have hget : committedThree.settledReservations.get [97] =
      some ⟨[97], 5, some 3, .committed, none, 0, some 1, 0, 0⟩ := by decide
  exact ⟨by decide, hvalid, _, rfl,
    ((hsettled [97] _ 9 hget (by decide)).1 (by decide)).1 rfl 3 none rfl⟩

/-- A repeated reserve after the end of the window returns the same reservation, but it starts a new
window in which nothing is used. A repeated commit after the end of the window is refused. -/
theorem repeated_reserve_rolls_window :
    (reservedFive.reserve 5 [97] 10).1 = (tenPerWindow.budget.reserve 5 [97] 0).1 ∧
      reservedFive.used = 5 ∧ (reservedFive.reserve 5 [97] 10).2.used = 0 ∧
      (committedThree.settledReservations.get [97]).isSome ∧
      (committedThree.commit (fun _ => true) [97] 3 none 10).1 =
        .error (.message "ERR flow budget reservation not found") := by
  decide

end Store

end FerricStore.Governance
