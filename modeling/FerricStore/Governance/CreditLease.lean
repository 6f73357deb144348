import FerricStore.Governance.Circuit
import FerricStore.Lib.MapTotal

/-!
# Credit leases

The owner of a limit hands out credits to shards as leases. A lease holds credits that are available
and credits that are in use; what no lease holds is free. Every transition ends in
`rebalance_capacity`, which drains available credits in shard order when a limit was lowered, so an
owner is always `Balanced`: its leases fit the limit, or none of them has an available credit.

`credit_transition_keeps_valid` says that every transition leads to an owner that can be stored, except
a spend from a lease on which more credits are marked for reclaim than the spend leaves available.
-/

namespace FerricStore.Governance

open Option SortedMap

/-- `%Lease{}` -/
structure Lease where
  shardId : Nat
  epoch : Nat
  expiresAtMs : Nat
  available : Nat
  inUse : Nat
  pendingReclaim : Nat
  drainRate : Rat
  lastSpendAtMs : Option Nat
  reservationPage : Nat
  reservationPageFill : Nat
  reservations : List Bytes
  deriving DecidableEq

/-- `%Owner{}` -/
structure Owner where
  scope : Bytes
  limit : Nat
  free : Nat
  policyVersion : Option Bytes
  configVersion : Nat
  epoch : Nat
  cleanupHead : Nat
  cleanupTail : Nat
  leases : SortedMap Nat Lease

inductive LimitError where
  | message (text : String)
  | exhausted (scope : Bytes) (requested free limit : Nat)
  deriving DecidableEq, Repr

namespace Lease

/-- The credits that a lease holds. -/
def allocated (lease : Lease) : Nat := lease.available + lease.inUse

/-- One lease of `rebalance_capacity`: drains what it can of the excess. -/
def drain (lease : Lease) (excess : Nat) : Lease × Nat :=
  let drained := min lease.available excess
  let available := lease.available - drained
  ({ lease with
    available := available
    pendingReclaim := min lease.pendingReclaim available }, excess - drained)

/-- One lease of `mark_reclaim` -/
def mark (lease : Lease) (remaining : Nat) : Lease × Nat :=
  let reclaim := min (lease.available - lease.pendingReclaim) remaining
  ({ lease with pendingReclaim := lease.pendingReclaim + reclaim }, remaining - reclaim)

end Lease

namespace Owner

/-! ## Transitions -/

/-- `CreditLease.owner` -/
def new (scope : Bytes) (limit configVersion : Nat) (policyVersion : Option Bytes) : Owner :=
  ⟨scope, limit, limit, policyVersion, configVersion, 0, 1, 0, .empty⟩

variable (leases : SortedMap Nat Lease)

/-- `allocated_credits` -/
def allocatedCredits : Nat :=
  leases.total fun _ lease => lease.allocated

/-- The credits in use over all leases. -/
def totalInUse : Nat := leases.total fun _ lease => lease.inUse

variable (o : Owner)

/-- `rebalance_capacity` -/
def rebalanceCapacity : Owner :=
  let allocated := allocatedCredits o.leases
  if allocated ≤ o.limit then { o with free := o.limit - allocated }
  else
    let leases := o.leases.mapAccum (fun _ lease excess => lease.drain excess) (allocated - o.limit)
    { o with leases := leases, free := o.limit - allocatedCredits leases }

/-- `policy_version_conflict?` -/
def policyVersionConflict : Option Bytes → Bool
  | none => false
  | some version => decide (o.policyVersion ≠ some version)

/-- `reconfigure` -/
def reconfigure (limit configVersion : Nat) (policyVersion : Option Bytes) : Except String Owner :=
  if configVersion < o.configVersion then .ok o
  else if configVersion = o.configVersion then
    if limit ≠ o.limit ∨ o.policyVersionConflict policyVersion = true then
      .error "ERR flow limit config_version conflict"
    else .ok o
  else
    .ok { o with
      limit := limit
      configVersion := configVersion
      policyVersion := policyVersion }.rebalanceCapacity

/-- `reclaim_expired` -/
def reclaimExpired (nowMs : Nat) : Owner :=
  { o with leases := o.leases.filter fun _ lease => decide (nowMs < lease.expiresAtMs) }.rebalanceCapacity

/-- `mark_reclaim` -/
def markReclaim (requester requested : Nat) : Owner :=
  { o with
    leases := o.leases.mapAccum (fun shardId lease remaining =>
      if remaining = 0 ∨ shardId = requester then (lease, remaining) else lease.mark remaining)
      requested }

/-- `exhausted` -/
def exhausted (requested : Nat) : LimitError :=
  .exhausted o.scope requested o.free o.limit

/-- `@max_exact_version` -/
def maxExactVersion : Nat := 9007199254740991

/-- A lease takes the granted credits; `none` is a lease of a new generation. -/
def grantedLease (shardId grant nowMs ttlMs : Nat) : Option Lease → Lease
  | some lease =>
    { lease with
      available := lease.available + grant
      expiresAtMs := max lease.expiresAtMs (nowMs + ttlMs)
      pendingReclaim := lease.pendingReclaim - grant }
  | none => ⟨shardId, o.epoch + 1, nowMs + ttlMs, grant, 0, 0, 0, none, 0, 0, []⟩

/-- `grant` -/
def grant (shardId requested nowMs ttlMs : Nat) : Except LimitError Lease × Owner :=
  let o := o.reclaimExpired nowMs
  let granted := min requested o.free
  if 0 < granted then
    if o.leases.get shardId = none ∧ maxExactVersion ≤ o.epoch then
      (.error (.message "ERR flow limit lease generation exhausted"), o)
    else
      let lease := o.grantedLease shardId granted nowMs ttlMs (o.leases.get shardId)
      (.ok lease, { o with
        free := o.free - granted
        epoch := max o.epoch lease.epoch
        leases := o.leases.put shardId lease })
  else
    let o := o.markReclaim shardId requested
    (.error (o.exhausted requested), o)

/-- `valid_reservation_ids?` -/
def validReservationIds (ids : List Bytes) (amount : Nat) : Bool :=
  ids.isEmpty || decide (ids.length = amount ∧ ids.Nodup ∧ ∀ id ∈ ids, id ≠ [])

/-- `spend` -/
def spend (shardId amount nowMs : Nat) (ttlMs : Option Nat) (ids : List Bytes) :
    Except LimitError Lease × Owner :=
  let o := o.reclaimExpired nowMs
  match o.leases.get shardId with
  | none => (.error (o.exhausted amount), o)
  | some lease =>
    if validReservationIds ids amount = false then
      (.error (.message "ERR flow limit reservation_ids must match amount"), o)
    else if ids ≠ [] ∧ ∀ id ∈ ids, id ∈ lease.reservations then (.ok lease, o)
    else if ids ≠ [] ∧ ∃ id ∈ ids, id ∈ lease.reservations then
      (.error (.message "ERR flow limit reservation_id conflict"), o)
    else if nowMs < lease.lastSpendAtMs.getD 0 then
      (.error (.message "ERR flow limit now_ms cannot precede last_spend_at_ms"), o)
    else if amount ≤ lease.available then
      let lease := { lease with
        available := lease.available - amount
        inUse := lease.inUse + amount
        lastSpendAtMs := some nowMs
        expiresAtMs := match ttlMs with
          | some ttlMs => max lease.expiresAtMs (nowMs + ttlMs)
          | none => lease.expiresAtMs
        reservations := ids ++ lease.reservations }
      (.ok lease, { o with leases := o.leases.put shardId lease })
    else (.error (o.exhausted amount), o)

/-- `renew` -/
def renew (shardId nowMs ttlMs : Nat) : Except LimitError Lease × Owner :=
  let o := o.reclaimExpired nowMs
  match o.leases.get shardId with
  | none => (.error (.message "ERR flow limit lease expired"), o)
  | some lease =>
    let lease := { lease with expiresAtMs := max lease.expiresAtMs (nowMs + ttlMs) }
    (.ok lease, { o with leases := o.leases.put shardId lease })

/-- `release_identified_amount` -/
def releaseIdentifiedAmount (shardId amount : Nat) : Owner :=
  match o.leases.get shardId with
  | none => o
  | some lease =>
    let released := min amount lease.inUse
    { o with leases := o.leases.put shardId { lease with
      inUse := lease.inUse - released
      available := lease.available + released } }.rebalanceCapacity

/-! ## The check of a stored owner -/

/-- `valid_page_fill?` -/
def ValidPageFill (page fill : Nat) : Prop :=
  page = 0 ∧ fill = 0 ∨ 0 < page ∧ 0 < fill ∧ fill ≤ 256

/-- `valid_lease_entry?`, of a lease whose reservations are detached -/
structure ValidLease (shardId : Nat) (lease : Lease) : Prop where
  shardId : lease.shardId = shardId
  epoch : 0 < lease.epoch ∧ lease.epoch ≤ maxExactVersion
  expiresAt : lease.expiresAtMs ≤ maxExactVersion
  available : lease.available ≤ maxExactVersion
  inUse : lease.inUse ≤ maxExactVersion
  pendingReclaim : lease.pendingReclaim ≤ lease.available
  drainRate : 0 ≤ lease.drainRate ∧ lease.drainRate ≤ maxExactVersion
  page : lease.reservationPage ≤ 256
  pageFill : ValidPageFill lease.reservationPage lease.reservationPageFill
  lastSpend : ∀ lastSpendAtMs ∈ lease.lastSpendAtMs, lastSpendAtMs ≤ maxExactVersion

/-- `bounded_allocated_credits` -/
def boundedAllocatedCredits : List (Nat × Lease) → Nat → Option Nat
  | [], total => some total
  | (_, lease) :: rest, total =>
    if total + lease.allocated ≤ maxExactVersion then
      boundedAllocatedCredits rest (total + lease.allocated)
    else none

/-- `valid_owner_capacity?` -/
def ValidOwnerCapacity : Prop :=
  ∃ allocated ∈ boundedAllocatedCredits o.leases.entries 0, o.free = o.limit - allocated

/-- `validate_owner`, but for the size of the record -/
structure Valid : Prop where
  scope : o.scope ≠ [] ∧ o.scope.length ≤ 65535
  limit : o.limit ≤ maxExactVersion
  free : o.free ≤ maxExactVersion
  epoch : o.epoch ≤ maxExactVersion
  configVersion : o.configVersion ≤ maxExactVersion
  policyVersion : ∀ digest ∈ o.policyVersion, digest.length = 32
  cleanupHead : 0 < o.cleanupHead ∧ o.cleanupHead ≤ maxExactVersion
  cleanupTail : o.cleanupTail ≤ maxExactVersion
  cleanupOrder : o.cleanupHead ≤ o.cleanupTail + 1
  leases : ∀ shardId lease, o.leases.get shardId = some lease → ValidLease shardId lease
  leaseEpochs : ∀ shardId lease, o.leases.get shardId = some lease → lease.epoch ≤ o.epoch
  capacity : o.ValidOwnerCapacity

/-- The bounded sum is the sum, when that is in range. -/
theorem boundedAllocatedCredits_eq {entries : List (Nat × Lease)} :
    ∀ {total allocated : Nat}, total ≤ maxExactVersion →
      (boundedAllocatedCredits entries total = some allocated ↔
        allocated = total + (entries.map fun entry => entry.2.allocated).sum ∧
          allocated ≤ maxExactVersion) := by
  induction entries with
  | nil =>
    intro total allocated htotal
    simp only [boundedAllocatedCredits, some.injEq, List.map_nil, List.sum_nil]
    omega
  | cons entry rest ih =>
    intro total allocated htotal
    simp only [boundedAllocatedCredits, List.map_cons, List.sum_cons]
    split
    · rename_i hfits
      rw [ih hfits]
      omega
    · constructor
      · exact nofun
      · omega

theorem validOwnerCapacity_iff {o : Owner} : o.ValidOwnerCapacity ↔
      allocatedCredits o.leases ≤ maxExactVersion ∧
        o.free = o.limit - allocatedCredits o.leases := by
  have hsum : ∀ allocated, boundedAllocatedCredits o.leases.entries 0 = some allocated ↔
      allocated = allocatedCredits o.leases ∧ allocated ≤ maxExactVersion := fun allocated => by
    rw [boundedAllocatedCredits_eq (Nat.zero_le _), Nat.zero_add]
    rfl
  constructor
  · rintro ⟨allocated, hmem, hfree⟩
    obtain ⟨rfl, hle⟩ := (hsum allocated).mp hmem
    exact ⟨hle, hfree⟩
  · rintro ⟨hle, hfree⟩
    exact ⟨_, (hsum _).mpr ⟨rfl, hle⟩, hfree⟩

/-! ## Balance -/

/-- The leases fit the limit, or none of them has an available credit. -/
def Fits (limit : Nat) (leases : SortedMap Nat Lease) : Prop :=
  allocatedCredits leases ≤ limit ∨ ∀ shardId lease, leases.get shardId = some lease →
    lease.available = 0

/-- What is free is what the limit leaves, and the leases fit. -/
structure Balanced : Prop where
  free : o.free = o.limit - allocatedCredits o.leases
  fits : Fits o.limit o.leases

variable {o} {nowMs ttlMs shardId amount : Nat}

/-- The available credits over all leases. -/
def totalAvailable : Nat :=
  leases.total fun _ lease => lease.available

theorem allocatedCredits_eq :
    allocatedCredits leases = totalAvailable leases + totalInUse leases := by
  obtain ⟨entries, sorted⟩ := leases
  show (entries.map _).sum = (entries.map _).sum + (entries.map _).sum
  clear sorted
  induction entries with
  | nil => rfl
  | cons entry rest ih =>
    simp only [List.map_cons, List.sum_cons, Lease.allocated] at ih ⊢
    omega

/-- Draining takes as much of the excess as is available. -/
theorem totalAvailable_drain (excess : Nat) :
    totalAvailable (leases.mapAccum (fun _ lease excess => lease.drain excess) excess) =
      totalAvailable leases - excess := by
  show ((Entries.mapAccum _ leases.entries excess).map fun entry => entry.2.available).sum =
    (leases.entries.map fun entry => entry.2.available).sum - excess
  induction leases.entries generalizing excess with
  | nil => simp [Entries.mapAccum]
  | cons entry rest ih =>
    simp only [Entries.mapAccum, List.map_cons, List.sum_cons]
    rw [ih]
    simp only [Lease.drain]
    omega

theorem totalInUse_drain (excess : Nat) :
    totalInUse (leases.mapAccum (fun _ lease excess => lease.drain excess) excess) =
      totalInUse leases :=
  total_mapAccum (fun _ _ _ => rfl) leases excess

/-- Rebalancing balances. -/
theorem balanced_rebalanceCapacity (o : Owner) : o.rebalanceCapacity.Balanced := by
  unfold rebalanceCapacity
  dsimp only
  split
  · rename_i hfits
    exact ⟨rfl, .inl hfits⟩
  · refine ⟨rfl, ?_⟩
    set excess := allocatedCredits o.leases - o.limit
    have havailable := totalAvailable_drain o.leases excess
    have hinUse := totalInUse_drain o.leases excess
    have hbefore := allocatedCredits_eq o.leases
    by_cases hcovered : excess ≤ totalAvailable o.leases
    · left
      show allocatedCredits (o.leases.mapAccum _ excess) ≤ o.limit
      rw [allocatedCredits_eq, havailable, hinUse]
      omega
    · right
      intro shardId lease hget
      have hle : lease.available ≤ totalAvailable
          (o.leases.mapAccum (fun _ lease excess => lease.drain excess) excess) :=
        le_total (fun _ (lease : Lease) => lease.available) hget
      omega

/-- What rebalancing leaves of a lease. -/
structure Drained (lease drained : Lease) : Prop where
  available : drained.available ≤ lease.available
  pending : drained.pendingReclaim ≤ max lease.pendingReclaim 0 ∧
    (lease.pendingReclaim ≤ lease.available → drained.pendingReclaim ≤ drained.available)
  rest : drained = { lease with
    available := drained.available
    pendingReclaim := drained.pendingReclaim }

theorem Drained.refl (lease : Lease) : Drained lease lease :=
  ⟨le_rfl, ⟨le_max_left _ _, fun h => h⟩, rfl⟩

theorem drained_drain (lease : Lease) (excess : Nat) : Drained lease (lease.drain excess).1 := by
  refine ⟨Nat.sub_le _ _, ⟨?_, fun _ => min_le_right _ _⟩, rfl⟩
  exact (min_le_left _ _).trans (le_max_left _ _)

variable {lease : Lease}

/-- Rebalancing keeps each lease, drained at most. -/
theorem get_rebalanceCapacity (h : o.rebalanceCapacity.leases.get shardId = some lease) :
    ∃ before, o.leases.get shardId = some before ∧ Drained before lease := by
  unfold rebalanceCapacity at h
  dsimp only at h
  split at h
  · exact ⟨lease, h, Drained.refl lease⟩
  · obtain ⟨left, hleft⟩ := o.leases.get_mapAccum (fun _ lease excess => lease.drain excess)
      (allocatedCredits o.leases - o.limit) shardId
    rw [hleft] at h
    obtain ⟨before, hbefore, rfl⟩ := map_eq_some_iff.mp h
    exact ⟨before, hbefore, drained_drain before left⟩

/-! ## The transitions keep the check -/

/-- The part of the check that does not read what is free. -/
structure Storable (o : Owner) : Prop where
  scope : o.scope ≠ [] ∧ o.scope.length ≤ 65535
  limit : o.limit ≤ maxExactVersion
  epoch : o.epoch ≤ maxExactVersion
  configVersion : o.configVersion ≤ maxExactVersion
  policyVersion : ∀ digest ∈ o.policyVersion, digest.length = 32
  cleanupHead : 0 < o.cleanupHead ∧ o.cleanupHead ≤ maxExactVersion
  cleanupTail : o.cleanupTail ≤ maxExactVersion
  cleanupOrder : o.cleanupHead ≤ o.cleanupTail + 1
  leases : ∀ shardId lease, o.leases.get shardId = some lease → ValidLease shardId lease
  leaseEpochs : ∀ shardId lease, o.leases.get shardId = some lease → lease.epoch ≤ o.epoch
  allocated : allocatedCredits o.leases ≤ maxExactVersion

theorem Valid.storable (h : o.Valid) : o.Storable :=
  { h with allocated := (validOwnerCapacity_iff.mp h.capacity).1 }

theorem Storable.valid (h : o.Storable) (hfree : o.free = o.limit - allocatedCredits o.leases) :
    o.Valid :=
  { h with
    free := hfree ▸ (Nat.sub_le _ _).trans h.limit
    capacity := validOwnerCapacity_iff.mpr ⟨h.allocated, hfree⟩ }

theorem Valid.free_eq (h : o.Valid) : o.free = o.limit - allocatedCredits o.leases :=
  (validOwnerCapacity_iff.mp h.capacity).2

theorem ValidLease.drained {drained : Lease} (h : ValidLease shardId lease)
    (hdrained : Drained lease drained) : ValidLease shardId drained := by
  obtain ⟨havailable, ⟨-, hpending⟩, hrest⟩ := hdrained
  have hle := hpending h.pendingReclaim
  rw [hrest]
  exact { h with available := havailable.trans h.available, pendingReclaim := hle }

/-- Rebalancing leads to an owner that passes the check. -/
theorem Storable.rebalance (h : o.Storable) : o.rebalanceCapacity.Valid := by
  refine Storable.valid ?_ (balanced_rebalanceCapacity o).free
  have hdrained {shardId : Nat} {lease : Lease}
      (hget : o.rebalanceCapacity.leases.get shardId = some lease) := get_rebalanceCapacity hget
  unfold rebalanceCapacity at hdrained ⊢
  dsimp only at hdrained ⊢
  split at hdrained
  · rename_i hfits
    rw [if_pos hfits]
    exact { h with }
  · rename_i hover
    rw [if_neg hover]
    refine { h with
      leases := ?_
      leaseEpochs := ?_
      allocated := ?_ }
    · intro shardId lease hget
      obtain ⟨before, hbefore, hdrained⟩ := hdrained hget
      exact (h.leases shardId before hbefore).drained hdrained
    · intro shardId lease hget
      obtain ⟨before, hbefore, hdrained⟩ := hdrained hget
      rw [hdrained.rest]
      exact h.leaseEpochs shardId before hbefore
    · refine le_trans ?_ h.allocated
      show allocatedCredits (o.leases.mapAccum _ _) ≤ _
      rw [allocatedCredits_eq, totalAvailable_drain, totalInUse_drain, allocatedCredits_eq o.leases]
      omega

theorem Storable.reclaimExpired (h : o.Storable) (nowMs : Nat) : (o.reclaimExpired nowMs).Valid := by
  refine Storable.rebalance { h with
    leases := ?_
    leaseEpochs := ?_
    allocated := ?_ }
  · intro shardId lease hget
    simp only [SortedMap.get_filter] at hget
    exact h.leases shardId lease (filter_eq_some_iff.mp hget).1
  · intro shardId lease hget
    simp only [SortedMap.get_filter] at hget
    exact h.leaseEpochs shardId lease (filter_eq_some_iff.mp hget).1
  · exact (SortedMap.total_filter_le _ _ _).trans h.allocated

theorem Valid.reconfigure (h : o.Valid) {limit configVersion : Nat} {policyVersion : Option Bytes}
    {o' : Owner} (hlimit : limit ≤ maxExactVersion) (hversion : configVersion ≤ maxExactVersion)
    (hpolicy : ∀ digest ∈ policyVersion, digest.length = 32)
    (hreply : o.reconfigure limit configVersion policyVersion = .ok o') : o'.Valid := by
  unfold Owner.reconfigure at hreply
  split at hreply
  · cases hreply
    exact h
  · split at hreply
    · split at hreply
      · exact nomatch hreply
      · obtain rfl := Except.ok.inj hreply
        exact h
    · obtain rfl := Except.ok.inj hreply
      have hs := h.storable
      exact Storable.rebalance { hs with
        limit := hlimit
        configVersion := hversion
        policyVersion := hpolicy }

/-- Replacing a lease by one that passes the check. -/
theorem Storable.put (h : o.Storable) (hlease : ValidLease shardId lease)
    (hepoch : lease.epoch ≤ o.epoch)
    (hallocated : allocatedCredits (o.leases.put shardId lease) ≤ maxExactVersion) :
    ({ o with leases := o.leases.put shardId lease } : Owner).Storable := by
  exact { h with
    leases := forall_put hlease h.leases
    leaseEpochs := forall_put hepoch h.leaseEpochs
    allocated := hallocated }

/-- Replacing a lease by one with as many credits keeps the check. -/
theorem Valid.put_same (h : o.Valid) {lease' : Lease}
    (hget : o.leases.get shardId = some lease) (hlease : ValidLease shardId lease')
    (hepoch : lease'.epoch = lease.epoch) (hsame : lease'.allocated = lease.allocated) :
    ({ o with leases := o.leases.put shardId lease' } : Owner).Valid := by
  have hsum : allocatedCredits (o.leases.put shardId lease') = allocatedCredits o.leases := by
    have := o.leases.total_put_add (fun _ lease => lease.allocated) shardId lease'
    simp only [hget, map_some, getD_some] at this
    unfold allocatedCredits
    omega
  refine (h.storable.put hlease ?_ ?_).valid ?_
  · rw [hepoch]
    exact h.leaseEpochs shardId lease hget
  · rw [hsum]
    exact h.storable.allocated
  · show o.free = o.limit - allocatedCredits (o.leases.put shardId lease')
    rw [hsum]
    exact h.free_eq

theorem Valid.renew (h : o.Valid) (htime : nowMs + ttlMs ≤ maxExactVersion) :
    (o.renew shardId nowMs ttlMs).2.Valid := by
  have hreclaim := h.storable.reclaimExpired nowMs
  unfold Owner.renew
  dsimp only
  split
  · exact hreclaim
  · rename_i lease hget
    have hlease := hreclaim.leases shardId lease hget
    exact hreclaim.put_same hget { hlease with expiresAt := max_le hlease.expiresAt htime } rfl rfl

theorem Valid.releaseIdentifiedAmount (h : o.Valid) (shardId amount : Nat) :
    (o.releaseIdentifiedAmount shardId amount).Valid := by
  unfold Owner.releaseIdentifiedAmount
  split
  · exact h
  · rename_i lease hget
    have hlease := h.leases shardId lease hget
    have hallocated : lease.available + lease.inUse ≤ maxExactVersion :=
      (le_total (fun _ (lease : Lease) => lease.allocated) hget).trans h.storable.allocated
    refine Storable.rebalance (Valid.storable (h.put_same hget ?_ rfl ?_))
    · refine { hlease with
        available := ?_
        inUse := (Nat.sub_le _ _).trans hlease.inUse
        pendingReclaim := hlease.pendingReclaim.trans (Nat.le_add_right _ _) }
      show lease.available + min amount lease.inUse ≤ maxExactVersion
      omega
    · simp only [Lease.allocated]
      omega

theorem Valid.markReclaim (h : o.Valid) (requester requested : Nat) :
    (o.markReclaim requester requested).Valid := by
  have hs := h.storable
  have hsum : allocatedCredits (o.markReclaim requester requested).leases =
      allocatedCredits o.leases := by
    refine total_mapAccum (fun shardId lease remaining => ?_) o.leases requested
    split <;> rfl
  have hleases : ∀ shardId lease, (o.markReclaim requester requested).leases.get shardId =
      some lease → ∃ before, o.leases.get shardId = some before ∧ lease.epoch = before.epoch ∧
        (ValidLease shardId before → ValidLease shardId lease) := by
    intro shardId lease hget
    obtain ⟨left, hleft⟩ := o.leases.get_mapAccum (fun shardId lease remaining =>
      if remaining = 0 ∨ shardId = requester then (lease, remaining) else lease.mark remaining)
      requested shardId
    rw [Owner.markReclaim, hleft] at hget
    obtain ⟨before, hbefore, rfl⟩ := map_eq_some_iff.mp hget
    refine ⟨before, hbefore, ?_, fun hvalid => ?_⟩
    · split <;> rfl
    · split
      · exact hvalid
      · refine { hvalid with pendingReclaim := ?_ }
        have := hvalid.pendingReclaim
        simp only [Lease.mark]
        omega
  refine Storable.valid { hs with
    leases := ?_
    leaseEpochs := ?_
    allocated := hsum.le.trans hs.allocated } ?_
  · intro shardId lease hget
    obtain ⟨before, hbefore, -, hvalid⟩ := hleases shardId lease hget
    exact hvalid (hs.leases shardId before hbefore)
  · intro shardId lease hget
    obtain ⟨before, hbefore, hepoch, -⟩ := hleases shardId lease hget
    rw [hepoch]
    exact hs.leaseEpochs shardId before hbefore
  · rw [hsum]
    exact h.free_eq

/-- A lease that takes granted credits. -/
theorem Valid.grantedLease (h : o.Valid) {granted : Nat} (htime : nowMs + ttlMs ≤ maxExactVersion)
    (hfree : granted ≤ o.free) (hepoch : o.leases.get shardId = none → o.epoch < maxExactVersion) :
    ValidLease shardId (o.grantedLease shardId granted nowMs ttlMs (o.leases.get shardId)) := by
  have hfreeEq := h.free_eq
  have hlimit := h.limit
  cases hget : o.leases.get shardId with
  | none =>
    have := hepoch hget
    exact ⟨rfl, ⟨Nat.succ_pos _, this⟩, htime, hfree.trans h.free, Nat.zero_le _, Nat.zero_le _,
      ⟨le_rfl, by simp [Owner.grantedLease, maxExactVersion]⟩, Nat.zero_le _, .inl ⟨rfl, rfl⟩,
      nofun⟩
  | some lease =>
    have hlease := h.leases shardId lease hget
    have hle : lease.allocated ≤ allocatedCredits o.leases :=
      le_total (fun _ (lease : Lease) => lease.allocated) hget
    have hsum := h.storable.allocated
    have hpending := hlease.pendingReclaim
    refine { hlease with
      expiresAt := max_le hlease.expiresAt htime
      available := ?_
      pendingReclaim := ?_ }
    · show lease.available + granted ≤ maxExactVersion
      simp only [Lease.allocated] at hle
      omega
    · show lease.pendingReclaim - granted ≤ lease.available + granted
      omega

theorem allocated_grant (o : Owner) (shardId granted nowMs ttlMs : Nat) :
    allocatedCredits (o.leases.put shardId
      (o.grantedLease shardId granted nowMs ttlMs (o.leases.get shardId))) =
      allocatedCredits o.leases + granted := by
  have := o.leases.total_put_add (fun _ lease => lease.allocated) shardId
    (o.grantedLease shardId granted nowMs ttlMs (o.leases.get shardId))
  unfold allocatedCredits
  cases hget : o.leases.get shardId with
  | none =>
    simp only [hget, map_none, getD_none, Owner.grantedLease, Lease.allocated] at this ⊢
    omega
  | some lease =>
    simp only [hget, map_some, getD_some, Owner.grantedLease, Lease.allocated] at this ⊢
    omega

theorem Valid.grant (h : o.Valid) {requested : Nat} (htime : nowMs + ttlMs ≤ maxExactVersion) :
    (o.grant shardId requested nowMs ttlMs).2.Valid := by
  have hreclaim := h.storable.reclaimExpired nowMs
  unfold Owner.grant
  dsimp only
  set o₁ := o.reclaimExpired nowMs with ho₁
  split
  · split
    · exact hreclaim
    · rename_i hgeneration
      have hgranted : min requested o₁.free ≤ o₁.free := min_le_right _ _
      have hepoch : o₁.leases.get shardId = none → o₁.epoch < maxExactVersion := fun hnone =>
        not_le.mp fun hle => hgeneration ⟨hnone, hle⟩
      have hlease := hreclaim.grantedLease htime hgranted hepoch
      have hsum := allocated_grant o₁ shardId (min requested o₁.free) nowMs ttlMs
      have hfree := hreclaim.free_eq
      have hlimit := hreclaim.limit
      have hs := hreclaim.storable
      set lease := o₁.grantedLease shardId (min requested o₁.free) nowMs ttlMs
        (o₁.leases.get shardId)
      have hraised : ({ o₁ with epoch := max o₁.epoch lease.epoch } : Owner).Storable := { hs with
          epoch := max_le hs.epoch hlease.epoch.2
          leaseEpochs := fun shardId lease hget =>
            (hs.leaseEpochs shardId lease hget).trans (le_max_left _ _) }
      have hput := hraised.put hlease (le_max_right _ _) (hsum.le.trans (by omega))
      refine Storable.valid { hput with } ?_
      show o₁.free - min requested o₁.free = o₁.limit - allocatedCredits (o₁.leases.put shardId _)
      omega
  · exact hreclaim.markReclaim shardId requested

/-- A spend that gets to the credits of a lease: the lease is there, its ids are right and new to the
lease, the time is not before the last spend, and the available credits cover the amount. -/
structure Takes (o : Owner) (shardId amount nowMs : Nat) (ids : List Bytes) (lease : Lease) :
    Prop where
  get : (o.reclaimExpired nowMs).leases.get shardId = some lease
  validIds : validReservationIds ids amount = true
  newIds : ∀ id ∈ ids, id ∉ lease.reservations
  time : lease.lastSpendAtMs.getD 0 ≤ nowMs
  covered : amount ≤ lease.available

/-- The spent lease keeps the check when the spend leaves what is marked for reclaim. -/
theorem Valid.spend (h : o.Valid) {ttl : Option Nat} {ids : List Bytes}
    (hnow : nowMs ≤ maxExactVersion) (htime : ∀ ttlMs ∈ ttl, nowMs + ttlMs ≤ maxExactVersion)
    (hmarked : ∀ lease, o.Takes shardId amount nowMs ids lease →
      amount + lease.pendingReclaim ≤ lease.available) :
    (o.spend shardId amount nowMs ttl ids).2.Valid := by
  have hreclaim := h.storable.reclaimExpired nowMs
  unfold Owner.spend
  dsimp only
  split
  · exact hreclaim
  · rename_i lease hget
    split
    · exact hreclaim
    split
    · exact hreclaim
    split
    · exact hreclaim
    split
    · exact hreclaim
    split
    · rename_i hids _ hconflict hlast hcovered
      have hnew : ∀ id ∈ ids, id ∉ lease.reservations :=
        fun id hid hknown => hconflict ⟨List.ne_nil_of_mem hid, id, hid, hknown⟩
      have hlease := hreclaim.leases shardId lease hget
      have hleft := hmarked lease
        ⟨hget, Bool.eq_true_of_not_eq_false hids, hnew, not_lt.mp hlast, hcovered⟩
      have hallocated : lease.available + lease.inUse ≤ maxExactVersion :=
        (le_total (fun _ (lease : Lease) => lease.allocated) hget).trans hreclaim.storable.allocated
      refine hreclaim.put_same hget ⟨hlease.shardId, hlease.epoch, ?_,
        (Nat.sub_le _ _).trans hlease.available, ?_, ?_, hlease.drainRate, hlease.page,
        hlease.pageFill, ?_⟩ rfl ?_
      · cases ttl with
        | none => exact hlease.expiresAt
        | some ttlMs => exact max_le hlease.expiresAt (htime ttlMs rfl)
      · show lease.inUse + amount ≤ maxExactVersion
        omega
      · show lease.pendingReclaim ≤ lease.available - amount
        omega
      · intro lastSpendAtMs hmem
        rw [← mem_some.mp hmem]
        exact hnow
      · simp only [Lease.allocated]
        omega
    · exact hreclaim

/-- A spend that gets to the credits keeps the check only if it leaves what is marked. -/
theorem Takes.leaves_of_valid {ttl : Option Nat} {ids : List Bytes}
    (h : o.Takes shardId amount nowMs ids lease) (hamount : 0 < amount) (hlength : ids.length = amount)
    (hvalid : (o.spend shardId amount nowMs ttl ids).2.Valid) :
    amount + lease.pendingReclaim ≤ lease.available := by
  obtain ⟨id, hid⟩ := List.exists_mem_of_length_pos (hlength ▸ hamount)
  have hunknown : ¬ (ids ≠ [] ∧ ∀ id ∈ ids, id ∈ lease.reservations) :=
    fun hall => h.newIds id hid (hall.2 id hid)
  have hnew : ¬ (ids ≠ [] ∧ ∃ id ∈ ids, id ∈ lease.reservations) :=
    fun ⟨_, id, hid, hknown⟩ => h.newIds id hid hknown
  rw [Owner.spend, h.get] at hvalid
  simp only [h.validIds, Bool.true_eq_false, if_false, if_neg hunknown, if_neg hnew,
    if_neg (not_lt.mpr h.time), if_pos h.covered] at hvalid
  have hle := (hvalid.leases shardId _ (by rw [get_put, if_pos rfl])).pendingReclaim
  have hcovered := h.covered
  dsimp only at hle
  omega

end Owner

/-! ## All transitions -/

/-- A transition of the owner with its arguments. -/
inductive CreditOp where
  | grant (shardId requested nowMs ttlMs : Nat)
  | spend (shardId amount nowMs : Nat) (ttlMs : Option Nat) (ids : List Bytes)
  | renew (shardId nowMs ttlMs : Nat)
  | release (shardId amount : Nat)
  | reclaimExpired (nowMs : Nat)
  | reconfigure (limit configVersion : Nat) (policyVersion : Option Bytes)

/-- The owner that a transition returns, also beside a denial. -/
def CreditOp.apply (o : Owner) : CreditOp → Owner
  | .grant shardId requested nowMs ttlMs => (o.grant shardId requested nowMs ttlMs).2
  | .spend shardId amount nowMs ttlMs ids => (o.spend shardId amount nowMs ttlMs ids).2
  | .renew shardId nowMs ttlMs => (o.renew shardId nowMs ttlMs).2
  | .release shardId amount => o.releaseIdentifiedAmount shardId amount
  | .reclaimExpired nowMs => o.reclaimExpired nowMs
  | .reconfigure limit configVersion policyVersion =>
    match o.reconfigure limit configVersion policyVersion with
    | .ok o' => o'
    | .error _ => o

/-- `flow_limit_valid_deadline?` -/
def ValidDeadline (nowMs ttlMs : Nat) : Prop := 0 < ttlMs ∧ nowMs + ttlMs ≤ Owner.maxExactVersion

instance (nowMs ttlMs : Nat) : Decidable (ValidDeadline nowMs ttlMs) :=
  inferInstanceAs (Decidable (_ ∧ _))

/-- What the validator of a mutation admits. -/
def CreditOp.Admitted : CreditOp → Prop
  | .grant _ requested nowMs ttlMs => 0 < requested ∧ requested ≤ 1000 ∧ ValidDeadline nowMs ttlMs
  | .spend _ amount nowMs ttlMs ids =>
    0 < amount ∧ amount ≤ 1000 ∧ nowMs ≤ Owner.maxExactVersion ∧
      (∀ ttl ∈ ttlMs, ValidDeadline nowMs ttl) ∧ ids.length = amount ∧ ids.Nodup ∧
      ∀ id ∈ ids, id ≠ [] ∧ id.length ≤ 256
  | .renew _ nowMs ttlMs => ValidDeadline nowMs ttlMs
  | .release _ _ => True
  | .reclaimExpired nowMs => nowMs ≤ Owner.maxExactVersion
  | .reconfigure limit configVersion policyVersion =>
    limit ≤ Owner.maxExactVersion ∧ configVersion ≤ Owner.maxExactVersion ∧
      ∀ digest ∈ policyVersion, digest.length = 32

/-- A spend that gets to the credits of a lease leaves what is marked for reclaim. -/
def CreditOp.LeavesMarked (o : Owner) : CreditOp → Prop
  | .spend shardId amount nowMs _ ids =>
    ∀ lease, o.Takes shardId amount nowMs ids lease →
      amount + lease.pendingReclaim ≤ lease.available
  | _ => True

/-- The owner that an admitted transition produces can be stored if and only if the transition is no
spend that takes credits marked for reclaim. -/
theorem credit_transition_keeps_valid {o : Owner} {op : CreditOp} (h : o.Valid)
    (hadmitted : op.Admitted) : (op.apply o).Valid ↔ op.LeavesMarked o := by
  cases op with
  | grant shardId requested nowMs ttlMs => exact iff_of_true (h.grant hadmitted.2.2.2) trivial
  | spend shardId amount nowMs ttlMs ids =>
    obtain ⟨hamount, -, hnow, httl, hlength, -, -⟩ := hadmitted
    exact ⟨fun hvalid lease htakes => htakes.leaves_of_valid hamount hlength hvalid,
      h.spend hnow fun ttl hmem => (httl ttl hmem).2⟩
  | renew shardId nowMs ttlMs => exact iff_of_true (h.renew hadmitted.2) trivial
  | release shardId amount => exact iff_of_true (h.releaseIdentifiedAmount shardId amount) trivial
  | reclaimExpired nowMs => exact iff_of_true (h.storable.reclaimExpired nowMs) trivial
  | reconfigure limit configVersion policyVersion =>
    refine iff_of_true ?_ trivial
    simp only [CreditOp.apply]
    split
    · rename_i o' hreply
      exact h.reconfigure hadmitted.1 hadmitted.2.1 hadmitted.2.2 hreply
    · exact h

/-- An owner of five credits whose first shard has leased all of them. -/
def leasedFive : Owner := (CreditOp.grant 0 5 0 100).apply (.new [115] 5 0 none)

theorem valid_new_five : (Owner.new [115] 5 0 none).Valid :=
  Owner.Storable.valid ⟨by decide, by decide, by decide, by decide, nofun,
    by decide, by decide, by decide, nofun, nofun,
    by decide⟩ rfl

theorem valid_leasedFive : leasedFive.Valid := valid_new_five.grant (by decide)

/-- A denied second shard marks two of the five credits. A spend of the other three leads to an owner
that is stored. -/
theorem credit_transition_keeps_valid_granted :
    let denied := (CreditOp.grant 1 2 0 100).apply leasedFive
    let spend := CreditOp.spend 0 3 1 (some 100) [[97], [98], [99]]
    (denied.leases.get 0).map (fun lease => (lease.available, lease.pendingReclaim)) =
        some (5, 2) ∧
      spend.Admitted ∧ spend.LeavesMarked denied ∧ (spend.apply denied).Valid := by
  have hadmitted : (CreditOp.spend 0 3 1 (some 100) [[97], [98], [99]]).Admitted :=
    ⟨by decide, by decide, by decide, by decide, by decide, by decide, by decide⟩
  have hdenied : ((CreditOp.grant 1 2 0 100).apply leasedFive).Valid :=
    valid_leasedFive.grant (by decide)
  have hlease : ((((CreditOp.grant 1 2 0 100).apply leasedFive).reclaimExpired 1).leases.get 0).map
      (fun lease => (lease.available, lease.pendingReclaim)) = some (5, 2) := by decide
  have hmarked : (CreditOp.spend 0 3 1 (some 100) [[97], [98], [99]]).LeavesMarked
      ((CreditOp.grant 1 2 0 100).apply leasedFive) := by
    intro lease htakes
    rw [htakes.get] at hlease
    obtain ⟨havailable, hpending⟩ := Prod.mk.inj (some.inj hlease)
    omega
  exact ⟨by decide, hadmitted, hmarked,
    (credit_transition_keeps_valid hdenied hadmitted).mpr hmarked⟩

/-- A second shard asks for credits and is denied, which marks the credits of the first. A spend of
three of the five available credits then leads to an owner that is not stored. -/
theorem spend_of_marked_credits_not_storable :
    let denied := (CreditOp.grant 1 5 0 100).apply leasedFive
    let spent := denied.spend 0 3 1 (some 100) [[97], [98], [99]]
    (CreditOp.spend 0 3 1 (some 100) [[97], [98], [99]]).Admitted ∧
      (denied.leases.get 0).map Lease.available = some 5 ∧ spent.1.isOk = true ∧
      ¬ spent.2.Valid := by
  refine ⟨⟨by decide, by decide, by decide, by decide, by decide, by decide, by decide⟩, by decide,
    by decide, fun hvalid => ?_⟩
  have hspent : ((((CreditOp.grant 1 5 0 100).apply leasedFive).spend 0 3 1 (some 100)
      [[97], [98], [99]]).2.leases.get 0).map (fun lease => (lease.available, lease.pendingReclaim)) =
      some (2, 5) := by decide
  obtain ⟨lease, hget, hcredits⟩ := map_eq_some_iff.mp hspent
  obtain ⟨havailable, hpending⟩ := Prod.mk.inj hcredits
  have hle := (hvalid.leases 0 lease hget).pendingReclaim
  omega

end FerricStore.Governance
