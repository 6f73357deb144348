import FerricStore.Prob.Cuckoo

/-!
# The cuckoo filter counts its classes

`IsFile` says what a filter file holds: the geometry, the two counters and the content of every
slot. Every plan is proved against it, first for one image at a time and then for the plans of an
insertion, whose eviction chain is an `Evicts` of the library, and of a deletion. Over a whole run
each class of a fingerprint and a pair of buckets holds exactly the fingerprints that were added and
not deleted.
-/

namespace FerricStore.Prob.Cuckoo

open Function List

open CuckooTable (Pairing Table Evicts members occupied)

/-- The geometry of a filter. -/
structure Geometry where
  numBuckets : Nat
  bucketSize : Nat
  fingerprintSize : Nat
  maxKicks : Nat
  buckets_pos : 0 < numBuckets
  buckets_fit : numBuckets < 256 ^ 4
  size_pos : 0 < bucketSize
  size_fit : bucketSize < 256
  fingerprint_pos : 0 < fingerprintSize
  fingerprint_le : fingerprintSize ≤ maxFingerprintSize
  kicks_pos : 0 < maxKicks
  kicks_fit : maxKicks < 256 ^ 2
  bytes_fit : numBuckets * bucketSize * fingerprintSize ≤ maxCuckooBucketBytes

variable (g : Geometry)

/-- The header of a file of a geometry. -/
def Geometry.header (items deletes : Nat) : Header :=
  ⟨g.numBuckets, g.bucketSize, g.fingerprintSize, g.maxKicks, items, deletes⟩

/-- Where the token of a file of a geometry lies. -/
def Geometry.layout : Layout where
  tokenOffset := headerSize + g.numBuckets * g.bucketSize * g.fingerprintSize
  fileSize := headerSize + g.numBuckets * g.bucketSize * g.fingerprintSize + tokenSize
  footer := rfl
  fits := by
    have h := g.bytes_fit
    rw [maxCuckooBucketBytes] at h
    rw [headerSize, tokenSize]
    omega

/-- The bytes of a header before its counters. -/
def Geometry.head : Bytes :=
  magic ++ ([version] ++ (leBytes 4 g.numBuckets ++ (leBytes 1 g.bucketSize ++
    (leBytes 1 g.fingerprintSize ++ leBytes 2 g.maxKicks))))

/-- A new file: the counters, the slots and the token are zero. -/
def Geometry.created : Bytes :=
  g.head ++ replicate
    (16 + g.numBuckets * g.bucketSize * g.fingerprintSize + tokenSize) 0

variable {g} {hash : Hash}

/-- The slots of a file. -/
def Geometry.cells (g : Geometry) : Finset Slot :=
  Finset.range g.numBuckets ×ˢ Finset.range g.bucketSize

/-- Where a slot lies in a file. -/
abbrev Geometry.offset (g : Geometry) (slot : Slot) : Nat :=
  slotOffset slot g.bucketSize g.fingerprintSize

variable {slot : Slot}

theorem mem_cells : slot ∈ g.cells ↔ slot.1 < g.numBuckets ∧ slot.2 < g.bucketSize := by
  rw [Geometry.cells, Finset.mem_product, Finset.mem_range, Finset.mem_range]

/-- The token lies inside the file. -/
theorem tokenOffset_le (layout : Layout) : layout.tokenOffset ≤ layout.fileSize := by
  have hfooter := layout.footer
  omega

/-- A slot ends before the token. -/
theorem slot_stop_le (h : slot ∈ g.cells) :
    g.offset slot + g.fingerprintSize ≤ g.layout.tokenOffset := by
  obtain ⟨hbucket, hslot⟩ := mem_cells.mp h
  have hindex : (slot.1 + 1) * g.bucketSize ≤ g.numBuckets * g.bucketSize :=
    Nat.mul_le_mul_right _ hbucket
  rw [Nat.succ_mul] at hindex
  have : (slot.1 * g.bucketSize + slot.2 + 1) * g.fingerprintSize ≤
      g.numBuckets * g.bucketSize * g.fingerprintSize := Nat.mul_le_mul_right _ (by omega)
  rw [Nat.succ_mul] at this
  show headerSize + _ + _ ≤ headerSize + g.numBuckets * g.bucketSize * g.fingerprintSize
  omega

/-- Different slots lie apart. -/
theorem slots_apart {slot other : Slot} (h : slot ∈ g.cells) (hother : other ∈ g.cells)
    (hne : slot ≠ other) :
    g.offset slot + g.fingerprintSize ≤ g.offset other ∨
      g.offset other + g.fingerprintSize ≤ g.offset slot := by
  obtain ⟨bucket, place⟩ := slot
  obtain ⟨bucket', place'⟩ := other
  obtain ⟨-, hplace⟩ := mem_cells.mp h
  obtain ⟨-, hplace'⟩ := mem_cells.mp hother
  have hindex : bucket * g.bucketSize + place ≠ bucket' * g.bucketSize + place' := by
    intro heq
    have hbucket : bucket = bucket' := by
      have := congrArg (· / g.bucketSize) heq
      simpa [Nat.mul_comm _ g.bucketSize, Nat.mul_add_div g.size_pos, Nat.div_eq_of_lt hplace,
        Nat.div_eq_of_lt hplace'] using this
    subst hbucket
    exact hne (by rw [Nat.add_left_cancel heq])
  have hstep : ∀ {i j : Nat}, i < j → headerSize + i * g.fingerprintSize + g.fingerprintSize ≤
      headerSize + j * g.fingerprintSize := fun hlt => by
    have := Nat.mul_le_mul_right g.fingerprintSize (Nat.succ_le_of_lt hlt)
    rw [Nat.succ_mul] at this
    omega
  exact (Nat.lt_or_gt_of_ne hindex).imp hstep hstep

/-- What a file holds. -/
structure IsFile (g : Geometry) (data : Bytes) (items deletes : Nat) (slots : Slot → Bytes) :
    Prop where
  length : data.length = g.layout.fileSize
  head : slice data 0 11 = g.head
  items : leNat (slice data offNumItems 8) = items
  deletes : leNat (slice data offNumDeletes 8) = deletes
  slots : ∀ slot ∈ g.cells, slice data (slotOffset slot g.bucketSize g.fingerprintSize)
    g.fingerprintSize = slots slot

variable {data : Bytes} {items deletes : Nat} {slots : Slot → Bytes}

theorem length_head (g : Geometry) : g.head.length = 11 := by
  simp [Geometry.head, magic]

theorem IsFile.length_eq (h : IsFile g data items deletes slots) :
    data.length = 27 + g.numBuckets * g.bucketSize * g.fingerprintSize + 16 := h.length

/-- The header of a file reads back. -/
theorem IsFile.readHeader_eq (h : IsFile g data items deletes slots)
    (hitems : items ≤ g.numBuckets * g.bucketSize) :
    readHeader data = .ok (g.header items deletes) := by
  have hlen := h.length_eq
  have hfield : ∀ start len, start + len ≤ 11 → slice data start len = slice g.head start len := by
    intro start len hle
    rw [← h.head, slice_slice hle, Nat.zero_add]
  have hread : ∀ (before after : Bytes) (width n : Nat), g.head = before ++ (leBytes width n ++ after) →
      before.length + width ≤ 11 → n < 256 ^ width → leNat (slice data before.length width) = n := by
    intro before after width n heq hle hn
    rw [hfield _ _ hle, heq, slice_middle rfl (length_leBytes _ _), leNat_leBytes _ hn]
  have hbuckets := hread (magic ++ [version]) _ 4 g.numBuckets
    (by simp only [Geometry.head, append_assoc]; rfl) (by decide) g.buckets_fit
  have hsize := hread (magic ++ ([version] ++ leBytes 4 g.numBuckets)) _ 1 g.bucketSize
    (by simp only [Geometry.head, append_assoc]; rfl) (by simp [magic]) g.size_fit
  have hfingerprint := hread (magic ++ ([version] ++ (leBytes 4 g.numBuckets ++
    leBytes 1 g.bucketSize))) _ 1 g.fingerprintSize
    (by simp only [Geometry.head, append_assoc]; rfl) (by simp [magic])
    (g.fingerprint_le.trans_lt (by decide))
  have hkicks := hread (magic ++ ([version] ++ (leBytes 4 g.numBuckets ++ (leBytes 1 g.bucketSize ++
    leBytes 1 g.fingerprintSize)))) [] 2 g.maxKicks
    (by simp only [Geometry.head, append_assoc, append_nil]) (by simp [magic]) g.kicks_fit
  simp only [length_append, length_leBytes, magic, length_cons, length_nil]
    at hbuckets hsize hfingerprint hkicks
  have hmagic : slice data 0 2 = magic := by
    rw [hfield _ _ (by decide)]
    exact slice_front rfl
  have hversion : slice data 2 1 = [version] := by
    rw [hfield _ _ (by decide)]
    exact slice_middle rfl rfl
  rw [readHeader, if_neg (by rw [hlen, headerSize]; omega), if_neg (not_not.mpr hmagic),
    if_neg (not_not.mpr hversion), hbuckets, hsize, hfingerprint, hkicks, h.items, h.deletes]
  have hpositive := g.buckets_pos
  have hpositive' := g.size_pos
  have hpositive'' := g.fingerprint_pos
  have hle := g.fingerprint_le
  have hkick := g.kicks_pos
  have hbytes : fileSize g.numBuckets g.bucketSize g.fingerprintSize = .ok g.layout.fileSize := by
    rw [fileSize, mutationTokenOffset, bucketBytes, if_neg (not_lt.mpr g.bytes_fit)]
    rfl
  rw [validateHeader]
  dsimp only
  rw [if_neg (by omega), if_neg (by omega), if_neg (by omega), if_neg (by omega), if_neg (by omega),
    hbytes, ok_bind, if_neg (not_not.mpr h.length)]
  rfl

/-! ## Images -/

variable {value : Bytes} {n : Nat}

/-- A slot image is small and lies below the token. -/
theorem slotImage_modest (hslot : slot ∈ g.cells)
    (hvalue : value.length = g.fingerprintSize) (n m : Nat) :
    (slotImage (g.header n m) slot value).stop ≤ g.layout.tokenOffset ∧
      (slotImage (g.header n m) slot value).bytes.length ≤ 8 := by
  refine ⟨?_, hvalue.trans_le g.fingerprint_le⟩
  show g.offset slot + value.length ≤ _
  rw [hvalue]
  exact slot_stop_le hslot

/-- The images of the counters are small and lie below the token. -/
theorem counterImage_modest {offset n : Nat} (h : offset + 8 ≤ headerSize) :
    AfterImage.stop ⟨offset, leBytes 8 n⟩ ≤ g.layout.tokenOffset ∧
      (⟨offset, leBytes 8 n⟩ : AfterImage).bytes.length ≤ 8 := by
  refine ⟨?_, by rw [length_leBytes]⟩
  exact h.trans (Nat.le_add_right _ _)

section

variable (h : IsFile g data items deletes slots)
include h

/-- An image inside the file leaves what lies apart from it. -/
theorem IsFile.slice_write {image : AfterImage} (hstop : image.stop ≤ g.layout.fileSize)
    {start len : Nat} (hapart : start + len ≤ image.offset ∨ image.stop ≤ start) :
    slice (image.write data) start len = slice data start len := by
  have hlen := h.length
  have hle : image.offset ≤ image.stop := Nat.le_add_right _ _
  rcases hapart with hbefore | hafter
  · exact slice_overwrite_before _ hbefore (by omega)
  · exact slice_overwrite_after _ _ hafter

/-- A slot lies inside the file. -/
theorem IsFile.slot_within (hslot : slot ∈ g.cells) :
    g.offset slot + g.fingerprintSize ≤ data.length := by
  rw [h.length]
  exact (slot_stop_le hslot).trans (tokenOffset_le _)

/-- A slot image puts its slot. -/
theorem IsFile.write_slot (hslot : slot ∈ g.cells) (hvalue : value.length = g.fingerprintSize)
    (n m : Nat) : IsFile g ((slotImage (g.header n m) slot value).write data) items deletes
      (update slots slot value) := by
  have hstop := (slotImage_modest hslot hvalue n m).1.trans (tokenOffset_le _)
  have hbefore : headerSize ≤ g.offset slot := Nat.le_add_right _ _
  have hlow : ∀ start len, start + len ≤ headerSize →
      slice ((slotImage (g.header n m) slot value).write data) start len = slice data start len :=
    fun start len hle => h.slice_write hstop (.inl (hle.trans hbefore))
  refine ⟨(length_write (h.length ▸ hstop)).trans h.length, ?_, ?_, ?_, fun other hother => ?_⟩
  · rw [hlow _ _ (by decide), h.head]
  · rw [hlow _ _ (by decide), h.items]
  · rw [hlow _ _ (by decide), h.deletes]
  · by_cases heq : other = slot
    · subst heq
      have hwrite := slice_overwrite data (g.offset other) value
      rw [hvalue] at hwrite
      rw [update_self]
      exact hwrite
    · rw [update_of_ne heq, ← h.slots other hother]
      refine h.slice_write hstop ?_
      show _ ∨ g.offset slot + value.length ≤ _
      rw [hvalue]
      exact slots_apart hother hslot heq

/-- An image of a counter leaves what lies apart from it. -/
theorem IsFile.write_counter (offset : Nat)
    (hoffset : 11 ≤ offset) (hstop : offset + 8 ≤ headerSize) (hn : n < 256 ^ 8) :
    (AfterImage.write ⟨offset, leBytes 8 n⟩ data).length = g.layout.fileSize ∧
      slice (AfterImage.write ⟨offset, leBytes 8 n⟩ data) 0 11 = g.head ∧
      leNat (slice (AfterImage.write ⟨offset, leBytes 8 n⟩ data) offset 8) = n ∧
      ∀ slot ∈ g.cells, slice (AfterImage.write ⟨offset, leBytes 8 n⟩ data)
        (g.offset slot) g.fingerprintSize = slots slot := by
  have hin := (counterImage_modest (g := g) (n := n) hstop).1.trans (tokenOffset_le _)
  refine ⟨(length_write (h.length ▸ hin)).trans h.length, ?_, ?_, fun slot hslot => ?_⟩
  · rw [h.slice_write hin (.inl (by simpa using hoffset)), h.head]
  · have hwrite := slice_overwrite data offset (leBytes 8 n)
    rw [length_leBytes] at hwrite
    rw [AfterImage.write, hwrite, leNat_leBytes 8 hn]
  · rw [h.slice_write hin (.inr ?_), h.slots slot hslot]
    exact hstop.trans (Nat.le_add_right _ _)

/-- The image of the item count puts it. -/
theorem IsFile.write_items (hn : n < 256 ^ 8) :
    IsFile g ((itemsImage n).write data) n deletes slots := by
  obtain ⟨hlength, hhead, hcount, hslots⟩ := h.write_counter offNumItems (by decide) (by decide) hn
  refine ⟨hlength, hhead, hcount, ?_, hslots⟩
  rw [← h.deletes]
  refine congrArg leNat (slice_overwrite_after _ _ ?_)
  show offNumItems + (leBytes 8 n).length ≤ _
  rw [length_leBytes]
  decide

/-- The image of the delete count puts it. -/
theorem IsFile.write_deletes (hn : n < 256 ^ 8) :
    IsFile g ((deletesImage n).write data) items n slots := by
  obtain ⟨hlength, hhead, hcount, hslots⟩ := h.write_counter offNumDeletes (by decide) (by decide) hn
  refine ⟨hlength, hhead, ?_, hcount, hslots⟩
  rw [← h.items]
  have hlen := h.length_eq
  exact congrArg leNat (slice_overwrite_before _ (show offNumItems + 8 ≤ offNumDeletes by decide)
    (by rw [offNumItems]; omega))

/-- The image of the token leaves the filter. -/
theorem IsFile.write_token (token : MutationToken) :
    IsFile g ((tokenImage g.layout token).write data) items deletes slots := by
  have hstop : (tokenImage g.layout token).stop ≤ g.layout.fileSize := (stop_tokenImage _ _).le
  have hheader : headerSize ≤ g.layout.tokenOffset := Nat.le_add_right _ _
  have hlow : ∀ start len, start + len ≤ headerSize →
      slice ((tokenImage g.layout token).write data) start len = slice data start len :=
    fun start len hle => h.slice_write hstop (.inl (hle.trans hheader))
  refine ⟨(length_write (h.length ▸ hstop)).trans h.length, ?_, ?_, ?_, fun slot hslot => ?_⟩
  · rw [hlow _ _ (by decide), h.head]
  · rw [hlow _ _ (by decide), h.items]
  · rw [hlow _ _ (by decide), h.deletes]
  · rw [h.slice_write hstop (.inl (slot_stop_le hslot)), h.slots slot hslot]

end

/-! ## Buckets and fingerprints -/

/-- Reflecting twice leads back, whatever the number of buckets. -/
theorem reflect_reflect {n h b : Nat} (hb : b < n) : (h % n + n - (h % n + n - b) % n) % n = b := by
  have hr : h % n < n := Nat.mod_lt _ (by omega)
  rcases Nat.lt_or_ge (h % n) b with hlt | hge
  · have hsmall : h % n + n - b < n := by omega
    rw [Nat.mod_eq_of_lt hsmall]
    have : h % n + n - (h % n + n - b) = b := by omega
    rw [this, Nat.mod_eq_of_lt hb]
  · have hlarge : h % n + n - b = (h % n - b) + n := by omega
    have hsmall : h % n - b < n := by omega
    rw [hlarge, Nat.add_mod_right, Nat.mod_eq_of_lt hsmall]
    have : h % n + n - (h % n - b) = b + n := by omega
    rw [this, Nat.add_mod_right, Nat.mod_eq_of_lt hb]

/-- The pairs of buckets under a hash function. -/
def pairing (g : Geometry) (hash : Hash) : Pairing Nat Bytes where
  buckets := Finset.range g.numBuckets
  alternate fingerprint bucket := alternateBucket hash bucket fingerprint g.numBuckets
  alternate_mem := fun _ => Finset.mem_range.mpr (Nat.mod_lt _ g.buckets_pos)
  alternate_alternate := fun h => reflect_reflect (Finset.mem_range.mp h)

/-- A fingerprint that can stand in a slot. -/
def Proper (g : Geometry) (fingerprint : Bytes) : Prop :=
  fingerprint.length = g.fingerprintSize ∧ isEmpty fingerprint = false

/-- Elements have proper fingerprints and a bucket of the filter. -/
theorem fingerprintAndBucket_spec (g : Geometry) (hash : Hash) (element : Bytes) :
    Proper g (fingerprintAndBucket hash element g.fingerprintSize g.numBuckets).1 ∧
      (fingerprintAndBucket hash element g.fingerprintSize g.numBuckets).2 < g.numBuckets := by
  have hpos := g.fingerprint_pos
  have hle := g.fingerprint_le
  rw [maxFingerprintSize] at hle
  have hlen : ((hash.digest element).take g.fingerprintSize).length = g.fingerprintSize := by
    rw [length_take, hash.length_digest]
    omega
  refine ⟨?_, Nat.mod_lt _ g.buckets_pos⟩
  rw [fingerprintAndBucket]
  split_ifs with hzero
  · refine ⟨by rw [length_set, hlen], ?_⟩
    rw [isEmpty, all_eq_false]
    have hset : ((hash.digest element).take g.fingerprintSize |>.set 0 1)[0]? = some 1 :=
      getElem?_set_self (by omega)
    exact ⟨1, mem_of_getElem? hset, by decide⟩
  · exact ⟨hlen, by simpa [isEmpty] using hzero⟩

/-- The table of the slots: zeros are empty. -/
def tableOf (slots : Slot → Bytes) : Table Nat Nat Bytes := fun slot =>
  if isEmpty (slots slot) then none else some (slots slot)

/-- The table after a slot is written. -/
theorem tableOf_update (slots : Slot → Bytes) (slot : Slot) (value : Bytes) :
    tableOf (update slots slot value) =
      update (tableOf slots) slot (if isEmpty value then none else some value) :=
  comp_update (fun value => if isEmpty value then none else some value) slots slot value

theorem tableOf_update_proper (slots : Slot → Bytes) (slot : Slot) (h : Proper g value) :
    tableOf (update slots slot value) = update (tableOf slots) slot (some value) := by
  rw [tableOf_update, if_neg (by rw [h.2]; exact Bool.false_ne_true)]

/-! ## Reading slots -/

/-- A slot of a file can be read. -/
theorem IsFile.readSlot_eq (h : IsFile g data items deletes slots)
    (hslot : slot ∈ g.cells) (n m : Nat) : readSlot data (g.header n m) slot = .ok (slots slot) := by
  rw [← h.slots slot hslot]
  exact if_pos (h.slot_within hslot)

/-- The slots of buckets of the filter are slots of the file. -/
theorem mem_slotsOf {n m : Nat} {buckets : List Nat} :
    slot ∈ slotsOf (g.header n m) buckets ↔ slot.1 ∈ buckets ∧ slot.2 < g.bucketSize := by
  obtain ⟨bucket, place⟩ := slot
  simp only [slotsOf, Geometry.header, mem_flatMap, mem_map, mem_range, Prod.mk.injEq]
  constructor
  · rintro ⟨_, hbucket, _, hplace, rfl, rfl⟩
    exact ⟨hbucket, hplace⟩
  · rintro ⟨hbucket, hplace⟩
    exact ⟨bucket, hbucket, place, hplace, rfl, rfl⟩

/-- A search ends at a slot that passes, or none passes. -/
theorem findSlot_spec (passes : Bytes → Bool) {read : Slot → Except String Bytes}
    {content : Slot → Bytes} :
    ∀ {list : List Slot}, (∀ slot ∈ list, read slot = .ok (content slot)) →
      (∃ slot ∈ list, findSlot read passes list = .ok (some slot) ∧ passes (content slot) = true) ∨
      findSlot read passes list = .ok none ∧ ∀ slot ∈ list, passes (content slot) = false := by
  intro list
  induction list with
  | nil => exact fun _ => .inr ⟨rfl, nofun⟩
  | cons slot list ih =>
    intro hread
    rw [findSlot, hread slot mem_cons_self, ok_bind]
    by_cases hpasses : passes (content slot) = true
    · exact .inl ⟨slot, mem_cons_self, if_pos hpasses, hpasses⟩
    · rw [if_neg hpasses]
      rcases ih (forall_mem_cons.mp hread).2 with
        ⟨found, hmem, hfound, hpass⟩ | ⟨hnone, hall⟩
      · exact .inl ⟨found, mem_cons_of_mem _ hmem, hfound, hpass⟩
      · exact .inr ⟨hnone, forall_mem_cons.mpr ⟨Bool.eq_false_iff.mpr hpasses, hall⟩⟩

/-! ## Staged writes -/

/-- What the slots hold with the staged writes over them. -/
def overlay (staged : Staged) (slots : Slot → Bytes) : Slot → Bytes := fun slot =>
  (staged.lookup slot).getD (slots slot)

variable {staged : Staged}

theorem mem_of_lookup (h : staged.lookup slot = some value) : (slot, value) ∈ staged := by
  obtain ⟨before, after, rfl, -⟩ := lookup_eq_some_iff.mp h
  exact mem_append_right _ mem_cons_self

/-- With one write per slot, what is staged is looked up. -/
theorem lookup_of_mem (hnodup : (staged.map Prod.fst).Nodup)
    (h : (slot, value) ∈ staged) : staged.lookup slot = some value := by
  cases hlookup : staged.lookup slot with
  | none =>
    have := lookup_eq_none_iff.mp hlookup _ h
    simp at this
  | some found =>
    have hmem := mem_of_lookup hlookup
    have := inj_on_of_nodup_map hnodup hmem h rfl
    rw [(Prod.mk.inj this).2]

/-- The order of the writes does not matter. -/
theorem overlay_perm {staged other : Staged} (hperm : other.Perm staged)
    (hnodup : (staged.map Prod.fst).Nodup) (slots : Slot → Bytes) :
    overlay other slots = overlay staged slots := by
  have hother : (other.map Prod.fst).Nodup := (hperm.map _).nodup_iff.mpr hnodup
  funext slot
  rw [overlay, overlay]
  cases hlookup : staged.lookup slot with
  | some value => rw [lookup_of_mem hother (hperm.mem_iff.mpr (mem_of_lookup hlookup))]
  | none =>
    cases hlookup' : other.lookup slot with
    | none => rfl
    | some value =>
      rw [lookup_of_mem hnodup (hperm.mem_iff.mp (mem_of_lookup hlookup'))] at hlookup
      cases hlookup

/-- Staged writes of proper fingerprints to different slots of the filter. -/
structure StagedOk (g : Geometry) (staged : Staged) : Prop where
  cells : ∀ entry ∈ staged, entry.1 ∈ g.cells
  proper : ∀ entry ∈ staged, Proper g entry.2
  nodup : (staged.map Prod.fst).Nodup

/-- A staged write is read back. -/
theorem overlay_insert (staged : Staged) (slots : Slot → Bytes) (slot : Slot) (value : Bytes) :
    overlay (staged.insert slot value) slots = update (overlay staged slots) slot value := by
  funext other
  by_cases heq : other = slot
  · subst heq
    simp [overlay, Staged.insert]
  · have hfilter : ∀ list : Staged,
        (list.filter fun entry => entry.1 ≠ slot).lookup other = list.lookup other := by
      intro list
      induction list with
      | nil => rfl
      | cons entry list ih =>
        obtain ⟨key, old⟩ := entry
        by_cases hkey : key = slot
        · subst hkey
          simp only [ne_eq, decide_not, filter_cons, decide_true, Bool.not_true,
            Bool.false_eq_true, if_false, lookup_cons, beq_eq_false_iff_ne.mpr heq]
          simpa using ih
        · simp only [ne_eq, decide_not, filter_cons, hkey, decide_false, Bool.not_false,
            if_true, lookup_cons]
          simp only [ne_eq, decide_not] at ih
          rw [ih]
    rw [update_of_ne heq, overlay, overlay, Staged.insert, lookup_cons,
      beq_eq_false_iff_ne.mpr heq, hfilter]

/-- Staging keeps the writes in order. -/
theorem StagedOk.insert (h : StagedOk g staged) (hslot : slot ∈ g.cells) (hvalue : Proper g value) :
    StagedOk g (staged.insert slot value) := by
  refine ⟨?_, ?_, ?_⟩
  · rw [Staged.insert, forall_mem_cons]
    exact ⟨hslot, fun entry hmem => h.cells entry (mem_of_mem_filter hmem)⟩
  · rw [Staged.insert, forall_mem_cons]
    exact ⟨hvalue, fun entry hmem => h.proper entry (mem_of_mem_filter hmem)⟩
  · rw [Staged.insert, map_cons, nodup_cons]
    refine ⟨?_, (h.nodup.sublist (filter_sublist.map _))⟩
    rw [mem_map]
    rintro ⟨entry, hmem, heq⟩
    have := (mem_filter.mp hmem).2
    simp [heq] at this

theorem length_insert_le (staged : Staged) (slot : Slot) (value : Bytes) :
    (staged.insert slot value).length ≤ staged.length + 1 :=
  Nat.succ_le_succ (length_filter_le _ _)

section

variable (h : IsFile g data items deletes slots)
include h

/-- Reading a slot with the staged writes over it. -/
theorem IsFile.readSlotStaged_eq (staged : Staged) (hslot : slot ∈ g.cells) (n m : Nat) :
    readSlotStaged data (g.header n m) staged slot = .ok (overlay staged slots slot) := by
  rw [readSlotStaged, overlay]
  cases staged.lookup slot with
  | some fingerprint => rfl
  | none => exact h.readSlot_eq hslot n m

/-- A slot that is not empty, staged or not, holds a proper fingerprint. -/
theorem IsFile.proper_overlay (hstaged : StagedOk g staged) (hslot : slot ∈ g.cells)
    (hfull : isEmpty (overlay staged slots slot) = false) : Proper g (overlay staged slots slot) := by
  refine ⟨?_, hfull⟩
  rw [overlay]
  cases hlookup : staged.lookup slot with
  | none =>
    rw [Option.getD_none, ← h.slots slot hslot, length_slice_of_le (h.slot_within hslot)]
  | some fingerprint => exact (hstaged.proper _ (mem_of_lookup hlookup)).1

/-- The eviction loop ends without an error. The writes it stages are an eviction chain. -/
theorem IsFile.stageKicks_spec (hash : Hash) (n m left : Nat) :
    ∀ {kicks : Nat} {staged : Staged} {fingerprint : Bytes} {bucket : Nat}, StagedOk g staged →
      Proper g fingerprint → bucket < g.numBuckets →
      (∀ place, place < g.bucketSize → isEmpty (overlay staged slots (bucket, place)) = false) →
      ∃ result, stageKicks hash data (g.header n m) left kicks staged fingerprint bucket =
          .ok result ∧
        ∀ staged', result = some staged' → StagedOk g staged' ∧
          staged'.length ≤ staged.length + left + 1 ∧
          Evicts (pairing g hash) g.cells (tableOf (overlay staged slots)) fingerprint bucket
            (tableOf (overlay staged' slots)) := by
  induction left with
  | zero => intros; exact ⟨none, rfl, nofun⟩
  | succ left ih =>
    intro kicks staged fingerprint bucket hstaged hproper hbucket hfull
    have hplace : kicks % g.bucketSize < g.bucketSize := Nat.mod_lt _ g.size_pos
    have hcell : (bucket, kicks % g.bucketSize) ∈ g.cells := mem_cells.mpr ⟨hbucket, hplace⟩
    obtain ⟨evicted, hevicted⟩ :
        ∃ evicted, overlay staged slots (bucket, kicks % g.bucketSize) = evicted := ⟨_, rfl⟩
    have hevictedProper : Proper g evicted :=
      hevicted ▸ h.proper_overlay hstaged hcell (hfull _ hplace)
    have hread : readSlotStaged data (g.header n m) staged
        (bucket, kicks % (g.header n m).bucketSize) = .ok evicted :=
      hevicted ▸ h.readSlotStaged_eq staged hcell n m
    have hstaged₁ := hstaged.insert hcell hproper
    have hlen₁ := length_insert_le staged (bucket, kicks % g.bucketSize) fingerprint
    have halternate : alternateBucket hash bucket evicted g.numBuckets < g.numBuckets :=
      Nat.mod_lt _ g.buckets_pos
    -- the table with the fingerprint put in the place of the evicted one
    have htable : tableOf (overlay staged slots) (bucket, kicks % g.bucketSize) = some evicted := by
      rw [tableOf, hevicted, if_neg (by rw [hevictedProper.2]; exact Bool.false_ne_true)]
    have htable₁ : update (tableOf (overlay staged slots)) (bucket, kicks % g.bucketSize)
        (some fingerprint) = tableOf (overlay (staged.insert (bucket, kicks % g.bucketSize)
          fingerprint) slots) := by
      rw [overlay_insert, tableOf_update_proper _ _ hproper]
    rw [stageKicks, hread, ok_bind]
    dsimp only
    have hslots : ∀ slot ∈ slotsOf (g.header n m)
        [alternateBucket hash bucket evicted (g.header n m).numBuckets],
        slot.1 = alternateBucket hash bucket evicted g.numBuckets ∧ slot ∈ g.cells := by
      intro slot hmem
      obtain ⟨hslotBucket, hslotPlace⟩ := mem_slotsOf.mp hmem
      have heq := mem_singleton.mp hslotBucket
      exact ⟨heq, mem_cells.mpr ⟨by rw [heq]; exact halternate, hslotPlace⟩⟩
    rcases findSlot_spec isEmpty fun slot hmem => h.readSlotStaged_eq
        (staged.insert (bucket, kicks % g.bucketSize) fingerprint) (hslots slot hmem).2 n m with
      ⟨slot, hmem, hfound, hempty⟩ | ⟨hnone, hall⟩
    · obtain ⟨hslotBucket, hslotCell⟩ := hslots slot hmem
      refine ⟨_, by rw [show (g.header n m).bucketSize = g.bucketSize from rfl, hfound, ok_bind],
        fun staged' hsome => ?_⟩
      cases hsome
      have hlen₂ := length_insert_le (staged.insert (bucket, kicks % g.bucketSize) fingerprint)
        slot evicted
      refine ⟨hstaged₁.insert hslotCell hevictedProper, by omega, ?_⟩
      obtain ⟨slotBucket, place⟩ := slot
      subst hslotBucket
      rw [overlay_insert, tableOf_update_proper _ _ hevictedProper, ← htable₁]
      refine Evicts.place hcell htable hslotCell ?_
      rw [htable₁]
      exact if_pos hempty
    · obtain ⟨result, hresult, hspec⟩ := @ih (kicks + 1) _ _ _ hstaged₁ hevictedProper halternate
        fun place hlt => hall _ (mem_slotsOf.mpr ⟨mem_singleton.mpr rfl, hlt⟩)
      refine ⟨result, ?_, fun staged' hsome => ?_⟩
      · rw [show (g.header n m).bucketSize = g.bucketSize from rfl, hnone, ok_bind]
        exact hresult
      · obtain ⟨hok, hlen, hevicts⟩ := hspec staged' hsome
        refine ⟨hok, by omega, Evicts.kick hcell htable ?_⟩
        rw [htable₁]
        exact hevicts

end

/-- The images of staged writes put them all. -/
theorem IsFile.write_staged (n m : Nat) :
    ∀ {data : Bytes} {slots : Slot → Bytes}, IsFile g data items deletes slots → StagedOk g staged →
      IsFile g (writeImages (staged.map fun entry => slotImage (g.header n m) entry.1 entry.2) data)
        items deletes (overlay staged slots) := by
  induction staged with
  | nil => intro data slots h _; exact h
  | cons entry staged ih =>
    intro data slots h hok
    obtain ⟨slot, value⟩ := entry
    have hnodup := nodup_cons.mp hok.nodup
    have hwritten := h.write_slot (hok.cells _ mem_cons_self) (hok.proper _ mem_cons_self).1 n m
    have hrest := ih hwritten ⟨fun e he => hok.cells e (mem_cons_of_mem _ he),
      fun e he => hok.proper e (mem_cons_of_mem _ he), hnodup.2⟩
    have hoverlay : overlay staged (update slots slot value) =
        overlay ((slot, value) :: staged) slots := by
      funext other
      rw [overlay, overlay, lookup_cons]
      by_cases heq : other = slot
      · subst heq
        have hnone : staged.lookup other = none := by
          cases hlookup : staged.lookup other with
          | none => rfl
          | some found =>
            exact absurd (mem_map_of_mem (mem_of_lookup hlookup)) hnodup.1
        simp [hnone]
      · rw [beq_eq_false_iff_ne.mpr heq, update_of_ne heq]
    rw [hoverlay] at hrest
    exact hrest

/-! ## Plans -/

/-- Images below the token that fit a receipt. -/
def Modest (g : Geometry) (images : List AfterImage) : Prop :=
  images.length ≤ g.maxKicks + 3 ∧
    ∀ image ∈ images, image.stop ≤ g.layout.tokenOffset ∧ image.bytes.length ≤ 8

/-- Such images are committed. -/
theorem Modest.commit {images : List AfterImage} (h : Modest g images) (token : MutationToken)
    (result : UInt8) : ∃ steps, commit g.layout true token images [result] = .ok steps := by
  have hkicks := g.kicks_fit
  have hlength := h.1
  have hfits := g.layout.fits
  have hfooter := g.layout.footer
  have hin : ∀ image ∈ images, image.stop < 256 ^ 8 ∧ image.stop ≤ g.layout.fileSize := by
    intro image hmem
    have := (h.2 image hmem).1
    omega
  have hall : ∀ image ∈ images ++ [tokenImage g.layout token],
      image.stop < 256 ^ 8 ∧ image.stop ≤ g.layout.fileSize := by
    refine forall_mem_append.mpr ⟨hin, forall_mem_singleton.mpr ?_⟩
    exact ⟨hfits, le_refl _⟩
  have hbytes : ((images ++ [tokenImage g.layout token]).map
      fun image => 16 + image.bytes.length).sum ≤
        (images ++ [tokenImage g.layout token]).length * 32 := by
    rw [← length_map (fun image : AfterImage => 16 + image.bytes.length)]
    refine sum_le_card_nsmul _ _ fun size hsize => ?_
    obtain ⟨image, hmem, rfl⟩ := mem_map.mp hsize
    rcases mem_append.mp hmem with hmem | hmem
    · have := (h.2 image hmem).2
      omega
    · rw [mem_singleton.mp hmem, tokenImage, MutationToken.length_encode, tokenSize]
  rw [length_append, length_singleton] at hbytes
  have hvalid : (transactionOf g.layout token images [result]).Valid := by
    refine ⟨rfl, hfits, ?_, hall, show 1 < 256 ^ 4 by decide, ?_⟩
    · show (images ++ [tokenImage g.layout token]).length ≤ maxAfterImages
      rw [length_append, length_singleton, maxAfterImages]
      omega
    · show fixedHeaderSize + 1 + checksumSize + _ ≤ _
      refine (Nat.add_le_add_left hbytes _).trans ?_
      rw [fixedHeaderSize, checksumSize, maxTransactionBytes]
      omega
  rw [Prob.commit, validateTokenLocation_eq_ok_iff.mpr ⟨hfooter, hfits⟩, ok_bind,
    validateImages_eq_ok_iff.mpr ⟨by rw [maxAfterImages]; omega, hin⟩, ok_bind]
  dsimp only
  rw [validateTransactionEncoding_eq_ok_iff.mpr ⟨hvalid, rfl⟩]
  exact ⟨_, rfl⟩

/-- The class of a fingerprint and a bucket gets one more member if the element is in it. -/
def Joins (g : Geometry) (hash : Hash) (fingerprint : Bytes) (primary : Nat)
    (table table' : Table Nat Nat Bytes) : Prop :=
  (∀ f b, b < g.numBuckets → members (pairing g hash) g.cells table' f b =
    members (pairing g hash) g.cells table f b +
      if fingerprint = f ∧ (pairing g hash).InPair f b primary then 1 else 0) ∧
  occupied g.cells table' = occupied g.cells table + 1

variable {fingerprint : Bytes}

/-- The candidate buckets are the pair of the primary one. -/
theorem mem_candidateBuckets {primary bucket : Nat} :
    bucket ∈ candidateBuckets primary (alternateBucket hash primary fingerprint g.numBuckets) ↔
      (pairing g hash).InPair fingerprint primary bucket := by
  show _ ↔ bucket = primary ∨ bucket = alternateBucket hash primary fingerprint g.numBuckets
  rw [candidateBuckets, mem_cons]
  by_cases heq : alternateBucket hash primary fingerprint g.numBuckets = primary
  · rw [if_neg (not_not.mpr heq), heq]
    simp
  · rw [if_pos heq, mem_singleton]

variable {primary : Nat}

/-- The search through the candidate slots of an element. -/
theorem IsFile.findCandidate (h : IsFile g data items deletes slots) (hash : Hash)
    (passes : Bytes → Bool) (n m : Nat) (hprimary : primary < g.numBuckets) :
    (∃ slot, findSlot (readSlot data (g.header n m)) passes (slotsOf (g.header n m)
          (candidateBuckets primary (alternateBucket hash primary fingerprint g.numBuckets))) =
        .ok (some slot) ∧ slot ∈ g.cells ∧ (pairing g hash).InPair fingerprint primary slot.1 ∧
        passes (slots slot) = true) ∨
    (findSlot (readSlot data (g.header n m)) passes (slotsOf (g.header n m)
          (candidateBuckets primary (alternateBucket hash primary fingerprint g.numBuckets))) =
        .ok none ∧ ∀ slot ∈ g.cells, (pairing g hash).InPair fingerprint primary slot.1 →
          passes (slots slot) = false) := by
  have hslots : ∀ slot, slot ∈ slotsOf (g.header n m)
      (candidateBuckets primary (alternateBucket hash primary fingerprint g.numBuckets)) ↔
      slot ∈ g.cells ∧ (pairing g hash).InPair fingerprint primary slot.1 := by
    intro slot
    rw [mem_slotsOf, mem_candidateBuckets, mem_cells]
    constructor
    · rintro ⟨hpair, hplace⟩
      refine ⟨⟨?_, hplace⟩, hpair⟩
      rcases hpair with heq | heq
      · rw [heq]
        exact hprimary
      · rw [heq]
        exact Nat.mod_lt _ g.buckets_pos
    · rintro ⟨⟨-, hplace⟩, hpair⟩
      exact ⟨hpair, hplace⟩
  rcases findSlot_spec passes fun slot hmem => h.readSlot_eq ((hslots slot).mp hmem).1 n m with
    ⟨slot, hmem, hfound, hpass⟩ | ⟨hnone, hall⟩
  · obtain ⟨hcell, hpair⟩ := (hslots slot).mp hmem
    exact .inl ⟨slot, hfound, hcell, hpair, hpass⟩
  · exact .inr ⟨hnone, fun slot hcell hpair => hall slot ((hslots slot).mpr ⟨hcell, hpair⟩)⟩

/-- A fingerprint in an empty candidate slot joins its class. -/
theorem joins_place (hash : Hash) (hprimary : primary < g.numBuckets) (hcell : slot ∈ g.cells)
    (hpair : (pairing g hash).InPair fingerprint primary slot.1) {table : Table Nat Nat Bytes}
    (hempty : table slot = none) :
    Joins g hash fingerprint primary table (update table slot (some fingerprint)) := by
  refine ⟨fun f b hb => ?_, CuckooTable.occupied_place hcell hempty fingerprint⟩
  rw [CuckooTable.members_place hcell hempty]
  have hsame : (fingerprint = f ∧ (pairing g hash).InPair f b slot.1) ↔
      fingerprint = f ∧ (pairing g hash).InPair f b primary := by
    refine and_congr_right fun heq => ?_
    subst heq
    rcases hpair with hslot | hslot
    · rw [hslot]
    · rw [hslot]
      exact (pairing g hash).inPair_alternate (Finset.mem_range.mpr hb) (Finset.mem_range.mpr hprimary)
  rw [if_congr hsame rfl rfl]

theorem Geometry.slots_lt (g : Geometry) : g.numBuckets * g.bucketSize + 1 < 256 ^ 8 := by
  have hslots : g.numBuckets * g.bucketSize ≤ maxCuckooBucketBytes :=
    (Nat.le_mul_of_pos_right _ g.fingerprint_pos).trans g.bytes_fit
  rw [maxCuckooBucketBytes] at hslots
  omega

theorem occupied_le (slots : Slot → Bytes) :
    occupied g.cells (tableOf slots) ≤ g.numBuckets * g.bucketSize := by
  have hcells : g.cells.card = g.numBuckets * g.bucketSize := by simp [Geometry.cells]
  exact hcells ▸ Finset.card_filter_le _ _

/-- An insertion that is not refused as present puts the fingerprint into its class, or finds the
filter full. -/
theorem IsFile.placePlan_spec (h : IsFile g data items deletes slots) (hash : Hash)
    (hitems : items ≤ g.numBuckets * g.bucketSize)
    (hproper : Proper g fingerprint) (hprimary : primary < g.numBuckets) :
    (∃ images slots', placePlan hash data (g.header items deletes) fingerprint primary
          (alternateBucket hash primary fingerprint g.numBuckets) = .ok (images, 1) ∧
        Modest g images ∧ Joins g hash fingerprint primary (tableOf slots) (tableOf slots') ∧
        IsFile g (writeImages images data) (items + 1) deletes slots') ∨
    placePlan hash data (g.header items deletes) fingerprint primary
      (alternateBucket hash primary fingerprint g.numBuckets) = .error "filter is full" := by
  have hnext : items + 1 < 256 ^ 8 := (Nat.succ_le_succ hitems).trans_lt g.slots_lt
  have hcount : numItemsAfterInsert (g.header items deletes).numItems = .ok (items + 1) :=
    if_pos hnext
  rw [placePlan, hcount, ok_bind]
  rcases h.findCandidate hash isEmpty items deletes hprimary with
    ⟨slot, hfound, hcell, hpair, hempty⟩ | ⟨hnone, hfull⟩
  · left
    rw [hfound, ok_bind]
    refine ⟨_, update slots slot fingerprint, rfl, ⟨by simp, ?_⟩, ?_, ?_⟩
    · rw [forall_mem_cons, forall_mem_singleton]
      exact ⟨slotImage_modest hcell hproper.1 _ _, counterImage_modest (by decide)⟩
    · rw [tableOf_update_proper _ _ hproper]
      exact joins_place hash hprimary hcell hpair (if_pos hempty)
    · exact (h.write_slot hcell hproper.1 items deletes).write_items hnext
  · have hslotsFull : ∀ place, place < g.bucketSize →
        isEmpty (overlay [] slots (primary, place)) = false :=
      fun place hlt => hfull (primary, place) (mem_cells.mpr ⟨hprimary, hlt⟩) (.inl rfl)
    obtain ⟨result, hresult, hspec⟩ : ∃ result, stageEviction hash data (g.header items deletes)
        fingerprint primary = .ok result ∧ _ := h.stageKicks_spec hash items deletes g.maxKicks
      ⟨by simp, by simp, by simp⟩ hproper hprimary hslotsFull
    rw [hnone, ok_bind]
    rw [hresult, ok_bind]
    cases result with
    | none => exact .inr rfl
    | some staged =>
      left
      obtain ⟨hok, hlen, hevicts⟩ := hspec staged rfl
      have hperm : (sortedUpdates staged).Perm staged := mergeSort_perm _ _
      have hsorted : StagedOk g (sortedUpdates staged) :=
        ⟨fun entry hmem => hok.cells entry (hperm.mem_iff.mp hmem),
          fun entry hmem => hok.proper entry (hperm.mem_iff.mp hmem),
          (hperm.map _).nodup_iff.mpr hok.nodup⟩
      refine ⟨_, overlay staged slots, rfl, ⟨?_, ?_⟩, ?_, ?_⟩
      · rw [length_append, length_map, hperm.length_eq, length_singleton]
        rw [length_nil] at hlen
        omega
      · exact forall_mem_append.mpr ⟨forall_mem_map.mpr fun entry hentry =>
          slotImage_modest (hsorted.cells entry hentry) (hsorted.proper entry hentry).1 _ _,
          forall_mem_singleton.mpr (counterImage_modest (by decide))⟩
      · obtain ⟨hmembers, hoccupied⟩ := hevicts.counts (Finset.mem_range.mpr hprimary)
        exact ⟨fun f b hb => hmembers f b (Finset.mem_range.mpr hb), hoccupied⟩
      · rw [writeImages, foldl_append, ← writeImages]
        have hwritten := (h.write_staged items deletes hsorted).write_items hnext
        rw [overlay_perm hperm hok.nodup] at hwritten
        exact hwritten

/-- The fingerprint of an element in a filter of a geometry. -/
def fingerprintOf (g : Geometry) (hash : Hash) (element : Bytes) : Bytes :=
  (fingerprintAndBucket hash element g.fingerprintSize g.numBuckets).1

/-- The primary bucket of an element in a filter of a geometry. -/
def primaryOf (g : Geometry) (hash : Hash) (element : Bytes) : Nat :=
  (fingerprintAndBucket hash element g.fingerprintSize g.numBuckets).2

/-- The fingerprint of an element stands in one of its buckets exactly when its class has a
member. -/
theorem members_pos_iff (hproper : Proper g fingerprint) :
    0 < members (pairing g hash) g.cells (tableOf slots) fingerprint primary ↔
      ∃ slot ∈ g.cells, (pairing g hash).InPair fingerprint primary slot.1 ∧
        slots slot = fingerprint := by
  rw [members, Finset.card_pos]
  constructor
  · rintro ⟨slot, hslot⟩
    obtain ⟨hcell, htable, hpair⟩ := Finset.mem_filter.mp hslot
    rw [tableOf] at htable
    split_ifs at htable
    exact ⟨slot, hcell, hpair, Option.some.inj htable⟩
  · rintro ⟨slot, hcell, hpair, heq⟩
    refine ⟨slot, Finset.mem_filter.mpr ⟨hcell, ?_, hpair⟩⟩
    rw [tableOf, heq, if_neg (by rw [hproper.2]; exact Bool.false_ne_true)]

/-- The search for the fingerprint of an element through its slots. -/
def searchFingerprint (g : Geometry) (hash : Hash) (data : Bytes) (n m : Nat) (element : Bytes) :
    Except String (Option Slot) :=
  findSlot (readSlot data (g.header n m)) (· = fingerprintOf g hash element)
    (slotsOf (g.header n m) (candidateBuckets (primaryOf g hash element) (alternateBucket hash
      (primaryOf g hash element) (fingerprintOf g hash element) g.numBuckets)))

section

variable (g : Geometry) (hash : Hash) (data : Bytes) (element : Bytes)

theorem deletePlan_eq : deletePlan hash data (g.header items deletes) element = (do
    match ← searchFingerprint g hash data items deletes element with
    | some slot => do
      let nextItems ← numItemsAfterDelete items
      let nextDeletes ← numDeletesAfterDelete deletes
      .ok ([slotImage (g.header items deletes) slot (replicate g.fingerprintSize 0),
        itemsImage nextItems, deletesImage nextDeletes], 1)
    | none => .ok ([], 0)) := rfl

theorem plan_addNx_eq : Kind.plan .addNx hash data (g.header items deletes) element = (do
    match ← searchFingerprint g hash data items deletes element with
    | some _ => .ok ([], 0)
    | none =>
      placePlan hash data (g.header items deletes) (fingerprintOf g hash element)
        (primaryOf g hash element) (alternateBucket hash (primaryOf g hash element)
          (fingerprintOf g hash element) g.numBuckets)) := rfl

theorem existsInOpenFile_eq : existsInOpenFile hash data (g.header items deletes) element = (do
    match ← searchFingerprint g hash data items deletes element with
    | some _ => .ok 1
    | none => .ok 0) := rfl

end

/-- The search for the fingerprint of an element finds it exactly when its class has a member. -/
theorem IsFile.findFingerprint (h : IsFile g data items deletes slots) (hash : Hash) (element : Bytes)
    (n m : Nat) :
    (∃ slot, searchFingerprint g hash data n m element = .ok (some slot) ∧ slot ∈ g.cells ∧
        (pairing g hash).InPair (fingerprintOf g hash element) (primaryOf g hash element) slot.1 ∧
        slots slot = fingerprintOf g hash element ∧
        0 < members (pairing g hash) g.cells (tableOf slots) (fingerprintOf g hash element)
          (primaryOf g hash element)) ∨
    (searchFingerprint g hash data n m element = .ok none ∧
      members (pairing g hash) g.cells (tableOf slots) (fingerprintOf g hash element)
        (primaryOf g hash element) = 0) := by
  obtain ⟨hproper, hprimary⟩ := fingerprintAndBucket_spec g hash element
  rcases h.findCandidate hash (fun content => content = fingerprintOf g hash element) n m
      hprimary with ⟨slot, hfound, hcell, hpair, heq⟩ | ⟨hnone, hall⟩
  · have heq := of_decide_eq_true heq
    exact .inl ⟨slot, hfound, hcell, hpair, heq,
      (members_pos_iff hproper).mpr ⟨slot, hcell, hpair, heq⟩⟩
  · refine .inr ⟨hnone, Nat.eq_zero_of_not_pos fun hpos => ?_⟩
    obtain ⟨slot, hcell, hpair, heq⟩ := (members_pos_iff hproper).mp hpos
    exact of_decide_eq_false (hall slot hcell hpair) heq

/-- What a mutation's plan can come to on a filter file whose item count is right. -/
inductive Effect (g : Geometry) (hash : Hash) (data : Bytes) (items deletes : Nat)
    (slots : Slot → Bytes) (kind : Kind) (element : Bytes) :
    Except String (List AfterImage × Bytes) → Prop
  | joins {images slots'} : kind ≠ .delete → Modest g images →
      Joins g hash (fingerprintOf g hash element) (primaryOf g hash element) (tableOf slots)
        (tableOf slots') →
      IsFile g (writeImages images data) (items + 1) deletes slots' →
      Effect g hash data items deletes slots kind element (.ok (images, [1]))
  | leaves {images slots'} : kind = .delete → Modest g images →
      Joins g hash (fingerprintOf g hash element) (primaryOf g hash element) (tableOf slots')
        (tableOf slots) →
      IsFile g (writeImages images data) (items - 1) (deletes + 1) slots' →
      Effect g hash data items deletes slots kind element (.ok (images, [1]))
  | present : kind = .addNx →
      Effect g hash data items deletes slots kind element (.ok ([], [0]))
  | absent : kind = .delete → members (pairing g hash) g.cells (tableOf slots)
        (fingerprintOf g hash element) (primaryOf g hash element) = 0 →
      Effect g hash data items deletes slots kind element (.ok ([], [0]))
  | full : kind ≠ .delete →
      Effect g hash data items deletes slots kind element (.error "filter is full")
  | overflow : kind = .delete → 256 ^ 8 ≤ deletes + 1 →
      Effect g hash data items deletes slots kind element (.error "cuckoo num_deletes overflow")

section

variable (h : IsFile g data items deletes slots)
include h

/-- An insertion that goes on to place its fingerprint. -/
theorem IsFile.place_effect (hitems : items ≤ g.numBuckets * g.bucketSize) (hash : Hash)
    {kind : Kind} (hkind : kind ≠ .delete) (element : Bytes) :
    Effect g hash data items deletes slots kind element (do
      let (images, result) ← placePlan hash data (g.header items deletes)
        (fingerprintOf g hash element) (primaryOf g hash element) (alternateBucket hash
          (primaryOf g hash element) (fingerprintOf g hash element) g.numBuckets)
      .ok (images, [UInt8.ofNat result])) := by
  obtain ⟨hproper, hprimary⟩ := fingerprintAndBucket_spec g hash element
  rcases h.placePlan_spec hash hitems hproper hprimary with
    ⟨images, slots', hplan, hmodest, hjoins, hfile⟩ | hfull
  · rw [fingerprintOf, primaryOf, hplan, ok_bind]
    exact .joins hkind hmodest hjoins hfile
  · rw [fingerprintOf, primaryOf, hfull]
    exact .full hkind

/-- The plan of a deletion. -/
theorem IsFile.delete_effect (hcount : items = occupied g.cells (tableOf slots)) (hash : Hash)
    (element : Bytes) :
    Effect g hash data items deletes slots .delete element (do
      let (images, result) ← deletePlan hash data (g.header items deletes) element
      .ok (images, [UInt8.ofNat result])) := by
  obtain ⟨hproper, hprimary⟩ := fingerprintAndBucket_spec g hash element
  rw [deletePlan_eq]
  rcases h.findFingerprint hash element items deletes with
    ⟨slot, hfound, hcell, hpair, hslot, hpos⟩ | ⟨hnone, hzero⟩
  · rw [hfound, ok_bind]
    dsimp only
    -- the counter is positive, since the slot that was found is occupied
    have htable : tableOf slots slot = some (fingerprintOf g hash element) := by
      rw [tableOf, hslot]
      exact if_neg (by rw [show isEmpty (fingerprintOf g hash element) = false from hproper.2]; simp)
    have hempty : tableOf (update slots slot (replicate g.fingerprintSize 0)) =
        update (tableOf slots) slot none := by
      rw [tableOf_update, if_pos]
      simp [isEmpty]
    have hback : update (update (tableOf slots) slot none) slot
        (some (fingerprintOf g hash element)) = tableOf slots := by
      rw [update_idem, ← htable, update_eq_self]
    have hjoins : Joins g hash (fingerprintOf g hash element) (primaryOf g hash element)
        (update (tableOf slots) slot none) (tableOf slots) := by
      have hjoins := joins_place hash hprimary hcell hpair (update_self slot none (tableOf slots))
      rwa [hback] at hjoins
    have hitems : 0 < items := by
      rw [hcount, hjoins.2]
      exact Nat.succ_pos _
    rw [numItemsAfterDelete, if_pos hitems, ok_bind, numDeletesAfterDelete]
    by_cases hdeletes : deletes + 1 < 256 ^ 8
    · rw [if_pos hdeletes, ok_bind, ok_bind]
      have hzeros : (replicate g.fingerprintSize (0 : UInt8)).length = g.fingerprintSize :=
        length_replicate
      have hless : items - 1 < 256 ^ 8 := by
        have hslots := hcount.trans_le (occupied_le slots)
        have hfits := g.slots_lt
        omega
      refine .leaves rfl ⟨by simp, ?_⟩ (hempty ▸ hjoins) ?_
      · simp only [forall_mem_cons]
        exact ⟨slotImage_modest hcell hzeros _ _, counterImage_modest (by decide),
          counterImage_modest (by decide), by simp⟩
      · exact ((h.write_slot hcell hzeros items deletes).write_items hless).write_deletes hdeletes
    · rw [if_neg hdeletes]
      exact .overflow rfl (not_lt.mp hdeletes)
  · rw [hnone, ok_bind]
    exact .absent rfl hzero

/-- Every plan on a filter file has one of the effects. -/
theorem IsFile.planOf_effect (hcount : items = occupied g.cells (tableOf slots)) (hash : Hash)
    (kind : Kind) (element : Bytes) :
    Effect g hash data items deletes slots kind element
      (planOf hash (g.header 0 0) kind element data) := by
  have hitems : items ≤ g.numBuckets * g.bucketSize := hcount.trans_le (occupied_le slots)
  rw [planOf, h.readHeader_eq hitems, ok_bind, if_neg (by simp [Geometry.header])]
  cases kind with
  | delete => exact h.delete_effect hcount hash element
  | add => exact h.place_effect hitems hash (by simp) element
  | addNx =>
    rw [plan_addNx_eq]
    rcases h.findFingerprint hash element items deletes with ⟨slot, hfound, -⟩ | ⟨hnone, -⟩
    · rw [hfound]
      exact .present rfl
    · rw [hnone]
      exact h.place_effect hitems hash (by simp) element

end

/-! ## Runs -/

/-- An operation on a filter. -/
structure Operation where
  token : MutationToken
  kind : Kind
  element : Bytes

section

variable (g hash)

/-- An operation as a mutation of the transactions. -/
def Operation.issued (operation : Operation) : MutationToken × Mutation :=
  (operation.token,
    transactionalMutation hash (g.header 0 0) operation.kind operation.element operation.token)

/-- An operation succeeds when its result is 1. -/
def Operation.Succeeds (data : Bytes) (operation : Operation) : Prop :=
  (planOf hash (g.header 0 0) operation.kind operation.element data).toOption.map (·.2) = some [1]

instance (data : Bytes) (operation : Operation) : Decidable (operation.Succeeds g hash data) :=
  inferInstanceAs (Decidable (_ = _))

/-- The element of an operation belongs to the class of a fingerprint and a bucket. -/
def Operation.InClass (f : Bytes) (b : Nat) (operation : Operation) : Prop :=
  fingerprintOf g hash operation.element = f ∧
    (pairing g hash).InPair f b (primaryOf g hash operation.element)

instance (f : Bytes) (b : Nat) (operation : Operation) : Decidable (operation.InClass g hash f b) :=
  inferInstanceAs (Decidable (_ ∧ _))

/-- The additions to a class that succeed in a run. -/
def addsIn (f : Bytes) (b : Nat) : Ledger → List Operation → Nat
  | _, [] => 0
  | ledger, operation :: rest =>
    (if operation.kind ≠ .delete ∧ operation.InClass g hash f b ∧
        operation.Succeeds g hash ledger.data then 1 else 0) +
      addsIn f b (ledger.apply g.layout (operation.issued g hash)) rest

/-- The deletions from a class that succeed in a run. -/
def deletesIn (f : Bytes) (b : Nat) : Ledger → List Operation → Nat
  | _, [] => 0
  | ledger, operation :: rest =>
    (if operation.kind = .delete ∧ operation.InClass g hash f b ∧
        operation.Succeeds g hash ledger.data then 1 else 0) +
      deletesIn f b (ledger.apply g.layout (operation.issued g hash)) rest

/-- What a run makes of a filter: each operation applied once, in order. -/
def runFrom (ledger : Ledger) (operations : List Operation) : Ledger :=
  operations.foldl (fun ledger operation => ledger.apply g.layout (operation.issued g hash)) ledger

/-- The content of the slots of a file. -/
def slotsIn (data : Bytes) (slot : Slot) : Bytes :=
  slice data (slotOffset slot g.bucketSize g.fingerprintSize) g.fingerprintSize

/-- The slots of a pair of buckets that hold a fingerprint. -/
def classCount (data : Bytes) (f : Bytes) (b : Nat) : Nat :=
  members (pairing g hash) g.cells (tableOf (slotsIn g data)) f b

/-- The slots that are not empty. -/
def usedSlots (data : Bytes) : Nat := occupied g.cells (tableOf (slotsIn g data))

end

/-- The counts of a file are those of its slots. -/
theorem IsFile.counts (h : IsFile g data items deletes slots) (hash : Hash) :
    (∀ f b, classCount g hash data f b = members (pairing g hash) g.cells (tableOf slots) f b) ∧
      usedSlots g data = occupied g.cells (tableOf slots) := by
  have htable : ∀ slot ∈ g.cells, tableOf (slotsIn g data) slot = tableOf slots slot := by
    intro slot hslot
    rw [tableOf, tableOf, slotsIn, h.slots slot hslot]
  constructor
  · intro f b
    exact congrArg Finset.card (Finset.filter_congr fun slot hslot => by rw [htable slot hslot])
  · exact congrArg Finset.card (Finset.filter_congr fun slot hslot => by rw [htable slot hslot])

/-- A filter file whose item count is the number of its used slots. -/
def Counted (g : Geometry) (data : Bytes) (items deletes : Nat) : Prop :=
  ∃ slots, IsFile g data items deletes slots ∧ items = occupied g.cells (tableOf slots)

variable {ledger : Ledger} {operation : Operation}

/-- An operation that plans images applies them and its token. -/
theorem apply_of_plan {images : List AfterImage} {result : UInt8} (hmodest : Modest g images)
    (hplan : planOf hash (g.header 0 0) operation.kind operation.element ledger.data =
      .ok (images, [result])) :
    (ledger.apply g.layout (operation.issued g hash)).data =
      (tokenImage g.layout operation.token).write (writeImages images ledger.data) := by
  obtain ⟨steps, hsteps⟩ := hmodest.commit operation.token result
  rw [Ledger.apply, Operation.issued, transactionalMutation]
  dsimp only
  rw [hplan]
  dsimp only
  rw [hsteps]
  rw [writeImages, foldl_append]
  rfl

/-- An operation whose plan fails changes nothing. -/
theorem apply_of_error {error : String}
    (hplan : planOf hash (g.header 0 0) operation.kind operation.element ledger.data =
      .error error) : ledger.apply g.layout (operation.issued g hash) = ledger := by
  rw [Ledger.apply, Operation.issued, transactionalMutation]
  dsimp only
  rw [hplan]

/-- One operation moves the count of every class by what it adds or deletes. -/
theorem Counted.step (h : Counted g ledger.data items deletes) (hash : Hash)
    (operation : Operation) :
    (∃ items' deletes',
      Counted g (ledger.apply g.layout (operation.issued g hash)).data items' deletes') ∧
    ∀ f b, b < g.numBuckets →
      classCount g hash (ledger.apply g.layout (operation.issued g hash)).data f b +
          (if operation.kind = .delete ∧ operation.InClass g hash f b ∧
            operation.Succeeds g hash ledger.data then 1 else 0) =
        classCount g hash ledger.data f b +
          (if operation.kind ≠ .delete ∧ operation.InClass g hash f b ∧
            operation.Succeeds g hash ledger.data then 1 else 0) := by
  obtain ⟨slots, hfile, hcount⟩ := h
  have hbefore := (hfile.counts hash).1
  have heffect := hfile.planOf_effect hcount hash operation.kind operation.element
  generalize hplan : planOf hash (g.header 0 0) operation.kind operation.element ledger.data = plan
    at heffect
  have hsucceeds : operation.Succeeds g hash ledger.data ↔ plan.toOption.map (·.2) = some [1] := by
    rw [Operation.Succeeds, hplan]
  by_cases hok : operation.Succeeds g hash ledger.data
  · simp only [hok, and_true]
    cases heffect with
    | joins hkind hmodest hjoins hfile' =>
      have hfile'' := hfile'.write_token operation.token
      rw [apply_of_plan hmodest hplan]
      refine ⟨⟨_, _, _, hfile'', by rw [hjoins.2, hcount]⟩, fun f b hb => ?_⟩
      rw [(hfile''.counts hash).1, hbefore, hjoins.1 f b hb]
      simp only [hkind, false_and, if_false, ne_eq, not_false_eq_true, true_and]
      rfl
    | leaves hkind hmodest hjoins hfile' =>
      have hfile'' := hfile'.write_token operation.token
      rw [apply_of_plan hmodest hplan]
      refine ⟨⟨_, _, _, hfile'', by rw [hcount, hjoins.2, Nat.add_sub_cancel]⟩, fun f b hb => ?_⟩
      rw [(hfile''.counts hash).1, hbefore, hjoins.1 f b hb]
      simp only [hkind, ne_eq, not_true_eq_false, false_and, if_false, true_and]
      rfl
    | _ => exact absurd (hsucceeds.mp hok) (by simp [Except.toOption])
  · -- an operation that does not succeed leaves the slots
    have hfile' : IsFile g (ledger.apply g.layout (operation.issued g hash)).data items deletes
        slots := by
      cases heffect with
      | joins | leaves => exact absurd (hsucceeds.mpr rfl) hok
      | present | absent =>
        have hempty : Modest g [] := ⟨Nat.zero_le _, by simp⟩
        rw [apply_of_plan hempty hplan]
        exact hfile.write_token operation.token
      | full | overflow =>
        rw [apply_of_error hplan]
        exact hfile
    refine ⟨⟨_, _, _, hfile', hcount⟩, fun f b _ => ?_⟩
    rw [(hfile'.counts hash).1, hbefore, if_neg fun hand => hok hand.2.2,
      if_neg fun hand => hok hand.2.2]

/-- Over a run the count of every class moves by its additions and deletions. -/
theorem Counted.run (hash : Hash) (operations : List Operation) :
    ∀ {ledger : Ledger} {items deletes : Nat}, Counted g ledger.data items deletes →
      (∃ items' deletes', Counted g (runFrom g hash ledger operations).data items' deletes') ∧
      ∀ f b, b < g.numBuckets → classCount g hash (runFrom g hash ledger operations).data f b +
            deletesIn g hash f b ledger operations =
          classCount g hash ledger.data f b + addsIn g hash f b ledger operations := by
  induction operations with
  | nil => intro ledger items deletes h; exact ⟨⟨items, deletes, h⟩, fun _ _ _ => rfl⟩
  | cons operation operations ih =>
    intro ledger items deletes h
    obtain ⟨⟨items', deletes', hcounted⟩, hstep⟩ := h.step hash operation
    obtain ⟨hend, hrun⟩ := ih hcounted
    refine ⟨hend, fun f b hb => ?_⟩
    have hone := hstep f b hb
    have hrest := hrun f b hb
    rw [runFrom, foldl_cons, ← runFrom, deletesIn, addsIn]
    omega

/-- A new filter file is empty. -/
theorem created_counted (g : Geometry) : Counted g g.created 0 0 ∧
    ∀ hash f b, classCount g hash g.created f b = 0 := by
  have hlen : g.created.length = g.layout.fileSize := by
    rw [Geometry.created, length_append, length_head, length_replicate]
    show _ = headerSize + g.numBuckets * g.bucketSize * g.fingerprintSize + tokenSize
    rw [headerSize]
    omega
  have hzero : ∀ start len, start + len ≤
      16 + g.numBuckets * g.bucketSize * g.fingerprintSize + tokenSize →
      slice g.created (11 + start) len = replicate len 0 := by
    intro start len hle
    rw [Geometry.created, ← length_head g, slice_append_right, slice, drop_replicate,
      take_replicate]
    congr 1
    omega
  have hslot : ∀ slot ∈ g.cells, slice g.created (g.offset slot)
      g.fingerprintSize = replicate g.fingerprintSize 0 := by
    intro slot hcell
    have hstop := slot_stop_le hcell
    have hoffset : g.layout.tokenOffset =
        headerSize + g.numBuckets * g.bucketSize * g.fingerprintSize := rfl
    have hheader : headerSize = 27 := rfl
    obtain ⟨start, hstart⟩ : ∃ start, g.offset slot = 11 + start :=
      Nat.exists_eq_add_of_le (le_trans (by decide) (Nat.le_add_right headerSize _))
    rw [hstart]
    exact hzero start _ (by omega)
  have hcounter : leNat (replicate 8 0) = 0 := by decide
  have hempty : tableOf (fun _ : Slot => replicate g.fingerprintSize 0) = fun _ => none := by
    funext slot
    rw [tableOf, if_pos (by simp [isEmpty])]
  have hfile : IsFile g g.created 0 0 fun _ => replicate g.fingerprintSize 0 := by
    refine ⟨hlen, slice_front (length_head g), ?_, ?_, hslot⟩
    · rw [show offNumItems = 11 + 0 from rfl, hzero 0 8 (by omega), hcounter]
    · rw [show offNumDeletes = 11 + 8 from rfl, hzero 8 8 (by omega), hcounter]
  refine ⟨⟨_, hfile, ?_⟩, fun hash f b => ?_⟩
  · rw [hempty, occupied]
    simp
  · rw [(hfile.counts hash).1, hempty, members]
    simp

/-- The filter after operations on a new file. -/
def filterAfter (g : Geometry) (hash : Hash) (operations : List Operation) : Ledger :=
  runFrom g hash ⟨g.created, none⟩ operations

/-- A lookup reports an element present exactly when its class has a member. -/
theorem IsFile.exists_eq (h : IsFile g data items deletes slots) (hash : Hash) (element : Bytes) :
    existsInOpenFile hash data (g.header items deletes) element =
      .ok (if 0 < classCount g hash data (fingerprintOf g hash element) (primaryOf g hash element)
        then 1 else 0) := by
  rw [existsInOpenFile_eq, (h.counts hash).1]
  rcases h.findFingerprint hash element items deletes with
    ⟨slot, hfound, -, -, -, hpos⟩ | ⟨hnone, hzero⟩
  · rw [hfound, ok_bind, if_pos hpos]
  · rw [hnone, ok_bind, if_neg (by rw [hzero]; exact lt_irrefl 0)]

section

variable (h : IsFile g data items deletes slots) (hcount : items = occupied g.cells (tableOf slots))
include h hcount

/-- A deletion succeeds exactly when the class of its element has a member, as long as the delete
counter has room. -/
theorem IsFile.delete_succeeds_iff (hroom : deletes + 1 < 256 ^ 8)
    (operation : Operation) (hkind : operation.kind = .delete) :
    operation.Succeeds g hash data ↔ 0 < classCount g hash data
      (fingerprintOf g hash operation.element) (primaryOf g hash operation.element) := by
  have heffect := h.planOf_effect hcount hash operation.kind operation.element
  rw [Operation.Succeeds, (h.counts hash).1]
  generalize planOf hash (g.header 0 0) operation.kind operation.element data = plan at heffect
  cases heffect with
  | joins hne => exact absurd hkind hne
  | leaves _ _ hjoins _ =>
    refine iff_of_true rfl ?_
    have hprimary : primaryOf g hash operation.element < g.numBuckets :=
      (fingerprintAndBucket_spec g hash operation.element).2
    rw [hjoins.1 _ _ hprimary, if_pos ⟨rfl, .inl rfl⟩]
    exact Nat.succ_pos _
  | present hnx => rw [hkind] at hnx; cases hnx
  | absent _ hzero =>
    refine iff_of_false (by decide) ?_
    rw [hzero]
    exact lt_irrefl 0
  | full hne => exact absurd hkind hne
  | overflow _ hmany => exact absurd hroom (not_lt.mpr hmany)

/-- An insertion fails only on a full filter. -/
theorem IsFile.insert_error {error : String} (hkind : operation.kind ≠ .delete)
    (herror : planOf hash (g.header 0 0) operation.kind operation.element data = .error error) :
    error = "filter is full" := by
  have heffect := h.planOf_effect hcount hash operation.kind operation.element
  rw [herror] at heffect
  cases heffect with
  | full => rfl
  | overflow hdelete => exact absurd hdelete hkind

end

/-- After any operations on a new filter: every class holds what was added to it and not deleted, the
item count is the number of used slots, an insertion that fails finds the filter full and changes
nothing, an element is reported present exactly when its class has a member, and as long as the
delete counter has room a deletion succeeds exactly then. -/
theorem cuckoo_filter_counts (g : Geometry) (hash : Hash) (operations : List Operation) :
    (∃ items deletes,
      readHeader (filterAfter g hash operations).data = .ok (g.header items deletes) ∧
      items = usedSlots g (filterAfter g hash operations).data ∧
      (∀ element, existsInOpenFile hash (filterAfter g hash operations).data
        (g.header items deletes) element =
          .ok (if 0 < classCount g hash (filterAfter g hash operations).data
            (fingerprintOf g hash element) (primaryOf g hash element) then 1 else 0)) ∧
      (deletes + 1 < 256 ^ 8 → ∀ operation : Operation, operation.kind = .delete →
        (operation.Succeeds g hash (filterAfter g hash operations).data ↔
          0 < classCount g hash (filterAfter g hash operations).data
            (fingerprintOf g hash operation.element) (primaryOf g hash operation.element)))) ∧
    (∀ f b, b < g.numBuckets → classCount g hash (filterAfter g hash operations).data f b +
          deletesIn g hash f b ⟨g.created, none⟩ operations =
        addsIn g hash f b ⟨g.created, none⟩ operations) ∧
    (∀ (operation : Operation) (error : String), operation.kind ≠ .delete →
      planOf hash (g.header 0 0) operation.kind operation.element
        (filterAfter g hash operations).data = .error error →
      error = "filter is full" ∧ (filterAfter g hash operations).apply g.layout
        (operation.issued g hash) = filterAfter g hash operations) := by
  obtain ⟨hcreated, hempty⟩ := created_counted g
  have hstart : Counted g (⟨g.created, none⟩ : Ledger).data 0 0 := hcreated
  obtain ⟨⟨items, deletes, slots, hfile, hcount⟩, hclasses⟩ := Counted.run hash operations hstart
  have hitems : items ≤ g.numBuckets * g.bucketSize := hcount.trans_le (occupied_le slots)
  refine ⟨⟨items, deletes, hfile.readHeader_eq hitems, ?_, fun element => hfile.exists_eq hash element,
    fun hroom operation hkind => hfile.delete_succeeds_iff hcount hroom operation hkind⟩,
    fun f b hb => ?_, fun operation error hkind herror =>
      ⟨hfile.insert_error hcount hkind herror, apply_of_error herror⟩⟩
  · exact hcount.trans (hfile.counts hash).2.symm
  · have hrun := hclasses f b hb
    rw [hempty, Nat.zero_add] at hrun
    exact hrun

/-- A filter of one slot. -/
def oneSlot : Geometry :=
  ⟨1, 1, 1, 1, by decide, by decide, by decide, by decide, by decide, by decide, by decide,
    by decide, by decide⟩

/-- A hash function under which all elements collide. -/
def flatHash : Hash := ⟨fun _ => List.replicate 16 0, fun _ => rfl⟩

/-- An element was added and not deleted, and is reported absent: the deletion of another element of
its class took its fingerprint. -/
theorem colliding_delete_removes_element :
    (Operation.mk ⟨1, 1⟩ .add [97]).Succeeds oneSlot flatHash oneSlot.created ∧
    (Operation.mk ⟨2, 1⟩ .delete [98]).Succeeds oneSlot flatHash
      (filterAfter oneSlot flatHash [⟨⟨1, 1⟩, .add, [97]⟩]).data ∧
    existsInOpenFile flatHash
      (filterAfter oneSlot flatHash [⟨⟨1, 1⟩, .add, [97]⟩, ⟨⟨2, 1⟩, .delete, [98]⟩]).data
      (oneSlot.header 0 1) [97] = .ok 0 := by
  decide +kernel

/-- A filter of two buckets with a slot each. -/
def twoSlots : Geometry :=
  ⟨2, 1, 1, 1, by decide, by decide, by decide, by decide, by decide, by decide, by decide,
    by decide, by decide⟩

/-- A hash function that keeps the first bytes: an element starts with its fingerprint and its
bucket. -/
def firstBytes : Hash :=
  ⟨fun bytes => (bytes ++ List.replicate 16 0).take 16, fun bytes => by simp⟩

/-- An element is added and deleted, another one is added, and a third one evicts it. -/
def evicting : List Operation :=
  [⟨⟨1, 1⟩, .add, [3, 1]⟩, ⟨⟨2, 1⟩, .delete, [3, 1]⟩, ⟨⟨3, 1⟩, .add, [1, 0]⟩, ⟨⟨4, 1⟩, .add, [2, 0]⟩]

/-- The element that is evicted from the only bucket of the third one keeps its place in the filter,
and the deleted one has none. -/
theorem cuckoo_filter_counts_evicting :
    let data := (filterAfter twoSlots firstBytes evicting).data
    classCount twoSlots firstBytes data [1] 0 = 1 ∧ classCount twoSlots firstBytes data [2] 0 = 1 ∧
      classCount twoSlots firstBytes data [3] 1 = 0 := by
  have hclass := (cuckoo_filter_counts twoSlots firstBytes evicting).2.1
  have hadds : addsIn twoSlots firstBytes [1] 0 ⟨twoSlots.created, none⟩ evicting = 1 ∧
      addsIn twoSlots firstBytes [2] 0 ⟨twoSlots.created, none⟩ evicting = 1 ∧
      addsIn twoSlots firstBytes [3] 1 ⟨twoSlots.created, none⟩ evicting = 1 := by
    decide +kernel
  have hdeletes : deletesIn twoSlots firstBytes [1] 0 ⟨twoSlots.created, none⟩ evicting = 0 ∧
      deletesIn twoSlots firstBytes [2] 0 ⟨twoSlots.created, none⟩ evicting = 0 ∧
      deletesIn twoSlots firstBytes [3] 1 ⟨twoSlots.created, none⟩ evicting = 1 := by
    decide +kernel
  have hevicted := hclass [1] 0 (by decide)
  have hplaced := hclass [2] 0 (by decide)
  have hdeleted := hclass [3] 1 (by decide)
  omega

end FerricStore.Prob.Cuckoo
