import FerricStore.Prob.Txn

/-!
# Recovery of a transaction

Writing all images of a transaction ends in the same file wherever an earlier attempt was cut
(`writeImages_redo`), so a recovery that starts over is right. Whether it starts over is decided by
the token in the footer: `recover_data` says what a recovery leaves. After a loss of power the token
may be in the file while other images are not, and then recovery skips them.
-/

namespace FerricStore.Prob

open List

/-- An image covers a position of the file. -/
def AfterImage.Covers (image : AfterImage) (position : Nat) : Prop :=
  image.offset ≤ position ∧ position < image.stop

variable {image : AfterImage} {data : Bytes}

theorem length_write (h : image.stop ≤ data.length) : (image.write data).length = data.length := by
  rw [AfterImage.write, length_overwrite]
  exact max_eq_left h

variable {position : Nat}

/-- The byte at a position that an image covers is the image's. -/
theorem getElem?_write_covered (hcovers : image.Covers position) :
    (image.write data)[position]? = image.bytes[position - image.offset]? := by
  obtain ⟨hlow, hhigh⟩ := hcovers
  rw [AfterImage.stop] at hhigh
  rw [AfterImage.write, overwrite, getElem?_append_right (by rw [length_resize]; exact hlow),
    length_resize, getElem?_append_left (by omega)]

/-- The other bytes stay. -/
theorem getElem?_write_other (h : image.stop ≤ data.length) (hother : ¬image.Covers position) :
    (image.write data)[position]? = data[position]? := by
  rw [AfterImage.Covers, not_and_or, not_le, not_lt] at hother
  rw [AfterImage.stop] at h hother
  rw [AfterImage.write, overwrite]
  rcases hother with hlow | hhigh
  · rw [getElem?_append_left (by rw [length_resize]; exact hlow), resize,
      getElem?_append_left (by rw [length_take]; omega), getElem?_take_of_lt hlow]
  · rw [getElem?_append_right (by rw [length_resize]; omega), length_resize,
      getElem?_append_right (by omega), getElem?_drop]
    congr 1
    omega

/-- All images of a list lie in a file of a size. -/
def Within (size : Nat) (images : List AfterImage) : Prop :=
  ∀ image ∈ images, image.stop ≤ size

variable {images : List AfterImage}

/-- Writing images that lie in the file keeps its length. -/
theorem length_writeImages :
    ∀ {data : Bytes}, Within data.length images → (writeImages images data).length = data.length := by
  induction images with
  | nil => intros; rfl
  | cons image images ih =>
    intro data h
    have hlen := length_write (h image mem_cons_self)
    rw [writeImages, foldl_cons, ← writeImages, ih, hlen]
    rw [hlen]
    exact (forall_mem_cons.mp h).2

/-- A position that no image covers keeps its byte. -/
theorem getElem?_writeImages_other :
    ∀ {data : Bytes}, Within data.length images → (∀ image ∈ images, ¬image.Covers position) →
      (writeImages images data)[position]? = data[position]? := by
  induction images with
  | nil => intros; rfl
  | cons image images ih =>
    intro data h hother
    have hlen := length_write (h image mem_cons_self)
    rw [writeImages, foldl_cons, ← writeImages, ih,
      getElem?_write_other (h image mem_cons_self) (hother image mem_cons_self)]
    · rw [hlen]
      exact (forall_mem_cons.mp h).2
    · exact (forall_mem_cons.mp hother).2

/-- What images leave does not depend on what stood where they are put. -/
theorem writeImages_congr :
    ∀ {data other : Bytes}, data.length = other.length → Within data.length images →
      (∀ position, (∀ image ∈ images, ¬image.Covers position) →
        data[position]? = other[position]?) →
      writeImages images data = writeImages images other := by
  induction images with
  | nil =>
    intro data other _ _ hagree
    exact ext_getElem? fun position => hagree position nofun
  | cons image images ih =>
    intro data other hlen h hagree
    have hfirst : image.stop ≤ data.length := h image mem_cons_self
    have hother : image.stop ≤ other.length := hlen ▸ hfirst
    apply ih
    · rw [length_write hfirst, length_write hother, hlen]
    · rw [length_write hfirst]
      exact (forall_mem_cons.mp h).2
    · intro position hlater
      by_cases hcovers : image.Covers position
      · rw [getElem?_write_covered hcovers, getElem?_write_covered hcovers]
      · rw [getElem?_write_other hfirst hcovers, getElem?_write_other hother hcovers]
        exact hagree position (forall_mem_cons.mpr ⟨hcovers, hlater⟩)

/-- Writing all images ends in the same file whichever of them were written before, in whichever
order. -/
theorem writeImages_redo {images written : List AfterImage}
    (h : Within data.length images) (hwritten : ∀ image ∈ written, image ∈ images) :
    writeImages images (writeImages written data) = writeImages images data := by
  have hin : Within data.length written := fun image hmem => h image (hwritten image hmem)
  apply writeImages_congr (length_writeImages hin)
  · rw [length_writeImages hin]
    exact h
  · intro position hother
    exact getElem?_writeImages_other hin fun image hmem => hother image (hwritten image hmem)

/-- Images below a range leave it. -/
theorem slice_writeImages {start len : Nat} :
    ∀ {data : Bytes}, Within start images → start + len ≤ data.length →
      slice (writeImages images data) start len = slice data start len := by
  induction images with
  | nil => intros; rfl
  | cons image images ih =>
    intro data h hlen
    have hfirst : image.stop ≤ start := h image mem_cons_self
    rw [writeImages, foldl_cons, ← writeImages, ih, AfterImage.write,
      slice_overwrite_after _ _ hfirst]
    · exact (forall_mem_cons.mp h).2
    · rw [length_write (by omega)]
      exact hlen

/-- The token that the last image puts into the footer. -/
theorem readToken_tokenImage {layout : Layout} (token : MutationToken)
    (hlen : data.length = layout.fileSize) :
    readToken ((tokenImage layout token).write data) layout.tokenOffset = .ok token := by
  have hstop : (tokenImage layout token).stop ≤ data.length := by
    rw [hlen, ← layout.footer, AfterImage.stop, tokenImage, MutationToken.length_encode]
  have hslice := slice_overwrite data layout.tokenOffset token.encode
  rw [MutationToken.length_encode] at hslice
  rw [readToken, length_write hstop, if_pos (by rw [hlen, layout.footer]), AfterImage.write]
  show MutationToken.decode (slice (overwrite data layout.tokenOffset token.encode) _ _) = _
  rw [hslice, MutationToken.decode_encode]

/-- The steps that put images put them. -/
theorem exec_writes (images : List AfterImage) (files : Files) :
    Kill.runSteps Step.exec (images.map .write) files =
      { files with data := writeImages images files.data } := by
  induction images generalizing files with
  | nil => rfl
  | cons image images ih => rw [map_cons, Kill.runSteps_cons, ih]; rfl

/-- The transaction of a compacted receipt. -/
def Transaction.compacted (transaction : Transaction) : Transaction :=
  { transaction with images := [] }

/-- Compacting does nothing, or publishes the receipt without images. -/
theorem compact_cases (compacts : Bool) (transaction : Transaction) :
    compactReceiptIfLarge compacts transaction = [] ∨ transaction.compacted.Valid ∧
      compactReceiptIfLarge compacts transaction = [.publish transaction.compacted.encode] := by
  rw [compactReceiptIfLarge]
  cases validateTransactionEncoding transaction with
  | error _ => exact .inl rfl
  | ok size =>
    dsimp only
    by_cases hlarge : size < compactReceiptThresholdBytes ∨ transaction.images = []
    · exact .inl (if_pos hlarge)
    · rw [if_neg hlarge]
      cases hcompact : validateTransactionEncoding { transaction with images := [] } with
      | error _ => exact .inl rfl
      | ok _ =>
        cases compacts with
        | false => exact .inl rfl
        | true => exact .inr ⟨(validateTransactionEncoding_eq_ok_iff.mp hcompact).1, rfl⟩

theorem exec_compact (compacts : Bool) (transaction : Transaction) (files : Files) :
    (Kill.runSteps Step.exec (compactReceiptIfLarge compacts transaction) files).data =
      files.data := by
  rcases compact_cases compacts transaction with h | ⟨-, h⟩ <;> rw [h] <;> rfl

/-! ## Loss of power -/

/-- The data that a crash leaves when only some of the images written since the last sync have
reached the disk, in some order. -/
def crashed (survivors : List AfterImage) (data : Bytes) : Bytes := writeImages survivors data

/-- What a recovery from a published receipt leaves in the file: the complete after-image if the
token in the footer is older than the receipt's, and the file as it is otherwise. -/
theorem recover_data {layout : Layout} {transaction : Transaction}
    {current : MutationToken} (pending : Option Bytes) (compacts : Bool)
    (hvalid : transaction.Valid) (hoffset : transaction.tokenOffset = layout.tokenOffset)
    (hsize : transaction.expectedFileSize = layout.fileSize)
    (hcurrent : readToken data layout.tokenOffset = .ok current) :
    ∃ steps, recover layout compacts ⟨data, some transaction.encode, pending⟩ = .ok steps ∧
      (Kill.runSteps Step.exec steps ⟨data, some transaction.encode, pending⟩).data =
        if current < transaction.token then writeImages transaction.images data else data := by
  rw [recover, validateTokenLocation_eq_ok_iff.mpr ⟨layout.footer, layout.fits⟩, ok_bind,
    readTransactionIfPresent]
  dsimp only
  rw [decodeTransaction_encode hvalid, ok_bind, ok_bind]
  dsimp only
  rw [if_neg (by simp [hoffset, hsize]), hcurrent, ok_bind]
  refine ⟨_, rfl, ?_⟩
  rw [Kill.runSteps_append, Kill.runSteps_append, exec_compact, if_neg Bool.false_ne_true,
    Kill.runSteps_nil]
  split_ifs with hold
  · rw [applyTransaction, Kill.runSteps_append, exec_writes]
    rfl
  · rfl

/-- A published transaction survives a loss of power exactly when the token in the file is still
older than its token, or all of its images are already there: then recovery leaves the complete
after-image. Beside a published receipt recovery does not look at a pending one, so there is none
here. -/
theorem power_loss_recovers_iff (layout : Layout) (transaction : Transaction) (data : Bytes)
    (survivors : List AfterImage) (current : MutationToken) (compacts : Bool)
    (hvalid : transaction.Valid) (hoffset : transaction.tokenOffset = layout.tokenOffset)
    (hsize : transaction.expectedFileSize = layout.fileSize) (hlen : data.length = layout.fileSize)
    (hsurvivors : ∀ image ∈ survivors, image ∈ transaction.images)
    (hcurrent : readToken (crashed survivors data) layout.tokenOffset = .ok current) :
    (∃ steps, recover layout compacts ⟨crashed survivors data, some transaction.encode, none⟩ =
        .ok steps ∧
      (Kill.runSteps Step.exec steps ⟨crashed survivors data, some transaction.encode, none⟩).data =
        writeImages transaction.images data) ↔
    current < transaction.token ∨ crashed survivors data = writeImages transaction.images data := by
  have hin : Within data.length transaction.images := by
    intro image hmem
    rw [hlen, ← hsize]
    exact (hvalid.images image hmem).2
  obtain ⟨steps, hsteps, hdata⟩ := recover_data none compacts hvalid hoffset hsize hcurrent
  rw [crashed, writeImages_redo hin hsurvivors, ← crashed] at hdata
  constructor
  · rintro ⟨steps', hsteps', hcomplete⟩
    cases hsteps.symm.trans hsteps'
    by_cases hold : current < transaction.token
    · exact .inl hold
    · rw [if_neg hold] at hdata
      exact .inr (hdata.symm.trans hcomplete)
  · intro hwhen
    refine ⟨steps, hsteps, hdata.trans ?_⟩
    split_ifs with hold
    · rfl
    · exact hwhen.resolve_left hold

/-- A sidecar of 64 bytes. -/
def sampleLayout : Layout := ⟨48, 64, rfl, by decide⟩

/-- A transaction that puts three bytes at offset 8. -/
def sampleTransaction : Transaction := transactionOf sampleLayout ⟨7, 1⟩ [⟨8, [9, 8, 7]⟩] [3, 4, 5]

theorem sampleTransaction_valid : sampleTransaction.Valid := by
  have hsize : validateTransactionEncoding sampleTransaction = .ok 114 := by decide +kernel
  exact (validateTransactionEncoding_eq_ok_iff.mp hsize).1

/-- The token has reached the disk and the other image has not: recovery succeeds and leaves the
bytes as they were before the transaction. -/
theorem power_loss_skips_image : ∃ steps, recover sampleLayout true
        ⟨crashed [tokenImage sampleLayout ⟨7, 1⟩] (replicate 64 0),
          some sampleTransaction.encode, none⟩ = .ok steps ∧
      slice (Kill.runSteps Step.exec steps
        ⟨crashed [tokenImage sampleLayout ⟨7, 1⟩] (replicate 64 0),
          some sampleTransaction.encode, none⟩).data 8 3 = [0, 0, 0] ∧
      slice (writeImages sampleTransaction.images (replicate 64 0)) 8 3 = [9, 8, 7] := by
  have htoken : readToken (crashed [tokenImage sampleLayout ⟨7, 1⟩] (replicate 64 0)) 48 =
      .ok ⟨7, 1⟩ := by decide +kernel
  obtain ⟨steps, hsteps, hdata⟩ := recover_data none true sampleTransaction_valid rfl rfl htoken
  refine ⟨steps, hsteps, ?_, by decide +kernel⟩
  rw [hdata, if_neg (by decide)]
  decide +kernel

/-- The other image has reached the disk and the token has not: recovery completes the
transaction. -/
theorem power_loss_recovers_sample : ∃ steps, recover sampleLayout true
        ⟨crashed [⟨8, [9, 8, 7]⟩] (replicate 64 0), some sampleTransaction.encode, none⟩ =
        .ok steps ∧
      (Kill.runSteps Step.exec steps
        ⟨crashed [⟨8, [9, 8, 7]⟩] (replicate 64 0), some sampleTransaction.encode, none⟩).data =
        writeImages sampleTransaction.images (replicate 64 0) :=
  (power_loss_recovers_iff sampleLayout sampleTransaction (replicate 64 0) [⟨8, [9, 8, 7]⟩]
    ⟨0, 0⟩ true sampleTransaction_valid rfl rfl (by decide) (by decide)
    (by decide +kernel)).mpr (.inl (by decide))

end FerricStore.Prob
