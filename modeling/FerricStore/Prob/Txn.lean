import FerricStore.Lib.Bytes
import FerricStore.Lib.Kill
import FerricStore.Lib.Result

/-!
# After-image transactions of sidecar files

A mutation of a sidecar file is a list of after-images. `commit` first publishes a receipt that holds
them all, then writes them one by one with the mutation's token last, in the footer of the file.
`recover` reads the receipt and writes the images again while the token in the file is older than the
receipt's. This module is the receipt's format with its round trip, and `commit`, `recover` and
`begin` as the list of steps they take, so that a kill can be placed after any of them.
-/

namespace FerricStore.Prob

open List

def receiptMagic : Bytes := [0x46, 0x50, 0x54, 0x58, 0x4E, 0x30, 0x30, 0x31]

def receiptVersion : Nat := 1

def fixedHeaderSize : Nat := 56

def checksumSize : Nat := 4

def tokenSize : Nat := 16

def maxTransactionBytes : Nat := 512 * 1024 * 1024

def maxAfterImages : Nat := 20000000

def compactReceiptThresholdBytes : Nat := 1024 * 1024

instance instNeZeroTokenRange : NeZero (256 ^ 8) := inferInstance

/-- The log position of a mutation: two 64-bit numbers. -/
structure MutationToken where
  index : Fin (256 ^ 8)
  ordinal : Fin (256 ^ 8)
  deriving DecidableEq

namespace MutationToken

/-- Positions are ordered by index and then by ordinal. -/
instance : LinearOrder MutationToken :=
  LinearOrder.lift' (fun token : MutationToken => toLex (token.index, token.ordinal))
    fun a b h => by
      obtain ⟨hindex, hordinal⟩ := Prod.mk.inj (toLex.injective h)
      cases a
      cases b
      simp_all

theorem lt_iff {a b : MutationToken} :
    a < b ↔ a.index < b.index ∨ a.index = b.index ∧ a.ordinal < b.ordinal :=
  Prod.Lex.toLex_lt_toLex

variable (token : MutationToken)

def encode : Bytes :=
  leBytes 8 token.index ++ leBytes 8 token.ordinal

/-- The token that sixteen bytes spell. -/
def decode (encoded : Bytes) : Except String MutationToken :=
  if encoded.length ≠ tokenSize then .error "invalid probabilistic mutation token length"
  else .ok ⟨.ofNat _ (leNat (slice encoded 0 8)), .ofNat _ (leNat (slice encoded 8 8))⟩

@[simp] theorem length_encode : token.encode.length = tokenSize := by
  simp [encode, tokenSize]

theorem ofNat_leNat (n : Fin (256 ^ 8)) : Fin.ofNat (256 ^ 8) (leNat (leBytes 8 n)) = n := by
  rw [leNat_leBytes 8 n.isLt]
  exact Fin.ofNat_val_eq_self n

/-- A token reads back. -/
theorem decode_encode : decode token.encode = .ok token := by
  have hindex : slice token.encode 0 8 = leBytes 8 token.index := slice_front (length_leBytes _ _)
  have hordinal : slice token.encode 8 8 = leBytes 8 token.ordinal := by
    have hslice : slice (leBytes 8 token.index ++ (leBytes 8 token.ordinal ++ [])) 8 8 =
        leBytes 8 token.ordinal := slice_middle (length_leBytes _ _) (length_leBytes _ _)
    rwa [append_nil] at hslice
  rw [decode, if_neg (by simp), hindex, hordinal, ofNat_leNat, ofNat_leNat]

end MutationToken

/-- Bytes that a mutation leaves at an offset. -/
structure AfterImage where
  offset : Nat
  bytes : Bytes
  deriving DecidableEq

variable (image : AfterImage)

/-- The offset behind an image. -/
def AfterImage.stop : Nat := image.offset + image.bytes.length

structure Transaction where
  token : MutationToken
  tokenOffset : Nat
  expectedFileSize : Nat
  images : List AfterImage
  result : Bytes
  deriving DecidableEq

def validateTokenLocation (tokenOffset expectedFileSize : Nat) : Except String Unit :=
  if tokenOffset + tokenSize = expectedFileSize ∧ expectedFileSize < 256 ^ 8 then .ok ()
  else .error "probabilistic mutation token is not the file footer"

/-- Every image of a list lies in the target file. -/
def validateEach (expectedFileSize : Nat) : List AfterImage → Except String Unit
  | [] => .ok ()
  | image :: images =>
    if 256 ^ 8 ≤ image.stop then .error "probabilistic mutation after-image range overflow"
    else if expectedFileSize < image.stop then
      .error "probabilistic mutation after-image exceeds target file"
    else validateEach expectedFileSize images

def validateImages (images : List AfterImage) (expectedFileSize : Nat) : Except String Unit :=
  if maxAfterImages < images.length then .error "too many probabilistic mutation after-images"
  else validateEach expectedFileSize images

variable (transaction : Transaction)

/-- The bytes of a receipt. -/
def Transaction.encodedSize : Nat :=
  fixedHeaderSize + transaction.result.length + checksumSize +
    (transaction.images.map fun image => 16 + image.bytes.length).sum

/-- The size of the receipt of a transaction that has one. The number of images is a 32-bit number
once `validateImages` has passed. -/
def validateTransactionEncoding : Except String Nat := do
  validateTokenLocation transaction.tokenOffset transaction.expectedFileSize
  validateImages transaction.images transaction.expectedFileSize
  if 256 ^ 4 ≤ transaction.result.length then .error "probabilistic mutation result is too large"
  else if 256 ^ 8 ≤ transaction.encodedSize then
    .error "probabilistic mutation receipt size overflow"
  else if maxTransactionBytes < transaction.encodedSize then
    .error "probabilistic mutation receipt exceeds size limit"
  else .ok transaction.encodedSize

def encodeImage : Bytes :=
  leBytes 8 image.offset ++ (leBytes 8 image.bytes.length ++ image.bytes)

/-- A receipt up to its checksum. -/
def Transaction.content : Bytes :=
  receiptMagic ++ (leBytes 4 receiptVersion ++ (leBytes 4 0 ++
    (leBytes 8 transaction.token.index ++ (leBytes 8 transaction.token.ordinal ++
    (leBytes 8 transaction.tokenOffset ++ (leBytes 8 transaction.expectedFileSize ++
    (leBytes 4 transaction.images.length ++ (leBytes 4 transaction.result.length ++
    (transaction.images.flatMap encodeImage ++ transaction.result)))))))))

def Transaction.encode : Bytes :=
  transaction.content ++ leBytes 4 (crc32 transaction.content)

/-- A field of the fixed header. -/
def readField (width : Nat) (encoded : Bytes) (offset : Nat) : Except String Nat :=
  if offset + width ≤ encoded.length then .ok (leNat (slice encoded offset width))
  else .error "truncated probabilistic mutation receipt header"

/-- A 64-bit field at the cursor, and the cursor behind it. -/
def readU64AtCursor (content : Bytes) (cursor : Nat) : Except String (Nat × Nat) :=
  if content.length < cursor + 8 then .error "truncated probabilistic mutation receipt"
  else .ok (leNat (slice content cursor 8), cursor + 8)

/-- Images from the cursor on, and the cursor behind them. -/
def readImages (content : Bytes) : Nat → Nat → Except String (List AfterImage × Nat)
  | 0, cursor => .ok ([], cursor)
  | count + 1, cursor => do
    let (offset, cursor) ← readU64AtCursor content cursor
    let (length, cursor) ← readU64AtCursor content cursor
    if content.length < cursor + length then
      .error "truncated probabilistic mutation after-image"
    else do
      let (images, last) ← readImages content count (cursor + length)
      .ok (⟨offset, slice content cursor length⟩ :: images, last)

/-- The transaction behind a checked fixed header. -/
def decodeBody (content : Bytes) (token : MutationToken)
    (tokenOffset expectedFileSize imageCount resultLen : Nat) : Except String Transaction := do
  let (images, cursor) ← readImages content imageCount fixedHeaderSize
  if cursor + resultLen ≠ content.length then
    .error "invalid probabilistic mutation receipt payload length"
  else do
    validateImages images expectedFileSize
    .ok ⟨token, tokenOffset, expectedFileSize, images, slice content cursor resultLen⟩

/-- The transaction behind a receipt whose checksum holds. -/
def decodeContent (content : Bytes) : Except String Transaction := do
  if slice content 0 8 ≠ receiptMagic then .error "invalid probabilistic mutation receipt magic"
  else do
    let version ← readField 4 content 8
    let flags ← readField 4 content 12
    if version ≠ receiptVersion ∨ flags ≠ 0 then
      .error "unsupported probabilistic mutation receipt version"
    else do
      let index ← readField 8 content 16
      let ordinal ← readField 8 content 24
      let tokenOffset ← readField 8 content 32
      let expectedFileSize ← readField 8 content 40
      let imageCount ← readField 4 content 48
      let resultLen ← readField 4 content 52
      if maxAfterImages < imageCount then .error "too many probabilistic mutation after-images"
      else do
        validateTokenLocation tokenOffset expectedFileSize
        decodeBody content ⟨.ofNat _ index, .ofNat _ ordinal⟩ tokenOffset expectedFileSize
          imageCount resultLen

def decodeTransaction (encoded : Bytes) : Except String Transaction :=
  if encoded.length < fixedHeaderSize + checksumSize ∨ maxTransactionBytes < encoded.length then
    .error "invalid probabilistic mutation receipt size"
  else
    let content := encoded.take (encoded.length - checksumSize)
    if leNat (encoded.drop (encoded.length - checksumSize)) ≠ crc32 content then
      .error "probabilistic mutation receipt checksum mismatch"
    else decodeContent content

/-! ## Transactions -/

/-- The files of a sidecar: the data, the receipt beside it, and the receipt that a mutation of the
file under its pending name has left. -/
structure Files where
  data : Bytes
  receipt : Option Bytes
  pending : Option Bytes

/-- What a transaction does to the files, one system call at a time. -/
inductive Step
  | publish (receipt : Bytes)
  | write (image : AfterImage)
  | sync
  | promote
  deriving DecidableEq

/-- Puts an image into a file. -/
def AfterImage.write (data : Bytes) : Bytes :=
  overwrite data image.offset image.bytes

/-- Puts images into a file, one after another. -/
def writeImages (images : List AfterImage) (data : Bytes) : Bytes :=
  images.foldl (fun data image => image.write data) data

/-- A receipt is published with one rename. A sync changes nothing that a running system sees. -/
def Step.exec : Step → Files → Files
  | .publish receipt, files => { files with receipt := some receipt }
  | .write image, files => { files with data := image.write files.data }
  | .sync, files => files
  | .promote, files =>
    { files with receipt := files.pending.orElse fun _ => files.receipt, pending := none }

def readToken (data : Bytes) (tokenOffset : Nat) : Except String MutationToken :=
  if tokenOffset + tokenSize ≤ data.length then MutationToken.decode (slice data tokenOffset tokenSize)
  else .error "truncated file while reading probabilistic mutation token"

/-- The receipt, with whether it was found under the pending name. -/
def readTransactionIfPresent (files : Files) : Except String (Option (Transaction × Bool)) :=
  match files.receipt, files.pending with
  | some receipt, _ => do
    let transaction ← decodeTransaction receipt
    .ok (some (transaction, false))
  | none, some receipt => do
    let transaction ← decodeTransaction receipt
    .ok (some (transaction, true))
  | none, none => .ok none

/-- A large receipt is replaced by one without images once they are in the file. That is best
effort: `compacts` says whether it works out. -/
def compactReceiptIfLarge (compacts : Bool) (transaction : Transaction) : List Step :=
  match validateTransactionEncoding transaction with
  | .error _ => []
  | .ok size =>
    if size < compactReceiptThresholdBytes ∨ transaction.images = [] then []
    else
      let compact := { transaction with images := [] }
      match validateTransactionEncoding compact with
      | .error _ => []
      | .ok _ => if compacts then [.publish compact.encode] else []

def applyTransaction : List Step :=
  transaction.images.map .write ++ [.sync]

/-- Where the token of a sidecar kind lies: in the footer of a file of fixed size. -/
structure Layout where
  tokenOffset : Nat
  fileSize : Nat
  footer : tokenOffset + tokenSize = fileSize
  fits : fileSize < 256 ^ 8

variable (layout : Layout)

/-- The steps of a recovery. -/
def recover (compacts : Bool) (files : Files) : Except String (List Step) := do
  validateTokenLocation layout.tokenOffset layout.fileSize
  match ← readTransactionIfPresent files with
  | none => .ok []
  | some (transaction, pending) =>
    if transaction.tokenOffset ≠ layout.tokenOffset ∨
        transaction.expectedFileSize ≠ layout.fileSize then
      .error "probabilistic mutation receipt does not match target layout"
    else do
      let current ← readToken files.data layout.tokenOffset
      .ok ((if current < transaction.token then applyTransaction transaction else []) ++
        ((if pending then [.promote] else []) ++ compactReceiptIfLarge compacts transaction))

/-- The image of the token in the footer. -/
def tokenImage (token : MutationToken) : AfterImage :=
  ⟨layout.tokenOffset, token.encode⟩

/-- The transaction of a mutation. -/
def transactionOf (token : MutationToken) (images : List AfterImage)
    (result : Bytes) : Transaction :=
  ⟨token, layout.tokenOffset, layout.fileSize, images ++ [tokenImage layout token], result⟩

/-- The steps of a commit. -/
def commit (compacts : Bool) (token : MutationToken) (images : List AfterImage)
    (result : Bytes) : Except String (List Step) := do
  validateTokenLocation layout.tokenOffset layout.fileSize
  validateImages images layout.fileSize
  let transaction := transactionOf layout token images result
  let _ ← validateTransactionEncoding transaction
  .ok (.publish transaction.encode ::
    (applyTransaction transaction ++ compactReceiptIfLarge compacts transaction))

/-- What to do with a mutation that comes in. -/
inductive MutationDecision
  | apply
  | replay (result : Bytes)
  | stale
  deriving DecidableEq

/-- The decision on a token, made on the files as recovery has left them. -/
def decision (files : Files) (token : MutationToken) : Except String MutationDecision := do
  let current ← readToken files.data layout.tokenOffset
  if current < token then .ok .apply
  else if token < current then .ok .stale
  else
    match ← readTransactionIfPresent files with
    | some (transaction, _) =>
      if transaction.token = token then .ok (.replay transaction.result) else .ok .stale
    | none => .ok .stale

/-- Mutations of an instance without a log take the next index after the token in the file. -/
def nextToken (current token : MutationToken) : Except String MutationToken :=
  if h : current.index.val + 1 < 256 ^ 8 then
    .ok ⟨⟨current.index + 1, h⟩, max token.ordinal 1⟩
  else .error "probabilistic mutation token overflow"

/-! ## The receipt reads back -/

/-- A field that stands at its offset. -/
theorem readField_of_drop {encoded after : Bytes} {width pos n : Nat}
    (h : encoded.drop pos = leBytes width n ++ after) (hpos : pos ≤ encoded.length)
    (hn : n < 256 ^ width) : readField width encoded pos = .ok n := by
  have hlen := congrArg List.length h
  rw [length_drop, length_append, length_leBytes] at hlen
  rw [readField, if_pos (by omega), slice, h, take_left' (length_leBytes _ _), leNat_leBytes _ hn]

/-- A field at the cursor. -/
theorem readU64AtCursor_append {content before after : Bytes} {cursor n : Nat}
    (h : content = before ++ (leBytes 8 n ++ after)) (hcursor : before.length = cursor)
    (hn : n < 256 ^ 8) : readU64AtCursor content cursor = .ok (n, cursor + 8) := by
  subst hcursor
  have hlen : ¬content.length < before.length + 8 := by
    rw [h, length_append, length_append, length_leBytes]
    omega
  rw [readU64AtCursor, if_neg hlen, h, slice_middle rfl (length_leBytes _ _), leNat_leBytes _ hn]

theorem length_encodeImage : (encodeImage image).length = 16 + image.bytes.length := by
  simp only [encodeImage, length_append, length_leBytes]
  omega

variable {images : List AfterImage}

/-- Images read back from their place in a receipt. -/
theorem readImages_append {content : Bytes} :
    ∀ {before after : Bytes}, content = before ++ (images.flatMap encodeImage ++ after) →
    (∀ image ∈ images, image.stop < 256 ^ 8) →
    readImages content images.length before.length =
      .ok (images, before.length + (images.flatMap encodeImage).length) := by
  induction images with
  | nil => intros; rfl
  | cons image images ih =>
    intro before after h hfits
    have hstop : image.offset + image.bytes.length < 256 ^ 8 := hfits image mem_cons_self
    have hfirst : content = before ++ (leBytes 8 image.offset ++
        (leBytes 8 image.bytes.length ++ (image.bytes ++
          (images.flatMap encodeImage ++ after)))) := by
      rw [h, flatMap_cons, encodeImage]
      simp
    have hsecond : content = (before ++ leBytes 8 image.offset) ++
        (leBytes 8 image.bytes.length ++ (image.bytes ++
          (images.flatMap encodeImage ++ after))) := by
      rw [hfirst, append_assoc]
    have hthird : content = (before ++ leBytes 8 image.offset ++ leBytes 8 image.bytes.length) ++
        (image.bytes ++ (images.flatMap encodeImage ++ after)) := by
      rw [hsecond, append_assoc _ (leBytes 8 image.bytes.length)]
    have hlast : content = (before ++ encodeImage image) ++
        (images.flatMap encodeImage ++ after) := by
      rw [h, flatMap_cons]
      simp
    have hcursor : (before ++ leBytes 8 image.offset ++ leBytes 8 image.bytes.length).length =
        before.length + 8 + 8 := by
      simp
    have hnext : (before ++ encodeImage image).length =
        before.length + 8 + 8 + image.bytes.length := by
      rw [length_append, length_encodeImage]
      omega
    have hroom : ¬content.length < before.length + 8 + 8 + image.bytes.length := by
      rw [hlast, length_append, hnext]
      omega
    have hrest := ih hlast (forall_mem_cons.mp hfits).2
    rw [hnext] at hrest
    rw [length_cons, readImages, readU64AtCursor_append hfirst rfl (by omega), ok_bind]
    dsimp only
    rw [readU64AtCursor_append hsecond (by simp) (by omega), ok_bind]
    rw [if_neg hroom, hrest, ok_bind]
    have hslice : slice content (before.length + 8 + 8) image.bytes.length = image.bytes := by
      rw [hthird]
      exact slice_middle hcursor rfl
    rw [hslice, flatMap_cons, length_append, length_encodeImage]
    congr 2
    omega

variable {size : Nat}

/-- What `validateEach` has passed. -/
theorem validateEach_eq_ok_iff :
    validateEach size images = .ok () ↔ ∀ image ∈ images, image.stop < 256 ^ 8 ∧ image.stop ≤ size := by
  induction images with
  | nil => simp [validateEach]
  | cons image images ih =>
    rw [validateEach, forall_mem_cons, ← ih]
    split_ifs with hfits hsize
    · simp; omega
    · simp; omega
    · simp; omega

/-- What `validateImages` has passed. -/
theorem validateImages_eq_ok_iff :
    validateImages images size = .ok () ↔ images.length ≤ maxAfterImages ∧
      ∀ image ∈ images, image.stop < 256 ^ 8 ∧ image.stop ≤ size := by
  rw [validateImages, ← validateEach_eq_ok_iff]
  split_ifs with hmany
  · simp; omega
  · simp; omega

/-- What `validateTokenLocation` has passed. -/
theorem validateTokenLocation_eq_ok_iff {offset size : Nat} :
    validateTokenLocation offset size = .ok () ↔ offset + tokenSize = size ∧ size < 256 ^ 8 := by
  rw [validateTokenLocation]
  split_ifs with h
  · exact iff_of_true rfl h
  · exact iff_of_false nofun h

/-- A transaction that has a receipt. -/
structure Transaction.Valid : Prop where
  footer : transaction.tokenOffset + tokenSize = transaction.expectedFileSize
  fits : transaction.expectedFileSize < 256 ^ 8
  count : transaction.images.length ≤ maxAfterImages
  images : ∀ image ∈ transaction.images,
    image.stop < 256 ^ 8 ∧ image.stop ≤ transaction.expectedFileSize
  result : transaction.result.length < 256 ^ 4
  size : transaction.encodedSize ≤ maxTransactionBytes

variable {transaction}

/-- `validateTransactionEncoding` passes exactly the valid transactions. -/
theorem validateTransactionEncoding_eq_ok_iff : validateTransactionEncoding transaction = .ok size ↔
      transaction.Valid ∧ transaction.encodedSize = size := by
  rw [validateTransactionEncoding]
  constructor
  · intro h
    obtain ⟨_, hlocation, h⟩ := bind_eq_ok_iff.mp h
    obtain ⟨_, himages, h⟩ := bind_eq_ok_iff.mp h
    obtain ⟨hfooter, hfits⟩ := validateTokenLocation_eq_ok_iff.mp hlocation
    obtain ⟨hcount, himages⟩ := validateImages_eq_ok_iff.mp himages
    split_ifs at h with hresult hoverflow hsize
    cases h
    exact ⟨⟨hfooter, hfits, hcount, himages, not_le.mp hresult, not_lt.mp hsize⟩, rfl⟩
  · rintro ⟨hvalid, rfl⟩
    have hsize := hvalid.size
    have hlimit : maxTransactionBytes < 256 ^ 8 := by decide
    rw [validateTokenLocation_eq_ok_iff.mpr ⟨hvalid.footer, hvalid.fits⟩, ok_bind,
      validateImages_eq_ok_iff.mpr ⟨hvalid.count, hvalid.images⟩, ok_bind,
      if_neg (not_le.mpr hvalid.result), if_neg (by omega), if_neg (by omega)]

/-- The bytes before the images of a receipt. -/
def Transaction.header (transaction : Transaction) : Bytes :=
  receiptMagic ++ (leBytes 4 receiptVersion ++ (leBytes 4 0 ++
    (leBytes 8 transaction.token.index ++ (leBytes 8 transaction.token.ordinal ++
    (leBytes 8 transaction.tokenOffset ++ (leBytes 8 transaction.expectedFileSize ++
    (leBytes 4 transaction.images.length ++ leBytes 4 transaction.result.length)))))))

section

variable (transaction : Transaction)

theorem length_header : transaction.header.length = fixedHeaderSize := by
  simp [Transaction.header, receiptMagic, fixedHeaderSize]

theorem content_eq : transaction.content =
    transaction.header ++ (transaction.images.flatMap encodeImage ++ transaction.result) := by
  simp [Transaction.content, Transaction.header]

/-- A receipt has the size that was checked. -/
theorem length_encode : transaction.encode.length = transaction.encodedSize := by
  rw [Transaction.encode, content_eq]
  simp only [length_append, length_header, length_flatMap, length_encodeImage, length_leBytes]
  rw [Transaction.encodedSize, checksumSize]
  omega

end

/-- The images and the result read back. -/
theorem decodeBody_content (h : transaction.Valid) :
    decodeBody transaction.content transaction.token transaction.tokenOffset
      transaction.expectedFileSize transaction.images.length transaction.result.length =
      .ok transaction := by
  have himages := readImages_append (content_eq transaction) fun image hi => (h.images image hi).1
  rw [length_header] at himages
  have hlen : transaction.content.length = fixedHeaderSize +
      (transaction.images.flatMap encodeImage).length + transaction.result.length := by
    rw [content_eq, length_append, length_append, length_header, Nat.add_assoc]
  have hresult : slice transaction.content (fixedHeaderSize +
      (transaction.images.flatMap encodeImage).length) transaction.result.length =
      transaction.result := by
    have hslice : slice ((transaction.header ++ transaction.images.flatMap encodeImage) ++
        (transaction.result ++ [])) (fixedHeaderSize +
          (transaction.images.flatMap encodeImage).length) transaction.result.length =
        transaction.result :=
      slice_middle (by rw [length_append, length_header]) rfl
    rwa [append_nil, append_assoc, ← content_eq] at hslice
  rw [decodeBody, himages, ok_bind]
  dsimp only
  rw [if_neg (not_not.mpr hlen.symm), validateImages_eq_ok_iff.mpr ⟨h.count, h.images⟩, ok_bind,
    hresult]

/-- The content of a receipt reads back. -/
theorem decodeContent_content (h : transaction.Valid) :
    decodeContent transaction.content = .ok transaction := by
  have hmany : transaction.images.length < 256 ^ 4 := h.count.trans_lt (by decide)
  have hoffset : transaction.tokenOffset < 256 ^ 8 :=
    lt_of_le_of_lt (by rw [← h.footer]; exact Nat.le_add_right _ _) h.fits
  have hmagic : slice transaction.content 0 8 = receiptMagic := slice_front rfl
  have hheader : fixedHeaderSize ≤ transaction.content.length := by
    rw [content_eq, length_append, length_header]
    exact Nat.le_add_right _ _
  rw [fixedHeaderSize] at hheader
  -- the fields in order; the ones before a field have fixed widths, so its offset computes
  have hversion : readField 4 transaction.content 8 = .ok receiptVersion :=
    readField_of_drop rfl (by omega) (by decide)
  have hflags : readField 4 transaction.content 12 = .ok 0 :=
    readField_of_drop rfl (by omega) (by decide)
  have hindex : readField 8 transaction.content 16 = .ok transaction.token.index.val :=
    readField_of_drop rfl (by omega) transaction.token.index.isLt
  have hordinal : readField 8 transaction.content 24 = .ok transaction.token.ordinal.val :=
    readField_of_drop rfl (by omega) transaction.token.ordinal.isLt
  have htokenOffset : readField 8 transaction.content 32 = .ok transaction.tokenOffset :=
    readField_of_drop rfl (by omega) hoffset
  have hsize : readField 8 transaction.content 40 = .ok transaction.expectedFileSize :=
    readField_of_drop rfl (by omega) h.fits
  have hcount : readField 4 transaction.content 48 = .ok transaction.images.length :=
    readField_of_drop rfl (by omega) hmany
  have hresult : readField 4 transaction.content 52 = .ok transaction.result.length :=
    readField_of_drop rfl (by omega) h.result
  have htoken : (⟨.ofNat _ transaction.token.index.val, .ofNat _ transaction.token.ordinal.val⟩ :
      MutationToken) = transaction.token := by
    rw [Fin.ofNat_val_eq_self, Fin.ofNat_val_eq_self]
  rw [decodeContent, if_neg (not_not.mpr hmagic), hversion, ok_bind, hflags, ok_bind,
    if_neg (by simp), hindex, ok_bind, hordinal, ok_bind, htokenOffset, ok_bind, hsize, ok_bind,
    hcount, ok_bind, hresult, ok_bind, if_neg (not_lt.mpr h.count),
    validateTokenLocation_eq_ok_iff.mpr ⟨h.footer, h.fits⟩, ok_bind, htoken]
  exact decodeBody_content h

/-- A receipt reads back. -/
theorem decodeTransaction_encode (h : transaction.Valid) :
    decodeTransaction transaction.encode = .ok transaction := by
  have hlen : transaction.encode.length - checksumSize = transaction.content.length := by
    rw [Transaction.encode, length_append, length_leBytes, checksumSize, Nat.add_sub_cancel]
  have hsize : ¬(transaction.encode.length < fixedHeaderSize + checksumSize ∨
      maxTransactionBytes < transaction.encode.length) := by
    have hlimit := h.size
    rw [length_encode, Transaction.encodedSize] at *
    omega
  have htake : transaction.encode.take transaction.content.length = transaction.content := take_left
  have hdrop : transaction.encode.drop transaction.content.length =
      leBytes 4 (crc32 transaction.content) := drop_left
  rw [decodeTransaction, if_neg hsize]
  rw [hlen, htake, hdrop, if_neg (not_not.mpr (leNat_leBytes 4 (crc32_lt _)))]
  exact decodeContent_content h

end FerricStore.Prob
