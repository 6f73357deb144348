import FerricStore.Lib.BPlusTree.Map
import FerricStore.Zset.Format

/-!
# Tree nodes and their pages

This module is `node.rs`: nodes over keys that may lie in overflow pages, their encoded sizes, the
decoder of pages, and `PageView`, which reads a node where it lies in its page. `decodeNode` and
`PageView` parse the same bytes in two ways; `page_view_leaf` and `page_view_branch` say that they
agree on every page that decodes to a node in key order.
-/

namespace FerricStore.Zset

open List BPlusTree

/-- Bytes before a page's payload. -/
def pageHeader : Nat := 16

/-- The kind byte of a leaf page. -/
def kindLeaf : UInt8 := 1

/-- The kind byte of a branch page. -/
def kindBranch : UInt8 := 2

/-- The kind byte of an overflow page. -/
def kindOverflow : UInt8 := 3

/-- Bytes of a long key in a node. -/
def overflowKeySize : Nat := 1 + 4 + overflowPrefix + 8

/-- Key bytes of an overflow page. -/
def overflowPayload : Nat := pageSize - pageHeader - 8

/-- A key, and the page chain that already holds it on disk if it is long. -/
structure Key where
  bytes : Bytes
  overflow : Option Nat
  deriving DecidableEq, Repr

/-- The bytes that a key takes in a node. -/
def encodedKeyLen (bytes : Bytes) : Nat :=
  if inlineKeyMax < bytes.length then overflowKeySize else 3 + bytes.length

/-- A key that is not on disk. -/
def Key.new (bytes : Bytes) : Key := ⟨bytes, none⟩

/-- The bytes that a key takes in a node. -/
def Key.encodedLen (key : Key) : Nat := encodedKeyLen key.bytes

/-- A child: a page on disk, or a node changed in this transaction. -/
inductive Child where
  | disk (offset : Nat)
  | dirty (index : Nat)
  deriving DecidableEq, Repr

/-- The empty tree. -/
def Child.empty : Child := .disk 0

/-- A leaf over stored keys. -/
abbrev Leaf := BPlusTree.Leaf Key Bytes

/-- A branch over stored keys and child pointers. -/
abbrev Branch := BPlusTree.Branch Key Child

/-- A node. -/
inductive Node where
  | leaf (leaf : Leaf)
  | branch (branch : Branch)
  deriving DecidableEq, Repr

section Sizes

variable {κ : Type} (len : κ → Nat)

/-- The bytes of each entry of a leaf. -/
def entrySizes (leaf : BPlusTree.Leaf κ Bytes) : List Nat :=
  zipWith (fun key value => len key + 2 + value.length) leaf.keys leaf.values

/-- The bytes of each separator of a branch, with the child after it. -/
def separatorSizes (keys : List κ) : List Nat :=
  keys.map fun key => len key + 16

/-- The bytes that a leaf takes in a page. -/
def leafEncodedLen (leaf : BPlusTree.Leaf κ Bytes) : Nat :=
  pageHeader + (entrySizes len leaf).sum

/-- The bytes that a branch takes in a page. -/
def branchEncodedLen (keys : List κ) : Nat :=
  pageHeader + 16 + (separatorSizes len keys).sum

end Sizes

namespace Node

/-- The bytes that a node takes in a page. -/
def encodedLen : Node → Nat
  | .leaf l => leafEncodedLen Key.encodedLen l
  | .branch b => branchEncodedLen Key.encodedLen b.keys

/-- The number of keys under a node. -/
def count : Node → Nat
  | .leaf l => l.keys.length
  | .branch b => b.total

end Node

/-! ## Reading pages -/

/-- How many overflow pages hold a long key. -/
def overflowPages (len : Nat) : Nat := (len + overflowPayload - 1) / overflowPayload

variable (page : Bytes)

/-- A page's kind, entry number and used bytes, if its checksum is right. -/
def verifyPage : Result (UInt8 × Nat × Nat) :=
  if page.length ≠ pageSize then .error .shortPage
  else do
    let n ← getU16 page 2
    let used ← getU32 page 4
    if used < pageHeader ∨ pageSize < used then .error .pageLengthOutOfRange
    else do
      let checksum ← getU32 page 8
      if crc32 (slice page 0 8 ++ slice page 12 (used - 12)) ≠ checksum then .error .pageChecksum
      else return (page.headD 0, n, used)

/-- The next page and the bytes of an overflow page. -/
def decodeOverflow : Result (Nat × Bytes) := do
  let (kind, _, used) ← verifyPage page
  if kind ≠ kindOverflow then .error .notAnOverflowPage
  else do
    let next ← getU64 page pageHeader
    return (next, slice page (pageHeader + 8) (used - (pageHeader + 8)))

/-- A key as its page stores it. -/
inductive StoredKey where
  | inline (bytes : Bytes)
  | overflow (len : Nat) (first : Bytes) (head : Nat)
  deriving DecidableEq, Repr

/-- The key at a position of a page, and the position after it. -/
def storedKey (pos : Nat) : Result (StoredKey × Nat) :=
  match page[pos]? with
  | some 0 => do
    let len ← getU16 page (pos + 1)
    if page.length < pos + 3 + len then .error .truncatedKey
    else return (.inline (slice page (pos + 3) len), pos + (3 + len))
  | some 1 => do
    let len ← getU32 page (pos + 1)
    if page.length < pos + 5 + overflowPrefix then .error .truncatedKey
    else do
      let head ← getU64 page (pos + 5 + overflowPrefix)
      return (.overflow len (slice page (pos + 5) overflowPrefix) head, pos + overflowKeySize)
  | _ => .error .unknownKeyEncoding

/-- How the bytes of an overflow chain are read. -/
abbrev ReadOverflow := Nat → Nat → Result Bytes

/-- The comparison of two byte strings. -/
def cmpBytes (a b : Bytes) : Ordering :=
  if a < b then .lt else if a = b then .eq else .gt

namespace StoredKey

/-- The whole key. -/
def bytes (readOverflow : ReadOverflow) : StoredKey → Result Bytes
  | .inline bytes => .ok bytes
  | .overflow len first head => do
    let bytes ← readOverflow head len
    if bytes.length ≠ len then .error .overflowPrefixMismatch
    else if bytes.length < overflowPrefix then .error .panicked
    else if bytes.take overflowPrefix ≠ first then .error .overflowPrefixMismatch
    else return bytes

/-- Orders the stored key against `key`; overflow pages are read only when the first bytes tie. -/
def cmp (stored : StoredKey) (key : Bytes) (readOverflow : ReadOverflow) : Result Ordering :=
  match stored with
  | .inline bytes => .ok (cmpBytes bytes key)
  | .overflow _ first _ =>
    match cmpBytes first (key.take overflowPrefix) with
    | .eq => do
      let bytes ← stored.bytes readOverflow
      return cmpBytes bytes key
    | order => .ok order

/-- The overflow chain of a long key. -/
def chain : StoredKey → Option Nat
  | .inline _ => none
  | .overflow _ _ head => some head

end StoredKey

/-- A key, read whole. -/
def decodeKey (pos : Nat) (readOverflow : ReadOverflow) : Result (Key × Nat) := do
  let (stored, pos) ← storedKey page pos
  let bytes ← stored.bytes readOverflow
  return (⟨bytes, stored.chain⟩, pos)

/-- The entries of a leaf page from a position on. -/
def decodeEntries (page : Bytes) (readOverflow : ReadOverflow) :
    Nat → Nat → Result (List (Key × Bytes))
  | 0, _ => .ok []
  | n + 1, pos => do
    let (key, pos) ← decodeKey page pos readOverflow
    let len ← getU16 page pos
    if page.length < pos + 2 + len then .error .truncatedValue
    else do
      let rest ← decodeEntries page readOverflow n (pos + 2 + len)
      return (key, slice page (pos + 2) len) :: rest

/-- The separators of a branch page from a position on, each with the child after it and the number
of keys under that. -/
def decodeChildren (page : Bytes) (readOverflow : ReadOverflow) :
    Nat → Nat → Result (List (Key × Nat × Nat))
  | 0, _ => .ok []
  | n + 1, pos => do
    let (key, pos) ← decodeKey page pos readOverflow
    let offset ← getU64 page pos
    let count ← getU64 page (pos + 8)
    let rest ← decodeChildren page readOverflow n (pos + 16)
    return (key, offset, count) :: rest

/-- The node in a page. -/
def decodeNode (readOverflow : ReadOverflow) : Result Node := do
  let (kind, n, used) ← verifyPage page
  let page := page.take used
  if kind = kindLeaf then do
    let entries ← decodeEntries page readOverflow n pageHeader
    return .leaf ⟨entries.map Prod.fst, entries.map Prod.snd⟩
  else if kind = kindBranch then
    if n < 2 then .error .fewerThanTwoChildren
    else do
      let offset ← getU64 page pageHeader
      let count ← getU64 page (pageHeader + 8)
      let rest ← decodeChildren page readOverflow (n - 1) (pageHeader + 16)
      return .branch ⟨rest.map fun (key, _, _) => key,
        .disk offset :: rest.map fun (_, offset, _) => .disk offset,
        count :: rest.map fun (_, _, count) => count⟩
  else .error .notATreePage

/-! ## Reading a page in place -/

/-- Where a key is in a leaf, or where it would go. -/
inductive Search where
  | found (i : Nat)
  | absent (i : Nat)
  deriving DecidableEq, Repr

namespace Search

/-- The position either way. -/
def position : Search → Nat
  | .found i => i
  | .absent i => i

end Search

/-- A node read where it lies: a leaf's keys with where their values start, or a branch's
separators with where the child after each starts. -/
structure PageView where
  page : Bytes
  leaf : Bool
  entries : List (StoredKey × Nat)

namespace PageView

/-- The keys of a leaf page from a position on. -/
def readEntries (page : Bytes) : Nat → Nat → Result (List (StoredKey × Nat))
  | 0, _ => .ok []
  | n + 1, pos => do
    let (key, pos) ← storedKey page pos
    let len ← getU16 page pos
    if page.length < pos + 2 + len then .error .truncatedEntry
    else do
      let rest ← readEntries page n (pos + 2 + len)
      return (key, pos) :: rest

/-- The separators of a branch page from a position on. -/
def readChildren (page : Bytes) : Nat → Nat → Result (List (StoredKey × Nat))
  | 0, _ => .ok []
  | n + 1, pos => do
    let (key, pos) ← storedKey page pos
    if page.length < pos + 16 then .error .truncatedEntry
    else do
      let rest ← readChildren page n (pos + 16)
      return (key, pos) :: rest

/-- The view of a page. -/
def read (page : Bytes) : Result PageView := do
  let (kind, n, used) ← verifyPage page
  let page := page.take used
  if kind = kindLeaf then do
    let entries ← readEntries page n pageHeader
    return ⟨page, true, entries⟩
  else if kind = kindBranch then
    if n < 2 then .error .fewerThanTwoChildren
    else if page.length < pageHeader + 16 then .error .truncatedEntry
    else do
      let entries ← readChildren page (n - 1) (pageHeader + 16)
      return ⟨page, false, entries⟩
  else .error .notATreePage

variable (view : PageView)

/-- A leaf's number of keys. -/
def len : Nat := view.entries.length

/-- A leaf's key, whole. -/
def key (i : Nat) (readOverflow : ReadOverflow) : Result Bytes := do
  let (stored, _) ← orFail view.entries[i]? .panicked
  stored.bytes readOverflow

/-- A leaf's value. -/
def value (i : Nat) : Result Bytes := do
  let (_, pos) ← orFail view.entries[i]? .panicked
  let len ← getU16 view.page pos
  return slice view.page (pos + 2) len

/-- Halves the part of a leaf that a key can be in. -/
def searchLoop (view : PageView) (key : Bytes) (readOverflow : ReadOverflow) :
    Nat → Nat → Nat → Result Search
  | 0, low, _ => .ok (.absent low)
  | fuel + 1, low, high =>
    if low < high then do
      let mid := low + (high - low) / 2
      let (stored, _) ← orFail view.entries[mid]? .panicked
      match ← stored.cmp key readOverflow with
      | .lt => searchLoop view key readOverflow fuel (mid + 1) high
      | .gt => searchLoop view key readOverflow fuel low mid
      | .eq => return .found mid
    else .ok (.absent low)

/-- Where a key is in a leaf, or where it would go. -/
def search (key : Bytes) (readOverflow : ReadOverflow) : Result Search :=
  searchLoop view key readOverflow view.entries.length 0 view.entries.length

/-- A branch's number of children. -/
def children : Nat := view.entries.length + 1

/-- Halves the part of a branch that a key can be routed to. -/
def childIndexLoop (view : PageView) (key : Bytes) (readOverflow : ReadOverflow) :
    Nat → Nat → Nat → Result Nat
  | 0, low, _ => .ok low
  | fuel + 1, low, high =>
    if low < high then do
      let mid := low + (high - low) / 2
      let (stored, _) ← orFail view.entries[mid]? .panicked
      match ← stored.cmp key readOverflow with
      | .gt => childIndexLoop view key readOverflow fuel low mid
      | _ => childIndexLoop view key readOverflow fuel (mid + 1) high
    else .ok low

/-- The child of a branch that holds a key: the number of separators at or below it. -/
def childIndex (key : Bytes) (readOverflow : ReadOverflow) : Result Nat :=
  childIndexLoop view key readOverflow view.entries.length 0 view.entries.length

/-- A branch's child: its page and the number of keys under it. -/
def child (i : Nat) : Result (Nat × Nat) := do
  let pos ← if i = 0 then .ok pageHeader
    else (orFail view.entries[i - 1]? .panicked).map Prod.snd
  let offset ← getU64 view.page pos
  let count ← getU64 view.page (pos + 8)
  return (offset, count)

end PageView

/-! ## The two readers agree -/

open PageView

/-- The order of the first bytes, unless they tie. -/
theorem lt_of_take_lt {a b : Bytes} {n : Nat} (h : a.take n < b.take n) : a < b := by
  induction n generalizing a b with
  | zero => simp at h
  | succ n ih =>
    cases b with
    | nil => simp at h
    | cons y b =>
      cases a with
      | nil => exact nil_lt_cons y b
      | cons x a =>
        rw [take_succ_cons, take_succ_cons, cons_lt_cons_iff] at h
        rw [cons_lt_cons_iff]
        rcases h with h | ⟨heq, h⟩
        · exact .inl h
        · exact .inr ⟨heq, ih h⟩

/-- A comparison of first bytes that do not tie is the comparison. -/
theorem cmpBytes_take {a b : Bytes} {n : Nat} (h : cmpBytes (a.take n) (b.take n) ≠ .eq) :
    cmpBytes (a.take n) (b.take n) = cmpBytes a b := by
  unfold cmpBytes at h ⊢
  rcases lt_trichotomy (a.take n) (b.take n) with hlt | heq | hgt
  · rw [if_pos hlt, if_pos (lt_of_take_lt hlt)]
  · rw [if_neg heq.not_lt, if_pos heq] at h
    exact absurd rfl h
  · have hgt' := lt_of_take_lt hgt
    rw [if_neg hgt.asymm, if_neg hgt.ne', if_neg hgt'.asymm, if_neg hgt'.ne']

/-- A stored key compares like the key it stands for. -/
theorem StoredKey.cmp_eq {stored : StoredKey} {readOverflow : ReadOverflow} {bytes : Bytes}
    (h : stored.bytes readOverflow = .ok bytes) (key : Bytes) :
    stored.cmp key readOverflow = .ok (cmpBytes bytes key) := by
  cases stored with
  | inline inner =>
    cases h
    rfl
  | overflow len first head =>
    have hfirst : bytes.take overflowPrefix = first := by
      rw [StoredKey.bytes, bind_eq_ok_iff] at h
      obtain ⟨found, -, hfound⟩ := h
      split_ifs at hfound with hlen hshort hmatch
      · cases hfound
        exact not_not.mp hmatch
    unfold cmp
    rw [← hfirst] at h ⊢
    by_cases htie : cmpBytes (bytes.take overflowPrefix) (key.take overflowPrefix) = .eq
    · simp [htie, h]
    · rw [← cmpBytes_take htie]
      cases hcmp : cmpBytes (bytes.take overflowPrefix) (key.take overflowPrefix) with
      | lt => simp only [hcmp]
      | eq => exact absurd hcmp htie
      | gt => simp only [hcmp]

/-- Where a key is in a sorted list of keys, or where it would go. -/
def searchKeys (keys : List Bytes) (key : Bytes) : Search :=
  let i := position keys key
  if keys[i]? = some key then .found i else .absent i

/-- A view's entry stands for a key. -/
def StandsFor (readOverflow : ReadOverflow) (entry : StoredKey × Nat) (key : Bytes) : Prop :=
  entry.1.bytes readOverflow = .ok key

/-- The entry at a position stands for the key at it. -/
theorem standsFor_getElem? {readOverflow : ReadOverflow} {entries : List (StoredKey × Nat)}
    {keys : List Bytes} (h : List.Forall₂ (StandsFor readOverflow) entries keys) {i : Nat}
    (hi : i < keys.length) : ∃ entry key, entries[i]? = some entry ∧ keys[i]? = some key ∧
      StandsFor readOverflow entry key := by
  have hlen := h.length_eq
  refine ⟨entries[i], keys[i], getElem?_eq_getElem _, getElem?_eq_getElem _, ?_⟩
  exact h.get (by omega) hi

section Halving

variable {readOverflow : ReadOverflow} {view : PageView} {keys : List Bytes}

theorem position_le (keys : List Bytes) (key : Bytes) : position keys key ≤ keys.length :=
  (List.takeWhile_prefix _).length_le

/-- A key that is in the list is at its place. -/
theorem position_eq_of_getElem? (hsorted : keys.Pairwise (· < ·)) {key : Bytes} {i : Nat}
    (hi : keys[i]? = some key) : position keys key = i := by
  have hnot := mt (lt_position_iff hsorted key hi).mp (lt_irrefl key)
  refine le_antisymm (not_lt.mp hnot) (not_lt.mp fun hlt => ?_)
  -- what stands at the place of the key would be a smaller key
  obtain ⟨hin, hget⟩ := List.getElem?_eq_some_iff.mp hi
  have hk := getElem?_eq_getElem (hlt.trans hin)
  have hless := pairwise_iff_getElem.mp hsorted _ _ (hlt.trans hin) hin hlt
  rw [hget] at hless
  exact lt_irrefl _ ((lt_position_iff hsorted key hk).mpr hless)

section

variable (h : List.Forall₂ (StandsFor readOverflow) view.entries keys)
  (hsorted : keys.Pairwise (· < ·)) (key : Bytes)
include h hsorted

/-- Halving finds the place of a key: it stays between the ends, and the key at the upper end is
not the one searched for. -/
theorem search_loop_eq (fuel low high : Nat) (hfuel : high - low ≤ fuel)
    (hlow : low ≤ position keys key) (hhigh : position keys key ≤ high)
    (hlen : high ≤ keys.length) (hupper : keys[high]? ≠ some key) :
    view.searchLoop key readOverflow fuel low high = .ok (searchKeys keys key) := by
  induction fuel generalizing low high with
  | zero =>
    obtain rfl : low = position keys key := by omega
    obtain rfl : high = position keys key := by omega
    rw [searchLoop, searchKeys, if_neg hupper]
  | succ fuel ih =>
    rw [searchLoop]
    by_cases hlt : low < high
    · rw [if_pos hlt]
      obtain ⟨entry, k, hentry, hk, hstands⟩ :=
        standsFor_getElem? h (show low + (high - low) / 2 < keys.length by omega)
      have hbelow := lt_position_iff hsorted key hk
      simp only [hentry, orFail_some, ok_bind]
      rw [StoredKey.cmp_eq hstands, ok_bind, cmpBytes]
      rcases lt_trichotomy k key with hkey | rfl | hkey
      · rw [if_pos hkey]
        have := hbelow.mpr hkey
        exact ih _ _ (by omega) (by omega) hhigh hlen hupper
      · rw [if_neg (lt_irrefl k), if_pos rfl, searchKeys, position_eq_of_getElem? hsorted hk,
          if_pos hk]
        rfl
      · rw [if_neg hkey.asymm, if_neg hkey.ne']
        have := mt hbelow.mp hkey.asymm
        refine ih _ _ (by omega) hlow (by omega) (by omega) ?_
        rw [hk]
        exact fun heq => hkey.ne' (Option.some.inj heq)
    · rw [if_neg hlt]
      obtain rfl : low = position keys key := by omega
      obtain rfl : high = position keys key := by omega
      rw [searchKeys, if_neg hupper]

/-- A leaf read in place is searched like its keys. -/
theorem search_eq : view.search key readOverflow = .ok (searchKeys keys key) := by
  have hlen := h.length_eq
  refine search_loop_eq h hsorted key _ _ _ (by omega) (Nat.zero_le _) ?_ hlen.le ?_
  · rw [hlen]
    exact position_le keys key
  · rw [hlen, getElem?_eq_none le_rfl]
    exact (Option.some_ne_none key).symm

/-- Halving finds the child of a key. -/
theorem child_index_loop_eq (fuel low high : Nat) (hfuel : high - low ≤ fuel)
    (hlow : low ≤ childIndex keys key) (hhigh : childIndex keys key ≤ high)
    (hlen : high ≤ keys.length) :
    view.childIndexLoop key readOverflow fuel low high = .ok (childIndex keys key) := by
  induction fuel generalizing low high with
  | zero =>
    obtain rfl : low = childIndex keys key := by omega
    rfl
  | succ fuel ih =>
    rw [childIndexLoop]
    by_cases hlt : low < high
    · rw [if_pos hlt]
      obtain ⟨entry, k, hentry, hk, hstands⟩ :=
        standsFor_getElem? h (show low + (high - low) / 2 < keys.length by omega)
      have hbelow := lt_childIndex_iff hsorted key hk
      simp only [hentry, orFail_some, ok_bind]
      rw [StoredKey.cmp_eq hstands, ok_bind, cmpBytes]
      rcases lt_trichotomy k key with hkey | rfl | hkey
      · rw [if_pos hkey]
        have := hbelow.mpr hkey.le
        exact ih _ _ (by omega) (by omega) hhigh hlen
      · rw [if_neg (lt_irrefl k), if_pos rfl]
        have := hbelow.mpr le_rfl
        exact ih _ _ (by omega) (by omega) hhigh hlen
      · rw [if_neg hkey.asymm, if_neg hkey.ne']
        have := mt hbelow.mp hkey.not_ge
        exact ih _ _ (by omega) hlow (by omega) (by omega)
    · rw [if_neg hlt]
      obtain rfl : low = childIndex keys key := by omega
      rfl

/-- A branch read in place routes keys like its separators. -/
theorem child_index_eq : view.childIndex key readOverflow = .ok (childIndex keys key) := by
  have hlen := h.length_eq
  refine child_index_loop_eq h hsorted key _ _ _ (by omega) (Nat.zero_le _) ?_ hlen.le
  rw [hlen]
  exact (List.takeWhile_prefix _).length_le

end

end Halving

section Agreement

variable {page} {readOverflow : ReadOverflow}

/-- A decoded key is the key its view stands for. -/
theorem decode_key_ok {pos pos' : Nat} {key : Key}
    (h : decodeKey page pos readOverflow = .ok (key, pos')) :
    ∃ stored, storedKey page pos = .ok (stored, pos') ∧
      stored.bytes readOverflow = .ok key.bytes := by
  rw [decodeKey, bind_eq_ok_iff] at h
  obtain ⟨⟨stored, pos''⟩, hstored, h⟩ := h
  obtain ⟨bytes, hbytes, h⟩ := bind_eq_ok_iff.mp h
  cases h
  exact ⟨stored, hstored, hbytes⟩

/-- A field that is read lies within the page. -/
theorem getField_bound {width pos n : Nat} (h : getField width page pos = .ok n) :
    pos + width ≤ page.length := by
  unfold getField at h
  split_ifs at h with hle
  exact hle

/-- The view of a leaf's entry: its key, and where its value is. -/
def EntryView (page : Bytes) (readOverflow : ReadOverflow) (entry : StoredKey × Nat)
    (decoded : Key × Bytes) : Prop :=
  StandsFor readOverflow entry decoded.1.bytes ∧
    ∃ len, getU16 page entry.2 = .ok len ∧ slice page (entry.2 + 2) len = decoded.2

/-- A leaf's entries are viewed where they decode. -/
theorem read_entries_of_decode {n pos : Nat} {entries : List (Key × Bytes)}
    (h : decodeEntries page readOverflow n pos = .ok entries) :
    ∃ views, readEntries page n pos = .ok views ∧
      List.Forall₂ (EntryView page readOverflow) views entries := by
  induction n generalizing pos entries with
  | zero =>
    cases h
    exact ⟨[], rfl, .nil⟩
  | succ n ih =>
    rw [decodeEntries, bind_eq_ok_iff] at h
    obtain ⟨⟨key, pos'⟩, hkey, h⟩ := h
    obtain ⟨len, hlen, h⟩ := bind_eq_ok_iff.mp h
    obtain ⟨stored, hstored, hbytes⟩ := decode_key_ok hkey
    split_ifs at h with hroom
    obtain ⟨rest, hrest, h⟩ := bind_eq_ok_iff.mp h
    cases h
    obtain ⟨views, hviews, hforall⟩ := ih hrest
    refine ⟨(stored, pos') :: views, ?_, .cons ⟨hbytes, len, hlen, rfl⟩ hforall⟩
    rw [readEntries, hstored, ok_bind]
    dsimp only
    rw [hlen, ok_bind, if_neg hroom, hviews, ok_bind]
    rfl

/-- The view of a branch's separator: its key, and where the child after it is. -/
def ChildView (page : Bytes) (readOverflow : ReadOverflow) (entry : StoredKey × Nat)
    (decoded : Key × Nat × Nat) : Prop :=
  StandsFor readOverflow entry decoded.1.bytes ∧ getU64 page entry.2 = .ok decoded.2.1 ∧
    getU64 page (entry.2 + 8) = .ok decoded.2.2

/-- A branch's separators are viewed where they decode. -/
theorem read_children_of_decode {n pos : Nat} {entries : List (Key × Nat × Nat)}
    (h : decodeChildren page readOverflow n pos = .ok entries) :
    ∃ views, readChildren page n pos = .ok views ∧
      List.Forall₂ (ChildView page readOverflow) views entries := by
  induction n generalizing pos entries with
  | zero =>
    cases h
    exact ⟨[], rfl, .nil⟩
  | succ n ih =>
    rw [decodeChildren, bind_eq_ok_iff] at h
    obtain ⟨⟨key, pos'⟩, hkey, h⟩ := h
    obtain ⟨stored, hstored, hbytes⟩ := decode_key_ok hkey
    obtain ⟨offset, hoffset, h⟩ := bind_eq_ok_iff.mp h
    obtain ⟨count, hcount, h⟩ := bind_eq_ok_iff.mp h
    obtain ⟨rest, hrest, h⟩ := bind_eq_ok_iff.mp h
    cases h
    obtain ⟨views, hviews, hforall⟩ := ih hrest
    have hroom : ¬ page.length < pos' + 16 := by
      have := getField_bound hcount
      omega
    refine ⟨(stored, pos') :: views, ?_, .cons ⟨hbytes, hoffset, hcount⟩ hforall⟩
    rw [readChildren, hstored, ok_bind]
    dsimp only
    rw [if_neg hroom, hviews, ok_bind]
    rfl

/-- What reading a leaf in place gives. -/
structure ViewsLeaf (readOverflow : ReadOverflow) (view : PageView) (leaf : Leaf) : Prop where
  isLeaf : view.leaf = true
  values : leaf.values.length = leaf.keys.length
  len : view.len = leaf.keys.length
  stands : List.Forall₂ (StandsFor readOverflow) view.entries (leaf.keys.map Key.bytes)
  entry : ∀ (i : Nat) (key : Key) (value : Bytes), leaf.keys[i]? = some key →
    leaf.values[i]? = some value →
    view.key i readOverflow = .ok key.bytes ∧ view.value i = .ok value

/-- What reading a branch in place gives. -/
structure ViewsBranch (readOverflow : ReadOverflow) (view : PageView) (branch : Branch) : Prop where
  isBranch : view.leaf = false
  keys : branch.children.length = branch.keys.length + 1
  counts : branch.counts.length = branch.keys.length + 1
  children : view.children = branch.children.length
  stands : List.Forall₂ (StandsFor readOverflow) view.entries (branch.keys.map Key.bytes)
  child : ∀ i < branch.children.length, ∃ offset count, branch.children[i]? = some (.disk offset) ∧
    branch.counts[i]? = some count ∧ view.child i = .ok (offset, count)

/-- The two readers agree on a leaf. -/
theorem page_view_leaf {leaf : Leaf} (h : decodeNode page readOverflow = .ok (.leaf leaf)) :
    ∃ view, read page = .ok view ∧ ViewsLeaf readOverflow view leaf := by
  rw [decodeNode, bind_eq_ok_iff] at h
  obtain ⟨⟨kind, n, used⟩, hverify, h⟩ := h
  dsimp only at h
  split_ifs at h with hleaf hbranch hfew
  · obtain ⟨entries, hentries, h⟩ := bind_eq_ok_iff.mp h
    cases h
    obtain ⟨views, hviews, hforall⟩ := read_entries_of_decode hentries
    refine ⟨⟨page.take used, true, views⟩, ?_, rfl, by simp, ?_, ?_, ?_⟩
    · rw [PageView.read, hverify, ok_bind]
      dsimp only
      rw [if_pos hleaf, hviews, ok_bind]
      rfl
    · rw [length_map]
      exact hforall.length_eq
    · rw [map_map, forall₂_map_right_iff]
      exact hforall.imp fun _ _ hview => hview.1
    · intro i key value hkey hvalue
      rw [getElem?_map, Option.map_eq_some_iff] at hkey hvalue
      obtain ⟨entry, hentry, rfl⟩ := hkey
      obtain ⟨entry', hentry', rfl⟩ := hvalue
      obtain rfl : entry = entry' := Option.some.inj (hentry.symm.trans hentry')
      obtain ⟨hi, hget⟩ := List.getElem?_eq_some_iff.mp hentry
      have hlen := hforall.length_eq
      obtain ⟨hstands, len, hlen', hslice⟩ := hforall.get (by omega) hi
      have hview : views[i]? = some views[i] := getElem?_eq_getElem (by omega)
      simp only [get_eq_getElem, hget] at hstands hslice hlen'
      refine ⟨?_, ?_⟩
      · rw [key, hview, orFail_some, ok_bind]
        exact hstands
      · rw [value, hview, orFail_some, ok_bind]
        dsimp only
        rw [hlen', ok_bind, hslice]
        rfl
  · obtain ⟨_, -, h⟩ := bind_eq_ok_iff.mp h
    obtain ⟨_, -, h⟩ := bind_eq_ok_iff.mp h
    obtain ⟨_, -, h⟩ := bind_eq_ok_iff.mp h
    cases h

/-- The two readers agree on a branch. -/
theorem page_view_branch {branch : Branch}
    (h : decodeNode page readOverflow = .ok (.branch branch)) :
    ∃ view, read page = .ok view ∧ ViewsBranch readOverflow view branch := by
  rw [decodeNode, bind_eq_ok_iff] at h
  obtain ⟨⟨kind, n, used⟩, hverify, h⟩ := h
  dsimp only at h
  split_ifs at h with hleaf hbranch hfew
  · obtain ⟨_, -, h⟩ := bind_eq_ok_iff.mp h
    cases h
  · obtain ⟨first, hfirst, h⟩ := bind_eq_ok_iff.mp h
    obtain ⟨count, hcount, h⟩ := bind_eq_ok_iff.mp h
    obtain ⟨entries, hentries, h⟩ := bind_eq_ok_iff.mp h
    cases h
    obtain ⟨views, hviews, hforall⟩ := read_children_of_decode hentries
    have hlen := hforall.length_eq
    have hroom : ¬ (page.take used).length < pageHeader + 16 := by
      have := getField_bound hcount
      omega
    refine ⟨⟨page.take used, false, views⟩, ?_, rfl, by simp, by simp, ?_, ?_, ?_⟩
    · rw [PageView.read, hverify, ok_bind]
      dsimp only
      rw [if_neg hleaf, if_pos hbranch, if_neg hfew, if_neg hroom, hviews, ok_bind]
      rfl
    · show views.length + 1 = _
      simp [hlen]
    · rw [map_map, forall₂_map_right_iff]
      exact hforall.imp fun _ _ hview => hview.1
    · intro i hi
      cases i with
      | zero =>
        refine ⟨first, count, rfl, rfl, ?_⟩
        rw [child, if_pos rfl, ok_bind]
        dsimp only
        rw [hfirst, ok_bind, hcount, ok_bind]
        rfl
      | succ i =>
        have hin : i < entries.length := by simpa using hi
        obtain ⟨-, hoffset, hcount'⟩ := hforall.get (by omega) hin
        have hview : views[i]? = some views[i] := getElem?_eq_getElem (by omega)
        simp only [get_eq_getElem] at hoffset hcount'
        refine ⟨entries[i].2.1, entries[i].2.2, ?_, ?_, ?_⟩
        · simp [getElem?_eq_getElem hin]
        · simp [getElem?_eq_getElem hin]
        · rw [child, if_neg (Nat.succ_ne_zero i), Nat.add_sub_cancel]
          rw [hview, orFail_some]
          show (do
            let offset ← getU64 (page.take used) views[i].2
            let count ← getU64 (page.take used) (views[i].2 + 8)
            return (offset, count)) = _
          rw [hoffset, ok_bind, hcount', ok_bind]
          rfl

end Agreement

end FerricStore.Zset
