import Mathlib

/-!
# Byte strings and little-endian fields

Byte strings are lists of `UInt8` under the lexicographic order. `leBytes` and `leNat` are the
little-endian codec of a fixed number of bytes, and `slice` is the checked-elsewhere subrange that
the readers of every format here are written with. The lemmas say how a slice falls on a
concatenation, so that a decoder applied to an encoder's output can be evaluated field by field.
`beBytes` is the big-endian codec, whose bytes are ordered as the numbers they spell.
-/

namespace FerricStore

open List

/-- A byte string. -/
abbrev Bytes := List UInt8

/-- Bytes are ordered by their unsigned value, so byte strings are ordered lexicographically. -/
instance instLinearOrderUInt8 : LinearOrder UInt8 where
  le_refl a := UInt8.le_refl a
  le_trans _ _ _ := UInt8.le_trans
  le_antisymm _ _ := UInt8.le_antisymm
  le_total a b := UInt8.le_total a b
  lt_iff_le_not_ge a b := by
    simp only [UInt8.lt_iff_toNat_lt, UInt8.le_iff_toNat_le]
    omega
  toDecidableLE := inferInstance
  toDecidableLT := inferInstance
  toDecidableEq := inferInstance

instance instLawfulBEqBytes : LawfulBEq Bytes := inferInstance

/-- The `width` low bytes of `n`, least significant first. -/
def leBytes : Nat → Nat → Bytes
  | 0, _ => []
  | width + 1, n => UInt8.ofNat n :: leBytes width (n / 256)

/-- The number a byte string spells, least significant byte first. -/
def leNat : Bytes → Nat
  | [] => 0
  | b :: rest => b.toNat + 256 * leNat rest

variable (width n : Nat)

@[simp] theorem length_leBytes : (leBytes width n).length = width := by
  induction width generalizing n with
  | zero => rfl
  | succ width ih => simp [leBytes, ih]

/-- Decoding an encoding gives the number back, modulo what the width can hold. -/
theorem leNat_leBytes_mod : leNat (leBytes width n) = n % 256 ^ width := by
  induction width generalizing n with
  | zero => simp [leBytes, leNat, Nat.mod_one]
  | succ width ih =>
    have hsplit : n % 256 ^ (width + 1) = n % 256 + 256 * (n / 256 % 256 ^ width) := by
      rw [Nat.pow_succ', Nat.mod_mul]
    simp [leBytes, leNat, ih, hsplit]

theorem leNat_leBytes (width : Nat) {n : Nat} (h : n < 256 ^ width) : leNat (leBytes width n) = n := by
  rw [leNat_leBytes_mod, Nat.mod_eq_of_lt h]

variable (bs : Bytes)

/-- A byte string spells a number below the power of its length. -/
theorem leNat_lt : leNat bs < 256 ^ bs.length := by
  induction bs with
  | nil => simp [leNat]
  | cons b rest ih =>
    have hb : b.toNat < 256 := b.toNat_lt
    rw [leNat, length_cons, Nat.pow_succ']
    omega

/-- Encoding what was decoded gives the bytes back. -/
theorem leBytes_leNat {bs : Bytes} {width : Nat} (h : bs.length = width) :
    leBytes width (leNat bs) = bs := by
  subst h
  induction bs with
  | nil => rfl
  | cons b rest ih =>
    have hb : b.toNat < 256 := b.toNat_lt
    have hhead : UInt8.ofNat (leNat (b :: rest)) = b := by
      apply UInt8.toNat_inj.mp
      rw [UInt8.toNat_ofNat', leNat]
      omega
    have htail : leNat (b :: rest) / 256 = leNat rest := by
      rw [leNat]
      omega
    rw [length_cons, leBytes, hhead, htail, ih]

/-- The number a byte string spells, most significant byte first. -/
def beNat : Bytes → Nat
  | [] => 0
  | b :: rest => b.toNat * 256 ^ rest.length + beNat rest

/-- The `width` low bytes of `n`, most significant first. -/
def beBytes : Bytes :=
  (leBytes width n).reverse

@[simp] theorem length_beBytes : (beBytes width n).length = width := by
  rw [beBytes, length_reverse, length_leBytes]

/-- One more byte at the end. -/
theorem beNat_append_singleton (b : UInt8) : beNat (bs ++ [b]) = beNat bs * 256 + b.toNat := by
  induction bs with
  | nil => simp [beNat]
  | cons c bs ih =>
    rw [cons_append, beNat, ih, beNat, length_append, length_singleton, Nat.pow_succ]
    ring

theorem beNat_reverse : beNat bs.reverse = leNat bs := by
  induction bs with
  | nil => rfl
  | cons b bs ih => rw [reverse_cons, beNat_append_singleton, ih, leNat]; ring

theorem beNat_beBytes (width : Nat) {n : Nat} (h : n < 256 ^ width) :
    beNat (beBytes width n) = n := by
  rw [beBytes, beNat_reverse, leNat_leBytes width h]

theorem beNat_lt : beNat bs < 256 ^ bs.length := by
  rw [← reverse_reverse bs, beNat_reverse, length_reverse]
  exact leNat_lt _

/-- Byte strings of one length are ordered as the numbers they spell. -/
theorem lt_iff_beNat_lt {a b : Bytes} (h : a.length = b.length) : a < b ↔ beNat a < beNat b := by
  induction a generalizing b with
  | nil =>
    obtain rfl : b = [] := eq_nil_of_length_eq_zero h.symm
    simp
  | cons x xs ih =>
    cases b with
    | nil => cases h
    | cons y ys =>
      have hlen : xs.length = ys.length := by simpa using h
      have hx := beNat_lt xs
      have hy := beNat_lt ys
      rw [cons_lt_cons_iff, ih hlen, beNat, beNat, ← hlen, UInt8.lt_iff_toNat_lt, ← UInt8.toNat_inj]
      rw [← hlen] at hy
      constructor
      · rintro (hlt | ⟨heq, hlt⟩)
        · have := Nat.mul_le_mul_right (256 ^ xs.length) (Nat.succ_le_of_lt hlt)
          rw [Nat.succ_mul] at this
          omega
        · rw [heq]
          omega
      · intro hlt
        rcases Nat.lt_trichotomy x.toNat y.toNat with hxy | hxy | hxy
        · exact .inl hxy
        · rw [hxy] at hlt
          exact .inr ⟨hxy, by omega⟩
        · have := Nat.mul_le_mul_right (256 ^ xs.length) (Nat.succ_le_of_lt hxy)
          rw [Nat.succ_mul] at this
          omega

/-- The `len` bytes of `bs` from `start` on, or fewer where `bs` ends. -/
def slice (start len : Nat) : Bytes :=
  (bs.drop start).take len

/-- Cuts a byte string to a length, or extends it with zeros, as `ftruncate` does. -/
def resize (len : Nat) : Bytes :=
  bs.take len ++ List.replicate (len - bs.length) 0

theorem length_slice (start len : Nat) :
    (slice bs start len).length = min len (bs.length - start) := by
  simp [slice]

variable {bs} {start len : Nat}

theorem length_slice_of_le (h : start + len ≤ bs.length) : (slice bs start len).length = len := by
  rw [length_slice]
  omega

/-- A slice of exactly the middle part of a concatenation is that part. -/
theorem slice_middle {before part after : Bytes}
    (hstart : before.length = start) (hlen : part.length = len) :
    slice (before ++ (part ++ after)) start len = part := by
  subst hstart hlen
  simp [slice]

theorem slice_front {part after : Bytes} {len : Nat} (hlen : part.length = len) :
    slice (part ++ after) 0 len = part := by
  subst hlen
  simp [slice]

theorem slice_append_right (before after : Bytes) (start len : Nat) :
    slice (before ++ after) (before.length + start) len = slice after start len := by
  rw [slice, ← drop_drop, drop_left, slice]

/-- A slice that ends within the first part does not see the rest. -/
theorem slice_append_left {before after : Bytes} (h : start + len ≤ before.length) :
    slice (before ++ after) start len = slice before start len := by
  unfold slice
  rw [drop_append_of_le_length (by omega), take_append_of_le_length (by simp; omega)]

theorem slice_drop (bs : Bytes) (skip start len : Nat) :
    slice (bs.drop skip) start len = slice bs (skip + start) len := by
  simp [slice, drop_drop]

/-- A slice of a prefix that contains it is the slice of the whole. -/
theorem slice_take {keep start len : Nat} (h : start + len ≤ keep) :
    slice (bs.take keep) start len = slice bs start len := by
  unfold slice
  rw [drop_take, take_take]
  congr 1
  omega

theorem slice_slice {start len start' len' : Nat} (h : start' + len' ≤ len) :
    slice (slice bs start len) start' len' = slice bs (start + start') len' := by
  rw [slice.eq_1 bs start len, slice_take h, slice_drop]

theorem slice_add (bs : Bytes) (start len len' : Nat) :
    slice bs start (len + len') = slice bs start len ++ slice bs (start + len) len' := by
  simp [slice, take_add, drop_drop]

/-! ## Overwriting -/

/-- Puts bytes at an offset of a byte string, which grows when they reach past its end. -/
def overwrite (bs : Bytes) (offset : Nat) (data : Bytes) : Bytes :=
  resize bs offset ++ (data ++ bs.drop (offset + data.length))

@[simp] theorem length_resize (bs : Bytes) (len : Nat) : (resize bs len).length = len := by
  rw [resize, length_append, length_take, length_replicate]
  omega

@[simp] theorem length_overwrite (bs : Bytes) (offset : Nat) (data : Bytes) :
    (overwrite bs offset data).length = max bs.length (offset + data.length) := by
  simp only [overwrite, length_append, length_resize, length_drop]
  omega

theorem slice_overwrite (bs : Bytes) (offset : Nat) (data : Bytes) :
    slice (overwrite bs offset data) offset data.length = data :=
  slice_middle (length_resize _ _) rfl

theorem slice_overwrite_before {offset start len : Nat} (data : Bytes)
    (h : start + len ≤ offset) (hbs : start + len ≤ bs.length) :
    slice (overwrite bs offset data) start len = slice bs start len := by
  rw [overwrite, slice_append_left (by rw [length_resize]; exact h), resize,
    slice_append_left (by rw [length_take]; omega), slice_take h]

/-- What lies behind the put bytes is left. -/
theorem slice_overwrite_after {offset start : Nat} (data : Bytes) (len : Nat)
    (h : offset + data.length ≤ start) :
    slice (overwrite bs offset data) start len = slice bs start len := by
  obtain ⟨skip, rfl⟩ := Nat.exists_eq_add_of_le h
  have hlen : (resize bs offset ++ data).length = offset + data.length := by
    rw [length_append, length_resize]
  have := slice_append_right (resize bs offset ++ data) (bs.drop (offset + data.length)) skip len
  rw [hlen, slice_drop, append_assoc] at this
  exact this

/-! ## Checksums -/

/-- One byte into a CRC-32 register, reflected polynomial `0xEDB88320`. -/
def crcStep (register : UInt32) (b : UInt8) : UInt32 :=
  Nat.repeat (fun r => if r &&& 1 = 1 then (r >>> 1) ^^^ 0xEDB88320 else r >>> 1) 8
    (register ^^^ b.toUInt32)

/-- The CRC-32 of a byte string. -/
def crc32 (bs : Bytes) : Nat :=
  ((bs.foldl crcStep 0xFFFFFFFF) ^^^ 0xFFFFFFFF).toNat

example : crc32 [0x31, 0x32, 0x33, 0x34, 0x35, 0x36, 0x37, 0x38, 0x39] = 0xCBF43926 := by
  decide +kernel

theorem crc32_lt (bs : Bytes) : crc32 bs < 256 ^ 4 := UInt32.toNat_lt _

end FerricStore
