/-!
# Bytes and fixed-width words

Files are lists of bytes in file order. `littleEndian w n` writes the low `w` bytes of `n`, least
significant first, and `ofLittleEndian` reads them back; the big-endian forms hold the same bytes in
reverse. `blocks` cuts a byte string into whole blocks of one width, `overwrite` replaces part of
one.
-/

namespace AppearanceIndex

/-- Bytes in file order. -/
abbrev Bytes := List UInt8

namespace Bytes

/-- The low `width` bytes of a number, least significant first. -/
def littleEndian : Nat → Nat → Bytes
  | 0, _ => []
  | width + 1, n => UInt8.ofNat (n % 256) :: littleEndian width (n / 256)

/-- The number with the given bytes, least significant first. -/
def ofLittleEndian : Bytes → Nat
  | [] => 0
  | b :: bs => b.toNat + 256 * ofLittleEndian bs

/-- The low `width` bytes of a number, most significant first. -/
def bigEndian (width n : Nat) : Bytes := (littleEndian width n).reverse

/-- The number with the given bytes, most significant first. -/
def ofBigEndian (bs : Bytes) : Nat := ofLittleEndian bs.reverse

/-- The little-endian word of `width` bytes at offset `at_`. -/
def wordAt (bs : Bytes) (at_ width : Nat) : Nat := ofLittleEndian ((bs.drop at_).take width)

/-- The `count` bytes from an offset on, with zeros where the string has ended. -/
def window (bs : Bytes) (offset count : Nat) : Vector UInt8 count :=
  Vector.ofFn fun i => bs.getD (offset + i) 0

/-- The whole blocks of `width` bytes, in order; a shorter tail is left out. -/
def blocks (width : Nat) (bs : Bytes) : List Bytes :=
  if _h : 0 < width ∧ (bs.take width).length = width then
    bs.take width :: blocks width (bs.drop width)
  else []
termination_by bs.length
decreasing_by simp only [List.length_take, List.length_drop] at *; omega

/-- `patch` written over the bytes from `offset` on; a gap before it is filled with zeros. -/
def overwrite (bs : Bytes) (offset : Nat) (patch : Bytes) : Bytes :=
  (bs ++ List.replicate (offset - bs.length) 0).take offset ++ patch
    ++ bs.drop (offset + patch.length)

/-! ## Lengths and round trips -/

/-- How many numbers so many bytes can spell. -/
def capacity (width : Nat) : Nat := Nat.pow 256 width

theorem capacity_zero : capacity 0 = 1 := rfl

theorem capacity_succ (width : Nat) : capacity (width + 1) = 256 * capacity width :=
  Nat.mul_comm _ _

@[simp] theorem length_littleEndian (width n : Nat) : (littleEndian width n).length = width := by
  induction width generalizing n with
  | zero => rfl
  | succ width ih => simp [littleEndian, ih]

@[simp] theorem length_bigEndian (width n : Nat) : (bigEndian width n).length = width := by
  simp [bigEndian]

theorem ofLittleEndian_littleEndian (width n : Nat) :
    ofLittleEndian (littleEndian width n) = n % capacity width := by
  induction width generalizing n with
  | zero => simp [littleEndian, ofLittleEndian, capacity_zero, Nat.mod_one]
  | succ width ih =>
    simp only [littleEndian, ofLittleEndian, ih, UInt8.toNat_ofNat', Nat.reducePow, Nat.mod_mod]
    rw [capacity_succ, Nat.mod_mul]

theorem littleEndian_ofLittleEndian (bs : Bytes) :
    littleEndian bs.length (ofLittleEndian bs) = bs := by
  induction bs with
  | nil => rfl
  | cons b bs ih =>
    have hb : b.toNat < 256 := b.toNat_lt
    have hdiv : (b.toNat + 256 * ofLittleEndian bs) / 256 = ofLittleEndian bs := by omega
    have hmod : (b.toNat + 256 * ofLittleEndian bs) % 256 = b.toNat := by omega
    simp only [List.length_cons, littleEndian, ofLittleEndian, hdiv, hmod, ih, UInt8.ofNat_toNat]

theorem ofLittleEndian_lt (bs : Bytes) : ofLittleEndian bs < capacity bs.length := by
  induction bs with
  | nil => simp [ofLittleEndian, capacity_zero]
  | cons b bs ih =>
    have hb : b.toNat < 256 := b.toNat_lt
    simp only [ofLittleEndian, List.length_cons, capacity_succ]
    omega

theorem ofBigEndian_bigEndian (width n : Nat) :
    ofBigEndian (bigEndian width n) = n % capacity width := by
  simp [ofBigEndian, bigEndian, ofLittleEndian_littleEndian]

theorem bigEndian_ofBigEndian (bs : Bytes) : bigEndian bs.length (ofBigEndian bs) = bs := by
  have h := littleEndian_ofLittleEndian bs.reverse
  simp only [List.length_reverse] at h
  simp [bigEndian, ofBigEndian, h]

theorem ofBigEndian_lt (bs : Bytes) : ofBigEndian bs < capacity bs.length := by
  simpa [ofBigEndian] using ofLittleEndian_lt bs.reverse

theorem length_blocks (width : Nat) (bs : Bytes) (h : 0 < width) :
    (blocks width bs).length = bs.length / width := by
  fun_induction blocks width bs with
  | case1 bs hw ih =>
    simp only [List.length_take] at hw
    simp only [List.length_cons, ih, List.length_drop]
    rw [← Nat.div_eq_sub_div h (by omega)]
  | case2 bs hw =>
    simp only [List.length_take] at hw
    rw [Nat.div_eq_of_lt (by omega)]; rfl

end Bytes

end AppearanceIndex
