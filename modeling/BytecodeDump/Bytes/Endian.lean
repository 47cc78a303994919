-- Byte strings, and the integers of a fixed number of bytes that stand in them.
-- The low bytes of a number and the number of some low bytes undo each other, in
-- either byte order.

namespace BytecodeDump

/-- A string of raw bytes. -/
abbrev Bytes := List UInt8

/-- Which byte of a fixed-width integer comes first. -/
inductive Endian where
  /-- The most significant byte comes first. -/
  | big
  /-- The least significant byte comes first. -/
  | little
  deriving DecidableEq, Repr

namespace Endian

/-! ## Low bytes -/

/-- The low `width` bytes of `n`, least significant first. -/
def lowBytes : Nat → Nat → Bytes
  | 0, _ => []
  | width + 1, n => UInt8.ofNat n :: lowBytes width (n / 256)

/-- The number whose bytes these are, least significant first. -/
def lowValue : Bytes → Nat
  | [] => 0
  | b :: bs => b.toNat + 256 * lowValue bs

/-- How many numbers so many bytes can spell. -/
def span : Nat → Nat
  | 0 => 1
  | width + 1 => 256 * span width

@[simp] theorem length_lowBytes (width n : Nat) : (lowBytes width n).length = width := by
  induction width generalizing n with
  | zero => rfl
  | succ w ih => simp [lowBytes, ih]

theorem lowValue_lowBytes (width n : Nat) : lowValue (lowBytes width n) = n % span width := by
  induction width generalizing n with
  | zero => simp [lowBytes, lowValue, span, Nat.mod_one]
  | succ w ih =>
    have low : (UInt8.ofNat n).toNat = n % 256 := UInt8.toNat_ofNat'
    rw [lowBytes, lowValue, ih, low, span, Nat.mod_mul]

theorem lowValue_lt (bs : Bytes) : lowValue bs < span bs.length := by
  induction bs with
  | nil => simp [lowValue, span]
  | cons b bs ih =>
    have hb : b.toNat < 256 := b.toNat_lt
    rw [lowValue, List.length_cons, span]
    omega

theorem lowBytes_lowValue (bs : Bytes) : lowBytes bs.length (lowValue bs) = bs := by
  induction bs with
  | nil => rfl
  | cons b bs ih =>
    have hb : b.toNat < 256 := b.toNat_lt
    have hdiv : (b.toNat + 256 * lowValue bs) / 256 = lowValue bs := by omega
    have hmod : UInt8.ofNat (b.toNat + 256 * lowValue bs) = b := by
      apply UInt8.toNat_inj.1
      rw [UInt8.toNat_ofNat']
      omega
    simp only [List.length_cons, lowBytes, lowValue, hdiv, hmod, ih]

/-! ## Either order -/

/-- The low `width` bytes of `n` in this byte order. -/
def write : Endian → Nat → Nat → Bytes
  | little, width, n => lowBytes width n
  | big, width, n => (lowBytes width n).reverse

/-- The number that all of `bs` spells in this byte order. -/
def read : Endian → Bytes → Nat
  | little, bs => lowValue bs
  | big, bs => lowValue bs.reverse

@[simp] theorem length_write (e : Endian) (width n : Nat) : (e.write width n).length = width := by
  cases e <;> simp [write]

theorem read_write (e : Endian) (width n : Nat) : e.read (e.write width n) = n % span width := by
  cases e <;> simp [read, write, lowValue_lowBytes]

theorem write_read (e : Endian) (bs : Bytes) : e.write bs.length (e.read bs) = bs := by
  cases e with
  | little => exact lowBytes_lowValue bs
  | big =>
    have h := lowBytes_lowValue bs.reverse
    rw [List.length_reverse] at h
    simp [read, write, h]

theorem read_lt (e : Endian) (bs : Bytes) : e.read bs < span bs.length := by
  cases e with
  | little => exact lowValue_lt bs
  | big => simpa [read] using lowValue_lt bs.reverse

end Endian

end BytecodeDump
