-- The sign of a number of some bytes. It is that of two's complement, as long as 32 bits can
-- count the bits of the bytes; of a larger number of bytes those are taken that are left by the
-- count, so that it may cut off what is there.
import BytecodeDump.Bytes.Word
import Mathlib

namespace BytecodeDump

namespace Word

/-! ## Two's complement -/

/-- The number that the low bytes of a word denote in two's complement. A word has no more
than eight. -/
def denoted (value : UInt64) (bytes : Nat) : Int :=
  (value.toBitVec.setWidth (min (8 * bytes) 64)).toInt

/-- The width in bits, as 32 bits count it. -/
def countedWidth (bytes : UInt32) : Nat := (bytes * 8).toNat

variable (value : UInt64) (bytes : UInt32)

/-- The low bytes of a word denote the number nearest to zero that has them. -/
theorem denoted_eq_bmod {bytes : Nat} (h : bytes ≤ 8) :
    denoted value bytes = Int.bmod value.toNat (256 ^ bytes) := by
  have hpower : 2 ^ (8 * bytes) = 256 ^ bytes := by rw [Nat.pow_mul]
  rw [denoted, Nat.min_eq_left (by omega), BitVec.toInt_eq_toNat_bmod, BitVec.toNat_setWidth,
    Int.natCast_emod, Int.emod_bmod, hpower, UInt64.toNat_toBitVec]

/-- Eight bytes are all of a word. -/
theorem denoted_of_ge {bytes : Nat} (h : 8 ≤ bytes) :
    denoted value bytes = value.toInt64.toInt := by
  rw [denoted, Nat.min_eq_right (by omega), BitVec.setWidth_eq]
  rfl

theorem countedWidth_eq : countedWidth bytes = 8 * (bytes.toNat % 2 ^ 29) := by
  rw [countedWidth, UInt32.toNat_mul, show (2 : Nat) ^ 32 = 8 * 2 ^ 29 by norm_num, Nat.mul_comm]
  exact Nat.mul_mod_mul_left 8 _ _

/-! ## Masks -/

section Masks

variable {width : UInt32} (h : width.toNat < 64)

include h

theorem toNat_power : ((1 : UInt64) <<< width.toUInt64).toNat = 2 ^ width.toNat := by
  have hpower : 2 ^ width.toNat < 2 ^ 64 := Nat.pow_lt_pow_right (by decide) h
  rw [UInt64.toNat_shiftLeft, UInt32.toNat_toUInt64, Nat.mod_eq_of_lt h, UInt64.toNat_one,
    Nat.one_shiftLeft, Nat.mod_eq_of_lt hpower]

/-- The mask has the low bits. -/
theorem bit_lowMask (n : Nat) :
    ((1 : UInt64) <<< width.toUInt64 - 1).toBitVec.getLsbD n = decide (n < width.toNat) := by
  have hone : (1 : UInt64) ≤ 1 <<< width.toUInt64 := by
    rw [UInt64.le_iff_toNat_le, toNat_power h]
    exact Nat.one_le_two_pow
  rw [← BitVec.testBit_toNat, UInt64.toNat_toBitVec, UInt64.toNat_sub_of_le _ _ hone,
    toNat_power h]
  exact Nat.testBit_two_pow_sub_one _ _

/-- The mask of one bit finds it. -/
theorem and_power_ne_zero : value &&& 1 <<< width.toUInt64 ≠ 0 ↔
    value.toBitVec.getLsbD width.toNat = true := by
  rw [Ne, ← UInt64.toNat_inj, UInt64.toNat_and, toNat_power h, Nat.and_two_pow,
    ← BitVec.testBit_toNat, UInt64.toNat_toBitVec]
  cases value.toNat.testBit width.toNat <;> simp

end Masks

/-! ## The extension -/

/-- A word with its low bits kept, and its other bits set as the top one of them is. -/
theorem filled_eq {lowMask : UInt64} {width : Nat} (hpos : 0 < width)
    (hmask : ∀ n, lowMask.toBitVec.getLsbD n = decide (n < width)) :
    (if value.toBitVec.getLsbD (width - 1) then value &&& lowMask ||| ~~~lowMask
      else value &&& lowMask).toBitVec = (value.toBitVec.setWidth width).signExtend 64 := by
  have hlast : width - 1 < width := by omega
  apply BitVec.eq_of_getLsbD_eq
  intro n hn
  rw [BitVec.getLsbD_signExtend, BitVec.msb_eq_getLsbD_last, BitVec.getLsbD_setWidth,
    BitVec.getLsbD_setWidth, decide_eq_true hn, decide_eq_true hlast, Bool.true_and, Bool.true_and]
  by_cases htop : value.toBitVec.getLsbD (width - 1) = true
  · rw [if_pos htop, UInt64.toBitVec_or, UInt64.toBitVec_and, UInt64.toBitVec_not,
      BitVec.getLsbD_or, BitVec.getLsbD_and, BitVec.getLsbD_not, hmask, decide_eq_true hn, htop]
    by_cases hlow : n < width <;> simp [hlow]
  · rw [if_neg htop, UInt64.toBitVec_and, BitVec.getLsbD_and, hmask, Bool.eq_false_iff.2 htop]
    by_cases hlow : n < width <;> simp [hlow]

/-- The low bits are taken, and the top one of them fills the rest of the word. -/
theorem signExtend_eq : signExtend value bytes =
    .ofBitVec ((value.toBitVec.setWidth (min (countedWidth bytes) 64)).signExtend 64) := by
  apply Int64.toBitVec_inj.1
  unfold signExtend countedWidth
  dsimp only
  generalize bytes * 8 = width
  split
  · rename_i hzero
    subst hzero
    simp [BitVec.signExtend]
  rename_i hne
  split
  · rename_i hfull
    rw [Nat.min_eq_right (show 64 ≤ width.toNat from UInt32.le_iff_toNat_le.1 hfull)]
    simp
  · rename_i hpart
    have hlt : width.toNat < 64 := by simpa [UInt32.le_iff_toNat_le] using hpart
    have hpos : 0 < width.toNat := Nat.pos_of_ne_zero fun h => hne (UInt32.toNat_inj.1 h)
    have htop : (width - 1).toNat = width.toNat - 1 :=
      UInt32.toNat_sub_of_le _ _ (UInt32.le_iff_toNat_le.2 hpos)
    have hmask := bit_lowMask hlt
    have hsign := and_power_ne_zero (value &&& (1 <<< width.toUInt64 - 1))
      (show (width - 1).toNat < 64 by omega)
    rw [htop, UInt64.toBitVec_and, BitVec.getLsbD_and, hmask,
      decide_eq_true (show width.toNat - 1 < width.toNat by omega), Bool.and_true] at hsign
    rw [Nat.min_eq_left hlt.le, Int64.toBitVec_ofBitVec, ← filled_eq value hpos hmask]
    simp only [hsign]
    split <;> rfl

/-- The bits that count are those of the low bytes, and there are no more than 64. -/
theorem toInt_signExtend :
    (signExtend value bytes).toInt = denoted value (bytes.toNat % 2 ^ 29) := by
  rw [signExtend_eq, Int64.toInt_ofBitVec, BitVec.toInt_signExtend_of_le (Nat.min_le_right _ _),
    countedWidth_eq, denoted]

theorem setWidth_signExtend_self {width : Nat} (h : width ≤ 64) (low : BitVec width) :
    (low.signExtend 64).setWidth width = low := by
  apply BitVec.eq_of_getLsbD_eq
  intro n hn
  rw [BitVec.getLsbD_setWidth, BitVec.getLsbD_signExtend, if_pos hn,
    decide_eq_true (hn.trans_le h), decide_eq_true hn, Bool.true_and, Bool.true_and]

/-- What was filled up has the same low bits. -/
theorem signExtend_signExtend :
    signExtend (signExtend value bytes).toUInt64 bytes = signExtend value bytes := by
  have hbits : (signExtend value bytes).toUInt64.toBitVec =
      (value.toBitVec.setWidth (min (countedWidth bytes) 64)).signExtend 64 := by
    rw [signExtend_eq]
    rfl
  rw [signExtend_eq, hbits, setWidth_signExtend_self (Nat.min_le_right _ _), ← signExtend_eq]

/-! ## The law -/

/-- Every word extended from so many bytes is the number that these denote in two's complement,
from eight bytes on all of the word counts, and extending it again does not change it. -/
structure IsTwosComplement (bytes : UInt32) : Prop where
  low : ∀ value, (signExtend value bytes).toInt = denoted value bytes.toNat
  full : 8 ≤ bytes.toNat → ∀ value, signExtend value bytes = value.toInt64
  again : ∀ value, signExtend (signExtend value bytes).toUInt64 bytes = signExtend value bytes

/-- A word is extended from as many bytes as are left when their bits are counted in 32 bits,
and extending it again does not change it. So it is extended as in two's complement just where
the bits can be counted, and where eight bytes or more are left. -/
theorem sign_is_counted_in_32_bits (bytes : UInt32) :
    (∀ value, (signExtend value bytes).toInt = denoted value (bytes.toNat % 2 ^ 29)) ∧
      (∀ value, signExtend (signExtend value bytes).toUInt64 bytes = signExtend value bytes) ∧
      (IsTwosComplement bytes ↔ bytes.toNat < 2 ^ 29 ∨ 8 ≤ bytes.toNat % 2 ^ 29) := by
  refine ⟨(toInt_signExtend · bytes), (signExtend_signExtend · bytes), ?_, ?_⟩
  · intro h
    by_contra hlost
    -- Of the word that has its top bit alone, seven bytes are zero.
    have hfull := h.full (by omega) 0x8000000000000000
    have hpart := toInt_signExtend 0x8000000000000000 bytes
    have hzero : ∀ n < 8, denoted 0x8000000000000000 n = 0 := by decide
    rw [hfull, hzero _ (by omega)] at hpart
    exact absurd hpart (by decide)
  · intro hbytes
    have hlow : ∀ value, (signExtend value bytes).toInt = denoted value bytes.toNat := by
      intro value
      rw [toInt_signExtend]
      rcases hbytes with hfew | hmany
      · rw [Nat.mod_eq_of_lt hfew]
      · rw [denoted_of_ge value hmany, denoted_of_ge value (hmany.trans (Nat.mod_le _ _))]
    refine ⟨hlow, ?_, fun value => signExtend_signExtend value bytes⟩
    intro hfull value
    rw [← Int64.toInt_inj, hlow, denoted_of_ge value hfull]

/-- Of `2 ^ 29` bytes none is left, and no bit of the word counts. -/
theorem bytes_past_the_count_are_lost :
    signExtend 0xFFFFFFFFFFFFFFFF 0x20000000 = 0 ∧
      denoted 0xFFFFFFFFFFFFFFFF (0x20000000 : UInt32).toNat = -1 ∧
      ¬IsTwosComplement 0x20000000 := by
  have hfound : signExtend 0xFFFFFFFFFFFFFFFF 0x20000000 = 0 := by decide
  have hdenoted : denoted 0xFFFFFFFFFFFFFFFF (0x20000000 : UInt32).toNat = -1 := by decide
  refine ⟨hfound, hdenoted, ?_⟩
  intro h
  have hlow := h.low 0xFFFFFFFFFFFFFFFF
  rw [hfound, hdenoted] at hlow
  exact absurd hlow (by decide)

end Word

end BytecodeDump
