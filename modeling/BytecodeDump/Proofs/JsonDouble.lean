-- Doubles read back from their JSON text. A numeral is read as a double wherever rounding its
-- digits and its power of ten cannot lead past the largest one; that is so of every finite
-- double but the last few, which are looked at one by one. What is not finite is written as
-- null, and null is no double.
import BytecodeDump.Json.Script
import BytecodeDump.Proofs.JsonText
import BytecodeDump.Proofs.Shortest

namespace BytecodeDump

open Json

namespace Numeral

/-! ## Gathered digits -/

theorem le_spell (k : Nat) (ds : List Nat) : k ≤ spell k ds := by
  induction ds generalizing k with
  | nil => exact le_rfl
  | cons d ds ih => exact le_trans (by omega) (ih (10 * k + d))

/-- Digits that fit 64 bits are all kept. -/
theorem gather_of_lt (k : Nat) (ds : List Nat) (h : spell k ds < 0x10000000000000000) :
    gather k ds = (spell k ds, []) := by
  induction ds generalizing k with
  | nil => rfl
  | cons d ds ih =>
    rw [gather, if_pos ((le_spell _ ds).trans_lt h)]
    exact ih _ h

theorem mul_pow_length_le (k : Nat) (ds : List Nat) : k * 10 ^ ds.length ≤ spell k ds := by
  induction ds generalizing k with
  | nil => simp [spell]
  | cons d ds ih =>
    refine le_trans ?_ (ih (10 * k + d))
    rw [List.length_cons, pow_succ', ← mul_assoc]
    exact Nat.mul_le_mul_right _ (by omega)

/-- What is kept stands for no more than all the digits do. -/
theorem gather_le (k : Nat) (ds : List Nat) :
    (gather k ds).2.length ≤ ds.length ∧
      (gather k ds).1 * 10 ^ (gather k ds).2.length ≤ spell k ds := by
  induction ds generalizing k with
  | nil => simp [gather, spell]
  | cons d ds ih =>
    rw [gather]
    split
    · exact ⟨(ih _).1.trans (Nat.le_succ _), (ih _).2⟩
    · exact ⟨le_rfl, mul_pow_length_le k (d :: ds)⟩

theorem spell_digitsOf (n : Nat) : spell 0 (digitsOf n) = n := Parser.value_toDigits n

/-! ## Scaling -/

/-- No number up to this one is past the largest double after three roundings. -/
def safe : ℚ := (2 ^ 53 - 3) * Double.topUnit

theorem safe_lt_limit : safe < Double.limit := Double.mul_topUnit_lt_limit (by norm_num)

theorem safe_grown : safe * (1 + 1 / 2 ^ 53) * (1 + 1 / 2 ^ 53) < Double.limit := by
  calc safe * (1 + 1 / 2 ^ 53) * (1 + 1 / 2 ^ 53)
      = (2 ^ 53 - 3) * (1 + 1 / 2 ^ 53) * (1 + 1 / 2 ^ 53) * Double.topUnit := by
        rw [safe]
        ring
    _ < Double.limit := Double.mul_topUnit_lt_limit (by norm_num)

theorem ten_pow_lt_limit {n : Nat} (h : n ≤ maxPower) : (10 : ℚ) ^ n < Double.limit := by
  have hlargest : (10 ^ maxPower : Nat) ≤ (2 ^ 53 - 1) * 2 ^ 971 := by decide +kernel
  calc (10 : ℚ) ^ n ≤ 10 ^ maxPower := pow_le_pow_right₀ (by norm_num) h
    _ ≤ (2 ^ 53 - 1 : Nat) * (2 ^ 971 : Nat) := by exact_mod_cast hlargest
    _ = (2 ^ 53 - 1 : Nat) * Double.topUnit := by rw [Double.natCast_topUnit]
    _ < Double.limit := Double.mul_topUnit_lt_limit (by norm_num)

theorem scaleBy_isSome {k : Nat} {power : Int} (hpower : power ≤ maxPower)
    (h : (k : ℚ) * 10 ^ power ≤ safe) :
    (scaleBy? (.nearest false k 1) power).isSome = true := by
  rw [scaleBy?]
  rcases lt_or_ge power 0 with hneg | hpos
  · rw [if_pos hneg]
    rfl
  obtain ⟨n, rfl⟩ := Int.eq_ofNat_of_zero_le hpos
  replace hpower : n ≤ maxPower := by exact_mod_cast hpower
  rw [zpow_natCast] at h
  have hk : (k : ℚ) < Double.limit :=
    calc (k : ℚ) ≤ k * 10 ^ n := le_mul_of_one_le_right (by positivity) (one_le_pow₀ (by norm_num))
      _ ≤ safe := h
      _ < Double.limit := safe_lt_limit
  have hpow : (powerOfTen n).size ≤ 10 ^ n * (1 + 1 / 2 ^ 53) := by
    have hlt := ten_pow_lt_limit hpower
    have hcast : ((tenTo n : Nat) : ℚ) = 10 ^ n := by rw [tenTo_eq, Nat.cast_pow, Nat.cast_ofNat]
    rw [← hcast] at hlt ⊢
    exact Double.size_nearest_le hlt false
  have hfinite : ((Double.nearest false k 1).mul (powerOfTen n)).isFinite = true := by
    refine Double.isFinite_mul ?_
    calc (Double.nearest false k 1).size * (powerOfTen n).size
        ≤ k * (1 + 1 / 2 ^ 53) * (10 ^ n * (1 + 1 / 2 ^ 53)) :=
          mul_le_mul (Double.size_nearest_le hk false) hpow (Double.size_nonneg _) (by positivity)
      _ = k * 10 ^ n * (1 + 1 / 2 ^ 53) * (1 + 1 / 2 ^ 53) := by ring
      _ ≤ safe * (1 + 1 / 2 ^ 53) * (1 + 1 / 2 ^ 53) := by gcongr
      _ < Double.limit := safe_grown
  rw [if_neg hpos.not_gt, if_pos (by exact_mod_cast hpower), Int.toNat_natCast]
  simp only [hfinite, if_true, Option.isSome_some]

/-- What is kept of a numeral, at its place, is no more than the numeral. -/
theorem gathered_le_size (n : Numeral) :
    ((gather n.whole n.fraction).1 : ℚ) * 10 ^ (n.exponent.getD 0 -
      (n.fraction.length - (gather n.whole n.fraction).2.length : Nat)) ≤ n.size := by
  obtain ⟨hlength, hgather⟩ := gather_le n.whole n.fraction
  have hplace : n.exponent.getD 0 -
      (n.fraction.length - (gather n.whole n.fraction).2.length : Nat) =
      (gather n.whole n.fraction).2.length + (n.exponent.getD 0 - n.fraction.length) := by omega
  rw [hplace, zpow_add₀ (by norm_num), zpow_natCast, ← mul_assoc, size]
  gcongr
  exact_mod_cast hgather

/-- A numeral is read as a double where its whole digits fit 64 bits, its exponent is no more
than the largest power of ten has, and it denotes no more than is safe. -/
theorem toDouble_isSome {n : Numeral} (hwhole : n.whole < 0x10000000000000000)
    (hexponent : n.exponent.getD 0 ≤ maxPower) (hsize : n.size ≤ safe) :
    n.toDouble?.isSome = true := by
  have hfirst := gather_of_lt 0 (digitsOf n.whole) (by rwa [spell_digitsOf])
  rw [spell_digitsOf] at hfirst
  unfold toDouble?
  rw [hfirst]
  dsimp only
  split
  · -- An exponent that is not counted is below zero here.
    have : maxPower ≤ maxExponent := by decide
    rw [if_pos (.inr (by omega))]
    rfl
  · have hscaled := scaleBy_isSome (by omega) (n.gathered_le_size.trans hsize)
    have hplace : (([] : List Nat).length : Int) -
        (n.fraction.length - (gather n.whole n.fraction).2.length : Nat) + n.exponent.getD 0 =
        n.exponent.getD 0 - (n.fraction.length - (gather n.whole n.fraction).2.length : Nat) := by
      rw [List.length_nil, Nat.cast_zero, zero_sub, neg_add_eq_sub]
    obtain ⟨x, hx⟩ := Option.isSome_iff_exists.1 hscaled
    rw [hplace, hx]
    rfl

end Numeral

/-! ## Every finite double -/

namespace Double

theorem fraction_lt (x : Double) : x.fractionField < hiddenBit := Nat.mod_lt _ (by decide)

theorem significand_lt (x : Double) : x.significand < 2 * hiddenBit := by
  have := x.fraction_lt
  rw [significand]
  split <;> omega

theorem scale_le {x : Double} (h : x.isFinite = true) : x.scale ≤ 971 := by
  have hlt : x.exponentField < 0x800 := Nat.mod_lt _ (by decide)
  have hne : x.exponentField ≠ 2047 := of_decide_eq_true h
  rw [scale]
  omega

/-- The doubles of which the text might be read as more than the largest one. -/
def Last (x : Double) : Prop := x.scale = 971 ∧ 2 ^ 53 - 3 ≤ x.significand

theorem upperEnd_le {x : Double} (hfinite : x.isFinite = true) (h : ¬x.Last) :
    Decimal.upperEnd x ≤ Numeral.safe := by
  have hend : Decimal.upperEnd x = (x.significand + 1 / 2) * 2 ^ x.scale := by
    rw [Decimal.upperEnd, zpow_sub₀ two_ne_zero]
    push_cast
    ring
  rw [hend, Numeral.safe]
  rcases (scale_le hfinite).lt_or_eq with hlt | heq
  · -- One exponent less leaves room for every significand.
    have hhalf : (2 : ℚ) ^ (x.scale + 1) ≤ topUnit := zpow_le_zpow_right₀ one_le_two (by omega)
    rw [zpow_add_one₀ two_ne_zero] at hhalf
    have hsignificand : (x.significand : ℚ) + 1 ≤ (2 * hiddenBit : Nat) := by
      exact_mod_cast x.significand_lt
    rw [show ((2 * hiddenBit : Nat) : ℚ) = 2 ^ 53 by norm_num [hiddenBit]] at hsignificand
    calc ((x.significand : ℚ) + 1 / 2) * 2 ^ x.scale ≤ 2 ^ 53 * 2 ^ x.scale := by
          gcongr
          linarith
      _ = 2 ^ 52 * (2 ^ x.scale * 2) := by ring
      _ ≤ 2 ^ 52 * topUnit := by gcongr
      _ ≤ (2 ^ 53 - 3) * topUnit := mul_le_mul_of_nonneg_right (by norm_num) topUnit_pos.le
  · have hsignificand : x.significand + 4 ≤ 2 ^ 53 := by
      have : ¬2 ^ 53 - 3 ≤ x.significand := fun hge => h ⟨heq, hge⟩
      omega
    have hsignificand' : (x.significand : ℚ) + 4 ≤ 2 ^ 53 := by exact_mod_cast hsignificand
    rw [heq]
    exact mul_le_mul_of_nonneg_right (by linarith) topUnit_pos.le

/-- The last doubles are three of either sign. -/
theorem Last.eq_signed {x : Double} (h : x.Last) :
    ∃ negative, ∃ k < 3, x = signed negative (0x7FEFFFFFFFFFFFFF - k) := by
  obtain ⟨hscale, hsignificand⟩ := h
  have hexponent : x.exponentField = 2046 := by
    rw [scale] at hscale
    omega
  rw [significand, hexponent, if_neg (by decide)] at hsignificand
  have hfraction := x.fraction_lt
  rw [exponentField, Nat.shiftRight_eq_div_pow] at hexponent
  rw [fractionField] at hfraction hsignificand
  have hbits := x.bits.toNat_lt
  refine ⟨decide (2 ^ 63 ≤ x.bits.toNat), hiddenBit - 1 - x.bits.toNat % hiddenBit, ?_, ?_⟩
  · simp only [hiddenBit] at *
    omega
  · refine congrArg mk (UInt64.toNat_inj.1 ?_)
    rw [UInt64.toNat_ofNat_of_lt']
    · simp only [hiddenBit, decide_eq_true_eq] at *
      split <;> omega
    · simp only [hiddenBit, decide_eq_true_eq, UInt64.size] at *
      split <;> omega

theorem Last.isSome {x : Double} (h : x.Last) : (Read.double x.toJson).isSome = true := by
  obtain ⟨negative, k, hk, rfl⟩ := h.eq_signed
  have hall : ∀ negative, ∀ k < 3,
      (Read.double (signed negative (0x7FEFFFFFFFFFFFFF - k)).toJson).isSome = true := by
    decide +kernel
  exact hall negative k hk

theorem readable (x : Double) : x.toJson.Readable := by
  rw [toJson]
  split
  · exact Value.readable_number (doubleStyle.fraction_lt x)
  · exact Value.readable_null

theorem isSome_of_isZero {x : Double} (hfinite : x.isFinite = true) (h : x.isZero = true) :
    (Read.double x.toJson).isSome = true := by
  rw [toJson, if_pos hfinite, Decimal.Style.numeral, if_pos h]
  cases x.negative <;> rfl

/-- The value of a double is read as a double exactly where it is finite. -/
theorem isSome_double_toJson (x : Double) :
    (Read.double x.toJson).isSome = true ↔ x.isFinite = true := by
  cases hfinite : x.isFinite with
  | false =>
    rw [toJson, if_neg (by rw [hfinite]; decide)]
    decide
  | true =>
    refine iff_of_true ?_ rfl
    by_cases hlast : x.Last
    · exact hlast.isSome
    cases hzero : x.isZero with
    | true => exact isSome_of_isZero hfinite hzero
    | false =>
      have hsize : (doubleStyle.numeral x).size ≤ Numeral.safe :=
        (doubleStyle.size_numeral_le hzero).trans (upperEnd_le hfinite hlast)
      have hwhole := doubleStyle.whole_lt (show doubleStyle.bound = some ((16 : Nat) : Int) from rfl)
        (by decide) hzero
      rw [toJson, if_pos hfinite]
      refine Numeral.toDouble_isSome (hwhole.trans (by decide)) ?_ hsize
      exact doubleStyle.exponent_le hzero
        (hsize.trans_lt (Numeral.safe_lt_limit.trans limit_lt))

end Double

end BytecodeDump
