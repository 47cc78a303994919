-- How far rounding goes. The double nearest to a fraction is finite below the largest double
-- and half a unit of its last place, and a fraction of 1 or more grows by at most one part in
-- `2 ^ 53`.
import BytecodeDump.Double
import Mathlib

namespace BytecodeDump

/-! ## Whole numbers -/

theorem div_le_roundHalfEven (num den : Nat) : num / den ≤ roundHalfEven num den := by
  unfold roundHalfEven
  dsimp only
  split
  · exact le_rfl
  · split <;> omega

theorem roundHalfEven_le {den : Nat} (hden : 0 < den) (num : Nat) :
    (roundHalfEven num den : ℚ) ≤ num / den + 1 / 2 := by
  have hsplit : (num : ℚ) = den * (num / den : Nat) + (num % den : Nat) := by
    exact_mod_cast (Nat.div_add_mod num den).symm
  have hpos : (0 : ℚ) < den := by exact_mod_cast hden
  rw [hsplit, add_div, mul_div_cancel_left₀ _ hpos.ne']
  have hrest : (0 : ℚ) ≤ (num % den : Nat) / den := by positivity
  -- Only from half a unit on is anything added.
  have hhalf : den ≤ 2 * (num % den) → (1 / 2 : ℚ) ≤ (num % den : Nat) / den := by
    intro h
    have h' : (den : ℚ) ≤ 2 * (num % den : Nat) := by exact_mod_cast h
    rw [le_div_iff₀ hpos]
    linarith
  unfold roundHalfEven
  dsimp only
  split
  · linarith
  · rename_i hge
    have := hhalf (by omega)
    split
    · push_cast
      linarith
    · have hodd : ((num / den % 2 : Nat) : ℚ) ≤ 1 := by
        exact_mod_cast Nat.le_of_lt_succ (Nat.mod_lt (num / den) two_pos)
      push_cast at hodd ⊢
      linarith

namespace Double

/-! ## Sizes -/

/-- The size of a finite double, without its sign. -/
def size (x : Double) : ℚ := x.significand * 2 ^ x.scale

theorem size_nonneg (x : Double) : 0 ≤ x.size := by
  unfold size
  positivity

theorem magnitude_den_pos (x : Double) : 0 < x.magnitude.2 := by
  unfold magnitude
  split
  · exact one_pos
  · rw [Nat.shiftLeft_eq]
    positivity

theorem magnitude_eq (x : Double) : (x.magnitude.1 : ℚ) / x.magnitude.2 = x.size := by
  unfold magnitude size
  split
  · rename_i h
    have hscale : (2 : ℚ) ^ x.scale = 2 ^ x.scale.toNat := by
      rw [← zpow_natCast, Int.toNat_of_nonneg h]
    rw [hscale, Nat.shiftLeft_eq]
    push_cast
    ring
  · rename_i h
    have hscale : (2 : ℚ) ^ x.scale = (2 ^ (-x.scale).toNat)⁻¹ := by
      rw [← zpow_natCast, Int.toNat_of_nonneg (by omega), zpow_neg, inv_inv]
    rw [hscale, Nat.shiftLeft_eq]
    push_cast
    rw [one_mul, div_eq_mul_inv]

/-! ## The scaled fraction -/

/-- The fraction in units of `2 ^ e`. -/
def scaledTo (num den : Nat) (e : Int) : Nat × Nat :=
  if 0 ≤ e then (num, den <<< e.toNat) else (num <<< (-e).toNat, den)

/-- The unit for which about 53 bits stand before the point. -/
def guess (num den : Nat) : Int := (num.log2 : Int) - den.log2 - 52

/-- The unit of the last bit that is kept. -/
def lastUnit (num den : Nat) : Int :=
  max (if (scaledTo num den (guess num den)).2 <<< 52 ≤ (scaledTo num den (guess num den)).1
    then guess num den else guess num den - 1) (-1074)

theorem nearestSize_of_ne_zero {num den : Nat} (h : num ≠ 0) :
    nearestSize num den =
      min (roundHalfEven (scaledTo num den (lastUnit num den)).1
          (scaledTo num den (lastUnit num den)).2
        + (lastUnit num den + 1074).toNat * hiddenBit) infinitySize := by
  unfold nearestSize lastUnit guess scaledTo
  simp only [if_neg h]

section Scaled

variable {num den : Nat}

theorem scaledTo_den_pos (num : Nat) {den : Nat} (hden : 0 < den) (e : Int) :
    0 < (scaledTo num den e).2 := by
  unfold scaledTo
  split
  · rw [Nat.shiftLeft_eq]
    positivity
  · exact hden

theorem scaledTo_eq (num den : Nat) (e : Int) :
    ((scaledTo num den e).1 : ℚ) / (scaledTo num den e).2 = num / den / 2 ^ e := by
  unfold scaledTo
  split
  · rename_i h
    have he : (2 : ℚ) ^ e = 2 ^ e.toNat := by rw [← zpow_natCast, Int.toNat_of_nonneg h]
    rw [he, Nat.shiftLeft_eq]
    push_cast
    rw [div_div]
  · rename_i h
    have he : (2 : ℚ) ^ e = (2 ^ (-e).toNat)⁻¹ := by
      rw [← zpow_natCast, Int.toNat_of_nonneg (by omega), zpow_neg, inv_inv]
    rw [he, Nat.shiftLeft_eq]
    push_cast
    rw [div_inv_eq_mul]
    ring

/-- The guess has 52 or 53 bits before the point. -/
theorem guess_bounds (hnum : num ≠ 0) (hden : den ≠ 0) :
    2 ^ 51 ≤ (num / den / 2 ^ guess num den : ℚ) ∧
      (num / den / 2 ^ guess num den : ℚ) < 2 ^ 53 := by
  have hn : ((2 : ℚ) ^ num.log2 ≤ num) ∧ (num : ℚ) < 2 ^ (num.log2 + 1) :=
    ⟨by exact_mod_cast Nat.log2_self_le hnum, by exact_mod_cast Nat.lt_log2_self⟩
  have hd : ((2 : ℚ) ^ den.log2 ≤ den) ∧ (den : ℚ) < 2 ^ (den.log2 + 1) :=
    ⟨by exact_mod_cast Nat.log2_self_le hden, by exact_mod_cast Nat.lt_log2_self⟩
  have hpos : (0 : ℚ) < den := by exact_mod_cast Nat.pos_of_ne_zero hden
  have hguess : (2 : ℚ) ^ guess num den = 2 ^ num.log2 / (2 ^ den.log2 * 2 ^ 52) := by
    rw [guess, zpow_sub₀ two_ne_zero, zpow_sub₀ two_ne_zero, zpow_natCast, zpow_natCast, div_div]
    rfl
  have hunit : (0 : ℚ) < 2 ^ num.log2 / (2 ^ den.log2 * 2 ^ 52) := by positivity
  rw [hguess, le_div_iff₀ hunit, div_lt_iff₀ hunit, le_div_iff₀ hpos, div_lt_iff₀ hpos]
  refine ⟨?_, ?_⟩
  · calc (2 : ℚ) ^ 51 * (2 ^ num.log2 / (2 ^ den.log2 * 2 ^ 52)) * den
        ≤ 2 ^ 51 * (2 ^ num.log2 / (2 ^ den.log2 * 2 ^ 52)) * 2 ^ (den.log2 + 1) := by
          gcongr
          exact hd.2.le
      _ = 2 ^ num.log2 := by
          field_simp
          ring
      _ ≤ num := hn.1
  · calc (num : ℚ) < 2 ^ (num.log2 + 1) := hn.2
      _ = 2 ^ 53 * (2 ^ num.log2 / (2 ^ den.log2 * 2 ^ 52)) * 2 ^ den.log2 := by
          field_simp
          ring
      _ ≤ 2 ^ 53 * (2 ^ num.log2 / (2 ^ den.log2 * 2 ^ 52)) * den := by
          gcongr
          exact hd.1

/-- The exponent of the unit that leaves 53 bits before the point. -/
theorem lastUnit_eq_max (hnum : num ≠ 0) (hden : den ≠ 0) :
    ∃ e, lastUnit num den = max e (-1074) ∧
      2 ^ 52 ≤ (num / den / 2 ^ e : ℚ) ∧ (num / den / 2 ^ e : ℚ) < 2 ^ 53 := by
  have hbounds := guess_bounds hnum hden
  have hpos : (0 : ℚ) < (scaledTo num den (guess num den)).2 := by
    exact_mod_cast scaledTo_den_pos num (Nat.pos_of_ne_zero hden) _
  have hreached : (scaledTo num den (guess num den)).2 <<< 52 ≤
      (scaledTo num den (guess num den)).1 ↔
      2 ^ 52 ≤ (num / den / 2 ^ guess num den : ℚ) := by
    rw [← scaledTo_eq, le_div_iff₀ hpos, Nat.shiftLeft_eq, mul_comm]
    exact_mod_cast Iff.rfl
  rcases le_or_gt (2 ^ 52 : ℚ) (num / den / 2 ^ guess num den) with h | h
  · exact ⟨guess num den, by rw [lastUnit, if_pos (hreached.2 h)], h, hbounds.2⟩
  · refine ⟨guess num den - 1, by rw [lastUnit, if_neg (fun hr => h.not_ge (hreached.1 hr))], ?_⟩
    rw [zpow_sub_one₀ two_ne_zero, div_mul_eq_div_div, div_inv_eq_mul]
    constructor <;> linarith [hbounds.1]

/-- A fraction has fewer of the larger units. -/
theorem div_unit_le {v : ℚ} (hv : 0 ≤ v) {e e' : Int} (h : e ≤ e') : v / 2 ^ e' ≤ v / 2 ^ e :=
  div_le_div_of_nonneg_left hv (zpow_pos two_pos e) (zpow_le_zpow_right₀ one_le_two h)

/-- The last unit leaves 53 bits before the point, or is the least one there is. -/
theorem lastUnit_cases (hnum : num ≠ 0) (hden : den ≠ 0) :
    -1074 ≤ lastUnit num den ∧ (num / den / 2 ^ lastUnit num den : ℚ) < 2 ^ 53 ∧
      (lastUnit num den = -1074 ∨ 2 ^ 52 ≤ (num / den / 2 ^ lastUnit num den : ℚ)) := by
  obtain ⟨e, he, hlow, hhigh⟩ := lastUnit_eq_max hnum hden
  rw [he]
  generalize (-1074 : Int) = least
  refine ⟨le_max_right _ _, (div_unit_le (by positivity) (le_max_left _ _)).trans_lt hhigh, ?_⟩
  rcases le_total e least with h | h
  · exact .inl (max_eq_right h)
  · rw [max_eq_left h]
    exact .inr hlow

/-- What is kept of a fraction, and the unit in which it is kept. -/
theorem nearestSize_cases (hnum : num ≠ 0) (hden : den ≠ 0) :
    ∃ (e : Int) (kept : Nat), -1074 ≤ e ∧
      nearestSize num den = min (kept + (e + 1074).toNat * hiddenBit) infinitySize ∧
      (num / den / 2 ^ e : ℚ) < 2 ^ 53 ∧ (kept : ℚ) ≤ num / den / 2 ^ e + 1 / 2 ∧
      kept ≤ 2 * hiddenBit ∧
      (e = -1074 ∨ 2 ^ 52 ≤ (num / den / 2 ^ e : ℚ) ∧ hiddenBit ≤ kept) := by
  obtain ⟨hleast, hhigh, hlow⟩ := lastUnit_cases hnum hden
  have hpos := scaledTo_den_pos num (Nat.pos_of_ne_zero hden) (lastUnit num den)
  have hkept := roundHalfEven_le hpos (scaledTo num den (lastUnit num den)).1
  rw [scaledTo_eq] at hkept
  refine ⟨_, _, hleast, nearestSize_of_ne_zero hnum, hhigh, hkept, ?_, ?_⟩
  · have : ((roundHalfEven (scaledTo num den (lastUnit num den)).1
        (scaledTo num den (lastUnit num den)).2 : Nat) : ℚ) < (2 ^ 53 + 1 : Nat) := by
      push_cast
      linarith
    exact Nat.lt_succ_iff.1 (by exact_mod_cast this)
  · refine hlow.imp_right fun h => ⟨h, ?_⟩
    refine le_trans ?_ (div_le_roundHalfEven _ _)
    rw [Nat.le_div_iff_mul_le hpos]
    rw [← scaledTo_eq, le_div_iff₀ (by exact_mod_cast hpos)] at h
    exact_mod_cast h

end Scaled

/-! ## Finite results -/

theorem fields_signed {size : Nat} (h : size < 0x8000000000000000) (negative : Bool) :
    (signed negative size).exponentField = size / hiddenBit ∧
      (signed negative size).fractionField = size % hiddenBit := by
  have hbits : (signed negative size).bits.toNat =
      if negative then 0x8000000000000000 + size else size := by
    rw [signed, UInt64.toNat_ofNat_of_lt']
    split <;> simp [UInt64.size] <;> omega
  rw [exponentField, fractionField, hbits, Nat.shiftRight_eq_div_pow, hiddenBit]
  split <;> omega

theorem isFinite_signed {size : Nat} (h : size < infinitySize) (negative : Bool) :
    (signed negative size).isFinite = true := by
  have hsize : infinitySize = 2047 * hiddenBit := rfl
  obtain ⟨hexponent, -⟩ := fields_signed (lt_trans h (by decide)) negative
  have hlt : size / hiddenBit < 2047 := Nat.div_lt_of_lt_mul (by rw [mul_comm]; omega)
  rw [isFinite, hexponent]
  exact decide_eq_true hlt.ne

/-- The size of a double with so many units of the `k`th last place. -/
theorem size_signed {kept k : Nat} (hkept : kept ≤ 2 * hiddenBit) (hk : k = 0 ∨ hiddenBit ≤ kept)
    (hfinite : kept + k * hiddenBit < infinitySize) (negative : Bool) :
    (signed negative (kept + k * hiddenBit)).size = kept * 2 ^ ((k : Int) - 1074) := by
  obtain ⟨hexponent, hfraction⟩ := fields_signed (lt_trans hfinite (by decide)) negative
  rw [Nat.add_mul_div_right _ _ (by decide)] at hexponent
  rw [Nat.add_mul_mod_self_right] at hfraction
  rw [size, significand, scale, hexponent, hfraction]
  rcases Nat.lt_or_ge kept hiddenBit with hlow | hlow
  · obtain rfl : k = 0 := hk.resolve_right (by omega)
    rw [Nat.div_eq_of_lt hlow, Nat.mod_eq_of_lt hlow]
    rfl
  rcases Nat.lt_or_ge kept (2 * hiddenBit) with hhigh | hhigh
  · rw [Nat.div_eq_of_lt_le (k := 1) (by omega) (by omega), Nat.mod_eq_sub_mod hlow,
      Nat.mod_eq_of_lt (by omega), if_neg (by omega), Nat.add_sub_cancel' hlow,
      max_eq_left (by omega)]
    congr 2
    omega
  · obtain rfl : kept = 2 * hiddenBit := le_antisymm hkept hhigh
    rw [Nat.mul_mod_left, Nat.mul_div_cancel _ (by decide), if_neg (by omega),
      max_eq_left (by omega), show ((2 + k : Nat) : Int) - 1075 = (k - 1074) + 1 by omega,
      zpow_add_one₀ two_ne_zero]
    push_cast
    ring

/-- The unit of the last place of the largest doubles. -/
def topUnit : ℚ := 2 ^ (971 : Int)

theorem topUnit_pos : 0 < topUnit := zpow_pos two_pos _

theorem natCast_topUnit : ((2 ^ 971 : Nat) : ℚ) = topUnit := by
  rw [Nat.cast_pow, topUnit, ← zpow_natCast]
  rfl

/-- What rounds to infinity starts half a unit of the last place above the largest double. -/
def limit : ℚ := (2 ^ 53 - 1 / 2) * topUnit

theorem mul_topUnit_lt_limit {n : ℚ} (h : n < 2 ^ 53 - 1 / 2) : n * topUnit < limit :=
  mul_lt_mul_of_pos_right h topUnit_pos

theorem limit_lt : limit < 10 ^ 309 := by
  have hsmall : (2 ^ 53 * 2 ^ 971 : Nat) < 10 ^ 309 := by decide +kernel
  calc limit < 2 ^ 53 * topUnit := mul_lt_mul_of_pos_right (by norm_num) topUnit_pos
    _ = (2 ^ 53 * 2 ^ 971 : Nat) := by rw [Nat.cast_mul, natCast_topUnit]; norm_num
    _ < (10 ^ 309 : Nat) := by exact_mod_cast hsmall
    _ = 10 ^ 309 := by rw [Nat.cast_pow, Nat.cast_ofNat]

theorem nearestSize_lt {num den : Nat} (hden : den ≠ 0) (h : (num / den : ℚ) < limit) :
    nearestSize num den < infinitySize := by
  rcases eq_or_ne num 0 with rfl | hnum
  · show 0 < infinitySize
    decide
  obtain ⟨e, kept, hleast, hsize, -, hkept, hkept', hlow⟩ := nearestSize_cases hnum hden
  rw [hsize, min_lt_iff]
  refine .inl (Nat.lt_of_not_le fun hge => h.not_ge ?_)
  have hinfinity : infinitySize = 2047 * hiddenBit := rfl
  have he : 971 ≤ e := by
    by_contra hlt
    have : (e + 1074).toNat * hiddenBit ≤ 2044 * hiddenBit := Nat.mul_le_mul_right _ (by omega)
    have : 0 < hiddenBit := by decide
    omega
  have hpos : (0 : ℚ) < 2 ^ e := zpow_pos two_pos e
  rcases he.eq_or_lt with rfl | hlt
  · -- At the largest exponent only a full `2 ^ 53` leads past the largest double.
    have hfull : 2 * hiddenBit ≤ kept := by
      rw [show (971 + 1074 : Int).toNat = 2045 from rfl] at hge
      omega
    have hfull' : (2 ^ 53 : ℚ) ≤ kept := by
      rw [show (2 ^ 53 : ℚ) = (2 * hiddenBit : Nat) by norm_num [hiddenBit]]
      exact_mod_cast hfull
    have hvalue : (2 ^ 53 - 1 / 2 : ℚ) ≤ num / den / 2 ^ (971 : Int) := by linarith
    exact (le_div_iff₀ hpos).1 hvalue
  · have hhigh := (hlow.resolve_left (by omega)).1
    rw [le_div_iff₀ hpos] at hhigh
    have hunit : (2 : ℚ) ^ ((971 : Int) + 1) ≤ 2 ^ e := zpow_le_zpow_right₀ one_le_two hlt
    rw [zpow_add_one₀ two_ne_zero] at hunit
    rw [← topUnit] at hunit
    calc limit ≤ 2 ^ 52 * (topUnit * 2) := by
          rw [limit]
          linarith [topUnit_pos]
      _ ≤ 2 ^ 52 * 2 ^ e := by gcongr
      _ ≤ num / den := hhigh

/-- A whole number grows by at most one part in `2 ^ 53`. -/
theorem size_nearest_le {n : Nat} (h : (n : ℚ) < limit) (negative : Bool) :
    (nearest negative n 1).size ≤ n * (1 + 1 / 2 ^ 53) := by
  rcases eq_or_ne n 0 with rfl | hn
  · have hzero : (nearest negative 0 1).size = (0 : Nat) * 2 ^ (((0 : Nat) : Int) - 1074) :=
      size_signed (Nat.zero_le _) (.inl rfl) (by decide) negative
    rw [hzero, Nat.cast_zero, zero_mul, zero_mul]
  have hfinite : nearestSize n 1 < infinitySize := nearestSize_lt one_ne_zero (by simpa using h)
  obtain ⟨e, kept, hleast, hsize, hhigh, hkept, hkept', hlow⟩ := nearestSize_cases hn one_ne_zero
  have hpos : (0 : ℚ) < 2 ^ e := zpow_pos two_pos e
  have hone : (1 : ℚ) ≤ n := by exact_mod_cast Nat.one_le_iff_ne_zero.2 hn
  rw [Nat.cast_one, div_one] at hhigh hkept hlow
  have hnormal : e ≠ -1074 := by
    rintro rfl
    rw [div_lt_iff₀ hpos] at hhigh
    have : (2 : ℚ) ^ (-1074 : Int) ≤ 2 ^ (-53 : Int) := zpow_le_zpow_right₀ one_le_two (by decide)
    have : (2 : ℚ) ^ (-53 : Int) * 2 ^ 53 = 1 := by norm_num
    linarith
  obtain ⟨hunits, hkeeps⟩ := hlow.resolve_left hnormal
  have hlt : kept + (e + 1074).toNat * hiddenBit < infinitySize := by
    rw [hsize] at hfinite
    exact (min_lt_iff.1 hfinite).resolve_right (lt_irrefl _)
  rw [nearest, hsize, min_eq_left hlt.le, size_signed hkept' (.inr hkeeps) hlt,
    Int.toNat_of_nonneg (by omega), add_sub_cancel_right]
  rw [le_div_iff₀ hpos] at hunits
  have hkept'' : (kept : ℚ) * 2 ^ e ≤ (n / 2 ^ e + 1 / 2) * 2 ^ e := by gcongr
  rw [add_mul, div_mul_cancel₀ _ hpos.ne'] at hkept''
  linarith

theorem isFinite_mul {x y : Double} (h : x.size * y.size < limit) : (x.mul y).isFinite = true := by
  have hx := x.magnitude_den_pos
  have hy := y.magnitude_den_pos
  have hvalue : ((x.magnitude.1 * y.magnitude.1 : Nat) / (x.magnitude.2 * y.magnitude.2 : Nat) : ℚ)
      = x.size * y.size := by
    push_cast
    rw [← div_mul_div_comm, magnitude_eq, magnitude_eq]
  exact isFinite_signed (nearestSize_lt (Nat.mul_ne_zero hx.ne' hy.ne') (hvalue.trans_lt h)) _

end Double

end BytecodeDump
