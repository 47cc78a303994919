-- The digits that are written for a double. They are those of a number that rounds to it, so
-- they lie no further above it than half a unit of its last place, and however they are laid
-- out the numeral has the size of these digits.
import BytecodeDump.Decimal.Shortest
import BytecodeDump.Proofs.Rounding

namespace BytecodeDump

/-- A power as a fraction of two powers of which one is 1. -/
theorem zpow_eq_div (b : ℚ) (e : Int) : b ^ e = b ^ e.toNat / b ^ (-e).toNat := by
  rcases le_total 0 e with h | h
  · rw [Int.toNat_of_nonpos (by omega : -e ≤ 0), pow_zero, div_one, ← zpow_natCast,
      Int.toNat_of_nonneg h]
  · rw [Int.toNat_of_nonpos h, pow_zero, one_div, ← zpow_natCast, ← zpow_neg,
      Int.toNat_of_nonneg (by omega), neg_neg]

/-! ## Digits -/

namespace Numeral

theorem tenTo_eq (n : Nat) : tenTo n = 10 ^ n := rfl

/-- The number that some digits spell behind those of a number. -/
def spell (n : Nat) (ds : List Nat) : Nat := ds.foldl (fun k d => 10 * k + d) n

theorem spell_cons (n d : Nat) (ds : List Nat) : spell n (d :: ds) = spell (10 * n + d) ds := rfl

/-- The size that a numeral denotes. -/
def size (n : Numeral) : ℚ :=
  spell n.whole n.fraction * 10 ^ (n.exponent.getD 0 - n.fraction.length)

theorem length_lastDigits (count n : Nat) : (lastDigits count n).length = count := by
  induction count with
  | zero => rfl
  | succ count ih => rw [lastDigits, List.length_cons, ih]

theorem lastDigits_lt (count n : Nat) : ∀ d ∈ lastDigits count n, d < 10 := by
  induction count with
  | zero => simp [lastDigits]
  | succ count ih => exact List.forall_mem_cons.2 ⟨Nat.mod_lt _ (by decide), ih⟩

/-- The last digits of a number behind what they leave of it spell the number. -/
theorem spell_lastDigits (count n : Nat) :
    spell (n / tenTo count) (lastDigits count n) = n := by
  induction count with
  | zero => exact Nat.div_one n
  | succ count ih =>
    have hstep : n / tenTo (count + 1) = n / tenTo count / 10 := by
      rw [tenTo_eq, tenTo_eq, pow_succ, Nat.div_div_eq_div_mul]
    rw [lastDigits, spell_cons, hstep, Nat.div_add_mod, ih]

end Numeral

namespace Decimal

theorem length_toString_pos (digits : Nat) : 0 < (toString digits).length := by
  rw [Nat.toString_eq_ofList_toDigits, String.length_ofList]
  exact List.length_pos_iff.2 Nat.toDigits_ne_nil

/-- A number has as many digits as the least power of ten above it says. -/
theorem lt_pow_count (digits : Nat) : digits < 10 ^ (toString digits).length := by
  have hpos := length_toString_pos digits
  rw [Nat.toString_eq_ofList_toDigits, String.length_ofList] at hpos ⊢
  exact (Nat.length_toDigits_le_iff (by decide) hpos).1 le_rfl

theorem pow_count_le {digits : Nat} (h : digits ≠ 0) :
    10 ^ ((toString digits).length - 1) ≤ digits := by
  rw [Nat.toString_eq_ofList_toDigits, String.length_ofList]
  rcases Nat.eq_zero_or_pos ((Nat.toDigits 10 digits).length - 1) with hone | hmore
  · rw [hone]
    omega
  · exact Nat.le_of_not_lt fun hlt =>
      absurd ((Nat.length_toDigits_le_iff (by decide) hmore).2 hlt) (by omega)

/-! ## The grid -/

theorem le_of_scaled {n high : Nat} {power unit : Int}
    (h : n * (Numeral.tenTo power.toNat <<< (-unit).toNat) ≤
      high * (Numeral.tenTo (-power).toNat <<< unit.toNat)) :
    (n : ℚ) * 10 ^ power ≤ high * 2 ^ unit := by
  rw [Nat.shiftLeft_eq, Nat.shiftLeft_eq, Numeral.tenTo_eq, Numeral.tenTo_eq] at h
  have h' : (n : ℚ) * (10 ^ power.toNat * 2 ^ (-unit).toNat) ≤
      high * (10 ^ (-power).toNat * 2 ^ unit.toNat) := by exact_mod_cast h
  rw [zpow_eq_div 10 power, zpow_eq_div 2 unit, mul_div_assoc', mul_div_assoc',
    div_le_div_iff₀ (by positivity) (by positivity)]
  linarith

/-- Whichever of two neighbours is taken, it is inside. -/
theorem inside_of_taken (inside : Nat → Bool) {down n : Nat} {upNearer : Bool}
    (h : (if inside down && !(inside (down + 1) && upNearer) then some down
      else if inside (down + 1) then some (down + 1) else none) = some n) : inside n = true := by
  split at h
  · rename_i hdown
    cases h
    exact (Bool.and_eq_true_iff.1 hdown).1
  · split at h
    · rename_i hup
      cases h
      exact hup
    · cases h

/-- What is found on a grid is between the ends of the reach. -/
theorem onGrid_inside {tie : Tie} {r : Reach} {power : Int} {n : Nat}
    (h : onGrid tie r power = some n) :
    r.low * (Numeral.tenTo (-power).toNat <<< r.unit.toNat) ≤
        n * (Numeral.tenTo power.toNat <<< (-r.unit).toNat) ∧
      n * (Numeral.tenTo power.toNat <<< (-r.unit).toNat) ≤
        r.high * (Numeral.tenTo (-power).toNat <<< r.unit.toNat) := by
  unfold onGrid at h
  generalize Numeral.tenTo (-power).toNat <<< r.unit.toNat = scale at h ⊢
  generalize Numeral.tenTo power.toNat <<< (-r.unit).toNat = step at h ⊢
  have hinside := inside_of_taken (fun n =>
    if r.closed then r.low * scale ≤ n * step && n * step ≤ r.high * scale
    else r.low * scale < n * step && n * step < r.high * scale) h
  split at hinside <;> simp only [Bool.and_eq_true, decide_eq_true_eq] at hinside <;> omega

theorem onGrid_eq_some {tie : Tie} {r : Reach} {power : Int} {n : Nat}
    (h : onGrid tie r power = some n) (hlow : 0 < r.low) :
    n ≠ 0 ∧ (n : ℚ) * 10 ^ power ≤ r.high * 2 ^ r.unit := by
  obtain ⟨hfirst, hlast⟩ := onGrid_inside h
  refine ⟨?_, le_of_scaled hlast⟩
  rintro rfl
  have hscale : 0 < r.low * (Numeral.tenTo (-power).toNat <<< r.unit.toNat) := by
    rw [Nat.shiftLeft_eq, Numeral.tenTo_eq]
    positivity
  omega

/-- The upper end of what rounds to a double. -/
def upperEnd (x : Double) : ℚ := (4 * x.significand + 2 : Nat) * 2 ^ (x.scale - 2)

theorem significand_pos {x : Double} (h : x.isZero = false) : 0 < x.significand := by
  rw [Double.isZero, Bool.and_eq_false_iff, decide_eq_false_iff_not, decide_eq_false_iff_not] at h
  have : 0 < Double.hiddenBit := by decide
  rw [Double.significand]
  split <;> omega

/-- The digits of a double are those of a number in its reach. -/
theorem shortest_cases (tie : Tie) {x : Double} (h : x.isZero = false) :
    shortest tie x = (0, 0) ∨ (shortest tie x).1 ≠ 0 ∧
      ((shortest tie x).1 : ℚ) * 10 ^ (shortest tie x).2 ≤ upperEnd x := by
  unfold shortest
  dsimp only
  generalize hfound : List.findSome? _ _ = found
  cases found with
  | none => exact .inl rfl
  | some found =>
    obtain ⟨down, -, hdown⟩ := List.exists_of_findSome?_eq_some hfound
    obtain ⟨digits, hdigits, rfl⟩ := Option.map_eq_some_iff.1 hdown
    refine .inr (onGrid_eq_some hdigits ?_)
    have := significand_pos h
    rw [reach]
    dsimp only
    split <;> omega

/-! ## The layout -/

namespace Style

variable (s : Style) {x : Double} {digits : Nat} {power : Int}

/-- A number without an exponent. -/
theorem numeral_positional (hzero : x.isZero = false) (h : shortest s.tie x = (digits, power))
    (hpos : s.positional (power + (toString digits).length - 1) = true) :
    s.numeral x =
      { negative := x.negative
        whole := digits * Numeral.tenTo power.toNat / Numeral.tenTo (-power).toNat
        fraction := s.pointed (Numeral.lastDigits (-power).toNat digits) } := by
  rw [numeral, hzero, h]
  simp only [hpos, Bool.false_eq_true, if_false, if_true]

/-- A number with an exponent. -/
theorem numeral_scientific (hzero : x.isZero = false) (h : shortest s.tie x = (digits, power))
    (hpos : s.positional (power + (toString digits).length - 1) = false) :
    s.numeral x =
      { negative := x.negative
        whole := digits / Numeral.tenTo ((toString digits).length - 1)
        fraction := Numeral.lastDigits ((toString digits).length - 1) digits
        exponent := some (power + (toString digits).length - 1) } := by
  rw [numeral, hzero, h]
  simp only [hpos, Bool.false_eq_true, if_false]

/-- Without an exponent a numeral that ends before the point has the size of its digits, and
the zero that a style may ask for after the point changes nothing. -/
theorem size_whole (negative : Bool) (n : Nat) :
    Numeral.size { negative, whole := n, fraction := s.pointed [] } = n := by
  rw [Numeral.size, pointed]
  dsimp only
  split
  · rw [Numeral.spell_cons]
    simp only [Numeral.spell, List.foldl_nil]
    norm_num
    ring
  · simp [Numeral.spell]

theorem size_lastDigits (negative : Bool) (digits count : Nat) (exponent : Option Int) :
    Numeral.size { negative, whole := digits / Numeral.tenTo count
                   fraction := Numeral.lastDigits count digits, exponent } =
      digits * 10 ^ (exponent.getD 0 - count) := by
  rw [Numeral.size, Numeral.spell_lastDigits, Numeral.length_lastDigits]

/-- In either layout the numeral has the size of its digits. -/
theorem size_numeral (hzero : x.isZero = false) (h : shortest s.tie x = (digits, power)) :
    (s.numeral x).size = digits * 10 ^ power := by
  cases hpos : s.positional (power + (toString digits).length - 1) with
  | false =>
    rw [s.numeral_scientific hzero h hpos, size_lastDigits, Option.getD_some]
    have := length_toString_pos digits
    congr 2
    omega
  | true =>
    rw [s.numeral_positional hzero h hpos]
    rcases le_or_gt 0 power with hp | hp
    · have hplaces : (-power).toNat = 0 := Int.toNat_of_nonpos (by omega)
      have hwhole : digits * Numeral.tenTo power.toNat / Numeral.tenTo 0 =
          digits * 10 ^ power.toNat := Nat.div_one _
      rw [hplaces, hwhole, Numeral.lastDigits, size_whole, zpow_eq_div, hplaces]
      push_cast
      rw [pow_zero, div_one]
    · have hwhole : digits * Numeral.tenTo power.toNat = digits := by
        rw [Int.toNat_of_nonpos hp.le]
        exact Nat.mul_one _
      have hpointed : s.pointed (Numeral.lastDigits (-power).toNat digits) =
          Numeral.lastDigits (-power).toNat digits := by
        have hsome : (Numeral.lastDigits (-power).toNat digits).isEmpty = false := by
          rw [List.isEmpty_eq_false_iff, ← List.length_pos_iff, Numeral.length_lastDigits]
          omega
        rw [pointed, hsome, Bool.false_and, if_neg Bool.false_ne_true]
      rw [hwhole, hpointed, size_lastDigits, Option.getD_none]
      congr 2
      omega

/-- No numeral is above what rounds to its double. -/
theorem size_numeral_le (hzero : x.isZero = false) : (s.numeral x).size ≤ upperEnd x := by
  obtain ⟨⟨digits, power⟩, hdigits⟩ : ∃ d, shortest s.tie x = d := ⟨_, rfl⟩
  rw [s.size_numeral hzero hdigits]
  rcases shortest_cases s.tie hzero with hnone | ⟨-, hle⟩
  · rw [hdigits, Prod.mk.injEq] at hnone
    rw [hnone.1, Nat.cast_zero, zero_mul, upperEnd]
    positivity
  · rwa [hdigits] at hle

theorem fraction_lt (x : Double) : ∀ d ∈ (s.numeral x).fraction, d < 10 := by
  have hpointed : ∀ fraction : List Nat, (∀ d ∈ fraction, d < 10) →
      ∀ d ∈ s.pointed fraction, d < 10 := by
    intro fraction h
    rw [pointed]
    split
    · simp
    · exact h
  unfold numeral
  dsimp only
  split
  · exact hpointed [] (by simp)
  · split
    · exact hpointed _ (Numeral.lastDigits_lt _ _)
    · exact Numeral.lastDigits_lt _ _

/-- The digits before the point are no more than the bound of the style allows. -/
theorem whole_lt {bound : Nat} (hbound : s.bound = some (bound : Int)) (h : 1 ≤ bound)
    (hzero : x.isZero = false) : (s.numeral x).whole < 10 ^ bound := by
  obtain ⟨⟨digits, power⟩, hdigits⟩ : ∃ d, shortest s.tie x = d := ⟨_, rfl⟩
  have hlt := lt_pow_count digits
  cases hpos : s.positional (power + (toString digits).length - 1) with
  | false =>
    rw [s.numeral_scientific hzero hdigits hpos]
    refine Nat.div_lt_of_lt_mul (hlt.trans_le ?_)
    rw [Numeral.tenTo_eq, ← pow_add]
    exact Nat.pow_le_pow_right (by decide) (by omega)
  | true =>
    have hfirst : power + (toString digits).length - 1 < bound := by
      rw [positional, hbound, Bool.and_eq_true_iff] at hpos
      exact of_decide_eq_true hpos.2
    rw [s.numeral_positional hzero hdigits hpos]
    refine Nat.div_lt_of_lt_mul ?_
    rw [Numeral.tenTo_eq, Numeral.tenTo_eq, ← pow_add]
    calc digits * 10 ^ power.toNat
        < 10 ^ (toString digits).length * 10 ^ power.toNat := by gcongr
      _ = 10 ^ ((toString digits).length + power.toNat) := (pow_add ..).symm
      _ ≤ 10 ^ ((-power).toNat + bound) := Nat.pow_le_pow_right (by decide) (by omega)

/-- The exponent is that of the first digit. -/
theorem exponent_le {top : Nat} (hzero : x.isZero = false)
    (h : (s.numeral x).size < 10 ^ (top + 1)) : (s.numeral x).exponent.getD 0 ≤ top := by
  obtain ⟨⟨digits, power⟩, hdigits⟩ : ∃ d, shortest s.tie x = d := ⟨_, rfl⟩
  cases hpos : s.positional (power + (toString digits).length - 1) with
  | true =>
    rw [s.numeral_positional hzero hdigits hpos]
    exact Int.natCast_nonneg top
  | false =>
    rw [s.size_numeral hzero hdigits] at h
    rw [s.numeral_scientific hzero hdigits hpos, Option.getD_some]
    have hcount := length_toString_pos digits
    rcases shortest_cases s.tie hzero with hnone | ⟨hne, -⟩
    · rw [hdigits, Prod.mk.injEq] at hnone
      obtain ⟨rfl, rfl⟩ := hnone
      have : (toString (0 : Nat)).length = 1 := rfl
      omega
    · rw [hdigits] at hne
      have hle : (10 : ℚ) ^ ((toString digits).length - 1) ≤ digits := by
        exact_mod_cast pow_count_le hne
      have hfirst : (10 : ℚ) ^ (power + (toString digits).length - 1) < 10 ^ ((top : Int) + 1) := by
        calc (10 : ℚ) ^ (power + (toString digits).length - 1)
            = 10 ^ ((toString digits).length - 1) * 10 ^ power := by
              rw [← zpow_natCast, ← zpow_add₀ (by norm_num)]
              congr 1
              omega
          _ ≤ digits * 10 ^ power := by gcongr
          _ < 10 ^ (top + 1) := h
          _ = 10 ^ ((top : Int) + 1) := by exact_mod_cast rfl
      have := (zpow_lt_zpow_iff_right₀ (by norm_num : (1 : ℚ) < 10)).1 hfirst
      omega

end Style

end Decimal

end BytecodeDump
