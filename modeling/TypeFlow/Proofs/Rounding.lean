import Mathlib.Algebra.Order.Field.Power
import Mathlib.Data.Rat.Cast.Order
import Mathlib.Tactic.FieldSimp
import Mathlib.Tactic.Linarith
import Mathlib.Tactic.Ring
import TypeFlow.Double.Basic

/-!
# Rounding to doubles

The double nearest to a ratio depends on nothing but the quotient, and a double is the nearest to its
own value.

Main results:

- `Double.binade_eq_iff`: the binade of a positive ratio, by its bounds.
- `Double.ofRatio_congr`, `Double.ofDecimal_congr`: equal numbers round to the same double.
- `Double.ofRatio_ratio`: a finite double is the nearest to its value.
-/

namespace TypeFlow

namespace Double

/-- The quotient of a ratio. -/
def quotient (ratio : Nat × Nat) : ℚ := ratio.1 / ratio.2

/-! ## Scaling -/

/-- Scaling down leaves a denominator. -/
theorem scaleDown_den_pos {base num den : Nat} (hbase : 0 < base) (hden : 0 < den) (power : Int) :
    0 < (scaleDown base num den power).2 := by
  unfold scaleDown
  split
  · exact Nat.mul_pos hden (Nat.pow_pos hbase)
  · exact hden

/-- Scaling down divides by a power. -/
theorem quotient_scaleDown {base : Nat} (hbase : 0 < base) (num den : Nat) (power : Int) :
    quotient (scaleDown base num den power) = num / den * (base : ℚ) ^ (-power) := by
  have hne : (base : ℚ) ≠ 0 := Nat.cast_ne_zero.2 hbase.ne'
  unfold scaleDown quotient
  split
  · rename_i h
    obtain ⟨k, rfl⟩ := Int.eq_ofNat_of_zero_le h
    simp only [zpow_neg, zpow_natCast, Int.toNat_natCast, Nat.cast_mul, Nat.pow_eq, Nat.cast_pow]
    field_simp
  · rename_i h
    obtain ⟨k, hk⟩ := Int.eq_ofNat_of_zero_le (show 0 ≤ -power by omega)
    simp [hk, div_mul_eq_mul_div]

/-- Ratios of the same quotient are proportional. -/
theorem cross_of_quotient {a b : Nat × Nat} (ha : 0 < a.2) (hb : 0 < b.2)
    (h : quotient a = quotient b) : a.1 * b.2 = b.1 * a.2 := by
  have ha' : (a.2 : ℚ) ≠ 0 := Nat.cast_ne_zero.2 ha.ne'
  have hb' : (b.2 : ℚ) ≠ 0 := Nat.cast_ne_zero.2 hb.ne'
  exact_mod_cast (div_eq_div_iff ha' hb').1 h

/-! ## Rounding to an integer -/

private theorem roundDiv_mul_right (num den : Nat) {k : Nat} (hk : 0 < k) :
    roundDiv (num * k) (den * k) = roundDiv num den := by
  have hlt : den * k < 2 * (num % den * k) ↔ den < 2 * (num % den) := by
    rw [← Nat.mul_assoc]
    exact Nat.mul_lt_mul_right hk
  have heq : den * k = 2 * (num % den * k) ↔ den = 2 * (num % den) := by
    rw [← Nat.mul_assoc]
    exact Nat.mul_left_inj hk.ne'
  simp only [roundDiv, Nat.mul_div_mul_right _ _ hk, Nat.mul_mod_mul_right, hlt, beq_eq_decide, heq]

/-- Rounding depends on nothing but the quotient. -/
theorem roundDiv_congr {a b : Nat × Nat} (ha : 0 < a.2) (hb : 0 < b.2)
    (h : quotient a = quotient b) : roundDiv a.1 a.2 = roundDiv b.1 b.2 := by
  have hcross := cross_of_quotient ha hb h
  calc roundDiv a.1 a.2 = roundDiv (a.1 * b.2) (a.2 * b.2) := (roundDiv_mul_right _ _ hb).symm
    _ = roundDiv (b.1 * a.2) (b.2 * a.2) := by rw [hcross, Nat.mul_comm a.2 b.2]
    _ = roundDiv b.1 b.2 := roundDiv_mul_right _ _ ha

private theorem roundDiv_one (n : Nat) : roundDiv n 1 = n := by
  simp [roundDiv, Nat.mod_one]

/-! ## Binades -/

/-- The quotient has a 53-bit significand at a power of two, or a shorter one at the least power. -/
structure InBinade (q : ℚ) (power : Int) : Prop where
  least : -1074 ≤ power
  lt : q < (2 : ℚ) ^ (power + 53)
  le : power = -1074 ∨ (2 : ℚ) ^ (power + 52) ≤ q

private theorem InBinade.le_of {q : ℚ} {a b : Int} (ha : InBinade q a) (hb : InBinade q b) : a ≤ b := by
  rcases ha.le with rfl | hle
  · exact hb.least
  · have hlt : (2 : ℚ) ^ (a + 52) < (2 : ℚ) ^ (b + 53) := hle.trans_lt hb.lt
    have := (zpow_lt_zpow_iff_right₀ one_lt_two).1 hlt
    omega

private theorem InBinade.eq {q : ℚ} {a b : Int} (ha : InBinade q a) (hb : InBinade q b) : a = b :=
  le_antisymm (ha.le_of hb) (hb.le_of ha)

private theorem log2_bounds {n : Nat} (hn : 0 < n) :
    (2 : ℚ) ^ (n.log2 : Int) ≤ n ∧ (n : ℚ) < (2 : ℚ) ^ ((n.log2 : Int) + 1) := by
  constructor
  · rw [zpow_natCast]
    exact_mod_cast Nat.log2_self_le hn.ne'
  · have h : ((n.log2 : Int) + 1) = ((n.log2 + 1 : Nat) : Int) := rfl
    rw [h, zpow_natCast]
    exact_mod_cast Nat.lt_log2_self

private theorem binade_inBinade {num den : Nat} (hnum : 0 < num) (hden : 0 < den) :
    InBinade (num / den) (binade num den) := by
  have hden' : (0 : ℚ) < den := Nat.cast_pos.2 hden
  obtain ⟨hn, hn'⟩ := log2_bounds hnum
  obtain ⟨hd, hd'⟩ := log2_bounds hden
  set guess : Int := (Nat.log2 num : Int) - (Nat.log2 den : Int) - 53 with hguess
  have hpow : ∀ a : Int, (0 : ℚ) < (2 : ℚ) ^ a := fun a => zpow_pos two_pos a
  have hlow : (2 : ℚ) ^ (guess + 52) ≤ num / den := by
    rw [le_div_iff₀ hden']
    calc (2 : ℚ) ^ (guess + 52) * den ≤ (2 : ℚ) ^ (guess + 52) * (2 : ℚ) ^ ((den.log2 : Int) + 1) :=
          mul_le_mul_of_nonneg_left hd'.le (hpow _).le
      _ = (2 : ℚ) ^ (num.log2 : Int) := by
          rw [← zpow_add₀ two_ne_zero]
          congr 1
          omega
      _ ≤ num := hn
  have hhigh : (num / den : ℚ) < (2 : ℚ) ^ (guess + 54) := by
    rw [div_lt_iff₀ hden']
    calc (num : ℚ) < (2 : ℚ) ^ ((num.log2 : Int) + 1) := hn'
      _ = (2 : ℚ) ^ (guess + 54) * (2 : ℚ) ^ (den.log2 : Int) := by
          rw [← zpow_add₀ two_ne_zero]
          congr 1
          omega
      _ ≤ (2 : ℚ) ^ (guess + 54) * den := mul_le_mul_of_nonneg_left hd (hpow _).le
  -- The test compares the quotient with the middle of the two binades it may lie in.
  have htest : Nat.pow 2 53 ≤ (scaleDown 2 num den guess).1 / (scaleDown 2 num den guess).2 ↔
      (2 : ℚ) ^ (guess + 53) ≤ num / den := by
    have hscaled : quotient (scaleDown 2 num den guess) = _ :=
      quotient_scaleDown two_pos num den guess
    have hpos : 0 < (scaleDown 2 num den guess).2 := scaleDown_den_pos two_pos hden guess
    rw [Nat.le_div_iff_mul_le hpos, ← Nat.cast_le (α := ℚ), Nat.cast_mul,
      ← le_div_iff₀ (Nat.cast_pos.2 hpos)]
    change _ ≤ quotient _ ↔ _
    rw [hscaled, zpow_neg, ← div_eq_mul_inv, Nat.cast_two, le_div_iff₀ (hpow guess),
      zpow_add₀ two_ne_zero, mul_comm]
    norm_num
  have hexact : binade num den = max (if (2 : ℚ) ^ (guess + 53) ≤ num / den then guess + 1 else guess)
      (-1074) := by
    unfold binade
    simp only [← hguess, htest]
  have hmono : ∀ {a b : Int}, a ≤ b → (2 : ℚ) ^ a ≤ (2 : ℚ) ^ b :=
    fun h => zpow_le_zpow_right₀ one_le_two h
  rw [hexact]
  split
  · rename_i hbig
    refine ⟨le_max_right _ _, hhigh.trans_le (hmono (by omega)), ?_⟩
    rcases le_total (guess + 1) (-1074) with h | h
    · exact Or.inl (max_eq_right h)
    · rw [max_eq_left h]
      exact Or.inr (by convert hbig using 2; omega)
  · rename_i hsmall
    refine ⟨le_max_right _ _, (not_le.1 hsmall).trans_le (hmono (by omega)), ?_⟩
    rcases le_total guess (-1074) with h | h
    · exact Or.inl (max_eq_right h)
    · rw [max_eq_left h]
      exact Or.inr hlow

/-- The binade of a positive ratio is the one that its quotient lies in. -/
theorem binade_eq_iff {num den : Nat} (hnum : 0 < num) (hden : 0 < den) {power : Int} :
    binade num den = power ↔ InBinade (num / den) power :=
  ⟨fun h => h ▸ binade_inBinade hnum hden, (binade_inBinade hnum hden).eq⟩

/-! ## The nearest double -/

/-- Ratios of the same quotient round to the same pattern. -/
theorem patternOfRatio_congr {a b : Nat × Nat} (ha : 0 < a.2) (hb : 0 < b.2)
    (h : quotient a = quotient b) : patternOfRatio a.1 a.2 = patternOfRatio b.1 b.2 := by
  have hcross := cross_of_quotient ha hb h
  rcases Nat.eq_zero_or_pos a.1 with ha0 | ha0
  · have hb0 : b.1 = 0 := by
      rw [ha0, Nat.zero_mul] at hcross
      exact (Nat.mul_eq_zero.1 hcross.symm).resolve_right ha.ne'
    simp [patternOfRatio, ha0, hb0]
  · have hb0 : 0 < b.1 := Nat.pos_of_mul_pos_right (hcross ▸ Nat.mul_pos ha0 hb)
    have hbinade : binade a.1 a.2 = binade b.1 b.2 := by
      rw [binade_eq_iff ha0 ha]
      change InBinade (quotient a) _
      rw [h]
      exact binade_inBinade hb0 hb
    have hround : ∀ power, roundDiv (scaleDown 2 a.1 a.2 power).1 (scaleDown 2 a.1 a.2 power).2 =
        roundDiv (scaleDown 2 b.1 b.2 power).1 (scaleDown 2 b.1 b.2 power).2 := by
      intro power
      refine roundDiv_congr (scaleDown_den_pos two_pos ha _) (scaleDown_den_pos two_pos hb _) ?_
      rw [quotient_scaleDown two_pos, quotient_scaleDown two_pos]
      exact congrArg (· * _) h
    simp [patternOfRatio, ha0.ne', hb0.ne', hbinade, hround]

/-- Ratios of one value are rounded alike. -/
theorem ofRatio_congr {a b : Nat × Nat} (ha : 0 < a.2) (hb : 0 < b.2)
    (h : quotient a = quotient b) : ofRatio a.1 a.2 = ofRatio b.1 b.2 := by
  rw [ofRatio, ofRatio, patternOfRatio_congr ha hb h]

/-- Decimals of the same value round to the same double. -/
theorem ofDecimal_congr {digits digits' : Nat} {exponent exponent' : Int}
    (h : (digits : ℚ) * 10 ^ exponent = digits' * 10 ^ exponent') :
    ofDecimal digits exponent = ofDecimal digits' exponent' := by
  refine ofRatio_congr (scaleDown_den_pos (by decide) one_pos _)
    (scaleDown_den_pos (by decide) one_pos _) ?_
  rw [quotient_scaleDown (by decide), quotient_scaleDown (by decide)]
  simpa using h

private theorem patternOfRatio_le (num den : Nat) : patternOfRatio num den ≤ infinityPattern := by
  unfold patternOfRatio
  split
  · exact Nat.zero_le _
  · exact Nat.min_le_right _ _

private theorem toNat_bits_ofRatio (num den : Nat) :
    (ofRatio num den).bits.toNat = patternOfRatio num den := by
  have hle := patternOfRatio_le num den
  have hlt : infinityPattern < 2 ^ 64 := by decide
  exact Nat.mod_eq_of_lt (by omega)

/-- No ratio rounds to a negative double. -/
theorem magnitude_ofRatio (num den : Nat) :
    (ofRatio num den).magnitude = patternOfRatio num den ∧ (ofRatio num den).isNegative = false := by
  have hle := patternOfRatio_le num den
  have hlt : infinityPattern < Nat.pow 2 63 := by decide
  rw [magnitude, isNegative, toNat_bits_ofRatio]
  exact ⟨Nat.mod_eq_of_lt (by omega), decide_eq_false (by omega)⟩

/-- A double that is not negative is told by its magnitude. -/
theorem eq_of_magnitude {x y : Double} (hx : x.isNegative = false) (hy : y.isNegative = false)
    (h : x.magnitude = y.magnitude) : x = y := by
  have hx' : x.bits.toNat < Nat.pow 2 63 := Nat.lt_of_not_le (of_decide_eq_false hx)
  have hy' : y.bits.toNat < Nat.pow 2 63 := Nat.lt_of_not_le (of_decide_eq_false hy)
  rw [magnitude, magnitude, Nat.mod_eq_of_lt hx', Nat.mod_eq_of_lt hy'] at h
  cases x
  cases y
  rw [mk.injEq]
  exact UInt64.toNat_inj.1 h

/-! ## The value of a double -/

/-- The ratio of a double has a denominator. -/
theorem ratio_den_pos (x : Double) : 0 < x.ratio.2 := scaleDown_den_pos two_pos one_pos _

/-- The ratio of a double is its value. -/
theorem quotient_ratio (x : Double) : quotient x.ratio = x.mantissa * (2 : ℚ) ^ x.exponent := by
  rw [ratio, quotient_scaleDown two_pos]
  simp

/-- A double lies in the binade of its exponent. -/
theorem quotient_ratio_inBinade (x : Double) : InBinade (quotient x.ratio) x.exponent := by
  have hpow : (0 : ℚ) < (2 : ℚ) ^ x.exponent := zpow_pos two_pos _
  have hbound : x.mantissa < 2 ^ 53 := by
    unfold mantissa
    split
    · exact Nat.lt_trans (by assumption) (by decide)
    · have : x.magnitude % Nat.pow 2 52 < Nat.pow 2 52 := Nat.mod_lt _ (by decide)
      have : Nat.pow 2 52 + Nat.pow 2 52 = 2 ^ 53 := by decide
      omega
  rw [quotient_ratio]
  refine ⟨?_, ?_, ?_⟩
  · unfold exponent
    split
    · exact le_rfl
    · rename_i h
      have : 1 ≤ x.magnitude / Nat.pow 2 52 := (Nat.one_le_div_iff (by decide)).2 (Nat.le_of_not_lt h)
      omega
  · rw [zpow_add₀ two_ne_zero, mul_comm]
    exact mul_lt_mul_of_pos_left (by exact_mod_cast hbound) hpow
  · by_cases hsmall : x.magnitude < Nat.pow 2 52
    · exact Or.inl (by rw [exponent, if_pos hsmall])
    · refine Or.inr ?_
      have hlow : 2 ^ 52 ≤ x.mantissa := by
        rw [mantissa, if_neg hsmall]
        exact Nat.le_add_right _ _
      rw [zpow_add₀ two_ne_zero, mul_comm]
      exact mul_le_mul_of_nonneg_right (by exact_mod_cast hlow) hpow.le

/-- A finite double is the nearest to its value. -/
theorem patternOfRatio_ratio {x : Double} (hfinite : x.magnitude < infinityPattern) :
    patternOfRatio x.ratio.1 x.ratio.2 = x.magnitude := by
  have hpattern : (x.exponent + 1074).toNat * Nat.pow 2 52 + x.mantissa = x.magnitude := by
    unfold exponent mantissa
    split
    · simp
    · rename_i hbig
      have hquotient : 1 ≤ x.magnitude / Nat.pow 2 52 :=
        (Nat.one_le_div_iff (by decide)).2 (Nat.le_of_not_lt hbig)
      have hcount : ((x.magnitude / Nat.pow 2 52 : Nat) - 1075 + 1074 : Int).toNat =
          x.magnitude / Nat.pow 2 52 - 1 := by
        omega
      rw [← Int.natCast_div, hcount, Nat.sub_mul, Nat.one_mul]
      have hparts := Nat.div_add_mod' x.magnitude (Nat.pow 2 52)
      have := Nat.mul_le_mul_right (Nat.pow 2 52) hquotient
      omega
  have hden := ratio_den_pos x
  rcases Nat.eq_zero_or_pos x.mantissa with hzero | hpos
  · have hnum : x.ratio.1 = 0 := by
      have h := quotient_ratio x
      rw [hzero, Nat.cast_zero, zero_mul] at h
      simpa [quotient, hden.ne'] using h
    have hmagnitude : x.magnitude = 0 := by
      unfold mantissa at hzero
      split at hzero
      · exact hzero
      · have : 0 < Nat.pow 2 52 := by decide
        omega
    rw [hnum, hmagnitude]
    rfl
  · have hnum : 0 < x.ratio.1 := by
      refine Nat.pos_of_ne_zero fun hnum => ?_
      have h := quotient_ratio x
      have hpow : (2 : ℚ) ^ x.exponent ≠ 0 := (zpow_pos two_pos _).ne'
      simp [quotient, hnum, hpow, hpos.ne'] at h
    have hbinade : binade x.ratio.1 x.ratio.2 = x.exponent :=
      (binade_eq_iff hnum hden).2 (quotient_ratio_inBinade x)
    have hround : roundDiv (scaleDown 2 x.ratio.1 x.ratio.2 x.exponent).1
        (scaleDown 2 x.ratio.1 x.ratio.2 x.exponent).2 = x.mantissa := by
      rw [← roundDiv_one x.mantissa]
      refine roundDiv_congr (b := (x.mantissa, 1)) (scaleDown_den_pos two_pos hden _) one_pos ?_
      have hpow : (2 : ℚ) ^ x.exponent ≠ 0 := (zpow_pos two_pos _).ne'
      rw [quotient_scaleDown two_pos]
      change quotient x.ratio * _ = _
      rw [quotient_ratio, Nat.cast_two, zpow_neg, mul_inv_cancel_right₀ hpow]
      simp [quotient]
    simp only [patternOfRatio, beq_iff_eq, hnum.ne', if_false, hbinade, hround, hpattern]
    exact Nat.min_eq_left hfinite.le

/-- A finite double that is not negative is the nearest to its value. -/
theorem ofRatio_ratio {x : Double} (hfinite : x.magnitude < infinityPattern)
    (hpos : x.isNegative = false) : ofRatio x.ratio.1 x.ratio.2 = x := by
  obtain ⟨hmagnitude, hsign⟩ := magnitude_ofRatio x.ratio.1 x.ratio.2
  exact eq_of_magnitude hsign hpos (hmagnitude.trans (patternOfRatio_ratio hfinite))

end Double

end TypeFlow
