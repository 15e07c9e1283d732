import Mathlib.Data.List.TakeWhile
import Mathlib.Data.Nat.Cast.Order.Field
import Mathlib.Tactic.IntervalCases
import TypeFlow.Double.Text
import TypeFlow.Proofs.Rounding
import TypeFlow.Text.Digits

/-!
# Doubles that are written positionally

A double that is zero or from `0.0001` up to below `10 ^ 16` is written as digits around a point, and
these digits read back to it.

Main definitions:

- `Double.isModerate`: the double is zero or in that range.
- `Double.Spells`: digits around a point that read back to a double.

Main results:

- `Double.shortest_near`: the decimal that is written reads back.
- `Double.spells_render`: the written form of a moderate double spells it.
-/

namespace TypeFlow

/-! ## Digits -/

private theorem decimalValue_eq (digits : List Char) :
    decimalValue digits = Nat.ofDigitChars 10 digits 0 := by
  simp only [decimalValue, Nat.ofDigitChars, Nat.mul_comm]

@[simp] theorem decimalValue_append (a b : List Char) :
    decimalValue (a ++ b) = decimalValue a * 10 ^ b.length + decimalValue b := by
  simp only [decimalValue_eq, Nat.ofDigitChars_append]
  rw [Nat.ofDigitChars_eq_ofDigitChars_zero, Nat.mul_comm]

@[simp] theorem decimalValue_zero_cons (digits : List Char) :
    decimalValue ('0' :: digits) = decimalValue digits := by
  simp [decimalValue_eq, Nat.ofDigitChars_cons]

@[simp] theorem decimalValue_nil : decimalValue [] = 0 := rfl

@[simp] theorem decimalValue_replicate (k : Nat) : decimalValue (List.replicate k '0') = 0 := by
  simp [decimalValue_eq]

@[simp] theorem decimalValue_toDigits (n : Nat) : decimalValue (Nat.toDigits 10 n) = n := by
  rw [decimalValue_eq, Nat.ofDigitChars_ten_toDigits]

/-- The digits of a positive number do not start with a zero. -/
theorem head?_toDigits {n : Nat} (hn : 0 < n) : (Nat.toDigits 10 n).head? ≠ some '0' := by
  induction n using Nat.strongRecOn with
  | ind n ih =>
    rw [Nat.toDigits_eq_if (by decide)]
    split
    · rename_i hlt
      interval_cases n <;> decide
    · rename_i hge
      have hlt : n / 10 < n := Nat.div_lt_self hn (by decide)
      have hpos : 0 < n / 10 := Nat.div_pos (Nat.le_of_not_lt hge) (by decide)
      rw [List.head?_append_of_ne_nil _ Nat.toDigits_ne_nil]
      exact ih _ hlt hpos

/-- A positive number lies between the powers of ten that its number of digits tells. -/
theorem toDigits_bounds {n : Nat} (hn : 0 < n) :
    (10 : ℚ) ^ (((Nat.toDigits 10 n).length : Int) - 1) ≤ n ∧
      (n : ℚ) < 10 ^ ((Nat.toDigits 10 n).length : Int) := by
  obtain ⟨k, hk⟩ : ∃ k, (Nat.toDigits 10 n).length = k + 1 :=
    Nat.exists_eq_succ_of_ne_zero (List.length_pos_iff.2 Nat.toDigits_ne_nil).ne'
  have hlt : n < 10 ^ (k + 1) :=
    (Nat.length_toDigits_le_iff (by decide) (Nat.succ_pos k)).1 hk.le
  have hle : 10 ^ k ≤ n := by
    rcases Nat.eq_zero_or_pos k with rfl | hpos
    · exact hn
    · refine Nat.le_of_not_lt fun h => ?_
      have := (Nat.length_toDigits_le_iff (by decide) hpos).2 h
      omega
  rw [hk, Nat.cast_add_one, add_sub_cancel_right]
  constructor
  · rw [zpow_natCast]
    exact_mod_cast hle
  · exact_mod_cast hlt

/-- The value of a decimal. -/
def Decimal.value (d : Decimal) : ℚ := d.digits * 10 ^ d.exponent

namespace Double

private theorem ten_pos (a : Int) : (0 : ℚ) < 10 ^ a := zpow_pos (by norm_num) a

private theorem ten_le_ten {a b : Int} (h : a ≤ b) : (10 : ℚ) ^ a ≤ 10 ^ b :=
  zpow_le_zpow_right₀ (by norm_num) h

private theorem lt_of_ten_lt_ten {a b : Int} (h : (10 : ℚ) ^ a < 10 ^ b) : a < b :=
  (zpow_lt_zpow_iff_right₀ (by norm_num)).1 h

private theorem ten_add (a b : Int) : (10 : ℚ) ^ (a + b) = 10 ^ a * 10 ^ b := zpow_add₀ (by norm_num) a b

/-! ## The point -/

private theorem leadingZeros_bounds {den : Nat} (hden : 0 < den) {fuel count num : Nat} (hlt : num < den)
    (hcount : den ≤ num * 10 ^ count) (hfuel : count ≤ fuel) :
    (10 : ℚ) ^ (-pointPlace.leadingZeros den fuel num - 1) ≤ num / den ∧
      (num / den : ℚ) < 10 ^ (-pointPlace.leadingZeros den fuel num) := by
  have hden' : (0 : ℚ) < den := Nat.cast_pos.2 hden
  induction fuel generalizing count num with
  | zero =>
    obtain rfl := Nat.le_zero.1 hfuel
    omega
  | succ fuel ih =>
    rw [pointPlace.leadingZeros]
    split
    · rename_i hle
      have hle' : (den : ℚ) ≤ num * 10 := by exact_mod_cast hle
      have hlt' : (num : ℚ) < den := by exact_mod_cast hlt
      constructor
      · rw [le_div_iff₀ hden']
        norm_num
        linarith
      · rw [div_lt_iff₀ hden']
        norm_num
        exact hlt
    · rename_i hle
      cases count with
      | zero => omega
      | succ count =>
      have hcount' : den ≤ num * 10 * 10 ^ count := by
        rw [Nat.mul_assoc, ← Nat.pow_succ']
        exact hcount
      obtain ⟨hlow, hhigh⟩ := ih (Nat.lt_of_not_le hle) hcount' (Nat.le_of_succ_le_succ hfuel)
      set z := pointPlace.leadingZeros den fuel (num * 10)
      have hten : ((num * 10 : Nat) / den : ℚ) = num / den * 10 := by
        push_cast
        ring
      have hshift : ∀ a : Int, (10 : ℚ) ^ (a - 1) * 10 = 10 ^ a := by
        intro a
        rw [← zpow_add_one₀ (by norm_num), Int.sub_add_cancel]
      rw [hten] at hlow hhigh
      have hlow' := hshift (-z - 1)
      have hhigh' := hshift (-z)
      rw [show -(z + 1) - 1 = -z - 1 - 1 by ring, show -(z + 1) = -z - 1 by ring]
      constructor <;> linarith

/-- Where the point of a ratio is. -/
theorem pointPlace_bounds {num den : Nat} (hden : 0 < den) (hlow : den ≤ num * 10 ^ 4) :
    (10 : ℚ) ^ (pointPlace num den - 1) ≤ num / den ∧ (num / den : ℚ) < 10 ^ pointPlace num den := by
  have hden' : (0 : ℚ) < den := Nat.cast_pos.2 hden
  unfold pointPlace
  split
  · rename_i hle
    obtain ⟨hlow, hhigh⟩ := toDigits_bounds (Nat.div_pos hle hden)
    constructor
    · exact hlow.trans Nat.cast_div_le
    · rw [div_lt_iff₀ hden']
      rw [zpow_natCast] at hhigh ⊢
      have hnat : num / den < 10 ^ (Nat.toDigits 10 (num / den)).length := by exact_mod_cast hhigh
      exact_mod_cast (Nat.div_lt_iff_lt_mul hden).1 hnat
  · rename_i hlt
    exact leadingZeros_bounds hden (Nat.lt_of_not_le hlt) hlow (by decide)

/-! ## The decimal that is written -/

/-- The double is zero or, in magnitude, from `0.0001` up to below `10 ^ 16`. -/
def isModerate (x : Double) : Bool :=
  x.isZero || (x.ratio.2 ≤ x.ratio.1 * Nat.pow 10 4 && x.ratio.1 < x.ratio.2 * Nat.pow 10 16)

/-- The magnitude of the double is from `0.0001` up to below `10 ^ 16`. -/
structure InRange (x : Double) : Prop where
  low : (10 : ℚ) ^ (-4 : Int) ≤ quotient x.ratio
  high : quotient x.ratio < 10 ^ (16 : Int)

private theorem inRange_of_isModerate {x : Double} (h : x.isModerate = true) (hzero : x.isZero = false) :
    x.InRange := by
  have hden : (0 : ℚ) < x.ratio.2 := Nat.cast_pos.2 x.ratio_den_pos
  simp only [isModerate, hzero, Bool.false_or, Bool.and_eq_true, decide_eq_true_eq] at h
  obtain ⟨hlow, hhigh⟩ := h
  constructor
  · rw [quotient, le_div_iff₀ hden]
    have : (x.ratio.2 : ℚ) ≤ x.ratio.1 * 10 ^ 4 := by exact_mod_cast hlow
    norm_num
    linarith
  · rw [quotient, div_lt_iff₀ hden]
    have : (x.ratio.1 : ℚ) < x.ratio.2 * 10 ^ 16 := by exact_mod_cast hhigh
    norm_num
    linarith

/-- A double in the range is finite. -/
theorem InRange.finite {x : Double} (h : x.InRange) : x.magnitude < infinityPattern := by
  by_contra hle
  have hbig : Nat.pow 2 52 ≤ x.magnitude := Nat.le_trans (by decide) (Nat.le_of_not_lt hle)
  have hexponent : 54 ≤ x.exponent := by
    have : 2047 ≤ x.magnitude / Nat.pow 2 52 :=
      (Nat.le_div_iff_mul_le (by decide)).2 (Nat.le_of_not_lt hle)
    rw [exponent, if_neg (Nat.not_lt.2 hbig), ← Int.natCast_div]
    omega
  have hmantissa : 1 ≤ x.mantissa := by
    rw [mantissa, if_neg (Nat.not_lt.2 hbig)]
    exact Nat.le_trans (by decide) (Nat.le_add_right _ _)
  have hhigh := h.high
  rw [quotient_ratio] at hhigh
  have hpow : (2 : ℚ) ^ (54 : Int) ≤ 2 ^ x.exponent := zpow_le_zpow_right₀ one_le_two hexponent
  have hone : (1 : ℚ) ≤ x.mantissa := by exact_mod_cast hmantissa
  have hle : (2 : ℚ) ^ (54 : Int) ≤ x.mantissa * 2 ^ x.exponent :=
    hpow.trans (le_mul_of_one_le_left (zpow_pos two_pos _).le hone)
  have hbound : (10 : ℚ) ^ (16 : Int) ≤ 2 ^ (54 : Int) := by norm_num
  exact absurd (hle.trans_lt hhigh) (not_lt.2 hbound)

/-- A decimal in the range that reads back to the double. -/
structure Near (x : Double) (d : Decimal) : Prop where
  reads : ofDecimal d.digits d.exponent = x
  low : (10 : ℚ) ^ (-4 : Int) ≤ d.value
  high : d.value < 10 ^ (16 : Int)

/-- A decimal of the double's value reads back. -/
theorem near_of_value {x : Double} (hx : x.InRange) (hpos : x.isNegative = false) {d : Decimal}
    (h : d.value = quotient x.ratio) : x.Near d := by
  refine ⟨?_, h ▸ hx.low, h ▸ hx.high⟩
  rw [← ofRatio_ratio hx.finite hpos]
  refine ofRatio_congr (scaleDown_den_pos (by decide) one_pos _) x.ratio_den_pos ?_
  rw [quotient_scaleDown (by decide), ← h]
  simp [Decimal.value]

private theorem near_expansion {x : Double} (hx : x.InRange) (hpos : x.isNegative = false) :
    x.Near x.expansion := by
  refine near_of_value hx hpos ?_
  rw [quotient_ratio]
  unfold expansion Decimal.value
  split
  · rename_i h
    obtain ⟨k, hk⟩ := Int.eq_ofNat_of_zero_le h
    simp [hk]
  · rename_i h
    obtain ⟨k, hk⟩ := Int.eq_ofNat_of_zero_le (show 0 ≤ -x.exponent by omega)
    have hfive : (5 : ℚ) ^ k * 10 ^ x.exponent = 2 ^ x.exponent := by
      rw [show x.exponent = -(k : Int) by omega, zpow_neg, zpow_neg, zpow_natCast, zpow_natCast,
        show (10 : ℚ) = 5 * 2 by norm_num, mul_pow]
      field_simp
    simp [hk, mul_assoc, hfive]

/-- The quotient of natural numbers, rounded down. -/
theorem div_bounds {a : Nat × Nat} (ha : 0 < a.2) :
    ((a.1 / a.2 : Nat) : ℚ) ≤ quotient a ∧ quotient a < (a.1 / a.2 : Nat) + 1 := by
  have ha' : (0 : ℚ) < a.2 := Nat.cast_pos.2 ha
  refine ⟨Nat.cast_div_le, ?_⟩
  rw [quotient, div_lt_iff₀ ha']
  exact_mod_cast (Nat.div_lt_iff_lt_mul ha).1 (Nat.lt_succ_self (a.1 / a.2))

/-- A candidate is one of the two decimals around the double, and reads back. -/
theorem candidate_eq_some {x : Double} {place : Int} {count : Nat} {d : Decimal}
    (h : x.candidate place count = some d) :
    d.exponent = place - count ∧
      (∃ low : Nat, (low : ℚ) ≤ quotient x.ratio * 10 ^ (-d.exponent) ∧
        quotient x.ratio * 10 ^ (-d.exponent) < low + 1 ∧
        (d.digits = low ∨ d.digits = low + 1)) ∧
      (ofDecimal d.digits d.exponent).magnitude = x.magnitude := by
  have hscaled : quotient (scaleDown 10 x.ratio.1 x.ratio.2 (place - count)) =
      quotient x.ratio * 10 ^ (-(place - count : Int)) := quotient_scaleDown (by decide) _ _ _
  have hpos : 0 < (scaleDown 10 x.ratio.1 x.ratio.2 (place - count)).2 :=
    scaleDown_den_pos (by decide) x.ratio_den_pos _
  have hbounds := div_bounds hpos
  rw [hscaled] at hbounds
  unfold candidate at h
  extract_lets ratio exponent scaled low readsBack lowFirst near far at h
  have hnear : near = low ∨ near = low + 1 := by
    by_cases hfirst : lowFirst <;> simp [near, hfirst]
  have hfar : far = low ∨ far = low + 1 := by
    by_cases hfirst : lowFirst <;> simp [far, hfirst]
  split at h
  · rename_i hback
    cases h
    exact ⟨rfl, ⟨low, hbounds.1, hbounds.2, hnear⟩, beq_iff_eq.1 hback⟩
  split at h
  · rename_i hback
    cases h
    exact ⟨rfl, ⟨low, hbounds.1, hbounds.2, hfar⟩, beq_iff_eq.1 hback⟩
  · cases h

/-- A decimal without a sign is not negative. -/
theorem isNegative_ofDecimal (digits : Nat) (exponent : Int) :
    (ofDecimal digits exponent).isNegative = false := (magnitude_ofRatio _ _).2

/-- The power of ten that bounds the range is a double. -/
theorem quotient_ratio_bound : quotient (ofDecimal 1 16).ratio = 10 ^ (16 : Int) := by
  have : (ofDecimal 1 16).ratio = (10 ^ 16, 1) := by decide
  rw [this]
  norm_num [quotient]

private theorem near_candidate {x : Double} (hx : x.InRange) (hpos : x.isNegative = false) {place : Int}
    {count : Nat} {d : Decimal} (hcount : 0 < count)
    (hplace : (10 : ℚ) ^ (place - 1) ≤ quotient x.ratio ∧ quotient x.ratio < 10 ^ place)
    (h : x.candidate place count = some d) : x.Near d := by
  obtain ⟨hexponent, ⟨low, hlow, hhigh, hdigits⟩, hmagnitude⟩ := candidate_eq_some h
  have hreads : ofDecimal d.digits d.exponent = x :=
    eq_of_magnitude (isNegative_ofDecimal _ _) hpos hmagnitude
  have hten := ten_pos d.exponent
  have hfour : -4 < place := lt_of_ten_lt_ten (hx.low.trans_lt hplace.2)
  have hsixteen : place - 1 < 16 := lt_of_ten_lt_ten (hplace.1.trans_lt hx.high)
  have hscale : quotient x.ratio * 10 ^ (-d.exponent) * 10 ^ d.exponent = quotient x.ratio := by
    rw [mul_assoc, ← ten_add, neg_add_cancel, zpow_zero, mul_one]
  refine ⟨hreads, ?_, ?_⟩
  · -- The decimal has `count` digits like the one below it.
    have hcast : (10 : ℚ) ^ (place - 1) * 10 ^ (-d.exponent) = (10 ^ (count - 1) : Nat) := by
      rw [← ten_add, Nat.cast_pow, ← zpow_natCast]
      congr 1
      omega
    have hnat : 10 ^ (count - 1) < low + 1 := by
      have := (mul_le_mul_of_nonneg_right hplace.1 (ten_pos (-d.exponent)).le).trans_lt hhigh
      rw [hcast] at this
      exact_mod_cast this
    have hle : (10 ^ (count - 1) : Nat) ≤ d.digits := by omega
    calc (10 : ℚ) ^ (-4 : Int) ≤ 10 ^ (place - 1) := ten_le_ten (by omega)
      _ = (10 ^ (count - 1) : Nat) * 10 ^ d.exponent := by
          rw [← hcast, mul_assoc, ← ten_add, neg_add_cancel, zpow_zero, mul_one]
      _ ≤ d.value := mul_le_mul_of_nonneg_right (by exact_mod_cast hle) hten.le
  · -- It could reach the bound only by being the bound, which is another double.
    obtain ⟨k, hk⟩ := Int.eq_ofNat_of_zero_le (show 0 ≤ 16 - d.exponent by omega)
    have hcast : (10 : ℚ) ^ (16 : Int) = (10 ^ k : Nat) * 10 ^ d.exponent := by
      rw [Nat.cast_pow, Nat.cast_ofNat, ← zpow_natCast, ← ten_add]
      congr 1
      omega
    have hlt : low < 10 ^ k := by
      have : (low : ℚ) * 10 ^ d.exponent < (10 ^ k : Nat) * 10 ^ d.exponent := by
        rw [← hcast]
        have := mul_le_mul_of_nonneg_right hlow hten.le
        rw [hscale] at this
        exact this.trans_lt hx.high
      exact_mod_cast lt_of_mul_lt_mul_right this hten.le
    have hle : d.digits ≤ 10 ^ k := by omega
    have hvalue : d.value ≤ 10 ^ (16 : Int) := by
      rw [hcast]
      exact mul_le_mul_of_nonneg_right (by exact_mod_cast hle) hten.le
    refine lt_of_le_of_ne hvalue fun heq => ?_
    have hbound : ofDecimal d.digits d.exponent = ofDecimal 1 16 := by
      refine ofDecimal_congr ?_
      rw [Nat.cast_one, one_mul]
      exact heq
    have hsame := hx.high
    rw [← hreads, hbound, quotient_ratio_bound] at hsame
    exact lt_irrefl _ hsame

/-- The decimal that is written reads back, and is in the range like the double. -/
theorem shortest_near {x : Double} (hx : x.InRange) (hpos : x.isNegative = false) :
    x.Near x.shortest := by
  have hfour : x.ratio.2 ≤ x.ratio.1 * 10 ^ 4 := by
    have hden : (0 : ℚ) < x.ratio.2 := Nat.cast_pos.2 x.ratio_den_pos
    have hlow := hx.low
    rw [quotient, le_div_iff₀ hden] at hlow
    have : (x.ratio.2 : ℚ) ≤ x.ratio.1 * 10 ^ 4 := by
      norm_num at hlow ⊢
      linarith
    exact_mod_cast this
  have hplace := pointPlace_bounds x.ratio_den_pos hfour
  have hfrom : ∀ fuel count, 0 < count →
      x.Near (x.shortestFrom (pointPlace x.ratio.1 x.ratio.2) fuel count) := by
    intro fuel
    induction fuel with
    | zero => exact fun _ _ => near_expansion hx hpos
    | succ fuel ih =>
      intro count hcount
      rw [shortestFrom]
      split
      · exact near_candidate hx hpos hcount hplace (by assumption)
      · exact ih _ (Nat.succ_pos count)
  exact hfrom 17 1 one_pos

/-! ## The digits that are written -/

/-- Digits around a point that read back to the double.  A leading zero stands alone before the
point. -/
structure Spells (whole fraction : List Char) (x : Double) : Prop where
  digits : ∀ c ∈ whole ++ fraction, c.isDigit = true
  nonempty : fraction ≠ []
  leads : whole = ['0'] ∨ ∃ c rest, whole = c :: rest ∧ c ≠ '0'
  reads : ofDecimal (decimalValue (whole ++ fraction)) (-(fraction.length : Int)) = x

/-- The digits of a number are those kept, followed by zeros. -/
theorem significant_eq (d : Decimal) :
    ∃ zeros, Nat.toDigits 10 d.digits = (significant d).1 ++ List.replicate zeros '0' := by
  set all := Nat.toDigits 10 d.digits
  refine ⟨(all.reverse.takeWhile (· == '0')).length, ?_⟩
  have hzeros : all.reverse.takeWhile (· == '0') =
      List.replicate (all.reverse.takeWhile (· == '0')).length '0' := by
    refine List.eq_replicate_iff.2 ⟨rfl, fun c hc => ?_⟩
    have := List.mem_takeWhile_imp (p := (· == '0')) hc
    exact beq_iff_eq.1 this
  have hparts := List.takeWhile_append_dropWhile (p := (· == '0')) (l := all.reverse)
  rw [hzeros] at hparts
  have hall := congrArg List.reverse hparts
  rw [List.reverse_append, List.reverse_replicate, List.reverse_reverse] at hall
  exact hall.symm

/-- What is known of the digits of a positive decimal. -/
structure Written (d : Decimal) (kept : List Char) (place : Int) : Prop where
  digits : ∀ c ∈ kept, c.isDigit = true
  head : ∃ c rest, kept = c :: rest ∧ c ≠ '0'
  value : d.value = decimalValue kept * 10 ^ (place - kept.length)
  low : (10 : ℚ) ^ (place - 1) ≤ d.value
  high : d.value < 10 ^ place

private theorem written_significant {d : Decimal} (hd : 0 < d.digits) :
    Written d (significant d).1 (significant d).2 := by
  obtain ⟨zeros, hall⟩ := significant_eq d
  set kept := (significant d).1 with hkept
  have hplace : (significant d).2 = (Nat.toDigits 10 d.digits).length + d.exponent := rfl
  have hvalue : d.digits = decimalValue kept * 10 ^ zeros := by
    rw [← decimalValue_toDigits d.digits, hall, decimalValue_append, decimalValue_replicate,
      List.length_replicate, Nat.add_zero]
  have hten := ten_pos d.exponent
  obtain ⟨hlow, hhigh⟩ := toDigits_bounds hd
  refine ⟨fun c hc => ?_, ?_, ?_, ?_, ?_⟩
  · refine Nat.isDigit_of_mem_toDigits (b := 10) (n := d.digits) (by decide) (by decide) ?_
    rw [hall]
    exact List.mem_append_left _ hc
  · cases hk : kept with
    | nil =>
      rw [hk] at hvalue
      simp [decimalValue] at hvalue
      omega
    | cons c rest =>
      refine ⟨c, rest, rfl, fun hc => head?_toDigits hd ?_⟩
      rw [hall, hk, hc]
      rfl
  · rw [hplace, hall, List.length_append, List.length_replicate, Decimal.value, hvalue]
    push_cast
    rw [mul_assoc, ← zpow_natCast, ← ten_add]
    congr 2
    ring
  · rw [hplace, show ((Nat.toDigits 10 d.digits).length + d.exponent - 1 : Int) =
      ((Nat.toDigits 10 d.digits).length - 1 : Int) + d.exponent by ring, ten_add]
    exact mul_le_mul_of_nonneg_right hlow hten.le
  · rw [hplace, ten_add]
    exact mul_lt_mul_of_pos_right hhigh hten

/-- Digits of the value of a decimal spell what the decimal reads back to. -/
theorem spells_of_value {x : Double} {d : Decimal} (hd : x.Near d) {whole fraction : List Char}
    (hdigits : ∀ c ∈ whole ++ fraction, c.isDigit = true) (hfraction : fraction ≠ [])
    (hwhole : whole = ['0'] ∨ ∃ c rest, whole = c :: rest ∧ c ≠ '0')
    (hvalue : decimalValue (whole ++ fraction) * 10 ^ (-(fraction.length : Int)) = d.value) :
    Spells whole fraction x := by
  refine ⟨hdigits, hfraction, hwhole, ?_⟩
  rw [← hd.reads]
  exact ofDecimal_congr hvalue

/-- Digits written around the point spell the double. -/
theorem spells_positional {x : Double} {d : Decimal} (hd : x.Near d) {kept : List Char} {place : Int}
    (hw : Written d kept place) :
    ∃ whole fraction, (positional kept place).toList = whole ++ '.' :: fraction ∧
      Spells whole fraction x := by
  obtain ⟨c, rest, hkept, hc⟩ := hw.head
  have hzeros : ∀ k, ∀ c ∈ List.replicate k '0', c.isDigit = true := by
    intro k c hc
    rw [List.eq_of_mem_replicate hc]
    rfl
  simp only [positional]
  split_ifs with hplace hcount
  · refine ⟨['0'], List.replicate (-place).toNat '0' ++ kept, by simp, ?_⟩
    refine spells_of_value hd ?_ (by simp [hkept]) (Or.inl rfl) ?_
    · intro c hc
      simp only [List.mem_append, List.mem_singleton] at hc
      rcases hc with rfl | hc | hc
      · rfl
      · exact hzeros _ c hc
      · exact hw.digits c hc
    · have hzero : decimalValue (['0'] ++ (List.replicate (-place).toNat '0' ++ kept)) =
          decimalValue kept := by
        simp
      rw [hzero, hw.value, List.length_append, List.length_replicate]
      congr 2
      push_cast
      omega
  · obtain ⟨k, hk⟩ := Int.eq_ofNat_of_zero_le (show 0 ≤ place - kept.length by omega)
    have htimes : place.toNat - kept.length = k := by omega
    refine ⟨kept ++ List.replicate k '0', ['0'], by simp [htimes], ?_⟩
    refine spells_of_value hd ?_ (by simp) (Or.inr ⟨c, rest ++ List.replicate k '0', ?_, hc⟩) ?_
    · intro c hc
      simp only [List.mem_append, List.mem_singleton] at hc
      rcases hc with (hc | hc) | rfl
      · exact hw.digits c hc
      · exact hzeros _ c hc
      · rfl
    · rw [hkept, List.cons_append]
    · have hvalue : decimalValue (kept ++ List.replicate k '0' ++ ['0']) =
          decimalValue kept * 10 ^ k * 10 := by
        simp [pow_succ, mul_assoc]
      rw [hvalue, hw.value, hk]
      push_cast
      simp [mul_assoc]
  · refine ⟨kept.take place.toNat, kept.drop place.toNat, by simp, ?_⟩
    have htake : kept.take place.toNat = c :: rest.take (place.toNat - 1) := by
      rw [hkept, List.take_cons (by omega)]
    refine spells_of_value hd ?_ ?_ (Or.inr ⟨c, rest.take (place.toNat - 1), htake, hc⟩) ?_
    · rw [List.take_append_drop]
      exact hw.digits
    · simp only [ne_eq, List.drop_eq_nil_iff]
      omega
    · rw [List.take_append_drop, hw.value, List.length_drop]
      congr 2
      omega

/-- The written form of a moderate double spells it. -/
theorem spells_render {x : Double} (hpos : x.isNegative = false) (hx : x.isModerate = true) :
    ∃ whole fraction, x.render.toList = whole ++ '.' :: fraction ∧ Spells whole fraction x := by
  cases hzero : x.isZero with
  | true =>
    have hmagnitude : x.magnitude = 0 := beq_iff_eq.1 hzero
    obtain rfl : x = zero := eq_of_magnitude hpos rfl hmagnitude
    have hdigits : ∀ c ∈ ['0'] ++ ['0'], c.isDigit = true := by simp
    exact ⟨['0'], ['0'], by decide, hdigits, by decide, Or.inl rfl, by decide⟩
  | false =>
    have hrange := inRange_of_isModerate hx hzero
    have hnear := shortest_near hrange hpos
    have hdigits : 0 < x.shortest.digits := by
      refine Nat.pos_of_ne_zero fun h => ?_
      have hlow := hnear.low
      rw [Decimal.value, h, Nat.cast_zero, zero_mul] at hlow
      exact absurd hlow (not_le.2 (ten_pos _))
    have hw := written_significant hdigits
    have hlow : -3 ≤ (significant x.shortest).2 := by
      have := lt_of_ten_lt_ten (hnear.low.trans_lt hw.high)
      omega
    have hhigh : (significant x.shortest).2 ≤ 16 := by
      have := lt_of_ten_lt_ten (hw.low.trans_lt hnear.high)
      omega
    have hfinite := hrange.finite
    have hrender : x.render = positional (significant x.shortest).1 (significant x.shortest).2 := by
      simp [render, isNaN, hfinite.le, hpos, renderMagnitude, hzero, isInfinite, hfinite.ne, hlow,
        hhigh]
    rw [hrender]
    exact spells_positional hnear hw

end Double

end TypeFlow
