import Mathlib.Algebra.Order.Field.Power
import Mathlib.Data.Int.Log
import Mathlib.Data.Rat.Floor
import Mathlib.Tactic.FieldSimp
import Mathlib.Tactic.Linarith
import Mathlib.Tactic.Positivity
import Mathlib.Tactic.Ring
import OpManifest.Decimal.Binary64
import OpManifest.Proofs.Digits

/-!
# Reading numbers back

The number nearest to a ratio depends on the value of the ratio only
(`ofRatio_congr`), and a number of the format is the nearest one to its own value
(`ofRatio_of_normal`).  So the shortest decimal fraction of a number reads back
as the number (`ofFraction_shortest`), however many zeros it ends with.
-/

namespace OpManifest.Decimal

namespace Binary64

/-! ## Rounding -/

theorem divideToEven_mul {k : Nat} (hk : 0 < k) (num den : Nat) :
    divideToEven (k * num) (k * den) = divideToEven num den := by
  have hquotient : k * num / (k * den) = num / den := Nat.mul_div_mul_left num den hk
  have hrest : k * num % (k * den) = k * (num % den) := Nat.mul_mod_mul_left k num den
  have hless : k * den < 2 * (k * (num % den)) ↔ den < 2 * (num % den) := by
    rw [Nat.mul_left_comm 2 k]
    exact Nat.mul_lt_mul_left hk
  have hequal : 2 * (k * (num % den)) = k * den ↔ 2 * (num % den) = den := by
    rw [Nat.mul_left_comm 2 k]
    exact Nat.mul_right_inj (by omega)
  simp only [divideToEven, hquotient, hrest, hless, hequal]

/-- Rounding depends on the value of the ratio only. -/
theorem divideToEven_congr {num den num' den' : Nat} (hden : 0 < den) (hden' : 0 < den')
    (h : num * den' = num' * den) : divideToEven num den = divideToEven num' den' := by
  rw [← divideToEven_mul hden' num den, ← divideToEven_mul hden num' den', Nat.mul_comm den' num, h,
    Nat.mul_comm den' den, Nat.mul_comm num' den]

theorem divideToEven_exact {den : Nat} (hden : 0 < den) (quotient : Nat) :
    divideToEven (quotient * den) den = quotient := by
  have hzero : quotient * den % den = 0 := Nat.mul_mod_left quotient den
  simp only [divideToEven, hzero, Nat.mul_div_left quotient hden]
  rw [if_neg (by omega)]

theorem le_divideToEven {num den bound : Nat} (hden : 0 < den) (h : bound * den ≤ num) :
    bound ≤ divideToEven num den := by
  have hquotient : bound ≤ num / den := (Nat.le_div_iff_mul_le hden).2 h
  simp only [divideToEven]
  split <;> omega

theorem divideToEven_le {num den bound : Nat} (hden : 0 < den) (h : num < bound * den) :
    divideToEven num den ≤ bound := by
  have hquotient : num / den < bound := (Nat.div_lt_iff_lt_mul hden).2 h
  simp only [divideToEven]
  split <;> omega

/-! ## Scaling -/

theorem scale_pos (base : Nat) {den : Nat} (hbase : 0 < base) (hden : 0 < den) (power : Int)
    (num : Nat) : 0 < (scale base power num den).2 := by
  unfold scale
  split
  · exact hden
  · exact Nat.mul_pos hden (Nat.pow_pos hbase)

/-- Scaling multiplies the value of a ratio by a power. -/
theorem scale_ratio (base : Nat) {den : Nat} (hbase : 0 < base) (hden : 0 < den) (power : Int)
    (num : Nat) :
    ((scale base power num den).1 : ℚ) / (scale base power num den).2 =
      num / den * (base : ℚ) ^ power := by
  have hne : (base : ℚ) ≠ 0 := by exact_mod_cast hbase.ne'
  have hdenne : (den : ℚ) ≠ 0 := by exact_mod_cast hden.ne'
  have hpow (n : Nat) : base.pow n = base ^ n := rfl
  unfold scale
  split
  · rename_i hpower
    obtain ⟨n, rfl⟩ := Int.eq_ofNat_of_zero_le hpower
    simp only [Int.toNat_natCast, hpow, Nat.cast_mul, Nat.cast_pow,
      zpow_natCast]
    field_simp
  · rename_i hpower
    obtain ⟨n, hn⟩ := Int.eq_ofNat_of_zero_le (a := -power) (by omega)
    have hpower : power = -(n : Int) := by omega
    subst hpower
    simp only [neg_neg, Int.toNat_natCast, hpow, Nat.cast_mul, Nat.cast_pow, zpow_neg,
      zpow_natCast]
    field_simp

/-! ## The number nearest to a ratio -/

/-- The exponent of the number nearest to a positive ratio, before it is
rounded: the mantissa then has 53 binary digits, or the exponent is the least
one. -/
def gridExponent (ratio : ℚ) : Int := max (Int.log 2 ratio - 52) (-1074)

/-- The number with a rounded mantissa, which may have become one digit
longer. -/
def settle (negative : Bool) (exponent : Int) (mantissa : Nat) : Binary64 :=
  let (mantissa, exponent) :=
    if mantissa = 2 ^ 53 then (2 ^ 52, exponent + 1) else (mantissa, exponent)
  if 971 < exponent then .infinite negative else .finite negative mantissa exponent

theorem log_ratio_bounds {num den : Nat} (hnum : 0 < num) (hden : 0 < den) :
    (num.log2 : Int) - den.log2 - 1 ≤ Int.log 2 ((num : ℚ) / den) ∧
      Int.log 2 ((num : ℚ) / den) ≤ (num.log2 : Int) - den.log2 := by
  have hratio : (0 : ℚ) < num / den := by positivity
  have hnumLow : ((2 : ℚ) ^ num.log2) ≤ num := by exact_mod_cast Nat.log2_self_le hnum.ne'
  have hnumHigh : (num : ℚ) < 2 ^ (num.log2 + 1) := by exact_mod_cast Nat.lt_log2_self
  have hdenLow : ((2 : ℚ) ^ den.log2) ≤ den := by exact_mod_cast Nat.log2_self_le hden.ne'
  have hdenHigh : (den : ℚ) < 2 ^ (den.log2 + 1) := by exact_mod_cast Nat.lt_log2_self
  have hdenPos : (0 : ℚ) < den := by exact_mod_cast hden
  have htwo : ((2 : ℕ) : ℚ) = 2 := rfl
  constructor
  · apply (Int.zpow_le_iff_le_log (by decide) hratio).1
    rw [htwo, le_div_iff₀ hdenPos]
    have hsplit : (2 : ℚ) ^ ((num.log2 : Int) - den.log2 - 1) * 2 ^ (den.log2 + 1) =
        2 ^ num.log2 := by
      rw [← zpow_natCast, ← zpow_natCast, ← zpow_add₀ (by norm_num)]
      congr 1
      push_cast
      ring
    calc (2 : ℚ) ^ ((num.log2 : Int) - den.log2 - 1) * den
        ≤ 2 ^ ((num.log2 : Int) - den.log2 - 1) * 2 ^ (den.log2 + 1) := by gcongr
      _ = 2 ^ num.log2 := hsplit
      _ ≤ num := hnumLow
  · apply Int.lt_add_one_iff.1
    apply (Int.lt_zpow_iff_log_lt (by decide) hratio).1
    rw [htwo, div_lt_iff₀ hdenPos]
    have hsplit : (2 : ℚ) ^ ((num.log2 : Int) - den.log2 + 1) * 2 ^ den.log2 =
        2 ^ (num.log2 + 1) := by
      rw [← zpow_natCast, ← zpow_natCast, ← zpow_add₀ (by norm_num)]
      congr 1
      push_cast
      ring
    calc (num : ℚ) < 2 ^ (num.log2 + 1) := hnumHigh
      _ = 2 ^ ((num.log2 : Int) - den.log2 + 1) * 2 ^ den.log2 := hsplit.symm
      _ ≤ 2 ^ ((num.log2 : Int) - den.log2 + 1) * den := by gcongr

theorem ofRatio_eq (negative : Bool) {num den : Nat} (hnum : 0 < num) (hden : 0 < den) :
    ofRatio negative num den =
      settle negative (gridExponent (num / den))
        (divideToEven (scale 2 (-gridExponent (num / den)) num den).1
          (scale 2 (-gridExponent (num / den)) num den).2) := by
  have hratio : (0 : ℚ) < num / den := by positivity
  obtain ⟨hlow, hhigh⟩ := log_ratio_bounds hnum hden
  have hguess : (if (scale 2 (-((num.log2 : Int) - den.log2 - 52)) num den).1 <
      (scale 2 (-((num.log2 : Int) - den.log2 - 52)) num den).2 <<< 52 then
        (num.log2 : Int) - den.log2 - 52 - 1 else (num.log2 : Int) - den.log2 - 52) =
      Int.log 2 ((num : ℚ) / den) - 52 := by
    have hvalue := scale_ratio 2 (by decide) hden (-((num.log2 : Int) - den.log2 - 52)) num
    have hpos := scale_pos 2 (by decide) hden (-((num.log2 : Int) - den.log2 - 52)) num
    generalize scale 2 (-((num.log2 : Int) - den.log2 - 52)) num den = scaled at hvalue hpos
    have hposq : (0 : ℚ) < scaled.2 := by exact_mod_cast hpos
    have htest : scaled.1 < scaled.2 <<< 52 ↔
        Int.log 2 ((num : ℚ) / den) < (num.log2 : Int) - den.log2 := by
      rw [← Int.lt_zpow_iff_log_lt (by decide) hratio, Nat.shiftLeft_eq]
      have hsplit : (((2 : ℕ) : ℚ)) ^ (-((num.log2 : Int) - den.log2 - 52)) =
          2 ^ 52 / 2 ^ ((num.log2 : Int) - den.log2) := by
        rw [eq_div_iff (by positivity), ← zpow_natCast, Nat.cast_ofNat, ← zpow_add₀ (by norm_num)]
        congr 1
        push_cast
        ring
      have hcast : (scaled.1 < scaled.2 * 2 ^ 52) ↔ (scaled.1 : ℚ) / scaled.2 < 2 ^ 52 := by
        rw [div_lt_iff₀ hposq]
        norm_cast
        rw [Nat.mul_comm]
      rw [hcast, hvalue, hsplit, mul_div_assoc', div_lt_iff₀ (by positivity), Nat.cast_ofNat]
      constructor
      · intro hlt
        nlinarith
      · intro hlt
        nlinarith
    by_cases hless : scaled.1 < scaled.2 <<< 52
    · rw [if_pos hless]
      have := htest.1 hless
      omega
    · rw [if_neg hless]
      have := mt htest.2 hless
      omega
  have hfifty : (1 <<< 53 : Nat) = 2 ^ 53 ∧ (1 <<< 52 : Nat) = 2 ^ 52 := by decide
  unfold ofRatio
  rw [if_neg hnum.ne']
  simp only [hguess, hfifty.1, hfifty.2]
  rfl

theorem eq_of_ratio_eq {num den num' den' : Nat} (hden : 0 < den) (hden' : 0 < den')
    (h : (num : ℚ) / den = num' / den') : num * den' = num' * den := by
  have hne : (den : ℚ) ≠ 0 := by exact_mod_cast hden.ne'
  have hne' : (den' : ℚ) ≠ 0 := by exact_mod_cast hden'.ne'
  rw [div_eq_div_iff hne hne'] at h
  exact_mod_cast h

theorem eq_mul_of_ratio {num den n : Nat} (hden : 0 < den) (h : (num : ℚ) / den = n) :
    num = n * den := by
  have hone : (num : ℚ) / den = n / (1 : Nat) := by simpa using h
  have hproduct := eq_of_ratio_eq hden Nat.one_pos hone
  rwa [Nat.mul_one] at hproduct

/-- The number nearest to a ratio depends on the value of the ratio only. -/
theorem ofRatio_congr (negative : Bool) {num den num' den' : Nat} (hnum : 0 < num)
    (hden : 0 < den) (hnum' : 0 < num') (hden' : 0 < den') (h : (num : ℚ) / den = num' / den') :
    ofRatio negative num den = ofRatio negative num' den' := by
  rw [ofRatio_eq negative hnum hden, ofRatio_eq negative hnum' hden', ← h]
  congr 1
  have hpos := scale_pos 2 (by decide) hden (-gridExponent (num / den)) num
  have hpos' := scale_pos 2 (by decide) hden' (-gridExponent (num / den)) num'
  refine divideToEven_congr hpos hpos' (eq_of_ratio_eq hpos hpos' ?_)
  rw [scale_ratio 2 (by decide) hden, scale_ratio 2 (by decide) hden', h]

/-! ## Numbers of the format -/

/-- The number is one that reading gives: a mantissa has 53 binary digits, or
fewer with the least exponent. -/
def Normal : Binary64 → Prop
  | .finite _ mantissa exponent => mantissa < 2 ^ 53 ∧ -1074 ≤ exponent ∧ exponent ≤ 971 ∧
      (2 ^ 52 ≤ mantissa ∨ exponent = -1074)
  | .infinite _ => True
  | .notANumber => False

theorem normal_settle (negative : Bool) {exponent : Int} {mantissa : Nat}
    (hexponent : -1074 ≤ exponent) (hmantissa : mantissa ≤ 2 ^ 53)
    (hleast : 2 ^ 52 ≤ mantissa ∨ exponent = -1074) :
    (settle negative exponent mantissa).Normal := by
  by_cases hlong : mantissa = 2 ^ 53
  · simp only [settle, hlong, ↓reduceIte]
    split
    · trivial
    · exact ⟨by decide, by omega, by omega, .inl (Nat.le_refl _)⟩
  · simp only [settle, hlong, ↓reduceIte]
    split
    · trivial
    · exact ⟨by omega, hexponent, by omega, hleast⟩

/-- Scaled to its exponent, a ratio has at most 53 binary digits before the
point, and no fewer unless the exponent is the least one. -/
theorem scaled_bounds {num den : Nat} (hnum : 0 < num) (hden : 0 < den) :
    let scaled := scale 2 (-gridExponent (num / den)) num den
    scaled.1 < 2 ^ 53 * scaled.2 ∧
      (gridExponent (num / den) = -1074 ∨ 2 ^ 52 * scaled.2 ≤ scaled.1) := by
  intro scaled
  have hratio : (0 : ℚ) < num / den := by positivity
  have hpos : (0 : ℚ) < scaled.2 := by
    exact_mod_cast scale_pos 2 (by decide) hden (-gridExponent (num / den)) num
  have hvalue : (scaled.1 : ℚ) / scaled.2 = num / den * 2 ^ (-gridExponent (num / den)) :=
    scale_ratio 2 (by decide) hden _ num
  have hsplit (power : Int) : (2 : ℚ) ^ power * 2 ^ (-gridExponent ((num : ℚ) / den)) =
      2 ^ (power - gridExponent ((num : ℚ) / den)) := by
    rw [← zpow_add₀ (by norm_num), sub_eq_add_neg]
  have hhigh : (num : ℚ) / den < 2 ^ (Int.log 2 ((num : ℚ) / den) + 1) :=
    Int.lt_zpow_succ_log_self (by decide) _
  have hlow : (2 : ℚ) ^ Int.log 2 ((num : ℚ) / den) ≤ num / den :=
    Int.zpow_log_le_self (by decide) hratio
  constructor
  · have hlt : (scaled.1 : ℚ) / scaled.2 < 2 ^ (53 : Int) := by
      calc (scaled.1 : ℚ) / scaled.2 = num / den * 2 ^ (-gridExponent (num / den)) := hvalue
        _ < 2 ^ (Int.log 2 ((num : ℚ) / den) + 1) * 2 ^ (-gridExponent ((num : ℚ) / den)) := by
          gcongr
        _ = 2 ^ (Int.log 2 ((num : ℚ) / den) + 1 - gridExponent ((num : ℚ) / den)) := hsplit _
        _ ≤ 2 ^ (53 : Int) := by
          apply zpow_le_zpow_right₀ (by norm_num)
          unfold gridExponent
          omega
    rw [div_lt_iff₀ hpos] at hlt
    exact_mod_cast hlt
  · by_cases hleast : gridExponent ((num : ℚ) / den) = -1074
    · exact .inl hleast
    · right
      have hle : (2 : ℚ) ^ (52 : Int) ≤ (scaled.1 : ℚ) / scaled.2 := by
        calc (2 : ℚ) ^ (52 : Int)
            = 2 ^ (Int.log 2 ((num : ℚ) / den) - gridExponent ((num : ℚ) / den)) := by
              congr 1
              unfold gridExponent at hleast ⊢
              omega
          _ = 2 ^ Int.log 2 ((num : ℚ) / den) * 2 ^ (-gridExponent ((num : ℚ) / den)) :=
            (hsplit _).symm
          _ ≤ num / den * 2 ^ (-gridExponent ((num : ℚ) / den)) := by gcongr
          _ = (scaled.1 : ℚ) / scaled.2 := hvalue.symm
      rw [le_div_iff₀ hpos] at hle
      exact_mod_cast hle

theorem normal_ofRatio (negative : Bool) (num : Nat) {den : Nat} (hden : 0 < den) :
    (ofRatio negative num den).Normal := by
  rcases Nat.eq_zero_or_pos num with rfl | hnum
  · exact ⟨by decide, by decide, by decide, .inr rfl⟩
  · obtain ⟨hhigh, hlow⟩ := scaled_bounds hnum hden
    have hpos := scale_pos 2 (by decide) hden (-gridExponent (num / den)) num
    rw [ofRatio_eq negative hnum hden]
    refine normal_settle negative (le_max_right _ _) (divideToEven_le hpos hhigh) ?_
    exact hlow.symm.imp_left (le_divideToEven hpos)

theorem normal_ofFraction (f : Fraction) : (ofFraction f).Normal := by
  unfold ofFraction
  simp only
  split
  · exact ⟨by decide, by decide, by decide, .inr rfl⟩
  · split
    · trivial
    · split
      · exact ⟨by decide, by decide, by decide, .inr rfl⟩
      · exact normal_ofRatio _ _ (scale_pos _ (by decide) (by decide) _ _)

/-- A number of the format is the one that is nearest to its own value. -/
theorem ofRatio_of_normal {negative : Bool} {mantissa num den : Nat} {exponent : Int}
    (hnormal : (finite negative mantissa exponent).Normal) (hnum : 0 < num) (hden : 0 < den)
    (h : (num : ℚ) / den = mantissa * 2 ^ exponent) :
    ofRatio negative num den = .finite negative mantissa exponent := by
  obtain ⟨hlong, hleast, hgreatest, hdigits⟩ := hnormal
  have hratio : (0 : ℚ) < num / den := by positivity
  have htwo : ((2 : ℕ) : ℚ) = 2 := rfl
  have hgrid : gridExponent (num / den) = exponent := by
    have hpower : (0 : ℚ) < 2 ^ exponent := by positivity
    have hhigh : Int.log 2 ((num : ℚ) / den) < 53 + exponent := by
      apply (Int.lt_zpow_iff_log_lt (by decide) hratio).1
      rw [htwo, h, zpow_add₀ (by norm_num)]
      have hmantissa : (mantissa : ℚ) < 2 ^ (53 : Int) := by exact_mod_cast hlong
      gcongr
    rcases hdigits with hfull | hsmall
    · have hlow : 52 + exponent ≤ Int.log 2 ((num : ℚ) / den) := by
        apply (Int.zpow_le_iff_le_log (by decide) hratio).1
        rw [htwo, h, zpow_add₀ (by norm_num)]
        have hmantissa : (2 : ℚ) ^ (52 : Int) ≤ mantissa := by exact_mod_cast hfull
        gcongr
      unfold gridExponent
      omega
    · unfold gridExponent
      omega
  have hscaled : divideToEven (scale 2 (-exponent) num den).1 (scale 2 (-exponent) num den).2 =
      mantissa := by
    have hpos := scale_pos 2 (by decide) hden (-exponent) num
    have hvalue := scale_ratio 2 (by decide) hden (-exponent) num
    have hexact : ((scale 2 (-exponent) num den).1 : ℚ) / (scale 2 (-exponent) num den).2 =
        mantissa := by
      rw [hvalue, h, htwo, mul_assoc, ← zpow_add₀ (by norm_num), add_neg_cancel, zpow_zero, mul_one]
    rw [eq_mul_of_ratio hpos hexact, divideToEven_exact hpos]
  rw [ofRatio_eq negative hnum hden, hgrid, hscaled, settle, if_neg (by omega)]
  simp only
  rw [if_neg (by omega)]

end Binary64

/-! ## Decimal fractions -/

/-- The value of a fraction without its sign. -/
def Fraction.magnitude (f : Fraction) : ℚ := f.digits * 10 ^ f.exponent

namespace Binary64

/-- The place of the first digit tells the size of a fraction. -/
theorem firstPlace_eq {f : Fraction} (h : 0 < f.digits) :
    (decimalLength f.digits : Int) + f.exponent = Int.log 10 f.magnitude + 1 := by
  have hlength : 0 < decimalLength f.digits := Nat.length_toDigits_pos
  have hdigits : (0 : ℚ) < f.digits := by exact_mod_cast h
  have hpos : 0 < f.magnitude := by
    unfold Fraction.magnitude
    positivity
  have hten : ((10 : ℕ) : ℚ) = 10 := rfl
  have hhigh : (f.digits : ℚ) < 10 ^ (decimalLength f.digits : Int) := by
    exact_mod_cast Text.lt_pow_length_toDigits f.digits
  have hlow : (10 : ℚ) ^ ((decimalLength f.digits : Int) - 1) ≤ f.digits := by
    obtain ⟨count, hcount⟩ : ∃ count, decimalLength f.digits = count + 1 :=
      ⟨decimalLength f.digits - 1, by omega⟩
    have hpow := Text.pow_le_of_length_toDigits h (show count < decimalLength f.digits by omega)
    rw [hcount]
    simp only [Nat.cast_add, Nat.cast_one, add_sub_cancel_right, zpow_natCast]
    exact_mod_cast hpow
  apply le_antisymm
  · have hle : (decimalLength f.digits : Int) - 1 + f.exponent ≤ Int.log 10 f.magnitude := by
      apply (Int.zpow_le_iff_le_log (by decide) hpos).1
      rw [hten, zpow_add₀ (by norm_num), Fraction.magnitude]
      gcongr
    omega
  · have hlt : Int.log 10 f.magnitude < decimalLength f.digits + f.exponent := by
      apply (Int.lt_zpow_iff_log_lt (by decide) hpos).1
      rw [hten, zpow_add₀ (by norm_num), Fraction.magnitude]
      gcongr
    omega

/-- The number nearest to a fraction depends on its sign and value only. -/
theorem ofFraction_congr {f g : Fraction} (hsign : f.negative = g.negative)
    (h : f.magnitude = g.magnitude) : ofFraction f = ofFraction g := by
  have hzero : f.digits = 0 ↔ g.digits = 0 := by
    have hpower (exponent : Int) : (10 : ℚ) ^ exponent ≠ 0 := by positivity
    have hiff (f : Fraction) : f.magnitude = 0 ↔ f.digits = 0 := by
      simp [Fraction.magnitude, hpower]
    rw [← hiff, ← hiff, h]
  unfold ofFraction
  simp only [hsign]
  by_cases hf : f.digits = 0
  · rw [if_pos hf, if_pos (hzero.1 hf)]
  · have hg := mt hzero.2 hf
    have hplace := firstPlace_eq (Nat.pos_of_ne_zero hf)
    rw [h, ← firstPlace_eq (Nat.pos_of_ne_zero hg)] at hplace
    rw [if_neg hf, if_neg hg, hplace]
    have hratio (f : Fraction) (hf : f.digits ≠ 0) :
        0 < (scale 10 f.exponent f.digits 1).1 ∧ 0 < (scale 10 f.exponent f.digits 1).2 ∧
          ((scale 10 f.exponent f.digits 1).1 : ℚ) / (scale 10 f.exponent f.digits 1).2 =
            f.magnitude := by
      have hvalue := scale_ratio 10 (by decide) Nat.one_pos f.exponent f.digits
      have hpos := scale_pos 10 (by decide) Nat.one_pos f.exponent f.digits
      have hnum : 0 < (scale 10 f.exponent f.digits 1).1 := by
        unfold scale
        split
        · exact Nat.mul_pos (Nat.pos_of_ne_zero hf) (Nat.pow_pos (by decide))
        · exact Nat.pos_of_ne_zero hf
      refine ⟨hnum, hpos, hvalue.trans ?_⟩
      simp [Fraction.magnitude]
    obtain ⟨hfnum, hfden, hfratio⟩ := hratio f hf
    obtain ⟨hgnum, hgden, hgratio⟩ := hratio g hg
    rw [ofRatio_congr g.negative hfnum hfden hgnum hgden (by rw [hfratio, hgratio, h])]

/-- All numbers of the format lie well within 400 decimal places. -/
theorem two_pow_le : (2 : ℚ) ^ 1074 ≤ 10 ^ 400 := by
  calc (2 : ℚ) ^ 1074 = (2 ^ 3) ^ 358 := by rw [← pow_mul]
    _ ≤ 10 ^ 358 := by
      apply pow_le_pow_left₀ (by norm_num)
      norm_num
    _ ≤ 10 ^ 400 := pow_le_pow_right₀ (by norm_num) (by omega)

/-- A fraction that has the value of a number of the format reads as that
number. -/
theorem ofFraction_of_normal {f : Fraction} {negative : Bool} {mantissa : Nat} {exponent : Int}
    (hnormal : (finite negative mantissa exponent).Normal) (hsign : f.negative = negative)
    (h : f.magnitude = mantissa * 2 ^ exponent) :
    ofFraction f = .finite negative mantissa exponent := by
  have hpower : (0 : ℚ) < 2 ^ exponent := by positivity
  have hten (power : Int) : (0 : ℚ) < 10 ^ power := by positivity
  by_cases hzero : f.digits = 0
  · have hmantissa : mantissa = 0 := by
      simpa [Fraction.magnitude, hzero, hpower.ne'] using h.symm
    obtain ⟨-, -, -, hfull | hleast⟩ := hnormal
    · omega
    · simp [ofFraction, hzero, hsign, hmantissa, hleast]
  · have hdigits := Nat.pos_of_ne_zero hzero
    have hplace := firstPlace_eq hdigits
    have hpos : 0 < f.magnitude := mul_pos (by exact_mod_cast hdigits) (hten _)
    have hmantissa : 0 < mantissa := by
      apply Nat.pos_of_ne_zero
      intro hnone
      rw [h, hnone] at hpos
      simp at hpos
    have hhigh : Int.log 10 f.magnitude < 400 := by
      apply (Int.lt_zpow_iff_log_lt (by decide) hpos).1
      have hmost : (mantissa : ℚ) < 2 ^ (53 : Int) := by exact_mod_cast hnormal.1
      calc f.magnitude = mantissa * 2 ^ exponent := h
        _ < 2 ^ (53 : Int) * 2 ^ exponent := by gcongr
        _ = 2 ^ (53 + exponent) := (zpow_add₀ (by norm_num) _ _).symm
        _ ≤ 2 ^ (1074 : Int) := by
          apply zpow_le_zpow_right₀ (by norm_num)
          have := hnormal.2.2.1
          omega
        _ ≤ ((10 : ℕ) : ℚ) ^ (400 : Int) := by exact_mod_cast two_pow_le
    have hlow : -400 ≤ Int.log 10 f.magnitude := by
      apply (Int.zpow_le_iff_le_log (by decide) hpos).1
      have hone : (1 : ℚ) ≤ mantissa := by exact_mod_cast hmantissa
      calc ((10 : ℕ) : ℚ) ^ (-400 : Int) ≤ 2 ^ (-1074 : Int) := by
            rw [zpow_neg, zpow_neg]
            apply inv_anti₀ (by positivity)
            exact_mod_cast two_pow_le
        _ ≤ 2 ^ exponent := zpow_le_zpow_right₀ (by norm_num) hnormal.2.1
        _ ≤ mantissa * 2 ^ exponent := le_mul_of_one_le_left hpower.le hone
        _ = f.magnitude := h.symm
    have hvalue := scale_ratio 10 (by decide) Nat.one_pos f.exponent f.digits
    have hden := scale_pos 10 (by decide) Nat.one_pos f.exponent f.digits
    have hnum : 0 < (scale 10 f.exponent f.digits 1).1 := by
      apply Nat.pos_of_ne_zero
      intro hnone
      rw [hnone] at hvalue
      simp [hzero, (hten f.exponent).ne'] at hvalue
    unfold ofFraction
    simp only
    rw [if_neg hzero, hplace, if_neg (by omega), if_neg (by omega), hsign]
    refine ofRatio_of_normal hnormal hnum hden ?_
    rw [hvalue, ← h, Fraction.magnitude]
    simp

theorem magnitude_exact (negative : Bool) (mantissa : Nat) (exponent : Int) :
    (exact negative mantissa exponent).magnitude = mantissa * 2 ^ exponent := by
  unfold exact
  split
  · rename_i hexponent
    obtain ⟨n, rfl⟩ := Int.eq_ofNat_of_zero_le hexponent
    simp [Fraction.magnitude, Nat.shiftLeft_eq]
  · rename_i hexponent
    obtain ⟨n, hn⟩ := Int.eq_ofNat_of_zero_le (a := -exponent) (by omega)
    have hnegative : exponent = -(n : Int) := by omega
    have hpow : Nat.pow 5 n = 5 ^ n := rfl
    have hten : (10 : ℚ) = 2 * 5 := by norm_num
    subst hnegative
    simp only [Fraction.magnitude, neg_neg, Int.toNat_natCast, hpow, Nat.cast_mul, Nat.cast_pow,
      Nat.cast_ofNat, zpow_neg, zpow_natCast, hten, mul_pow]
    field_simp

/-- **Shortest digits.**  The shortest fraction of a number reads back as the
number. -/
theorem ofFraction_shortest {negative : Bool} {mantissa : Nat} {exponent : Int}
    (hnormal : (finite negative mantissa exponent).Normal) :
    ofFraction (shortest negative mantissa exponent) = .finite negative mantissa exponent := by
  by_cases hzero : mantissa = 0
  · obtain ⟨-, -, -, hfull | hleast⟩ := hnormal
    · omega
    · simp [shortest, hzero, hleast, ofFraction]
  · unfold shortest
    simp only [hzero, ↓reduceIte]
    generalize leadingPlace (scale 2 exponent mantissa 1).1 (scale 2 exponent mantissa 1).2 = place
    cases hfound : (List.range 17).findSome? fun (n : Nat) =>
        onGrid (.finite negative mantissa exponent) negative (scale 2 exponent mantissa 1).1
          (scale 2 exponent mantissa 1).2 (place - (n : Int)) with
    | none =>
      have hsign : (exact negative mantissa exponent).negative = negative := by
        unfold exact
        split <;> rfl
      exact ofFraction_of_normal hnormal hsign (magnitude_exact negative mantissa exponent)
    | some f =>
      obtain ⟨n, -, hgrid⟩ := List.exists_of_findSome?_eq_some hfound
      have hread := List.find?_some hgrid
      exact of_decide_eq_true hread

end Binary64

/-! ## Whole numbers -/

/-- The fraction has no digits after the point. -/
def Fraction.IsWhole (f : Fraction) : Prop := ∃ n : ℕ, f.magnitude = n

theorem Fraction.isWhole_of_exponent {f : Fraction} (h : 0 ≤ f.exponent) : f.IsWhole := by
  obtain ⟨n, hn⟩ := Int.eq_ofNat_of_zero_le h
  refine ⟨f.digits * 10 ^ n, ?_⟩
  rw [magnitude, hn]
  push_cast
  rfl

namespace Binary64

/-- The number is finite and whole. -/
def IsWhole : Binary64 → Prop
  | .finite _ mantissa exponent => ∃ n : ℕ, (mantissa : ℚ) * 2 ^ exponent = n
  | .infinite _ | .notANumber => False

/-- The number is finite and not whole. -/
def HasFraction : Binary64 → Prop
  | .finite negative mantissa exponent => ¬(finite negative mantissa exponent).IsWhole
  | .infinite _ | .notANumber => False

theorem isWhole_of_exponent {negative : Bool} {mantissa : Nat} {exponent : Int}
    (h : 0 ≤ exponent) : (finite negative mantissa exponent).IsWhole := by
  obtain ⟨n, rfl⟩ := Int.eq_ofNat_of_zero_le h
  refine ⟨mantissa * 2 ^ n, ?_⟩
  push_cast
  rfl

/-- A number is whole if its lowest bit that is set stands for a whole number. -/
theorem isWhole_iff {negative : Bool} {mantissa : Nat} {exponent : Int} :
    (finite negative mantissa exponent).IsWhole ↔
      0 ≤ exponent ∨ 2 ^ (-exponent).toNat ∣ mantissa := by
  by_cases h : 0 ≤ exponent
  · exact iff_of_true (isWhole_of_exponent h) (.inl h)
  · obtain ⟨places, hplaces⟩ := Int.eq_ofNat_of_zero_le (a := -exponent) (by omega)
    have hpower : exponent = -(places : Int) := by omega
    have hpos : (0 : ℚ) < 2 ^ places := by positivity
    rw [or_iff_right h, IsWhole, hpower, neg_neg, Int.toNat_natCast]
    refine exists_congr fun n => ?_
    rw [zpow_neg, zpow_natCast, ← div_eq_mul_inv, div_eq_iff hpos.ne', mul_comm]
    exact_mod_cast Iff.rfl

instance : DecidablePred HasFraction
  | .finite _ _ _ => decidable_of_iff' _ (not_congr isWhole_iff)
  | .infinite _ | .notANumber => inferInstanceAs (Decidable False)

/-- The number nearest to a whole number is whole. -/
theorem isWhole_ofRatio {negative negative' : Bool} {num den mantissa n : Nat} {exponent : Int}
    (hden : 0 < den) (hvalue : (num : ℚ) / den = n)
    (h : ofRatio negative num den = .finite negative' mantissa exponent) :
    (finite negative' mantissa exponent).IsWhole := by
  rcases Nat.eq_zero_or_pos num with rfl | hnum
  · simp only [ofRatio, ↓reduceIte, finite.injEq] at h
    exact ⟨0, by simp [← h.2.1]⟩
  · have hpos := scale_pos 2 (by decide) hden (-gridExponent (num / den)) num
    have hratio := scale_ratio 2 (by decide) hden (-gridExponent (num / den)) num
    have hbound := (scaled_bounds hnum hden).1
    rw [ofRatio_eq negative hnum hden] at h
    generalize scale 2 (-gridExponent ((num : ℚ) / den)) num den = scaled at hpos hratio hbound h
    generalize gridExponent ((num : ℚ) / den) = grid at hratio h
    have hgrid : exponent = grid ∨ exponent = grid + 1 := by
      unfold settle at h
      simp only at h
      split_ifs at h <;> simp_all
    by_cases hpositive : 0 ≤ exponent
    · exact isWhole_of_exponent hpositive
    · -- the grid is finer than the whole numbers, so nothing is rounded
      obtain ⟨places, hplaces⟩ := Int.eq_ofNat_of_zero_le (a := -grid) (by omega)
      have hexact : scaled.1 = n * 2 ^ places * scaled.2 := by
        refine eq_mul_of_ratio hpos ?_
        rw [hratio, hvalue, hplaces]
        push_cast
        simp
      rw [hexact, divideToEven_exact hpos] at h
      have hshort : n * 2 ^ places < 2 ^ 53 := by
        rw [hexact] at hbound
        exact Nat.lt_of_mul_lt_mul_right hbound
      simp only [settle, hshort.ne, ↓reduceIte] at h
      split_ifs at h
      obtain ⟨-, hmantissa, hexponent⟩ := finite.inj h
      refine ⟨n, ?_⟩
      have hpower : exponent = -(places : Int) := by omega
      rw [← hmantissa, hpower]
      push_cast
      rw [mul_assoc, zpow_neg, zpow_natCast, mul_inv_cancel₀ (by positivity), mul_one]

theorem isWhole_of_ofFraction {f : Fraction} {negative : Bool} {mantissa : Nat} {exponent : Int}
    (hwhole : f.IsWhole) (h : ofFraction f = .finite negative mantissa exponent) :
    (finite negative mantissa exponent).IsWhole := by
  have hzero (negative negative' : Bool)
      (h : finite negative' 0 (-1074) = .finite negative mantissa exponent) :
      (finite negative mantissa exponent).IsWhole := by
    obtain ⟨-, hmantissa, -⟩ := finite.inj h
    exact ⟨0, by simp [← hmantissa]⟩
  obtain ⟨n, hn⟩ := hwhole
  unfold ofFraction at h
  simp only at h
  split at h
  · exact hzero negative _ h
  · split at h
    · cases h
    · split at h
      · exact hzero negative _ h
      · have hratio := scale_ratio 10 (by decide) Nat.one_pos f.exponent f.digits
        have hvalue :
            ((scale 10 f.exponent f.digits 1).1 : ℚ) / (scale 10 f.exponent f.digits 1).2 = n := by
          rw [hratio, ← hn, Fraction.magnitude]
          simp
        exact isWhole_ofRatio (scale_pos _ (by decide) (by decide) _ _) hvalue h

theorem leadingPlace_nonneg {num den : Nat} (h : den ≤ num) :
    0 ≤ leadingPlace num den := by
  have hlength : decimalLength den ≤ decimalLength num := by
    unfold decimalLength
    apply (Nat.length_toDigits_le_iff (by decide) Nat.length_toDigits_pos).2
    exact Nat.lt_of_le_of_lt h (Text.lt_pow_length_toDigits num)
  unfold leadingPlace
  simp only
  by_cases hsame : decimalLength num = decimalLength den
  · have hpow : Nat.pow 10 0 = 1 := rfl
    simp only [hsame, sub_self, neg_zero, scale, le_refl, ↓reduceIte, Int.toNat_zero, hpow, mul_one]
    rw [if_neg (by omega)]
  · split <;> omega

theorem onGrid_of_whole {negative : Bool} {mantissa num den n : Nat} {exponent : Int}
    (hnormal : (finite negative mantissa exponent).Normal) (hden : 0 < den)
    (hvalue : (num : ℚ) / den = n) (hwhole : (mantissa : ℚ) * 2 ^ exponent = n) :
    onGrid (.finite negative mantissa exponent) negative num den 0 ≠ none := by
  have hnum : num = n * den := eq_mul_of_ratio hden hvalue
  have hscale : scale 10 (-0) num den = (num, den) := by simp [scale]
  have hread : ofFraction ⟨negative, n, 0⟩ = .finite negative mantissa exponent :=
    ofFraction_of_normal hnormal rfl (by simp [Fraction.magnitude, hwhole])
  have hrest : num % den = 0 := by rw [hnum, Nat.mul_mod_left]
  have hquotient : num / den = n := by rw [hnum, Nat.mul_div_left n hden]
  unfold onGrid
  simp only [hscale, hrest, hquotient]
  rw [if_neg (by omega)]
  simp [hread]

theorem exponent_of_onGrid {target : Binary64} {negative : Bool} {num den : Nat} {exponent : Int}
    {f : Fraction} (h : onGrid target negative num den exponent = some f) :
    f.exponent = exponent := by
  unfold onGrid at h
  have hmem := List.mem_of_find?_eq_some h
  obtain ⟨digits, -, hf⟩ := List.mem_map.1 hmem
  rw [← hf]

/-- The shortest fraction of a whole number is whole: its digits are looked for
before the point first. -/
theorem isWhole_shortest {negative : Bool} {mantissa : Nat} {exponent : Int}
    (hnormal : (finite negative mantissa exponent).Normal)
    (hwhole : (finite negative mantissa exponent).IsWhole) :
    (shortest negative mantissa exponent).IsWhole := by
  obtain ⟨n, hn⟩ := id hwhole
  have hratio := scale_ratio 2 (by decide) Nat.one_pos exponent mantissa
  have hden := scale_pos 2 (by decide) Nat.one_pos exponent mantissa
  have hvalue : ((scale 2 exponent mantissa 1).1 : ℚ) / (scale 2 exponent mantissa 1).2 = n := by
    rw [hratio, ← hn]
    simp
  by_cases hzero : mantissa = 0
  · simp only [shortest, hzero, ↓reduceIte]
    exact Fraction.isWhole_of_exponent (le_refl _)
  · have hpos : (0 : ℚ) < n := by
      rw [← hn]
      have hmantissa : (0 : ℚ) < mantissa := by exact_mod_cast Nat.pos_of_ne_zero hzero
      positivity
    have hplace :
        0 ≤ leadingPlace (scale 2 exponent mantissa 1).1 (scale 2 exponent mantissa 1).2 := by
      apply leadingPlace_nonneg
      have hproduct := eq_mul_of_ratio hden hvalue
      have hone : 1 ≤ n := by exact_mod_cast hpos
      have hle := Nat.mul_le_mul_right (scale 2 exponent mantissa 1).2 hone
      omega
    unfold shortest
    simp only [hzero, ↓reduceIte]
    generalize scale 2 exponent mantissa 1 = scaled at hden hvalue hplace ⊢
    generalize leadingPlace scaled.1 scaled.2 = place at hplace ⊢
    cases hfound : (List.range 17).findSome? fun (n : Nat) =>
        onGrid (.finite negative mantissa exponent) negative scaled.1 scaled.2
          (place - (n : Int)) with
    | none =>
      refine ⟨n, ?_⟩
      rw [Option.getD_none, magnitude_exact, hn]
    | some f =>
      obtain ⟨before, step, after, hrange, hstep, hbefore⟩ := List.findSome?_eq_some_iff.1 hfound
      apply Fraction.isWhole_of_exponent
      rw [Option.getD_some, exponent_of_onGrid hstep]
      by_contra hlate
      -- the whole digits were tried earlier
      have hsorted : (before ++ step :: after).Pairwise (· < ·) := hrange ▸ List.pairwise_lt_range
      have hmem : place.toNat ∈ before ++ step :: after := by
        rw [← hrange, List.mem_range]
        have hlast : step ∈ List.range 17 := by simp [hrange]
        have := List.mem_range.1 hlast
        omega
      have hearly : place.toNat ∈ before := by
        rcases List.mem_append.1 hmem with hin | hin
        · exact hin
        · have hrest := (List.pairwise_append.1 hsorted).2.1
          rcases List.mem_cons.1 hin with hsame | hlater
          · omega
          · have := (List.pairwise_cons.1 hrest).1 _ hlater
            omega
      have hnone := hbefore _ hearly
      have hexponent : place - (place.toNat : Int) = 0 := by omega
      rw [hexponent] at hnone
      exact onGrid_of_whole hnormal hden hvalue hn hnone

theorem isWhole_shortest_iff {negative : Bool} {mantissa : Nat} {exponent : Int}
    (hnormal : (finite negative mantissa exponent).Normal) :
    (shortest negative mantissa exponent).IsWhole ↔ (finite negative mantissa exponent).IsWhole :=
  ⟨fun h => isWhole_of_ofFraction h (ofFraction_shortest hnormal), isWhole_shortest hnormal⟩

end Binary64

/-! ## Positional notation -/

namespace Fraction

/-- The digits before and after the point: before it there is at least one, and
a zero only on its own; after it the last one is no zero. -/
structure Notation (whole part : List Char) : Prop where
  nonempty : whole ≠ []
  zero : whole.head? = some '0' → whole = ['0']
  digits : ∀ c ∈ whole ++ part, c.isDigit = true
  last : part.getLast? ≠ some '0'

theorem exists_trailing_zeros (digits : List Char) : ∃ part count,
    digits = part ++ List.replicate count '0' ∧ part.getLast? ≠ some '0' ∧
      (digits.reverse.dropWhile (· = '0')).reverse = part := by
  induction digits using List.reverseRecOn with
  | nil => exact ⟨[], 0, rfl, by simp, rfl⟩
  | append_singleton digits c ih =>
    by_cases hc : c = '0'
    · obtain ⟨part, count, hdigits, hlast, hdrop⟩ := ih
      refine ⟨part, count + 1, ?_, hlast, ?_⟩
      · rw [List.replicate_succ', ← List.append_assoc, ← hdigits, hc]
      · rw [List.reverse_append, hc]
        simpa using hdrop
    · exact ⟨digits ++ [c], 0, by simp, by simpa using hc, by simp [hc]⟩

theorem magnitude_of_digits {f : Fraction} {digits : List Char} {places zeros : Nat}
    (hexponent : f.exponent = -((places + zeros : Nat) : Int))
    (hdigits : f.digits = Text.digitsValue digits * 10 ^ zeros) :
    f.magnitude = Text.digitsValue digits / 10 ^ places := by
  rw [magnitude, hexponent, hdigits]
  push_cast
  rw [zpow_neg, ← Nat.cast_add, zpow_natCast, pow_add]
  field_simp

theorem positional_of_exponent {f : Fraction} (h : 0 ≤ f.exponent) : ∃ whole,
    f.positional = (if f.negative then ['-'] else []) ++ whole ∧ Notation whole [] ∧
      f.magnitude = Text.digitsValue whole := by
  obtain ⟨n, hn⟩ := Int.eq_ofNat_of_zero_le h
  unfold positional
  simp only [h, ↓reduceIte]
  by_cases hzero : f.digits = 0
  · refine ⟨['0'], by rw [if_pos hzero],
      ⟨by simp, by simp, List.all_eq_true.1 (by decide), by simp⟩, ?_⟩
    simp [magnitude, hzero, Text.digitsValue]
  · have hdigits : ∀ c ∈ Nat.toDigits 10 f.digits, c.isDigit = true :=
      fun c hc => Text.isDigit_of_mem_toDigits hc
    have hhead := Text.head?_toDigits (Nat.pos_of_ne_zero hzero)
    refine ⟨_, by rw [if_neg hzero], ⟨by simp, ?_, ?_, by simp⟩, ?_⟩
    · intro hcontra
      rw [List.head?_append_of_ne_nil _ Nat.toDigits_ne_nil] at hcontra
      exact absurd hcontra hhead
    · intro c hc
      rw [List.append_nil] at hc
      rcases List.mem_append.1 hc with hin | hin
      · exact hdigits c hin
      · rw [(List.mem_replicate.1 hin).2]
        decide
    · rw [Text.digitsValue_append, Text.digitsValue_replicate_zero, Text.digitsValue_toDigits,
        List.length_replicate, magnitude, hn]
      push_cast
      simp

/-- The digits of a fraction, with zeros before them so that there are more than
there are places. -/
theorem exists_padded {f : Fraction} (h : ¬0 ≤ f.exponent) : ∃ whole part,
    List.replicate ((-f.exponent).toNat + 1 - (Nat.toDigits 10 f.digits).length) '0' ++
        Nat.toDigits 10 f.digits = whole ++ part ∧
      part.length = (-f.exponent).toNat ∧ whole ≠ [] ∧ (whole.head? = some '0' → whole = ['0']) ∧
      ∀ c ∈ whole ++ part, c.isDigit = true := by
  have hdigits : ∀ c ∈ Nat.toDigits 10 f.digits, c.isDigit = true :=
    fun c hc => Text.isDigit_of_mem_toDigits hc
  have hplaces : 0 < (-f.exponent).toNat := by omega
  have hvalue : f.digits = 0 → (Nat.toDigits 10 f.digits).length = 1 := fun hzero => by
    rw [hzero]
    rfl
  have hhead : f.digits ≠ 0 → (Nat.toDigits 10 f.digits).head? ≠ some '0' :=
    fun hne => Text.head?_toDigits (Nat.pos_of_ne_zero hne)
  generalize (-f.exponent).toNat = places at hplaces ⊢
  generalize Nat.toDigits 10 f.digits = digits at hdigits hvalue hhead ⊢
  by_cases hlong : places < digits.length
  · refine ⟨digits.take (digits.length - places), digits.drop (digits.length - places), ?_, ?_, ?_,
      ?_, ?_⟩
    · rw [List.take_append_drop, show places + 1 - digits.length = 0 by omega]
      rfl
    · rw [List.length_drop]
      omega
    · rw [ne_eq, List.take_eq_nil_iff, not_or]
      exact ⟨by omega, List.ne_nil_of_length_pos (by omega)⟩
    · intro hzero
      have hne : f.digits ≠ 0 := by
        intro hnone
        have := hvalue hnone
        omega
      rw [List.head?_take, if_neg (by omega)] at hzero
      exact absurd hzero (hhead hne)
    · rwa [List.take_append_drop]
  · obtain ⟨count, hcount⟩ : ∃ count, places + 1 - digits.length = count + 1 :=
      ⟨places - digits.length, by omega⟩
    rw [hcount]
    refine ⟨['0'], List.replicate count '0' ++ digits, by rw [List.replicate_succ]; rfl, ?_,
      by simp, by simp, ?_⟩
    · rw [List.length_append, List.length_replicate]
      omega
    · intro c hc
      rcases List.mem_append.1 hc with hin | hin
      · rw [List.mem_singleton.1 hin]
        decide
      · rcases List.mem_append.1 hin with hin | hin
        · rw [(List.mem_replicate.1 hin).2]
          decide
        · exact hdigits c hin

/-- What the positional notation of a fraction looks like, and that it has the
value of the fraction. -/
theorem positional_eq (f : Fraction) : ∃ whole part,
    f.positional = (if f.negative then ['-'] else []) ++ whole ++
      (if part.isEmpty then [] else '.' :: part) ∧ Notation whole part ∧
      f.magnitude = Text.digitsValue (whole ++ part) / 10 ^ part.length := by
  by_cases h : 0 ≤ f.exponent
  · obtain ⟨whole, hpositional, hform, hmagnitude⟩ := positional_of_exponent h
    exact ⟨whole, [], by simpa using hpositional, hform, by simpa using hmagnitude⟩
  · obtain ⟨whole, digits, hpadded, hlength, hne, hzero, hall⟩ := exists_padded h
    obtain ⟨part, zeros, hdigits, hlast, hdrop⟩ := exists_trailing_zeros digits
    have hvalue : f.digits = Text.digitsValue (whole ++ part) * 10 ^ zeros := by
      have hnumber : Text.digitsValue (whole ++ digits) = f.digits := by
        rw [← hpadded, Text.digitsValue_append, Text.digitsValue_replicate_zero,
          Text.digitsValue_toDigits]
        omega
      rw [hdigits, ← List.append_assoc, Text.digitsValue_append, Text.digitsValue_replicate_zero,
        List.length_replicate] at hnumber
      omega
    have hexponent : f.exponent = -((part.length + zeros : Nat) : Int) := by
      rw [hdigits, List.length_append, List.length_replicate] at hlength
      omega
    refine ⟨whole, part, ?_, ⟨hne, hzero, ?_, hlast⟩, magnitude_of_digits hexponent hvalue⟩
    · unfold positional
      simp only [h, ↓reduceIte]
      have hcut : (whole ++ digits).length - (-f.exponent).toNat = whole.length := by
        rw [List.length_append]
        omega
      rw [hpadded, hcut, List.take_left, List.drop_left, hdrop]
    · intro c hc
      apply hall c
      rw [hdigits]
      rcases List.mem_append.1 hc with hin | hin
      · exact List.mem_append_left _ hin
      · exact List.mem_append_right _ (List.mem_append_left _ hin)

/-- A fraction is whole if no digits are left after its point. -/
theorem isWhole_iff_part {f : Fraction} {whole part : List Char} (hform : Notation whole part)
    (hmagnitude : f.magnitude = Text.digitsValue (whole ++ part) / 10 ^ part.length) :
    f.IsWhole ↔ part = [] := by
  constructor
  · rintro ⟨n, hn⟩
    by_contra hne
    obtain ⟨front, c, rfl⟩ := (List.eq_nil_or_concat' part).resolve_left hne
    have hdigit := hform.digits c (by simp)
    have hzero : c ≠ '0' := by simpa using hform.last
    have hten : Text.digitsValue (whole ++ (front ++ [c])) = n * 10 ^ (front ++ [c]).length := by
      rw [hmagnitude, div_eq_iff (by positivity)] at hn
      exact_mod_cast hn
    have hcode := Char.isDigit_iff_toNat.1 hdigit
    have hnotZero : c.toNat ≠ '0'.toNat := fun hcode => hzero (Char.toNat_inj.1 hcode)
    have hlast : Text.digitsValue [c] = c.toNat - '0'.toNat := by simp [Text.digitsValue]
    rw [← List.append_assoc, Text.digitsValue_append, hlast] at hten
    simp only [List.length_append, List.length_cons, List.length_nil, Nat.pow_succ, Nat.zero_add,
      Nat.pow_zero, Nat.one_mul, ← Nat.mul_assoc] at hten
    generalize n * 10 ^ front.length = tens at hten
    have hcodes : '0'.toNat = 48 ∧ '9'.toNat = 57 := ⟨rfl, rfl⟩
    omega
  · rintro rfl
    exact ⟨Text.digitsValue whole, by simpa using hmagnitude⟩

end Fraction

end OpManifest.Decimal
