import Mathlib.Analysis.SpecialFunctions.Log.Base
import AntennaArray.Decimal.Text

/-!
# Rounding to significant digits

`significant count num den` is the multiple of a power of ten nearest to `num / den`
(`roundsTo_significant`), and the power of ten is the one that leaves `count` digits before it:
that of the leading digit is `Int.log 10 (num / den)` (`decade_eq`), which the search for it finds
because the number of binary digits determines it up to four.
-/

namespace AntennaArray

/-! ## The nearest multiple -/

/-- `q` is the multiple of `unit` nearest to `r`; halfway between two it is the even one. -/
structure IsNearest (unit r q : ℚ) : Prop where
  close : |q - r| ≤ unit / 2
  multiple : ∃ n : ℕ, q = n * unit ∧ (|q - r| = unit / 2 → Even n)

/-- Another unit of measurement changes nothing. -/
theorem IsNearest.mul {unit r q : ℚ} (h : IsNearest unit r q) {c : ℚ} (hc : 0 < c) :
    IsNearest (unit * c) (r * c) (q * c) := by
  have hdist : |q * c - r * c| = |q - r| * c := by
    rw [← sub_mul, abs_mul, abs_of_pos hc]
  obtain ⟨n, hn, heven⟩ := h.multiple
  constructor
  · calc |q * c - r * c| = |q - r| * c := hdist
      _ ≤ unit / 2 * c := mul_le_mul_of_nonneg_right h.close hc.le
      _ = unit * c / 2 := by ring
  · refine ⟨n, by rw [hn]; ring, fun htie => heven ?_⟩
    rw [hdist] at htie
    refine mul_right_cancel₀ hc.ne' ?_
    rw [htie]
    ring

/-- At a distance of half a unit on either side, half of the divisor is left over. -/
theorem two_mul_mod_eq_of_tie {num den : ℕ} (hden : 0 < den)
    (h : 2 * (halfEven num den * den) = 2 * num + den ∨
      2 * num = 2 * (halfEven num den * den) + den) : 2 * (num % den) = den := by
  have hsplit := Nat.div_add_mod' num den
  have hlt := Nat.mod_lt num hden
  rw [halfEven] at h
  split at h
  · rw [Nat.add_mul] at h
    omega
  · split at h <;> omega

/-- A quotient is rounded to the nearest natural number. -/
theorem isNearest_halfEven (num : ℕ) {den : ℕ} (hden : 0 < den) :
    IsNearest 1 ((num : ℚ) / den) (halfEven num den) := by
  obtain ⟨h, hh⟩ : ∃ h, halfEven num den = h := ⟨_, rfl⟩
  have hpos : (0 : ℚ) < 2 * den := by positivity
  have hdist : |(h : ℚ) - num / den| = |((2 * (h * den) : ℕ) : ℚ) - (2 * num : ℕ)| / (2 * den) := by
    rw [eq_div_iff hpos.ne', ← abs_of_pos hpos, ← abs_mul]
    congr 1
    push_cast
    field_simp
  have hhalf : (1 : ℚ) / 2 = den / (2 * den) := by field_simp
  refine ⟨?_, h, by rw [hh, mul_one], fun htie => ?_⟩
  · obtain ⟨hhigh, hlow⟩ := halfEven_close num den hden
    rw [hh] at hhigh hlow ⊢
    rw [hdist, hhalf, div_le_div_iff_of_pos_right hpos, abs_le]
    have hhigh : ((2 * (h * den) : ℕ) : ℚ) ≤ (2 * num : ℕ) + den := by exact_mod_cast hhigh
    have hlow : ((2 * num : ℕ) : ℚ) ≤ (2 * (h * den) : ℕ) + den := by exact_mod_cast hlow
    constructor <;> linarith
  · rw [hh, hdist, hhalf, div_left_inj' hpos.ne', abs_eq (Nat.cast_nonneg _)] at htie
    have hrest : 2 * (num % den) = den := by
      refine two_mul_mod_eq_of_tie hden ?_
      rw [hh]
      refine htie.imp (fun habove => ?_) fun hbelow => ?_
      · exact_mod_cast sub_eq_iff_eq_add'.mp habove
      · exact_mod_cast (by linarith : ((2 * num : ℕ) : ℚ) = (2 * (h * den) : ℕ) + den)
    rw [← hh]
    exact Nat.even_iff.mpr (halfEven_even num den hrest)

namespace Decimal

/-! ## Powers with a sign in the exponent -/

theorem zpow_of_nonneg (x : ℚ) {k : ℤ} (h : 0 ≤ k) : x ^ k = x ^ k.toNat := by
  rw [← zpow_natCast, Int.toNat_of_nonneg h]

theorem zpow_of_not_nonneg (x : ℚ) {k : ℤ} (h : ¬ 0 ≤ k) : x ^ k = (x ^ (-k).toNat)⁻¹ := by
  rw [← zpow_natCast, Int.toNat_of_nonneg (by omega), zpow_neg, inv_inv]

/-! ## The leading digit -/

section

variable {num den : ℕ}

theorem tenPowLe_iff (hnum : 0 < num) (hden : 0 < den) (k : ℤ) :
    tenPowLe num den k = true ↔ k ≤ Int.log 10 ((num : ℚ) / den) := by
  have hquot : (0 : ℚ) < num / den := by positivity
  have hpos : (0 : ℚ) < den := Nat.cast_pos.mpr hden
  rw [← Int.zpow_le_iff_le_log (by norm_num) hquot, Nat.cast_ofNat, le_div_iff₀ hpos, tenPowLe]
  split
  · next hk =>
    rw [decide_eq_true_iff, zpow_of_nonneg _ hk, mul_comm]
    exact_mod_cast Iff.rfl
  · next hk =>
    rw [decide_eq_true_iff, zpow_of_not_nonneg _ hk, inv_mul_le_iff₀ (by positivity), mul_comm]
    exact_mod_cast Iff.rfl

/-- The search ends at the greatest power of ten if that is no more than `fuel` steps away. -/
theorem climb_eq {top : ℤ} (h : ∀ k, tenPowLe num den k = true ↔ k ≤ top) :
    ∀ (fuel : ℕ) (k : ℤ), k ≤ top → top ≤ k + fuel → climb num den fuel k = top
  | 0, k, hlow, hhigh => by
    rw [climb]
    omega
  | fuel + 1, k, hlow, hhigh => by
    rw [climb]
    split
    · next hle => exact climb_eq h fuel (k + 1) ((h _).mp hle) (by omega)
    · next hle =>
      rw [h] at hle
      omega

/-- The common logarithm of two is between two convergents. -/
theorem logb_two_mem : (31 : ℝ) / 103 ≤ Real.logb 10 2 ∧ Real.logb 10 2 ≤ 28 / 93 := by
  have hten (n : ℕ) : Real.logb 10 ((10 : ℝ) ^ n) = n := by
    rw [Real.logb_pow, Real.logb_self_eq_one (by norm_num), mul_one]
  constructor
  · have hle := Real.logb_le_logb_of_le (b := 10) (by norm_num) (by norm_num)
      (show (10 : ℝ) ^ 31 ≤ 2 ^ 103 by norm_num)
    rw [hten, Real.logb_pow] at hle
    push_cast at hle
    linarith
  · have hle := Real.logb_le_logb_of_le (b := 10) (by norm_num) (by norm_num)
      (show (2 : ℝ) ^ 93 ≤ 10 ^ 28 by norm_num)
    rw [hten, Real.logb_pow] at hle
    push_cast at hle
    linarith

/-- The number of binary digits says what the common logarithm is up to that of two. -/
theorem logb_mem {n : ℕ} (hn : 0 < n) :
    n.log2 * Real.logb 10 2 ≤ Real.logb 10 n ∧
      Real.logb 10 n ≤ (n.log2 + 1) * Real.logb 10 2 := by
  have hpos : (0 : ℝ) < n := Nat.cast_pos.mpr hn
  have hlow : (2 : ℝ) ^ n.log2 ≤ n := by exact_mod_cast Nat.log2_self_le hn.ne'
  have hhigh : (n : ℝ) ≤ 2 ^ (n.log2 + 1) := by exact_mod_cast Nat.lt_log2_self.le
  constructor
  · rw [← Real.logb_pow]
    exact Real.logb_le_logb_of_le (by norm_num) (by positivity) hlow
  · have hle := Real.logb_le_logb_of_le (b := 10) (by norm_num) hpos hhigh
    rwa [Real.logb_pow, Nat.cast_add, Nat.cast_one] at hle

theorem le_log_iff (hnum : 0 < num) (hden : 0 < den) (k : ℤ) :
    k ≤ Int.log 10 ((num : ℚ) / den) ↔ (k : ℝ) ≤ Real.logb 10 num - Real.logb 10 den := by
  have hquot : (0 : ℚ) < num / den := by positivity
  have hpos : (0 : ℝ) < num / den := by positivity
  rw [← Real.logb_div (by positivity) (by positivity),
    Real.le_logb_iff_rpow_le (by norm_num) hpos, Real.rpow_intCast,
    ← Int.zpow_le_iff_le_log (by norm_num) hquot, ← Rat.cast_le (K := ℝ)]
  push_cast
  exact Iff.rfl

/-- Where the numbers of binary digits differ by no more than those of doubles do, the search for
the leading digit finds it. -/
theorem decade_eq (hnum : 0 < num) (hden : 0 < den)
    (hbits : |(num.log2 : ℤ) - den.log2| ≤ 1100) :
    decade num den = Int.log 10 ((num : ℚ) / den) := by
  obtain ⟨hlow, hhigh⟩ := logb_two_mem
  obtain ⟨hnumlow, hnumhigh⟩ := logb_mem hnum
  obtain ⟨hdenlow, hdenhigh⟩ := logb_mem hden
  obtain ⟨hleft, hright⟩ := abs_le.mp hbits
  obtain ⟨d, hd⟩ : ∃ d, (num.log2 : ℤ) - den.log2 - 1 = d := ⟨_, rfl⟩
  obtain ⟨start, hstart⟩ : ∃ start, d * 30103 / 100000 - 1 = start := ⟨_, rfl⟩
  have hbits : (num.log2 : ℝ) = d + den.log2 + 1 := by rw [← hd]; push_cast; ring
  rw [hbits] at hnumlow hnumhigh
  -- the guess has a fraction in place of the logarithm of two and is off by less than one
  have hguess : |(d : ℝ) * (Real.logb 10 2 - 30103 / 100000)| ≤ 1 := by
    have hd : |(d : ℝ)| ≤ 1101 := by
      have habs : |d| ≤ 1101 := abs_le.mpr ⟨by omega, by omega⟩
      exact_mod_cast habs
    have hc : |Real.logb 10 2 - 30103 / 100000| ≤ 1 / 1101 :=
      abs_le.mpr ⟨by linarith, by linarith⟩
    calc |(d : ℝ) * (Real.logb 10 2 - 30103 / 100000)|
        = |(d : ℝ)| * |Real.logb 10 2 - 30103 / 100000| := abs_mul _ _
      _ ≤ 1101 * (1 / 1101) := mul_le_mul hd hc (abs_nonneg _) (by norm_num)
      _ = 1 := by norm_num
  obtain ⟨hbelow, habove⟩ := abs_le.mp hguess
  have hfloor : (100000 * (start + 1) : ℝ) ≤ d * 30103 ∧
      (d * 30103 : ℝ) < 100000 * (start + 2) := by
    constructor
    · exact_mod_cast (by omega : 100000 * (start + 1) ≤ d * 30103)
    · exact_mod_cast (by omega : d * 30103 < 100000 * (start + 2))
  rw [decade, hd, hstart]
  refine climb_eq (tenPowLe_iff hnum hden) 4 start ?_ ?_
  · rw [le_log_iff hnum hden]
    linarith
  · refine not_lt.mp fun hlt => ?_
    have hle := (le_log_iff hnum hden (start + 5)).mp (by omega)
    push_cast at hle
    linarith

end

/-! ## All digits -/

/-- The exact value of a decimal. -/
def Scaled.value (d : Scaled) : ℚ := d.digits * 10 ^ d.exponent

/-- Trailing zeros do not count. -/
@[simp] theorem Scaled.value_trim (fuel : ℕ) (d : Scaled) : (d.trim fuel).value = d.value := by
  induction fuel generalizing d with
  | zero => rfl
  | succ fuel ih =>
    rw [trim]
    split
    · next h =>
      have hten : d.digits = 10 * (d.digits / 10) := by omega
      rw [ih, value, value, zpow_add₀ (by norm_num), zpow_one]
      conv_rhs => rw [hten]
      push_cast
      ring
    · rfl

/-- `q` is `r` with `count` significant digits: the nearest multiple of the place of the last one,
and of two the even one. -/
def RoundsTo (count : ℕ) (r q : ℚ) : Prop := IsNearest (10 ^ (Int.log 10 r + 1 - count)) r q

theorem roundsTo_zero (count : ℕ) : RoundsTo count 0 0 where
  close := by
    rw [sub_zero, abs_zero]
    positivity
  multiple := ⟨0, by rw [Nat.cast_zero, zero_mul], fun _ => Even.zero⟩

section

variable {num den : ℕ}

/-- A quotient is shifted by powers of ten. -/
theorem shift_spec (num : ℕ) {den : ℕ} (hden : 0 < den) (k : ℤ) :
    0 < (shift num den k).2 ∧
      ((shift num den k).1 : ℚ) / (shift num den k).2 * 10 ^ k = num / den := by
  have hpos : (den : ℚ) ≠ 0 := Nat.cast_ne_zero.mpr hden.ne'
  rw [shift]
  split
  · next hk =>
    refine ⟨by positivity, ?_⟩
    rw [zpow_of_nonneg _ hk]
    push_cast
    field_simp
  · next hk =>
    refine ⟨hden, ?_⟩
    rw [zpow_of_not_nonneg _ hk]
    push_cast
    field_simp

/-- A carry into a further digit leaves the value alone. -/
theorem value_significant {count : ℕ} (hcount : 0 < count) :
    (significant count num den).value =
      halfEven (shift num den (decade num den + 1 - count)).1
        (shift num den (decade num den + 1 - count)).2 * 10 ^ (decade num den + 1 - count) := by
  rw [significant]
  dsimp only
  split
  · next hcarry =>
    obtain ⟨n, rfl⟩ := Nat.exists_eq_succ_of_ne_zero hcount.ne'
    rw [Scaled.value, hcarry, Nat.pow_succ, Nat.mul_div_cancel _ (by decide),
      zpow_add₀ (by norm_num), zpow_one]
    push_cast
    ring
  · rfl

/-- A positive quotient is rounded to significant digits. -/
theorem roundsTo_significant {count : ℕ} (hcount : 0 < count) (hnum : 0 < num) (hden : 0 < den)
    (hbits : |(num.log2 : ℤ) - den.log2| ≤ 1100) :
    RoundsTo count (num / den) (significant count num den).value := by
  obtain ⟨hpos, hshift⟩ := shift_spec num hden (decade num den + 1 - count)
  have hnearest := (isNearest_halfEven (shift num den (decade num den + 1 - count)).1 hpos).mul
    (zpow_pos (show (0 : ℚ) < 10 by norm_num) (decade num den + 1 - count))
  rwa [hshift, one_mul, ← value_significant hcount, decade_eq hnum hden hbits] at hnearest

end

end Decimal

end AntennaArray
