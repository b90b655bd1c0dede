import AntennaArray.Proofs.Binary64.Fields

/-!
# Quotients in units

A quotient of two finite doubles is the exact one in units, rounded to the nearest double
(`units?_div`). The hardware takes the quotient of the mantissas to enough places and records on
which side of a half the rest is, so it is rounded only once. The integer nearest to a double is
read off its units in the same way (`nearest_eq`).
-/

namespace AntennaArray

/-- A quotient between two powers of two stays between them when it is taken to more places. -/
theorem log2_mul_two_pow_div {n d : ℕ} (hd : 0 < d) (h : n / d ≠ 0) (p : ℕ) :
    (n * 2 ^ p / d).log2 = (n / d).log2 + p := by
  obtain ⟨hlow, hhigh⟩ := (Nat.log2_eq_iff h).mp rfl
  rw [Nat.le_div_iff_mul_le hd] at hlow
  rw [Nat.div_lt_iff_lt_mul hd] at hhigh
  have hle : 2 ^ ((n / d).log2 + p) ≤ n * 2 ^ p / d := by
    rw [Nat.le_div_iff_mul_le hd, Nat.pow_add, Nat.mul_right_comm]
    exact Nat.mul_le_mul_right _ hlow
  refine (Nat.log2_eq_iff ?_).mpr ⟨hle, ?_⟩
  · exact (Nat.lt_of_lt_of_le (Nat.two_pow_pos _) hle).ne'
  · rw [Nat.div_lt_iff_lt_mul hd, Nat.add_right_comm, Nat.pow_add, Nat.mul_right_comm]
    exact Nat.mul_lt_mul_of_pos_right hhigh (Nat.two_pow_pos p)

namespace Binary64

open Float.Model (UnpackedFloat Format totalExponent)
open Float.Model.UnpackedFloat (Sign ExtendedMantissa)

/-! ## Rounding a quotient -/

/-- The units of the double that is nearest to a quotient of units, as if there were no greatest
one. -/
def roundQuotient (num den : ℕ) : ℕ :=
  halfEven num (den * 2 ^ cutPlaces (num / den)) * 2 ^ cutPlaces (num / den)

/-- What is left of a quotient after the cut fits into 53 bits, but for a carry beyond them, and
needs all of them if anything before the point was cut off. -/
theorem halfEven_quotient_mem (num : ℕ) {den : ℕ} (hden : 0 < den) :
    halfEven num (den * 2 ^ cutPlaces (num / den)) ≤ 2 ^ 53 ∧
      (2 ^ 52 ≤ halfEven num (den * 2 ^ cutPlaces (num / den)) ∨ cutPlaces (num / den) = 0) := by
  obtain ⟨k, hk⟩ : ∃ k, cutPlaces (num / den) = k := ⟨_, rfl⟩
  have hplace : 0 < den * 2 ^ k := Nat.mul_pos hden (Nat.two_pow_pos k)
  rw [hk]
  constructor
  · have hlog : (num / den).log2 + 1 ≤ 53 + k := by
      rw [← hk, cutPlaces]
      omega
    have hle : num ≤ 2 ^ 53 * (den * 2 ^ k) := by
      calc num ≤ 2 ^ ((num / den).log2 + 1) * den :=
            ((Nat.div_lt_iff_lt_mul hden).mp Nat.lt_log2_self).le
        _ ≤ 2 ^ (53 + k) * den := Nat.mul_le_mul_right _ (Nat.pow_le_pow_right (by decide) hlog)
        _ = 2 ^ 53 * (den * 2 ^ k) := by ring
    calc halfEven num (den * 2 ^ k) ≤ halfEven (2 ^ 53 * (den * 2 ^ k)) (den * 2 ^ k) :=
          halfEven_mono _ hplace hle
      _ = 2 ^ 53 := halfEven_mul _ _ hplace
  · by_cases hzero : num / den = 0
    · right
      rw [← hk, hzero]
      rfl
    · refine (halfEven_cutPlaces_mem hzero).2.2.imp (fun hfull => ?_) fun hcut => hk ▸ hcut
      rw [hk] at hfull
      calc 2 ^ 52 ≤ halfEven (num / den) (2 ^ k) := hfull
        _ = halfEven (num / den * den) (den * 2 ^ k) := by
          rw [Nat.mul_comm den, halfEven_mul_mul _ _ _ hden]
        _ ≤ halfEven num (den * 2 ^ k) := halfEven_mono _ hplace (Nat.div_mul_le_self _ _)

/-! ## The quotient of two mantissas -/

/-- The accuracy of a quotient is all that is recorded of its rest. -/
theorem ofMantissaAndAccuracy_eq_record (num : ℕ) {den : ℕ} (hden : 0 < den) :
    ExtendedMantissa.ofMantissaAndAccuracy (num / den)
      (UnpackedFloat.accuracyOfFraction (num % den) den) = record num den := by
  have hrest : num % den < den := Nat.mod_lt _ hden
  rw [UnpackedFloat.accuracyOfFraction, record]
  by_cases hzero : num % den = 0
  · rw [if_pos hzero, hzero, Nat.mul_zero, Nat.zero_mod]
    simp [ExtendedMantissa.ofMantissaAndAccuracy, hden.ne']
  rw [if_neg hzero]
  rcases lt_trichotomy (2 * (num % den)) den with hlt | heq | hgt
  · have hmod : 2 * (num % den) % den = 2 * (num % den) := Nat.mod_eq_of_lt hlt
    rw [compare_lt_iff_lt.mpr hlt, hmod, decide_eq_false (by omega), decide_eq_true (by omega)]
    rfl
  · rw [compare_eq_iff_eq.mpr heq, heq, Nat.mod_self, decide_eq_true le_rfl,
      decide_eq_false (by omega)]
    rfl
  · have hmod : 2 * (num % den) % den = 2 * (num % den) - den := by
      rw [Nat.mod_eq_sub_mod hgt.le, Nat.mod_eq_of_lt (by omega)]
    rw [compare_gt_iff_gt.mpr hgt, hmod, decide_eq_true hgt.le, decide_eq_true (by omega)]
    rfl

/-- What is rounded for the first time with enough places is packed as its units are. -/
theorem packedUnits?_of_shiftToTargetExponent (s : Sign) {m r : ℕ} {e t : ℤ}
    {accuracy : UnpackedFloat.Accuracy} {em : ExtendedMantissa}
    (hshift : UnpackedFloat.shiftToTargetExponent Format.binary64 m e accuracy = (em, t))
    (hr : em.roundedMantissa = r) (hhigh : r ≤ 2 ^ 53) (hlow : -1074 ≤ t)
    (hnormal : 2 ^ 52 ≤ r ∨ t = -1074) :
    packedUnits? (UnpackedFloat.roundWithAccuracy Format.binary64 s m e accuracy)
      = some (s.apply (min (unitsOf r t) infinityUnits : ℕ)) := by
  rcases Nat.eq_zero_or_pos r with rfl | hpos
  · have hzero : UnpackedFloat.roundWithAccuracy Format.binary64 s m e accuracy = .zero s := by
      rw [UnpackedFloat.roundWithAccuracy, hshift]
      simp [hr, UnpackedFloat.shiftToTargetExponent, shiftToExponent_exact]
    rw [hzero, packedUnits?_zero, unitsOf, Nat.zero_mul, Nat.zero_min]
    cases s <;> rfl
  · obtain ⟨m', e', hm', heq, hrounded, hunits⟩ :=
      exists_of_shiftToTargetExponent s hshift hr hpos hhigh hlow hnormal
    rw [heq, packedUnits?_finite s hm' hrounded, hunits]

/-- The quotient of two mantissas is taken with an exponent that leaves at least 53 bits, unless
that exponent is below the least one. -/
theorem exists_divCore {m n : ℕ} (hm : 0 < m) (hn : 0 < n) (e f : ℤ) :
    ∃ (M : ℕ) (g : ℤ), UnpackedFloat.divCore Format.binary64 m e n f
        = (M / n, g, UnpackedFloat.accuracyOfFraction (M % n) n) ∧
      M = m * 2 ^ (e - f - g).toNat ∧ g ≤ e - f ∧ (-1074 ≤ g ∨ g = e - f) ∧
      (g ≤ -1074 ∨ 52 ≤ (M / n).log2) := by
  have htarget : Format.binary64.targetExponent (totalExponent m e - totalExponent n f)
      = max ((m.log2 : ℤ) + 1 + e - (n.log2 + 1 + f) - 53) (-1074) := rfl
  obtain ⟨g, hg⟩ : ∃ g, min (e - f)
      (Format.binary64.targetExponent (totalExponent m e - totalExponent n f)) = g := ⟨_, rfl⟩
  refine ⟨m * 2 ^ (e - f - g).toNat, g, ?_, rfl, by omega, by omega, ?_⟩
  · simp only [UnpackedFloat.divCore, hg, Nat.shiftLeft_eq]
  · by_cases hlow : g ≤ -1074
    · exact .inl hlow
    right
    have hplaces : n.log2 + 1 + 52 ≤ m.log2 + (e - f - g).toNat := by omega
    have hbits : 2 ^ 52 ≤ m * 2 ^ (e - f - g).toNat / n := by
      rw [Nat.le_div_iff_mul_le hn]
      calc 2 ^ 52 * n ≤ 2 ^ 52 * 2 ^ (n.log2 + 1) :=
            Nat.mul_le_mul_left _ Nat.lt_log2_self.le
        _ = 2 ^ (n.log2 + 1 + 52) := by rw [← Nat.pow_add, Nat.add_comm]
        _ ≤ 2 ^ (m.log2 + (e - f - g).toNat) := Nat.pow_le_pow_right (by decide) hplaces
        _ = 2 ^ m.log2 * 2 ^ (e - f - g).toNat := Nat.pow_add ..
        _ ≤ m * 2 ^ (e - f - g).toNat := Nat.mul_le_mul_right _ (Nat.log2_self_le hm.ne')
    exact (Nat.le_log2 (Nat.lt_of_lt_of_le (by decide) hbits).ne').mpr hbits

/-- The places of a quotient that are cut off, before the point and behind it. -/
theorem cutPlaces_quotient {M n d : ℕ} (hn : 0 < n) {f g : ℤ} (hd : (d : ℤ) = f + g + 2148)
    (hf : -1074 ≤ f) (hg : g ≤ -1074 ∨ 52 ≤ (M / n).log2) :
    (cutPlaces (M * 2 ^ d / (n * 2 ^ (f + 1074).toNat)) : ℤ)
      = max ((M / n).log2 + 1 + g - 53) (-1074) + 1074 := by
  by_cases hlow : -1074 ≤ g
  · have hsplit : d = (g + 1074).toNat + (f + 1074).toNat := by omega
    have hcancel : M * 2 ^ d / (n * 2 ^ (f + 1074).toNat) = M * 2 ^ (g + 1074).toNat / n := by
      rw [hsplit, Nat.pow_add, ← Nat.mul_assoc, Nat.mul_div_mul_right _ _ (Nat.two_pow_pos _)]
    rw [hcancel, cutPlaces]
    by_cases hzero : M / n = 0
    · have hleast : (g + 1074).toNat = 0 := by
        rw [hzero, Nat.log2_zero] at hg
        omega
      rw [hleast, Nat.pow_zero, Nat.mul_one, hzero, Nat.log2_zero]
      omega
    · rw [log2_mul_two_pow_div hn hzero]
      omega
  · have hsplit : (f + 1074).toNat = (-1074 - g).toNat + d := by omega
    have hcancel : M * 2 ^ d / (n * 2 ^ (f + 1074).toNat) = M / n / 2 ^ (-1074 - g).toNat := by
      rw [hsplit, Nat.pow_add, ← Nat.mul_assoc, Nat.mul_div_mul_right _ _ (Nat.two_pow_pos _),
        Nat.div_div_eq_div_mul]
    rw [hcancel, cutPlaces, Nat.log2_eq_log_two, Nat.log_div_base_pow, ← Nat.log2_eq_log_two]
    omega

/-- What is left of a quotient of mantissas, with a record of the rest, is rounded as the quotient
of units is. -/
theorem packedUnits?_roundWithAccuracy (s : Sign) {M n d : ℕ} (hn : 0 < n) {f g : ℤ}
    (hd : (d : ℤ) = f + g + 2148) (hf : -1074 ≤ f) (hbits : g ≤ -1074 ∨ 52 ≤ (M / n).log2) :
    packedUnits? (UnpackedFloat.roundWithAccuracy Format.binary64 s (M / n) g
        (UnpackedFloat.accuracyOfFraction (M % n) n))
      = some (s.apply (min (roundQuotient (M * 2 ^ d) (unitsOf n f)) infinityUnits : ℕ)) := by
  obtain ⟨u, hu'⟩ : ∃ u, max ((M / n).log2 + 1 + g - 53) (-1074) = u := ⟨_, rfl⟩
  obtain ⟨k, hk⟩ : ∃ k, cutPlaces (M * 2 ^ d / unitsOf n f) = k := ⟨_, rfl⟩
  have hcut : (k : ℤ) = u + 1074 := by
    rw [← hk, ← hu']
    exact cutPlaces_quotient hn hd hf hbits
  have hgu : g ≤ u := by omega
  -- the quotient of the mantissas and that of the units are rounded at the same place
  have hround : halfEven (M * 2 ^ d) (unitsOf n f * 2 ^ k)
      = halfEven M (n * 2 ^ (u - g).toNat) := by
    have hplaces : (f + 1074).toNat + k = (u - g).toNat + d := by omega
    rw [unitsOf, Nat.mul_assoc, ← Nat.pow_add, hplaces, Nat.pow_add, ← Nat.mul_assoc,
      halfEven_mul_mul _ _ _ (Nat.two_pow_pos d)]
  have hshift : UnpackedFloat.shiftToTargetExponent Format.binary64 (M / n) g
      (UnpackedFloat.accuracyOfFraction (M % n) n) = (record M (n * 2 ^ (u - g).toNat), u) := by
    have htarget : Format.binary64.targetExponent (totalExponent (M / n) g) = u := hu'
    have hexponent : g + (u - g).toNat = u := by omega
    simp only [UnpackedFloat.shiftToTargetExponent, UnpackedFloat.shiftToExponent, htarget,
      ofMantissaAndAccuracy_eq_record M hn, shiftRight_record M hn, hexponent]
  obtain ⟨hhigh, hnormal⟩ := halfEven_quotient_mem (M * 2 ^ d) (unitsOf_pos hn f)
  rw [hk] at hhigh hnormal
  have hunits : roundQuotient (M * 2 ^ d) (unitsOf n f)
      = unitsOf (halfEven (M * 2 ^ d) (unitsOf n f * 2 ^ k)) u := by
    have hplaces : (u + 1074).toNat = k := by omega
    rw [roundQuotient, hk, unitsOf.eq_1 _ u, hplaces]
  rw [hunits]
  exact packedUnits?_of_shiftToTargetExponent s hshift
    ((roundedMantissa_record M (Nat.mul_pos hn (Nat.two_pow_pos _))).trans hround.symm) hhigh
    (by omega) (hnormal.imp_right fun hzero => by omega)

/-- The quotient of two finite numbers is rounded as the quotient of their units is. -/
theorem packedUnits?_div_finite (s t : Sign) {m n : ℕ} {e f : ℤ} (hm : 0 < m) (hn : 0 < n)
    (hu : IsCanonical m e) (hv : IsCanonical n f) :
    packedUnits? (UnpackedFloat.div Format.binary64 (.finite s m e hm) (.finite t n f hn))
      = some ((s / t).apply
        (min (roundQuotient (unitsOf m e * 2 ^ 1074) (unitsOf n f)) infinityUnits : ℕ)) := by
  obtain ⟨M, g, hcore, hM, hle, hleast, hbits⟩ := exists_divCore hm hn e f
  have hlow := hu.low
  have hlow' := hv.low
  obtain ⟨d, hd⟩ : ∃ d : ℕ, (d : ℤ) = f + g + 2148 := ⟨(f + g + 2148).toNat, by omega⟩
  have hnum : unitsOf m e * 2 ^ 1074 = M * 2 ^ d := by
    have hplaces : (e + 1074).toNat + 1074 = (e - f - g).toNat + d := by omega
    rw [unitsOf, hM, Nat.mul_assoc, Nat.mul_assoc, ← Nat.pow_add, ← Nat.pow_add, hplaces]
  rw [UnpackedFloat.div, hcore, hnum]
  exact packedUnits?_roundWithAccuracy (s / t) hn hd hlow' hbits

/-- A quotient has the sign of the product. -/
theorem apply_div (s t : Sign) (k : ℤ) : (s / t).apply k = s.apply 1 * t.apply 1 * k := by
  cases s <;> cases t
  · show k = -1 * -1 * k
    ring
  · show -k = -1 * 1 * k
    ring
  · show -k = 1 * -1 * k
    ring
  · show k = 1 * 1 * k
    ring

theorem packedUnits?_div {u v : UnpackedFloat} (hu : IsUnpacked u) (hv : IsUnpacked v)
    (hfu : u.isFinite = true) (hfv : v.isFinite = true) {a b : ℤ} (ha : unpackedUnits? u = some a)
    (hb : unpackedUnits? v = some b) (hzero : b ≠ 0) :
    packedUnits? (UnpackedFloat.div Format.binary64 u v) = some (a.sign * b.sign
      * (min (roundQuotient (a.natAbs * 2 ^ 1074) b.natAbs) infinityUnits : ℕ)) := by
  have hsign (s : Sign) {k : ℕ} (hk : 0 < k) : (s.apply k).sign = s.apply 1 := by
    have hpos : (k : ℤ).sign = 1 := Int.sign_eq_one_of_pos (by omega)
    cases s with
    | positive => exact hpos
    | negative => exact (Int.sign_neg _).trans (congrArg Neg.neg hpos)
  have hnatAbs (s : Sign) (k : ℕ) : (s.apply k).natAbs = k := by
    cases s with
    | positive => rfl
    | negative => exact Int.natAbs_neg k
  cases v with
  | notANumber | infinity t => cases hfv
  | zero t =>
    cases hb
    exact absurd rfl hzero
  | finite t n f hn =>
    cases hb
    cases u with
    | notANumber | infinity s => cases hfu
    | zero s =>
      cases ha
      rw [Int.sign_zero, zero_mul, zero_mul]
      exact packedUnits?_zero _
    | finite s m e hm =>
      cases ha
      rw [packedUnits?_div_finite s t hm hn hu hv, hsign s (unitsOf_pos hm e),
        hsign t (unitsOf_pos hn f), hnatAbs, hnatAbs, apply_div]

variable {x y : Float} {a b : ℤ}

/-- The quotient of two finite doubles is the exact one, rounded. -/
theorem units?_div (hx : x.isFinite = true) (hy : y.isFinite = true) (ha : units? x = some a)
    (hb : units? y = some b) (hzero : b ≠ 0) :
    units? (x / y) = some (a.sign * b.sign
      * (min (roundQuotient (a.natAbs * 2 ^ 1074) b.natAbs) infinityUnits : ℕ)) :=
  packedUnits?_div (isUnpacked_unpack _) (isUnpacked_unpack _) hx hy ha hb hzero

/-! ## The nearest integer -/

/-- The sign bit of a double is the sign that it is read with. -/
theorem isNegative_of_ofFloat {negative : Bool} {m : ℕ} {e : ℤ}
    (h : ofFloat x = .finite negative m e) : isNegative x = negative := by
  unfold ofFloat at h
  dsimp only at h
  split at h
  · split at h <;> cases h
  · split at h <;> cases h <;> rfl

theorem isNegative_of_ofFloat_infinity {negative : Bool} (h : ofFloat x = .infinity negative) :
    isNegative x = negative := by
  unfold ofFloat at h
  dsimp only at h
  split at h
  · split at h <;> cases h
    rfl
  · split at h <;> cases h

theorem signedUnits_halfEven (negative : Bool) (n : ℕ) {den : ℕ} (hden : 0 < den) :
    signedUnits negative (halfEven n den) = (signedUnits negative n).sign * halfEven n den := by
  rcases Nat.eq_zero_or_pos n with rfl | hn
  · have hzero : halfEven 0 den = 0 := by
      have := halfEven_mul 0 den hden
      rwa [Nat.zero_mul] at this
    rw [hzero, Nat.cast_zero, mul_zero]
    cases negative <;> rfl
  · have hpos : (n : ℤ).sign = 1 := Int.sign_eq_one_of_pos (by omega)
    cases negative with
    | false => exact (by rw [hpos, one_mul] : (halfEven n den : ℤ) = (n : ℤ).sign * halfEven n den)
    | true =>
      show -(halfEven n den : ℤ) = (-(n : ℤ)).sign * halfEven n den
      rw [Int.sign_neg, hpos, neg_one_mul]

/-- The integer nearest to a finite double is the one nearest to its units. -/
theorem nearest_eq (hx : x.isFinite = true) (ha : units? x = some a) :
    nearest x = a.sign * (halfEven a.natAbs (2 ^ 1074) : ℕ) := by
  obtain ⟨negative, m, e, hread, hcanonical, rfl⟩ := exists_ofFloat hx ha
  have hlow := hcanonical.low
  obtain ⟨num, den, hmagnitude, hround⟩ : ∃ num den, magnitude? x = some (num, den) ∧
      halfEven num den = halfEven (unitsOf m e) (2 ^ 1074) := by
    obtain ⟨places, hplaces⟩ : ∃ places, 1074 = places := ⟨_, rfl⟩
    rw [magnitude?, hread, hplaces]
    by_cases he : 0 ≤ e
    · refine ⟨m * 2 ^ e.toNat, 1, by simp only [if_pos he], ?_⟩
      have hsplit : (e + 1074).toNat = e.toNat + places := by omega
      rw [unitsOf, hsplit, Nat.pow_add, ← Nat.mul_assoc,
        ← halfEven_mul_mul (m * 2 ^ e.toNat) 1 (2 ^ places) (Nat.two_pow_pos _), Nat.one_mul]
    · refine ⟨m, 2 ^ (-e).toNat, by simp only [if_neg he], ?_⟩
      have hsplit : (-e).toNat + (e + 1074).toNat = places := by omega
      rw [unitsOf, ← halfEven_mul_mul m _ (2 ^ (e + 1074).toNat) (Nat.two_pow_pos _),
        ← Nat.pow_add, hsplit]
  have hnearest : nearest x = signedUnits negative (halfEven num den) := by
    rw [nearest, hmagnitude]
    dsimp only
    rw [isNegative_of_ofFloat hread]
    rfl
  have hpos : 0 < 2 ^ 1074 := by positivity
  rw [hnearest, hround, natAbs_signedUnits]
  generalize 2 ^ 1074 = one at hpos ⊢
  exact signedUnits_halfEven negative _ hpos

/-! ## The integer nearest to a quotient -/

theorem roundQuotient_mul_close (num : ℕ) {den : ℕ} (hden : 0 < den) :
    2 * (roundQuotient num den * den) ≤ 2 * num + den * 2 ^ cutPlaces (num / den) ∧
      2 * num ≤ 2 * (roundQuotient num den * den) + den * 2 ^ cutPlaces (num / den) := by
  have hclose := halfEven_close num (den * 2 ^ cutPlaces (num / den))
    (Nat.mul_pos hden (Nat.two_pow_pos _))
  have hmul : roundQuotient num den * den
      = halfEven num (den * 2 ^ cutPlaces (num / den)) * (den * 2 ^ cutPlaces (num / den)) := by
    rw [roundQuotient]
    ring
  rwa [hmul]

/-- A quotient of which no place is cut has at most 53 places. -/
theorem lt_of_cutPlaces_eq_zero {num den : ℕ} (hden : 0 < den) (h : cutPlaces (num / den) = 0) :
    num < 2 ^ 53 * den := by
  have hlog : (num / den).log2 + 1 ≤ 53 := by
    rw [cutPlaces] at h
    omega
  rw [← Nat.div_lt_iff_lt_mul hden]
  exact Nat.lt_of_lt_of_le Nat.lt_log2_self (Nat.pow_le_pow_right (by decide) hlog)

/-- A quotient of which places are cut has 53 places before them. -/
theorem two_pow_cutPlaces_le {num den : ℕ} (hden : 0 < den) (h : 0 < cutPlaces (num / den)) :
    2 ^ 53 * (den * 2 ^ cutPlaces (num / den)) ≤ 2 * num := by
  have hlog : (num / den).log2 = 52 + cutPlaces (num / den) := by
    rw [cutPlaces] at h ⊢
    omega
  have hle : 2 ^ (52 + cutPlaces (num / den)) * den ≤ num := by
    rw [← Nat.le_div_iff_mul_le hden, ← hlog]
    refine Nat.log2_self_le fun hzero => ?_
    rw [hzero, Nat.log2_zero] at hlog
    omega
  calc 2 ^ 53 * (den * 2 ^ cutPlaces (num / den))
      = 2 * (2 ^ (52 + cutPlaces (num / den)) * den) := by ring
    _ ≤ 2 * num := Nat.mul_le_mul_left 2 hle

/-- An integer nearest to a rounded quotient is off by at most a half, and by what the quotient was
rounded. -/
theorem halfEven_roundQuotient_close (n : ℕ) {den : ℕ} (hden : 0 < den) :
    2 ^ 53 * (2 * (halfEven (roundQuotient (n * 2 ^ 1074) den) (2 ^ 1074) * den))
        ≤ 2 ^ 53 * (2 * n + den) + 2 * n ∧
      2 ^ 53 * (2 * n)
        ≤ 2 ^ 53 * (2 * (halfEven (roundQuotient (n * 2 ^ 1074) den) (2 ^ 1074) * den) + den)
          + 2 * n := by
  obtain ⟨one, hone⟩ : ∃ one, 2 ^ 1074 = one := ⟨_, rfl⟩
  have hlarge : 2 ^ 54 < one := by
    rw [← hone, Nat.pow_lt_pow_iff_right (by decide)]
    decide
  have hquotient := roundQuotient_mul_close (n * one) hden
  have hwhole := halfEven_close (roundQuotient (n * one) den) one (by omega)
  rw [hone]
  have hnone : cutPlaces (n * one / den) = 0 → n * one < 2 ^ 53 * den :=
    lt_of_cutPlaces_eq_zero hden
  have hsome : 0 < cutPlaces (n * one / den) →
      2 ^ 53 * (den * 2 ^ cutPlaces (n * one / den)) ≤ 2 * (n * one) := two_pow_cutPlaces_le hden
  obtain ⟨q, hq⟩ : ∃ q, roundQuotient (n * one) den = q := ⟨_, rfl⟩
  obtain ⟨k, hk⟩ : ∃ k, cutPlaces (n * one / den) = k := ⟨_, rfl⟩
  obtain ⟨w, hw⟩ : ∃ w, halfEven q one = w := ⟨_, rfl⟩
  rw [hq, hw] at hwhole
  rw [hq, hk] at hquotient
  rw [hk] at hnone hsome
  rw [hq, hw]
  rcases Nat.eq_zero_or_pos k with rfl | hpos
  · -- the quotient is too small to come near any integer but zero
    have hsmall : n * one < 2 ^ 53 * den := hnone rfl
    have hn : 2 * n ≤ den := by
      have := Nat.mul_le_mul_left n hlarge.le
      omega
    have hq : q < 2 ^ 53 + 1 := by
      refine Nat.lt_of_mul_lt_mul_right (?_ : q * den < (2 ^ 53 + 1) * den)
      omega
    obtain rfl : w = 0 := by
      refine Nat.lt_one_iff.mp (Nat.lt_of_mul_lt_mul_right (?_ : w * one < 1 * one))
      omega
    constructor <;> omega
  · have hcut : 2 ^ 53 * (den * 2 ^ k) ≤ 2 * (n * one) := hsome hpos
    have hlow := Nat.mul_le_mul_right den hwhole.1
    have hhigh := Nat.mul_le_mul_right den hwhole.2
    constructor
    · refine Nat.le_of_mul_le_mul_left (?_ : one * _ ≤ one * _) (by omega)
      linarith
    · refine Nat.le_of_mul_le_mul_left (?_ : one * _ ≤ one * _) (by omega)
      linarith

theorem natAbs_sign_le (c : ℤ) : c.sign.natAbs ≤ 1 := by
  rw [Int.natAbs_sign]
  split <;> omega

theorem nearest_div {den : ℕ} (hx : x.isFinite = true) (hy : y.isFinite = true)
    (ha : units? x = some a) (hb : units? y = some (den : ℤ)) (hden : 0 < den)
    (hquotient : (x / y).isFinite = true) :
    nearest (x / y) = a.sign
      * (halfEven (roundQuotient (a.natAbs * 2 ^ 1074) den) (2 ^ 1074) : ℕ) := by
  obtain ⟨q, hq⟩ : ∃ q, roundQuotient (a.natAbs * 2 ^ 1074) den = q := ⟨_, rfl⟩
  have hsign : (den : ℤ).sign = 1 := Int.sign_eq_one_of_pos (by omega)
  have hunits := units?_div hx hy ha hb (by omega)
  rw [hsign, mul_one, Int.natAbs_natCast, hq] at hunits
  rcases eq_or_ne a 0 with rfl | hne
  · rw [nearest_eq hquotient hunits, Int.sign_zero, zero_mul, Int.sign_zero, zero_mul, zero_mul]
  · obtain ⟨negative, hnegative⟩ : ∃ negative, ∀ k : ℕ, a.sign * k = signedUnits negative k := by
      rcases hne.lt_or_gt with hneg | hpos
      · exact ⟨true, fun k => by rw [Int.sign_eq_neg_one_of_neg hneg, neg_one_mul]; rfl⟩
      · exact ⟨false, fun k => by rw [Int.sign_eq_one_of_pos hpos, one_mul]; rfl⟩
    rw [hnegative] at hunits
    have hlt := natAbs_lt_of_isFinite hquotient hunits
    rw [natAbs_signedUnits] at hlt
    rw [nearest_eq hquotient hunits, hq, hnegative, natAbs_signedUnits, min_eq_left (by omega),
      signedUnits_halfEven negative q (Nat.two_pow_pos _)]

/-! ## Exact values -/

/-- The exact value of a double; zero if it is not a number. -/
def value (x : Float) : ℚ := ((units? x).getD 0 : ℤ) / 2 ^ 1074

theorem value_eq (ha : units? x = some a) : value x = a / 2 ^ 1074 := by
  rw [value, ha]
  rfl

/-- A whole number of places behind the point. -/
theorem value_eq_div {m : ℤ} {j k : ℕ} (hplaces : 1074 = j + k) (h : units? x = some (m * 2 ^ k)) :
    value x = m / 2 ^ j := by
  rw [value_eq h, hplaces, Int.cast_mul, Int.cast_pow, Int.cast_ofNat, pow_add,
    mul_div_mul_right _ _ (by positivity)]

/-- A double is finite if its units are few after the last places. -/
theorem isFinite_of_units? {m : ℤ} {k : ℕ} (h : units? x = some (m * 2 ^ k))
    (hm : m.natAbs < 2 ^ 53) (hk : k ≤ 2045) : x.isFinite = true := by
  refine isFinite_iff.mpr ⟨_, h, ?_⟩
  have hplaces : 2 ^ k ≤ 2 ^ 2045 := pow_le_pow_right₀ (by decide) hk
  calc (m * 2 ^ k).natAbs = m.natAbs * 2 ^ k := by rw [Int.natAbs_mul, Int.natAbs_pow]; rfl
    _ < 2 ^ 53 * 2 ^ k := Nat.mul_lt_mul_of_pos_right hm (Nat.two_pow_pos k)
    _ ≤ infinityUnits := Nat.mul_le_mul_left _ hplaces

theorem abs_value_eq (ha : units? x = some a) : |value x| = a.natAbs / 2 ^ 1074 := by
  have hone : (0 : ℚ) < 2 ^ 1074 := by positivity
  rw [value_eq ha, abs_div, abs_of_pos hone, Nat.cast_natAbs, Int.cast_abs]

/-- The exact value of a finite double is the one that it is read with. -/
theorem abs_value_of_ofFloat {negative : Bool} {m : ℕ} {e : ℤ}
    (h : ofFloat x = .finite negative m e) : |value x| = m * 2 ^ e := by
  have hunits : units? x = some (signedUnits negative (unitsOf m e)) := by
    rw [← readUnits?_ofFloat, h, readUnits?]
  have hlow := (isCanonical_of_ofFloat h).low
  obtain ⟨n, hn⟩ := Int.eq_ofNat_of_zero_le (show 0 ≤ e + 1074 by omega)
  obtain rfl : e = n - (1074 : ℕ) := by omega
  rw [abs_value_eq hunits, natAbs_signedUnits, unitsOf, hn, Int.toNat_natCast,
    zpow_sub₀ (by norm_num), zpow_natCast, zpow_natCast, Nat.cast_mul, Nat.cast_pow,
    Nat.cast_ofNat, mul_div_assoc]

/-- An integer nearest to a quotient of doubles is off by at most a half, and by the last place of
the quotient. -/
theorem abs_value_sub_le {den : ℕ} (hx : x.isFinite = true) (hy : y.isFinite = true)
    (hb : units? y = some (den : ℤ)) (hden : 0 < den) (hquotient : (x / y).isFinite = true) :
    |value x - nearest (x / y) * value y| ≤ value y / 2 + |value x| / 2 ^ 53 := by
  obtain ⟨a, ha, -⟩ := isFinite_iff.mp hx
  rw [nearest_div hx hy ha hb hden hquotient, abs_value_eq ha, value_eq ha, value_eq hb]
  obtain ⟨hlow, hhigh⟩ := halfEven_roundQuotient_close a.natAbs hden
  generalize halfEven (roundQuotient (a.natAbs * 2 ^ 1074) den) (2 ^ 1074) = n at *
  have hclose : |(a.natAbs : ℚ) - n * den| ≤ den / 2 + a.natAbs / 2 ^ 53 := by
    have hlow : (2 : ℚ) ^ 53 * (2 * (n * den)) ≤ 2 ^ 53 * (2 * a.natAbs + den) + 2 * a.natAbs := by
      exact_mod_cast hlow
    have hhigh : (2 : ℚ) ^ 53 * (2 * a.natAbs) ≤ 2 ^ 53 * (2 * (n * den) + den) + 2 * a.natAbs := by
      exact_mod_cast hhigh
    rw [abs_le]
    constructor <;> linarith
  have hsign : |(a.sign : ℚ)| ≤ 1 := by
    rw [← Int.cast_abs, Int.abs_eq_natAbs]
    exact_mod_cast natAbs_sign_le a
  have hsplit : (a : ℚ) = a.sign * a.natAbs := by
    rw [Nat.cast_natAbs]
    exact_mod_cast (Int.sign_mul_abs a).symm
  have hone : (0 : ℚ) < 2 ^ 1074 := by positivity
  generalize (2 : ℚ) ^ 1074 = one at hone ⊢
  calc |(a : ℚ) / one - ((a.sign * (n : ℤ) : ℤ) : ℚ) * (((den : ℤ) : ℚ) / one)|
      = |(a.sign : ℚ)| * |(a.natAbs : ℚ) - n * den| / one := by
        rw [← abs_mul, ← abs_of_pos hone, ← abs_div, abs_of_pos hone]
        congr 1
        rw [hsplit]
        push_cast
        ring
    _ ≤ 1 * (den / 2 + a.natAbs / 2 ^ 53) / one := by gcongr
    _ = ((den : ℤ) : ℚ) / one / 2 + a.natAbs / one / 2 ^ 53 := by
        push_cast
        ring

/-- Doubles whose quotients are nearest to one integer differ by at most the divisor, and by the
last places of the quotients. -/
theorem abs_value_sub_value_le {z : Float} {den : ℕ} (hx : x.isFinite = true)
    (hz : z.isFinite = true) (hy : y.isFinite = true) (hb : units? y = some (den : ℤ))
    (hden : 0 < den) (hquotient : (x / y).isFinite = true) (hquotient' : (z / y).isFinite = true)
    (h : nearest (x / y) = nearest (z / y)) :
    |value x - value z| ≤ value y + (|value x| + |value z|) / 2 ^ 53 := by
  have hleft := abs_value_sub_le hx hy hb hden hquotient
  have hright := abs_value_sub_le hz hy hb hden hquotient'
  rw [← h, abs_sub_comm] at hright
  have htriangle := abs_sub_le (value x) (nearest (x / y) * value y) (value z)
  linarith

/-- A quotient that is not too large is finite. -/
theorem isFinite_div {den : ℕ} (hx : x.isFinite = true) (hy : y.isFinite = true)
    (ha : units? x = some a) (hb : units? y = some (den : ℤ)) (hden : 0 < den)
    {places : ℕ} (hplaces : places ≤ 2000) (hsmall : a.natAbs * 2 ^ 1074 < 2 ^ places * den) :
    (x / y).isFinite = true := by
  have hunits := units?_div hx hy ha hb (by omega)
  rw [Int.natAbs_natCast] at hunits
  refine isFinite_iff.mpr ⟨_, hunits, ?_⟩
  have hcut : cutPlaces (a.natAbs * 2 ^ 1074 / den) ≤ 1948 := by
    have hlog : (a.natAbs * 2 ^ 1074 / den).log2 ≤ places := by
      rcases eq_or_ne (a.natAbs * 2 ^ 1074 / den) 0 with hzero | hne
      · rw [hzero, Nat.log2_zero]
        exact Nat.zero_le _
      · exact ((Nat.log2_lt hne).mpr ((Nat.div_lt_iff_lt_mul hden).mpr hsmall)).le
    rw [cutPlaces]
    omega
  have hhigh := (halfEven_quotient_mem (a.natAbs * 2 ^ 1074) hden).1
  have hround : roundQuotient (a.natAbs * 2 ^ 1074) den < infinityUnits := by
    rw [roundQuotient, infinityUnits]
    generalize cutPlaces (a.natAbs * 2 ^ 1074 / den) = k at hcut hhigh ⊢
    refine Nat.lt_of_le_of_lt (Nat.mul_le_mul_right _ hhigh) ?_
    exact Nat.mul_lt_mul_of_pos_left (pow_lt_pow_right₀ (by decide) (by omega)) (by decide)
  rw [Int.natAbs_mul, Int.natAbs_mul, Int.natAbs_natCast]
  calc _ ≤ 1 * 1 * min (roundQuotient (a.natAbs * 2 ^ 1074) den) infinityUnits :=
        Nat.mul_le_mul_right _ (Nat.mul_le_mul (natAbs_sign_le a) (natAbs_sign_le den))
    _ < infinityUnits := by omega

end Binary64

end AntennaArray
