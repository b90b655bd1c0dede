import AntennaArray.Proofs.Binary64.Quotients
import AntennaArray.Proofs.Binary64.Wrapping

/-!
# Products in units

A product of two finite doubles is the exact one in units, rounded to the nearest double
(`units?_mul`). Products and quotients are both one monotone function of integers, `roundRatio`, so
a product or a quotient is bounded by the ones of the bounds. A square is finite below a power of
two (`isFinite_mul_self_iff`).
-/

namespace AntennaArray.Binary64

open Float.Model (UnpackedFloat Format totalExponent)
open Float.Model.UnpackedFloat (Sign ExtendedMantissa)

/-! ## Rounding a quotient as a function -/

/-- A factor of both the numerator and the denominator does not matter. -/
theorem roundQuotient_mul_mul (num den c : ℕ) (hc : 0 < c) :
    roundQuotient (num * c) (den * c) = roundQuotient num den := by
  have hplace (k : ℕ) : den * c * 2 ^ k = den * 2 ^ k * c := by ring
  rw [roundQuotient, roundQuotient, Nat.mul_div_mul_right _ _ hc, hplace, halfEven_mul_mul _ _ _ hc]

/-- A whole number of units is rounded as units are. -/
theorem roundQuotient_mul (n : ℕ) {den : ℕ} (hden : 0 < den) :
    roundQuotient (n * den) den = roundNat n := by
  have hone := roundQuotient_mul_mul n 1 den hden
  rw [Nat.one_mul] at hone
  rw [hone, roundQuotient, roundNat, Nat.div_one, Nat.one_mul]

/-- A greater numerator is rounded to no smaller quotient. -/
theorem roundQuotient_mono {num num' den : ℕ} (hden : 0 < den) (h : num ≤ num') :
    roundQuotient num den ≤ roundQuotient num' den := by
  have hhigh := (halfEven_quotient_mem num hden).1
  have hlow := (halfEven_quotient_mem num' hden).2
  have hcut : cutPlaces (num / den) ≤ cutPlaces (num' / den) := by
    have hlog := Nat.log_mono_right (b := 2) (Nat.div_le_div_right (c := den) h)
    rw [cutPlaces, cutPlaces, Nat.log2_eq_log_two, Nat.log2_eq_log_two]
    omega
  rw [roundQuotient, roundQuotient]
  generalize cutPlaces (num / den) = k at hhigh hcut ⊢
  generalize cutPlaces (num' / den) = k' at hlow hcut ⊢
  rcases hcut.lt_or_eq with hlt | rfl
  · -- with more places cut off, what is left fills all 53 bits
    have hfull : 2 ^ 52 ≤ halfEven num' (den * 2 ^ k') := hlow.resolve_right (by omega)
    calc halfEven num (den * 2 ^ k) * 2 ^ k ≤ 2 ^ 53 * 2 ^ k := Nat.mul_le_mul_right _ hhigh
      _ = 2 ^ 52 * 2 ^ (k + 1) := by ring
      _ ≤ 2 ^ 52 * 2 ^ k' := Nat.mul_le_mul_left _ (Nat.pow_le_pow_right (by decide) hlt)
      _ ≤ halfEven num' (den * 2 ^ k') * 2 ^ k' := Nat.mul_le_mul_right _ hfull
  · exact Nat.mul_le_mul_right _ (halfEven_mono _ (Nat.mul_pos hden (Nat.two_pow_pos k)) h)

/-- A greater denominator gives no greater quotient. -/
theorem roundQuotient_anti (num : ℕ) {den den' : ℕ} (hden : 0 < den) (h : den ≤ den') :
    roundQuotient num den' ≤ roundQuotient num den := by
  have hden' : 0 < den' := hden.trans_le h
  calc roundQuotient num den' = roundQuotient (num * den) (den' * den) :=
        (roundQuotient_mul_mul num den' den hden).symm
    _ ≤ roundQuotient (num * den') (den' * den) :=
        roundQuotient_mono (Nat.mul_pos hden' hden) (Nat.mul_le_mul_left num h)
    _ = roundQuotient num den := by rw [Nat.mul_comm den', roundQuotient_mul_mul num den den' hden']

/-- The units of the double that is nearest to a quotient of units. -/
def roundRatio (num : ℤ) (den : ℕ) : ℤ :=
  num.sign * (min (roundQuotient num.natAbs den) infinityUnits : ℕ)

section

variable {den : ℕ} (hden : 0 < den)

include hden

theorem roundRatio_natCast (num : ℕ) :
    roundRatio num den = (min (roundQuotient num den) infinityUnits : ℕ) := by
  rw [roundRatio, Int.natAbs_natCast]
  rcases Nat.eq_zero_or_pos num with rfl | hpos
  · have hzero := roundQuotient_mul 0 hden
    rw [Nat.zero_mul, roundNat_of_dvd (dvd_zero _)] at hzero
    rw [hzero, Nat.zero_min, Nat.cast_zero, mul_zero]
  · rw [Int.sign_eq_one_of_pos (by omega), one_mul]

omit hden in
theorem roundRatio_neg (num : ℤ) : roundRatio (-num) den = -roundRatio num den := by
  rw [roundRatio, roundRatio, Int.sign_neg, Int.natAbs_neg, neg_mul]

/-- A whole number of units is rounded as units are. -/
theorem roundRatio_mul (a : ℤ) : roundRatio (a * den) den = roundUnits a := by
  have hsign : (den : ℤ).sign = 1 := Int.sign_eq_one_of_pos (by omega)
  rw [roundRatio, roundUnits, Int.sign_mul, hsign, mul_one, Int.natAbs_mul, Int.natAbs_natCast,
    roundQuotient_mul _ hden]

theorem roundRatio_nonneg {num : ℤ} (h : 0 ≤ num) : 0 ≤ roundRatio num den := by
  obtain ⟨n, rfl⟩ := Int.eq_ofNat_of_zero_le h
  rw [roundRatio_natCast hden]
  exact Int.natCast_nonneg _

/-- A greater numerator is rounded to no smaller quotient. -/
theorem roundRatio_mono {num num' : ℤ} (h : num ≤ num') :
    roundRatio num den ≤ roundRatio num' den := by
  have hnat {n m : ℕ} (hle : n ≤ m) : roundRatio n den ≤ roundRatio m den := by
    rw [roundRatio_natCast hden, roundRatio_natCast hden]
    exact_mod_cast min_le_min_right _ (roundQuotient_mono hden hle)
  obtain ⟨n, rfl | rfl⟩ := Int.eq_nat_or_neg num
  · obtain ⟨m, rfl⟩ := Int.eq_ofNat_of_zero_le ((Int.natCast_nonneg n).trans h)
    exact hnat (by omega)
  · obtain ⟨m, rfl | rfl⟩ := Int.eq_nat_or_neg num'
    · rw [roundRatio_neg]
      have := roundRatio_nonneg hden (Int.natCast_nonneg n)
      have := roundRatio_nonneg hden (Int.natCast_nonneg m)
      omega
    · rw [roundRatio_neg, roundRatio_neg]
      have := hnat (n := m) (m := n) (by omega)
      omega

/-- Of a quotient that is not negative, a greater denominator leaves no more. -/
theorem roundRatio_anti {num : ℤ} {den' : ℕ} (hnum : 0 ≤ num) (h : den ≤ den') :
    roundRatio num den' ≤ roundRatio num den := by
  obtain ⟨n, rfl⟩ := Int.eq_ofNat_of_zero_le hnum
  rw [roundRatio_natCast hden, roundRatio_natCast (hden.trans_le h)]
  exact_mod_cast min_le_min_right _ (roundQuotient_anti n hden h)

end

/-! ## The product of two mantissas -/

/-- A product has the sign of the quotient. -/
theorem apply_mul_eq (s t : Sign) (a b : ℕ) :
    (s * t).apply (min (roundQuotient (a * b) (2 ^ 1074)) infinityUnits : ℕ)
      = roundRatio (s.apply a * t.apply b) (2 ^ 1074) := by
  have hden : 0 < 2 ^ 1074 := by positivity
  generalize 2 ^ 1074 = den at hden ⊢
  rw [← roundRatio_natCast hden]
  cases s <;> cases t
  · show roundRatio (a * b : ℕ) den = roundRatio (-a * -b) den
    rw [neg_mul_neg, Nat.cast_mul]
  · show -roundRatio (a * b : ℕ) den = roundRatio (-a * b) den
    rw [neg_mul, roundRatio_neg, Nat.cast_mul]
  · show -roundRatio (a * b : ℕ) den = roundRatio (a * -b) den
    rw [mul_neg, roundRatio_neg, Nat.cast_mul]
  · show roundRatio (a * b : ℕ) den = roundRatio (a * b) den
    rw [Nat.cast_mul]

/-- The units of one. -/
theorem unitsOf_one : unitsOf 1 0 = 2 ^ 1074 := by
  have hplaces : ((0 : ℤ) + 1074).toNat = 1074 := by decide
  rw [unitsOf, Nat.one_mul, hplaces]

/-- A power of two has a mantissa with one leading bit. -/
theorem unitsOf_one_eq {e : ℤ} (he : -1022 ≤ e) : unitsOf 1 e = unitsOf (2 ^ 52) (e - 52) := by
  have hplaces : (e - (e - 52)).toNat = 52 := by omega
  have hshift := unitsOf_shiftLeft (m := 1) (e := e) (t := e - 52) (by omega) (by omega)
  rw [hplaces] at hshift
  exact hshift.symm

theorem isCanonical_two_pow {e : ℤ} (he : -1022 ≤ e) (he' : e ≤ 1023) :
    IsCanonical (2 ^ 52) (e - 52) :=
  ⟨⟨by decide, by omega, .inl le_rfl⟩, by omega⟩

/-- The product of two finite numbers is rounded as the product of their units is. -/
theorem packedUnits?_mul_finite (s t : Sign) {m n : ℕ} {e f : ℤ} (hm : 0 < m) (hn : 0 < n)
    (hu : IsCanonical m e) (hv : IsCanonical n f) :
    packedUnits? (UnpackedFloat.mul Format.binary64 (.finite s m e hm) (.finite t n f hn))
      = some ((s * t).apply
        (min (roundQuotient (unitsOf m e * unitsOf n f) (2 ^ 1074)) infinityUnits : ℕ)) := by
  have hlow := hu.low
  have hlow' := hv.low
  obtain ⟨g, hg⟩ : ∃ g, e + f = g := ⟨_, rfl⟩
  obtain ⟨d, hd⟩ : ∃ d : ℕ, (d : ℤ) = 0 + g + 2148 := ⟨(g + 2148).toNat, by omega⟩
  -- a product of few bits is one of two subnormal numbers
  have hbits : g ≤ -1074 ∨ 52 ≤ (m * n / 1).log2 := by
    rw [Nat.div_one, Nat.le_log2 (Nat.mul_pos hm hn).ne']
    rcases hu.normal with hm' | rfl
    · exact .inr (hm'.trans (Nat.le_mul_of_pos_right m hn))
    · rcases hv.normal with hn' | rfl
      · exact .inr (hn'.trans (Nat.le_mul_of_pos_left n hm))
      · exact .inl (by omega)
  have hnum : unitsOf m e * unitsOf n f = m * n * 2 ^ d := by
    have hplaces : (e + 1074).toNat + (f + 1074).toNat = d := by omega
    rw [unitsOf, unitsOf, ← hplaces, Nat.pow_add]
    ring
  have hround := packedUnits?_roundWithAccuracy (s * t) (M := m * n) Nat.one_pos hd
    (by decide) hbits
  rw [Nat.div_one, Nat.mod_one, ← hnum, unitsOf_one] at hround
  rw [UnpackedFloat.mul, hg]
  exact hround

theorem packedUnits?_mul {u v : UnpackedFloat} (hu : IsUnpacked u) (hv : IsUnpacked v)
    (hfu : u.isFinite = true) (hfv : v.isFinite = true) {a b : ℤ} (ha : unpackedUnits? u = some a)
    (hb : unpackedUnits? v = some b) :
    packedUnits? (UnpackedFloat.mul Format.binary64 u v)
      = some (roundRatio (a * b) (2 ^ 1074)) := by
  have hzero : roundRatio 0 (2 ^ 1074) = 0 := by rw [roundRatio, Int.sign_zero, zero_mul]
  cases u with
  | notANumber | infinity s => cases hfu
  | zero s =>
    cases ha
    rw [zero_mul, hzero]
    cases v with
    | notANumber | infinity t => cases hfv
    | zero t => exact packedUnits?_zero _
    | finite t n f hn => exact packedUnits?_zero _
  | finite s m e hm =>
    cases v with
    | notANumber | infinity t => cases hfv
    | zero t =>
      cases hb
      rw [mul_zero, hzero]
      exact packedUnits?_zero _
    | finite t n f hn =>
      cases ha
      cases hb
      rw [packedUnits?_mul_finite s t hm hn hu hv, apply_mul_eq]

variable {x y z : Float} {a b : ℤ}

/-- The product of two finite doubles is the exact one, rounded. -/
theorem units?_mul (hx : x.isFinite = true) (hy : y.isFinite = true) (ha : units? x = some a)
    (hb : units? y = some b) : units? (x * y) = some (roundRatio (a * b) (2 ^ 1074)) :=
  packedUnits?_mul (isUnpacked_unpack _) (isUnpacked_unpack _) hx hy ha hb

/-- A quotient of two finite doubles is rounded as a quotient with a positive denominator is. -/
theorem units?_div_eq_roundRatio (hx : x.isFinite = true) (hy : y.isFinite = true)
    (ha : units? x = some a) (hb : units? y = some b) (hzero : b ≠ 0) :
    units? (x / y) = some (roundRatio (a * b.sign * (2 ^ 1074 : ℕ)) b.natAbs) := by
  have hpos : 0 < 2 ^ 1074 := by positivity
  rw [units?_div hx hy ha hb hzero]
  generalize 2 ^ 1074 = one at hpos ⊢
  have hone : (one : ℤ).sign = 1 := Int.sign_eq_one_of_pos (by omega)
  have hsign : b.sign.natAbs = 1 := by
    rw [Int.natAbs_sign, if_neg hzero]
  rw [roundRatio, Int.sign_mul, Int.sign_mul, Int.sign_sign, hone, mul_one, Int.natAbs_mul,
    Int.natAbs_mul, hsign, mul_one, Int.natAbs_natCast]

/-! ## Bounds on products and quotients -/

/-- Doubles that are numbers are compared along chains. -/
instance : @Trans Float Float Float (· ≤ ·) (· ≤ ·) (· ≤ ·) where
  trans h h' := by
    obtain ⟨a, b, ha, hb, hab⟩ := le_iff.mp h
    obtain ⟨b', c, hb', hc, hbc⟩ := le_iff.mp h'
    rw [hb] at hb'
    cases hb'
    exact le_iff.mpr ⟨a, c, ha, hc, hab.trans hbc⟩

instance : @Trans Float Float Float (· ≤ ·) (· < ·) (· < ·) where
  trans h h' := by
    obtain ⟨a, b, ha, hb, hab⟩ := le_iff.mp h
    obtain ⟨b', c, hb', hc, hbc⟩ := lt_iff.mp h'
    rw [hb] at hb'
    cases hb'
    exact lt_iff.mpr ⟨a, c, ha, hc, hab.trans_lt hbc⟩

instance : @Trans Float Float Float (· < ·) (· ≤ ·) (· < ·) where
  trans h h' := by
    obtain ⟨a, b, ha, hb, hab⟩ := lt_iff.mp h
    obtain ⟨b', c, hb', hc, hbc⟩ := le_iff.mp h'
    rw [hb] at hb'
    cases hb'
    exact lt_iff.mpr ⟨a, c, ha, hc, hab.trans_le hbc⟩

theorem units?_nonneg (h : 0 ≤ x) (ha : units? x = some a) : 0 ≤ a := by
  simpa [le_iff, units?_zero, ha] using h

theorem units?_pos (h : 0 < x) (ha : units? x = some a) : 0 < a := by
  simpa [lt_iff, units?_zero, ha] using h

theorem units?_neg_of_lt (h : x < 0) (ha : units? x = some a) : a < 0 := by
  simpa [lt_iff, units?_zero, ha] using h

theorem units?_lt (h : x < y) (ha : units? x = some a) (hb : units? y = some b) : a < b := by
  simpa [lt_iff, ha, hb] using h

theorem units?_le (h : x ≤ y) (ha : units? x = some a) (hb : units? y = some b) : a ≤ b := by
  simpa [le_iff, ha, hb] using h

protected theorem le_of_lt (h : x < y) : x ≤ y := by
  obtain ⟨a, b, ha, hb, hab⟩ := lt_iff.mp h
  exact le_iff.mpr ⟨a, b, ha, hb, hab.le⟩

protected theorem lt_irrefl (x : Float) : ¬x < x := by
  intro h
  obtain ⟨a, -, ha, -⟩ := lt_iff.mp h
  exact (units?_lt h ha ha).false

protected theorem not_lt_of_le (h : x ≤ y) : ¬y < x := fun hlt =>
  Binary64.lt_irrefl x (calc x ≤ y := h
    _ < x := hlt)

theorem isInf_of_beq_infinite (h : (x == infinite false) = true) : x.isInf = true := by
  obtain ⟨a, ha, hlimit⟩ := beq_iff.mp h
  rw [units?_infinite] at hlimit
  cases hlimit
  exact isInf_iff.mpr ⟨_, ha, rfl⟩

theorem beq_of_le_of_le (h : x ≤ y) (h' : y ≤ x) : (x == y) = true := by
  obtain ⟨a, b, ha, hb, hab⟩ := le_iff.mp h
  exact beq_iff.mpr ⟨a, ha, by rw [hb, le_antisymm hab (units?_le h' hb ha)]⟩

theorem beq_eq_false_of_lt (h : x < y) : (x == y) = false := by
  rw [← Bool.not_eq_true, beq_iff]
  rintro ⟨a, ha, hb⟩
  exact absurd (units?_lt h ha hb) (lt_irrefl _)

/-- A factor that is not negative keeps the order. -/
theorem mul_le_mul_right (hx : x.isFinite = true) (hy : y.isFinite = true) (hz : z.isFinite = true)
    (h : x ≤ y) (hnonneg : 0 ≤ z) : x * z ≤ y * z := by
  obtain ⟨a, ha, -⟩ := isFinite_iff.mp hx
  obtain ⟨b, hb, -⟩ := isFinite_iff.mp hy
  obtain ⟨c, hc, -⟩ := isFinite_iff.mp hz
  refine le_iff.mpr ⟨_, _, units?_mul hx hz ha hc, units?_mul hy hz hb hc, ?_⟩
  refine roundRatio_mono (by positivity) ?_
  exact Int.mul_le_mul_of_nonneg_right (units?_le h ha hb) (units?_nonneg hnonneg hc)

theorem mul_le_mul_left (hx : x.isFinite = true) (hy : y.isFinite = true) (hz : z.isFinite = true)
    (h : x ≤ y) (hnonneg : 0 ≤ z) : z * x ≤ z * y := by
  obtain ⟨a, ha, -⟩ := isFinite_iff.mp hx
  obtain ⟨b, hb, -⟩ := isFinite_iff.mp hy
  obtain ⟨c, hc, -⟩ := isFinite_iff.mp hz
  refine le_iff.mpr ⟨_, _, units?_mul hz hx hc ha, units?_mul hz hy hc hb, ?_⟩
  refine roundRatio_mono (by positivity) ?_
  exact Int.mul_le_mul_of_nonneg_left (units?_le h ha hb) (units?_nonneg hnonneg hc)

/-- A positive divisor keeps the order. -/
theorem div_le_div_right (hx : x.isFinite = true) (hy : y.isFinite = true) (hz : z.isFinite = true)
    (h : x ≤ y) (hpos : 0 < z) : x / z ≤ y / z := by
  obtain ⟨a, ha, -⟩ := isFinite_iff.mp hx
  obtain ⟨b, hb, -⟩ := isFinite_iff.mp hy
  obtain ⟨c, hc, -⟩ := isFinite_iff.mp hz
  have hc0 := units?_pos hpos hc
  refine le_iff.mpr ⟨_, _, units?_div_eq_roundRatio hx hz ha hc hc0.ne',
    units?_div_eq_roundRatio hy hz hb hc hc0.ne', ?_⟩
  refine roundRatio_mono (by omega) (Int.mul_le_mul_of_nonneg_right ?_ (Int.natCast_nonneg _))
  rw [Int.sign_eq_one_of_pos hc0, mul_one, mul_one]
  exact units?_le h ha hb

/-- Of a quotient of negative numbers, a divisor nearer to zero leaves more. -/
theorem div_le_div_of_neg (hx : x.isFinite = true) (hy : y.isFinite = true) (hz : z.isFinite = true)
    (hneg : x < 0) (h : y ≤ z) (hz0 : z < 0) : x / y ≤ x / z := by
  obtain ⟨a, ha, -⟩ := isFinite_iff.mp hx
  obtain ⟨b, hb, -⟩ := isFinite_iff.mp hy
  obtain ⟨c, hc, -⟩ := isFinite_iff.mp hz
  have ha0 := units?_neg_of_lt hneg ha
  have hbc := units?_le h hb hc
  have hc0 := units?_neg_of_lt hz0 hc
  have hb0 : b < 0 := hbc.trans_lt hc0
  refine le_iff.mpr ⟨_, _, units?_div_eq_roundRatio hx hy ha hb hb0.ne,
    units?_div_eq_roundRatio hx hz ha hc hc0.ne, ?_⟩
  rw [Int.sign_eq_neg_one_of_neg hb0, Int.sign_eq_neg_one_of_neg hc0]
  refine roundRatio_anti (by omega) ?_ (by omega)
  exact Int.mul_nonneg (by omega) (Int.natCast_nonneg _)

/-! ## Squares -/

/-- The least positive double whose square is infinite, the square root of `2 ^ 1024`. -/
def squareLimit : Float := round false 1 512

theorem units?_squareLimit : units? squareLimit = some (unitsOf 1 512 : ℤ) :=
  units?_round false (by decide) (by decide) (by decide)

theorem units?_neg_squareLimit : units? (-squareLimit) = some (-(unitsOf 1 512 : ℤ)) := by
  decide +kernel

/-- Between the limit and minus the limit the magnitude is below it. -/
theorem lt_squareLimit_iff (ha : units? x = some a) :
    -squareLimit < x ∧ x < squareLimit ↔ a.natAbs < unitsOf 1 512 := by
  simp only [lt_iff, ha, units?_neg_squareLimit, units?_squareLimit, Option.some.injEq,
    exists_eq_left', exists_and_left]
  omega

/-- No double lies between the limit and the greatest one below it. -/
theorem unitsOf_le_or_le {m : ℕ} {e : ℤ} (h : IsCanonical m e) :
    unitsOf m e ≤ unitsOf (2 ^ 53 - 1) 459 ∨ unitsOf 1 512 ≤ unitsOf m e := by
  have hlt := h.lt
  rcases Int.lt_or_le 459 e with hhigh | hlow
  · right
    have hnormal := h.normal.resolve_right (by omega)
    rw [unitsOf_one_eq (by decide), unitsOf, unitsOf]
    exact Nat.mul_le_mul hnormal (Nat.pow_le_pow_right (by decide) (by omega))
  · left
    rw [unitsOf, unitsOf]
    exact Nat.mul_le_mul (by omega) (Nat.pow_le_pow_right (by decide) (by omega))

theorem units?_mul_self (hx : x.isFinite = true) (ha : units? x = some a) : units? (x * x)
    = some ((min (roundQuotient (a.natAbs * a.natAbs) (unitsOf 1 0)) infinityUnits : ℕ) : ℤ) := by
  rw [units?_mul hx hx ha ha, ← unitsOf_one, ← roundRatio_natCast (unitsOf_pos one_pos 0),
    Int.natAbs_mul_self]

/-- A square is finite below the limit. -/
theorem isFinite_mul_self_iff (hx : x.isFinite = true) :
    (x * x).isFinite = true ↔ -squareLimit < x ∧ x < squareLimit := by
  obtain ⟨a, ha, -⟩ := isFinite_iff.mp hx
  obtain ⟨negative, m, e, -, hm, hunits⟩ := exists_ofFloat hx ha
  have hnat : a.natAbs = unitsOf m e := by rw [← hunits, natAbs_signedUnits]
  have hone : 0 < unitsOf 1 0 := unitsOf_pos one_pos 0
  rw [lt_squareLimit_iff ha, isFinite_iff]
  constructor
  · rintro ⟨c, hc, hlt⟩
    have hinfinite : infinityUnits
        ≤ roundQuotient (unitsOf 1 512 * unitsOf 1 512) (unitsOf 1 0) := by decide +kernel
    rw [units?_mul_self hx ha] at hc
    cases hc
    by_contra hle
    have hgreat := roundQuotient_mono hone (Nat.mul_le_mul (Nat.not_lt.mp hle) (Nat.not_lt.mp hle))
    rw [Int.natAbs_natCast] at hlt
    omega
  · intro hlt
    have hfinite : roundQuotient (unitsOf (2 ^ 53 - 1) 459 * unitsOf (2 ^ 53 - 1) 459) (unitsOf 1 0)
        < infinityUnits := by decide +kernel
    have hless : a.natAbs ≤ unitsOf (2 ^ 53 - 1) 459 := by
      have := unitsOf_le_or_le hm
      omega
    have hsmall := roundQuotient_mono hone (Nat.mul_le_mul hless hless)
    refine ⟨_, units?_mul_self hx ha, ?_⟩
    rw [Int.natAbs_natCast]
    omega

end AntennaArray.Binary64
