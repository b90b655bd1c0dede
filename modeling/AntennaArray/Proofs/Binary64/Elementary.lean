import AntennaArray.Number.Elementary
import AntennaArray.Proofs.Binary64.Products
import AntennaArray.Proofs.FixedPoint

/-!
# Elementary functions on doubles

An elementary function rounds one fixed-point number, and rounding is monotone (`ofFixed_mono`), so
bounds on the fixed-point functions are bounds on the doubles: sines and cosines lie in `[-1, 1]`,
the cosine of less than a quarter turn is positive, and the logarithm of less than one is negative.
-/

namespace AntennaArray.Binary64

/-! ## Reading -/

/-- A double is read as `± m * 2 ^ e`, with a canonical mantissa and exponent. -/
structure IsRead (x : Float) (negative : Bool) (m : ℕ) (e : ℤ) : Prop extends IsCanonical m e where
  ofFloat : ofFloat x = .finite negative m e
  units : units? x = some (signedUnits negative (unitsOf m e))

section

variable {x : Float} {negative : Bool} {m : ℕ} {e : ℤ}

theorem isRead_of_ofFloat (h : ofFloat x = .finite negative m e) : IsRead x negative m e where
  toIsCanonical := isCanonical_of_ofFloat h
  ofFloat := h
  units := by
    rw [← readUnits?_ofFloat, h]
    rfl

/-- What is finite is read so. -/
theorem exists_isRead (hx : x.isFinite = true) : ∃ negative m e, IsRead x negative m e := by
  obtain ⟨a, ha, -⟩ := isFinite_iff.mp hx
  obtain ⟨negative, m, e, hread, -, -⟩ := exists_ofFloat hx ha
  exact ⟨negative, m, e, isRead_of_ofFloat hread⟩

/-- What is not negative is zero or has no sign. -/
theorem IsRead.sign_of_nonneg (h : IsRead x negative m e) (h0 : 0 ≤ x) :
    m = 0 ∨ negative = false := by
  rcases Nat.eq_zero_or_pos m with hzero | hpos
  · exact .inl hzero
  · right
    have hnonneg := units?_nonneg h0 h.units
    have hunits := unitsOf_pos hpos e
    cases negative with
    | false => rfl
    | true =>
      change 0 ≤ -(unitsOf m e : ℤ) at hnonneg
      omega

/-- What is not negative has its magnitude as units. -/
theorem IsRead.units_of_nonneg (h : IsRead x negative m e) (h0 : 0 ≤ x) :
    units? x = some (unitsOf m e : ℤ) := by
  have hunits := h.units
  rcases h.sign_of_nonneg h0 with rfl | rfl
  · rw [unitsOf, Nat.zero_mul] at hunits ⊢
    cases negative <;> exact hunits
  · exact hunits

/-- A positive number has no sign, and a positive mantissa. -/
theorem exists_isRead_of_pos (hx : x.isFinite = true) (h : 0 < x) :
    ∃ m e, 0 < m ∧ IsRead x false m e ∧ units? x = some (unitsOf m e : ℤ) := by
  obtain ⟨negative, m, e, hread⟩ := exists_isRead hx
  have hunits := hread.units_of_nonneg (Binary64.le_of_lt h)
  have hpos := units?_pos h hunits
  have hm : 0 < m := Nat.pos_of_ne_zero fun hzero => by
    rw [hzero, unitsOf, Nat.zero_mul] at hpos
    exact absurd hpos (Int.lt_irrefl _)
  rcases hread.sign_of_nonneg (Binary64.le_of_lt h) with hzero | rfl
  · exact absurd hzero hm.ne'
  · exact ⟨m, e, hm, hread, hunits⟩

end

/-! ## Rounding a mantissa -/

/-- The bits of a double run through all mantissas of an exponent before they go on to the next one,
so a mantissa that was rounded up to the next power of two is no exception. -/
theorem exists_fields_of_le (place : ℕ) {kept : ℕ} (hle : kept ≤ 2 ^ 53)
    (hnormal : 2 ^ 52 ≤ kept ∨ place = 0) :
    ∃ field fraction, place * 2 ^ 52 + kept = field * 2 ^ 52 + fraction ∧
      fraction < 2 ^ 52 ∧ fieldUnits field fraction = kept * 2 ^ place := by
  rcases hle.lt_or_eq with hlt | rfl
  · obtain ⟨field, fraction, hbits, -, hfraction, hunits⟩ := exists_fields place hlt hnormal
    exact ⟨field, fraction, hbits, hfraction, hunits⟩
  · refine ⟨place + 2, 0, by omega, by decide, ?_⟩
    rw [fieldUnits, if_neg (by omega), Nat.add_zero, show place + 2 - 1 = place + 1 from rfl]
    ring

theorem fieldUnits_lt_infinityUnits {field fraction : ℕ} (hfield : field < 2047)
    (hfraction : fraction < 2 ^ 52) : fieldUnits field fraction < infinityUnits := by
  obtain ⟨places, hplaces⟩ : ∃ places, 2045 = places := ⟨_, rfl⟩
  have hmantissa : fieldUnits field fraction < 2 ^ 53 * 2 ^ (field - 1) := by
    rw [fieldUnits]
    split
    · have := Nat.two_pow_pos (field - 1)
      omega
    · exact Nat.mul_lt_mul_of_pos_right (by omega) (Nat.two_pow_pos _)
  rw [infinityUnits, hplaces]
  exact hmantissa.trans_le
    (Nat.mul_le_mul_left _ (Nat.pow_le_pow_right (by decide) (by omega)))

theorem infinityUnits_le_fieldUnits {field : ℕ} (fraction : ℕ) (hfield : 2047 ≤ field) :
    infinityUnits ≤ fieldUnits field fraction := by
  obtain ⟨places, hplaces⟩ : ∃ places, 2045 = places := ⟨_, rfl⟩
  have hsplit : field - 1 = 1 + (field - 2 - places) + places := by omega
  have hgrow : 2 ^ 53 ≤ (2 ^ 52 + fraction) * 2 ^ (1 + (field - 2 - places)) := by
    calc 2 ^ 53 = 2 ^ 52 * 2 ^ 1 := by decide
      _ ≤ (2 ^ 52 + fraction) * 2 ^ (1 + (field - 2 - places)) :=
        Nat.mul_le_mul (Nat.le_add_right _ _) (Nat.pow_le_pow_right (by decide) (by omega))
  rw [fieldUnits, if_neg (by omega), infinityUnits, hplaces, hsplit, Nat.pow_add, ← Nat.mul_assoc]
  exact Nat.mul_le_mul_right _ hgrow

/-- What is beyond the greatest double is assembled to infinity. -/
theorem units?_assemble_min (negative : Bool) {field fraction : ℕ} (hfraction : fraction < 2 ^ 52) :
    units? (assemble negative (min (field * 2 ^ 52 + fraction) (2047 * 2 ^ 52)))
      = some (signedUnits negative (min (fieldUnits field fraction) infinityUnits : ℕ)) := by
  by_cases hfield : field < 2047
  · have hlt := fieldUnits_lt_infinityUnits hfield hfraction
    rw [min_eq_left (by omega), min_eq_left hlt.le]
    exact units?_assemble negative hfield hfraction hlt
  · rw [min_eq_right (by omega), min_eq_right (infinityUnits_le_fieldUnits fraction (by omega))]
    exact units?_infinite negative

/-- A mantissa is rounded where the quotient of its units is. -/
theorem kept_eq {m : ℕ} (hm : 0 < m) {e target : ℤ} (he : -2148 ≤ e)
    (htarget : max ((m.log2 : ℤ) + e - 52) (-1074) = target) :
    cutPlaces (m * 2 ^ (e + 2148).toNat / 2 ^ 1074) = (target + 1074).toNat ∧
      (if target ≤ e then m * 2 ^ (e - target).toNat else halfEven m (2 ^ (target - e).toNat))
        = halfEven (m * 2 ^ (e + 2148).toNat) (2 ^ 1074 * 2 ^ (target + 1074).toNat) := by
  obtain ⟨places, hplaces⟩ : ∃ places, 1074 = places := ⟨_, rfl⟩
  constructor
  · rw [cutPlaces, hplaces, Nat.log2_eq_log_two, Nat.log_div_base_pow, ← Nat.log2_eq_log_two,
      log2_mul_two_pow hm]
    omega
  · rw [hplaces, ← Nat.pow_add]
    split
    · have hsplit : (e + 2148).toNat = (e - target).toNat + (places + (target + 1074).toNat) := by
        omega
      rw [hsplit, Nat.pow_add, ← Nat.mul_assoc, halfEven_mul _ _ (Nat.two_pow_pos _)]
    · have hsplit : places + (target + 1074).toNat = (target - e).toNat + (e + 2148).toNat := by
        omega
      rw [hsplit, Nat.pow_add, halfEven_mul_mul _ _ _ (Nat.two_pow_pos _)]

/-- Rounding gives the nearest double, as a quotient of units. -/
theorem units?_round_eq_roundQuotient (negative : Bool) (m : ℕ) {e : ℤ} (he : -2148 ≤ e) :
    units? (round negative m e) = some (signedUnits negative
      (min (roundQuotient (m * 2 ^ (e + 2148).toNat) (2 ^ 1074)) infinityUnits : ℕ)) := by
  have hden : 0 < 2 ^ 1074 := by positivity
  rcases Nat.eq_zero_or_pos m with rfl | hm
  · have hzero := roundQuotient_mul 0 hden
    rw [Nat.zero_mul, roundNat_of_dvd (dvd_zero _)] at hzero
    rw [round, if_pos rfl, Nat.zero_mul, hzero, Nat.zero_min]
    exact units?_zeroOf negative
  obtain ⟨target, htarget⟩ : ∃ target, max ((m.log2 : ℤ) + e - 52) (-1074) = target := ⟨_, rfl⟩
  obtain ⟨hplace, hkept⟩ := kept_eq hm he htarget
  obtain ⟨hhigh, hnormal⟩ := halfEven_quotient_mem (m * 2 ^ (e + 2148).toNat) hden
  rw [hplace, ← hkept] at hhigh hnormal
  rw [roundQuotient, hplace, ← hkept]
  generalize hk : (if target ≤ e then m * 2 ^ (e - target).toNat
    else halfEven m (2 ^ (target - e).toNat)) = kept at hhigh hnormal ⊢
  obtain ⟨field, fraction, hbits, hfraction, hunits⟩ :=
    exists_fields_of_le (target + 1074).toNat hhigh hnormal
  have hround : round negative m e
      = assemble negative (min (field * 2 ^ 52 + fraction) (2047 * 2 ^ 52)) := by
    rw [round, if_neg hm.ne', htarget, ← hbits, ← hk]
  rw [hround, ← hunits]
  exact units?_assemble_min negative hfraction

/-- A whole number of units is rounded as units are. -/
theorem units?_round_eq_roundUnits (negative : Bool) (m : ℕ) {e : ℤ} (he : -1074 ≤ e) :
    units? (round negative m e) = some (roundUnits (signedUnits negative (unitsOf m e))) := by
  obtain ⟨places, hplaces⟩ : ∃ places, 1074 = places := ⟨_, rfl⟩
  have hsplit : (e + 2148).toNat = (e + 1074).toNat + places := by omega
  have hsigned (n : ℕ) : roundUnits (signedUnits negative n)
      = signedUnits negative (min (roundNat n) infinityUnits : ℕ) := by
    cases negative with
    | false => exact roundUnits_natCast n
    | true => exact (roundUnits_neg n).trans (congrArg Neg.neg (roundUnits_natCast n))
  rw [units?_round_eq_roundQuotient negative m (by omega), hsigned, hplaces, hsplit, Nat.pow_add,
    ← Nat.mul_assoc, roundQuotient_mul _ (Nat.two_pow_pos _), unitsOf]

/-! ## Rounding a fixed-point number -/

open FixedPoint (unit precision)

/-- A fixed-point number is rounded to the nearest double. -/
theorem units?_ofFixed (x : ℤ) :
    units? (ofFixed x) = some (roundUnits (x * (2 ^ (-(precision : ℤ) + 1074).toNat : ℕ))) := by
  have hlow : -1074 ≤ -(precision : ℤ) := by decide
  rw [ofFixed, units?_round_eq_roundUnits _ _ hlow, unitsOf]
  generalize 2 ^ (-(precision : ℤ) + 1074).toNat = scale
  congr 2
  rcases Int.lt_or_le x 0 with hneg | hnonneg
  · obtain ⟨n, rfl⟩ : ∃ n : ℕ, x = -n := ⟨x.natAbs, by omega⟩
    rw [decide_eq_true hneg, Int.natAbs_neg, Int.natAbs_natCast, neg_mul, ← Nat.cast_mul,
      signedUnits, if_pos rfl]
  · obtain ⟨n, rfl⟩ := Int.eq_ofNat_of_zero_le hnonneg
    rw [decide_eq_false (by omega), Int.natAbs_natCast, ← Nat.cast_mul, signedUnits,
      if_neg Bool.false_ne_true]

/-- A greater number is rounded to no smaller double. -/
theorem ofFixed_mono {x y : ℤ} (h : x ≤ y) : ofFixed x ≤ ofFixed y := by
  refine le_iff.mpr ⟨_, _, units?_ofFixed x, units?_ofFixed y, roundUnits_mono ?_⟩
  exact Int.mul_le_mul_of_nonneg_right h (Int.natCast_nonneg _)

/-! ## Sines and cosines -/

variable {x : Float}

theorem units?_one : units? 1 = some (unitsOf 1 0 : ℤ) := by decide +kernel

theorem units?_ofFixed_unit (negative : Bool) :
    units? (ofFixed (if negative then -unit else unit))
      = some (signedUnits negative (unitsOf 1 0)) := by
  cases negative <;> decide +kernel

theorem ofFixed_unit_le_one : ofFixed unit ≤ 1 :=
  le_iff.mpr ⟨_, _, units?_ofFixed_unit false, units?_one, le_rfl⟩

theorem units?_ofFixed_one : units? (ofFixed 1) = some (unitsOf 1 (-128) : ℤ) :=
  units?_round false (by decide) (by decide) (by decide)

theorem ofFixed_one_pos : 0 < ofFixed 1 :=
  lt_iff.mpr ⟨_, _, units?_zero, units?_ofFixed_one, Int.natCast_pos.mpr (unitsOf_pos one_pos _)⟩

theorem ofFixed_one_le_one : ofFixed 1 ≤ 1 := by
  calc ofFixed 1 ≤ ofFixed unit := ofFixed_mono (by decide)
    _ ≤ 1 := ofFixed_unit_le_one

theorem ofFixed_neg_one_lt : ofFixed (-1) < 0 := by
  have hunits : units? (ofFixed (-1)) = some (-(unitsOf 1 (-128) : ℤ)) :=
    units?_round true (by decide) (by decide) (by decide)
  have hpos := unitsOf_pos one_pos (-128)
  exact lt_iff.mpr ⟨_, _, hunits, units?_zero, by omega⟩

/-- A mantissa is scaled by the places that its units have left. -/
theorem scale_eq_unitsOf_div (m : ℕ) {e : ℤ} (he : -1074 ≤ e) (places : ℕ)
    (hplaces : places ≤ 1074) :
    FixedPoint.scale m (e + places) = (unitsOf m e / 2 ^ (1074 - places) : ℕ) := by
  obtain ⟨rest, hrest⟩ : ∃ rest, 1074 - places = rest := ⟨_, rfl⟩
  rw [hrest, FixedPoint.scale, unitsOf]
  split
  · have hsplit : (e + 1074).toNat = (e + places).toNat + rest := by omega
    rw [hsplit, Nat.pow_add, ← Nat.mul_assoc, Nat.mul_div_cancel _ (Nat.two_pow_pos _),
      Int.shiftLeft_eq]
    push_cast
    rfl
  · have hsplit : rest = (-(e + places)).toNat + (e + 1074).toNat := by omega
    rw [hsplit, Nat.pow_add, Nat.mul_div_mul_right _ _ (Nat.two_pow_pos _),
      Int.shiftRight_eq_div_pow]
    push_cast
    rfl

/-- A greater magnitude has no smaller scaled mantissa. -/
theorem scale_mono {m n : ℕ} {e f : ℤ} (he : -1074 ≤ e) (hf : -1074 ≤ f)
    (h : unitsOf m e ≤ unitsOf n f) (places : ℕ) (hplaces : places ≤ 1074) :
    FixedPoint.scale m (e + places) ≤ FixedPoint.scale n (f + places) := by
  rw [scale_eq_unitsOf_div m he places hplaces, scale_eq_unitsOf_div n hf places hplaces]
  exact Int.ofNat_le.mpr (Nat.div_le_div_right h)

/-- A greater magnitude has no smaller leading bit. -/
theorem log2_add_le {m n : ℕ} {e f : ℤ} (hm : 0 < m) (he : -1074 ≤ e) (hf : -1074 ≤ f)
    (h : unitsOf m e ≤ unitsOf n f) : 0 < n ∧ (m.log2 : ℤ) + e ≤ n.log2 + f := by
  have hn : 0 < n := Nat.pos_of_ne_zero fun hzero => by
    rw [hzero, unitsOf, unitsOf, Nat.zero_mul] at h
    exact absurd h (Nat.not_le_of_lt (unitsOf_pos hm e))
  have hlog := Nat.log_mono_right (b := 2) h
  rw [← Nat.log2_eq_log_two, ← Nat.log2_eq_log_two, unitsOf, unitsOf, log2_mul_two_pow hm,
    log2_mul_two_pow hn] at hlog
  exact ⟨hn, by omega⟩

/-- What is below a power of two has its leading bit below it. -/
theorem log2_add_lt {m : ℕ} {e f : ℤ} (hm : 0 < m) (he : -1074 ≤ e) (hf : -1074 ≤ f)
    (h : unitsOf m e < unitsOf 1 f) : (m.log2 : ℤ) + e < f := by
  rw [unitsOf.eq_1 1, Nat.one_mul] at h
  have hlog := (Nat.log2_lt (unitsOf_pos hm e).ne').mpr h
  rw [unitsOf, log2_mul_two_pow hm] at hlog
  omega

/-! ### Angles below a quarter turn -/

/-- The greatest double below a quarter turn. -/
def rightAngle : Float := 1.5707963267948966

theorem units?_rightAngle : units? rightAngle = some (unitsOf 7074237752028440 (-52) : ℤ) := by
  decide +kernel

theorem isCanonical_rightAngle : IsCanonical 7074237752028440 (-52) :=
  ⟨⟨by decide, by decide, .inl (by decide)⟩, by decide⟩

theorem isFinite_rightAngle : rightAngle.isFinite = true := by
  have hlt := isCanonical_rightAngle.unitsOf_lt_infinityUnits
  exact isFinite_iff.mpr ⟨_, units?_rightAngle, by rwa [Int.natAbs_natCast]⟩

theorem scale_rightAngle_lt :
    FixedPoint.scale 7074237752028440 (-52 + (256 : ℕ)) < FixedPoint.guardedQuarterTurn := by
  decide +kernel

/-- An angle that is not negative and below a quarter turn, in fixed-point numbers too. -/
structure IsAcute (x : Float) (negative : Bool) (m : ℕ) (e : ℤ) : Prop extends
    IsRead x negative m e where
  magnitude : units? x = some (unitsOf m e : ℤ)
  exponent_le : e ≤ 0
  scale_lt : FixedPoint.scale m (e + 256) < FixedPoint.guardedQuarterTurn

/-- What is at most a right angle is below a quarter turn. -/
theorem exists_isAcute (h : 0 ≤ x) (h' : x ≤ rightAngle) :
    ∃ negative m e, IsAcute x negative m e := by
  have hx : x.isFinite = true := isFinite_of_le_of_le (by decide) isFinite_rightAngle h h'
  obtain ⟨negative, m, e, hread⟩ := exists_isRead hx
  have hunits := hread.units_of_nonneg h
  have hle : unitsOf m e ≤ unitsOf 7074237752028440 (-52) := by
    exact_mod_cast units?_le h' hunits units?_rightAngle
  refine ⟨negative, m, e, hread, hunits, ?_, ?_⟩
  · by_contra hlarge
    exact absurd hle (Nat.not_le_of_lt
      (isCanonical_rightAngle.unitsOf_lt_unitsOf hread.toIsCanonical (by omega)))
  · exact (scale_mono hread.low isCanonical_rightAngle.low hle 256 (by decide)).trans_lt
      scale_rightAngle_lt

/-- The cosine of an angle below a quarter turn is positive and at most one. -/
theorem cos_mem_of_le_rightAngle (h : 0 ≤ x) (h' : x ≤ rightAngle) :
    ofFixed 1 ≤ cos x ∧ cos x ≤ 1 := by
  obtain ⟨negative, m, e, hacute⟩ := exists_isAcute h h'
  rw [cos, hacute.ofFloat]
  dsimp only
  split
  · exact ⟨ofFixed_one_le_one, by decide⟩
  · obtain ⟨hpos, hle⟩ := FixedPoint.cos_mem_of_lt hacute.exponent_le hacute.scale_lt
    refine ⟨ofFixed_mono hpos, ?_⟩
    calc ofFixed (FixedPoint.cos m e) ≤ ofFixed unit := ofFixed_mono hle
      _ ≤ 1 := ofFixed_unit_le_one

/-! ### Where the cosine rounds to one -/

/-- An angle whose cosine rounds to one; that of `2 ^ -26.5` is half a last place below one. -/
def flatAngle : Float := round false 83 (-33)

/-- An angle whose cosine rounds to less than one. -/
def steepAngle : Float := round false 97 (-33)

theorem units?_flatAngle : units? flatAngle = some (unitsOf 83 (-33) : ℤ) :=
  units?_round false (by decide) (by decide) (by decide)

theorem units?_steepAngle : units? steepAngle = some (unitsOf 97 (-33) : ℤ) :=
  units?_round false (by decide) (by decide) (by decide)

/-- Up to the flat angle the cosine is one. -/
theorem one_le_cos (h : 0 ≤ x) (h' : x ≤ flatAngle) : 1 ≤ cos x := by
  have hright : x ≤ rightAngle := by
    calc x ≤ flatAngle := h'
      _ ≤ rightAngle := by decide
  obtain ⟨negative, m, e, hacute⟩ := exists_isAcute h hright
  have hle : unitsOf m e ≤ unitsOf 83 (-33) := by
    exact_mod_cast units?_le h' hacute.magnitude units?_flatAngle
  have hscale := scale_mono hacute.low (by decide) hle 256 (by decide)
  rw [cos, hacute.ofFloat]
  dsimp only
  split
  · decide
  · -- the flat angle is `83 * 2 ^ 95` as a fixed-point number
    have hcos := FixedPoint.le_cos_of_le (r := 83 * 2 ^ 95) hacute.exponent_le
      (hscale.trans_lt (by decide +kernel)) (by decide)
    calc (1 : Float) ≤ ofFixed (2 ^ 128 - 83 * 2 ^ 95 * (83 * 2 ^ 95) / 2 ^ 128 * 2 ^ 127 / 2 ^ 128
          : ℕ) := by decide +kernel
      _ ≤ ofFixed (FixedPoint.cos m e) := ofFixed_mono hcos

/-- From the steep angle on, up to a quarter turn, the cosine is below one. -/
theorem cos_lt_one (h : steepAngle ≤ x) (h' : x ≤ rightAngle) : cos x < 1 := by
  have hnonneg : 0 ≤ x := by
    calc (0 : Float) ≤ steepAngle := by decide
      _ ≤ x := h
  obtain ⟨negative, m, e, hacute⟩ := exists_isAcute hnonneg h'
  have hle : unitsOf 97 (-33) ≤ unitsOf m e := by
    exact_mod_cast units?_le h units?_steepAngle hacute.magnitude
  have hscale := scale_mono (by decide) hacute.low hle 256 (by decide)
  obtain ⟨hpos, hlog⟩ := log2_add_le (by decide) (by decide) hacute.low hle
  have hbits : (97 : ℕ).log2 = 6 := by decide
  have htiny : isTiny m e = false := by
    rw [isTiny, decide_eq_false hpos.ne', decide_eq_false (by omega)]
    rfl
  rw [cos, hacute.ofFloat]
  dsimp only
  rw [if_neg (by rw [htiny]; exact Bool.false_ne_true)]
  have hcos := FixedPoint.cos_le_of_le (r := 97 * 2 ^ 95) hacute.exponent_le hacute.scale_lt
    (le_trans (by decide +kernel) hscale) (by decide)
  calc ofFixed (FixedPoint.cos m e)
      ≤ ofFixed (2 ^ 128 - 97 * 2 ^ 95 * (97 * 2 ^ 95) / 2 ^ 128 * (7 * 2 ^ 124) / 2 ^ 128 : ℕ) :=
        ofFixed_mono hcos
    _ < 1 := by decide +kernel

/-! ## The logarithm -/

theorem log10_of_ofFloat {m : ℕ} {e : ℤ} (h : ofFloat x = .finite false m e) (hm : 0 < m) :
    log10 x = ofFixed (FixedPoint.log m e * unit / FixedPoint.logTen) := by
  rw [log10, h]
  simp only [if_neg hm.ne', Bool.false_eq_true, if_false]

/-- The logarithm of a positive number below one is negative. -/
theorem log10_le (hpos : 0 < x) (h : x < 1) : log10 x ≤ ofFixed (-1) := by
  have hx : x.isFinite = true := isFinite_of_lt_of_lt hpos h
  obtain ⟨m, e, hm, hread, hunits⟩ := exists_isRead_of_pos hx hpos
  have hhigh := log2_add_lt (f := 0) hm hread.low (by decide)
    (by exact_mod_cast units?_lt h hunits units?_one)
  have hproduct : FixedPoint.log m e * unit < 0 :=
    Int.mul_neg_of_neg_of_pos (FixedPoint.log_neg hm hhigh) FixedPoint.unit_pos
  have hten : 0 < FixedPoint.logTen := FixedPoint.unit_pos.trans_le FixedPoint.logTen_mem.1
  have := Int.ediv_neg_of_neg_of_pos hproduct hten
  rw [log10_of_ofFloat hread.ofFloat hm]
  exact ofFixed_mono (by omega)

/-- The logarithm of a number that is not too small is bounded. -/
theorem le_log10 (h : ofFixed 1 ≤ x) (h' : x < 1) : ofFixed (-130 * unit) ≤ log10 x := by
  have hpos : 0 < x := Trans.trans ofFixed_one_pos h
  have hx : x.isFinite = true := isFinite_of_lt_of_lt hpos h'
  obtain ⟨m, e, hm, hread, hunits⟩ := exists_isRead_of_pos hx hpos
  have hlow := (log2_add_le (m := 1) (e := -128) (by decide) (by decide) hread.low
    (by exact_mod_cast units?_le h units?_ofFixed_one hunits)).2
  have hone : (1 : ℕ).log2 = 0 := by decide
  have hlog := FixedPoint.le_log hm (e := e) (by omega)
  have hten := FixedPoint.logTen_mem
  have hunit := FixedPoint.unit_pos
  rw [log10_of_ofFloat hread.ofFloat hm]
  refine ofFixed_mono ?_
  rw [Int.le_ediv_iff_mul_le (by omega)]
  calc -130 * unit * FixedPoint.logTen ≤ -130 * unit * unit :=
        Int.mul_le_mul_of_nonpos_left (by omega) hten.1
    _ ≤ FixedPoint.log m e * unit := Int.mul_le_mul_of_nonneg_right hlog hunit.le

/-- Canonical mantissas and exponents with the same units are the same. -/
theorem eq_of_unitsOf_eq {m n : ℕ} {e f : ℤ} (hm : IsCanonical m e) (hn : IsCanonical n f)
    (h : unitsOf m e = unitsOf n f) : m = n ∧ e = f := by
  obtain rfl : e = f := by
    rcases lt_trichotomy e f with hlt | heq | hgt
    · exact absurd h (hm.unitsOf_lt_unitsOf hn hlt).ne
    · exact heq
    · exact absurd h (hn.unitsOf_lt_unitsOf hm hgt).ne'
  exact ⟨Nat.eq_of_mul_eq_mul_right (Nat.two_pow_pos _) h, rfl⟩

/-- The logarithm of one is zero. -/
theorem units?_log10_of_beq_one (h : (x == 1) = true) : units? (log10 x) = some 0 := by
  obtain ⟨a, ha, hone⟩ := beq_iff.mp h
  rw [units?_one] at hone
  cases hone
  have hpos : 0 < x := lt_iff.mpr ⟨0, _, units?_zero, ha, by exact_mod_cast unitsOf_pos one_pos 0⟩
  have hx : x.isFinite = true :=
    isFinite_of_le_of_le (by decide) (by decide) (Binary64.le_of_lt hpos)
      (le_iff.mpr ⟨_, _, ha, units?_one, le_rfl⟩)
  obtain ⟨m, e, hm, hread, hunits⟩ := exists_isRead_of_pos hx hpos
  have hone : IsCanonical (2 ^ 52) (0 - 52) := isCanonical_two_pow (by decide) (by decide)
  rw [ha, unitsOf_one_eq (by decide)] at hunits
  obtain ⟨rfl, rfl⟩ := eq_of_unitsOf_eq hone hread.toIsCanonical
    (by exact_mod_cast Option.some.inj hunits)
  rw [log10_of_ofFloat hread.ofFloat hm]
  decide +kernel

end AntennaArray.Binary64
