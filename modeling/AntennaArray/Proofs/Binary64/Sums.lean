import AntennaArray.Proofs.Binary64.Rounding

/-!
# Sums and differences in units

A sum or a difference of two finite doubles is the exact one in units, rounded to the nearest double
(`units?_add`, `units?_sub`).
-/

namespace AntennaArray.Binary64

open Float.Model (UnpackedFloat Format totalExponent)
open Float.Model.UnpackedFloat (Sign ExtendedMantissa)

/-! ## Rounding a mantissa -/

/-- A mantissa that is written with a lower exponent has the same units. -/
theorem unitsOf_shiftLeft {m : ℕ} {e t : ℤ} (hlow : -1074 ≤ t) (hle : t ≤ e) :
    unitsOf (m <<< (e - t).toNat) t = unitsOf m e := by
  have hexponent : (e + 1074).toNat = (e - t).toNat + (t + 1074).toNat := by omega
  rw [unitsOf, unitsOf, Nat.shiftLeft_eq, hexponent, Nat.pow_add, Nat.mul_assoc]

theorem log2_mul_two_pow {m : ℕ} (h : 0 < m) (k : ℕ) : (m * 2 ^ k).log2 = m.log2 + k := by
  induction k with
  | zero => simp
  | succ k ih =>
    have hpos : m * 2 ^ k ≠ 0 := (Nat.mul_pos h (Nat.two_pow_pos k)).ne'
    rw [Nat.pow_succ, ← Nat.mul_assoc, Nat.mul_comm _ 2, Nat.log2_two_mul hpos, ih]
    omega

/-- The places that are cut off depend on the units alone. -/
theorem cutPlaces_unitsOf {m : ℕ} (h : 0 < m) {e : ℤ} (he : -1074 ≤ e) :
    (cutPlaces (unitsOf m e) : ℤ) = Format.binary64.targetExponent (totalExponent m e) + 1074 := by
  have htarget : Format.binary64.targetExponent (totalExponent m e)
      = max ((m.log2 : ℤ) + 1 + e - 53) (-1074) := rfl
  rw [htarget, cutPlaces, unitsOf, log2_mul_two_pow h]
  omega

theorem shiftToExponent_exact (m : ℕ) (e t : ℤ) :
    UnpackedFloat.shiftToExponent m e .exact t = (cut m (t - e).toNat, e + (t - e).toNat) :=
  congrArg (·, _) (shiftRight_eq_cut m _)

/-- Rounding cuts off twice: the places that do not fit, and the one by which the rounded mantissa
may have grown. -/
theorem exists_of_shiftToTargetExponent (s : Sign) {m r : ℕ} {e t : ℤ}
    {accuracy : UnpackedFloat.Accuracy} {em : ExtendedMantissa}
    (hshift : UnpackedFloat.shiftToTargetExponent Format.binary64 m e accuracy = (em, t))
    (hr : em.roundedMantissa = r) (hpos : 0 < r) (hhigh : r ≤ 2 ^ 53) (hlow : -1074 ≤ t)
    (hnormal : 2 ^ 52 ≤ r ∨ t = -1074) :
    ∃ m' e' h, UnpackedFloat.roundWithAccuracy Format.binary64 s m e accuracy
        = .finite s m' e' h ∧ IsRounded m' e' ∧ unitsOf m' e' = unitsOf r t := by
  have htarget : Format.binary64.targetExponent (totalExponent r t)
      = max ((r.log2 : ℤ) + 1 + t - 53) (-1074) := rfl
  have hround (u : ℤ) (hu : Format.binary64.targetExponent (totalExponent r t) = u) :
      UnpackedFloat.roundWithAccuracy Format.binary64 s m e accuracy =
        if h : r / 2 ^ (u - t).toNat = 0 then .zero s
        else .finite s _ (t + (u - t).toNat) (Nat.pos_of_ne_zero h) := by
    rw [UnpackedFloat.roundWithAccuracy, hshift]
    simp only [hr, UnpackedFloat.shiftToTargetExponent, hu, shiftToExponent_exact, mantissa_cut]
  rcases hhigh.lt_or_eq with hlt | rfl
  · have hlog : r.log2 ≤ 52 := Nat.lt_succ_iff.mp ((Nat.log2_lt hpos.ne').mpr hlt)
    have hdone : ((max ((r.log2 : ℤ) + 1 + t - 53) (-1074)) - t).toNat = 0 := by omega
    refine ⟨r, t, hpos, ?_, ⟨hlt, hlow, hnormal⟩, rfl⟩
    rw [hround _ htarget]
    simp [hdone, hpos.ne']
  · have hnext : Format.binary64.targetExponent (totalExponent (2 ^ 53) t) = t + 1 := by
      have hlog : (2 ^ 53).log2 = 53 := by decide
      rw [htarget, hlog]
      omega
    refine ⟨2 ^ 52, t + 1, by decide, ?_, ⟨by decide, by omega, .inl le_rfl⟩, ?_⟩
    · rw [hround _ hnext]
      simp
    · have hexponent : (t + 1 + 1074).toNat = (t + 1074).toNat + 1 := by omega
      rw [unitsOf, unitsOf, hexponent]
      ring

/-- The mantissa is rounded as its units are. -/
theorem halfEven_unitsOf {m : ℕ} (hm : 0 < m) {e t : ℤ} (he : -1074 ≤ e) (hle : e ≤ t)
    (ht : Format.binary64.targetExponent (totalExponent m e) = t) :
    halfEven (unitsOf m e) (2 ^ cutPlaces (unitsOf m e)) = halfEven m (2 ^ (t - e).toNat) := by
  have hcut := cutPlaces_unitsOf hm he
  have hsplit : cutPlaces (unitsOf m e) = (t - e).toNat + (e + 1074).toNat := by omega
  rw [hsplit, Nat.pow_add, unitsOf, halfEven_mul_mul _ _ _ (Nat.two_pow_pos _)]

/-- A mantissa that is cut off is rounded, and its units are rounded as units are. -/
theorem exists_roundWithAccuracy (s : Sign) {m : ℕ} (hm : 0 < m) {e : ℤ} (he : -1074 ≤ e)
    (hle : e ≤ Format.binary64.targetExponent (totalExponent m e)) :
    ∃ m' e' h, UnpackedFloat.roundWithAccuracy Format.binary64 s m e .exact
        = .finite s m' e' h ∧ IsRounded m' e' ∧ unitsOf m' e' = roundNat (unitsOf m e) := by
  obtain ⟨t, ht⟩ : ∃ t, Format.binary64.targetExponent (totalExponent m e) = t := ⟨_, rfl⟩
  rw [ht] at hle
  obtain ⟨r, hr⟩ : ∃ r, halfEven m (2 ^ (t - e).toNat) = r := ⟨_, rfl⟩
  have hleft := (halfEven_unitsOf hm he hle ht).trans hr
  have hcut := cutPlaces_unitsOf hm he
  obtain ⟨hpos, hhigh, hnormal⟩ := halfEven_cutPlaces_mem (unitsOf_pos hm e).ne'
  rw [hleft] at hpos hhigh hnormal
  have hnormal : 2 ^ 52 ≤ r ∨ t = -1074 := hnormal.imp_right fun hzero => by omega
  have hunits : unitsOf r t = roundNat (unitsOf m e) := by
    have hplaces : (t + 1074).toNat = cutPlaces (unitsOf m e) := by omega
    rw [roundNat, hleft, unitsOf, hplaces]
  have hshift : UnpackedFloat.shiftToTargetExponent Format.binary64 m e .exact
      = (cut m (t - e).toNat, t) := by
    have hexponent : e + (t - e).toNat = t := by omega
    simp only [UnpackedFloat.shiftToTargetExponent, ht, shiftToExponent_exact, hexponent]
  rw [← hunits]
  exact exists_of_shiftToTargetExponent s hshift ((roundedMantissa_cut m _).trans hr) hpos hhigh
    (by omega) hnormal

/-- A mantissa and an exponent are rounded as their units are. -/
theorem exists_round (s : Sign) {m : ℕ} (hm : 0 < m) {e : ℤ} (he : -1074 ≤ e) :
    ∃ m' e' h, UnpackedFloat.round Format.binary64 s m e = .finite s m' e' h ∧
      IsRounded m' e' ∧ unitsOf m' e' = roundNat (unitsOf m e) := by
  obtain ⟨t, ht⟩ : ∃ t, Format.binary64.targetExponent (totalExponent m e) = t := ⟨_, rfl⟩
  have hlow : -1074 ≤ t := ht ▸ le_max_right _ _
  obtain ⟨k, hk⟩ : ∃ k, (e - t).toNat = k := ⟨_, rfl⟩
  -- the mantissa is first written with the exponent that it is to have, if that is lower
  have hround : UnpackedFloat.round Format.binary64 s m e
      = UnpackedFloat.roundWithAccuracy Format.binary64 s (m <<< k) (e - k) .exact := by
    rw [UnpackedFloat.round, ht, UnpackedFloat.decreaseExponent, hk]
  have hpos : 0 < m <<< k := by
    rw [Nat.shiftLeft_eq]
    exact Nat.mul_pos hm (Nat.two_pow_pos k)
  have htarget : Format.binary64.targetExponent (totalExponent (m <<< k) (e - k)) = t := by
    rw [← ht, totalExponent, totalExponent, Nat.shiftLeft_eq, log2_mul_two_pow hm]
    congr 1
    omega
  have hshift : (e - (e - k)).toNat = k := by omega
  have hunits := unitsOf_shiftLeft (m := m) (e := e) (t := e - k) (by omega) (by omega)
  rw [hshift] at hunits
  rw [hround, ← hunits]
  exact exists_roundWithAccuracy s hpos (by omega) (by omega)

/-! ## Packing -/

/-- The units of what is packed into a double. -/
def packedUnits? (u : UnpackedFloat) : Option ℤ :=
  unpackedUnits? (UnpackedFloat.unpack Format.binary64 (UnpackedFloat.pack Format.binary64 u))

/-- The units of what is put together from a sign, an exponent and a fraction. -/
theorem units_packComponents (s : Sign) {exponent : BitVec 11} {mantissa : BitVec 52}
    {field fraction : ℕ} (hexponent : exponent.toNat = field)
    (hmantissa : mantissa.toNat = fraction) :
    unpackedUnits? (UnpackedFloat.unpack Format.binary64
        (UnpackedFloat.packComponents Format.binary64 s exponent mantissa)) =
      if field = 2047 then if fraction = 0 then some (s.apply infinityUnits) else none
      else some (s.apply (fieldUnits field fraction)) := by
  rw [unpackedUnits?_unpack, UnpackedFloat.unpackSign_packComponents,
    UnpackedFloat.unpackExponent_packComponents, UnpackedFloat.unpackMantissa_packComponents,
    hexponent, hmantissa, Sign.ofBitVec_toBitVec]

theorem packedUnits?_zero (s : Sign) : packedUnits? (.zero s) = some 0 := by
  cases s <;> decide +kernel

/-- A leading bit is what tells a normal number from a subnormal one. -/
theorem log2_add_one_eq_iff {m : ℕ} (hm : 0 < m) (hlt : m < 2 ^ 53) :
    m.log2 + 1 = Format.binary64.mantissaBits ↔ 2 ^ 52 ≤ m := by
  rw [← Nat.le_log2 hm.ne']
  have hlog : m.log2 < 53 := (Nat.log2_lt hm.ne').mpr hlt
  show m.log2 + 1 = 53 ↔ _
  omega

theorem packedUnits?_overflow (s : Sign) {m : ℕ} {e : ℤ} (hm : 0 < m) (hhigh : 971 < e) :
    packedUnits? (.finite s m e hm) = some (s.apply infinityUnits) := by
  have hinfinity := units_packComponents s (show (-1#11).toNat = 2047 from rfl)
    (show (0#52).toNat = 0 from rfl)
  rw [if_pos rfl, if_pos rfl] at hinfinity
  rw [packedUnits?, UnpackedFloat.pack]
  dsimp only
  rw [if_pos (by show 2 ^ 11 ≤ (e + 1023 + 52).toNat + 1; omega)]
  exact hinfinity

theorem packedUnits?_normal (s : Sign) {m : ℕ} {e : ℤ} (hm : 0 < m) (h : IsCanonical m e)
    (hbit : 2 ^ 52 ≤ m) : packedUnits? (.finite s m e hm) = some (s.apply (unitsOf m e)) := by
  obtain ⟨⟨hlt, hlow, -⟩, hhigh⟩ := h
  obtain ⟨field, hfield⟩ : ∃ field : ℕ, (e + Format.binary64.exponentBias
      + Format.binary64.mantissaBitsWithoutImplicit).toNat = field := ⟨_, rfl⟩
  have hfield' : field = (e + 1023 + 52).toNat := hfield.symm
  have hplaces : (e + 1074).toNat = field - 1 := by omega
  have hexponent : (BitVec.ofNat 11 field).toNat = field := by
    rw [BitVec.toNat_ofNat]
    omega
  have hfraction : (BitVec.ofNat 52 m).toNat = m - 2 ^ 52 := by
    rw [BitVec.toNat_ofNat]
    omega
  rw [packedUnits?, UnpackedFloat.pack]
  simp only [hfield]
  rw [if_neg (by show ¬2 ^ 11 ≤ field + 1; omega), if_pos ((log2_add_one_eq_iff hm hlt).mpr hbit),
    units_packComponents s hexponent hfraction, if_neg (by omega), fieldUnits, if_neg (by omega),
    Nat.add_sub_of_le hbit, unitsOf, hplaces]

theorem packedUnits?_subnormal (s : Sign) {m : ℕ} (hm : 0 < m) (hlt : m < 2 ^ 52) :
    packedUnits? (.finite s m (-1074) hm) = some (s.apply (unitsOf m (-1074))) := by
  have hbit : ¬2 ^ 52 ≤ m := Nat.not_le_of_lt hlt
  have hfraction : (BitVec.ofNat 52 m).toNat = m := by
    rw [BitVec.toNat_ofNat]
    omega
  have hexponent : (0#11).toNat = 0 := rfl
  rw [packedUnits?, UnpackedFloat.pack]
  dsimp only
  rw [if_neg (by decide), if_neg (mt (log2_add_one_eq_iff hm (by omega)).mp hbit),
    units_packComponents s hexponent hfraction, if_neg (by decide), fieldUnits, if_pos rfl]
  simp [unitsOf]

/-- What is rounded is packed as it is, or as infinity where it is too large. -/
theorem packedUnits?_finite (s : Sign) {m : ℕ} {e : ℤ} (hm : 0 < m) (h : IsRounded m e) :
    packedUnits? (.finite s m e hm) = some (s.apply (min (unitsOf m e) infinityUnits : ℕ)) := by
  by_cases hhigh : e ≤ 971
  · rw [min_eq_left (IsCanonical.unitsOf_lt_infinityUnits ⟨h, hhigh⟩).le]
    by_cases hbit : 2 ^ 52 ≤ m
    · exact packedUnits?_normal s hm ⟨h, hhigh⟩ hbit
    · obtain rfl := h.normal.resolve_left hbit
      exact packedUnits?_subnormal s hm (Nat.lt_of_not_le hbit)
  · have hbit : 2 ^ 52 ≤ m := h.normal.resolve_right (by omega)
    rw [min_eq_right (infinityUnits_le_unitsOf hbit (by omega))]
    exact packedUnits?_overflow s hm (by omega)

/-- The magnitude of a double has no places to cut off. -/
theorem roundNat_unitsOf {m : ℕ} {e : ℤ} (hm : 0 < m) (h : IsRounded m e) :
    roundNat (unitsOf m e) = unitsOf m e := by
  have hlog : m.log2 < 53 := (Nat.log2_lt hm.ne').mpr h.lt
  refine roundNat_of_dvd ((Nat.pow_dvd_pow 2 ?_).trans (Nat.dvd_mul_left _ m))
  rw [cutPlaces, unitsOf, log2_mul_two_pow hm]
  omega

/-- Rounding leaves what is finite alone. -/
theorem roundUnits_of_isFinite {u : UnpackedFloat} (hu : IsUnpacked u)
    (hfinite : u.isFinite = true) {a : ℤ} (ha : unpackedUnits? u = some a) :
    roundUnits a = a := by
  cases u with
  | notANumber | infinity s => cases hfinite
  | zero s =>
    cases ha
    exact roundUnits_zero
  | finite s m e hm =>
    cases ha
    have hround : roundUnits (unitsOf m e) = unitsOf m e := by
      rw [roundUnits_natCast, roundNat_unitsOf hm hu.toIsRounded,
        min_eq_left hu.unitsOf_lt_infinityUnits.le]
    cases s with
    | positive => exact hround
    | negative => exact (roundUnits_neg _).trans (congrArg Neg.neg hround)

/-- What is finite is packed exactly. -/
theorem packedUnits?_of_isFinite {u : UnpackedFloat} (hu : IsUnpacked u)
    (hfinite : u.isFinite = true) {a : ℤ} (ha : unpackedUnits? u = some a) :
    packedUnits? u = some a := by
  cases u with
  | notANumber | infinity s => cases hfinite
  | zero s =>
    cases ha
    exact packedUnits?_zero s
  | finite s m e hm =>
    cases ha
    rw [packedUnits?_finite s hm hu.toIsRounded, min_eq_left hu.unitsOf_lt_infinityUnits.le]

/-- A multiple of a power of two is rounded as its units are. -/
theorem packedUnits?_normalize (k : ℤ) {e : ℤ} (he : -1074 ≤ e) :
    packedUnits? (UnpackedFloat.normalize Format.binary64 k e .positive)
      = some (roundUnits (k * 2 ^ (e + 1074).toNat)) := by
  have hround (s : Sign) {n : ℕ} (hn : 0 < n) :
      packedUnits? (UnpackedFloat.round Format.binary64 s n e)
        = some (s.apply (roundUnits (unitsOf n e))) := by
    obtain ⟨m', e', hm', heq, hrounded, hunits⟩ := exists_round s hn he
    rw [heq, packedUnits?_finite s hm' hrounded, hunits, roundUnits_natCast]
  rw [UnpackedFloat.normalize]
  rcases lt_trichotomy k 0 with hlt | rfl | hgt
  · obtain ⟨n, rfl⟩ : ∃ n : ℕ, k = -n := ⟨k.natAbs, by omega⟩
    have hunits : (-(n : ℤ)) * 2 ^ (e + 1074).toNat = -(unitsOf n e : ℤ) := by
      rw [unitsOf]
      push_cast
      ring
    rw [compare_lt_iff_lt.mpr hlt, hunits, roundUnits_neg]
    simp only [neg_neg, Int.toNat_natCast]
    exact hround .negative (by omega)
  · rw [compare_eq_iff_eq.mpr rfl, zero_mul, roundUnits_zero]
    exact packedUnits?_zero _
  · obtain ⟨n, rfl⟩ : ∃ n : ℕ, k = n := ⟨k.natAbs, by omega⟩
    have hunits : (n : ℤ) * 2 ^ (e + 1074).toNat = (unitsOf n e : ℤ) := by
      rw [unitsOf]
      push_cast
      ring
    rw [compare_gt_iff_gt.mpr hgt, hunits]
    simp only [Int.toNat_natCast]
    exact hround .positive (by omega)

/-! ## Sums -/

theorem apply_mul (s : Sign) (a b : ℤ) : s.apply a * b = s.apply (a * b) := by
  cases s with
  | positive => rfl
  | negative => exact neg_mul a b

/-- Two mantissas are added once they have one exponent, the lower one. -/
theorem packedUnits?_add {u v : UnpackedFloat} (hu : IsUnpacked u) (hv : IsUnpacked v)
    (hfu : u.isFinite = true) (hfv : v.isFinite = true) {a b : ℤ}
    (ha : unpackedUnits? u = some a) (hb : unpackedUnits? v = some b) :
    packedUnits? (UnpackedFloat.add Format.binary64 u v) = some (roundUnits (a + b)) := by
  cases u with
  | notANumber | infinity s => cases hfu
  | zero s =>
    cases ha
    rw [zero_add]
    cases v with
    | notANumber | infinity t => cases hfv
    | zero t =>
      cases hb
      rw [roundUnits_zero, UnpackedFloat.add]
      split <;> exact packedUnits?_zero _
    | finite t n f hn =>
      rw [roundUnits_of_isFinite hv hfv hb]
      exact packedUnits?_of_isFinite hv hfv hb
  | finite s m e hm =>
    cases v with
    | notANumber | infinity t => cases hfv
    | zero t =>
      cases hb
      rw [add_zero, roundUnits_of_isFinite hu hfu ha]
      exact packedUnits?_of_isFinite hu hfu ha
    | finite t n f hn =>
      cases ha
      cases hb
      have hlow : -1074 ≤ min e f := le_min hu.low hv.low
      have hterm (r : Sign) (k : ℕ) (g : ℤ) (hg : min e f ≤ g) :
          r.apply (k <<< (g - min e f).toNat : ℕ) * 2 ^ (min e f + 1074).toNat
            = r.apply (unitsOf k g) := by
        rw [apply_mul, ← unitsOf_shiftLeft hlow hg, unitsOf]
        push_cast
        rfl
      rw [← hterm s m e (min_le_left _ _), ← hterm t n f (min_le_right _ _), ← add_mul]
      exact packedUnits?_normalize _ hlow

theorem apply_neg (s : Sign) (a : ℤ) : (-s).apply a = -s.apply a := by
  cases s with
  | positive => rfl
  | negative => exact (neg_neg a).symm

theorem unpackedUnits?_neg (u : UnpackedFloat) :
    unpackedUnits? u.neg = (unpackedUnits? u).map (-·) := by
  cases u with
  | notANumber => rfl
  | zero s => rfl
  | infinity s => exact congrArg some (apply_neg s _)
  | finite s m e hm => exact congrArg some (apply_neg s _)

theorem isUnpacked_neg {u : UnpackedFloat} (h : IsUnpacked u) : IsUnpacked u.neg := by
  cases u with
  | finite s m e hm => exact h
  | _ => trivial

theorem isFinite_neg (u : UnpackedFloat) : u.neg.isFinite = u.isFinite := by
  cases u <;> rfl

theorem sub_eq_add_neg (u v : UnpackedFloat) :
    UnpackedFloat.sub Format.binary64 u v = UnpackedFloat.add Format.binary64 u v.neg := by
  cases u with
  | finite s m e hm =>
    cases v with
    | finite t n f hn =>
      simp only [UnpackedFloat.neg, UnpackedFloat.sub, UnpackedFloat.add, apply_neg,
        Int.sub_eq_add_neg]
    | _ => rfl
  | _ => cases v <;> rfl

variable {x y : Float} {a b : ℤ}

/-- The sum of two finite doubles is the exact one, rounded. -/
theorem units?_add (hx : x.isFinite = true) (hy : y.isFinite = true) (ha : units? x = some a)
    (hb : units? y = some b) : units? (x + y) = some (roundUnits (a + b)) :=
  packedUnits?_add (isUnpacked_unpack _) (isUnpacked_unpack _) hx hy ha hb

/-- The difference of two finite doubles is the exact one, rounded. -/
theorem units?_sub (hx : x.isFinite = true) (hy : y.isFinite = true) (ha : units? x = some a)
    (hb : units? y = some b) : units? (x - y) = some (roundUnits (a - b)) := by
  have hneg : unpackedUnits? y.toModel.unpack.neg = some (-b) := by
    rw [unpackedUnits?_neg, show unpackedUnits? y.toModel.unpack = some b from hb]
    rfl
  have hfinite : y.toModel.unpack.neg.isFinite = true := (isFinite_neg _).trans hy
  show packedUnits? (UnpackedFloat.sub Format.binary64 x.toModel.unpack y.toModel.unpack) = _
  rw [sub_eq_add_neg, Int.sub_eq_add_neg]
  exact packedUnits?_add (isUnpacked_unpack _) (isUnpacked_neg (isUnpacked_unpack _)) hx hfinite
    ha hneg

/-- Rounding leaves the units of a finite double alone. -/
theorem roundUnits_of_units? (hx : x.isFinite = true) (ha : units? x = some a) :
    roundUnits a = a :=
  roundUnits_of_isFinite (isUnpacked_unpack _) hx ha

end AntennaArray.Binary64
