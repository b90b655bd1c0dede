import AntennaArray.PhasedArray
import AntennaArray.Proofs.Binary64.Powers
import AntennaArray.Proofs.CosineExponent

/-!
# The greatest gain, in doubles

An element that is accepted has a greatest gain among its parameters, and no direction has more, as
doubles are (`gain_isAtMost`): the factors of a cosine pattern are bounded by one, and what a
parabolic pattern takes off is not negative. Angles may round to anything, or be no numbers at all;
the bounds hold for every double that is put in. So the field of an element is bounded by the
amplitude of its greatest gain.
-/

namespace AntennaArray

open Binary64 (units? unitsOf IsBounded)

variable {x y : Float} {a b c : ℤ}

/-- The double is at most the bound, or it is not a number. -/
def IsAtMost (bound x : Float) : Prop := x.isNaN = true ∨ x ≤ bound

theorem isAtMost_of_forall {bound : Float} (h : ∀ a, units? x = some a → x ≤ bound) :
    IsAtMost bound x := by
  cases hx : units? x with
  | none => exact .inl (Binary64.isNaN_iff.mpr hx)
  | some a => exact .inr (h a hx)

/-! ## Cosine patterns -/

/-- The amplitude of a cosine pattern is bounded by one. -/
theorem Radiator.isBounded_cosineAmplitude {h v : Float} (hh : h.isFinite = true) (hh0 : 0 ≤ h)
    (hv : v.isFinite = true) (hv0 : 0 ≤ v) (o : Float) (d : Direction Float) :
    IsBounded (unitsOf 1 0) (cosineAmplitude h v o d) := by
  exact (Binary64.isBounded_pow (Binary64.isBounded_cos _) hh hh0).mul
    (Binary64.isBounded_pow (Binary64.isBounded_cos _) hv hv0) Binary64.roundNat_one
    Binary64.unitsOf_one_lt

/-- The level of a bounded amplitude is not positive, and adding it does not raise a gain. -/
theorem isAtMost_ofAmplitude_add {g : Float} (hx : IsBounded (unitsOf 1 0) x)
    (hg : g.isFinite = true) :
    IsAtMost g ((LevelScale.ofAmplitude x : Float) + LevelScale.ofDecibels g) := by
  refine isAtMost_of_forall fun a ha => ?_
  obtain ⟨⟨b, hb⟩, -⟩ := Binary64.exists_of_add ha
  obtain ⟨⟨k, hk⟩, c, hc⟩ := Binary64.exists_of_mul hb
  have hpos : 0 ≤ k := Binary64.units?_nonneg (x := 20) (by decide) hk
  have hlevel := (Binary64.mul_signs hk hc hb).2
    (Int.mul_nonpos_of_nonneg_of_nonpos hpos (Binary64.log10_nonpos hx hc))
  exact Binary64.add_le_of_nonpos
    (Binary64.le_iff.mpr ⟨b, 0, hb, Binary64.units?_zero, hlevel⟩) hg

/-- A beamwidth that fits and is not degenerate has an exponent that is not negative. -/
theorem Beamwidth.Fits.exponent_mem {w : Beamwidth Number} (h : w.Fits)
    (hscreen : Element.screenExponent w = .ok ()) :
    (w.map Number.toDouble).exponent.isFinite = true ∧ 0 ≤ (w.map Number.toDouble).exponent := by
  cases w with
  | unlimited => decide
  | degrees n =>
    obtain ⟨hpos, hlt⟩ := Arguments.holds_beamwidth_iff.mp
      (Number.Fits.holds h _ (List.mem_singleton.mpr rfl))
    have h0 := Binary64.le_of_lt hpos
    have h360 := Binary64.le_of_lt hlt
    have hflat : ¬Beamwidth.IsFlat n.toDouble := by
      intro hflat
      have hdegenerate : ((degrees n).map Number.toDouble).isDegenerate = true :=
        (Beamwidth.isDegenerate_iff h0 h360).mpr hflat
      rw [Element.screenExponent, if_pos hdegenerate] at hscreen
      cases hscreen
    obtain ⟨hexponent, hfinite⟩ := Beamwidth.exponent_mem h0 h360 hflat
    exact ⟨hfinite, Binary64.le_of_lt hexponent⟩

/-! ## Parabolic patterns -/

/-- The smaller of a floor and something that is not negative is no number, or lies between none
and the floor. -/
theorem minimum_mem {floor : Float} (hfloor : floor.isFinite = true) (h0 : 0 ≤ floor)
    (hx : ∀ b, units? x = some b → 0 ≤ b) (hc : units? (Scalar.minimum floor x) = some c) :
    (Scalar.minimum floor x).isFinite = true ∧ 0 ≤ Scalar.minimum floor x := by
  rw [Scalar.minimum] at hc ⊢
  split at hc
  · next hle =>
    rw [if_pos hle]
    exact ⟨hfloor, h0⟩
  · next hle =>
    rw [if_neg hle]
    have hnonneg : 0 ≤ x := Binary64.le_iff.mpr ⟨0, c, Binary64.units?_zero, hc, hx c hc⟩
    have hless : ¬floor ≤ x := fun h => hle (Bool.or_eq_true_iff.mpr (.inr (decide_eq_true h)))
    have hnumber : floor.isNaN = false := by
      obtain ⟨a, ha, -⟩ := Binary64.isFinite_iff.mp hfloor
      exact Binary64.isNaN_eq_false_iff.mpr ⟨a, ha⟩
    have hlt := Binary64.lt_of_not_le hnumber (Binary64.isNaN_eq_false_iff.mpr ⟨c, hc⟩) hless
    exact ⟨Binary64.isFinite_of_le_of_le (by decide) hfloor hnonneg (Binary64.le_of_lt hlt),
      hnonneg⟩

/-- What is taken off along one parabola is finite, and it does not raise the gain. -/
theorem attenuation_mem {floor : Float} (hfloor : floor.isFinite = true) (h0 : 0 ≤ floor)
    (width angle : Float) (hc : units? (Radiator.attenuation floor width angle) = some c) :
    (Radiator.attenuation floor width angle).isFinite = true ∧ c ≤ 0 := by
  have hsquare : ∀ b, units? (Scalar.ofInt 12 * Scalar.square (angle / width)) = some b →
      0 ≤ b := by
    intro b hb
    obtain ⟨⟨k, hk⟩, a, ha⟩ := Binary64.exists_of_mul hb
    have hpos : 0 ≤ k := Binary64.units?_nonneg (x := Scalar.ofInt 12) (by decide) hk
    have hnonneg := Binary64.units?_mul_self_nonneg ha
    exact (Binary64.mul_signs hk ha hb).1 (Int.mul_nonneg hpos hnonneg)
  rw [Radiator.attenuation] at hc ⊢
  obtain ⟨b, hb, rfl⟩ := Option.map_eq_some_iff.mp ((Binary64.units?_neg _).symm.trans hc)
  obtain ⟨hfinite, hnonneg⟩ := minimum_mem hfloor h0 hsquare hb
  have hlt := Binary64.natAbs_lt_of_isFinite hfinite hb
  have hle := Binary64.units?_nonneg hnonneg hb
  exact ⟨Binary64.isFinite_iff.mpr ⟨_, hc, by omega⟩, by omega⟩

/-- The gain of a parabolic pattern is at most its greatest gain. -/
theorem Radiator.isAtMost_parabolicGain (p : ParabolicPattern Float)
    (hmax : p.maxAttenuation.isFinite = true) (hmax0 : 0 ≤ p.maxAttenuation)
    (hside : p.sideLobeAttenuation.isFinite = true) (hside0 : 0 ≤ p.sideLobeAttenuation)
    (hgain : p.maxGain.isFinite = true) (d : Direction Float) :
    IsAtMost p.maxGain (parabolicGain p d) := by
  refine isAtMost_of_forall fun a ha => ?_
  rw [parabolicGain] at ha ⊢
  obtain ⟨-, b, hb⟩ := Binary64.exists_of_sub ha
  have hsum : ∀ c, units? (-(attenuation p.sideLobeAttenuation p.vertical
      (Angle.toDegrees (relative p.orientation d).theta - Scalar.ofInt 90)
        + attenuation p.maxAttenuation p.horizontal
          (Angle.toDegrees (relative p.orientation d).phi))) = some c → 0 ≤ c := by
    intro c hc
    obtain ⟨s, hs, rfl⟩ := Option.map_eq_some_iff.mp ((Binary64.units?_neg _).symm.trans hc)
    obtain ⟨⟨v, hv⟩, h, hh⟩ := Binary64.exists_of_add hs
    obtain ⟨hfinite, hv0⟩ := attenuation_mem hside hside0 _ _ hv
    obtain ⟨hfinite', hh0⟩ := attenuation_mem hmax hmax0 _ _ hh
    rw [Binary64.units?_add hfinite hfinite' hv hh] at hs
    cases hs
    have hle : Binary64.roundUnits (v + h) ≤ Binary64.roundUnits 0 :=
      Binary64.roundUnits_mono (by omega)
    rw [Binary64.roundUnits_zero] at hle
    omega
  obtain ⟨hfinite, hnonneg⟩ := minimum_mem hmax hmax0 hsum hb
  exact Binary64.sub_le_of_nonneg hgain hfinite hnonneg

/-! ## Accepted elements -/

namespace Element

/-- The gain that no direction exceeds, in decibels. -/
def greatestGain {α : Type} [Scalar α] : Element α → α
  | .isotropic => Scalar.zero
  | .cosine p => p.maxGain
  | .parabolic p => p.maxGain
  | .sector p => p.maxGain

theorem isFinite_of_fits {n : Number} {required : List Requirement} (h : n.Fits required)
    (hfinite : Requirement.finite ∈ required) : n.toDouble.isFinite = true :=
  h.holds _ hfinite

/-- What is finite and not below zero is at least zero. -/
theorem nonneg_of_fits {n : Number} (h : n.Fits [.finite, .nonNegative]) :
    n.toDouble.isFinite = true ∧ 0 ≤ n.toDouble := by
  have hfinite := isFinite_of_fits h (by decide)
  have hnonneg := h.holds .nonNegative (by decide)
  obtain ⟨a, ha, -⟩ := Binary64.isFinite_iff.mp hfinite
  refine ⟨hfinite, Binary64.le_of_not_lt (Binary64.isNaN_eq_false_iff.mpr ⟨a, ha⟩) (by decide) ?_⟩
  intro hlt
  have hless : Scalar.lt n.toDouble Scalar.zero = true := decide_eq_true hlt
  rw [Requirement.holds, hless] at hnonneg
  cases hnonneg

/-- No direction has more than the greatest gain. -/
theorem gain_isAtMost {e : Element Number} (he : e.IsValid) (d : Direction Float) :
    IsAtMost e.toDoubles.greatestGain (e.toDoubles.radiator.gain d) := by
  cases e with
  | isotropic =>
    have hzero : (Scalar.zero : Float) ≤ Scalar.zero := by decide
    exact .inr hzero
  | cosine p =>
    obtain ⟨hh, hh0⟩ := he.horizontal.exponent_mem he.horizontalExponent
    obtain ⟨hv, hv0⟩ := he.vertical.exponent_mem he.verticalExponent
    exact isAtMost_ofAmplitude_add (Radiator.isBounded_cosineAmplitude hh hh0 hv hv0 _ d)
      (isFinite_of_fits he.maxGain (by decide))
  | parabolic p =>
    obtain ⟨hmax, hmax0⟩ := nonneg_of_fits he.maxAttenuation
    obtain ⟨hside, hside0⟩ := nonneg_of_fits he.sideLobeAttenuation
    exact Radiator.isAtMost_parabolicGain ⟨p.horizontal.toDouble, p.vertical.toDouble,
      p.maxAttenuation.toDouble, p.sideLobeAttenuation.toDouble, p.maxGain.toDouble,
      Angle.toRadians p.orientation.toDouble⟩ hmax hmax0 hside hside0
      (isFinite_of_fits he.maxGain (by decide)) d
  | sector p =>
    obtain ⟨hmax, hmax0⟩ := nonneg_of_fits he.maxAttenuation
    obtain ⟨hside, hside0⟩ := nonneg_of_fits he.sideLobeAttenuation
    exact Radiator.isAtMost_parabolicGain ⟨p.horizontal.toDouble, p.vertical.toDouble,
      p.maxAttenuation.toDouble, p.sideLobeAttenuation.toDouble, p.maxGain.toDouble, Scalar.zero⟩
      hmax hmax0 hside hside0 (isFinite_of_fits he.maxGain (by decide)) d

end Element

/-! ## Fields -/

/-- The units of the greatest double whose square is finite. -/
def squarableUnits : ℕ := unitsOf (2 ^ 53 - 1) 459

theorem isCanonical_squarable : Binary64.IsCanonical (2 ^ 53 - 1) 459 :=
  ⟨⟨by decide, by decide, .inl (by decide)⟩, by decide⟩

theorem squarableUnits_lt : squarableUnits < unitsOf 1 512 := by
  rw [squarableUnits, Binary64.unitsOf_one_eq (by decide)]
  exact isCanonical_squarable.unitsOf_lt_unitsOf
    (Binary64.isCanonical_two_pow (by decide) (by decide)) (by decide)

/-- Up to 3082 decibels the amplitude has a finite square. -/
theorem isBounded_amplitude {g : Float} (h : IsAtMost 3082 g) :
    IsBounded squarableUnits (LevelScale.amplitude g) := by
  have hamplitude : (LevelScale.amplitude g : Float) = Binary64.pow 10 (g / 20) := rfl
  rw [hamplitude]
  cases hquotient : units? (g / 20) with
  | none =>
    rw [Binary64.pow_ten_of_units?_none hquotient]
    exact Binary64.isBounded_nan
  | some a =>
    obtain ⟨⟨b, hb⟩, -⟩ := Binary64.exists_of_div hquotient
    have hle : g ≤ 3082 := h.resolve_left (by
      rw [Binary64.isNaN_eq_false_iff.mpr ⟨b, hb⟩]
      exact Bool.false_ne_true)
    have hexponent : g / 20 ≤ 154.1 := by
      calc g / 20 ≤ 3082 / 20 :=
            Binary64.div_le_div_of_isFinite hle (by decide) (by decide) (by decide)
        _ ≤ 154.1 := by decide
    obtain ⟨hnonneg, hpower⟩ :=
      Binary64.pow_ten_mem hexponent (by decide) (by decide +kernel)
    have hlimit : units? (Binary64.round false (2 ^ 53 - 1) 459) = some (squarableUnits : ℤ) :=
      Binary64.units?_round false (by decide) (by decide) (by decide)
    refine Binary64.isBounded_of_mem hnonneg ?_ hlimit
    calc Binary64.pow 10 (g / 20) ≤ Binary64.pow 10 154.1 := hpower
      _ ≤ Binary64.round false (2 ^ 53 - 1) 459 := by decide +kernel

/-- Both components of the field of an element of at most 3082 decibels have finite squares. -/
theorem PhasedArray.isBounded_field {e : Element Number} (he : e.IsValid)
    (hgain : e.toDoubles.greatestGain ≤ 3082) (p : Placement Float) (d : Direction Float) :
    IsBounded squarableUnits ((PhasedArray.of p e.toDoubles).field d).phi ∧
      IsBounded squarableUnits ((PhasedArray.of p e.toDoubles).field d).theta := by
  have hround : Binary64.roundNat squarableUnits = squarableUnits :=
    Binary64.roundNat_unitsOf (by decide) isCanonical_squarable.toIsRounded
  have hlt : squarableUnits < Binary64.infinityUnits :=
    isCanonical_squarable.unitsOf_lt_infinityUnits
  have hlevel := Element.gain_isAtMost he ((PhasedArray.of p e.toDoubles).rotation.toLocal d)
  have hamplitude := isBounded_amplitude (hlevel.imp_right fun hle => Trans.trans hle hgain)
  exact ⟨(Binary64.isBounded_sin _).mul hamplitude hround hlt,
    (Binary64.isBounded_cos _).mul hamplitude hround hlt⟩

end AntennaArray
