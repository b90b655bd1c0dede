import AntennaArray.Proofs.Accepted
import AntennaArray.Proofs.Binary64.Elementary

/-!
# Exponents in doubles

A cosine pattern divides by the level of a cosine at a quarter of its beamwidth. Every step to that
level is monotone on doubles, so the level of any beamwidth below a full turn is bounded by those of
the ends of the range: it is never undefined or infinite, and it is negative unless the cosine
rounds to one. That is where the range of beamwidths that are documented and the one that is
accepted part (`constructsAsDocumented_iff`): up to `2.2e-6` degrees there is no exponent, from
`2.6e-6` degrees on there is one.
-/

namespace AntennaArray

open Binary64 (rightAngle flatAngle steepAngle ofFixed)

namespace Beamwidth

variable {w w' : Float}

/-! ## A quarter of a beamwidth -/

def quarter (w : Float) : Float := Angle.toRadians w / Scalar.ofInt 4

/-- The cosine of a quarter of the beamwidth is one, as doubles are. -/
def IsFlat (w : Float) : Prop := (Binary64.cos (quarter w) == 1) = true

/-- What lies between no angle and a full turn is finite. -/
theorem isFinite_of_mem (h0 : 0 ≤ w) (h360 : w ≤ 360) : w.isFinite = true :=
  Binary64.isFinite_of_le_of_le (by decide) (by decide) h0 h360

theorem toRadians_mono (h0 : 0 ≤ w) (h : w ≤ w') (h360 : w' ≤ 360) :
    Angle.toRadians w ≤ Angle.toRadians w' := by
  have hw : w.isFinite = true := isFinite_of_mem h0 (Trans.trans h h360)
  have hw' : w'.isFinite = true := isFinite_of_mem (Trans.trans h0 h) h360
  exact Binary64.mul_le_mul_right hw hw' (by decide) h (by decide)

theorem toRadians_mem (h0 : 0 ≤ w) (h360 : w ≤ 360) :
    0 ≤ Angle.toRadians w ∧ Angle.toRadians w ≤ Angle.toRadians 360 := by
  constructor
  · calc (0 : Float) ≤ Angle.toRadians 0 := by decide
      _ ≤ Angle.toRadians w := toRadians_mono (by decide) h0 h360
  · exact toRadians_mono h0 h360 (by decide)

theorem quarter_mono (h0 : 0 ≤ w) (h : w ≤ w') (h360 : w' ≤ 360) : quarter w ≤ quarter w' := by
  have hfinite {u : Float} (hu : 0 ≤ u) (hu' : u ≤ 360) : (Angle.toRadians u).isFinite = true := by
    obtain ⟨hlow, hhigh⟩ := toRadians_mem hu hu'
    exact Binary64.isFinite_of_le_of_le (by decide) (by decide) hlow hhigh
  exact Binary64.div_le_div_right (hfinite h0 (Trans.trans h h360))
    (hfinite (Trans.trans h0 h) h360) (by decide) (toRadians_mono h0 h h360) (by decide)

theorem quarter_mem (h0 : 0 ≤ w) (h360 : w ≤ 360) : 0 ≤ quarter w ∧ quarter w ≤ rightAngle := by
  constructor
  · calc (0 : Float) ≤ quarter 0 := by decide
      _ ≤ quarter w := quarter_mono (by decide) h0 h360
  · calc quarter w ≤ quarter 360 := quarter_mono h0 h360 (by decide)
      _ ≤ rightAngle := by decide

/-- The cosine of a quarter of any beamwidth up to a full turn is positive and at most one. -/
theorem cos_quarter_mem (h0 : 0 ≤ w) (h360 : w ≤ 360) :
    ofFixed 1 ≤ Binary64.cos (quarter w) ∧ Binary64.cos (quarter w) ≤ 1 := by
  obtain ⟨hlow, hhigh⟩ := quarter_mem h0 h360
  exact Binary64.cos_mem_of_le_rightAngle hlow hhigh

/-- A beamwidth of a few millionths of a degree is flat. -/
theorem isFlat_of_le (h0 : 0 ≤ w) (h : w ≤ 2.2e-6) : IsFlat w := by
  have hle : quarter w ≤ flatAngle := by
    calc quarter w ≤ quarter 2.2e-6 := quarter_mono h0 h (by decide)
      _ ≤ flatAngle := by decide
  have h360 : w ≤ 360 := by
    calc w ≤ 2.2e-6 := h
      _ ≤ 360 := by decide
  exact Binary64.beq_of_le_of_le (cos_quarter_mem h0 h360).2
    (Binary64.one_le_cos (quarter_mem h0 h360).1 hle)

/-- A beamwidth that is a little greater is not flat any more. -/
theorem not_isFlat_of_le (h : 2.6e-6 ≤ w) (h360 : w ≤ 360) : ¬IsFlat w := by
  have h0 : 0 ≤ w := by
    calc (0 : Float) ≤ 2.6e-6 := by decide
      _ ≤ w := h
  have hle : steepAngle ≤ quarter w := by
    calc steepAngle ≤ quarter 2.6e-6 := by decide
      _ ≤ quarter w := quarter_mono (by decide) h h360
  rw [IsFlat, Binary64.beq_eq_false_of_lt (Binary64.cos_lt_one hle (quarter_mem h0 h360).2)]
  exact Bool.false_ne_true

/-! ## The exponent -/

/-- The level of a beamwidth that is not flat is negative, and bounded. -/
theorem edgeLevel_mem (h0 : 0 ≤ w) (h360 : w ≤ 360) (h : ¬IsFlat w) :
    Scalar.ofInt 20 * ofFixed (-130 * FixedPoint.unit) ≤ edgeLevel w ∧
      edgeLevel w ≤ Scalar.ofInt 20 * ofFixed (-1) := by
  obtain ⟨hlow, hhigh⟩ := cos_quarter_mem h0 h360
  have hnumber : (Binary64.cos (quarter w)).isNaN = false := by
    obtain ⟨a, -, ha, -⟩ := Binary64.le_iff.mp hhigh
    exact Binary64.isNaN_eq_false_iff.mpr ⟨a, ha⟩
  have hlt : Binary64.cos (quarter w) < 1 :=
    Binary64.lt_of_not_le (by decide) hnumber fun hle =>
      h (Binary64.beq_of_le_of_le hhigh hle)
  have hpos : 0 < Binary64.cos (quarter w) := by
    calc (0 : Float) < ofFixed 1 := Binary64.ofFixed_one_pos
      _ ≤ Binary64.cos (quarter w) := hlow
  have hbelow := Binary64.le_log10 hlow hlt
  have habove := Binary64.log10_le hpos hlt
  have hleft : (ofFixed (-130 * FixedPoint.unit)).isFinite = true := by decide
  have hright : (ofFixed (-1)).isFinite = true := by decide
  have hlevel := Binary64.isFinite_of_le_of_le hleft hright hbelow habove
  constructor
  · exact Binary64.mul_le_mul_left hleft hlevel (by decide) hbelow (by decide)
  · exact Binary64.mul_le_mul_left hlevel hright (by decide) habove (by decide)

/-- The level of a flat beamwidth is zero. -/
theorem units?_edgeLevel_of_isFlat (h : IsFlat w) : Binary64.units? (edgeLevel w) = some 0 := by
  have hlog := Binary64.units?_log10_of_beq_one h
  have hfinite : (Binary64.log10 (Binary64.cos (quarter w))).isFinite = true :=
    Binary64.isFinite_iff.mpr ⟨0, hlog, Binary64.infinityUnits_pos⟩
  have htwenty : (Scalar.ofInt 20 : Float).isFinite = true := by decide
  obtain ⟨a, ha, -⟩ := Binary64.isFinite_iff.mp htwenty
  have hunits := Binary64.units?_mul htwenty hfinite ha hlog
  rwa [mul_zero, Binary64.roundRatio, Int.sign_zero, zero_mul] at hunits

/-- A beamwidth has no exponent where it is flat. -/
theorem isDegenerate_iff (h0 : 0 ≤ w) (h360 : w ≤ 360) :
    (degrees w).isDegenerate = true ↔ IsFlat w := by
  have hzero : Binary64.units? (Scalar.zero : Float) = some 0 := by decide
  constructor
  · intro h
    by_contra hflat
    have hnegative : edgeLevel w < Scalar.zero := by
      calc edgeLevel w ≤ Scalar.ofInt 20 * ofFixed (-1) := (edgeLevel_mem h0 h360 hflat).2
        _ < Scalar.zero := by decide
    obtain ⟨a, -, ha, -, -⟩ := Binary64.lt_iff.mp hnegative
    have hnonneg := Binary64.units?_le (of_decide_eq_true (Bool.and_eq_true_iff.mp h).2) hzero ha
    exact absurd (Binary64.units?_lt hnegative ha hzero) (by omega)
  · intro h
    have hunits := units?_edgeLevel_of_isFlat h
    have hlow : edgeLevel w ≤ Scalar.zero := Binary64.le_iff.mpr ⟨0, 0, hunits, hzero, le_rfl⟩
    have hhigh : Scalar.zero ≤ edgeLevel w := Binary64.le_iff.mpr ⟨0, 0, hzero, hunits, le_rfl⟩
    exact Bool.and_eq_true_iff.mpr ⟨decide_eq_true hlow, decide_eq_true hhigh⟩

/-- The exponent of a beamwidth that is not flat is positive and finite. -/
theorem exponent_mem (h0 : 0 ≤ w) (h360 : w ≤ 360) (h : ¬IsFlat w) :
    0 < (degrees w).exponent ∧ (degrees w).exponent.isFinite = true := by
  obtain ⟨hlow, hhigh⟩ := edgeLevel_mem h0 h360 h
  have hleft : (Scalar.ofInt 20 * ofFixed (-130 * FixedPoint.unit)).isFinite = true := by
    decide
  have hright : (Scalar.ofInt 20 * ofFixed (-1)).isFinite = true := by decide
  have hedge := Binary64.isFinite_of_le_of_le hleft hright hlow hhigh
  have hthree : (Scalar.ofInt (-3) : Float).isFinite = true := by decide
  have hnegative : edgeLevel w < 0 := by
    calc edgeLevel w ≤ Scalar.ofInt 20 * ofFixed (-1) := hhigh
      _ < 0 := by decide
  have hfirst : Scalar.ofInt (-3) / (Scalar.ofInt 20 * ofFixed (-130 * FixedPoint.unit))
      ≤ (degrees w).exponent :=
    Binary64.div_le_div_of_neg hthree hleft hedge (by decide) hlow hnegative
  have hlast : (degrees w).exponent ≤ Scalar.ofInt (-3) / (Scalar.ofInt 20 * ofFixed (-1)) :=
    Binary64.div_le_div_of_neg hthree hedge hright (by decide) hhigh (by decide)
  constructor
  · calc (0 : Float)
        < Scalar.ofInt (-3) / (Scalar.ofInt 20 * ofFixed (-130 * FixedPoint.unit)) := by
          decide
      _ ≤ (degrees w).exponent := hfirst
  · exact Binary64.isFinite_of_le_of_le (by decide) (by decide) hfirst hlast

/-! ## Beamwidths that are given as doubles -/

/-- The beamwidths that are documented: no limit, or a limit strictly between zero and a full
turn. -/
def IsDocumented (x : Float) : Prop := (x == Binary64.infinite false) = true ∨ 0 < x ∧ x < 360

/-- A beamwidth below a full turn that is flat. -/
structure IsNarrow (x : Float) : Prop where
  pos : 0 < x
  lt : x < 360
  flat : IsFlat x

/-- The exponent of a beamwidth that is given as a double. -/
def exponentOf (x : Float) : Float := ((ofNumber (.double x)).map Number.toDouble).exponent

/-- An exponent as it has to be: finite, not negative, and positive where there is a limit. -/
structure HasExponent (x : Float) : Prop where
  isFinite : (exponentOf x).isFinite = true
  nonneg : 0 ≤ exponentOf x
  pos : x.isFinite = true → 0 < exponentOf x

end Beamwidth

namespace Arguments

open Beamwidth

variable {args : Arguments} {name : Text} {default : Number} {x : Float}

theorem holds_beamwidth_iff :
    (Requirement.beamwidth (some 360) false).holds x = true ↔ 0 < x ∧ x < 360 := by
  have hfull : (Scalar.ofInt (360 : ℕ) : Float) = 360 := rfl
  have hzero : (Scalar.zero : Float) = 0 := rfl
  rw [Requirement.holds, hfull, hzero, Bool.and_eq_true]
  exact and_congr decide_eq_true_iff decide_eq_true_iff

/-- A double stands for itself as a beamwidth, if it is documented as one. -/
theorem beamwidth_of_isDocumented (hlookup : args.lookup name = some (.number (.double x)))
    (h : IsDocumented x) : args.beamwidth name default = .ok (.ofNumber (.double x)) := by
  rcases h with hinfinite | hrange
  · have hinf : x.isInf = true := Binary64.isInf_of_beq_infinite hinfinite
    simp only [beamwidth, hlookup, hinfinite, if_true, ofNumber, hinf]
  · have hfinite : x.isFinite = true := Binary64.isFinite_of_lt_of_lt hrange.1 hrange.2
    have hlimited := Binary64.beq_eq_false hfinite (y := Binary64.infinite false) (by decide)
    have hfits : (Number.double x).Fits [.beamwidth (some 360) false] :=
      ⟨x, rfl, fun r hr => List.mem_singleton.mp hr ▸ holds_beamwidth_iff.mpr hrange⟩
    simp only [beamwidth, hlookup, hlimited, Bool.false_eq_true, if_false,
      number_of_lookup hlookup hfits]
    rfl

/-- A double that is not documented as a beamwidth is refused. -/
theorem isRefused_beamwidth (hlookup : args.lookup name = some (.number (.double x)))
    (h : ¬IsDocumented x) : IsRefused (args.beamwidth name default) := by
  obtain ⟨hlimited, hrange⟩ := not_or.mp h
  have hfails : (Requirement.beamwidth (some 360) false).holds x = false := by
    rw [← Bool.not_eq_true, holds_beamwidth_iff]
    exact hrange
  have hrefused : requireNumber name (.number (.double x)) [.beamwidth (some 360) false]
      = refuse (.parameter name (.number (.double x)) (.beamwidth (some 360) false)) := by
    simp only [requireNumber, Number.toDouble?, List.find?, hfails, Bool.not_false]
  refine ⟨.parameter name (.number (.double x)) (.beamwidth (some 360) false), ?_⟩
  simp only [beamwidth, hlookup, hlimited, number_eq_requireNumber hlookup, hrefused]
  rfl

end Arguments

namespace Element

open Beamwidth

variable {x : Float}

/-- A limit below a full turn is kept as it is given. -/
theorem ofNumber_double (hpos : 0 < x) (hlt : x < 360) :
    (ofNumber (.double x)).map Number.toDouble = .degrees x := by
  have hfinite : x.isFinite = true := Binary64.isFinite_of_lt_of_lt hpos hlt
  rw [ofNumber]
  simp only [Binary64.isInf_eq_false hfinite, Bool.false_eq_true, if_false]
  rfl

/-- A beamwidth that is documented has an exponent, unless it is narrow. -/
theorem hasExponent_of_not_isNarrow (h : IsDocumented x) (hnarrow : ¬IsNarrow x) :
    screenExponent (.ofNumber (.double x)) = .ok () ∧ HasExponent x := by
  rcases h with hinfinite | ⟨hpos, hlt⟩
  · have hinf : x.isInf = true := Binary64.isInf_of_beq_infinite hinfinite
    have hunlimited : ofNumber (.double x) = .unlimited := by
      simp only [ofNumber, hinf, if_true]
    have hexponent : exponentOf x = Scalar.zero := by
      rw [exponentOf, hunlimited]
      rfl
    refine ⟨by rw [hunlimited]; rfl, ?_, ?_, ?_⟩
    · rw [hexponent]
      decide
    · rw [hexponent]
      decide
    · intro hfinite
      rw [Binary64.isInf_eq_false hfinite] at hinf
      cases hinf
  · have h0 := Binary64.le_of_lt hpos
    have h360 := Binary64.le_of_lt hlt
    have hflat : ¬IsFlat x := fun hflat => hnarrow ⟨hpos, hlt, hflat⟩
    obtain ⟨hexponent, hfinite⟩ := exponent_mem h0 h360 hflat
    have hof : exponentOf x = (degrees x).exponent := by
      rw [exponentOf, ofNumber_double hpos hlt]
    rw [screenExponent, ofNumber_double hpos hlt, if_neg (mt (isDegenerate_iff h0 h360).mp hflat)]
    refine ⟨rfl, ?_, ?_, ?_⟩
    · rwa [hof]
    · rw [hof]
      exact Binary64.le_of_lt hexponent
    · intro _
      rwa [hof]

/-- A narrow beamwidth has no exponent. -/
theorem screenExponent_of_isNarrow (h : IsNarrow x) :
    screenExponent (.ofNumber (.double x)) = .error .divisionByZero := by
  rw [screenExponent, ofNumber_double h.pos h.lt,
    if_pos ((isDegenerate_iff (Binary64.le_of_lt h.pos) (Binary64.le_of_lt h.lt)).mpr h.flat)]

/-! ## Constructing a cosine pattern -/

/-- The arguments of a cosine pattern: two doubles as beamwidths, and others that are accepted. -/
structure TakesBeamwidths (args : Arguments) (h v : Float) : Prop where
  known : Knows .cosine args
  horizontal : args.lookup (Text.ofString "horizontal_beamwidth") = some (.number (.double h))
  vertical : args.lookup (Text.ofString "vertical_beamwidth") = some (.number (.double v))
  orientation : Parameter.check args ⟨"orientation", .number [.finite, .orientation]⟩ = .ok ()
  maxGain : Parameter.check args ⟨"max_gain", .number [.finite]⟩ = .ok ()

/-- What is documented: a cosine pattern with exponents for beamwidths that are documented, and a
refusal for all others. -/
structure ConstructsAsDocumented (args : Arguments) (h v : Float) : Prop where
  accepts : IsDocumented h → IsDocumented v → ∃ p, construct .cosine args = .ok (.cosine p) ∧
    p.horizontal = .ofNumber (.double h) ∧ p.vertical = .ofNumber (.double v) ∧
    HasExponent h ∧ HasExponent v
  refuses : ¬(IsDocumented h ∧ IsDocumented v) → IsRefused (construct .cosine args)

section

variable {args : Arguments} {h v : Float} (ha : TakesBeamwidths args h v)

include ha

theorem construct_eq_cosineOf :
    construct .cosine args = cosineOf args >>= fun p => .ok (.cosine p) := by
  rw [construct_eq, Arguments.screen_eq_ok.mpr ha.known, ok_bind, ofArguments]

/-- Beyond the documented range nothing is constructed. -/
theorem isRefused_construct (hout : ¬(IsDocumented h ∧ IsDocumented v)) :
    IsRefused (construct .cosine args) := by
  rw [construct_eq_cosineOf ha]
  refine isRefused_bind.mpr (.inl (isRefused_bind.mpr ?_))
  by_cases hh : IsDocumented h
  · right
    refine ⟨_, Arguments.beamwidth_of_isDocumented ha.horizontal hh, ?_⟩
    have hv : ¬IsDocumented v := fun hv => hout ⟨hh, hv⟩
    exact isRefused_bind.mpr (.inl (Arguments.isRefused_beamwidth ha.vertical hv))
  · exact .inl (Arguments.isRefused_beamwidth ha.horizontal hh)

/-- In the documented range the exponents decide. -/
theorem exists_construct_eq (hh : IsDocumented h) (hv : IsDocumented v) :
    ∃ o g, construct .cosine args =
      screenExponent (.ofNumber (.double h)) >>= fun _ =>
        screenExponent (.ofNumber (.double v)) >>= fun _ =>
          .ok (.cosine ⟨.ofNumber (.double h), .ofNumber (.double v), o, g⟩) := by
  have horientation := ha.orientation
  have hmaxGain := ha.maxGain
  rw [← void_number_eq_check args "orientation" (.double 0), void_eq_ok] at horientation
  rw [← void_number_eq_check args "max_gain" (.double 0), void_eq_ok] at hmaxGain
  obtain ⟨o, ho⟩ := horientation
  obtain ⟨g, hg⟩ := hmaxGain
  refine ⟨o, g, ?_⟩
  rw [construct_eq_cosineOf ha, cosineOf, Arguments.beamwidth_of_isDocumented ha.horizontal hh,
    ok_bind, Arguments.beamwidth_of_isDocumented ha.vertical hv, ok_bind, ho, ok_bind, hg, ok_bind]
  cases screenExponent (.ofNumber (.double h)) with
  | error f => rfl
  | ok _ =>
    cases screenExponent (.ofNumber (.double v)) with
    | error f => rfl
    | ok _ => rfl

/-- With a narrow beamwidth there is a division by zero. -/
theorem construct_of_isNarrow (hh : IsDocumented h) (hv : IsDocumented v)
    (hnarrow : IsNarrow h ∨ IsNarrow v) : construct .cosine args = .error .divisionByZero := by
  obtain ⟨o, g, heq⟩ := exists_construct_eq ha hh hv
  rw [heq]
  by_cases hh' : IsNarrow h
  · rw [screenExponent_of_isNarrow hh', error_bind]
  · rw [(hasExponent_of_not_isNarrow hh hh').1, ok_bind,
      screenExponent_of_isNarrow (hnarrow.resolve_left hh'), error_bind]

/-- A cosine pattern is constructed as documented, unless one of its beamwidths is so narrow that
the cosine of its quarter rounds to one; then there is a division by zero. Up to `2.2e-6` degrees a
beamwidth is narrow, from `2.6e-6` degrees on it is not. -/
theorem constructsAsDocumented_iff :
    (ConstructsAsDocumented args h v ↔
        ¬(IsDocumented h ∧ IsDocumented v ∧ (IsNarrow h ∨ IsNarrow v))) ∧
      (IsDocumented h ∧ IsDocumented v ∧ (IsNarrow h ∨ IsNarrow v) →
        construct .cosine args = .error .divisionByZero) ∧
      ∀ x, (0 < x → x ≤ 2.2e-6 → IsNarrow x) ∧ (2.6e-6 ≤ x → ¬IsNarrow x) := by
  refine ⟨⟨?_, ?_⟩, ?_, ?_⟩
  · intro hdocumented ⟨hh, hv, hnarrow⟩
    obtain ⟨p, hp, -⟩ := hdocumented.accepts hh hv
    rw [construct_of_isNarrow ha hh hv hnarrow] at hp
    cases hp
  · intro hwide
    refine ⟨fun hh hv => ?_, isRefused_construct ha⟩
    obtain ⟨o, g, heq⟩ := exists_construct_eq ha hh hv
    have hh' : ¬IsNarrow h := fun hnarrow => hwide ⟨hh, hv, .inl hnarrow⟩
    have hv' : ¬IsNarrow v := fun hnarrow => hwide ⟨hh, hv, .inr hnarrow⟩
    obtain ⟨hscreen, hexponent⟩ := hasExponent_of_not_isNarrow hh hh'
    obtain ⟨hscreen', hexponent'⟩ := hasExponent_of_not_isNarrow hv hv'
    rw [hscreen, hscreen', ok_bind, ok_bind] at heq
    exact ⟨_, heq, rfl, rfl, hexponent, hexponent'⟩
  · rintro ⟨hh, hv, hnarrow⟩
    exact construct_of_isNarrow ha hh hv hnarrow
  · intro x
    constructor
    · intro hpos hle
      have hlt : x < 360 := by
        calc x ≤ 2.2e-6 := hle
          _ < 360 := by decide
      exact ⟨hpos, hlt, isFlat_of_le (Binary64.le_of_lt hpos) hle⟩
    · intro hle hnarrow
      exact not_isFlat_of_le hle (Binary64.le_of_lt hnarrow.lt) hnarrow.flat

end

def beamwidthArguments (h v : Float) : Arguments :=
  [(Text.ofString "horizontal_beamwidth", .number (.double h)),
    (Text.ofString "vertical_beamwidth", .number (.double v))]

theorem takesBeamwidths_beamwidthArguments (h v : Float) :
    TakesBeamwidths (beamwidthArguments h v) h v where
  known := by
    intro a ha
    simp only [beamwidthArguments, List.mem_cons, List.not_mem_nil, or_false] at ha
    rcases ha with rfl | rfl
    · exact ⟨"horizontal_beamwidth", by simp [parameterNames], rfl⟩
    · exact ⟨"vertical_beamwidth", by simp [parameterNames], rfl⟩
  horizontal := rfl
  vertical := rfl
  orientation := rfl
  maxGain := rfl

/-- A beamwidth next to a full turn is accepted, with a positive exponent. -/
theorem constructsAsDocumented_nearFullTurn :
    TakesBeamwidths (beamwidthArguments 359.99999999999994 60) 359.99999999999994 60 ∧
      ConstructsAsDocumented (beamwidthArguments 359.99999999999994 60) 359.99999999999994 60 := by
  have ha := takesBeamwidths_beamwidthArguments 359.99999999999994 60
  obtain ⟨hiff, -, hnarrow⟩ := constructsAsDocumented_iff ha
  refine ⟨ha, hiff.mpr ?_⟩
  rintro ⟨-, -, hwide | hwide⟩
  · exact (hnarrow 359.99999999999994).2 (by decide) hwide
  · exact (hnarrow 60).2 (by decide) hwide

/-- A beamwidth of a millionth of a degree is documented, but not accepted. -/
theorem not_constructsAsDocumented :
    ¬ConstructsAsDocumented (beamwidthArguments 1e-6 60) 1e-6 60 := by
  have hh : IsDocumented 1e-6 := .inr ⟨by decide, by decide⟩
  have hv : IsDocumented 60 := .inr ⟨by decide, by decide⟩
  have hnarrow : IsNarrow 1e-6 :=
    ⟨by decide, by decide, isFlat_of_le (by decide) (by decide)⟩
  intro hdocumented
  obtain ⟨p, hp, -⟩ := hdocumented.accepts hh hv
  rw [construct_of_isNarrow (takesBeamwidths_beamwidthArguments 1e-6 60) hh hv (.inl hnarrow)] at hp
  cases hp

end Element

end AntennaArray
