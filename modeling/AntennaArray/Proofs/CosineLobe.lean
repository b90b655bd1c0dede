import AntennaArray.Proofs.Lobe

/-!
# The lobe of a cosine pattern

A cosine pattern multiplies two powers of cosines, one for each plane. Of the angles that enter only
the sizes count (`cosineFactor_abs`), and none is beyond half a turn once it was clamped or wrapped,
so the cosines of their halves are never negative. The exponents are not negative either: a
beamwidth with a limit gives the one for which half of the power is left at half the beamwidth
(`cosineFactor_edge`), and without a limit the factor is one everywhere.
-/

namespace AntennaArray

open Scalar

/-! ## Exponents -/

namespace Beamwidth

variable {w : ℝ}

theorem edgeLevel_real (w : ℝ) :
    edgeLevel w = 20 * Real.logb 10 (Real.cos (Angle.toRadians w / 4)) := by
  simp [edgeLevel, log10]

theorem toRadians_real (w : ℝ) : Angle.toRadians w = w * (Real.pi / 180) := by
  simp [Angle.toRadians]

/-- A quarter of a beamwidth below a full turn is below a quarter turn. -/
theorem quarter_mem_Ioo (h : w ∈ Set.Ioo 0 360) :
    Angle.toRadians w / 4 ∈ Set.Ioo 0 (Real.pi / 2) := by
  have hpi := Real.pi_pos
  rw [toRadians_real]
  constructor
  · have hw := h.1
    positivity
  · have hlt : w * (Real.pi / 180) < 360 * (Real.pi / 180) :=
      mul_lt_mul_of_pos_right h.2 (by positivity)
    linarith

theorem cos_quarter_mem_Ioo (h : w ∈ Set.Ioo 0 360) :
    Real.cos (Angle.toRadians w / 4) ∈ Set.Ioo 0 1 := by
  obtain ⟨hpos, hlt⟩ := quarter_mem_Ioo h
  have hpi := Real.pi_pos
  constructor
  · exact Real.cos_pos_of_mem_Ioo ⟨by linarith, hlt⟩
  · rw [← Real.cos_zero]
    exact Real.cos_lt_cos_of_nonneg_of_le_pi le_rfl (by linarith) hpos

/-- The plain cosine has lost some of its power at half the beamwidth. -/
theorem edgeLevel_neg (h : w ∈ Set.Ioo 0 360) : edgeLevel w < 0 := by
  obtain ⟨hpos, hlt⟩ := cos_quarter_mem_Ioo h
  have hlog := Real.logb_neg (b := 10) (by norm_num) hpos hlt
  rw [edgeLevel_real]
  linarith

@[simp] theorem exponent_unlimited : (unlimited : Beamwidth ℝ).exponent = 0 := zero_real

theorem exponent_degrees (w : ℝ) : (degrees w).exponent = -3 / edgeLevel w := by
  simp [exponent]

theorem exponent_pos (h : w ∈ Set.Ioo 0 360) : 0 < (degrees w).exponent := by
  rw [exponent_degrees]
  exact div_pos_of_neg_of_neg (by norm_num) (edgeLevel_neg h)

variable {b : Beamwidth ℝ}

theorem exponent_nonneg (h : b.IsAdmissible) : 0 ≤ b.exponent := by
  cases b with
  | unlimited => rw [exponent_unlimited]
  | degrees w => exact (exponent_pos h).le

/-- Only a beamwidth without a limit has the exponent zero. -/
theorem exponent_ne_zero_iff (h : b.IsAdmissible) : b.exponent ≠ 0 ↔ b ≠ unlimited := by
  cases b with
  | unlimited => simp
  | degrees w => simp [(exponent_pos h).ne']

end Beamwidth

/-! ## The factor of one plane -/

namespace Radiator

/-- The cosine of half an angle, to an exponent. -/
def cosineFactor {α : Type} [Scalar α] (n x : α) : α := pow (cos (x / ofInt 2)) n

section

variable {n x y : ℝ}

theorem cosineFactor_eq (n x : ℝ) : cosineFactor n x = Real.cos (x / 2) ^ n := by
  rw [cosineFactor, cos_real, ofInt_real, Int.cast_ofNat]
  rfl

/-- Only the size of the angle counts. -/
theorem cosineFactor_abs (n x : ℝ) : cosineFactor n |x| = cosineFactor n x := by
  rw [cosineFactor_eq, cosineFactor_eq, ← abs_of_pos (two_pos : (0 : ℝ) < 2), ← abs_div,
    Real.cos_abs, abs_of_pos two_pos]

/-- Up to half a turn, the cosine of half an angle is the base of a power. -/
theorem cos_half_mem_Icc (h : |x| ≤ Real.pi) : Real.cos (x / 2) ∈ Set.Icc 0 1 := by
  obtain ⟨hlow, hhigh⟩ := abs_le.mp h
  constructor
  · exact Real.cos_nonneg_of_neg_pi_div_two_le_of_le (by linarith) (by linarith)
  · exact Real.cos_le_one _

theorem cosineFactor_nonneg (h : |x| ≤ Real.pi) : 0 ≤ cosineFactor n x := by
  rw [cosineFactor_eq]
  exact Real.rpow_nonneg (cos_half_mem_Icc h).1 n

@[simp] theorem cosineFactor_zero (n : ℝ) : cosineFactor n 0 = 1 := by
  simp [cosineFactor_eq]

@[simp] theorem cosineFactor_exponent_zero (x : ℝ) : cosineFactor 0 x = 1 := by
  simp [cosineFactor_eq]

/-- The factor falls off as the angle grows. -/
theorem cosineFactor_anti (hn : 0 ≤ n) (h : |x| ≤ |y|) (hy : |y| ≤ Real.pi) :
    cosineFactor n y ≤ cosineFactor n x := by
  rw [← cosineFactor_abs n x, ← cosineFactor_abs n y, cosineFactor_eq, cosineFactor_eq]
  have hcos : Real.cos (|y| / 2) ≤ Real.cos (|x| / 2) := by
    apply Real.cos_le_cos_of_nonneg_of_le_pi
    · have := abs_nonneg x
      positivity
    · linarith [Real.pi_pos]
    · linarith
  have hbase : 0 ≤ Real.cos (|y| / 2) := (cos_half_mem_Icc (by rwa [abs_abs])).1
  exact Real.rpow_le_rpow hbase hcos hn

/-- Only half a turn away nothing is left, if there is an exponent. -/
theorem cosineFactor_eq_zero_iff (h : |x| ≤ Real.pi) :
    cosineFactor n x = 0 ↔ |x| = Real.pi ∧ n ≠ 0 := by
  have hcos : Real.cos (x / 2) = 0 ↔ |x| = Real.pi := by
    constructor
    · intro hzero
      by_contra hne
      have hlt : |x| < Real.pi := lt_of_le_of_ne h hne
      obtain ⟨hlow, hhigh⟩ := abs_lt.mp hlt
      have hpos := Real.cos_pos_of_mem_Ioo (x := x / 2) ⟨by linarith, by linarith⟩
      exact hpos.ne' hzero
    · intro hx
      rw [← Real.cos_abs, abs_div, hx, abs_of_pos two_pos, Real.cos_pi_div_two]
  rw [cosineFactor_eq, Real.rpow_eq_zero_iff_of_nonneg (cos_half_mem_Icc h).1, hcos]

/-- At half the beamwidth the factor has lost three decibels. -/
theorem cosineFactor_edge {w : ℝ} (h : w ∈ Set.Ioo 0 360) :
    (LevelScale.ofAmplitude (cosineFactor (Beamwidth.degrees w).exponent (Angle.toRadians w / 2))
      : WithBot ℝ) = (-3 : ℝ) := by
  have hpos := (Beamwidth.cos_quarter_mem_Ioo h).1
  have hedge := (Beamwidth.edgeLevel_neg h).ne
  have hquarter : Angle.toRadians w / 2 / 2 = Angle.toRadians w / 4 := by ring
  have hlevel : 20 * Real.logb 10
      (Real.cos (Angle.toRadians w / 4) ^ (Beamwidth.degrees w).exponent) = -3 := by
    rw [Real.logb_rpow_eq_mul_logb_of_pos hpos, Beamwidth.exponent_degrees, mul_left_comm,
      ← Beamwidth.edgeLevel_real, div_mul_cancel₀ _ hedge]
  rw [cosineFactor_eq, hquarter,
    LevelScale.ofAmplitude_of_ne_zero (Real.rpow_pos_of_pos hpos _).ne', hlevel]

end

/-! ## Both planes -/

/-- The azimuth off an orientation is at most half a turn. -/
theorem abs_wrap_le_pi (φ : ℝ) : |Angle.wrap φ| ≤ Real.pi := by
  obtain ⟨hlow, hhigh⟩ := Angle.wrap_mem_Ioc φ
  exact abs_le.mpr ⟨hlow.le, hhigh⟩

/-- The inclination off the horizontal plane is at most a quarter turn. -/
theorem abs_clamp_le (θ : ℝ) : |Angle.clamp θ - Real.pi / 2| ≤ Real.pi / 2 := by
  rw [Angle.abs_clamp_sub_half_pi]
  exact min_le_right _ _

theorem abs_clamp_lt_pi (θ : ℝ) : |Angle.clamp θ - Real.pi / 2| < Real.pi :=
  (abs_clamp_le θ).trans_lt (half_lt_self Real.pi_pos)

variable {h v o : ℝ}

theorem cosineAmplitude_eq (h v o : ℝ) (d : Direction ℝ) :
    cosineAmplitude h v o d = cosineFactor h (Angle.wrap (d.phi - o))
      * cosineFactor v (Angle.clamp d.theta - Real.pi / 2) := by
  simp [cosineAmplitude, relative, Direction.normalized, cosineFactor]

theorem cosineAmplitude_nonneg (d : Direction ℝ) : 0 ≤ cosineAmplitude h v o d := by
  rw [cosineAmplitude_eq]
  exact mul_nonneg (cosineFactor_nonneg (abs_wrap_le_pi _))
    (cosineFactor_nonneg (abs_clamp_lt_pi _).le)

/-- The amplitude falls off on the way out of the plane and on the way off the orientation. -/
theorem cosineAmplitude_anti (hh : 0 ≤ h) (hv : 0 ≤ v) {d d' : Direction ℝ}
    (hplane : d.offPlane ≤ d'.offPlane) (hazimuth : d.offAzimuth o ≤ d'.offAzimuth o) :
    cosineAmplitude h v o d' ≤ cosineAmplitude h v o d := by
  simp only [Direction.offPlane, pi_real, ofInt_real, Int.cast_ofNat] at hplane
  rw [cosineAmplitude_eq, cosineAmplitude_eq]
  apply mul_le_mul
  · exact cosineFactor_anti hh hazimuth (abs_wrap_le_pi _)
  · exact cosineFactor_anti hv hplane (abs_clamp_lt_pi _).le
  · exact cosineFactor_nonneg (abs_clamp_lt_pi _).le
  · exact cosineFactor_nonneg (abs_wrap_le_pi _)

/-- In the horizontal plane along the orientation nothing is lost. -/
theorem cosineAmplitude_top (h v o : ℝ) : cosineAmplitude h v o ⟨Real.pi / 2, o⟩ = 1 := by
  have hmem : Real.pi / 2 ∈ Set.Icc 0 Real.pi :=
    ⟨Real.pi_div_two_pos.le, half_le_self Real.pi_pos.le⟩
  rw [cosineAmplitude_eq, Angle.clamp_of_mem hmem, sub_self, sub_self, Angle.wrap_zero]
  simp

/-- The inclination never loses everything. -/
theorem cosineAmplitude_eq_zero_iff (d : Direction ℝ) :
    cosineAmplitude h v o d = 0 ↔ h ≠ 0 ∧ Angle.wrap (d.phi - o) = Real.pi := by
  have hazimuth : |Angle.wrap (d.phi - o)| = Real.pi ↔ Angle.wrap (d.phi - o) = Real.pi := by
    obtain ⟨hlow, -⟩ := Angle.wrap_mem_Ioc (d.phi - o)
    rw [abs_eq Real.pi_pos.le, or_iff_left hlow.ne']
  have hplane : ¬(|Angle.clamp d.theta - Real.pi / 2| = Real.pi ∧ v ≠ 0) :=
    fun hzero => (abs_clamp_lt_pi d.theta).ne hzero.1
  rw [cosineAmplitude_eq, mul_eq_zero, cosineFactor_eq_zero_iff (abs_wrap_le_pi _),
    cosineFactor_eq_zero_iff (abs_clamp_lt_pi _).le, or_iff_left hplane, hazimuth, and_comm]

/-- The base of the power that the azimuth takes part with. -/
noncomputable def azimuthBase (o : ℝ) (d : Direction ℝ) : ℝ := cos ((relative o d).phi / ofInt 2)

/-- The base of the power that the inclination takes part with. -/
noncomputable def inclinationBase (o : ℝ) (d : Direction ℝ) : ℝ :=
  cos (((relative o d).theta - pi / ofInt 2) / ofInt 2)

theorem azimuthBase_mem_Icc (o : ℝ) (d : Direction ℝ) : azimuthBase o d ∈ Set.Icc 0 1 := by
  have hbase : azimuthBase o d = Real.cos (Angle.wrap (d.phi - o) / 2) := by
    simp [azimuthBase, relative, Direction.normalized]
  rw [hbase]
  exact cos_half_mem_Icc (abs_wrap_le_pi _)

theorem inclinationBase_mem_Icc (o : ℝ) (d : Direction ℝ) : inclinationBase o d ∈ Set.Icc 0 1 := by
  have hbase : inclinationBase o d = Real.cos ((Angle.clamp d.theta - Real.pi / 2) / 2) := by
    simp [inclinationBase, relative, Direction.normalized]
  rw [hbase]
  exact cos_half_mem_Icc (abs_clamp_lt_pi _).le

theorem gain_cosine (h v o g : ℝ) (d : Direction ℝ) :
    (cosine h v o g).gain d
      = (LevelScale.ofAmplitude (cosineAmplitude h v o d) : WithBot ℝ) + (g : WithBot ℝ) := rfl

/-- A cosine pattern makes a lobe along its orientation. -/
theorem isLobe_cosine (hh : 0 ≤ h) (hv : 0 ≤ v) (o g : ℝ) :
    IsLobe (cosine h v o g).gain (g : ℝ) o := by
  refine .of_anti ?_ ?_
  · rw [gain_cosine, cosineAmplitude_top, LevelScale.ofAmplitude_of_ne_zero one_ne_zero,
      Real.logb_one, mul_zero, ← WithBot.coe_add, zero_add]
  · intro d d' hplane hazimuth
    rw [gain_cosine, gain_cosine]
    refine add_le_add_left ?_ _
    rw [LevelScale.ofAmplitude_le_ofAmplitude (cosineAmplitude_nonneg d')
      (cosineAmplitude_nonneg d)]
    exact cosineAmplitude_anti hh hv hplane hazimuth

theorem gain_cosine_eq_bot_iff (g : ℝ) (d : Direction ℝ) :
    (cosine h v o g).gain d = (⊥ : WithBot ℝ) ↔ h ≠ 0 ∧ Angle.wrap (d.phi - o) = Real.pi := by
  rw [gain_cosine, WithBot.add_eq_bot, or_iff_left WithBot.coe_ne_bot,
    LevelScale.ofAmplitude_eq_bot, cosineAmplitude_eq_zero_iff]

/-- Without a limit in azimuth the azimuth does not matter. -/
theorem gain_cosine_free_phi (v o g θ φ φ' : ℝ) :
    (cosine 0 v o g).gain ⟨θ, φ⟩ = ((cosine 0 v o g).gain ⟨θ, φ'⟩ : WithBot ℝ) := by
  simp only [gain_cosine, cosineAmplitude_eq, cosineFactor_exponent_zero]

/-- Without a limit in inclination the inclination does not matter. -/
theorem gain_cosine_free_theta (h o g θ θ' φ : ℝ) :
    (cosine h 0 o g).gain ⟨θ, φ⟩ = ((cosine h 0 o g).gain ⟨θ', φ⟩ : WithBot ℝ) := by
  simp only [gain_cosine, cosineAmplitude_eq, cosineFactor_exponent_zero]

/-! ## The edges of the beam -/

/-- Half a beamwidth beside the orientation three decibels are lost. -/
theorem gain_cosine_edge_phi {w : ℝ} (hw : w ∈ Set.Ioo 0 360) (v o g : ℝ) :
    (cosine (Beamwidth.degrees w).exponent v o g).gain ⟨Real.pi / 2, o + Angle.toRadians w / 2⟩
      = ((g - 3 : ℝ) : WithBot ℝ) := by
  obtain ⟨hpos, hlt⟩ := Beamwidth.quarter_mem_Ioo hw
  have hplane : Real.pi / 2 ∈ Set.Icc 0 Real.pi :=
    ⟨Real.pi_div_two_pos.le, half_le_self Real.pi_pos.le⟩
  have hazimuth : Angle.toRadians w / 2 ∈ Set.Ioc (-Real.pi) Real.pi :=
    ⟨by linarith [Real.pi_pos], by linarith⟩
  rw [gain_cosine, cosineAmplitude_eq, Angle.clamp_of_mem hplane, sub_self, add_sub_cancel_left,
    Angle.wrap_of_isWrapped (Angle.isWrapped_real.mpr hazimuth), cosineFactor_zero, mul_one,
    cosineFactor_edge hw, ← WithBot.coe_add, neg_add_eq_sub]

/-- Half a beamwidth beside the horizontal plane three decibels are lost, where that is still an
inclination. -/
theorem gain_cosine_edge_theta {w : ℝ} (hw : w ∈ Set.Ioc 0 180) (h o g : ℝ) :
    (cosine h (Beamwidth.degrees w).exponent o g).gain ⟨Real.pi / 2 + Angle.toRadians w / 2, o⟩
      = ((g - 3 : ℝ) : WithBot ℝ) := by
  have hwide : w ∈ Set.Ioo 0 360 := ⟨hw.1, hw.2.trans_lt (by norm_num)⟩
  have hpos := (Beamwidth.quarter_mem_Ioo hwide).1
  have hle : Angle.toRadians w ≤ Real.pi := by
    have hmul : w * (Real.pi / 180) ≤ 180 * (Real.pi / 180) :=
      mul_le_mul_of_nonneg_right hw.2 (by positivity)
    rw [Beamwidth.toRadians_real]
    linarith
  have hplane : Real.pi / 2 + Angle.toRadians w / 2 ∈ Set.Icc 0 Real.pi :=
    ⟨by linarith [Real.pi_pos], by linarith⟩
  rw [gain_cosine, cosineAmplitude_eq, Angle.clamp_of_mem hplane, sub_self, add_sub_cancel_left,
    Angle.wrap_zero, cosineFactor_zero, one_mul, cosineFactor_edge hwide, ← WithBot.coe_add,
    neg_add_eq_sub]

end Radiator

/-! ## Cosine patterns -/

/-- A pattern of two powers of cosines: the bases and exponents are such that every gain is defined,
the gain makes a lobe that vanishes half a turn away from the orientation only, and it has lost
three decibels at half a beamwidth. -/
structure CosinePattern.IsCosineLobe (p : CosinePattern ℝ) : Prop where
  exponents : 0 ≤ p.horizontal.exponent ∧ 0 ≤ p.vertical.exponent
  bases : ∀ d, Radiator.azimuthBase (Angle.toRadians p.orientation) d ∈ Set.Icc 0 1 ∧
    Radiator.inclinationBase (Angle.toRadians p.orientation) d ∈ Set.Icc 0 1
  gain_eq : ∀ d, (Element.cosine p).radiator.gain d = (LevelScale.ofAmplitude
    (Radiator.azimuthBase (Angle.toRadians p.orientation) d ^ p.horizontal.exponent
      * Radiator.inclinationBase (Angle.toRadians p.orientation) d ^ p.vertical.exponent)
      : WithBot ℝ) + (p.maxGain : WithBot ℝ)
  lobe : IsLobe (Element.cosine p).radiator.gain (p.maxGain : ℝ) (Angle.toRadians p.orientation)
  eq_bot_iff : ∀ d, (Element.cosine p).radiator.gain d = (⊥ : WithBot ℝ) ↔
    p.horizontal ≠ .unlimited ∧ Angle.wrap (d.phi - Angle.toRadians p.orientation) = Real.pi
  edge_phi : ∀ w, p.horizontal = .degrees w → ∀ side ∈ ({1, -1} : Set ℝ),
    (Element.cosine p).radiator.gain
      ⟨Real.pi / 2, Angle.toRadians p.orientation + side * (Angle.toRadians w / 2)⟩
        = ((p.maxGain - 3 : ℝ) : WithBot ℝ)
  edge_theta : ∀ w, p.vertical = .degrees w → w ≤ 180 → ∀ side ∈ ({1, -1} : Set ℝ),
    (Element.cosine p).radiator.gain
      ⟨Real.pi / 2 + side * (Angle.toRadians w / 2), Angle.toRadians p.orientation⟩
        = ((p.maxGain - 3 : ℝ) : WithBot ℝ)
  free_phi : p.horizontal = .unlimited → ∀ θ φ φ', (Element.cosine p).radiator.gain ⟨θ, φ⟩
    = ((Element.cosine p).radiator.gain ⟨θ, φ'⟩ : WithBot ℝ)
  free_theta : p.vertical = .unlimited → ∀ θ θ' φ, (Element.cosine p).radiator.gain ⟨θ, φ⟩
    = ((Element.cosine p).radiator.gain ⟨θ', φ⟩ : WithBot ℝ)

namespace Element

theorem isCosineLobe_of_isAdmissible {p : CosinePattern ℝ} (h : p.IsAdmissible) :
    p.IsCosineLobe := by
  have hh : 0 ≤ p.horizontal.exponent := Beamwidth.exponent_nonneg h.horizontal
  have hv : 0 ≤ p.vertical.exponent := Beamwidth.exponent_nonneg h.vertical
  have hlobe : IsLobe (Element.cosine p).radiator.gain (p.maxGain : ℝ)
      (Angle.toRadians p.orientation) := Radiator.isLobe_cosine hh hv _ _
  refine
    { exponents := ⟨hh, hv⟩
      bases := fun d => ⟨Radiator.azimuthBase_mem_Icc _ d, Radiator.inclinationBase_mem_Icc _ d⟩
      gain_eq := fun d => rfl
      lobe := hlobe
      eq_bot_iff := ?_, edge_phi := ?_, edge_theta := ?_, free_phi := ?_, free_theta := ?_ }
  · intro d
    rw [← Beamwidth.exponent_ne_zero_iff h.horizontal]
    exact Radiator.gain_cosine_eq_bot_iff _ d
  · intro w hw side hside
    have hmem : w ∈ Set.Ioo 0 360 := by
      have hhorizontal := h.horizontal
      rwa [hw] at hhorizontal
    rw [hlobe.side_phi hside, radiator, hw]
    exact Radiator.gain_cosine_edge_phi hmem _ _ _
  · intro w hw hle side hside
    have hmem : w ∈ Set.Ioc 0 180 := by
      have hvertical := h.vertical
      rw [hw] at hvertical
      exact ⟨hvertical.1, hle⟩
    rw [hlobe.side_theta hside, radiator, hw]
    exact Radiator.gain_cosine_edge_theta hmem _ _ _
  · intro hw θ φ φ'
    rw [radiator, hw, Beamwidth.exponent_unlimited]
    exact Radiator.gain_cosine_free_phi _ _ _ _ _ _
  · intro hw θ θ' φ
    rw [radiator, hw, Beamwidth.exponent_unlimited]
    exact Radiator.gain_cosine_free_theta _ _ _ _ _ _

/-- A cosine pattern is a lobe of two powers of cosines wherever its parameters are in their ranges;
those of a constructed element are. -/
theorem isCosineLobe_cosine :
    (∀ args e, construct .cosine args = .ok e → ∃ p : CosinePattern ℝ, e.exact = .cosine p ∧
      p.IsAdmissible) ∧
    ∀ p : CosinePattern ℝ, p.IsAdmissible → p.IsCosineLobe := by
  constructor
  · intro args e h
    have hadmissible := (isValid_construct h).isAdmissible
    obtain ⟨p, -, hp⟩ := exists_of_bind_eq_ok (construct_eq_ok_iff.mp h).2
    cases hp
    exact ⟨_, rfl, hadmissible⟩
  · intro p h
    exact isCosineLobe_of_isAdmissible h

/-- A pattern that looks backward: three decibels are lost an eighth of a turn beside the seam of
the azimuths, on both sides of it, and nothing is left forward. -/
theorem isCosineLobe_cosine_backward :
    (⟨.degrees 90, .unlimited, 180, 8⟩ : CosinePattern ℝ).IsAdmissible ∧
    (∀ side ∈ ({1, -1} : Set ℝ),
      (cosine (⟨.degrees 90, .unlimited, 180, 8⟩ : CosinePattern ℝ)).radiator.gain
        ⟨Real.pi / 2, Real.pi + side * (Real.pi / 4)⟩ = ((5 : ℝ) : WithBot ℝ)) ∧
    (cosine (⟨.degrees 90, .unlimited, 180, 8⟩ : CosinePattern ℝ)).radiator.gain ⟨1, 0⟩
      = (⊥ : WithBot ℝ) := by
  have hadmissible : (⟨.degrees 90, .unlimited, 180, 8⟩ : CosinePattern ℝ).IsAdmissible :=
    ⟨by simp [Beamwidth.IsAdmissible]; norm_num, trivial, by norm_num⟩
  have hshape := isCosineLobe_cosine.2 _ hadmissible
  have hpi : Angle.toRadians (180 : ℝ) = Real.pi := by
    rw [Beamwidth.toRadians_real]
    ring
  have hedge : Angle.toRadians (90 : ℝ) / 2 = Real.pi / 4 := by
    rw [Beamwidth.toRadians_real]
    ring
  refine ⟨hadmissible, ?_, ?_⟩
  · intro side hside
    have hgain := hshape.edge_phi 90 rfl side hside
    rwa [hpi, hedge, show (8 : ℝ) - 3 = 5 by norm_num] at hgain
  · rw [hshape.eq_bot_iff]
    refine ⟨by simp, ?_⟩
    rw [hpi, Angle.wrap_eq_iff]
    refine ⟨⟨by linarith [Real.pi_pos], le_rfl⟩, 1, ?_⟩
    push_cast
    ring

end Element

end AntennaArray
