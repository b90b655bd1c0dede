import AntennaArray.Proofs.Accepted
import AntennaArray.Proofs.Binary64.Quotients
import AntennaArray.Proofs.Exact

/-!
# Elements over the real numbers

Every parameter of an element is a double in the end, which is some real number exactly. Comparisons
of doubles do not round. So an element that is constructed has its parameters in their ranges over
the real numbers too (`Element.IsValid.isAdmissible`).
-/

namespace AntennaArray

open Binary64

/-! ## Exact values -/

namespace Binary64

variable {x y : Float}

/-- The exact value of a double as a real number. -/
noncomputable def exact (x : Float) : ℝ := value x

theorem exact_lt_exact (h : x < y) : exact x < exact y := by
  obtain ⟨a, b, ha, hb, hlt⟩ := lt_iff.mp h
  rw [exact, exact, Rat.cast_lt, value_eq ha, value_eq hb,
    div_lt_div_iff_of_pos_right (by positivity)]
  exact_mod_cast hlt

theorem exact_le_exact (h : x ≤ y) : exact x ≤ exact y := by
  obtain ⟨a, b, ha, hb, hle⟩ := le_iff.mp h
  rw [exact, exact, Rat.cast_le, value_eq ha, value_eq hb,
    div_le_div_iff_of_pos_right (by positivity)]
  exact_mod_cast hle

/-- Integers of 53 bits are doubles. -/
theorem exact_ofInt {n : ℤ} (h : n.natAbs < 2 ^ 53) : exact (Scalar.ofInt n) = n := by
  show exact (ofInt n) = n
  have hround := units?_round (decide (n < 0)) h (by decide : (-1074 : ℤ) ≤ 0) (by decide)
  have hunits : signedUnits (decide (n < 0)) (unitsOf n.natAbs 0) = n * 2 ^ 1074 := by
    have hplaces : ((0 : ℤ) + 1074).toNat = 1074 := rfl
    rw [unitsOf, signedUnits, hplaces, Nat.cast_mul, Int.natCast_natAbs, Nat.cast_pow,
      Nat.cast_ofNat]
    split
    · next hneg => rw [abs_of_neg (of_decide_eq_true hneg), neg_mul, neg_neg]
    · next hneg => rw [abs_of_nonneg (not_lt.mp fun hlt => hneg (decide_eq_true hlt))]
  rw [hunits] at hround
  rw [exact, ofInt, value_eq hround, Int.cast_mul, Int.cast_pow, Int.cast_ofNat,
    mul_div_cancel_right₀ _ (by positivity), Rat.cast_intCast]

end Binary64

namespace Requirement

variable {x : Float} {bound : ℕ}

theorem exact_pos (h : (Scalar.ofInt 0 : Float) < x) : 0 < exact x := by
  have hlt := exact_lt_exact h
  rwa [exact_ofInt (by decide), Int.cast_zero] at hlt

theorem exact_mem_Ioc (hbound : bound < 2 ^ 53)
    (h : (beamwidth (some bound) true).holds x = true) : exact x ∈ Set.Ioc 0 (bound : ℝ) := by
  simp only [holds, Bool.and_eq_true, if_true] at h
  have hle := exact_le_exact (of_decide_eq_true h.2)
  rw [exact_ofInt (n := bound) hbound] at hle
  exact ⟨exact_pos (of_decide_eq_true h.1), by exact_mod_cast hle⟩

theorem exact_mem_Ioo (hbound : bound < 2 ^ 53)
    (h : (beamwidth (some bound) false).holds x = true) : exact x ∈ Set.Ioo 0 (bound : ℝ) := by
  simp only [holds, Bool.and_eq_true, Bool.false_eq_true, if_false] at h
  have hlt := exact_lt_exact (of_decide_eq_true h.2)
  rw [exact_ofInt (n := bound) hbound] at hlt
  exact ⟨exact_pos (of_decide_eq_true h.1), by exact_mod_cast hlt⟩

theorem exact_pos_of_beamwidth {closed : Bool} (h : (beamwidth none closed).holds x = true) :
    0 < exact x := by
  simp only [holds, Bool.and_eq_true] at h
  exact exact_pos (of_decide_eq_true h.2)

/-- What is not a number counts as zero here, so it makes no exception. -/
theorem exact_nonneg (h : nonNegative.holds x = true) : 0 ≤ exact x := by
  have hnot : ¬x < Scalar.zero := by simpa [holds, Scalar.lt] using h
  cases hnan : x.isNaN with
  | true => rw [exact, value, isNaN_iff.mp hnan, Option.getD_none, Int.cast_zero, zero_div,
      Rat.cast_zero]
  | false =>
    have hzero : (Scalar.zero : Float).isNaN = false := by decide
    have hle := exact_le_exact (le_of_not_lt hnan hzero hnot)
    rwa [Scalar.zero, exact_ofInt (by decide), Int.cast_zero] at hle

theorem exact_mem_Icc (h : orientation.holds x = true) : exact x ∈ Set.Icc (-360) 360 := by
  simp only [holds, Bool.and_eq_true] at h
  have hlow := exact_le_exact (of_decide_eq_true h.1)
  have hhigh := exact_le_exact (of_decide_eq_true h.2)
  rw [exact_ofInt (by decide)] at hlow hhigh
  exact ⟨by exact_mod_cast hlow, by exact_mod_cast hhigh⟩

end Requirement

/-! ## Admissible patterns -/

/-- The exact value of the double that a number is near to. -/
noncomputable def Number.exact (n : Number) : ℝ := Binary64.exact n.toDouble

/-- A beamwidth without a limit, or one below a full turn. -/
def Beamwidth.IsAdmissible : Beamwidth ℝ → Prop
  | .unlimited => True
  | .degrees w => w ∈ Set.Ioo 0 360

structure CosinePattern.IsAdmissible (p : CosinePattern ℝ) : Prop where
  horizontal : p.horizontal.IsAdmissible
  vertical : p.vertical.IsAdmissible
  orientation : p.orientation ∈ Set.Icc (-360) 360

structure ParabolicPattern.IsAdmissible (p : ParabolicPattern ℝ) : Prop where
  horizontal : p.horizontal ∈ Set.Ioc 0 180
  vertical : p.vertical ∈ Set.Ioc 0 180
  maxAttenuation : 0 ≤ p.maxAttenuation
  sideLobeAttenuation : 0 ≤ p.sideLobeAttenuation
  orientation : p.orientation ∈ Set.Icc (-360) 360

structure SectorPattern.IsAdmissible (p : SectorPattern ℝ) : Prop where
  vertical : 0 < p.vertical
  horizontal : 0 < p.horizontal
  maxAttenuation : 0 ≤ p.maxAttenuation
  sideLobeAttenuation : 0 ≤ p.sideLobeAttenuation

namespace Element

def IsAdmissible : Element ℝ → Prop
  | .isotropic => True
  | .cosine p => p.IsAdmissible
  | .parabolic p => p.IsAdmissible
  | .sector p => p.IsAdmissible

/-- The element with the exact values of its parameters. -/
noncomputable def exact (e : Element Number) : Element ℝ := e.map Number.exact

end Element

theorem Beamwidth.Fits.isAdmissible {w : Beamwidth Number} (h : w.Fits) :
    (w.map Number.exact).IsAdmissible := by
  cases w with
  | unlimited => trivial
  | degrees n =>
    have hmem := Requirement.exact_mem_Ioo (by decide)
      (Number.Fits.holds h _ (List.mem_singleton.mpr rfl))
    exact_mod_cast hmem

/-- A valid element is admissible over the real numbers. -/
theorem Element.IsValid.isAdmissible {e : Element Number} (h : e.IsValid) :
    e.exact.IsAdmissible := by
  have hclosed {n : Number} (hn : n.Fits [.beamwidth (some 180) true]) :
      n.exact ∈ Set.Ioc 0 180 := by
    have hmem := Requirement.exact_mem_Ioc (by decide) (hn.holds _ (List.mem_singleton.mpr rfl))
    exact_mod_cast hmem
  have hopen {n : Number} (hn : n.Fits [.beamwidth none false]) : 0 < n.exact :=
    Requirement.exact_pos_of_beamwidth (hn.holds _ (List.mem_singleton.mpr rfl))
  have hnonneg {n : Number} (hn : n.Fits [.finite, .nonNegative]) : 0 ≤ n.exact :=
    Requirement.exact_nonneg (hn.holds _ (by simp))
  have horientation {n : Number} (hn : n.Fits [.finite, .orientation]) :
      n.exact ∈ Set.Icc (-360) 360 :=
    Requirement.exact_mem_Icc (hn.holds _ (by simp))
  cases e with
  | isotropic => trivial
  | cosine p =>
    exact ⟨h.horizontal.isAdmissible, h.vertical.isAdmissible, horientation h.orientation⟩
  | parabolic p =>
    exact ⟨hclosed h.horizontal, hclosed h.vertical, hnonneg h.maxAttenuation,
      hnonneg h.sideLobeAttenuation, horientation h.orientation⟩
  | sector p =>
    exact ⟨hopen h.vertical, hopen h.horizontal, hnonneg h.maxAttenuation,
      hnonneg h.sideLobeAttenuation⟩

end AntennaArray
