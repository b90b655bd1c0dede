import AntennaArray.Angle
import AntennaArray.Proofs.Binary64.Fields

/-!
# Remainders and wrapped angles

The remainder of two doubles is exact (`units?_remainder`). An azimuth that wraps is subtracted from
a half turn twice, with a remainder in between, and each of the three steps may round; since
rounding is monotone and leaves the bounds alone, the result is never out of its range
(`isWrapped_wrap`).
-/

namespace AntennaArray

namespace Binary64

/-! ## Remainders -/

variable {x y : Float} {a b : ℤ}

theorem tmod_signedUnits (negative negative' : Bool) (m n : ℕ) :
    (signedUnits negative m).tmod (signedUnits negative' n) = signedUnits negative (m % n) := by
  have hnat : (m : ℤ).tmod n = (m % n : ℕ) := (Int.ofNat_tmod m n).symm
  cases negative <;> cases negative' <;>
    simp [signedUnits, Int.neg_tmod, Int.tmod_neg, hnat]

/-- Mantissas that are written with one exponent have the remainder of their units. -/
theorem unitsOf_mod {m n : ℕ} {e f least : ℤ} (hlow : -1074 ≤ least) (he : least ≤ e)
    (hf : least ≤ f) :
    unitsOf (m * 2 ^ (e - least).toNat % (n * 2 ^ (f - least).toNat)) least
      = unitsOf m e % unitsOf n f := by
  rw [← unitsOf_shiftLeft (m := m) hlow he, ← unitsOf_shiftLeft (m := n) hlow hf,
    Nat.shiftLeft_eq, Nat.shiftLeft_eq, unitsOf, unitsOf, unitsOf, Nat.mul_mod_mul_right]

/-- The remainder fits a double, since it is no greater than the number with the lower exponent. -/
theorem mod_lt_of_min {m n : ℕ} {e f : ℤ} (hm : m < 2 ^ 53) (hn : n < 2 ^ 53) (hpos : 0 < n) :
    m * 2 ^ (e - min e f).toNat % (n * 2 ^ (f - min e f).toNat) < 2 ^ 53 := by
  rcases le_total e f with hle | hle
  · have hsame : (e - min e f).toNat = 0 := by omega
    rw [hsame, Nat.pow_zero, Nat.mul_one]
    exact (Nat.mod_le _ _).trans_lt hm
  · have hsame : (f - min e f).toNat = 0 := by omega
    rw [hsame, Nat.pow_zero, Nat.mul_one]
    exact (Nat.mod_lt _ hpos).trans hn

/-- The remainder of finite doubles is the one of their units, with the sign of the dividend. -/
theorem units?_remainder (hx : x.isFinite = true) (hy : y.isFinite = true)
    (ha : units? x = some a) (hb : units? y = some b) (hne : b ≠ 0) :
    units? (remainder x y) = some (a.tmod b) := by
  obtain ⟨negative, m, e, hxm, hm, rfl⟩ := exists_ofFloat hx ha
  obtain ⟨negative', n, f, hyn, hn, rfl⟩ := exists_ofFloat hy hb
  have hpos : 0 < n := by
    refine Nat.pos_of_ne_zero fun hzero => hne ?_
    cases negative' <;> simp [hzero, unitsOf, signedUnits]
  have hlow : -1074 ≤ min e f := le_min hm.low hn.low
  have hhigh : min e f ≤ 971 := (min_le_left e f).trans hm.high
  rw [remainder, hxm, hyn]
  simp only [if_neg hpos.ne']
  rw [units?_round negative (mod_lt_of_min hm.lt hn.lt hpos) hlow hhigh,
    unitsOf_mod hlow (min_le_left e f) (min_le_right e f), tmod_signedUnits]

theorem units?_zero : units? 0 = some 0 := by decide

/-- Rounding down adds the divisor to a negative remainder. -/
theorem emod_eq_tmod {a b : ℤ} (hpos : 0 < b) :
    a % b = if a.tmod b < 0 then a.tmod b + b else a.tmod b := by
  have hlow := Int.emod_nonneg a hpos.ne'
  have hhigh := Int.emod_lt_of_pos a hpos
  have htmod : a.tmod b = a % b - (if 0 ≤ a ∨ b ∣ a then 0 else b.natAbs : ℕ) :=
    Int.tmod_eq_emod
  split at htmod
  · rw [if_neg (by omega)]
    omega
  · rw [if_pos (by omega)]
    omega

/-- The remainder that has the sign of the divisor, for a positive one: its units are those of the
exact remainder, rounded where the divisor had to be added. -/
theorem units?_floorMod (hx : x.isFinite = true) (hy : y.isFinite = true)
    (ha : units? x = some a) (hb : units? y = some b) (hpos : 0 < b) :
    units? (floorMod x y) = some (roundUnits (a % b)) := by
  have hrest := units?_remainder hx hy ha hb hpos.ne'
  have hfinite : (remainder x y).isFinite = true := by
    refine isFinite_iff.mpr ⟨_, hrest, lt_trans ?_ (natAbs_lt_of_isFinite hy hb)⟩
    have hhigh := Int.tmod_lt_of_pos a hpos
    have hlow := Int.lt_tmod_of_pos a hpos
    omega
  have hneg : remainder x y < 0 ↔ a.tmod b < 0 := by
    simp [lt_iff, hrest, units?_zero]
  have hbeq : (remainder x y == 0) = true ↔ a.tmod b = 0 := by
    simp only [beq_iff, hrest, units?_zero, Option.some.injEq, exists_eq_left']
    exact eq_comm
  have hdivisor : ¬y < 0 := by
    simp [lt_iff, hb, units?_zero, hpos.le]
  rw [floorMod, emod_eq_tmod hpos]
  by_cases hr : a.tmod b = 0
  · rw [if_pos (hbeq.mpr hr), if_neg (by omega), hr, roundUnits_zero]
    cases isNegative y <;> rfl
  · rw [if_neg (mt hbeq.mp hr)]
    by_cases hlt : a.tmod b < 0
    · rw [if_pos hlt, if_pos (by simp [hdivisor, hneg.mpr hlt])]
      exact units?_add hfinite hy hrest hb
    · rw [if_neg hlt, if_neg (by simp [hdivisor, mt hneg.mp hlt]), hrest,
        roundUnits_of_units? hfinite hrest]

/-- The remainder by a positive divisor is neither negative nor greater than the divisor. It may be
the divisor itself, where a sum was rounded up to it. -/
theorem floorMod_mem (hx : x.isFinite = true) (hy : y.isFinite = true) (hpos : 0 < y) :
    0 ≤ floorMod x y ∧ floorMod x y ≤ y := by
  obtain ⟨a, ha, -⟩ := isFinite_iff.mp hx
  obtain ⟨b, hb, -⟩ := isFinite_iff.mp hy
  have hb0 : 0 < b := by simpa [lt_iff, units?_zero, hb] using hpos
  have hmod := units?_floorMod hx hy ha hb hb0
  constructor
  · refine le_iff.mpr ⟨0, _, units?_zero, hmod, ?_⟩
    calc 0 = roundUnits 0 := roundUnits_zero.symm
      _ ≤ roundUnits (a % b) := roundUnits_mono (Int.emod_nonneg a hb0.ne')
  · refine le_iff.mpr ⟨_, b, hmod, hb, ?_⟩
    calc roundUnits (a % b) ≤ roundUnits b := roundUnits_mono (Int.emod_lt_of_pos a hb0).le
      _ = b := roundUnits_of_units? hy hb

/-! ## Bounds on differences -/

/-- What lies between two finite doubles is finite. -/
theorem isFinite_of_le_of_le {low high : Float} (hlow : low.isFinite = true)
    (hhigh : high.isFinite = true) (hle : low ≤ x) (hle' : x ≤ high) : x.isFinite = true := by
  obtain ⟨l, a, hl, hx, hla⟩ := le_iff.mp hle
  obtain ⟨b, h, hx', hh, hbh⟩ := le_iff.mp hle'
  rw [hx] at hx'
  cases hx'
  have hla' := natAbs_lt_of_isFinite hlow hl
  have hah' := natAbs_lt_of_isFinite hhigh hh
  exact isFinite_iff.mpr ⟨a, hx, by omega⟩

/-- Nothing grows when something that is not negative is taken off. -/
theorem sub_le_of_nonneg (hx : x.isFinite = true) (hy : y.isFinite = true) (h : 0 ≤ y) :
    x - y ≤ x := by
  obtain ⟨a, ha, -⟩ := isFinite_iff.mp hx
  obtain ⟨b, hb, -⟩ := isFinite_iff.mp hy
  have hb0 : 0 ≤ b := by simpa [le_iff, units?_zero, hb] using h
  refine le_iff.mpr ⟨_, a, units?_sub hx hy ha hb, ha, ?_⟩
  calc roundUnits (a - b) ≤ roundUnits a := roundUnits_mono (by omega)
    _ = a := roundUnits_of_units? hx ha

def greatestUnits : ℕ := unitsOf (2 ^ 53 - 1) 971

theorem natAbs_le_greatestUnits (hx : x.isFinite = true) (ha : units? x = some a) :
    a.natAbs ≤ greatestUnits := by
  obtain ⟨negative, m, e, -, hm, rfl⟩ := exists_ofFloat hx ha
  have hlt := hm.lt
  have hhigh := hm.high
  rw [natAbs_signedUnits, greatestUnits, unitsOf, unitsOf]
  exact Nat.mul_le_mul (by omega) (Nat.pow_le_pow_right (by decide) (by omega))

def greatest : Float := Float.ofBits 0x7FEFFFFFFFFFFFFF

theorem units?_greatest : units? greatest = some (greatestUnits : ℤ) := by decide +kernel

/-- No difference with a positive number overflows if it is too small to carry the greatest double
over. -/
theorem isFinite_sub (hx : x.isFinite = true) (hpos : 0 < x)
    (hsmall : (x + greatest).isFinite = true) (hy : y.isFinite = true) :
    (x - y).isFinite = true := by
  have hgreatest : greatest.isFinite = true := by decide
  obtain ⟨a, ha, -⟩ := isFinite_iff.mp hx
  obtain ⟨b, hb, -⟩ := isFinite_iff.mp hy
  have hlt := natAbs_lt_of_isFinite hsmall (units?_add hx hgreatest ha units?_greatest)
  have ha0 : 0 < a := by simpa [lt_iff, units?_zero, ha] using hpos
  have hbound := natAbs_le_greatestUnits hy hb
  have hhigh : roundUnits (a - b) ≤ roundUnits (a + greatestUnits) := roundUnits_mono (by omega)
  have hlow : roundUnits (-(a + greatestUnits)) ≤ roundUnits (a - b) := roundUnits_mono (by omega)
  rw [roundUnits_neg] at hlow
  exact isFinite_iff.mpr ⟨_, units?_sub hx hy ha hb, by omega⟩

end Binary64

/-! ## Angles in their ranges -/

namespace Angle

open Binary64

variable {θ φ : Float}

/-- A finite azimuth wraps into `(-π, π]`. -/
theorem isWrapped_wrap (h : φ.isFinite = true) : isWrapped (wrap φ) = true := by
  have hpi : (Scalar.pi : Float).isFinite = true := by decide
  have hturn : (turn : Float).isFinite = true := by decide
  have hself : isWrapped (Scalar.pi : Float) = true := by decide
  have hdifference : (Scalar.pi - φ).isFinite = true :=
    isFinite_sub hpi (by decide) (by decide +kernel) h
  obtain ⟨hnonneg, hle⟩ := floorMod_mem hdifference hturn (by decide)
  have hrest := isFinite_of_le_of_le (by decide) hturn hnonneg hle
  have hhigh := sub_le_of_nonneg hpi hrest hnonneg
  rw [wrap]
  split
  · next hin => exact hin
  · dsimp only
    split
    · exact hself
    · next hout =>
      have hlow : -Scalar.pi < Scalar.pi - floorMod (Scalar.pi - φ) turn := by
        obtain ⟨a, b, ha, -⟩ := le_iff.mp hhigh
        exact lt_of_not_le (isNaN_eq_false_iff.mpr ⟨a, ha⟩) (by decide)
          fun hle' => hout (decide_eq_true hle')
      exact Bool.and_eq_true_iff.mpr ⟨decide_eq_true hlow, decide_eq_true hhigh⟩

/-- An inclination that is a number is clamped into `[0, π]`. -/
theorem clamp_mem (h : θ.isNaN = false) :
    Scalar.le Scalar.zero (clamp θ) = true ∧ Scalar.le (clamp θ) Scalar.pi = true := by
  have hzero : (Scalar.zero : Float).isNaN = false := by decide
  have hpi : (Scalar.pi : Float).isNaN = false := by decide
  rw [clamp, Scalar.clip]
  split
  · decide
  · next hlow =>
    split
    · decide
    · next hhigh =>
      exact ⟨decide_eq_true (le_of_not_lt h hzero fun hlt => hlow (decide_eq_true hlt)),
        decide_eq_true (le_of_not_lt hpi h fun hlt => hhigh (decide_eq_true hlt))⟩

end Angle

namespace Direction

/-- The inclination is in `[0, π]` and the azimuth in `(-π, π]`, as doubles. -/
structure InRange (d : Direction Float) : Prop where
  theta : Scalar.zero ≤ d.theta ∧ d.theta ≤ Scalar.pi
  phi : -Scalar.pi < d.phi ∧ d.phi ≤ Scalar.pi

/-- A direction with finite angles is brought into the ranges. -/
theorem inRange_normalized {d : Direction Float} (hθ : d.theta.isFinite = true)
    (hφ : d.phi.isFinite = true) : d.normalized.InRange where
  theta := by
    obtain ⟨a, ha, -⟩ := Binary64.isFinite_iff.mp hθ
    obtain ⟨hlow, hhigh⟩ := Angle.clamp_mem (Binary64.isNaN_eq_false_iff.mpr ⟨a, ha⟩)
    exact ⟨of_decide_eq_true hlow, of_decide_eq_true hhigh⟩
  phi := by
    obtain ⟨hlow, hhigh⟩ := Bool.and_eq_true_iff.mp (Angle.isWrapped_wrap hφ)
    exact ⟨of_decide_eq_true hlow, of_decide_eq_true hhigh⟩

end Direction

end AntennaArray
