import Mathlib
import AntennaArray.Number.FixedPoint

/-!
# Bounds on fixed-point functions

What the series of the elementary functions give stays where the functions themselves do: sines and
cosines between minus one and one, the cosine of less than a quarter turn above zero, the logarithm
of less than one below zero. All of it follows from integer inequalities for one step of a series,
and from a few facts about the stored constants.
-/

namespace AntennaArray.FixedPoint

variable {x y x' y' : ℤ}

/-! ## Products -/

theorem unit_pos : 0 < unit := by decide

theorem unit_eq : unit = 2 ^ 128 := rfl

/-- A product is the exact one, rounded down. -/
theorem mul_eq (x y : ℤ) : mul x y = x * y / unit := by
  rw [mul, Int.shiftRight_eq_div_pow]
  rfl

theorem mul_nonneg (hx : 0 ≤ x) (hy : 0 ≤ y) : 0 ≤ mul x y := by
  rw [mul_eq]
  exact Int.ediv_nonneg (Int.mul_nonneg hx hy) unit_pos.le

theorem mul_neg (hx : x < 0) (hy : 0 < y) : mul x y < 0 := by
  rw [mul_eq]
  exact Int.ediv_neg_of_neg_of_pos (Int.mul_neg_of_neg_of_pos hx hy) unit_pos

theorem mul_le_mul (hx : x ≤ x') (hy : y ≤ y') (hx' : 0 ≤ x') (hy0 : 0 ≤ y) :
    mul x y ≤ mul x' y' := by
  rw [mul_eq, mul_eq]
  exact Int.ediv_le_ediv unit_pos (Int.mul_le_mul hx hy hy0 hx')

/-- A product with less than one is not greater. -/
theorem mul_le (hx : 0 ≤ x) (hy : y ≤ unit) : mul x y ≤ x := by
  rw [mul_eq]
  exact Int.ediv_le_of_le_mul unit_pos (Int.mul_le_mul_of_nonneg_left hy hx)

theorem le_mul (hx : x ≤ 0) (hy : y ≤ unit) : x ≤ mul x y := by
  rw [mul_eq, Int.le_ediv_iff_mul_le unit_pos]
  exact Int.mul_le_mul_of_nonpos_left hx hy

/-! ## Alternating series -/

section Alternating

variable (z c c' : ℕ) (rest : List ℕ)

theorem alternating_cons :
    alternating z (c :: rest) = c - z * alternating z rest / 2 ^ 128 := by
  rw [alternating, Nat.shiftRight_eq_div_pow]
  rfl

/-- A sum is at most its first term. -/
theorem alternating_le : alternating z (c :: rest) ≤ c := by
  rw [alternating_cons]
  exact Nat.sub_le _ _

/-- A sum is at least what the first two terms leave. -/
theorem le_alternating : c - z * c' / 2 ^ 128 ≤ alternating z (c :: c' :: rest) := by
  rw [alternating_cons]
  have hnext : z * alternating z (c' :: rest) ≤ z * c' :=
    Nat.mul_le_mul_left z (alternating_le z c' rest)
  exact Nat.sub_le_sub_left (Nat.div_le_div_right hnext) c

end Alternating

theorem exists_sineCoefficients :
    ∃ rest, sineCoefficients = 2 ^ 128 :: 2 ^ 128 / 6 :: rest := ⟨_, rfl⟩

theorem exists_cosineCoefficients :
    ∃ rest, cosineCoefficients = 2 ^ 128 :: 2 ^ 127 :: 2 ^ 127 / 12 :: rest := ⟨_, rfl⟩

theorem square_eq (x : ℤ) : square x = x.natAbs * x.natAbs / 2 ^ 128 := by
  rw [square, Nat.shiftRight_eq_div_pow]
  rfl

theorem square_le (h : x.natAbs ≤ 2 ^ 128) : square x ≤ 2 ^ 128 := by
  rw [square_eq]
  exact Nat.div_le_of_le_mul (Nat.mul_le_mul h h)

/-- The factor of the angle in a sine is positive and at most one. -/
theorem alternating_sineCoefficients_mem (h : x.natAbs ≤ 2 ^ 128) :
    0 < alternating (square x) sineCoefficients ∧
      alternating (square x) sineCoefficients ≤ 2 ^ 128 := by
  obtain ⟨rest, hrest⟩ := exists_sineCoefficients
  have hsquare := square_le h
  have hlow := le_alternating (square x) (2 ^ 128) (2 ^ 128 / 6) rest
  have hhigh := alternating_le (square x) (2 ^ 128) (2 ^ 128 / 6 :: rest)
  rw [hrest]
  refine ⟨?_, hhigh⟩
  omega

/-- The sine of a small angle is no further from zero than the angle. -/
theorem sinSmall_mem (h : x.natAbs ≤ 2 ^ 128) :
    (0 ≤ x → 0 ≤ sinSmall x ∧ sinSmall x ≤ x) ∧ (x < 0 → x ≤ sinSmall x ∧ sinSmall x < 0) := by
  obtain ⟨hpos, hle⟩ := alternating_sineCoefficients_mem h
  have hle : (alternating (square x) sineCoefficients : ℤ) ≤ unit := by
    rw [unit_eq]
    exact_mod_cast hle
  rw [sinSmall]
  constructor
  · intro hx
    exact ⟨mul_nonneg hx (Int.natCast_nonneg _), mul_le hx hle⟩
  · intro hx
    exact ⟨le_mul hx.le hle, mul_neg hx (by omega)⟩

/-- The cosine of a small angle is below one by at most half the square, and not by much less. -/
theorem cosSmall_mem (h : x.natAbs ≤ 2 ^ 128) :
    (2 ^ 128 - square x * 2 ^ 127 / 2 ^ 128 : ℕ) ≤ cosSmall x ∧
      cosSmall x ≤ (2 ^ 128 - square x * (7 * 2 ^ 124) / 2 ^ 128 : ℕ) := by
  obtain ⟨rest, hrest⟩ := exists_cosineCoefficients
  have hsquare := square_le h
  rw [cosSmall, hrest]
  have hfirst := le_alternating (square x) (2 ^ 128) (2 ^ 127) (2 ^ 127 / 12 :: rest)
  have hsecond := le_alternating (square x) (2 ^ 127) (2 ^ 127 / 12) rest
  have hleft : 7 * 2 ^ 124 ≤ alternating (square x) (2 ^ 127 :: 2 ^ 127 / 12 :: rest) := by omega
  have hlast : alternating (square x) (2 ^ 128 :: 2 ^ 127 :: 2 ^ 127 / 12 :: rest)
      ≤ 2 ^ 128 - square x * (7 * 2 ^ 124) / 2 ^ 128 := by
    rw [alternating_cons]
    exact Nat.sub_le_sub_left (Nat.div_le_div_right (Nat.mul_le_mul_left _ hleft)) _
  exact ⟨Int.ofNat_le.mpr hfirst, Int.ofNat_le.mpr hlast⟩

theorem cosSmall_pos (h : x.natAbs ≤ 2 ^ 128) : 0 < cosSmall x := by
  have hsquare := square_le h
  have hlow := (cosSmall_mem h).1
  omega

theorem cosSmall_le_unit (h : x.natAbs ≤ 2 ^ 128) : cosSmall x ≤ unit := by
  have hhigh := (cosSmall_mem h).2
  rw [unit_eq]
  omega

/-! ## Quarter turns -/

theorem circle_mem : 2 ^ 1281 ≤ circle ∧ circle ≤ 2 ^ 1282 := by decide +kernel

theorem scale_neg (n : ℤ) {places : ℕ} (h : 0 < places) :
    scale n (-(places : ℤ)) = n / 2 ^ places := by
  have hplaces : (-(-(places : ℤ))).toNat = places := by omega
  rw [scale, if_neg (by omega), hplaces, Int.shiftRight_eq_div_pow]
  rfl

/-- A quarter turn is positive and at most two. -/
theorem quarterTurn_mem {extra : ℕ} (h : extra ≤ 1099) :
    0 < quarterTurn extra ∧ quarterTurn extra ≤ 2 ^ (129 + extra) := by
  obtain ⟨hlow, hhigh⟩ := circle_mem
  obtain ⟨places, hplaces⟩ : ∃ places, places = 1153 - extra := ⟨_, rfl⟩
  have hexponent : (precision : ℤ) + extra - circlePrecision - 1 = -(places : ℤ) := by
    show (128 : ℤ) + extra - 1280 - 1 = _
    omega
  have hpos : (0 : ℤ) < 2 ^ places := by positivity
  rw [quarterTurn, hexponent, scale_neg circle (by omega)]
  constructor
  · have hone : 1 ≤ circle / 2 ^ places := by
      rw [Int.le_ediv_iff_mul_le hpos, one_mul]
      exact (pow_le_pow_right₀ (by decide) (by omega)).trans hlow
    omega
  · refine Int.ediv_le_of_le_mul hpos (hhigh.trans ?_)
    rw [← pow_add]
    exact pow_le_pow_right₀ (by decide) (by omega)

/-- What the nearest number of quarter turns leaves of an angle. -/
theorem exists_quarterTurns {m : ℕ} {e : ℤ} (he : e ≤ 971) :
    ∃ (extra : ℕ) (turns rest : ℤ), extra = 128 + max 0 e ∧ extra ≤ 1099 ∧
      rest = scale m (e + precision + extra) - turns * quarterTurn extra ∧
      -quarterTurn extra ≤ 2 * rest ∧ 2 * rest < quarterTurn extra ∧
      quarterTurns m e = (turns, rest / 2 ^ extra) := by
  obtain ⟨extra, hextra⟩ : ∃ extra : ℕ, extra = 128 + max 0 e := ⟨(128 + max 0 e).toNat, by omega⟩
  have hquarter : (if 0 < e then quarterTurn extra else guardedQuarterTurn)
      = quarterTurn extra := by
    split
    · rfl
    · have hguard : (extra : ℤ) = guardBits := by
        show (extra : ℤ) = 128
        omega
      rw [hguard, guardedQuarterTurn]
  have hpos : 0 < quarterTurn extra := (quarterTurn_mem (by omega)).1
  obtain ⟨angle, hangle⟩ : ∃ angle, scale m (e + precision + extra) = angle := ⟨_, rfl⟩
  obtain ⟨quarter, hq⟩ : ∃ quarter, quarterTurn extra = quarter := ⟨_, rfl⟩
  rw [hq] at hpos
  have hrest := Int.emod_add_mul_ediv (2 * angle + quarter) (2 * quarter)
  have hlow := Int.emod_nonneg (2 * angle + quarter) (b := 2 * quarter) (by omega)
  have hhigh := Int.emod_lt_of_pos (2 * angle + quarter) (b := 2 * quarter) (by omega)
  obtain ⟨turns, hturns⟩ : ∃ turns, (2 * angle + quarter) / (2 * quarter) = turns := ⟨_, rfl⟩
  rw [hturns] at hrest
  have hcomm : 2 * quarter * turns = 2 * (turns * quarter) := by ring
  refine ⟨extra, turns, angle - turns * quarter, hextra, by omega, by rw [hangle, hq], ?_, ?_, ?_⟩
  · rw [hq]
    omega
  · rw [hq]
    omega
  · have hguard : guardBits + max 0 e = extra := hextra.symm
    rw [quarterTurns, hguard, hquarter, hq, hangle, hturns, scale_neg _ (by omega)]

/-- What is left of an angle is at most one. -/
theorem natAbs_rest_le {m : ℕ} {e : ℤ} (he : e ≤ 971) : (quarterTurns m e).2.natAbs ≤ 2 ^ 128 := by
  obtain ⟨extra, turns, rest, -, hextra, -, hlow, hhigh, heq⟩ := exists_quarterTurns (m := m) he
  have hquarter := (quarterTurn_mem hextra).2
  have hpos : (0 : ℤ) < 2 ^ extra := by positivity
  have hsplit : (2 : ℤ) ^ (129 + extra) = 2 * (2 ^ 128 * 2 ^ extra) := by ring
  rw [heq]
  have habove : rest / 2 ^ extra ≤ 2 ^ 128 := Int.ediv_le_of_le_mul hpos (by omega)
  have hbelow : -2 ^ 128 ≤ rest / 2 ^ extra := by
    rw [Int.le_ediv_iff_mul_le hpos]
    omega
  show (rest / 2 ^ extra).natAbs ≤ 2 ^ 128
  omega

theorem natAbs_sinSmall_le (h : x.natAbs ≤ 2 ^ 128) : (sinSmall x).natAbs ≤ 2 ^ 128 := by
  rcases Int.lt_or_le x 0 with hneg | hnonneg
  · obtain ⟨hlow, hhigh⟩ := (sinSmall_mem h).2 hneg
    omega
  · obtain ⟨hlow, hhigh⟩ := (sinSmall_mem h).1 hnonneg
    omega

theorem natAbs_cosSmall_le (h : x.natAbs ≤ 2 ^ 128) : (cosSmall x).natAbs ≤ 2 ^ 128 := by
  have hpos := cosSmall_pos h
  have hle := cosSmall_le_unit h
  rw [unit_eq] at hle
  omega

/-- A sine lies between minus one and one. -/
theorem natAbs_sin_le {m : ℕ} {e : ℤ} (he : e ≤ 971) : (sin m e).natAbs ≤ 2 ^ 128 := by
  have hrest := natAbs_rest_le (m := m) he
  have hsin := natAbs_sinSmall_le hrest
  have hcos := natAbs_cosSmall_le hrest
  rw [sin]
  dsimp only
  split
  · exact hsin
  · exact hcos
  · rwa [Int.natAbs_neg]
  · rwa [Int.natAbs_neg]

/-- A cosine lies between minus one and one. -/
theorem natAbs_cos_le {m : ℕ} {e : ℤ} (he : e ≤ 971) : (cos m e).natAbs ≤ 2 ^ 128 := by
  have hrest := natAbs_rest_le (m := m) he
  have hsin := natAbs_sinSmall_le hrest
  have hcos := natAbs_cosSmall_le hrest
  rw [cos]
  dsimp only
  split
  · exact hcos
  · rwa [Int.natAbs_neg]
  · rwa [Int.natAbs_neg]
  · exact hsin

/-! ## Angles below a quarter turn -/

theorem scale_nonneg (m : ℕ) (e : ℤ) : 0 ≤ scale m e := by
  rw [scale]
  split
  · rw [Int.shiftLeft_eq]
    positivity
  · rw [Int.shiftRight_eq_div_pow]
    positivity

/-- An angle below a quarter turn is nearer to none or to one. In the first case it is kept, up to
its guard bits; in the second case something is missing to the quarter turn. -/
theorem quarterTurns_of_lt {m : ℕ} {e : ℤ} (he : e ≤ 0)
    (h : scale m (e + 256) < guardedQuarterTurn) :
    quarterTurns m e = (0, scale m (e + 256) / 2 ^ 128) ∨
      guardedQuarterTurn ≤ 2 * scale m (e + 256) ∧
        quarterTurns m e = (1, (scale m (e + 256) - guardedQuarterTurn) / 2 ^ 128) := by
  obtain ⟨extra, turns, rest, hextra, -, hrest, hlow, hhigh, heq⟩ :=
    exists_quarterTurns (m := m) (he.trans (by decide))
  obtain rfl : extra = 128 := by omega
  have hexponent : e + (precision : ℤ) + (128 : ℕ) = e + 256 := by
    show e + 128 + 128 = _
    omega
  have hnonneg := scale_nonneg m (e + 256)
  change rest = scale m _ - turns * guardedQuarterTurn at hrest
  change -guardedQuarterTurn ≤ 2 * rest at hlow
  change 2 * rest < guardedQuarterTurn at hhigh
  rw [hexponent] at hrest
  rw [heq]
  generalize scale m (e + 256) = angle at *
  generalize guardedQuarterTurn = quarter at *
  have hfew : turns < 2 := by
    by_contra hmany
    have := Int.mul_le_mul_of_nonneg_right (Int.not_lt.mp hmany) (by omega : 0 ≤ quarter)
    omega
  have hsome : -1 < turns := by
    by_contra hnone
    have := Int.mul_le_mul_of_nonneg_right (Int.not_lt.mp hnone) (by omega : 0 ≤ quarter)
    omega
  rcases (by omega : turns = 0 ∨ turns = 1) with rfl | rfl
  · rw [zero_mul, sub_zero] at hrest
    exact .inl (by rw [hrest])
  · rw [one_mul] at hrest
    exact .inr ⟨by omega, by rw [hrest]⟩

/-- A quarter turn is at least `2 ^ 256` and below `8/5 * 2 ^ 256`. -/
theorem guardedQuarterTurn_mem :
    2 ^ 256 ≤ guardedQuarterTurn ∧ 5 * guardedQuarterTurn ≤ 2 ^ 259 := by decide +kernel

section

variable {m : ℕ} {e : ℤ}

/-- The cosine of an angle below a quarter turn is that of the angle itself, if it is small, and
else the sine of what is missing to the quarter turn, at most four fifths. -/
theorem cos_of_lt (he : e ≤ 0) (h : scale m (e + 256) < guardedQuarterTurn) :
    (∃ rest : ℕ, rest ≤ 2 ^ 128 ∧ rest = scale m (e + 256) / 2 ^ 128 ∧ cos m e = cosSmall rest) ∨
      guardedQuarterTurn ≤ 2 * scale m (e + 256) ∧ 0 < cos m e ∧ 5 * cos m e ≤ 2 ^ 130 + 5 := by
  have hrest := natAbs_rest_le (m := m) (he.trans (by decide))
  have hnonneg := scale_nonneg m (e + 256)
  have hquarter := guardedQuarterTurn_mem
  rw [cos]
  rcases quarterTurns_of_lt he h with heq | ⟨hhalf, heq⟩
  · left
    rw [heq] at hrest ⊢
    obtain ⟨rest, hr⟩ : ∃ rest : ℕ, rest = scale m (e + 256) / 2 ^ 128 :=
      ⟨(scale m (e + 256) / 2 ^ 128).toNat, by omega⟩
    rw [← hr] at hrest ⊢
    exact ⟨rest, hrest, rfl, rfl⟩
  · right
    rw [heq] at hrest ⊢
    obtain ⟨rest, hr⟩ : ∃ rest, (scale m (e + 256) - guardedQuarterTurn) / 2 ^ 128 = rest :=
      ⟨_, rfl⟩
    rw [hr] at hrest ⊢
    have hle : rest.natAbs ≤ 2 ^ 128 := hrest
    obtain ⟨hlow, hhigh⟩ := (sinSmall_mem hle).2 (by omega)
    refine ⟨hhalf, ?_⟩
    show 0 < -sinSmall rest ∧ 5 * -sinSmall rest ≤ 2 ^ 130 + 5
    omega

/-- Below a quarter turn a cosine is positive and at most one. -/
theorem cos_mem_of_lt (he : e ≤ 0) (h : scale m (e + 256) < guardedQuarterTurn) :
    0 < cos m e ∧ cos m e ≤ unit := by
  rcases cos_of_lt he h with ⟨rest, hle, -, heq⟩ | ⟨-, hpos, hle⟩
  · rw [heq]
    exact ⟨cosSmall_pos hle, cosSmall_le_unit hle⟩
  · rw [unit_eq]
    omega

theorem square_natCast (r : ℕ) : square r = r * r / 2 ^ 128 := square_eq r

/-- An angle that is not too small takes something off the cosine. -/
theorem cos_le_of_le {r : ℕ} (he : e ≤ 0) (h : scale m (e + 256) < guardedQuarterTurn)
    (hr : r * 2 ^ 128 ≤ scale m (e + 256)) (hsmall : r ≤ 2 ^ 120) :
    cos m e ≤ (2 ^ 128 - r * r / 2 ^ 128 * (7 * 2 ^ 124) / 2 ^ 128 : ℕ) := by
  have hbound : r * r / 2 ^ 128 ≤ 2 ^ 112 :=
    Nat.div_le_of_le_mul ((Nat.mul_le_mul hsmall hsmall).trans (by decide))
  rcases cos_of_lt he h with ⟨rest, hle, hrest, heq⟩ | ⟨-, hpos, hfar⟩
  · have hmore : r ≤ rest := by omega
    rw [heq]
    refine (cosSmall_mem (x := rest) hle).2.trans (Int.ofNat_le.mpr ?_)
    rw [square_natCast]
    have hsquare : r * r / 2 ^ 128 ≤ rest * rest / 2 ^ 128 :=
      Nat.div_le_div_right (Nat.mul_le_mul hmore hmore)
    exact Nat.sub_le_sub_left (Nat.div_le_div_right (Nat.mul_le_mul_right _ hsquare)) _
  · omega

/-- A small angle takes little off the cosine. -/
theorem le_cos_of_le {r : ℕ} (he : e ≤ 0) (hr : scale m (e + 256) < (r + 1) * 2 ^ 128)
    (hsmall : r ≤ 2 ^ 120) :
    (2 ^ 128 - r * r / 2 ^ 128 * 2 ^ 127 / 2 ^ 128 : ℕ) ≤ cos m e := by
  have hquarter := guardedQuarterTurn_mem
  rcases cos_of_lt (m := m) he (by omega) with ⟨rest, hle, hrest, heq⟩ | ⟨hhalf, -⟩
  · have hless : rest ≤ r := by omega
    rw [heq]
    refine (Int.ofNat_le.mpr ?_).trans (cosSmall_mem (x := rest) hle).1
    rw [square_natCast]
    have hsquare : rest * rest / 2 ^ 128 ≤ r * r / 2 ^ 128 :=
      Nat.div_le_div_right (Nat.mul_le_mul hless hless)
    exact Nat.sub_le_sub_left (Nat.div_le_div_right (Nat.mul_le_mul_right _ hsquare)) _
  · omega

end

/-! ## Logarithms -/

/-- The sum of the odd reciprocals is positive and at most two, for squares up to a half. -/
theorem oddReciprocals_mem {z : ℤ} (hz : 0 ≤ z) (hhalf : 2 * z ≤ unit) (fuel : ℕ) {k : ℤ}
    (hk : 1 ≤ k) : 0 ≤ oddReciprocals z fuel k ∧ oddReciprocals z fuel k ≤ 2 * unit := by
  induction fuel generalizing k with
  | zero => exact ⟨le_rfl, (by decide : 0 ≤ 2 * unit)⟩
  | succ fuel ih =>
    obtain ⟨hnonneg, hle⟩ := ih (k := k + 2) (by omega)
    have hfirst : unit / k ≤ unit := Int.ediv_le_self _ unit_pos.le
    have hfirst' : 0 ≤ unit / k := Int.ediv_nonneg unit_pos.le (by omega)
    have hmul : mul z (oddReciprocals z fuel (k + 2)) ≤ unit := by
      rw [mul_eq]
      refine Int.ediv_le_of_le_mul unit_pos ?_
      calc z * oddReciprocals z fuel (k + 2)
          ≤ z * (2 * unit) := Int.mul_le_mul_of_nonneg_left hle hz
        _ = 2 * z * unit := by ring
        _ ≤ unit * unit := Int.mul_le_mul_of_nonneg_right hhalf unit_pos.le
    have hmul' := mul_nonneg hz hnonneg
    rw [oddReciprocals]
    omega

theorem unit_le_oddReciprocals {z : ℤ} (hz : 0 ≤ z) (hhalf : 2 * z ≤ unit) (fuel : ℕ) :
    unit ≤ oddReciprocals z (fuel + 1) 1 := by
  have hnonneg := (oddReciprocals_mem hz hhalf fuel (k := 1 + 2) (by decide)).1
  have hmul := mul_nonneg hz hnonneg
  rw [oddReciprocals, Int.ediv_one]
  omega

/-- The ratio whose inverse hyperbolic tangent is taken is at most a half. -/
theorem ratio_mem {num den : ℤ} (hnum : 0 < num) (hlow : den ≤ 2 * num) (hhigh : num ≤ 2 * den) :
    -unit ≤ 2 * ((num - den) * unit / (num + den)) ∧
      2 * ((num - den) * unit / (num + den)) ≤ unit := by
  obtain ⟨half, hhalf⟩ : ∃ half, unit = 2 * half := ⟨2 ^ 127, rfl⟩
  have hunit := unit_pos
  rw [hhalf] at hunit ⊢
  have hsum : 0 < num + den := by omega
  have hbelow : -half ≤ (num - den) * (2 * half) / (num + den) := by
    rw [Int.le_ediv_iff_mul_le hsum]
    have := Int.mul_le_mul_of_nonneg_right (show den ≤ 3 * num by omega) (by omega : 0 ≤ half)
    linarith
  have habove : (num - den) * (2 * half) / (num + den) ≤ half := by
    refine Int.ediv_le_of_le_mul hsum ?_
    have := Int.mul_le_mul_of_nonneg_right (show num ≤ 3 * den by omega) (by omega : 0 ≤ half)
    linarith
  omega

theorem mul_self_mem {z : ℤ} (hlow : -unit ≤ 2 * z) (hhigh : 2 * z ≤ unit) :
    0 ≤ mul z z ∧ 2 * mul z z ≤ unit := by
  have hunit := unit_pos
  rw [mul_eq]
  refine ⟨Int.ediv_nonneg (mul_self_nonneg z) hunit.le, ?_⟩
  have hsquare : 2 * z * (2 * z) ≤ unit * unit := abs_le_iff_mul_self_le.mp (by
    rw [abs_of_pos hunit]
    exact abs_le.mpr ⟨hlow, hhigh⟩)
  have hle : 4 * (z * z / unit) * unit ≤ unit * unit := by
    have := Int.ediv_mul_le (z * z) hunit.ne'
    linarith
  have := Int.le_of_mul_le_mul_right hle hunit
  have := Int.ediv_nonneg (mul_self_nonneg z) hunit.le
  omega

/-- A logarithm near one has the sign of the logarithm and is above minus two. -/
theorem logNearOne_mem {num den : ℤ} (hnum : 0 < num) (hlow : den ≤ 2 * num)
    (hhigh : num ≤ 2 * den) :
    -2 * unit ≤ logNearOne num den ∧ (num < den → logNearOne num den < 0) := by
  have hsum : 0 < num + den := by omega
  have hunit := unit_pos
  obtain ⟨hbelow, habove⟩ := ratio_mem hnum hlow hhigh
  obtain ⟨z, hz⟩ : ∃ z, (num - den) * unit / (num + den) = z := ⟨_, rfl⟩
  rw [hz] at hbelow habove
  obtain ⟨hsquare, hsquare'⟩ := mul_self_mem hbelow habove
  obtain ⟨hodd, hodd'⟩ := oddReciprocals_mem hsquare hsquare' 28 (k := 1) le_rfl
  have hone : unit ≤ oddReciprocals (mul z z) 28 1 := unit_le_oddReciprocals hsquare hsquare' 27
  rw [logNearOne, hz]
  generalize oddReciprocals (mul z z) 28 1 = odd at hodd hodd' hone
  constructor
  · have hproduct : -unit ≤ mul z odd := by
      rw [mul_eq, Int.le_ediv_iff_mul_le hunit]
      rcases Int.lt_or_le z 0 with hneg | hnonneg
      · calc -unit * unit ≤ 2 * z * unit := Int.mul_le_mul_of_nonneg_right hbelow hunit.le
          _ = z * (2 * unit) := by ring
          _ ≤ z * odd := Int.mul_le_mul_of_nonpos_left hneg.le hodd'
      · have := Int.mul_nonneg hnonneg hodd
        have := Int.mul_nonneg hunit.le hunit.le
        linarith
    show -2 * unit ≤ 2 * mul z odd
    omega
  · intro hlt
    have hneg : z < 0 := by
      rw [← hz]
      exact Int.ediv_neg_of_neg_of_pos (Int.mul_neg_of_neg_of_pos (by omega) hunit) hsum
    have := mul_neg hneg (hunit.trans_le hone)
    show 2 * mul z odd < 0
    omega

/-- Up to the root of two the logarithm is less than seven tenths. -/
theorem logNearOne_le {num den : ℤ} (hden : 0 < den) (hle : den ≤ num)
    (hroot : num * num ≤ 2 * (den * den)) : 1000 * logNearOne num den ≤ 688 * unit := by
  have hsum : 0 < num + den := by omega
  have hunit := unit_pos
  have hratio : 828 * num ≤ 1172 * den := by
    rw [mul_self_le_mul_self_iff (by omega) (by omega)]
    have := Int.mul_nonneg hden.le hden.le
    linarith
  obtain ⟨hbelow, habove⟩ := @ratio_mem num den (by omega) (by omega) (by omega)
  have hnonneg : 0 ≤ (num - den) * unit / (num + den) :=
    Int.ediv_nonneg (Int.mul_nonneg (by omega) hunit.le) hsum.le
  have hz : 1000 * ((num - den) * unit / (num + den)) ≤ 172 * unit := by
    refine Int.le_of_mul_le_mul_right (?_ : _ * (num + den) ≤ _ * (num + den)) hsum
    have hround := Int.ediv_mul_le ((num - den) * unit) hsum.ne'
    have := Int.mul_le_mul_of_nonneg_right (show 1000 * (num - den) ≤ 172 * (num + den) by omega)
      hunit.le
    linarith
  rw [logNearOne]
  generalize (num - den) * unit / (num + den) = z at hbelow habove hnonneg hz
  obtain ⟨hsquare, hsquare'⟩ := mul_self_mem hbelow habove
  obtain ⟨hodd, hodd'⟩ := oddReciprocals_mem hsquare hsquare' 28 (k := 1) le_rfl
  generalize oddReciprocals (mul z z) 28 1 = odd at hodd hodd'
  have hproduct : 1000 * mul z odd ≤ 344 * unit := by
    refine Int.le_of_mul_le_mul_right (?_ : _ * unit ≤ _ * unit) hunit
    have hround := Int.ediv_mul_le (z * odd) hunit.ne'
    have hodd := Int.mul_le_mul_of_nonneg_left hodd' hnonneg
    have := Int.mul_le_mul_of_nonneg_right hz hunit.le
    rw [mul_eq]
    linarith
  show 1000 * (2 * mul z odd) ≤ 688 * unit
  omega

theorem logTwo_mem : 690 * unit ≤ 1000 * logTwo ∧ logTwo ≤ unit := by decide +kernel

theorem logTen_mem : unit ≤ logTen ∧ logTen ≤ 3 * unit := by decide +kernel

/-- A logarithm is that of a number near one and some logarithms of two. -/
theorem exists_log {m : ℕ} (hm : 0 < m) (e : ℤ) :
    ∃ bits : ℕ, log m e = logNearOne m (2 ^ bits) + (bits + e) * logTwo ∧
      (2 ^ bits : ℤ) ≤ 2 * m ∧ (m : ℤ) ≤ 2 * 2 ^ bits ∧
      (bits = m.log2 + 1 ∧ (m : ℤ) < 2 ^ bits ∨
        bits = m.log2 ∧ (2 ^ bits : ℤ) ≤ m ∧ (m * m : ℤ) ≤ 2 * (2 ^ bits * 2 ^ bits)) := by
  have hlow : ((2 ^ m.log2 : ℕ) : ℤ) ≤ m := Int.ofNat_le.mpr (Nat.log2_self_le hm.ne')
  have hhigh : (m : ℤ) < (2 ^ (m.log2 + 1) : ℕ) := Int.ofNat_lt.mpr Nat.lt_log2_self
  push_cast at hlow hhigh
  have hsucc : (2 : ℤ) ^ (m.log2 + 1) = 2 * 2 ^ m.log2 := by ring
  by_cases hroot : 2 ^ (2 * m.log2 + 1) ≤ m * m
  · refine ⟨m.log2 + 1, ?_, by omega, by omega, .inl ⟨rfl, hhigh⟩⟩
    rw [log, if_pos hroot]
  · refine ⟨m.log2, ?_, by omega, by omega, .inr ⟨rfl, hlow, ?_⟩⟩
    · rw [log, if_neg hroot]
    · have hsplit : 2 ^ (2 * m.log2 + 1) = 2 * (2 ^ m.log2 * 2 ^ m.log2) := by ring
      have hle : m * m ≤ 2 * (2 ^ m.log2 * 2 ^ m.log2) := by omega
      exact_mod_cast hle

/-- The logarithm of less than one is negative. -/
theorem log_neg {m : ℕ} (hm : 0 < m) {e : ℤ} (h : m.log2 + e < 0) : log m e < 0 := by
  obtain ⟨hlow, hhigh⟩ := logTwo_mem
  have hunit := unit_pos
  obtain ⟨bits, hlog, hnear, hnear', hcases⟩ := exists_log hm e
  rw [hlog]
  rcases hcases with ⟨hbits, hlt⟩ | ⟨hbits, hle, hroot⟩
  · have hnear := (logNearOne_mem (by omega) hnear hnear').2 hlt
    have hpowers : (bits + e) * logTwo ≤ 0 :=
      Int.mul_nonpos_of_nonpos_of_nonneg (by omega) (by omega)
    omega
  · have hnear := logNearOne_le (by positivity) hle hroot
    have hpowers := Int.mul_le_mul_of_nonneg_right (show (bits : ℤ) + e ≤ -1 by omega)
      (by omega : 0 ≤ logTwo)
    omega

/-- The logarithm is at most two below that of the leading bit. -/
theorem sub_le_log {m : ℕ} (hm : 0 < m) (e : ℤ) : (m.log2 + e) * logTwo - 2 * unit ≤ log m e := by
  have hlogTwo : 0 ≤ logTwo := by
    have := logTwo_mem.1
    have := unit_pos
    omega
  obtain ⟨bits, hlog, hnear, hnear', hcases⟩ := exists_log hm e
  have hfirst := (logNearOne_mem (by omega) hnear hnear').1
  have hpowers := Int.mul_le_mul_of_nonneg_right (show m.log2 + e ≤ (bits : ℤ) + e by omega) hlogTwo
  omega

/-- The logarithm of a number that is not too small is bounded. -/
theorem le_log {m : ℕ} (hm : 0 < m) {e : ℤ} (h : -128 ≤ m.log2 + e) : -130 * unit ≤ log m e := by
  obtain ⟨hlow, hhigh⟩ := logTwo_mem
  have hunit := unit_pos
  have hlog := sub_le_log hm e
  have hpowers := Int.mul_le_mul_of_nonneg_right h (by omega : 0 ≤ logTwo)
  omega

/-- From eight on the logarithm is positive. -/
theorem log_pos {m : ℕ} (hm : 0 < m) {e : ℤ} (h : 3 ≤ m.log2 + e) : 0 < log m e := by
  obtain ⟨hlow, hhigh⟩ := logTwo_mem
  have hunit := unit_pos
  have hlog := sub_le_log hm e
  have hpowers := Int.mul_le_mul_of_nonneg_right h (by omega : 0 ≤ logTwo)
  omega

/-! ## Exponentials -/

/-- The exponential of a number that is not negative is at least one, and grows with it. -/
theorem expSeries_mono (hx : 0 ≤ x) (hle : x ≤ y) (fuel : ℕ) {k : ℤ} (hk : 1 ≤ k) :
    unit ≤ expSeries x fuel k ∧ expSeries x fuel k ≤ expSeries y fuel k := by
  induction fuel generalizing k with
  | zero => exact ⟨le_rfl, le_rfl⟩
  | succ fuel ih =>
    obtain ⟨hone, hmono⟩ := ih (k := k + 1) (by omega)
    have hnonneg : 0 ≤ expSeries x fuel (k + 1) := unit_pos.le.trans hone
    have hterm : 0 ≤ mul x (expSeries x fuel (k + 1)) / k :=
      Int.ediv_nonneg (mul_nonneg hx hnonneg) (by omega)
    have hterms : mul x (expSeries x fuel (k + 1)) / k ≤ mul y (expSeries y fuel (k + 1)) / k :=
      Int.ediv_le_ediv (by omega) (mul_le_mul hle hmono (hx.trans hle) hnonneg)
    rw [expSeries, expSeries]
    omega

theorem exp_zero : exp 0 = unit := by
  have hseries (fuel : ℕ) (k : ℤ) : expSeries 0 fuel k = unit := by
    cases fuel with
    | zero => rfl
    | succ fuel => rw [expSeries, mul_eq, zero_mul, Int.zero_ediv, Int.zero_ediv, add_zero]
  exact hseries 35 1

theorem exp_mono (hx : 0 ≤ x) (hle : x ≤ y) : exp x ≤ exp y :=
  (expSeries_mono hx hle 35 le_rfl).2

theorem unit_le_exp (hx : 0 ≤ x) : unit ≤ exp x :=
  (expSeries_mono hx le_rfl 35 le_rfl).1

/-- The exponential of the logarithm of two, as it is stored, is not above two. -/
theorem exp_logTwo_le : exp logTwo ≤ 2 * unit := by decide +kernel

end AntennaArray.FixedPoint
