import AntennaArray.Proofs.Binary64.Elementary
import AntennaArray.Proofs.Binary64.Infinities

/-!
# Bounded magnitudes and powers

A bound on the magnitude of a double (`IsBounded`) is kept by signs, by products with sines and
cosines, and by powers with an exponent that is not negative. A power is an exponential, and that is
monotone on doubles (`expOf_mono`), so powers of ten grow with the exponent.
-/

namespace AntennaArray.Binary64

open FixedPoint (unit precision logTwo)

/-- The magnitude is at most so many units, or the double is not a number. -/
def IsBounded (n : ℕ) (x : Float) : Prop := ∀ a, units? x = some a → a.natAbs ≤ n

variable {x y z : Float} {a b c s t : ℤ} {n : ℕ}

theorem isBounded_of_units? (h : units? x = some a) (hle : a.natAbs ≤ n) : IsBounded n x := by
  intro b hb
  rw [h] at hb
  cases hb
  exact hle

theorem units?_nan : units? nan = none := by decide

theorem isBounded_nan : IsBounded n nan := by
  intro a ha
  rw [units?_nan] at ha
  cases ha

theorem isBounded_one : IsBounded (unitsOf 1 0) 1 := isBounded_of_units? units?_one le_rfl

theorem IsBounded.withSign (h : IsBounded n x) (negative : Bool) :
    IsBounded n (withSign negative x) := by
  cases negative with
  | false => exact h
  | true =>
    intro a ha
    change units? (-x) = some a at ha
    rw [units?_neg, Option.map_eq_some_iff] at ha
    obtain ⟨b, hb, rfl⟩ := ha
    rw [Int.natAbs_neg]
    exact h b hb

theorem IsBounded.isFinite (h : IsBounded n x) (hn : n < infinityUnits) (ha : units? x = some a) :
    x.isFinite = true :=
  isFinite_iff.mpr ⟨a, ha, (h a ha).trans_lt hn⟩

theorem unitsOf_one_lt : unitsOf 1 0 < infinityUnits := by
  rw [unitsOf_one_eq (by decide)]
  exact (isCanonical_two_pow (by decide) (by decide)).unitsOf_lt_infinityUnits

theorem roundNat_one : roundNat (unitsOf 1 0) = unitsOf 1 0 := by
  rw [unitsOf_one_eq (by decide)]
  exact roundNat_unitsOf (by decide) (isCanonical_two_pow (by decide) (by decide)).toIsRounded

/-- A product with a factor of magnitude at most one keeps the bounds that are doubles. -/
theorem IsBounded.mul (hx : IsBounded (unitsOf 1 0) x) (hy : IsBounded n y) (hn : roundNat n = n)
    (hlt : n < infinityUnits) : IsBounded n (x * y) := by
  intro c hc
  obtain ⟨⟨a, ha⟩, b, hb⟩ := exists_of_mul hc
  have ha' := hx a ha
  have hb' := hy b hb
  rw [units?_mul (hx.isFinite unitsOf_one_lt ha) (hy.isFinite hlt hb) ha hb] at hc
  cases hc
  rw [unitsOf_one] at ha'
  have hone : 0 < 2 ^ 1074 := by positivity
  generalize 2 ^ 1074 = one at ha' hone ⊢
  have hround : roundRatio (n * one : ℤ) one = n := by
    rw [roundRatio_mul hone, roundUnits_natCast, hn, min_eq_left hlt.le]
  have hproduct : (a * b).natAbs ≤ n * one := by
    rw [Int.natAbs_mul, Nat.mul_comm n]
    exact Nat.mul_le_mul ha' hb'
  have hhigh : roundRatio (a * b) one ≤ roundRatio (n * one : ℤ) one :=
    roundRatio_mono hone (by omega)
  have hlow : roundRatio (-(n * one : ℤ)) one ≤ roundRatio (a * b) one :=
    roundRatio_mono hone (by omega)
  rw [roundRatio_neg] at hlow
  omega

/-! ## Sines and cosines -/

theorem isBounded_ofFixed (h : t.natAbs ≤ 2 ^ 128) : IsBounded (unitsOf 1 0) (ofFixed t) := by
  have hone : units? (ofFixed unit) = some (unitsOf 1 0 : ℤ) := units?_ofFixed_unit false
  have hminus : units? (ofFixed (-unit)) = some (-(unitsOf 1 0 : ℤ)) := units?_ofFixed_unit true
  have hunit := FixedPoint.unit_eq
  have hlow : ofFixed (-unit) ≤ ofFixed t := ofFixed_mono (by omega)
  have hhigh : ofFixed t ≤ ofFixed unit := ofFixed_mono (by omega)
  intro a ha
  have := units?_le hlow hminus ha
  have := units?_le hhigh ha hone
  omega

/-- A tiny number is of magnitude below one. -/
theorem unitsOf_le_of_isTiny {m : ℕ} {e : ℤ} (he : -1074 ≤ e) (h : isTiny m e = true) :
    unitsOf m e ≤ unitsOf 1 0 := by
  by_contra hlarge
  obtain ⟨hm, hlog⟩ := log2_add_le one_pos (by decide) he (Nat.le_of_not_le hlarge)
  have hone : (1 : ℕ).log2 = 0 := by decide
  rw [isTiny, decide_eq_false hm.ne', Bool.false_or, decide_eq_true_eq] at h
  omega

theorem isBounded_sin (x : Float) : IsBounded (unitsOf 1 0) (sin x) := by
  rw [sin]
  split
  · next negative m e hread =>
    have hm := isCanonical_of_ofFloat hread
    split
    · next htiny =>
      have hunits := readUnits?_ofFloat x
      rw [hread] at hunits
      refine isBounded_of_units? hunits.symm ?_
      rw [natAbs_signedUnits]
      exact unitsOf_le_of_isTiny hm.low htiny
    · exact (isBounded_ofFixed (FixedPoint.natAbs_sin_le hm.high)).withSign negative
  · exact isBounded_nan

theorem isBounded_cos (x : Float) : IsBounded (unitsOf 1 0) (cos x) := by
  rw [cos]
  split
  · next negative m e hread =>
    split
    · exact isBounded_one
    · exact isBounded_ofFixed (FixedPoint.natAbs_cos_le (isCanonical_of_ofFloat hread).high)
  · exact isBounded_nan

/-! ## Logarithms -/

/-- The logarithm of what is not positive is no number, or infinite. -/
theorem log10_eq_of_not_pos (h : ¬0 < x) (hc : units? (log10 x) = some c) :
    c = -(infinityUnits : ℤ) := by
  have hread := readUnits?_ofFloat x
  have hpos {n : ℕ} (hn : 0 < n) (hx : units? x = some (n : ℤ)) : False :=
    h (lt_iff.mpr ⟨0, n, units?_zero, hx, by omega⟩)
  rw [log10] at hc
  split at hc
  · rw [units?_nan] at hc
    cases hc
  · next negative hofFloat =>
    rw [hofFloat] at hread
    cases negative with
    | false => exact (hpos infinityUnits_pos hread.symm).elim
    | true =>
      rw [if_pos rfl, units?_nan] at hc
      cases hc
  · next negative m e hofFloat =>
    rw [hofFloat] at hread
    by_cases hm : m = 0
    · rw [if_pos hm] at hc
      exact Option.some.inj (hc.symm.trans (units?_infinite true))
    · cases negative with
      | false => exact (hpos (unitsOf_pos (Nat.pos_of_ne_zero hm) e) hread.symm).elim
      | true =>
        rw [if_neg hm, if_pos rfl, units?_nan] at hc
        cases hc

/-- The logarithm of a number of magnitude at most one is not positive. -/
theorem log10_nonpos (h : IsBounded (unitsOf 1 0) x) (hc : units? (log10 x) = some c) : c ≤ 0 := by
  by_cases hpos : 0 < x
  · obtain ⟨-, a, -, ha, -⟩ := lt_iff.mp hpos
    have hle := h a ha
    by_cases hone : x < 1
    · have hlog : log10 x < 0 := by
        calc log10 x ≤ ofFixed (-1) := log10_le hpos hone
          _ < 0 := ofFixed_neg_one_lt
      exact (units?_neg_of_lt hlog hc).le
    · have hless : ¬a < unitsOf 1 0 := fun hlt => hone (lt_iff.mpr ⟨a, _, ha, units?_one, hlt⟩)
      have hequal : a = unitsOf 1 0 := by omega
      rw [hequal] at ha
      rw [units?_log10_of_beq_one (beq_iff.mpr ⟨_, ha, units?_one⟩)] at hc
      cases hc
      exact le_rfl
  · rw [log10_eq_of_not_pos hpos hc]
    omega

/-! ## Exponentials -/

/-- An exponent in range is a rest below the logarithm of two, and some turns. -/
structure IsSplit (t turns rest : ℤ) : Prop where
  eq : t = rest + turns * logTwo
  nonneg : 0 ≤ rest
  lt : rest < logTwo
  low : -1200 < turns

theorem exists_isSplit (hlow : -800 * unit < t) : ∃ rest, IsSplit t (t / logTwo) rest := by
  obtain ⟨hless, -⟩ := FixedPoint.logTwo_mem
  have hunit := FixedPoint.unit_pos
  have hnonneg := Int.emod_nonneg t (b := logTwo) (by omega)
  have hlt := Int.emod_lt_of_pos t (b := logTwo) (by omega)
  have heq := Int.emod_add_ediv_mul t logTwo
  generalize t / logTwo = turns at heq ⊢
  generalize t % logTwo = rest at heq hnonneg hlt
  refine ⟨rest, heq.symm, hnonneg, hlt, ?_⟩
  by_contra hfew
  have := Int.mul_le_mul_of_nonneg_right (Int.not_lt.mp hfew) (by omega : 0 ≤ logTwo)
  omega

/-- An exponential in range is that of the rest, doubled with each turn. -/
theorem exists_units?_expOf_of_lt (hlow : -800 * unit < t) (hhigh : t < 800 * unit) :
    ∃ turns rest, IsSplit t turns rest ∧ units? (expOf t) = some ((min (roundQuotient
      ((FixedPoint.exp rest).toNat * 2 ^ (turns + 2020).toNat) (2 ^ 1074)) infinityUnits : ℕ) : ℤ)
      := by
  obtain ⟨rest, hsplit⟩ := exists_isSplit hlow
  refine ⟨t / logTwo, rest, hsplit, ?_⟩
  rw [expOf, if_neg (by omega), if_neg (by omega)]
  dsimp only
  generalize t / logTwo = turns at hsplit ⊢
  have heq := hsplit.eq
  have hmany := hsplit.low
  have hleft : t - turns * logTwo = rest := by omega
  have hexponent : (turns - precision + 2148).toNat = (turns + 2020).toNat := by
    show (turns - 128 + 2148).toNat = _
    omega
  have hlowest : -2148 ≤ turns - precision := by
    show -2148 ≤ turns - 128
    omega
  rw [hleft, units?_round_eq_roundQuotient false _ hlowest, hexponent]
  rfl

/-- An exponential is a number, and not negative. -/
theorem exists_units?_expOf (t : ℤ) : ∃ n : ℕ, units? (expOf t) = some (n : ℤ) := by
  by_cases hhigh : 800 * unit ≤ t
  · refine ⟨infinityUnits, ?_⟩
    rw [expOf, if_pos hhigh, units?_infinite]
    rfl
  · by_cases hlow : t ≤ -800 * unit
    · refine ⟨0, ?_⟩
      rw [expOf, if_neg hhigh, if_pos hlow]
      exact units?_zero
    · obtain ⟨turns, rest, -, hunits⟩ :=
        exists_units?_expOf_of_lt (Int.not_le.mp hlow) (Int.not_le.mp hhigh)
      exact ⟨_, hunits⟩

/-- A greater exponent has no smaller product of the exponential of the rest and its doublings. -/
theorem IsSplit.exp_mul_le {turns turns' rest rest' : ℤ} (hs : IsSplit s turns rest)
    (ht : IsSplit t turns' rest') (h : s ≤ t) :
    (FixedPoint.exp rest).toNat * 2 ^ (turns + 2020).toNat
      ≤ (FixedPoint.exp rest').toNat * 2 ^ (turns' + 2020).toNat := by
  have hone := FixedPoint.unit_le_exp ht.nonneg
  have hunit := FixedPoint.unit_pos
  have heq := hs.eq
  have heq' := ht.eq
  have hlow := hs.low
  rcases lt_trichotomy turns turns' with hfewer | rfl | hmore
  · -- one turn more doubles the exponential, and the rest is below one turn
    have hdouble : FixedPoint.exp rest ≤ 2 * unit :=
      (FixedPoint.exp_mono hs.nonneg hs.lt.le).trans FixedPoint.exp_logTwo_le
    calc (FixedPoint.exp rest).toNat * 2 ^ (turns + 2020).toNat
        ≤ (unit.toNat * 2) * 2 ^ (turns + 2020).toNat := Nat.mul_le_mul_right _ (by omega)
      _ = unit.toNat * 2 ^ ((turns + 2020).toNat + 1) := by ring
      _ ≤ (FixedPoint.exp rest').toNat * 2 ^ (turns' + 2020).toNat :=
        Nat.mul_le_mul (by omega) (Nat.pow_le_pow_right (by decide) (by omega))
  · have hexp := FixedPoint.exp_mono hs.nonneg (y := rest') (by omega)
    exact Nat.mul_le_mul_right _ (by omega)
  · have hnonneg := hs.nonneg
    have hless := ht.lt
    have hlogTwo : 0 ≤ logTwo := hnonneg.trans hs.lt.le
    have := Int.mul_le_mul_of_nonneg_right (show turns' + 1 ≤ turns by omega) hlogTwo
    rw [Int.add_mul] at this
    omega

/-- A greater exponent has no smaller exponential. -/
theorem expOf_mono (h : s ≤ t) : expOf s ≤ expOf t := by
  obtain ⟨k, hk⟩ := exists_units?_expOf s
  obtain ⟨l, hl⟩ := exists_units?_expOf t
  by_cases hhigh : 800 * unit ≤ t
  · have hinfinite : units? (expOf t) = some (infinityUnits : ℤ) := by
      rw [expOf, if_pos hhigh, units?_infinite]
      rfl
    have hle := natAbs_le_of_units? hk
    exact le_iff.mpr ⟨_, _, hk, hinfinite, by omega⟩
  by_cases hlow : s ≤ -800 * unit
  · have hzero : units? (expOf s) = some 0 := by
      rw [expOf, if_neg (by omega), if_pos hlow]
      exact units?_zero
    exact le_iff.mpr ⟨_, _, hzero, hl, Int.natCast_nonneg l⟩
  obtain ⟨turns, rest, hsplit, hunits⟩ :=
    exists_units?_expOf_of_lt (Int.not_le.mp hlow) (by omega)
  obtain ⟨turns', rest', hsplit', hunits'⟩ :=
    exists_units?_expOf_of_lt (t := t) (by omega) (Int.not_le.mp hhigh)
  refine le_iff.mpr ⟨_, _, hunits, hunits', ?_⟩
  suffices hproduct : (FixedPoint.exp rest).toNat * 2 ^ (turns + 2020).toNat
      ≤ (FixedPoint.exp rest').toNat * 2 ^ (turns' + 2020).toNat from
    Int.ofNat_le.mpr (min_le_min_right _ (roundQuotient_mono (by positivity) hproduct))
  exact hsplit.exp_mul_le hsplit' h

theorem expOf_nonneg (t : ℤ) : 0 ≤ expOf t := by
  obtain ⟨k, hk⟩ := exists_units?_expOf t
  exact le_iff.mpr ⟨0, k, units?_zero, hk, Int.natCast_nonneg k⟩

theorem expOf_zero : expOf 0 = ofFixed unit := by
  have hunit := FixedPoint.unit_pos
  rw [expOf, if_neg (by omega), if_neg (by omega)]
  simp only [Int.zero_ediv, zero_mul, sub_zero, FixedPoint.exp_zero, zero_sub]
  rfl

/-- The exponential of what is not positive is at most one. -/
theorem expOf_le_one (h : t ≤ 0) : expOf t ≤ 1 := by
  calc expOf t ≤ expOf 0 := expOf_mono h
    _ ≤ 1 := expOf_zero ▸ ofFixed_unit_le_one

theorem one_le_expOf (h : 0 ≤ t) : 1 ≤ expOf t := by
  have hone : units? (ofFixed unit) = some (unitsOf 1 0 : ℤ) := units?_ofFixed_unit false
  calc (1 : Float) ≤ expOf 0 := expOf_zero ▸ le_iff.mpr ⟨_, _, units?_one, hone, le_rfl⟩
    _ ≤ expOf t := expOf_mono h

theorem isBounded_of_mem (h0 : 0 ≤ x) (h : x ≤ y) (hy : units? y = some (n : ℤ)) :
    IsBounded n x := by
  intro a ha
  have := units?_nonneg h0 ha
  have := units?_le h ha hy
  omega

/-! ## Powers -/

theorem scale_nonneg_of_nonneg {k : ℤ} (h : 0 ≤ k) (e : ℤ) : 0 ≤ FixedPoint.scale k e := by
  obtain ⟨m, rfl⟩ := Int.eq_ofNat_of_zero_le h
  exact FixedPoint.scale_nonneg m e

theorem scale_nonpos {k : ℤ} (h : k ≤ 0) (e : ℤ) : FixedPoint.scale k e ≤ 0 := by
  rw [FixedPoint.scale]
  split
  · rw [Int.shiftLeft_eq]
    exact Int.mul_nonpos_of_nonpos_of_nonneg h (by positivity)
  · rw [Int.shiftRight_eq_div_pow]
    exact Int.ediv_nonpos_of_nonpos_of_neg h (by positivity)

/-- A base of magnitude below one has no power above one. -/
theorem isBounded_powPositive {m : ℕ} {e : ℤ} (hm : 0 < m) (h : m.log2 + e < 0) (n : ℕ) (f : ℤ) :
    IsBounded (unitsOf 1 0) (powPositive m e false n f) := by
  have hlog := FixedPoint.log_neg hm h
  refine isBounded_of_mem (expOf_nonneg _) (expOf_le_one (scale_nonpos ?_ _)) units?_one
  exact Int.mul_nonpos_of_nonpos_of_nonneg hlog.le (Int.natCast_nonneg n)

theorem pow_of_exponent_zero {down : Bool} {f : ℤ} (h : ofFloat y = .finite down 0 f) :
    pow x y = 1 := by
  rw [pow, h]
  cases ofFloat x <;> rfl

/-- A power with a finite base and an exponent that is neither zero nor negative. -/
theorem pow_of_ofFloat {negative : Bool} {m n : ℕ} {e f : ℤ}
    (hx : ofFloat x = .finite negative m e) (hy : ofFloat y = .finite false n f) (hn : n ≠ 0) :
    ∃ minus, pow x y =
      if m = 0 then withSign minus 0
      else if x == 1 then 1
      else if negative && !(wholeAndOdd n f).1 then nan
      else if x == -1 then withSign minus 1
      else withSign minus (powPositive m e false n f) := by
  obtain ⟨k, rfl⟩ := Nat.exists_eq_succ_of_ne_zero hn
  refine ⟨negative && (wholeAndOdd (k + 1) f).1 && (wholeAndOdd (k + 1) f).2, ?_⟩
  rw [pow, hx, hy]
  rfl

theorem units?_neg_one : units? (-1) = some (-(unitsOf 1 0 : ℤ)) := by
  rw [units?_neg, units?_one]
  rfl

/-- What is neither one nor minus one has another magnitude. -/
theorem unitsOf_ne_of_ofFloat {negative : Bool} {m : ℕ} {e : ℤ}
    (h : ofFloat x = .finite negative m e) (hone : ¬(x == 1) = true) (hminus : ¬(x == -1) = true) :
    unitsOf m e ≠ unitsOf 1 0 := by
  intro heq
  have hunits := readUnits?_ofFloat x
  rw [h, readUnits?, heq] at hunits
  cases negative with
  | false => exact hone (beq_iff.mpr ⟨_, hunits.symm, units?_one⟩)
  | true => exact hminus (beq_iff.mpr ⟨_, hunits.symm, units?_neg_one⟩)

/-- No base of magnitude at most one has a power of greater magnitude, for positive exponents. -/
theorem isBounded_pow_of_ofFloat {negative : Bool} {m n : ℕ} {e f : ℤ}
    (hx : ofFloat x = .finite negative m e) (hle : unitsOf m e ≤ unitsOf 1 0)
    (hy : ofFloat y = .finite false n f) (hn : n ≠ 0) : IsBounded (unitsOf 1 0) (pow x y) := by
  obtain ⟨minus, hpow⟩ := pow_of_ofFloat hx hy hn
  rw [hpow]
  by_cases hm : m = 0
  · rw [if_pos hm]
    exact (isBounded_of_units? units?_zero (Nat.zero_le _)).withSign minus
  rw [if_neg hm]
  by_cases hone : (x == 1) = true
  · rw [if_pos hone]
    exact isBounded_one
  rw [if_neg hone]
  split
  · exact isBounded_nan
  by_cases hminus : (x == -1) = true
  · rw [if_pos hminus]
    exact isBounded_one.withSign minus
  rw [if_neg hminus]
  have hlow := (isCanonical_of_ofFloat hx).low
  have hlt := lt_of_le_of_ne hle (unitsOf_ne_of_ofFloat hx hone hminus)
  have hlog := log2_add_lt (Nat.pos_of_ne_zero hm) hlow (by decide) hlt
  exact (isBounded_powPositive (Nat.pos_of_ne_zero hm) hlog n f).withSign minus

/-- A number of magnitude at most one has no greater power, for exponents that are not negative. -/
theorem isBounded_pow (hx : IsBounded (unitsOf 1 0) x) (hy : y.isFinite = true) (hnonneg : 0 ≤ y) :
    IsBounded (unitsOf 1 0) (pow x y) := by
  obtain ⟨down, n, f, h⟩ := exists_isRead hy
  have hread := h.ofFloat
  by_cases hn : n = 0
  · rw [hn] at hread
    rw [pow_of_exponent_zero hread]
    exact isBounded_one
  rw [(h.sign_of_nonneg hnonneg).resolve_left hn] at hread
  have hunits := readUnits?_ofFloat x
  cases hofFloat : ofFloat x with
  | notANumber =>
    obtain ⟨k, rfl⟩ := Nat.exists_eq_succ_of_ne_zero hn
    rw [pow, hofFloat, hread]
    exact isBounded_nan
  | infinity negative =>
    rw [hofFloat] at hunits
    have hle := hx _ hunits.symm
    rw [natAbs_signedUnits] at hle
    exact absurd hle (Nat.not_le_of_lt unitsOf_one_lt)
  | finite negative m e =>
    rw [hofFloat] at hunits
    have hle := hx _ hunits.symm
    rw [natAbs_signedUnits] at hle
    exact isBounded_pow_of_ofFloat hofFloat hle hread hn

/-! ## Powers of ten -/

theorem ofFloat_ten : ofFloat 10 = .finite false (10 * 2 ^ 49) (-49) := by rfl

theorem log_ten_pos : 0 < FixedPoint.log (10 * 2 ^ 49) (-49) :=
  FixedPoint.log_pos (by decide) (by decide)

/-- A power of ten is the exponential of a multiple of one logarithm. -/
theorem pow_ten_of_ofFloat {down : Bool} {n : ℕ} {f : ℤ} (h : ofFloat y = .finite down n f)
    (hn : n ≠ 0) : pow 10 y = powPositive (10 * 2 ^ 49) (-49) down n f := by
  obtain ⟨k, rfl⟩ := Nat.exists_eq_succ_of_ne_zero hn
  rw [pow, ofFloat_ten, h]
  rfl

/-- Minus infinity is read as such. -/
theorem ofFloat_of_eq_infinity (h : y.toModel.unpack = .infinity .negative) :
    ofFloat y = .infinity true := by
  have hunits := (readUnits?_ofFloat y).trans (units?_of_eq_infinity h)
  have hinfinity := infinityUnits_pos
  cases hread : ofFloat y with
  | notANumber =>
    rw [hread] at hunits
    cases hunits
  | infinity negative =>
    cases negative with
    | true => rfl
    | false =>
      rw [hread] at hunits
      have : (infinityUnits : ℤ) = -infinityUnits := Option.some.inj hunits
      omega
  | finite negative m e =>
    rw [hread] at hunits
    have hlt := (isCanonical_of_ofFloat hread).unitsOf_lt_infinityUnits
    have hle := congrArg Int.natAbs (Option.some.inj hunits)
    rw [natAbs_signedUnits, Int.natAbs_neg, Int.natAbs_natCast] at hle
    omega

theorem pow_ten_of_eq_infinity (h : y.toModel.unpack = .infinity .negative) : pow 10 y = 0 := by
  rw [pow, ofFloat_ten, ofFloat_of_eq_infinity h]
  rfl

/-- What is not a number is no exponent of ten. -/
theorem pow_ten_of_units?_none (h : units? y = none) : pow 10 y = nan := by
  have hunits := (readUnits?_ofFloat y).trans h
  cases hread : ofFloat y with
  | notANumber =>
    rw [pow, ofFloat_ten, hread]
    rfl
  | infinity negative =>
    rw [hread] at hunits
    cases hunits
  | finite negative m e =>
    rw [hread] at hunits
    cases hunits

/-- Powers of ten with exponents that are not positive are at most one. -/
theorem pow_ten_mem_of_nonpos (h : y ≤ 0) : 0 ≤ pow 10 y ∧ pow 10 y ≤ 1 := by
  rcases isFinite_or_eq_infinity h (by decide) with hy | hy
  · obtain ⟨down, n, f, hread⟩ := exists_isRead hy
    by_cases hn : n = 0
    · rw [hn] at hread
      rw [pow_of_exponent_zero hread.ofFloat]
      decide
    have hdown : down = true := by
      have hle := units?_le h hread.units units?_zero
      have hpos := unitsOf_pos (Nat.pos_of_ne_zero hn) f
      cases down with
      | true => rfl
      | false =>
        change (unitsOf n f : ℤ) ≤ 0 at hle
        omega
    rw [pow_ten_of_ofFloat hread.ofFloat hn, powPositive, hdown, if_pos rfl]
    refine ⟨expOf_nonneg _, expOf_le_one (scale_nonpos ?_ _)⟩
    exact Int.neg_nonpos_of_nonneg (Int.mul_nonneg log_ten_pos.le (Int.natCast_nonneg n))
  · rw [pow_ten_of_eq_infinity hy]
    decide

theorem one_le_pow_ten (hpos : 0 < y) (hy : y.isFinite = true) : 1 ≤ pow 10 y := by
  obtain ⟨n, f, hn, hread, -⟩ := exists_isRead_of_pos hy hpos
  rw [pow_ten_of_ofFloat hread.ofFloat hn.ne', powPositive, if_neg Bool.false_ne_true]
  refine one_le_expOf (scale_nonneg_of_nonneg ?_ _)
  exact Int.mul_nonneg log_ten_pos.le (Int.natCast_nonneg n)

/-- Among the positive exponents that are not huge, a greater one has no smaller power of ten. -/
theorem pow_ten_mem_of_pos (hy : 0 < y) (h : y ≤ z) (hz : z < round false 1 64) :
    0 ≤ pow 10 y ∧ pow 10 y ≤ pow 10 z := by
  have hy' : y.isFinite = true := isFinite_of_lt_of_lt hy (Trans.trans h hz)
  have hz0 : 0 < z := Trans.trans hy h
  have hz' : z.isFinite = true := isFinite_of_lt_of_lt hz0 hz
  obtain ⟨m, e, hm, hread, hunits⟩ := exists_isRead_of_pos hy' hy
  obtain ⟨n, f, hn, hread', hunits'⟩ := exists_isRead_of_pos hz' hz0
  have hbound : units? (round false 1 64) = some (unitsOf 1 64 : ℤ) :=
    units?_round false (by decide) (by decide) (by decide)
  have hle : unitsOf m e ≤ unitsOf n f := by exact_mod_cast units?_le h hunits hunits'
  have hlt : unitsOf n f < unitsOf 1 64 := by exact_mod_cast units?_lt hz hunits' hbound
  have hlog := log2_add_lt hn hread'.low (by decide) hlt
  have hlog' := (log2_add_le hm hread.low hread'.low hle).2
  obtain ⟨l, hl⟩ := Int.eq_ofNat_of_zero_le log_ten_pos.le
  have hscale : FixedPoint.scale (l * m : ℕ) (e + (0 : ℕ))
      ≤ FixedPoint.scale (l * n : ℕ) (f + (0 : ℕ)) := by
    refine scale_mono hread.low hread'.low ?_ 0 (Nat.zero_le _)
    rw [unitsOf, unitsOf, Nat.mul_assoc, Nat.mul_assoc]
    exact Nat.mul_le_mul_left l hle
  rw [pow_ten_of_ofFloat hread.ofFloat hm.ne', pow_ten_of_ofFloat hread'.ofFloat hn.ne',
    powPositive, powPositive, hl, min_eq_left (by omega), min_eq_left (by omega),
    if_neg Bool.false_ne_true, if_neg Bool.false_ne_true]
  rw [Nat.cast_zero, add_zero, add_zero] at hscale
  exact ⟨expOf_nonneg _, expOf_mono hscale⟩

/-- Up to an exponent that is not huge, powers of ten are at most the one with that exponent. -/
theorem pow_ten_mem (h : y ≤ z) (hz0 : 0 < z) (hz : z < round false 1 64) :
    0 ≤ pow 10 y ∧ pow 10 y ≤ pow 10 z := by
  by_cases hy : 0 < y
  · exact pow_ten_mem_of_pos hy h hz
  · have hnumber : y.isNaN = false := by
      obtain ⟨a, -, ha, -⟩ := le_iff.mp h
      exact isNaN_eq_false_iff.mpr ⟨a, ha⟩
    obtain ⟨hnonneg, hle⟩ := pow_ten_mem_of_nonpos (le_of_not_lt (by decide) hnumber hy)
    refine ⟨hnonneg, ?_⟩
    calc pow 10 y ≤ 1 := hle
      _ ≤ pow 10 z := one_le_pow_ten hz0 (isFinite_of_lt_of_lt hz0 hz)

end AntennaArray.Binary64
