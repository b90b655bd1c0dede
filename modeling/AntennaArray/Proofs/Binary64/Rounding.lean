import AntennaArray.Proofs.Binary64.Units

/-!
# Rounding as a function of units

Rounding to the nearest double is one monotone function on integers, `roundUnits`, that leaves the
units of doubles alone. The hardware cuts off one binary place after the other and keeps a record of
two bits; `roundedMantissa_record` shows that this rounds as `halfEven` does.
-/

namespace AntennaArray

/-! ## Rounding a quotient -/

/-- A greater numerator has no smaller nearest quotient. -/
theorem halfEven_mono {n m : ℕ} (den : ℕ) (hpos : 0 < den) (h : n ≤ m) :
    halfEven n den ≤ halfEven m den := by
  by_contra hlt
  obtain ⟨k, hk⟩ := Nat.exists_eq_add_of_le (Nat.lt_of_not_le hlt)
  have hn := (halfEven_close n den hpos).1
  have hm := (halfEven_close m den hpos).2
  -- the quotients would be a whole unit apart, each at half a unit from its numerator
  have hsum : halfEven n den * den = halfEven m den * den + den + k * den := by
    rw [hk, Nat.succ_eq_add_one]
    ring
  have heq : n = m := by omega
  rw [heq] at hk
  omega

/-- A factor of both the numerator and the denominator does not matter. -/
theorem halfEven_mul_mul (n den c : ℕ) (hpos : 0 < c) :
    halfEven (n * c) (den * c) = halfEven n den := by
  have hlt : den * c < 2 * (n % den * c) ↔ den < 2 * (n % den) := by
    rw [← Nat.mul_assoc, Nat.mul_lt_mul_right hpos]
  have heq : 2 * (n % den * c) = den * c ↔ 2 * (n % den) = den := by
    rw [← Nat.mul_assoc, Nat.mul_left_inj hpos.ne']
  simp only [halfEven, Nat.mul_div_mul_right n den hpos, Nat.mul_mod_mul_right, hlt, heq]

namespace Binary64

/-! ## Rounding units -/

/-- The number of binary places that are cut off. -/
def cutPlaces (n : ℕ) : ℕ := n.log2 - 52

/-- The units of the double that is nearest to some units, as if there were no greatest one. -/
def roundNat (n : ℕ) : ℕ := halfEven n (2 ^ cutPlaces n) * 2 ^ cutPlaces n

/-- The units of the double that is nearest to some units. -/
def roundUnits (a : ℤ) : ℤ := a.sign * (min (roundNat a.natAbs) infinityUnits : ℕ)

/-- What has no places to cut off is left alone. -/
theorem roundNat_of_dvd {n : ℕ} (h : 2 ^ cutPlaces n ∣ n) : roundNat n = n := by
  have hpos : 0 < 2 ^ cutPlaces n := Nat.two_pow_pos _
  rw [roundNat]
  generalize 2 ^ cutPlaces n = den at h hpos ⊢
  obtain ⟨q, rfl⟩ := h
  rw [Nat.mul_comm den q, halfEven_mul q den hpos]

/-- Rounding stays between the powers of two around a number. -/
theorem two_pow_log2_le_roundNat {n : ℕ} (h : n ≠ 0) : 2 ^ n.log2 ≤ roundNat n := by
  have hle : 2 ^ n.log2 ≤ n := Nat.log2_self_le h
  by_cases hcut : n.log2 ≤ 52
  · have hzero : cutPlaces n = 0 := by
      rw [cutPlaces]
      omega
    rw [roundNat_of_dvd (by simp [hzero])]
    exact hle
  · have hlog : n.log2 = 52 + cutPlaces n := by
      rw [cutPlaces]
      omega
    have hpos : 0 < 2 ^ cutPlaces n := Nat.two_pow_pos _
    have hmono : halfEven (2 ^ 52 * 2 ^ cutPlaces n) (2 ^ cutPlaces n)
        ≤ halfEven n (2 ^ cutPlaces n) := by
      refine halfEven_mono _ hpos ?_
      rwa [← Nat.pow_add, ← hlog]
    rw [halfEven_mul _ _ hpos] at hmono
    calc 2 ^ n.log2 = 2 ^ 52 * 2 ^ cutPlaces n := by rw [← Nat.pow_add, ← hlog]
      _ ≤ roundNat n := Nat.mul_le_mul_right _ hmono

theorem roundNat_le_two_pow {n : ℕ} : roundNat n ≤ 2 ^ (n.log2 + 1) := by
  have hlt : n < 2 ^ (n.log2 + 1) := Nat.lt_log2_self
  by_cases hcut : n.log2 ≤ 52
  · have hzero : cutPlaces n = 0 := by
      rw [cutPlaces]
      omega
    rw [roundNat_of_dvd (by simp [hzero])]
    exact hlt.le
  · have hlog : n.log2 + 1 = 53 + cutPlaces n := by
      rw [cutPlaces]
      omega
    have hpos : 0 < 2 ^ cutPlaces n := Nat.two_pow_pos _
    have hmono : halfEven n (2 ^ cutPlaces n)
        ≤ halfEven (2 ^ 53 * 2 ^ cutPlaces n) (2 ^ cutPlaces n) := by
      refine halfEven_mono _ hpos ?_
      rw [← Nat.pow_add, ← hlog]
      exact hlt.le
    rw [halfEven_mul _ _ hpos] at hmono
    calc roundNat n ≤ 2 ^ 53 * 2 ^ cutPlaces n := Nat.mul_le_mul_right _ hmono
      _ = 2 ^ (n.log2 + 1) := by rw [← Nat.pow_add, ← hlog]

/-- What is left of a number after the cut fits into 53 bits, but for a carry beyond them, and needs
all of them if anything was cut off. -/
theorem halfEven_cutPlaces_mem {n : ℕ} (h : n ≠ 0) :
    0 < halfEven n (2 ^ cutPlaces n) ∧ halfEven n (2 ^ cutPlaces n) ≤ 2 ^ 53 ∧
      (2 ^ 52 ≤ halfEven n (2 ^ cutPlaces n) ∨ cutPlaces n = 0) := by
  have hlow : 2 ^ n.log2 ≤ halfEven n (2 ^ cutPlaces n) * 2 ^ cutPlaces n :=
    two_pow_log2_le_roundNat h
  have hhigh : halfEven n (2 ^ cutPlaces n) * 2 ^ cutPlaces n ≤ 2 ^ (n.log2 + 1) :=
    roundNat_le_two_pow
  have hplace : 0 < 2 ^ cutPlaces n := Nat.two_pow_pos _
  have hcut : n.log2 = 52 + cutPlaces n ∨ n.log2 ≤ 52 ∧ cutPlaces n = 0 := by
    rw [cutPlaces]
    omega
  refine ⟨?_, ?_, ?_⟩
  · refine Nat.pos_of_ne_zero fun hzero => ?_
    rw [hzero, Nat.zero_mul] at hlow
    exact absurd hlow (Nat.not_le_of_lt (Nat.two_pow_pos _))
  · refine Nat.le_of_mul_le_mul_right (hhigh.trans ?_) hplace
    rw [← Nat.pow_add]
    exact Nat.pow_le_pow_right (by decide) (by omega)
  · refine hcut.imp (fun hlog => ?_) And.right
    refine Nat.le_of_mul_le_mul_right (le_trans ?_ hlow) hplace
    rw [← Nat.pow_add, ← hlog]

/-- A greater number is rounded to no smaller one. -/
theorem roundNat_mono {n m : ℕ} (h : n ≤ m) : roundNat n ≤ roundNat m := by
  by_cases hn : n = 0
  · subst hn
    rw [roundNat_of_dvd (dvd_zero _)]
    exact Nat.zero_le _
  have hm : m ≠ 0 := by omega
  have hlog : n.log2 ≤ m.log2 := by
    rw [Nat.le_log2 hm]
    exact (Nat.log2_self_le hn).trans h
  rcases hlog.lt_or_eq with hlt | heq
  · calc roundNat n ≤ 2 ^ (n.log2 + 1) := roundNat_le_two_pow
      _ ≤ 2 ^ m.log2 := Nat.pow_le_pow_right (by decide) hlt
      _ ≤ roundNat m := two_pow_log2_le_roundNat hm
  · have hcut : cutPlaces n = cutPlaces m := by rw [cutPlaces, cutPlaces, heq]
    rw [roundNat, roundNat, hcut]
    exact Nat.mul_le_mul_right _ (halfEven_mono _ (Nat.two_pow_pos _) h)

theorem roundUnits_natCast (n : ℕ) : roundUnits n = (min (roundNat n) infinityUnits : ℕ) := by
  rw [roundUnits, Int.natAbs_natCast]
  cases n with
  | zero => rw [roundNat_of_dvd (dvd_zero _), Nat.zero_min, Nat.cast_zero, mul_zero]
  | succ n => rw [Int.sign_eq_one_of_pos (by omega), one_mul]

theorem roundUnits_neg (a : ℤ) : roundUnits (-a) = -roundUnits a := by
  rw [roundUnits, roundUnits, Int.sign_neg, Int.natAbs_neg, neg_mul]

@[simp] theorem roundUnits_zero : roundUnits 0 = 0 := by
  rw [roundUnits, Int.sign_zero, zero_mul]

/-- Greater units are rounded to no smaller ones. -/
theorem roundUnits_mono {a b : ℤ} (h : a ≤ b) : roundUnits a ≤ roundUnits b := by
  have hnat {n m : ℕ} (hle : n ≤ m) : roundUnits n ≤ roundUnits m := by
    rw [roundUnits_natCast, roundUnits_natCast]
    exact_mod_cast min_le_min_right _ (roundNat_mono hle)
  have hnonneg (n : ℕ) : 0 ≤ roundUnits n := by
    rw [roundUnits_natCast]
    exact Int.natCast_nonneg _
  obtain ⟨n, rfl | rfl⟩ := Int.eq_nat_or_neg a
  · obtain ⟨m, rfl⟩ := Int.eq_ofNat_of_zero_le ((Int.natCast_nonneg n).trans h)
    exact hnat (by omega)
  · obtain ⟨m, rfl | rfl⟩ := Int.eq_nat_or_neg b
    · rw [roundUnits_neg]
      have := hnonneg n
      have := hnonneg m
      omega
    · rw [roundUnits_neg, roundUnits_neg]
      have := hnat (n := m) (m := n) (by omega)
      omega

/-! ## Cutting off places -/

section Cut

open Float.Model.UnpackedFloat (ExtendedMantissa)

/-- The whole part of a quotient, and what is recorded of the rest: whether it is at least a half,
and whether it is no multiple of that. -/
def record (num den : ℕ) : ExtendedMantissa where
  mantissa := num / den
  roundBit := decide (den ≤ 2 * (num % den))
  stickyBit := decide (2 * (num % den) % den ≠ 0)

theorem record_one (m : ℕ) : record m 1 = ⟨m, false, false⟩ := by
  simp [record, Nat.mod_one]

/-- Cutting off one more place keeps the record. -/
theorem shiftRightOne_record (num : ℕ) {den : ℕ} (hpos : 0 < den) :
    (record num den).shiftRightOne = record num (den * 2) := by
  have hrest : num % den < den := Nat.mod_lt _ hpos
  have hbit : num / den % 2 < 2 := Nat.mod_lt _ (by decide)
  have hsucc : num % (den * 2) = num % den + den * (num / den % 2) := Nat.mod_mul
  have hmod : 2 * (num % (den * 2)) % (den * 2) = 2 * (num % den) := by
    rw [hsucc, Nat.mul_comm den 2, Nat.mul_mod_mul_left, Nat.add_mul_mod_self_left,
      Nat.mod_eq_of_lt hrest]
  have hround : den * 2 ≤ 2 * (num % (den * 2)) ↔ num / den % 2 ≠ 0 := by
    rcases (by omega : num / den % 2 = 0 ∨ num / den % 2 = 1) with h | h
    · rw [h, Nat.mul_zero, Nat.add_zero] at hsucc
      omega
    · rw [h, Nat.mul_one] at hsucc
      omega
  have hsticky : (den ≤ 2 * (num % den) ∨ 2 * (num % den) % den ≠ 0) ↔ 2 * (num % den) ≠ 0 := by
    by_cases hhalf : den ≤ 2 * (num % den)
    · omega
    · rw [Nat.mod_eq_of_lt (Nat.lt_of_not_le hhalf)]
      omega
  simp only [record, ExtendedMantissa.shiftRightOne, ExtendedMantissa.mk.injEq]
  refine ⟨?_, ?_, ?_⟩
  · rw [Nat.div_div_eq_div_mul]
  · rw [Bool.eq_iff_iff, decide_eq_true_iff, hround, bne_iff_ne]
  · rw [Bool.eq_iff_iff, Bool.or_eq_true, decide_eq_true_iff, decide_eq_true_iff,
      decide_eq_true_iff, hmod, hsticky]

theorem shiftRight_record (num : ℕ) {den : ℕ} (hpos : 0 < den) (k : ℕ) :
    record num den >>> k = record num (den * 2 ^ k) := by
  show k.repeat ExtendedMantissa.shiftRightOne (record num den) = _
  induction k with
  | zero => simp [Nat.repeat]
  | succ k ih =>
    rw [Nat.repeat, ih, shiftRightOne_record num (Nat.mul_pos hpos (Nat.two_pow_pos k)),
      Nat.mul_assoc, Nat.pow_succ]

/-- The record is enough to round to the nearest. -/
theorem roundedMantissa_record (num : ℕ) {den : ℕ} (hpos : 0 < den) :
    (record num den).roundedMantissa = halfEven num den := by
  have hrest : num % den < den := Nat.mod_lt _ hpos
  have hrecord (b c : Bool) (hb : decide (den ≤ 2 * (num % den)) = b)
      (hc : decide (2 * (num % den) % den ≠ 0) = c) : record num den = ⟨num / den, b, c⟩ := by
    rw [record, hb, hc]
  simp only [halfEven]
  by_cases hround : den ≤ 2 * (num % den)
  · have hmod : 2 * (num % den) % den = 2 * (num % den) - den := by
      rw [Nat.mod_eq_sub_mod hround, Nat.mod_eq_of_lt (by omega)]
    by_cases hhalf : 2 * (num % den) = den
    · rw [hrecord true false (decide_eq_true hround) (decide_eq_false (by omega)),
        if_neg (by omega), if_pos hhalf]
      rfl
    · rw [hrecord true true (decide_eq_true hround) (decide_eq_true (by omega)),
        if_pos (by omega)]
      rfl
  · have hmod : 2 * (num % den) % den = 2 * (num % den) := Nat.mod_eq_of_lt (by omega)
    rw [if_neg (by omega), if_neg (by omega)]
    by_cases hzero : num % den = 0
    · rw [hrecord false false (decide_eq_false hround) (decide_eq_false (by omega))]
      rfl
    · rw [hrecord false true (decide_eq_false hround) (decide_eq_true (by omega))]
      rfl

/-- A mantissa without its last places, and what is recorded of them: whether they are at least half
a unit, and whether they are no multiple of that. -/
def cut (m k : ℕ) : ExtendedMantissa where
  mantissa := m / 2 ^ k
  roundBit := decide (2 ^ k ≤ 2 * (m % 2 ^ k))
  stickyBit := decide (2 * (m % 2 ^ k) % 2 ^ k ≠ 0)

@[simp] theorem mantissa_cut (m k : ℕ) : (cut m k).mantissa = m / 2 ^ k := rfl

theorem shiftRight_eq_cut (m k : ℕ) :
    (⟨m, false, false⟩ : ExtendedMantissa) >>> k = cut m k := by
  rw [← record_one, shiftRight_record m Nat.one_pos, Nat.one_mul]
  rfl

theorem roundedMantissa_cut (m k : ℕ) : (cut m k).roundedMantissa = halfEven m (2 ^ k) :=
  roundedMantissa_record m (Nat.two_pow_pos k)

end Cut

end Binary64

end AntennaArray
