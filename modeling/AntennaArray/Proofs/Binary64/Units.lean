import Mathlib
import AntennaArray.Scalar

/-!
# Doubles as whole numbers of units

Every finite double is a whole number of times the smallest positive one, which is the unit here.
Infinity takes the place after the greatest double, where rounding carries to. So the doubles that
are numbers are compared as integers are (`lt_iff`, `le_iff`, `beq_iff`), and what is not a number
is comparable to nothing.
-/

namespace AntennaArray.Binary64

open Float.Model (UnpackedFloat Format)
open Float.Model.UnpackedFloat (Sign)

/-- The units of infinity: `2 ^ 53` times the last place of the greatest double. -/
def infinityUnits : ℕ := 2 ^ 53 * 2 ^ 2045

/-- The units of `mantissa * 2 ^ exponent`. -/
def unitsOf (mantissa : ℕ) (exponent : ℤ) : ℕ := mantissa * 2 ^ (exponent + 1074).toNat

/-- The units of what the bits of a double stand for; `none` where that is not a number. -/
def unpackedUnits? : UnpackedFloat → Option ℤ
  | .notANumber => none
  | .infinity s => some (s.apply infinityUnits)
  | .zero _ => some 0
  | .finite s m e _ => some (s.apply (unitsOf m e))

/-- The units of a double. -/
def units? (x : Float) : Option ℤ := unpackedUnits? x.toModel.unpack

/-- The mantissa has 53 bits, or fewer where the exponent is the least one. -/
structure IsRounded (mantissa : ℕ) (exponent : ℤ) : Prop where
  lt : mantissa < 2 ^ 53
  low : -1074 ≤ exponent
  normal : 2 ^ 52 ≤ mantissa ∨ exponent = -1074

/-- The exponent is in range as well. -/
structure IsCanonical (mantissa : ℕ) (exponent : ℤ) : Prop extends
    IsRounded mantissa exponent where
  high : exponent ≤ 971

/-- What is finite has a canonical mantissa and exponent. -/
def IsUnpacked : UnpackedFloat → Prop
  | .finite _ m e _ => IsCanonical m e
  | _ => True

/-- The units that an exponent field and a fraction stand for, whatever the sign. -/
def fieldUnits (field fraction : ℕ) : ℕ :=
  if field = 0 then fraction else (2 ^ 52 + fraction) * 2 ^ (field - 1)

section Fields

variable (b : BitVec Format.binary64.numBits)

theorem unpackMantissa_lt : (UnpackedFloat.unpackMantissa b).toNat < 2 ^ 52 :=
  (UnpackedFloat.unpackMantissa b).isLt

theorem unpackExponent_lt : (UnpackedFloat.unpackExponent b).toNat < 2 ^ 11 :=
  (UnpackedFloat.unpackExponent b).isLt

/-- The mantissa of a normal number begins with one more bit. -/
theorem toNat_append_unpackMantissa :
    (1#1 ++ UnpackedFloat.unpackMantissa b).toNat
      = 2 ^ 52 + (UnpackedFloat.unpackMantissa b).toNat := by
  rw [BitVec.toNat_append, ← Nat.shiftLeft_add_eq_or_of_lt (unpackMantissa_lt b)]
  rfl

/-- The bits of a double stand for a canonical mantissa and exponent. -/
theorem isUnpacked_unpack : IsUnpacked (UnpackedFloat.unpack Format.binary64 b) := by
  have hm := unpackMantissa_lt b
  have he := unpackExponent_lt b
  have happend := toNat_append_unpackMantissa b
  have hbias : (Format.binary64.exponentBias : ℤ) = 1023 := rfl
  have hbits : (Format.binary64.mantissaBitsWithoutImplicit : ℤ) = 52 := rfl
  unfold UnpackedFloat.unpack
  dsimp only
  split
  · split <;> trivial
  · next hinf =>
    have hinf : (UnpackedFloat.unpackExponent b).toNat ≠ 2047 := fun h =>
      hinf (BitVec.eq_of_toNat_eq h)
    split
    · next hzero =>
      split
      · trivial
      · rw [hzero]
        exact ⟨⟨by omega, by decide, .inr rfl⟩, by decide⟩
    · next hzero =>
      have hzero : (UnpackedFloat.unpackExponent b).toNat ≠ 0 := fun h =>
        hzero (BitVec.eq_of_toNat_eq h)
      exact ⟨⟨by omega, by omega, .inl (by omega)⟩, by omega⟩

/-- The units of a double, read off its bits. -/
theorem unpackedUnits?_unpack :
    unpackedUnits? (UnpackedFloat.unpack Format.binary64 b) =
      if (UnpackedFloat.unpackExponent b).toNat = 2047 then
        if (UnpackedFloat.unpackMantissa b).toNat = 0 then
          some ((Sign.ofBitVec (UnpackedFloat.unpackSign b)).apply infinityUnits)
        else none
      else some ((Sign.ofBitVec (UnpackedFloat.unpackSign b)).apply
        (fieldUnits (UnpackedFloat.unpackExponent b).toNat
          (UnpackedFloat.unpackMantissa b).toNat)) := by
  have he := unpackExponent_lt b
  have happend := toNat_append_unpackMantissa b
  have hbias : (Format.binary64.exponentBias : ℤ) = 1023 := rfl
  have hbits : (Format.binary64.mantissaBitsWithoutImplicit : ℤ) = 52 := rfl
  have hinf : UnpackedFloat.unpackExponent b = -1#11 ↔
      (UnpackedFloat.unpackExponent b).toNat = 2047 := BitVec.toNat_inj.symm
  have hexponent : UnpackedFloat.unpackExponent b = 0#11 ↔
      (UnpackedFloat.unpackExponent b).toNat = 0 := BitVec.toNat_inj.symm
  have hmantissa : UnpackedFloat.unpackMantissa b = 0#52 ↔
      (UnpackedFloat.unpackMantissa b).toNat = 0 := BitVec.toNat_inj.symm
  unfold UnpackedFloat.unpack
  dsimp only
  by_cases h2047 : (UnpackedFloat.unpackExponent b).toNat = 2047
  · rw [if_pos (hinf.mpr h2047), if_pos h2047]
    by_cases hm : (UnpackedFloat.unpackMantissa b).toNat = 0
    · rw [if_pos (hmantissa.mpr hm), if_pos hm]
      rfl
    · rw [if_neg (mt hmantissa.mp hm), if_neg hm]
      rfl
  · rw [if_neg (mt hinf.mp h2047), if_neg h2047, fieldUnits]
    by_cases h0 : (UnpackedFloat.unpackExponent b).toNat = 0
    · rw [if_pos (hexponent.mpr h0), if_pos h0]
      by_cases hm : (UnpackedFloat.unpackMantissa b).toNat = 0
      · rw [dif_pos (hmantissa.mpr hm), hm]
        cases Sign.ofBitVec (UnpackedFloat.unpackSign b) <;> rfl
      · have hlow : ((UnpackedFloat.unpackExponent b).toNat
            - ((Format.binary64.exponentBias : ℤ)
              + Format.binary64.mantissaBitsWithoutImplicit) + 1 + 1074).toNat = 0 := by omega
        rw [dif_neg (mt hmantissa.mp hm), unpackedUnits?, unitsOf, hlow, Nat.pow_zero, Nat.mul_one]
    · have hhigh : ((UnpackedFloat.unpackExponent b).toNat
          - ((Format.binary64.exponentBias : ℤ)
            + Format.binary64.mantissaBitsWithoutImplicit) + 1074).toNat
            = (UnpackedFloat.unpackExponent b).toNat - 1 := by omega
      rw [if_neg (mt hexponent.mp h0), if_neg h0, unpackedUnits?, unitsOf, happend, hhigh]

end Fields

/-! ## The order of magnitudes -/

theorem infinityUnits_pos : 0 < infinityUnits := by
  rw [infinityUnits]
  positivity

theorem unitsOf_pos {m : ℕ} (h : 0 < m) (e : ℤ) : 0 < unitsOf m e :=
  Nat.mul_pos h (Nat.two_pow_pos _)

/-- A mantissa of 53 bits with an exponent above all others is at least infinity. -/
theorem infinityUnits_le_unitsOf {m : ℕ} {e : ℤ} (hm : 2 ^ 52 ≤ m) (he : 972 ≤ e) :
    infinityUnits ≤ unitsOf m e := by
  have hgrow (places : ℕ) : 2 ^ 53 * 2 ^ places ≤ m * 2 ^ (1 + (e - 972).toNat + places) := by
    have hfirst : 2 ^ 52 * 2 ^ 1 ≤ m * 2 ^ (1 + (e - 972).toNat) :=
      Nat.mul_le_mul hm (Nat.pow_le_pow_right (by decide) (by omega))
    rw [Nat.pow_add, ← Nat.mul_assoc]
    exact Nat.mul_le_mul_right _ hfirst
  have hplaces : (e + 1074).toNat = 1 + (e - 972).toNat + 2045 := by omega
  rw [unitsOf, hplaces]
  exact hgrow 2045

namespace IsCanonical

variable {m n : ℕ} {e f : ℤ}

/-- With a greater exponent a magnitude is greater, whatever the mantissas. -/
theorem unitsOf_lt_unitsOf (h : IsCanonical m e) (h' : IsCanonical n f) (hlt : e < f) :
    unitsOf m e < unitsOf n f := by
  have hlow := h.low
  have hn : 2 ^ 52 ≤ n := h'.normal.resolve_right (by omega)
  calc unitsOf m e < 2 ^ 53 * 2 ^ (e + 1074).toNat :=
        Nat.mul_lt_mul_of_pos_right h.lt (Nat.two_pow_pos _)
    _ = 2 ^ 52 * 2 ^ ((e + 1074).toNat + 1) := by ring
    _ ≤ 2 ^ 52 * 2 ^ (f + 1074).toNat :=
        Nat.mul_le_mul_left _ (Nat.pow_le_pow_right (by decide) (by omega))
    _ ≤ unitsOf n f := Nat.mul_le_mul_right _ hn

theorem unitsOf_lt_infinityUnits (h : IsCanonical m e) : unitsOf m e < infinityUnits := by
  have hhigh := h.high
  calc unitsOf m e < 2 ^ 53 * 2 ^ (e + 1074).toNat :=
        Nat.mul_lt_mul_of_pos_right h.lt (Nat.two_pow_pos _)
    _ ≤ infinityUnits := by
        rw [infinityUnits]
        gcongr
        · decide
        · omega

/-- Magnitudes are compared by their exponents first and their mantissas second. -/
theorem compare_unitsOf (h : IsCanonical m e) (h' : IsCanonical n f) :
    compare (unitsOf m e : ℤ) (unitsOf n f) = (compare e f).then (compare m n) := by
  rcases lt_trichotomy e f with hlt | rfl | hgt
  · have hunits : (unitsOf m e : ℤ) < unitsOf n f := by
      exact_mod_cast unitsOf_lt_unitsOf h h' hlt
    rw [compare_lt_iff_lt.mpr hlt, compare_lt_iff_lt.mpr hunits]
    rfl
  · have hpos : 0 < 2 ^ (e + 1074).toNat := Nat.two_pow_pos _
    rw [compare_eq_iff_eq.mpr rfl]
    rcases lt_trichotomy m n with hlt | rfl | hgt
    · have hunits : (unitsOf m e : ℤ) < unitsOf n e := by
        exact_mod_cast Nat.mul_lt_mul_of_pos_right hlt hpos
      rw [compare_lt_iff_lt.mpr hlt, compare_lt_iff_lt.mpr hunits]
      rfl
    · simp [Ordering.then]
    · have hunits : (unitsOf n e : ℤ) < unitsOf m e := by
        exact_mod_cast Nat.mul_lt_mul_of_pos_right hgt hpos
      rw [compare_gt_iff_gt.mpr hgt, compare_gt_iff_gt.mpr hunits]
      rfl
  · have hunits : (unitsOf n f : ℤ) < unitsOf m e := by
      exact_mod_cast unitsOf_lt_unitsOf h' h hgt
    rw [compare_gt_iff_gt.mpr hgt, compare_gt_iff_gt.mpr hunits]
    rfl

end IsCanonical

/-! ## The order of doubles -/

theorem compare_neg_neg (a b : ℤ) : compare (-a) (-b) = (compare a b).swap := by
  rcases lt_trichotomy a b with hlt | rfl | hgt
  · rw [compare_lt_iff_lt.mpr hlt, compare_gt_iff_gt.mpr (neg_lt_neg hlt)]
    rfl
  · simp
  · rw [compare_gt_iff_gt.mpr hgt, compare_lt_iff_lt.mpr (neg_lt_neg hgt)]
    rfl

section

variable {u v : UnpackedFloat} {a b : ℤ}

/-- The units of a finite number lie strictly between zero and infinity. -/
theorem unitsOf_mem {m : ℕ} {e : ℤ} (hm : 0 < m) (h : IsCanonical m e) :
    0 < unitsOf m e ∧ unitsOf m e < infinityUnits :=
  ⟨unitsOf_pos hm e, h.unitsOf_lt_infinityUnits⟩

theorem lt_eq_compare (h : a < b) : some Ordering.lt = some (compare a b) := by
  rw [compare_lt_iff_lt.mpr h]

theorem gt_eq_compare (h : b < a) : some Ordering.gt = some (compare a b) := by
  rw [compare_gt_iff_gt.mpr h]

theorem eq_eq_compare (a : ℤ) : some Ordering.eq = some (compare a a) := by
  rw [compare_eq_iff_eq.mpr rfl]

theorem compare_infinity (s : Sign) (hv : IsUnpacked v) (hb : unpackedUnits? v = some b) :
    (UnpackedFloat.infinity s).compare v = some (compare (s.apply infinityUnits) b) := by
  have hinfinity := infinityUnits_pos
  cases v with
  | notANumber => cases hb
  | infinity t =>
    cases hb
    cases s <;> cases t <;> simp only [Sign.apply]
    · exact eq_eq_compare _
    · exact lt_eq_compare (by omega)
    · exact gt_eq_compare (by omega)
    · exact eq_eq_compare _
  | zero t =>
    cases hb
    cases s <;> simp only [Sign.apply]
    · exact lt_eq_compare (by omega)
    · exact gt_eq_compare (by omega)
  | finite t n f hn =>
    cases hb
    have hmem := unitsOf_mem hn hv
    cases s <;> cases t <;> simp only [Sign.apply]
    · exact lt_eq_compare (by omega)
    · exact lt_eq_compare (by omega)
    · exact gt_eq_compare (by omega)
    · exact gt_eq_compare (by omega)

theorem compare_zero (s : Sign) (hv : IsUnpacked v) (hb : unpackedUnits? v = some b) :
    (UnpackedFloat.zero s).compare v = some (compare 0 b) := by
  have hinfinity := infinityUnits_pos
  cases v with
  | notANumber => cases hb
  | infinity t =>
    cases hb
    cases t <;> simp only [Sign.apply]
    · exact gt_eq_compare (by omega)
    · exact lt_eq_compare (by omega)
  | zero t =>
    cases hb
    exact eq_eq_compare 0
  | finite t n f hn =>
    cases hb
    have hmem := unitsOf_mem hn hv
    cases t <;> simp only [Sign.apply]
    · exact gt_eq_compare (by omega)
    · exact lt_eq_compare (by omega)

/-- Only two finite numbers of one sign are compared by what they hold. -/
theorem compare_finite (s : Sign) {m : ℕ} {e : ℤ} (hm : 0 < m) (hu : IsCanonical m e)
    (hv : IsUnpacked v) (hb : unpackedUnits? v = some b) :
    (UnpackedFloat.finite s m e hm).compare v = some (compare (s.apply (unitsOf m e)) b) := by
  have hmem := unitsOf_mem hm hu
  cases v with
  | notANumber => cases hb
  | infinity t =>
    cases hb
    cases s <;> cases t <;> simp only [Sign.apply]
    · exact gt_eq_compare (by omega)
    · exact lt_eq_compare (by omega)
    · exact gt_eq_compare (by omega)
    · exact lt_eq_compare (by omega)
  | zero t =>
    cases hb
    cases s <;> simp only [Sign.apply]
    · exact lt_eq_compare (by omega)
    · exact gt_eq_compare (by omega)
  | finite t n f hn =>
    cases hb
    have hmem' := unitsOf_mem hn hv
    cases s <;> cases t <;> simp only [Sign.apply]
    · rw [compare_neg_neg, IsCanonical.compare_unitsOf hu hv]
      rfl
    · exact lt_eq_compare (by omega)
    · exact gt_eq_compare (by omega)
    · rw [IsCanonical.compare_unitsOf hu hv]
      rfl

/-- Numbers are compared as their units are. -/
theorem compare_eq_some (hu : IsUnpacked u) (hv : IsUnpacked v) (ha : unpackedUnits? u = some a)
    (hb : unpackedUnits? v = some b) : u.compare v = some (compare a b) := by
  cases u with
  | notANumber => cases ha
  | infinity s =>
    cases ha
    exact compare_infinity s hv hb
  | zero s =>
    cases ha
    exact compare_zero s hv hb
  | finite s m e hm =>
    cases ha
    exact compare_finite s hm hu hv hb

end

theorem compare_eq_none {u v : UnpackedFloat}
    (h : unpackedUnits? u = none ∨ unpackedUnits? v = none) : u.compare v = none := by
  rcases h with h | h
  · cases u with
    | notANumber => rfl
    | _ => cases h
  · cases v with
    | notANumber => cases u <;> rfl
    | _ => cases h

/-- Two doubles are compared where both are numbers, and then as their units are. -/
theorem compare_eq (x y : Float) :
    x.toModel.unpack.compare y.toModel.unpack
      = (units? x).bind fun a => (units? y).map fun b => compare a b := by
  cases hx : units? x with
  | none => exact compare_eq_none (.inl hx)
  | some a =>
    cases hy : units? y with
    | none => exact compare_eq_none (.inr hy)
    | some b =>
      exact compare_eq_some (isUnpacked_unpack _) (isUnpacked_unpack _) hx hy

variable {x y : Float}

theorem lt_iff : x < y ↔ ∃ a b, units? x = some a ∧ units? y = some b ∧ a < b := by
  show (decide ((x.toModel.unpack.compare y.toModel.unpack == some .lt) = true)) = true ↔ _
  rw [compare_eq]
  cases units? x <;> cases units? y <;> simp [compare_lt_iff_lt]

theorem le_iff : x ≤ y ↔ ∃ a b, units? x = some a ∧ units? y = some b ∧ a ≤ b := by
  show (decide ((x.toModel.unpack.compare y.toModel.unpack).any (·.isLE) = true)) = true ↔ _
  rw [compare_eq]
  cases units? x <;> cases units? y <;> simp [Ordering.isLE_iff_ne_gt, compare_le_iff_le]

theorem beq_iff : (x == y) = true ↔ ∃ a, units? x = some a ∧ units? y = some a := by
  show (x.toModel.unpack.compare y.toModel.unpack == some .eq) = true ↔ _
  rw [compare_eq]
  cases units? x with
  | none => simp
  | some a =>
    cases units? y with
    | none => simp
    | some b =>
      simp only [Option.bind_some, Option.map_some, Option.some.injEq, exists_eq_left', beq_iff_eq,
        compare_eq_iff_eq]
      exact eq_comm

theorem isNaN_iff : x.isNaN = true ↔ units? x = none := by
  show x.toModel.unpack.isNaN = true ↔ unpackedUnits? x.toModel.unpack = none
  cases x.toModel.unpack with
  | notANumber => exact iff_of_true rfl rfl
  | _ => exact iff_of_false Bool.false_ne_true (Option.some_ne_none _)

theorem isNaN_eq_false_iff : x.isNaN = false ↔ ∃ a, units? x = some a := by
  rw [← Bool.not_eq_true, isNaN_iff, ← ne_eq, Option.ne_none_iff_exists']

/-- Of two numbers one is at most the other. -/
theorem lt_of_not_le (hx : x.isNaN = false) (hy : y.isNaN = false) (h : ¬x ≤ y) : y < x := by
  obtain ⟨a, ha⟩ := isNaN_eq_false_iff.mp hx
  obtain ⟨b, hb⟩ := isNaN_eq_false_iff.mp hy
  refine lt_iff.mpr ⟨b, a, hb, ha, ?_⟩
  simpa [le_iff, ha, hb] using h

theorem le_of_not_lt (hx : x.isNaN = false) (hy : y.isNaN = false) (h : ¬x < y) : y ≤ x := by
  obtain ⟨a, ha⟩ := isNaN_eq_false_iff.mp hx
  obtain ⟨b, hb⟩ := isNaN_eq_false_iff.mp hy
  refine le_iff.mpr ⟨b, a, hb, ha, ?_⟩
  simpa [lt_iff, ha, hb] using h

/-- No magnitude is above infinity, and only infinity reaches it. -/
theorem natAbs_unpackedUnits {u : UnpackedFloat} (hu : IsUnpacked u) {a : ℤ}
    (ha : unpackedUnits? u = some a) : a.natAbs ≤ infinityUnits ∧
      (u.isFinite = true ↔ a.natAbs < infinityUnits) ∧
      (u.isInf = true ↔ a.natAbs = infinityUnits) := by
  have hinfinity := infinityUnits_pos
  have habs (s : Sign) (n : ℕ) : (s.apply n).natAbs = n := by cases s <;> simp [Sign.apply]
  cases u with
  | notANumber => cases ha
  | infinity s =>
    cases ha
    rw [habs]
    exact ⟨le_rfl, iff_of_false Bool.false_ne_true (lt_irrefl _), iff_of_true rfl rfl⟩
  | zero s =>
    cases ha
    exact ⟨hinfinity.le, iff_of_true rfl hinfinity, iff_of_false Bool.false_ne_true hinfinity.ne⟩
  | finite s m e hm =>
    cases ha
    have hlt := IsCanonical.unitsOf_lt_infinityUnits hu
    rw [habs]
    exact ⟨hlt.le, iff_of_true rfl hlt, iff_of_false Bool.false_ne_true hlt.ne⟩

/-- A double whose magnitude is below infinity is finite. -/
theorem isFinite_iff :
    x.isFinite = true ↔ ∃ a, units? x = some a ∧ a.natAbs < infinityUnits := by
  show x.toModel.unpack.isFinite = true ↔ _
  cases hx : units? x with
  | some a =>
    simp only [Option.some.injEq, exists_eq_left']
    exact (natAbs_unpackedUnits (isUnpacked_unpack _) hx).2.1
  | none =>
    have hnan := isNaN_iff.mpr hx
    change x.toModel.unpack.isNaN = true at hnan
    cases hu : x.toModel.unpack <;> simp_all [UnpackedFloat.isNaN, UnpackedFloat.isFinite]

theorem natAbs_lt_of_isFinite (hx : x.isFinite = true) {a : ℤ} (ha : units? x = some a) :
    a.natAbs < infinityUnits := by
  obtain ⟨b, hb, hlt⟩ := isFinite_iff.mp hx
  rw [ha] at hb
  cases hb
  exact hlt

theorem isInf_iff : x.isInf = true ↔ ∃ a, units? x = some a ∧ a.natAbs = infinityUnits := by
  show x.toModel.unpack.isInf = true ↔ _
  cases hx : units? x with
  | some a =>
    simp only [Option.some.injEq, exists_eq_left']
    exact (natAbs_unpackedUnits (isUnpacked_unpack _) hx).2.2
  | none =>
    have hnan := isNaN_iff.mpr hx
    change x.toModel.unpack.isNaN = true at hnan
    cases hu : x.toModel.unpack <;> simp_all [UnpackedFloat.isNaN, UnpackedFloat.isInf]

/-- No magnitude is above infinity. -/
theorem natAbs_le_of_units? {a : ℤ} (h : units? x = some a) : a.natAbs ≤ infinityUnits :=
  (natAbs_unpackedUnits (isUnpacked_unpack _) h).1

/-! ## Equality of doubles -/

/-- What is a number equals itself. -/
theorem beq_self_iff : (x == x) = true ↔ ∃ a, units? x = some a := by
  simp only [beq_iff, and_self]

theorem beq_symm (h : (x == y) = true) : (y == x) = true := by
  obtain ⟨a, hx, hy⟩ := beq_iff.mp h
  exact beq_iff.mpr ⟨a, hy, hx⟩

theorem beq_trans {z : Float} (h : (x == y) = true) (h' : (y == z) = true) : (x == z) = true := by
  obtain ⟨a, hx, hy⟩ := beq_iff.mp h
  obtain ⟨b, hy', hz⟩ := beq_iff.mp h'
  rw [hy] at hy'
  cases hy'
  exact beq_iff.mpr ⟨a, hx, hz⟩

/-- What lies strictly between two numbers is finite. -/
theorem isFinite_of_lt_of_lt {low high : Float} (hlow : low < x) (hhigh : x < high) :
    x.isFinite = true := by
  obtain ⟨l, a, hl, hx, hla⟩ := lt_iff.mp hlow
  obtain ⟨b, h, hx', hh, hbh⟩ := lt_iff.mp hhigh
  rw [hx] at hx'
  cases hx'
  have := natAbs_le_of_units? hl
  have := natAbs_le_of_units? hh
  exact isFinite_iff.mpr ⟨a, hx, by omega⟩

/-- What is finite is not infinite. -/
theorem isInf_eq_false (h : x.isFinite = true) : x.isInf = false := by
  rw [← Bool.not_eq_true, isInf_iff]
  rintro ⟨a, ha, heq⟩
  exact absurd heq (natAbs_lt_of_isFinite h ha).ne

/-- What is finite differs from what is infinite. -/
theorem beq_eq_false (h : x.isFinite = true) (h' : y.isInf = true) : (x == y) = false := by
  obtain ⟨b, hb, heq⟩ := isInf_iff.mp h'
  rw [← Bool.not_eq_true, beq_iff]
  rintro ⟨a, hx, hy⟩
  rw [hb] at hy
  cases hy
  exact absurd heq (natAbs_lt_of_isFinite h hx).ne

end AntennaArray.Binary64
