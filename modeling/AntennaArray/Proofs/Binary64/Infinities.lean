import AntennaArray.Proofs.Binary64.Products

/-!
# Infinite operands and operands that are no numbers

What is not a number stays so in every operation, and an infinite operand leaves the signs as they
are. So a bound on products or sums that holds for finite doubles holds for all, wherever the result
is a number.
-/

namespace AntennaArray.Binary64

open Float.Model (UnpackedFloat Format)
open Float.Model.UnpackedFloat (Sign)

/-! ## Packing -/

/-- What has been unpacked is packed exactly. -/
theorem packedUnits?_of_isUnpacked {u : UnpackedFloat} (hu : IsUnpacked u) :
    packedUnits? u = unpackedUnits? u := by
  cases u with
  | notANumber => rfl
  | infinity s => cases s <;> rfl
  | zero s => exact packedUnits?_zero s
  | finite s m e hm => exact packedUnits?_of_isFinite hu rfl rfl

theorem packedUnits?_infinity (s : Sign) :
    packedUnits? (.infinity s) = some (s.apply infinityUnits) :=
  packedUnits?_of_isUnpacked (u := .infinity s) trivial

variable {x y z : Float} {a b c : ℤ}

theorem units?_neg (x : Float) : units? (-x) = (units? x).map (-·) :=
  (packedUnits?_of_isUnpacked (isUnpacked_neg (isUnpacked_unpack _))).trans
    (unpackedUnits?_neg x.toModel.unpack)

/-! ## What is not a number -/

section

variable {u v : UnpackedFloat}

theorem packedUnits?_notANumber : packedUnits? .notANumber = none :=
  packedUnits?_of_isUnpacked trivial

theorem ne_notANumber (h : u ≠ .notANumber) : ∃ a, unpackedUnits? u = some a := by
  cases u with
  | notANumber => exact absurd rfl h
  | _ => exact ⟨_, rfl⟩

/-- An operation keeps what is not a number, on either side. -/
def IsStrict (op : UnpackedFloat → UnpackedFloat → UnpackedFloat) : Prop :=
  ∀ u v, u = .notANumber ∨ v = .notANumber → op u v = .notANumber

theorem isStrict_of_forall {op : UnpackedFloat → UnpackedFloat → UnpackedFloat}
    (hleft : ∀ v, op .notANumber v = .notANumber) (hright : ∀ u, op u .notANumber = .notANumber) :
    IsStrict op := by
  rintro u v (rfl | rfl)
  · exact hleft v
  · exact hright u

/-- A strict operation has numbers as operands where its result is one. -/
theorem IsStrict.exists_of_packedUnits? {op : UnpackedFloat → UnpackedFloat → UnpackedFloat}
    (hop : IsStrict op) (h : packedUnits? (op u v) = some c) :
    (∃ a, unpackedUnits? u = some a) ∧ ∃ b, unpackedUnits? v = some b := by
  have hne : ¬(u = .notANumber ∨ v = .notANumber) := by
    intro hnan
    rw [hop u v hnan, packedUnits?_notANumber] at h
    cases h
  obtain ⟨hu, hv⟩ := not_or.mp hne
  exact ⟨ne_notANumber hu, ne_notANumber hv⟩

end

theorem exists_of_mul (h : units? (x * y) = some c) :
    (∃ a, units? x = some a) ∧ ∃ b, units? y = some b :=
  (isStrict_of_forall (fun _ => rfl) fun u => by cases u <;> rfl).exists_of_packedUnits? h

theorem exists_of_div (h : units? (x / y) = some c) :
    (∃ a, units? x = some a) ∧ ∃ b, units? y = some b :=
  (isStrict_of_forall (fun _ => rfl) fun u => by cases u <;> rfl).exists_of_packedUnits? h

theorem exists_of_add (h : units? (x + y) = some c) :
    (∃ a, units? x = some a) ∧ ∃ b, units? y = some b :=
  (isStrict_of_forall (fun _ => rfl) fun u => by cases u <;> rfl).exists_of_packedUnits? h

theorem exists_of_sub (h : units? (x - y) = some c) :
    (∃ a, units? x = some a) ∧ ∃ b, units? y = some b :=
  (isStrict_of_forall (fun _ => rfl) fun u => by cases u <;> rfl).exists_of_packedUnits? h

/-! ## Signs of products -/

theorem apply_mul_apply (s t : Sign) (k l : ℤ) : s.apply k * t.apply l = (s * t).apply (k * l) := by
  cases s <;> cases t
  · exact neg_mul_neg k l
  · exact neg_mul k l
  · exact mul_neg k l
  · rfl

/-- An infinite product has the sign of the exact one. -/
theorem infinity_signs {s t : Sign} {k l : ℕ} (hk : 0 < k) (hl : 0 < l)
    (hc : packedUnits? (.infinity (s * t)) = some c) :
    (0 ≤ s.apply k * t.apply l → 0 ≤ c) ∧ (s.apply k * t.apply l ≤ 0 → c ≤ 0) := by
  have hinfinity := infinityUnits_pos
  have hpos : (0 : ℤ) < k * l := by positivity
  rw [packedUnits?_infinity] at hc
  cases hc
  rw [apply_mul_apply]
  cases s * t <;> simp only [Sign.apply] <;> omega

theorem packedUnits?_mul_signs {u v : UnpackedFloat} (hu : IsUnpacked u) (hv : IsUnpacked v)
    (ha : unpackedUnits? u = some a) (hb : unpackedUnits? v = some b)
    (hc : packedUnits? (UnpackedFloat.mul Format.binary64 u v) = some c) :
    (0 ≤ a * b → 0 ≤ c) ∧ (a * b ≤ 0 → c ≤ 0) := by
  have hone : 0 < 2 ^ 1074 := by positivity
  have hfinite (hfu : u.isFinite = true) (hfv : v.isFinite = true) :
      (0 ≤ a * b → 0 ≤ c) ∧ (a * b ≤ 0 → c ≤ 0) := by
    rw [packedUnits?_mul hu hv hfu hfv ha hb] at hc
    cases hc
    refine ⟨roundRatio_nonneg hone, fun hle => ?_⟩
    have := roundRatio_nonneg hone (Int.neg_nonneg_of_nonpos hle)
    rw [roundRatio_neg] at this
    omega
  -- zero times infinity is not a number
  have hnan (hc : packedUnits? .notANumber = some c) :
      (0 ≤ a * b → 0 ≤ c) ∧ (a * b ≤ 0 → c ≤ 0) := by
    rw [packedUnits?_notANumber] at hc
    cases hc
  have hinfinity := infinityUnits_pos
  cases u with
  | notANumber => cases ha
  | zero s =>
    cases v with
    | notANumber => cases hb
    | infinity t => exact hnan hc
    | zero t => exact hfinite rfl rfl
    | finite t n f hn => exact hfinite rfl rfl
  | infinity s =>
    cases v with
    | notANumber => cases hb
    | infinity t =>
      cases ha
      cases hb
      exact infinity_signs hinfinity hinfinity hc
    | zero t => exact hnan hc
    | finite t n f hn =>
      cases ha
      cases hb
      exact infinity_signs hinfinity (unitsOf_pos hn f) hc
  | finite s m e hm =>
    cases v with
    | notANumber => cases hb
    | infinity t =>
      cases ha
      cases hb
      exact infinity_signs (unitsOf_pos hm e) hinfinity hc
    | zero t => exact hfinite rfl rfl
    | finite t n f hn => exact hfinite rfl rfl

/-- A product has the sign of the exact one, also where it is infinite. -/
theorem mul_signs (ha : units? x = some a) (hb : units? y = some b) (hc : units? (x * y) = some c) :
    (0 ≤ a * b → 0 ≤ c) ∧ (a * b ≤ 0 → c ≤ 0) :=
  packedUnits?_mul_signs (isUnpacked_unpack _) (isUnpacked_unpack _) ha hb hc

/-- A square is not negative. -/
theorem units?_mul_self_nonneg (hc : units? (x * x) = some c) : 0 ≤ c := by
  obtain ⟨⟨a, ha⟩, -⟩ := exists_of_mul hc
  exact (mul_signs ha ha hc).1 (mul_self_nonneg a)

/-! ## Infinite operands -/

/-- What is at most a finite number is finite or minus infinity. -/
theorem isFinite_or_eq_infinity (h : x ≤ y) (hy : y.isFinite = true) :
    x.isFinite = true ∨ x.toModel.unpack = .infinity .negative := by
  obtain ⟨a, b, ha, hb, hab⟩ := le_iff.mp h
  have hlt := natAbs_lt_of_isFinite hy hb
  change unpackedUnits? x.toModel.unpack = some a at ha
  show x.toModel.unpack.isFinite = true ∨ x.toModel.unpack = .infinity .negative
  cases hx : x.toModel.unpack with
  | notANumber =>
    rw [hx] at ha
    cases ha
  | infinity s =>
    rw [hx] at ha
    cases ha
    cases s with
    | negative => exact .inr rfl
    | positive =>
      change (infinityUnits : ℤ) ≤ b at hab
      omega
  | zero s => exact .inl rfl
  | finite s m e hm => exact .inl rfl

theorem units?_of_eq_infinity (h : x.toModel.unpack = .infinity .negative) :
    units? x = some (-(infinityUnits : ℤ)) := by
  rw [units?, h]
  rfl

/-- Minus infinity is at most any number. -/
theorem le_of_units?_eq (hx : units? x = some (-(infinityUnits : ℤ))) (hy : units? y = some b) :
    x ≤ y := by
  have hle := natAbs_le_of_units? hy
  exact le_iff.mpr ⟨_, b, hx, hy, by omega⟩

/-- Nothing grows when something that is not positive is added. -/
theorem add_le_of_nonpos (h : x ≤ 0) (hy : y.isFinite = true) : x + y ≤ y := by
  obtain ⟨b, hb, -⟩ := isFinite_iff.mp hy
  rcases isFinite_or_eq_infinity h (by decide) with hx | hx
  · obtain ⟨a, ha, -⟩ := isFinite_iff.mp hx
    have ha0 := units?_le h ha units?_zero
    refine le_iff.mpr ⟨_, b, units?_add hx hy ha hb, hb, ?_⟩
    calc roundUnits (a + b) ≤ roundUnits b := roundUnits_mono (by omega)
      _ = b := roundUnits_of_units? hy hb
  · have hsum : UnpackedFloat.add Format.binary64 x.toModel.unpack y.toModel.unpack
        = .infinity .negative := by
      change y.toModel.unpack.isFinite = true at hy
      rw [hx]
      cases hv : y.toModel.unpack with
      | notANumber | infinity t =>
        rw [hv] at hy
        cases hy
      | zero t => rfl
      | finite t n f hn => rfl
    refine le_of_units?_eq ?_ hb
    show packedUnits? (UnpackedFloat.add Format.binary64 x.toModel.unpack y.toModel.unpack) = _
    rw [hsum, packedUnits?_infinity]
    rfl

/-- A positive divisor keeps the order, also of minus infinity. -/
theorem div_le_div_of_isFinite (h : x ≤ y) (hy : y.isFinite = true) (hz : z.isFinite = true)
    (hpos : 0 < z) : x / z ≤ y / z := by
  rcases isFinite_or_eq_infinity h hy with hx | hx
  · exact div_le_div_right hx hy hz h hpos
  · obtain ⟨b, hb, -⟩ := isFinite_iff.mp hy
    obtain ⟨c, hc, -⟩ := isFinite_iff.mp hz
    have hc0 := units?_pos hpos hc
    have hquotient : UnpackedFloat.div Format.binary64 x.toModel.unpack z.toModel.unpack
        = .infinity .negative := by
      change z.toModel.unpack.isFinite = true at hz
      change unpackedUnits? z.toModel.unpack = some c at hc
      rw [hx]
      cases hv : z.toModel.unpack with
      | notANumber | infinity t =>
        rw [hv] at hz
        cases hz
      | zero t =>
        rw [hv] at hc
        cases hc
        exact absurd hc0 (lt_irrefl _)
      | finite t n f hn =>
        rw [hv] at hc
        cases hc
        cases t with
        | positive => rfl
        | negative =>
          change 0 < -(unitsOf n f : ℤ) at hc0
          omega
    refine le_of_units?_eq ?_ (units?_div_eq_roundRatio hy hz hb hc hc0.ne')
    show packedUnits? (UnpackedFloat.div Format.binary64 x.toModel.unpack z.toModel.unpack) = _
    rw [hquotient, packedUnits?_infinity]
    rfl

end AntennaArray.Binary64
