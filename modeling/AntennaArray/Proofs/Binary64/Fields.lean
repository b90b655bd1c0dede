import AntennaArray.Proofs.Binary64.Sums

/-!
# Bits of doubles

The sign, the field of the exponent and the fraction of a double say what its units are
(`bitsUnits?`). A double is read from them without loss (`readUnits?_ofFloat`), and what fits a
double is assembled from them without rounding (`units?_round`).
-/

namespace AntennaArray.Binary64

open Float.Model (UnpackedFloat Format)
open Float.Model.UnpackedFloat (Sign)

/-! ## Units of bits -/

/-- Units with a sign. -/
def signedUnits (negative : Bool) (n : ℕ) : ℤ := if negative then -n else n

/-- The units of the double with the given bits. -/
def bitsUnits? (bits : ℕ) : Option ℤ :=
  let negative := decide (bits / 2 ^ 63 = 1)
  let field := bits / 2 ^ 52 % 2 ^ 11
  let fraction := bits % 2 ^ 52
  if field = 2047 then if fraction = 0 then some (signedUnits negative infinityUnits) else none
  else some (signedUnits negative (fieldUnits field fraction))

theorem unpackedUnits?_eq_bitsUnits? (b : BitVec Format.binary64.numBits) :
    unpackedUnits? (UnpackedFloat.unpack Format.binary64 b) = bitsUnits? b.toNat := by
  have hlt : b.toNat < 2 ^ 64 := b.isLt
  have hexponent : (UnpackedFloat.unpackExponent b).toNat = b.toNat / 2 ^ 52 % 2 ^ 11 := by
    rw [UnpackedFloat.unpackExponent, BitVec.toNat_cast, BitVec.extractLsb_toNat]
    exact congrArg (· % 2 ^ 11) (Nat.shiftRight_eq_div_pow _ 52)
  have hmantissa : (UnpackedFloat.unpackMantissa b).toNat = b.toNat % 2 ^ 52 := by
    rw [UnpackedFloat.unpackMantissa, BitVec.toNat_cast, BitVec.extractLsb_toNat]
    rfl
  have hsign : (UnpackedFloat.unpackSign b).toNat = b.toNat / 2 ^ 63 := by
    rw [UnpackedFloat.unpackSign, BitVec.toNat_cast, BitVec.extractLsb_toNat]
    show b.toNat >>> 63 % 2 = _
    omega
  have happly (n : ℕ) : (Sign.ofBitVec (UnpackedFloat.unpackSign b)).apply n
      = signedUnits (decide (b.toNat / 2 ^ 63 = 1)) n := by
    have hzero : UnpackedFloat.unpackSign b = 0#1 ↔ b.toNat / 2 ^ 63 = 0 := by
      rw [← hsign]
      exact ⟨fun h => congrArg BitVec.toNat h, fun h => BitVec.eq_of_toNat_eq h⟩
    rw [Sign.ofBitVec, signedUnits]
    by_cases h : b.toNat / 2 ^ 63 = 0
    · rw [if_pos (hzero.mpr h), h]
      rfl
    · rw [if_neg (mt hzero.mp h), if_pos (decide_eq_true (by omega))]
      rfl
  rw [unpackedUnits?_unpack, hexponent, hmantissa, happly, happly]
  rfl

/-! ## Reading -/

/-- The units of what a double is read as. -/
def readUnits? : Binary64 → Option ℤ
  | .notANumber => none
  | .infinity negative => some (signedUnits negative infinityUnits)
  | .finite negative m e => some (signedUnits negative (unitsOf m e))

/-- A double is read by its bits. -/
theorem ofFloat_eq (x : Float) : ofFloat x =
    let negative := decide (x.toBits.toNat / 2 ^ 63 = 1)
    let field : ℕ := x.toBits.toNat / 2 ^ 52 % 2 ^ 11
    let fraction : ℕ := x.toBits.toNat % 2 ^ 52
    if field = 2047 then if fraction = 0 then .infinity negative else .notANumber
    else if field = 0 then .finite negative fraction (-1074)
    else .finite negative (2 ^ 52 + fraction) ((field : ℤ) - 1075) := by
  have hfield : (x.toBits >>> 52 &&& 0x7FF).toNat = x.toBits.toNat / 2 ^ 52 % 2 ^ 11 := by
    rw [UInt64.toNat_and, UInt64.toNat_shiftRight, ← Nat.shiftRight_eq_div_pow]
    exact Nat.and_two_pow_sub_one_eq_mod _ 11
  have hfraction : (x.toBits &&& 0xFFFFFFFFFFFFF).toNat = x.toBits.toNat % 2 ^ 52 := by
    rw [UInt64.toNat_and]
    exact Nat.and_two_pow_sub_one_eq_mod _ 52
  have hsign : (x.toBits >>> 63 == 1) = decide (x.toBits.toNat / 2 ^ 63 = 1) := by
    rw [Bool.eq_iff_iff, beq_iff_eq, decide_eq_true_iff, ← UInt64.toNat_inj,
      UInt64.toNat_shiftRight, ← Nat.shiftRight_eq_div_pow]
    rfl
  rw [ofFloat, hfield, hfraction, hsign]

/-- A double is read as what its units are. -/
theorem readUnits?_ofFloat (x : Float) : readUnits? (ofFloat x) = units? x := by
  have hunits : units? x = bitsUnits? x.toBits.toNat :=
    unpackedUnits?_eq_bitsUnits? (x.toBits.toBitVec : BitVec Format.binary64.numBits)
  rw [hunits, ofFloat_eq, bitsUnits?]
  dsimp only
  generalize x.toBits.toNat / 2 ^ 52 % 2 ^ 11 = field
  by_cases h2047 : field = 2047
  · rw [if_pos h2047, if_pos h2047]
    split <;> rfl
  · rw [if_neg h2047, if_neg h2047]
    by_cases h0 : field = 0
    · rw [if_pos h0, readUnits?, unitsOf, fieldUnits, if_pos h0]
      exact congrArg (fun n => some (signedUnits _ n)) (Nat.mul_one _)
    · have hplaces : ((field : ℤ) - 1075 + 1074).toNat = field - 1 := by omega
      rw [if_neg h0, readUnits?, unitsOf, hplaces, fieldUnits, if_neg h0]

/-- What is read as finite is canonical. -/
theorem isCanonical_of_ofFloat {x : Float} {negative : Bool} {m : ℕ} {e : ℤ}
    (h : ofFloat x = .finite negative m e) : IsCanonical m e := by
  rw [ofFloat_eq] at h
  dsimp only at h
  have hfield : x.toBits.toNat / 2 ^ 52 % 2 ^ 11 < 2 ^ 11 := Nat.mod_lt _ (by decide)
  have hfraction : x.toBits.toNat % 2 ^ 52 < 2 ^ 52 := Nat.mod_lt _ (by decide)
  split at h
  · split at h <;> cases h
  · split at h
    · cases h
      exact ⟨⟨by omega, le_rfl, .inr rfl⟩, by decide⟩
    · cases h
      exact ⟨⟨by omega, by omega, .inl (by omega)⟩, by omega⟩

@[simp] theorem natAbs_signedUnits (negative : Bool) (n : ℕ) :
    (signedUnits negative n).natAbs = n := by
  cases negative <;> simp [signedUnits]

/-- What is not a number is read as such. -/
theorem ofFloat_of_isNaN {x : Float} (hx : x.isNaN = true) : ofFloat x = .notANumber := by
  have hread := (readUnits?_ofFloat x).trans (isNaN_iff.mp hx)
  cases hofFloat : ofFloat x with
  | notANumber => rfl
  | infinity negative =>
    rw [hofFloat] at hread
    cases hread
  | finite negative m e =>
    rw [hofFloat] at hread
    cases hread

/-- Infinity is read as infinity. -/
theorem exists_ofFloat_of_isInf {x : Float} (hx : x.isInf = true) :
    ∃ negative, ofFloat x = .infinity negative := by
  obtain ⟨a, ha, hinfinite⟩ := isInf_iff.mp hx
  have hread := (readUnits?_ofFloat x).trans ha
  cases hofFloat : ofFloat x with
  | notANumber =>
    rw [hofFloat] at hread
    cases hread
  | infinity negative => exact ⟨negative, rfl⟩
  | finite negative m e =>
    rw [hofFloat] at hread
    cases hread
    rw [natAbs_signedUnits] at hinfinite
    exact absurd hinfinite (isCanonical_of_ofFloat hofFloat).unitsOf_lt_infinityUnits.ne

/-- A finite double is read as finite, with its units. -/
theorem exists_ofFloat {x : Float} {a : ℤ} (hx : x.isFinite = true) (ha : units? x = some a) :
    ∃ negative m e, ofFloat x = .finite negative m e ∧ IsCanonical m e ∧
      signedUnits negative (unitsOf m e) = a := by
  have hread := (readUnits?_ofFloat x).trans ha
  cases hofFloat : ofFloat x with
  | notANumber =>
    rw [hofFloat] at hread
    cases hread
  | infinity negative =>
    rw [hofFloat] at hread
    cases hread
    have hlt := natAbs_lt_of_isFinite hx ha
    rw [natAbs_signedUnits] at hlt
    exact absurd hlt (lt_irrefl _)
  | finite negative m e =>
    rw [hofFloat] at hread
    exact ⟨negative, m, e, rfl, isCanonical_of_ofFloat hofFloat, Option.some.inj hread⟩

/-! ## Assembling -/

theorem bitsUnits?_signed (negative : Bool) {field fraction : ℕ} (hfield : field < 2047)
    (hfraction : fraction < 2 ^ 52) :
    bitsUnits? ((if negative then 2 ^ 63 else 0) + (field * 2 ^ 52 + fraction))
      = some (signedUnits negative (fieldUnits field fraction)) := by
  obtain ⟨top, htop, hnegative⟩ : ∃ top, (if negative then 2 ^ 63 else 0) = top * 2 ^ 63 ∧
      (top = 1 ∧ negative = true ∨ top = 0 ∧ negative = false) := by
    cases negative
    · exact ⟨0, rfl, .inr ⟨rfl, rfl⟩⟩
    · exact ⟨1, rfl, .inl ⟨rfl, rfl⟩⟩
  have hsign : decide ((top * 2 ^ 63 + (field * 2 ^ 52 + fraction)) / 2 ^ 63 = 1) = negative := by
    rcases hnegative with ⟨rfl, rfl⟩ | ⟨rfl, rfl⟩
    · exact decide_eq_true (by omega)
    · exact decide_eq_false (by omega)
  have hmiddle : (top * 2 ^ 63 + (field * 2 ^ 52 + fraction)) / 2 ^ 52 % 2 ^ 11 = field := by omega
  have hlast : (top * 2 ^ 63 + (field * 2 ^ 52 + fraction)) % 2 ^ 52 = fraction := by omega
  rw [htop, bitsUnits?, hsign, hmiddle, hlast, if_neg hfield.ne]

/-- The bits of a finite double are assembled to that double. -/
theorem units?_assemble (negative : Bool) {field fraction : ℕ} (hfield : field < 2047)
    (hfraction : fraction < 2 ^ 52) (hlt : fieldUnits field fraction < infinityUnits) :
    units? (assemble negative (field * 2 ^ 52 + fraction))
      = some (signedUnits negative (fieldUnits field fraction)) := by
  have hbits : ((if negative then 0x8000000000000000 else 0)
      + UInt64.ofNat (field * 2 ^ 52 + fraction)).toNat
        = (if negative then 2 ^ 63 else 0) + (field * 2 ^ 52 + fraction) := by
    rw [UInt64.toNat_add, UInt64.toNat_ofNat']
    cases negative
    · show (0 + _) % 2 ^ 64 = 0 + _
      omega
    · show (2 ^ 63 + _) % 2 ^ 64 = 2 ^ 63 + _
      omega
  have hunits := bitsUnits?_signed negative hfield hfraction
  rw [← hbits, ← UInt64.toNat_toBitVec] at hunits
  have hunpacked := (unpackedUnits?_eq_bitsUnits? _).trans hunits
  have hfinite := (natAbs_unpackedUnits (isUnpacked_unpack _) hunpacked).2.1.mpr
    (by rwa [natAbs_signedUnits])
  exact packedUnits?_of_isFinite (isUnpacked_unpack _) hfinite hunpacked

/-- A leading bit in the fraction carries into the field. -/
theorem exists_fields (place : ℕ) {kept : ℕ} (hlt : kept < 2 ^ 53)
    (hnormal : 2 ^ 52 ≤ kept ∨ place = 0) :
    ∃ field fraction, place * 2 ^ 52 + kept = field * 2 ^ 52 + fraction ∧ field ≤ place + 1 ∧
      fraction < 2 ^ 52 ∧ fieldUnits field fraction = kept * 2 ^ place := by
  by_cases hbit : 2 ^ 52 ≤ kept
  · refine ⟨place + 1, kept - 2 ^ 52, by omega, le_rfl, by omega, ?_⟩
    rw [fieldUnits, if_neg (by omega), Nat.add_sub_cancel, Nat.add_sub_of_le hbit]
  · obtain rfl : place = 0 := hnormal.resolve_left hbit
    refine ⟨0, kept, rfl, by omega, by omega, ?_⟩
    rw [fieldUnits, if_pos rfl, Nat.pow_zero, Nat.mul_one]

/-- A mantissa that fits is written with the lowest exponent that keeps it below 53 bits. -/
theorem exists_kept {m : ℕ} (hzero : m ≠ 0) {e : ℤ} (hlt : m < 2 ^ 53) (hlow : -1074 ≤ e)
    (hhigh : e ≤ 971) :
    ∃ target : ℤ, max (m.log2 + e - 52) (-1074) = target ∧ target ≤ e ∧
      IsCanonical (m * 2 ^ (e - target).toNat) target ∧
      unitsOf (m * 2 ^ (e - target).toNat) target = unitsOf m e := by
  have hlog : m.log2 ≤ 52 := Nat.lt_succ_iff.mp ((Nat.log2_lt hzero).mpr hlt)
  obtain ⟨target, htarget⟩ : ∃ target, max (m.log2 + e - 52) (-1074) = target := ⟨_, rfl⟩
  obtain ⟨places, hplaces⟩ : ∃ places, (e - target).toNat = places := ⟨_, rfl⟩
  refine ⟨target, htarget, by omega, ⟨⟨?_, by omega, ?_⟩, by omega⟩, ?_⟩
  · rw [hplaces]
    calc m * 2 ^ places < 2 ^ (m.log2 + 1) * 2 ^ places :=
          Nat.mul_lt_mul_of_pos_right Nat.lt_log2_self (Nat.two_pow_pos _)
      _ = 2 ^ (m.log2 + 1 + places) := (Nat.pow_add ..).symm
      _ ≤ 2 ^ 53 := Nat.pow_le_pow_right (by decide) (by omega)
  · by_cases hleast : target = -1074
    · exact .inr hleast
    · refine .inl ?_
      have hsum : 52 = m.log2 + places := by omega
      rw [hplaces]
      calc 2 ^ 52 = 2 ^ m.log2 * 2 ^ places := by rw [← Nat.pow_add, ← hsum]
        _ ≤ m * 2 ^ places := Nat.mul_le_mul_right _ (Nat.log2_self_le hzero)
  · rw [← Nat.shiftLeft_eq]
    exact unitsOf_shiftLeft (by omega) (by omega)

theorem units?_zeroOf (negative : Bool) :
    units? (zero negative) = some (signedUnits negative 0) := by
  cases negative <;> rfl

theorem units?_infinite (negative : Bool) :
    units? (infinite negative) = some (signedUnits negative infinityUnits) := by
  cases negative <;> rfl

/-- What fits a double is not rounded. -/
theorem units?_round (negative : Bool) {m : ℕ} {e : ℤ} (hlt : m < 2 ^ 53) (hlow : -1074 ≤ e)
    (hhigh : e ≤ 971) :
    units? (round negative m e) = some (signedUnits negative (unitsOf m e)) := by
  by_cases hzero : m = 0
  · subst hzero
    rw [round, if_pos rfl, unitsOf, Nat.zero_mul, units?_zeroOf]
  obtain ⟨target, htarget, hle, hkept, hunits⟩ := exists_kept hzero hlt hlow hhigh
  obtain ⟨field, fraction, hbits, hfield, hfraction, hfields⟩ :=
    exists_fields (target + 1074).toNat hkept.lt (hkept.normal.imp_right fun h => by omega)
  have hfield : field < 2047 := by
    have htop := hkept.high
    omega
  have hround : round negative m e = assemble negative (field * 2 ^ 52 + fraction) := by
    have hmin : min (field * 2 ^ 52 + fraction) (2047 * 2 ^ 52) = field * 2 ^ 52 + fraction :=
      min_eq_left (by omega)
    rw [round, if_neg hzero, htarget]
    dsimp only
    rw [if_pos hle]
    exact congrArg (assemble negative) ((congrArg (min · _) hbits).trans hmin)
  have hbound := hkept.unitsOf_lt_infinityUnits
  rw [unitsOf, ← hfields] at hunits hbound
  rw [hround, ← hunits]
  exact units?_assemble negative hfield hfraction hbound

end AntennaArray.Binary64
