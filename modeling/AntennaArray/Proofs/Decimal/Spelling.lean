import AntennaArray.Decimal.Reading
import AntennaArray.Proofs.Binary64.Quotients
import AntennaArray.Proofs.Binary64.Sums
import AntennaArray.Proofs.Decimal.Significant
import AntennaArray.Proofs.Json.Lexeme

/-!
# What the text of a number spells

The text of a double with some significant digits (`general`) spells the double rounded to so many
digits (`spells_general`): reading it back gives that value exactly, with the sign, and infinity and
what is not a number have their words. Both layouts say the same: a positional text spells its
digits with the point in its place, and an exponent moves the point.
-/

namespace AntennaArray.Decimal

open AntennaArray.Text (asciiDigit? decimalDigit? isOuterBlank strip)
open Json (isScalarChar)

/-! ## Words -/

/-- All characters may stand in a number. -/
def IsWord (cs : List Char) : Prop := ∀ c ∈ cs, isScalarChar c = true

section

variable {cs ds : List Char}

theorem isWord_nil : IsWord [] := List.forall_mem_nil _

theorem isWord_cons {c : Char} : IsWord (c :: cs) ↔ isScalarChar c = true ∧ IsWord cs :=
  List.forall_mem_cons

theorem isWord_append : IsWord (cs ++ ds) ↔ IsWord cs ∧ IsWord ds := List.forall_mem_append

/-- A character of a word is a plain one: it is no blank, no digit of another script and no
underscore. -/
theorem plain_of_isScalarChar {c : Char} (h : isScalarChar c = true) :
    isOuterBlank c.toNat = false ∧ plainDigit c = c ∧ c ≠ '_' :=
  Json.forall_of_isScalarChar
    (P := fun c => isOuterBlank c.toNat = false ∧ plainDigit c = c ∧ c ≠ '_') (by decide +kernel) h

theorem joinDigits_of_notMem (h : '_' ∉ cs) (afterDigit : Bool) :
    joinDigits afterDigit cs = cs := by
  induction cs generalizing afterDigit with
  | nil => rfl
  | cons c rest ih =>
    obtain ⟨hc, hrest⟩ := List.ne_and_not_mem_of_not_mem_cons h
    rw [joinDigits, decide_eq_false (Ne.symm hc), Bool.false_and, Bool.false_and, if_neg nofun,
      ih hrest]

theorem strip_of_forall {α : Type} {drop : α → Bool} {xs : List α} (h : ∀ x ∈ xs, drop x = false) :
    strip drop xs = xs := by
  have hdrop {ys : List α} (hys : ∀ x ∈ ys, drop x = false) : ys.dropWhile drop = ys := by
    cases ys with
    | nil => rfl
    | cons y ys => rw [List.dropWhile_cons, hys y List.mem_cons_self, if_neg nofun]
  rw [strip, hdrop h, hdrop (by simpa using h), List.reverse_reverse]

/-- A word needs no preparation. -/
theorem IsWord.prepared_eq (h : IsWord cs) : prepared cs = cs := by
  have hplain : cs.map plainDigit = cs :=
    (List.map_congr_left fun c hc => (plain_of_isScalarChar (h c hc)).2.1).trans (List.map_id cs)
  rw [prepared, strip_of_forall fun c hc => (plain_of_isScalarChar (h c hc)).1, hplain]
  exact joinDigits_of_notMem (fun hc => (plain_of_isScalarChar (h _ hc)).2.2 rfl) false

end

/-! ## Digits -/

theorem isDigit_iff {c : Char} : isDigit c = true ↔ '0' ≤ c ∧ c ≤ '9' := by
  rw [isDigit, asciiDigit?]
  split
  · next h => exact iff_of_true rfl h
  · next h => exact iff_of_false nofun h

def IsDigits (cs : List Char) : Prop := ∀ c ∈ cs, isDigit c = true

section

variable {cs ds tail : List Char}

theorem isDigits_append : IsDigits (cs ++ ds) ↔ IsDigits cs ∧ IsDigits ds := List.forall_mem_append

theorem IsDigits.subset (h : IsDigits cs) (hsub : ds ⊆ cs) : IsDigits ds :=
  fun c hc => h c (hsub hc)

theorem isDigits_zeros (n : ℕ) : IsDigits (zeros n) := fun c hc => by
  rw [List.eq_of_mem_replicate hc]
  rfl

theorem isDigits_toString (n : ℕ) : IsDigits (toString n).toList := fun c hc => by
  have hdigit : c.isDigit = true := by
    refine Nat.isDigit_of_mem_toDigits (n := n) (b := 10) (by decide) le_rfl ?_
    rwa [← Nat.toList_repr]
  rw [Char.isDigit, Bool.and_eq_true, decide_eq_true_iff, decide_eq_true_iff] at hdigit
  exact isDigit_iff.mpr hdigit

theorem IsDigits.isWord (h : IsDigits cs) : IsWord cs := fun c hc => by
  have hdigit : c.isDigit = true := by
    rw [Char.isDigit, Bool.and_eq_true, decide_eq_true_iff, decide_eq_true_iff]
    exact isDigit_iff.mp (h c hc)
  simp [isScalarChar, Char.isAlphanum, hdigit]

/-- Digits are read as the number that they write. -/
theorem ofDigits_filterMap (h : IsDigits cs) :
    ofDigits (cs.filterMap asciiDigit?) = Nat.ofDigitChars 10 cs 0 := by
  have hfold (init : ℕ) : (cs.filterMap asciiDigit?).foldl (fun n d => 10 * n + d) init
      = Nat.ofDigitChars 10 cs init := by
    induction cs generalizing init with
    | nil => rfl
    | cons c cs ih =>
      obtain ⟨hc, hcs⟩ := List.forall_mem_cons.mp h
      have hvalue : asciiDigit? c = some (c.toNat - '0'.toNat) := if_pos (isDigit_iff.mp hc)
      rw [List.filterMap_cons_some hvalue, List.foldl_cons, ih hcs, Nat.ofDigitChars_cons]
  exact hfold 0

/-- Digits are split off up to the first character that is none. -/
theorem splitDigits_append (h : IsDigits cs) (htail : tail.head?.any isDigit = false) :
    splitDigits (cs ++ tail) = (cs.filterMap asciiDigit?, tail) := by
  have htake : tail.takeWhile isDigit = [] ∧ tail.dropWhile isDigit = tail := by
    cases tail with
    | nil => exact ⟨rfl, rfl⟩
    | cons c rest =>
      have hc : isDigit c = false := htail
      rw [List.takeWhile_cons, List.dropWhile_cons, hc]
      exact ⟨rfl, rfl⟩
  rw [splitDigits, List.takeWhile_append_of_pos h, List.dropWhile_append_of_pos h, htake.1,
    htake.2, List.append_nil]

end

/-! ## Numerals -/

/-- A word that starts with a digit and says, without a sign, an exact value. -/
structure IsNumeral (text : List Char) (value : ℚ) : Prop where
  word : IsWord text
  digit : text.head?.any isDigit = true
  decimal : ∃ d : Scaled, decimal? text = some d ∧ d.value = value

/-- What may follow the digits of a number: nothing, or an exponent. -/
structure IsEnding (tail : List Char) (e : ℤ) : Prop where
  word : IsWord tail
  digit : tail.head?.any isDigit = false
  fraction : splitFraction tail = ([], tail)
  exponent : exponent? tail = some e

theorem isEnding_nil : IsEnding [] 0 := ⟨isWord_nil, rfl, rfl, rfl⟩

section

variable {cs ds tail : List Char} {e : ℤ}

theorem isEmpty_filterMap (h : IsDigits cs) (hne : cs ≠ []) :
    (cs.filterMap asciiDigit?).isEmpty = false := by
  have hlength := length_filterMap_asciiDigit? h
  cases hdigits : cs.filterMap asciiDigit? with
  | nil =>
    rw [hdigits] at hlength
    exact absurd (List.length_eq_zero_iff.mp hlength.symm) hne
  | cons d rest => rfl

theorem wholeNumber?_signed (h : IsDigits cs) (hne : cs ≠ []) (negative : Bool) :
    wholeNumber? ((if negative then '-' else '+') :: cs)
      = some (if negative then -(Nat.ofDigitChars 10 cs 0 : ℤ) else Nat.ofDigitChars 10 cs 0) := by
  have hsign : splitSign ((if negative then '-' else '+') :: cs) = (negative, cs) := by
    cases negative <;> rfl
  have hsplit : splitDigits cs = (cs.filterMap asciiDigit?, []) := by
    have happend : splitDigits (cs ++ []) = (cs.filterMap asciiDigit?, []) :=
      splitDigits_append h rfl
    rwa [List.append_nil] at happend
  rw [wholeNumber?, hsign]
  dsimp only
  have hempty := isEmpty_filterMap h hne
  rw [hsplit, ← ofDigits_filterMap h]
  cases hdigits : cs.filterMap asciiDigit? with
  | nil =>
    rw [hdigits] at hempty
    cases hempty
  | cons d rest => rfl

theorem isDigits_padded (width n : ℕ) : IsDigits (padded width n) :=
  isDigits_append.mpr ⟨isDigits_zeros _, isDigits_toString n⟩

theorem toString_ne_nil (n : ℕ) : (toString n).toList ≠ [] := by
  rw [Nat.toString_eq_repr, Nat.toList_repr]
  exact Nat.toDigits_ne_nil

theorem ofDigitChars_toString (n : ℕ) : Nat.ofDigitChars 10 (toString n).toList 0 = n := by
  rw [Nat.toString_eq_repr, Nat.toList_repr, Nat.ofDigitChars_ten_toDigits]

/-- Zeros in front of digits do not count. -/
theorem ofDigitChars_zeros_append (n : ℕ) (cs : List Char) :
    Nat.ofDigitChars 10 (zeros n ++ cs) 0 = Nat.ofDigitChars 10 cs 0 := by
  rw [Nat.ofDigitChars_append, zeros, Nat.ofDigitChars_replicate_zero, Nat.mul_zero]

theorem isEnding_exponentText (e : ℤ) : IsEnding (exponentText e) e where
  word := by
    have hsign : isScalarChar (if e < 0 then '-' else '+') = true := by split <;> rfl
    exact isWord_cons.mpr ⟨rfl, isWord_cons.mpr ⟨hsign, (isDigits_padded _ _).isWord⟩⟩
  digit := rfl
  fraction := rfl
  exponent := by
    have hsigned := wholeNumber?_signed (isDigits_padded 2 e.natAbs)
      (List.append_ne_nil_of_right_ne_nil _ (toString_ne_nil _)) (decide (e < 0))
    have hvalue : Nat.ofDigitChars 10 (padded 2 e.natAbs) 0 = e.natAbs :=
      (ofDigitChars_zeros_append _ _).trans (ofDigitChars_toString _)
    rw [hvalue] at hsigned
    simp only [decide_eq_true_eq] at hsigned
    rw [exponentText, exponent?, if_pos (.inl rfl), hsigned]
    congr 1
    split <;> omega

theorem head?_any_append (hcs : IsDigits cs) (hne : cs ≠ []) (ds : List Char) :
    (cs ++ ds).head?.any isDigit = true := by
  obtain ⟨c, rest, rfl⟩ := List.exists_cons_of_ne_nil hne
  exact hcs c List.mem_cons_self

/-- Digits without a point. -/
theorem isNumeral_whole (hcs : IsDigits cs) (hne : cs ≠ []) (htail : IsEnding tail e) :
    IsNumeral (cs ++ tail) (Nat.ofDigitChars 10 cs 0 * 10 ^ e) where
  word := isWord_append.mpr ⟨hcs.isWord, htail.word⟩
  digit := head?_any_append hcs hne tail
  decimal := by
    refine ⟨⟨Nat.ofDigitChars 10 cs 0, e⟩, ?_, rfl⟩
    rw [decimal?, splitDigits_append hcs htail.digit]
    dsimp only
    rw [htail.fraction]
    dsimp only
    rw [isEmpty_filterMap hcs hne, Bool.false_and, if_neg nofun, htail.exponent, List.append_nil,
      ofDigits_filterMap hcs]
    simp

/-- Digits with a point between them. -/
theorem isNumeral_point (hcs : IsDigits cs) (hne : cs ≠ []) (hds : IsDigits ds)
    (htail : IsEnding tail e) :
    IsNumeral (cs ++ '.' :: (ds ++ tail))
      (Nat.ofDigitChars 10 (cs ++ ds) 0 * 10 ^ (e - ds.length)) where
  word := isWord_append.mpr
    ⟨hcs.isWord, isWord_cons.mpr ⟨rfl, isWord_append.mpr ⟨hds.isWord, htail.word⟩⟩⟩
  digit := head?_any_append hcs hne _
  decimal := by
    refine ⟨⟨Nat.ofDigitChars 10 (cs ++ ds) 0, e - ds.length⟩, ?_, rfl⟩
    rw [decimal?, splitDigits_append hcs rfl]
    dsimp only
    rw [splitFraction, splitDigits_append hds htail.digit]
    dsimp only
    rw [isEmpty_filterMap hcs hne, Bool.false_and, if_neg nofun, htail.exponent,
      ← List.filterMap_append, ofDigits_filterMap (isDigits_append.mpr ⟨hcs, hds⟩),
      length_filterMap_asciiDigit? hds, Option.map_some]

/-- Digits behind the point and some zeros. -/
theorem isNumeral_behind (hcs : IsDigits cs) (htail : IsEnding tail e) (n : ℕ) :
    IsNumeral ('0' :: '.' :: zeros n ++ cs ++ tail)
      (Nat.ofDigitChars 10 cs 0 * 10 ^ (e - (n + cs.length : ℕ))) := by
  have hzero : IsDigits ['0'] := isDigits_zeros 1
  have hfraction : IsDigits (zeros n ++ cs) := isDigits_append.mpr ⟨isDigits_zeros n, hcs⟩
  have hvalue : Nat.ofDigitChars 10 (['0'] ++ (zeros n ++ cs)) 0 = Nat.ofDigitChars 10 cs 0 :=
    (ofDigitChars_zeros_append 1 _).trans (ofDigitChars_zeros_append n cs)
  have hlength : (zeros n ++ cs).length = n + cs.length := by
    rw [List.length_append, zeros, List.length_replicate]
  have hnumeral := isNumeral_point hzero (List.cons_ne_nil _ _) hfraction htail
  rwa [hvalue, hlength] at hnumeral

/-- Digits with zeros in the places that are left before the point. -/
theorem isNumeral_before (hcs : IsDigits cs) (hne : cs ≠ []) (htail : IsEnding tail e) (n : ℕ) :
    IsNumeral (cs ++ zeros n ++ tail) (Nat.ofDigitChars 10 cs 0 * 10 ^ (n + e)) := by
  have hnumeral := isNumeral_whole (isDigits_append.mpr ⟨hcs, isDigits_zeros n⟩)
    (List.append_ne_nil_of_left_ne_nil hne _) htail
  have hvalue : (Nat.ofDigitChars 10 (cs ++ zeros n) 0 : ℚ) * 10 ^ e
      = Nat.ofDigitChars 10 cs 0 * 10 ^ (n + e) := by
    rw [Nat.ofDigitChars_append, zeros, Nat.ofDigitChars_replicate_zero, zpow_add₀ (by norm_num),
      zpow_natCast]
    push_cast
    ring
  rwa [hvalue] at hnumeral

/-- A positional text spells its digits with the point in its place. -/
theorem isNumeral_positional (hcs : IsDigits cs) (hne : cs ≠ []) (htail : IsEnding tail e)
    (point : ℤ) :
    IsNumeral (positional cs point ++ tail)
      (Nat.ofDigitChars 10 cs 0 * 10 ^ (point - cs.length + e)) := by
  rw [positional]
  split
  · next hpoint =>
    have hscale : point - cs.length + e = e - ((-point).toNat + cs.length : ℕ) := by omega
    rw [hscale]
    exact isNumeral_behind hcs htail _
  · next hpoint =>
    obtain ⟨p, rfl⟩ := Int.eq_ofNat_of_zero_le (not_le.mp hpoint).le
    rw [Int.toNat_natCast]
    dsimp only
    split
    · next hdrop =>
      have hlength : cs.length ≤ p := List.drop_eq_nil_iff.mp hdrop
      have hscale : (p : ℤ) - cs.length + e = (p - cs.length : ℕ) + e := by omega
      rw [List.take_of_length_le hlength, hscale]
      exact isNumeral_before hcs hne htail _
    · next hdrop =>
      -- the point stands between two digits, and there is no gap to fill
      have hlength : p < cs.length := not_le.mp fun h => hdrop (List.drop_eq_nil_iff.mpr h)
      have htake : cs.take p ≠ [] := by
        rw [Ne, List.take_eq_nil_iff, not_or]
        exact ⟨by omega, hne⟩
      have hscale : (p : ℤ) - cs.length + e = e - ((cs.drop p).length : ℕ) := by
        rw [List.length_drop]
        omega
      have hnumeral := isNumeral_point (hcs.subset (List.take_subset p cs)) htake
        (hcs.subset (List.drop_subset p cs)) htail
      rw [List.take_append_drop] at hnumeral
      rw [hscale, Nat.sub_eq_zero_of_le hlength.le, List.append_assoc]
      simpa only [zeros, List.replicate_zero, List.append_nil, List.cons_append] using hnumeral

end

/-! ## Decimals as text -/

namespace Scaled

theorem isDigits_text (d : Scaled) : IsDigits d.text := isDigits_toString d.digits

theorem text_ne_nil (d : Scaled) : d.text ≠ [] := toString_ne_nil d.digits

/-- Both layouts spell the decimal. -/
theorem isNumeral_positional (d : Scaled) :
    IsNumeral (positional d.text (d.decade + 1)) d.value := by
  have hnumeral := Decimal.isNumeral_positional d.isDigits_text d.text_ne_nil isEnding_nil
    (d.decade + 1)
  have hscale : d.decade + 1 - d.text.length + 0 = d.exponent := by
    rw [decade]
    omega
  rwa [hscale, List.append_nil, text, ofDigitChars_toString] at hnumeral

theorem isNumeral_mantissaText (d : Scaled) :
    IsNumeral (mantissaText d.text d.decade) d.value := by
  have hnumeral := Decimal.isNumeral_positional d.isDigits_text d.text_ne_nil
    (isEnding_exponentText d.decade) 1
  have hscale : 1 - (d.text.length : ℤ) + d.decade = d.exponent := by
    rw [decade]
    omega
  rwa [hscale, text, ofDigitChars_toString] at hnumeral

end Scaled

/-! ## Doubles as text -/

/-- What a text with `count` significant digits says of a double: that it is not a number, or
infinite, or, rounded to so many digits, its exact value. -/
structure Spells (count : ℕ) (text : List Char) (x : Float) : Prop where
  nan : x.isNaN = true → spelled? text = some .notANumber
  infinite : x.isInf = true → spelled? text = some (.infinity (Binary64.isNegative x))
  finite : x.isFinite = true → ∃ d : Scaled,
    spelled? text = some (.decimal (Binary64.isNegative x) d) ∧
      RoundsTo count |Binary64.value x| d.value

/-- A digit has no small form of its own. -/
theorem toLower_of_isDigit {c : Char} (h : isDigit c = true) : c.toLower = c := by
  obtain ⟨-, hhigh⟩ := isDigit_iff.mp h
  unfold Char.toLower
  split
  · next hupper => exact absurd (le_trans hupper.1 hhigh) (by decide)
  · rfl

def signText (negative : Bool) : List Char := if negative then ['-'] else []

theorem isWord_signText (negative : Bool) : IsWord (signText negative) := by
  cases negative
  · exact isWord_nil
  · exact isWord_cons.mpr ⟨rfl, isWord_nil⟩

/-- A numeral is spelled with its sign: a text that starts with a digit is none of the words. -/
theorem exists_spelled? {cs : List Char} {q : ℚ} (h : IsNumeral cs q) (negative : Bool) :
    ∃ d : Scaled, spelled? (signText negative ++ cs) = some (.decimal negative d) ∧
      d.value = q := by
  obtain ⟨d, hd, hvalue⟩ := h.decimal
  refine ⟨d, ?_, hvalue⟩
  cases cs with
  | nil => cases h.digit
  | cons c rest =>
    have hc : isDigit c = true := h.digit
    have hminus : c ≠ '-' := by
      rintro rfl
      cases hc
    have hplus : c ≠ '+' := by
      rintro rfl
      cases hc
    have hsign : splitSign (signText negative ++ c :: rest) = (negative, c :: rest) := by
      cases negative <;> simp [splitSign, signText, hminus, hplus]
    have hletter {letter : Char} (letters : List Char) (hl : isDigit letter = false) :
        String.ofList ((c :: rest).map Char.toLower) ≠ String.ofList (letter :: letters) := by
      intro heq
      have hhead := (List.cons.inj (String.ofList_injective heq)).1
      rw [toLower_of_isDigit hc] at hhead
      rw [← hhead, hc] at hl
      cases hl
    rw [spelled?, (isWord_append.mpr ⟨isWord_signText negative, h.word⟩).prepared_eq, hsign]
    dsimp only
    rw [if_neg (not_or.mpr ⟨hletter _ rfl, hletter _ rfl⟩), if_neg (hletter _ rfl), hd,
      Option.map_some]

/-- A finite double as a quotient, with no more binary digits than the search for its leading digit
is good for. -/
theorem quotient_spec {m : ℕ} {e : ℤ} (hm : 0 < m) (h : Binary64.IsCanonical m e) :
    0 < (quotient m e).1 ∧ 0 < (quotient m e).2 ∧
      ((quotient m e).1 : ℚ) / (quotient m e).2 = m * 2 ^ e ∧
      |((quotient m e).1.log2 : ℤ) - (quotient m e).2.log2| ≤ 1100 := by
  have hlog : m.log2 < 53 := (Nat.log2_lt hm.ne').mpr h.lt
  have hlow := h.low
  have hhigh := h.high
  rw [quotient]
  split
  · next he =>
    rw [zpow_of_nonneg _ he]
    refine ⟨by positivity, one_pos, by push_cast; ring, ?_⟩
    dsimp only
    rw [Binary64.log2_mul_two_pow hm, show Nat.log2 1 = 0 from rfl]
    exact abs_le.mpr ⟨by omega, by omega⟩
  · next he =>
    rw [zpow_of_not_nonneg _ he]
    refine ⟨hm, by positivity, by push_cast; rfl, ?_⟩
    dsimp only
    rw [Nat.log2_two_pow]
    exact abs_le.mpr ⟨by omega, by omega⟩

/-- The magnitude of a finite double is written as a numeral for the rounded one. -/
theorem exists_isNumeral_significantText {count m : ℕ} {e : ℤ} (hcount : 0 < count)
    (h : Binary64.IsCanonical m e) :
    ∃ q, IsNumeral (significantText count m e) q ∧ RoundsTo count (m * 2 ^ e) q := by
  rw [significantText]
  split
  · next hzero =>
    rw [hzero, Nat.cast_zero, zero_mul]
    refine ⟨0, ?_, roundsTo_zero count⟩
    have hnumeral := isNumeral_whole (isDigits_zeros 1) (List.cons_ne_nil _ _) isEnding_nil
    rwa [zeros, Nat.ofDigitChars_replicate_zero, Nat.mul_zero, Nat.cast_zero, zero_mul] at hnumeral
  · next hne =>
    obtain ⟨hnum, hden, hvalue, hbits⟩ := quotient_spec (Nat.pos_of_ne_zero hne) h
    have hrounds := roundsTo_significant hcount hnum hden hbits
    rw [hvalue, ← Scaled.value_trim count] at hrounds
    refine ⟨_, ?_, hrounds⟩
    dsimp only
    split
    · exact Scaled.isNumeral_positional _
    · exact Scaled.isNumeral_mantissaText _

/-- The text of a number has none but the characters of numbers. -/
theorem isWord_general {count : ℕ} (hcount : 0 < count) (x : Float) :
    IsWord (general count x).toList := by
  have hnan : IsWord "nan".toList := List.all_eq_true.mp (by decide)
  have hinf : IsWord "inf".toList := List.all_eq_true.mp (by decide)
  rw [general, frame]
  cases hread : Binary64.ofFloat x with
  | notANumber => exact hnan
  | infinity negative =>
    rw [String.toList_ofList]
    exact isWord_append.mpr ⟨isWord_signText negative, hinf⟩
  | finite negative m e =>
    obtain ⟨q, hnumeral, -⟩ :=
      exists_isNumeral_significantText hcount (Binary64.isCanonical_of_ofFloat hread)
    rw [String.toList_ofList]
    exact isWord_append.mpr ⟨isWord_signText negative, hnumeral.word⟩

/-- The text of a double with some significant digits spells it. -/
theorem spells_general {count : ℕ} (hcount : 0 < count) (x : Float) :
    Spells count (general count x).toList x := by
  have hnan : spelled? "nan".toList = some .notANumber := by decide +kernel
  have hinf (negative : Bool) : spelled? (String.ofList (signText negative ++ "inf".toList)).toList
      = some (.infinity negative) := by
    cases negative <;> decide +kernel
  rw [general, frame]
  constructor
  case nan =>
    intro h
    rw [Binary64.ofFloat_of_isNaN h]
    exact hnan
  case infinite =>
    intro h
    obtain ⟨negative, hread⟩ := Binary64.exists_ofFloat_of_isInf h
    rw [hread, Binary64.isNegative_of_ofFloat_infinity hread]
    exact hinf negative
  case finite =>
    intro h
    obtain ⟨a, ha, -⟩ := Binary64.isFinite_iff.mp h
    obtain ⟨negative, m, e, hread, hcanonical, -⟩ := Binary64.exists_ofFloat h ha
    obtain ⟨q, hnumeral, hrounds⟩ := exists_isNumeral_significantText hcount hcanonical
    obtain ⟨d, hspelled, rfl⟩ := exists_spelled? hnumeral negative
    rw [Binary64.isNegative_of_ofFloat hread, Binary64.abs_value_of_ofFloat hread, hread]
    dsimp only
    rw [String.toList_ofList]
    exact ⟨d, hspelled, hrounds⟩

end AntennaArray.Decimal
