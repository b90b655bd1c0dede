/-!
# Texts

A text is a list of code points. A code point is a character, or a surrogate: one half of a
character outside the basic plane, which is no character without its other half. Escapes can name a
surrogate that stands alone, so a text may hold one.
-/

namespace AntennaArray

/-- A code point. -/
inductive CodePoint where
  | char (c : Char)
  /-- The surrogate that comes so many places after the first one. -/
  | surrogate (offset : Fin 0x800)
deriving DecidableEq

namespace CodePoint

def value : CodePoint → Nat
  | .char c => c.toNat
  | .surrogate offset => 0xD800 + offset

/-- The code point with a number. -/
def ofValue (n : Nat) : CodePoint :=
  if h : 0xD800 ≤ n ∧ n < 0xE000 then .surrogate ⟨n - 0xD800, by omega⟩ else .char (Char.ofNat n)

/-- The character that shows for a code point: a replacement in place of a surrogate. -/
def toChar : CodePoint → Char
  | .char c => c
  | .surrogate _ => '\uFFFD'

/-- A code point has the number that it is found by. -/
theorem ofValue_value (p : CodePoint) : ofValue p.value = p := by
  cases p with
  | char c =>
    have hc : ¬(0xD800 ≤ c.toNat ∧ c.toNat < 0xE000) := by
      have := c.valid
      simp only [UInt32.isValidChar, Nat.isValidChar] at this
      have h : c.toNat = c.val.toNat := rfl
      omega
    rw [value, ofValue, dif_neg hc, Char.ofNat_toNat]
  | surrogate offset =>
    have h : 0xD800 ≤ 0xD800 + offset.val ∧ 0xD800 + offset.val < 0xE000 :=
      ⟨Nat.le_add_right .., Nat.add_lt_add_left offset.isLt _⟩
    rw [value, ofValue, dif_pos h]
    exact congrArg surrogate (Fin.ext (Nat.add_sub_cancel_left ..))

end CodePoint

abbrev Text := List CodePoint

namespace Text

/-- The text of some characters. -/
def ofChars (cs : List Char) : Text := cs.map .char

def ofString (s : String) : Text := ofChars s.toList

instance : Coe String Text := ⟨ofString⟩

/-- The characters that show for a text. -/
def toChars (t : Text) : List Char := t.map CodePoint.toChar

/-- What shows for a text. -/
def shown (t : Text) : String := String.ofList t.toChars

@[simp] theorem toChars_ofChars (cs : List Char) : (ofChars cs).toChars = cs := by
  rw [ofChars, toChars, List.map_map]
  exact List.map_id cs

/-- A text up to its first null character. -/
def untilNull (t : Text) : Text := t.takeWhile (· != .char '\x00')

/-- A string shows as itself. -/
@[simp] theorem shown_ofString (s : String) : (ofString s).shown = s := by
  simp [ofString, shown]

/-- Strings that are equal as texts are equal. -/
@[simp] theorem ofString_inj {s t : String} : ofString s = ofString t ↔ s = t :=
  ⟨fun h => by rw [← shown_ofString s, h, shown_ofString], fun h => h ▸ rfl⟩

end Text

end AntennaArray
