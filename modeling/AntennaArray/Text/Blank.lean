import AntennaArray.Text.Basic

/-!
# Blanks and line ends

The blanks are the characters that separate words in any script, and the line ends those after
which a new line begins. `lines` cuts a text at its line ends.
-/

namespace AntennaArray.Text

/-- Whether a number is that of a blank: the white space of Unicode, with the four ASCII
separators. -/
def isBlank (n : Nat) : Bool :=
  (9 ≤ n && n ≤ 13) || (28 ≤ n && n ≤ 32) || n == 0x85 || n == 0xA0 || n == 0x1680 ||
    (0x2000 ≤ n && n ≤ 0x200A) || n == 0x2028 || n == 0x2029 || n == 0x202F || n == 0x205F ||
    n == 0x3000

/-- Whether a number is that of a line end. -/
def isLineEnd (n : Nat) : Bool :=
  (10 ≤ n && n ≤ 13) || (28 ≤ n && n ≤ 30) || n == 0x85 || n == 0x2028 || n == 0x2029

/-- Blanks that count around a number: an ASCII blank here is a space or one of tab to return. -/
def isOuterBlank (n : Nat) : Bool := isBlank n && !(28 ≤ n && n ≤ 31)

/-- The lines of a text without their ends; a return and a line feed after it are one end, and an
end that closes the text opens no further line. -/
def lines : Text → List Text
  | [] => []
  | .char '\r' :: .char '\n' :: rest => [] :: lines rest
  | p :: rest =>
    if isLineEnd p.value then [] :: lines rest
    else
      match lines rest with
      | [] => [[p]]
      | line :: others => (p :: line) :: others

/-- A text up to its first line end. -/
def firstLine (text : Text) : Text := text.takeWhile (!isLineEnd ·.value)

/-- A text with each return, alone or before a line feed, as one line feed. -/
def unifyReturns : Text → Text
  | [] => []
  | .char '\r' :: .char '\n' :: rest => .char '\n' :: unifyReturns rest
  | p :: rest => (if p = .char '\r' then .char '\n' else p) :: unifyReturns rest

/-- A list without the entries at its two ends that are to be dropped. -/
def strip {α : Type} (drop : α → Bool) (xs : List α) : List α :=
  ((xs.dropWhile drop).reverse.dropWhile drop).reverse

/-- Every line end is a blank. -/
theorem isBlank_of_isLineEnd {n : Nat} (h : isLineEnd n = true) : isBlank n = true := by
  simp only [isLineEnd, isBlank, Bool.or_eq_true, Bool.and_eq_true, decide_eq_true_eq,
    beq_iff_eq] at h ⊢
  omega

/-- There is no line end in a first line. -/
theorem isLineEnd_of_mem_firstLine {text : Text} {p : CodePoint} (h : p ∈ firstLine text) :
    isLineEnd p.value = false := by
  induction text with
  | nil => cases h
  | cons q rest ih =>
    simp only [firstLine, List.takeWhile_cons] at h ih
    split at h
    · rename_i hq
      rcases List.mem_cons.1 h with rfl | hm
      · simpa using hq
      · exact ih hm
    · cases h

/-- A line end closes an empty line, but a return before a line feed leaves that to it. -/
theorem lines_cons_of_isLineEnd {e : CodePoint} (he : isLineEnd e.value = true) (rest : Text) :
    lines (e :: rest) = [] :: lines rest ∨
      rest.head? = some (.char '\n') ∧ lines (e :: rest) = lines rest := by
  rw [lines.eq_def]
  split
  · next h => cases h
  · next tail h =>
    obtain ⟨rfl, rfl⟩ := List.cons.inj h
    exact .inr ⟨rfl, rfl⟩
  · next h =>
    obtain ⟨rfl, rfl⟩ := List.cons.inj h
    rw [if_pos he]
    exact .inl rfl

/-- Other code points belong to the line that follows. -/
theorem lines_cons {p : CodePoint} (hp : isLineEnd p.value = false) (rest : Text) :
    lines (p :: rest) = (p :: (lines rest).headD []) :: (lines rest).tail := by
  rw [lines.eq_def]
  split
  · next h => cases h
  · next tail h =>
    obtain ⟨rfl, rfl⟩ := List.cons.inj h
    cases hp
  · next h =>
    obtain ⟨rfl, rfl⟩ := List.cons.inj h
    rw [hp]
    cases lines rest <;> rfl

/-- There is a line wherever there is a text. -/
theorem lines_cons_ne_nil (p : CodePoint) (rest : Text) : lines (p :: rest) ≠ [] := by
  rw [lines.eq_def]
  split
  · next h => cases h
  · exact List.cons_ne_nil _ _
  · split
    · exact List.cons_ne_nil _ _
    · split <;> exact List.cons_ne_nil _ _

end AntennaArray.Text
