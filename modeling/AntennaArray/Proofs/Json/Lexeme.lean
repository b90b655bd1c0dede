import AntennaArray.Proofs.Json.Spelling

/-!
# Tokens as they are written

A text is cut into lexemes: tokens with the code points that spell them. In a text that has a value
each lexeme is a mark, a text between quotes or a scalar, and stands for its token wherever it is
put, as long as a scalar is not followed by more of its kind (`Lexeme.IsSound`).
-/

namespace AntennaArray.Json

/-- A token and the code points that spell it. -/
structure Lexeme where
  spelling : Text
  token : Token

/-- The lexemes of a text, after `skip` code points of one that has been read already. -/
def lexemesAfter (skip : Nat) : Text → List Lexeme
  | [] => []
  | p :: rest =>
    match skip with
    | n + 1 => lexemesAfter n rest
    | 0 =>
      if isSpace p then lexemesAfter 0 rest
      else
        let (token, length) := tokenAt p rest
        ⟨p :: rest.take (length - 1), token⟩ ::
          if token.isLast then [] else lexemesAfter (length - 1) rest

/-- The lexemes of a text. -/
def lexemes (text : Text) : List Lexeme := lexemesAfter 0 text

theorem lexemesAfter_eq (skip : Nat) (text : Text) :
    lexemesAfter skip text = lexemes (text.drop skip) := by
  induction text generalizing skip with
  | nil => simp [lexemes, lexemesAfter]
  | cons p rest ih =>
    cases skip with
    | zero => rfl
    | succ n => exact ih n

theorem lexemes_cons_space {p : CodePoint} (hp : isSpace p = true) (rest : Text) :
    lexemes (p :: rest) = lexemes rest := by
  simp [lexemes, lexemesAfter, hp]

theorem lexemes_cons {p : CodePoint} (hp : isSpace p = false) (rest : Text) :
    lexemes (p :: rest) = ⟨p :: rest.take ((tokenAt p rest).2 - 1), (tokenAt p rest).1⟩ ::
      if (tokenAt p rest).1.isLast then []
      else lexemes (rest.drop ((tokenAt p rest).2 - 1)) := by
  rw [lexemes, lexemesAfter]
  simp only [hp, Bool.false_eq_true, if_false, lexemesAfter_eq]

/-- Lexemes are the tokens that a text spells. -/
theorem map_token_lexemes (text : Text) : (lexemes text).map Lexeme.token = spelled text := by
  induction h : text.length using Nat.strong_induction_on generalizing text with
  | _ n ih =>
    cases text with
    | nil => rfl
    | cons p rest =>
      subst h
      by_cases hp : isSpace p = true
      · rw [lexemes_cons_space hp, spelled_cons_space hp]
        exact ih rest.length (by simp) rest rfl
      · rw [Bool.not_eq_true] at hp
        rw [lexemes_cons hp, spelled_cons hp, List.map_cons]
        congr 1
        split
        · rfl
        · exact ih _ (by rw [List.length_drop, List.length_cons]; omega) _ rfl

/-! ## Texts between quotes -/

theorem le_value_of_hexDigit? {p : CodePoint} {n : Nat} (h : hexDigit? p = some n) :
    48 ≤ p.value := by
  cases p with
  | surrogate offset => cases h
  | char c =>
    simp only [hexDigit?, hexValue?] at h
    show 48 ≤ c.toNat
    split at h
    · next hc => exact hc.1
    · split at h
      · next hc => exact le_trans (by decide) hc.1
      · split at h
        · next hc => exact le_trans (by decide) hc.1
        · cases h

/-- The four digits of an escaped code unit. -/
theorem exists_of_codeUnit? {a b c d : CodePoint} {u : Nat} (h : codeUnit? a b c d = some u) :
    ∃ i j k l, hexDigit? a = some i ∧ hexDigit? b = some j ∧ hexDigit? c = some k ∧
      hexDigit? d = some l ∧ u = (i * 16 + j) * 256 + k * 16 + l := by
  simp only [codeUnit?, Option.bind_eq_bind, Option.bind_eq_some_iff, pure, Option.some.injEq] at h
  obtain ⟨i, hi, j, hj, k, hk, l, hl, hu⟩ := h
  exact ⟨i, j, k, l, hi, hj, hk, hl, hu.symm⟩

/-- What stands between the quotes of a text, with its pieces. -/
inductive Quoted : Text → List Piece → Prop where
  | nil : Quoted [] []
  | unit {a b c d : CodePoint} {u : Nat} {content : Text} {ps : List Piece}
      (hu : codeUnit? a b c d = some u) (h : Quoted content ps) :
      Quoted (.char '\\' :: .char 'u' :: a :: b :: c :: d :: content) (.unit u :: ps)
  | escape {p : CodePoint} {c : Char} {content : Text} {ps : List Piece}
      (hc : escapedChar? p = some c) (h : Quoted content ps) :
      Quoted (.char '\\' :: p :: content) (.plain (.char c) :: ps)
  | plain {p : CodePoint} {content : Text} {ps : List Piece} (hquote : p ≠ .char '"')
      (hslash : p ≠ .char '\\') (hvalue : 32 ≤ p.value) (h : Quoted content ps) :
      Quoted (p :: content) (.plain p :: ps)

/-- The pieces of what stands between quotes are read up to the closing quote. -/
theorem Quoted.textPieces_eq {content : Text} {ps : List Piece} (h : Quoted content ps)
    (offset : Nat) (rest : Text) :
    textPieces offset (content ++ .char '"' :: rest) = .ok (ps, offset + content.length + 1) := by
  induction h generalizing offset with
  | nil => rfl
  | @unit a b c d u content ps hu h ih =>
    have hrest := ih (offset + 6)
    have hne : content ++ .char '"' :: rest ≠ [] := by simp
    obtain ⟨next, tail, htail⟩ := List.exists_cons_of_ne_nil hne
    simp only [List.cons_append, htail] at hrest ⊢
    rw [textPieces, hu]
    simp only [hrest, Except.map, List.length_cons]
    congr 2
    omega
  | @escape p c content ps hc h ih =>
    have hu : p ≠ .char 'u' := by rintro rfl; cases hc
    rw [List.cons_append, List.cons_append, textPieces, hc]
    · simp only [ih, Except.map, List.length_cons]
      congr 2
      omega
    · intro a b c d next rest hp
      exact absurd hp hu
    · exact hu
  | @plain p content ps hquote hslash hvalue h ih =>
    rw [List.cons_append, textPieces, if_neg hslash, if_neg (Nat.not_lt.mpr hvalue)]
    · simp only [ih, Except.map, List.length_cons]
      congr 2
      omega
    all_goals simp_all

/-- One more piece was read in front of some others. -/
theorem exists_of_map_cons_eq_ok {piece : Piece} {x : Except (Problem × Nat) (List Piece × Nat)}
    {ps : List Piece} {length : Nat}
    (h : (x.map fun (ps, e) => (piece :: ps, e)) = .ok (ps, length)) :
    ∃ others, x = .ok (others, length) ∧ ps = piece :: others := by
  cases x with
  | error e => cases h
  | ok result =>
    obtain ⟨others, e⟩ := result
    cases h
    exact ⟨others, rfl, rfl⟩

/-- A text whose pieces can be read has its closing quote after them. -/
theorem quoted_of_textPieces {offset : Nat} {body : Text} {ps : List Piece} {length : Nat}
    (h : textPieces offset body = .ok (ps, length)) :
    ∃ content rest, body = content ++ .char '"' :: rest ∧
      length = offset + content.length + 1 ∧ Quoted content ps := by
  fun_induction textPieces offset body generalizing ps length with
  | case2 offset tail =>
    cases h
    exact ⟨[], tail, rfl, rfl, .nil⟩
  | case3 offset a b c d next rest u hu ih =>
    obtain ⟨others, hothers, rfl⟩ := exists_of_map_cons_eq_ok h
    obtain ⟨content, tail, hbody, hlength, hquoted⟩ := ih hothers
    refine ⟨_, tail, ?_, ?_, .unit hu hquoted⟩
    · rw [hbody]; rfl
    · simp only [List.length_cons]; omega
  | case6 offset p rest _ _ c hc ih =>
    obtain ⟨others, hothers, rfl⟩ := exists_of_map_cons_eq_ok h
    obtain ⟨content, tail, hbody, hlength, hquoted⟩ := ih hothers
    refine ⟨_, tail, ?_, ?_, .escape hc hquoted⟩
    · rw [hbody]; rfl
    · simp only [List.length_cons]; omega
  | case10 offset p rest hquote _ _ _ hslash hvalue ih =>
    obtain ⟨others, hothers, rfl⟩ := exists_of_map_cons_eq_ok h
    obtain ⟨content, tail, hbody, hlength, hquoted⟩ := ih hothers
    refine ⟨_, tail, ?_, ?_, .plain hquote hslash (Nat.not_lt.mp hvalue) hquoted⟩
    · rw [hbody]; rfl
    · simp only [List.length_cons]; omega
  | _ => cases h

/-- What stands between quotes holds no control character. -/
theorem Quoted.le_value {content : Text} {ps : List Piece} (h : Quoted content ps) :
    ∀ p ∈ content, 32 ≤ p.value := by
  induction h with
  | nil => intro p hp; cases hp
  | @unit a b c d u content ps hu h ih =>
    obtain ⟨i, j, k, l, ha, hb, hc, hd, -⟩ := exists_of_codeUnit? hu
    simp only [List.forall_mem_cons]
    have hdigit : ∀ {p : CodePoint} {n : Nat}, hexDigit? p = some n → 32 ≤ p.value :=
      fun hp => le_trans (by decide) (le_value_of_hexDigit? hp)
    exact ⟨by decide, by decide, hdigit ha, hdigit hb, hdigit hc, hdigit hd, ih⟩
  | @escape p c content ps hc h ih =>
    simp only [List.forall_mem_cons]
    refine ⟨by decide, ?_, ih⟩
    simp only [escapedChar?] at hc
    split at hc <;> first | decide | cases hc
  | @plain p content ps hquote hslash hvalue h ih =>
    exact List.forall_mem_cons.mpr ⟨hvalue, ih⟩

/-! ## Scalars -/

section Scalar

open AntennaArray.Decimal (splitDigits splitSign isDigit)

/-- A character of a scalar is an ASCII one, so what is true of it can be checked one by one. -/
theorem forall_of_isScalarChar {P : Char → Prop}
    (h : ∀ n : Fin 128, isScalarChar (Char.ofNat n) = true → P (Char.ofNat n)) {c : Char}
    (hc : isScalarChar c = true) : P c := by
  have hlow : ∀ {high : UInt32}, high.toNat < 128 → c.val ≤ high → c.toNat < 128 :=
    fun hhigh hle => Nat.lt_of_le_of_lt (UInt32.le_iff_toNat_le.mp hle) hhigh
  have hlt : c.toNat < 128 := by
    have hcases := hc
    simp only [isScalarChar, Char.isAlphanum, Char.isDigit, Bool.or_eq_true, Bool.and_eq_true,
      decide_eq_true_eq] at hcases
    rcases hcases with (((hletter | hdigit) | rfl) | rfl) | rfl
    · rcases (Bool.or_eq_true _ _).mp hletter with hupper | hlower
      · exact hlow (by decide) (of_decide_eq_true hupper).2
      · exact hlow (by decide) (of_decide_eq_true ((Bool.and_eq_true _ _).mp hlower).2)
    · exact hlow (by decide) hdigit.2
    all_goals decide
  have hall := h ⟨c.toNat, hlt⟩
  rw [Char.ofNat_toNat] at hall
  exact hall hc

/-- Digits and what follows them make up the text. -/
theorem length_splitDigits (text : List Char) :
    (splitDigits text).1.length + (splitDigits text).2.length = text.length := by
  have hall : ∀ c ∈ text.takeWhile isDigit, isDigit c = true :=
    List.all_eq_true.mp List.all_takeWhile
  rw [splitDigits, Decimal.length_filterMap_asciiDigit? hall, ← List.length_append,
    List.takeWhile_append_dropWhile]

theorem length_wholePart (text : List Char) :
    (wholePart text).1.length + (wholePart text).2.length = text.length := by
  simp only [wholePart]
  split
  · simp only [List.length_cons, List.length_nil]; omega
  · exact length_splitDigits text

/-- A fraction takes its digits and the point, and none takes nothing. -/
theorem length_fractionPart (text : List Char) :
    (if (fractionPart text).1.isEmpty then 0 else 1) + (fractionPart text).1.length
      + (fractionPart text).2.length = text.length := by
  simp only [fractionPart]
  split
  · next rest =>
    have hlength := length_splitDigits rest
    split
    · simp
    · next hne =>
      cases hds : (splitDigits rest).1 with
      | nil => exact (hne _ (Prod.ext hds rfl)).elim
      | cons d ds =>
        rw [hds] at hlength
        simp only [List.isEmpty_cons, Bool.false_eq_true, if_false, List.length_cons] at hlength ⊢
        omega
  · simp

theorem length_splitSign (text : List Char) :
    (if text.head?.any fun s => s = '-' || s = '+' then 1 else 0) + (splitSign text).2.length
      = text.length := by
  cases text with
  | nil => rfl
  | cons c rest =>
    by_cases hminus : c = '-'
    · subst hminus
      simp [splitSign, Nat.add_comm]
    · by_cases hplus : c = '+'
      · subst hplus
        simp [splitSign, Nat.add_comm]
      · simp [splitSign, hminus, hplus]

/-- An exponent takes no more than there is. -/
theorem length_exponentPart_le {text : List Char} {scale : Int} {length : Nat}
    (h : exponentPart text = some (scale, length)) : length ≤ text.length := by
  unfold exponentPart at h
  split at h
  · next c rest =>
    split at h
    · have hsign := length_splitSign rest
      have hdigits := length_splitDigits (splitSign rest).2
      simp only at h
      split at h
      · cases h
      · next ds tail hne hds =>
        simp only [Option.some.injEq, Prod.mk.injEq] at h
        rw [hds] at hdigits
        simp only [List.length_cons] at hdigits ⊢
        omega
    · cases h
  · cases h

/-- A number takes no more than there is. -/
theorem length_numberToken_le (negative : Bool) (text : List Char) :
    (numberToken negative text).2 ≤ text.length := by
  have hwhole := length_wholePart text
  have hfraction := length_fractionPart (wholePart text).2
  rw [numberToken]
  simp only
  split
  · exact Nat.zero_le _
  · split
    · simp only; omega
    · simp only
      cases hexp : exponentPart (fractionPart (wholePart text).2).2 with
      | none => simp only [Option.getD_none]; omega
      | some e =>
        obtain ⟨scale, length⟩ := e
        have := length_exponentPart_le hexp
        simp only [Option.getD_some]; omega

/-- A word or a number takes something, and no more than there is. -/
theorem length_scalarToken {cs : List Char} {v : Value} {n : Nat}
    (h : scalarToken cs = (.scalar v, n)) : 0 < n ∧ n ≤ cs.length := by
  have hwords : ∀ w ∈ words, 0 < w.1.length := by simp [words]
  have hnumber : ∀ {negative : Bool} {text : List Char} {m : Nat},
      numberToken negative text = (.scalar v, m) → 0 < m ∧ m ≤ text.length := by
    intro negative text m hm
    have hle := length_numberToken_le negative text
    rw [hm] at hle
    refine ⟨?_, hle⟩
    rw [numberToken] at hm
    simp only at hm
    split at hm
    · cases hm
    · next hwhole =>
      have hpos : 0 < (wholePart text).1.length := by
        rw [List.isEmpty_iff] at hwhole
        exact List.length_pos_of_ne_nil hwhole
      split at hm
      · have := congrArg Prod.snd hm
        simp only at this
        omega
      · have := congrArg Prod.snd hm
        simp only at this
        omega
  simp only [scalarToken] at h
  split at h
  · next word w hfind =>
    cases h
    have hprefix := List.find?_some hfind
    exact ⟨hwords _ (List.mem_of_find?_eq_some hfind),
      (List.isPrefixOf_iff_prefix.mp hprefix).length_le⟩
  · split at h
    · simp only [Prod.mk.injEq] at h
      obtain ⟨-, rfl⟩ := h
      exact ⟨Nat.succ_pos _, Nat.succ_le_succ (length_numberToken_le true _)⟩
    · exact hnumber h

/-- A token that a word or a number can give: a scalar, or one that ends the reading. -/
def Token.IsAtomic (t : Token) : Prop :=
  (∃ v, t = .scalar v ∧ isScalar v = true) ∨ t.isLast = true ∧ t.isMark = false

theorem isAtomic_integerToken (negative : Bool) (digits : List Nat) :
    (integerToken negative digits).IsAtomic := by
  rw [integerToken]
  split
  · exact .inr ⟨rfl, rfl⟩
  · exact .inl ⟨_, rfl, rfl⟩

theorem isAtomic_numberToken (negative : Bool) (text : List Char) :
    (numberToken negative text).1.IsAtomic := by
  rw [numberToken]
  simp only
  split
  · exact .inr ⟨rfl, rfl⟩
  · split
    · exact isAtomic_integerToken _ _
    · exact .inl ⟨_, rfl, rfl⟩

/-- Where a word or a number may stand, nothing else is read. -/
theorem isAtomic_scalarToken (cs : List Char) : (scalarToken cs).1.IsAtomic := by
  have hwords : ∀ w ∈ words, isScalar w.2 = true := by simp [words, isScalar]
  simp only [scalarToken]
  split
  · next word v hfind => exact .inl ⟨v, rfl, hwords _ (List.mem_of_find?_eq_some hfind)⟩
  · split
    · exact isAtomic_numberToken _ _
    · exact isAtomic_numberToken _ _

/-- What is read as a scalar is neither a text nor a list nor an object. -/
theorem isScalar_of_scalarToken {cs : List Char} {v : Value} {n : Nat}
    (h : scalarToken cs = (.scalar v, n)) : isScalar v = true := by
  have hatomic := isAtomic_scalarToken cs
  rw [h] at hatomic
  rcases hatomic with ⟨w, hw, hscalar⟩ | ⟨hlast, -⟩
  · cases hw
    exact hscalar
  · cases hlast

end Scalar

/-- The characters that may stand in a scalar are at the front of the text. -/
theorem exists_append_scalarChars (text : Text) :
    (∀ c ∈ scalarChars text, isScalarChar c = true) ∧
      ∃ tail, text = Text.ofChars (scalarChars text) ++ tail := by
  induction text with
  | nil => exact ⟨fun c hc => (List.not_mem_nil hc).elim, [], rfl⟩
  | cons p rest ih =>
    cases p with
    | surrogate offset => exact ⟨fun c hc => (List.not_mem_nil hc).elim, _, rfl⟩
    | char c =>
      by_cases hc : isScalarChar c = true
      · obtain ⟨hall, tail, htail⟩ := ih
        have hcons : scalarChars (.char c :: rest) = c :: scalarChars rest := by
          rw [scalarChars, if_pos hc]
        rw [hcons]
        exact ⟨List.forall_mem_cons.mpr ⟨hc, hall⟩, tail, congrArg (CodePoint.char c :: ·) htail⟩
      · have hnil : scalarChars (.char c :: rest) = [] := by rw [scalarChars, if_neg hc]
        rw [hnil]
        exact ⟨fun c hc => (List.not_mem_nil hc).elim, _, rfl⟩

/-- Characters of a scalar are read up to the first code point that is none. -/
theorem scalarChars_append {cs : List Char} (hcs : ∀ c ∈ cs, isScalarChar c = true) {tail : Text}
    (htail : scalarChars tail = []) : scalarChars (Text.ofChars cs ++ tail) = cs := by
  induction cs with
  | nil => exact htail
  | cons c cs ih =>
    have hc := hcs c (by simp)
    show (if isScalarChar c then c :: scalarChars (Text.ofChars cs ++ tail) else []) = c :: cs
    rw [if_pos hc, ih fun x hx => hcs x (by simp [hx])]

/-! ## Lexemes that stand for themselves -/

def marks : List (Char × Token) := [
  ('[', .openList), (']', .closeList), ('{', .openObject), ('}', .closeObject), (',', .comma),
  (':', .colon)]

/-- A lexeme that stands for its token: a mark, a text between quotes or a scalar. -/
inductive Lexeme.IsSound : Lexeme → Prop where
  | mark {c : Char} {t : Token} (h : (c, t) ∈ marks) : IsSound ⟨[.char c], t⟩
  | text {content : Text} {ps : List Piece} (h : Quoted content ps) :
      IsSound ⟨.char '"' :: (content ++ [.char '"']), .text (joinPieces ps)⟩
  | scalar {cs : List Char} {v : Value} (hcs : ∀ c ∈ cs, isScalarChar c = true)
      (h : scalarToken cs = (.scalar v, cs.length)) : IsSound ⟨Text.ofChars cs, .scalar v⟩

/-- The first code point of a token tells which kind of token it is. -/
theorem tokenAt_cases (p : CodePoint) (rest : Text) :
    (∃ c t, (c, t) ∈ marks ∧ p = .char c ∧ tokenAt p rest = (t, 1)) ∨
      (p = .char '"' ∧ tokenAt p rest = textToken rest) ∨
      tokenAt p rest = scalarToken (scalarChars (p :: rest)) := by
  simp only [tokenAt]
  split
  · exact .inl ⟨'[', .openList, by simp [marks], rfl, rfl⟩
  · exact .inl ⟨']', .closeList, by simp [marks], rfl, rfl⟩
  · exact .inl ⟨'{', .openObject, by simp [marks], rfl, rfl⟩
  · exact .inl ⟨'}', .closeObject, by simp [marks], rfl, rfl⟩
  · exact .inl ⟨',', .comma, by simp [marks], rfl, rfl⟩
  · exact .inl ⟨':', .colon, by simp [marks], rfl, rfl⟩
  · exact .inr (.inl ⟨rfl, rfl⟩)
  · exact .inr (.inr rfl)

/-- A character of a scalar is neither a mark nor a quote. -/
theorem tokenAt_of_isScalarChar {c : Char} (hc : isScalarChar c = true) (rest : Text) :
    tokenAt (.char c) rest = scalarToken (scalarChars (.char c :: rest)) := by
  rcases tokenAt_cases (.char c) rest with ⟨d, t, hmark, hp, -⟩ | ⟨hp, -⟩ | h
  · injection hp with hp
    subst hp
    simp only [marks, List.mem_cons, Prod.mk.injEq, List.not_mem_nil, or_false] at hmark
    rcases hmark with ⟨rfl, -⟩ | ⟨rfl, -⟩ | ⟨rfl, -⟩ | ⟨rfl, -⟩ | ⟨rfl, -⟩ | ⟨rfl, -⟩ <;>
      exact absurd hc (by decide)
  · injection hp with hp
    subst hp
    exact absurd hc (by decide)
  · exact h

theorem isSpace_of_isScalarChar {c : Char} (hc : isScalarChar c = true) :
    isSpace (.char c) = false := by
  rw [Bool.eq_false_iff]
  intro h
  simp only [isSpace, Bool.or_eq_true, decide_eq_true_eq, CodePoint.char.injEq] at h
  rcases h with ((rfl | rfl) | rfl) | rfl <;> exact absurd hc (by decide)

/-- A text between quotes stands for its token. -/
theorem isSound_textToken {rest : Text} (hlast : (textToken rest).1.isLast = false) :
    Lexeme.IsSound ⟨.char '"' :: rest.take ((textToken rest).2 - 1), (textToken rest).1⟩ := by
  rw [textToken] at hlast ⊢
  cases hpieces : textPieces 1 rest with
  | error e =>
    rw [hpieces] at hlast
    cases hlast
  | ok result =>
    obtain ⟨ps, length⟩ := result
    obtain ⟨content, tail, rfl, rfl, hquoted⟩ := quoted_of_textPieces hpieces
    have htake : (content ++ .char '"' :: tail).take (1 + content.length + 1 - 1)
        = content ++ [.char '"'] := by
      rw [show 1 + content.length + 1 - 1 = content.length + 1 by omega,
        List.take_length_add_append]
      rfl
    simp only [htake]
    exact .text hquoted

/-- Where characters of a scalar come next, the next token is no mark. -/
theorem isMark_tokenAt {c : Char} (hc : isScalarChar c = true) (rest : Text) :
    (tokenAt (.char c) rest).1.isMark = false := by
  rw [tokenAt_of_isScalarChar hc]
  rcases isAtomic_scalarToken (scalarChars (.char c :: rest)) with ⟨w, hw, -⟩ | ⟨-, hw⟩
  · rw [hw]
    rfl
  · rw [hw]

/-- A scalar that is followed by a token that may follow it takes all its characters: the next token
would otherwise start with one of them. -/
theorem length_scalarChars {p : CodePoint} (hp : isSpace p = false) {rest : Text} {v : Value}
    {n : Nat} (htoken : tokenAt p rest = (.scalar v, n)) (hpos : 0 < n)
    (hle : n ≤ (scalarChars (p :: rest)).length)
    (hchain : (spelled (p :: rest)).IsChain Token.Precedes) :
    n = (scalarChars (p :: rest)).length := by
  obtain ⟨hall, tail, htail⟩ := exists_append_scalarChars (p :: rest)
  generalize scalarChars (p :: rest) = cs at hle hall htail ⊢
  by_contra hne
  have hlt : n < cs.length := by omega
  have hdrop : rest.drop (n - 1) = (p :: rest).drop n := by
    obtain ⟨m, hm⟩ : ∃ m, n = m + 1 := ⟨n - 1, by omega⟩
    rw [hm, Nat.add_sub_cancel, List.drop_succ_cons]
  have hnext : (p :: rest).drop n = .char cs[n] :: (Text.ofChars (cs.drop (n + 1)) ++ tail) := by
    rw [htail, List.drop_append_of_le_length (by simp [Text.ofChars]; omega), Text.ofChars,
      ← List.map_drop, List.drop_eq_getElem_cons hlt]
    rfl
  have hc : isScalarChar cs[n] = true := hall _ (List.getElem_mem hlt)
  rw [spelled_cons hp, htoken] at hchain
  simp only [Token.isLast, Bool.false_eq_true, if_false, hdrop, hnext] at hchain
  rw [spelled_cons (isSpace_of_isScalarChar hc)] at hchain
  have hmark := (List.isChain_cons_cons.mp hchain).1
  rw [Token.Precedes, isMark_tokenAt hc] at hmark
  cases hmark

/-- A text with tokens that may follow one another starts with a sound lexeme. -/
theorem isSound_head {p : CodePoint} (hp : isSpace p = false) {rest : Text}
    (hlast : (tokenAt p rest).1.isLast = false)
    (hchain : (spelled (p :: rest)).IsChain Token.Precedes) :
    Lexeme.IsSound ⟨p :: rest.take ((tokenAt p rest).2 - 1), (tokenAt p rest).1⟩ := by
  rcases tokenAt_cases p rest with ⟨c, t, hmark, rfl, htoken⟩ | ⟨rfl, htoken⟩ | htoken
  · rw [htoken, Nat.sub_self, List.take_zero]
    exact .mark hmark
  · rw [htoken] at hlast ⊢
    exact isSound_textToken hlast
  · obtain ⟨v, hv⟩ : ∃ v, (scalarToken (scalarChars (p :: rest))).1 = .scalar v := by
      rcases isAtomic_scalarToken (scalarChars (p :: rest)) with ⟨v, hv, -⟩ | ⟨h, -⟩
      · exact ⟨v, hv⟩
      · rw [htoken, h] at hlast
        cases hlast
    generalize hn : (scalarToken (scalarChars (p :: rest))).2 = n at *
    have hscalar : scalarToken (scalarChars (p :: rest)) = (.scalar v, n) := Prod.ext hv hn
    obtain ⟨hpos, hle⟩ := length_scalarToken hscalar
    rw [hscalar] at htoken
    obtain rfl := length_scalarChars hp htoken hpos hle hchain
    obtain ⟨hall, tail, htail⟩ := exists_append_scalarChars (p :: rest)
    generalize scalarChars (p :: rest) = cs at hscalar hpos htoken hall htail
    have htake : (p :: rest).take cs.length = Text.ofChars cs := by
      rw [htail, List.take_left' (by simp [Text.ofChars])]
    have hspelling : p :: rest.take (cs.length - 1) = Text.ofChars cs := by
      obtain ⟨m, hm⟩ : ∃ m, cs.length = m + 1 := ⟨cs.length - 1, by omega⟩
      rw [hm, Nat.add_sub_cancel, ← htake, hm, List.take_succ_cons]
    rw [htoken]
    simp only [hspelling]
    exact .scalar hall hscalar

/-- The lexemes of a text with a value are sound. -/
theorem isSound_lexemes {text : Text} (hlast : ∀ t ∈ spelled text, t.isLast = false)
    (hchain : (spelled text).IsChain Token.Precedes) : ∀ l ∈ lexemes text, l.IsSound := by
  induction h : text.length using Nat.strong_induction_on generalizing text with
  | _ n ih =>
    subst h
    cases text with
    | nil => intro l hl; cases hl
    | cons p rest =>
      by_cases hp : isSpace p = true
      · rw [spelled_cons_space hp] at hlast hchain
        rw [lexemes_cons_space hp]
        exact ih rest.length (by simp) hlast hchain rfl
      · rw [Bool.not_eq_true] at hp
        have hhead := hlast _ (by rw [spelled_cons hp]; exact List.mem_cons_self)
        have hsound := isSound_head hp hhead hchain
        rw [spelled_cons hp, hhead] at hlast hchain
        rw [lexemes_cons hp, hhead]
        simp only [Bool.false_eq_true, if_false] at hlast hchain ⊢
        refine List.forall_mem_cons.mpr ⟨hsound, ih _ ?_ ?_ hchain.of_cons rfl⟩
        · rw [List.length_drop, List.length_cons]; omega
        · exact fun t ht => hlast t (List.mem_cons_of_mem _ ht)

/-- The scalars of a text with a value are neither texts nor lists nor objects. -/
theorem Spells.isScalar_of_mem {text : Text} {v w : Value} (h : Spells (spelled text) v)
    (hw : .scalar w ∈ spelled text) : isScalar w = true := by
  have hs := isSound_lexemes h.isLast_eq_false h.isChain
  rw [← map_token_lexemes] at hw
  obtain ⟨l, hl, htoken⟩ := List.mem_map.mp hw
  cases hs l hl with
  | mark hmark =>
    have hmarks : ∀ mark ∈ marks, mark.2 ≠ .scalar w := by simp [marks]
    exact absurd htoken (hmarks _ hmark)
  | text => cases htoken
  | scalar hcs hscalar =>
    cases htoken
    exact isScalar_of_scalarToken hscalar

/-- A sound lexeme is read as its token in front of any text that does not continue a scalar. -/
theorem Lexeme.IsSound.spelled_append {l : Lexeme} (hl : l.IsSound) {d : Text}
    (hd : ∀ v, l.token = .scalar v → scalarChars d = []) :
    spelled (l.spelling ++ d) = l.token :: spelled d := by
  cases hl with
  | @mark c t hmark =>
    simp only [marks, List.mem_cons, Prod.mk.injEq, List.not_mem_nil, or_false] at hmark
    rcases hmark with ⟨rfl, rfl⟩ | ⟨rfl, rfl⟩ | ⟨rfl, rfl⟩ | ⟨rfl, rfl⟩ | ⟨rfl, rfl⟩ | ⟨rfl, rfl⟩
    all_goals exact spelled_cons rfl d
  | @text content ps hquoted =>
    have htoken : tokenAt (.char '"') (content ++ .char '"' :: d)
        = (.text (joinPieces ps), 1 + content.length + 1) := by
      show textToken (content ++ .char '"' :: d) = _
      rw [textToken, hquoted.textPieces_eq]
    have hdrop : (content ++ .char '"' :: d).drop (1 + content.length + 1 - 1) = d := by
      rw [show 1 + content.length + 1 - 1 = content.length + 1 by omega,
        List.drop_length_add_append]
      rfl
    simp only [List.cons_append, List.append_assoc, List.nil_append]
    rw [spelled_cons rfl, htoken, hdrop]
    rfl
  | @scalar cs v hcs hscalar =>
    obtain ⟨hpos, -⟩ := length_scalarToken hscalar
    obtain ⟨c, cs', rfl⟩ := List.exists_cons_of_length_pos hpos
    have hc := hcs c (by simp)
    have hchars := scalarChars_append hcs (hd v rfl)
    have htoken : tokenAt (.char c) (Text.ofChars cs' ++ d) = (.scalar v, cs'.length + 1) := by
      rw [tokenAt_of_isScalarChar hc, ← List.length_cons (a := c), ← hscalar]
      exact congrArg scalarToken hchars
    have hdrop : (Text.ofChars cs' ++ d).drop (cs'.length + 1 - 1) = d :=
      List.drop_left' (by simp [Text.ofChars])
    show spelled (.char c :: (Text.ofChars cs' ++ d)) = _
    rw [spelled_cons (isSpace_of_isScalarChar hc), htoken, hdrop]
    rfl

end AntennaArray.Json
