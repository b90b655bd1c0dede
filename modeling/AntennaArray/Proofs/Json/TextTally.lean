import AntennaArray.Proofs.Json.Decorated
import AntennaArray.Proofs.Json.ValueTally

/-!
# How often a character is spelled in a text

A cursor goes over a text and knows whether the next code point is escaped, but not whether it
stands between quotes. Along it we count how often a character is spelled, by itself or by the
digits of an escape. In a text with a value the count is the one in its tokens (`tallyText_eq`). A
pass never raises it, except that taking out a block comment may complete an escape
(`tallyText_fresh`).
-/

namespace AntennaArray.Json

open AntennaArray.Text (isBlank isLineEnd firstLine isBlank_of_isLineEnd)

/-- The characters that are counted: each is part of what a pass takes out, and only a text or a
comma holds it in a text with a value. -/
def tallied : List Char := ['/', ',', '\x85', '\u2028', '\u2029']

/-- What the next code point belongs to. -/
inductive Cursor where
  | fresh
  /-- It comes after a backslash. -/
  | escaped
  /-- So many digits of a code unit have been read, with this value. -/
  | digits (count value : Nat)

namespace Cursor

/-- The cursor after a code point. What is no digit ends an escape that lacks some. -/
def next : Cursor → CodePoint → Cursor
  | .fresh, p => if p = .char '\\' then .escaped else .fresh
  | .escaped, p => if p = .char 'u' then .digits 0 0 else .fresh
  | .digits count value, p =>
    match hexDigit? p with
    | some d => if count = 3 then .fresh else .digits (count + 1) (value * 16 + d)
    | none => if p = .char '\\' then .escaped else .fresh

/-- How often a character is spelled where a code point ends. -/
def gain (k : Char) : Cursor → CodePoint → Nat
  | .digits count value, p =>
    match hexDigit? p with
    | some d => if count = 3 ∧ CodePoint.ofValue (value * 16 + d) = .char k then 1 else 0
    | none => if p = .char k then 1 else 0
  | _, p => if p = .char k then 1 else 0

end Cursor

/-- How often a character is spelled in a text. -/
def tallyText (k : Char) : Cursor → Text → Nat
  | _, [] => 0
  | s, p :: rest => s.gain k p + tallyText k (s.next p) rest

@[simp] theorem tallyText_nil (k : Char) (s : Cursor) : tallyText k s [] = 0 := by
  cases s <;> rfl

theorem tallyText_cons (k : Char) (s : Cursor) (p : CodePoint) (rest : Text) :
    tallyText k s (p :: rest) = s.gain k p + tallyText k (s.next p) rest := by
  cases s <;> rfl

/-- A later part of a text spells no more than the whole. -/
theorem exists_le_tallyText_append (k : Char) (s : Cursor) (part rest : Text) :
    ∃ s', tallyText k s' rest ≤ tallyText k s (part ++ rest) := by
  induction part generalizing s with
  | nil => exact ⟨s, Nat.le_refl _⟩
  | cons p part ih =>
    obtain ⟨s', hs'⟩ := ih (s.next p)
    refine ⟨s', ?_⟩
    rw [List.cons_append, tallyText_cons]
    omega

/-! ## Code points that end an escape -/

/-- The code point can be neither the start nor a part of an escape by digits. -/
def EndsEscape (p : CodePoint) : Prop :=
  hexDigit? p = none ∧ p ≠ .char '\\' ∧ p ≠ .char 'u'

instance (p : CodePoint) : Decidable (EndsEscape p) :=
  inferInstanceAs (Decidable (_ ∧ _ ∧ _))

theorem endsEscape_of_value {p : CodePoint} (hp : p.value < 48 ∨ 117 < p.value) :
    EndsEscape p := by
  refine ⟨?_, ?_, ?_⟩
  · cases p with
    | surrogate offset => rfl
    | char c =>
      have hvalue : (CodePoint.char c).value = c.toNat := rfl
      have hle : ∀ a b : Char, a ≤ b ↔ a.toNat ≤ b.toNat := fun a b => Iff.rfl
      rw [hvalue] at hp
      have hdigits : ¬('0' ≤ c ∧ c ≤ '9') := by
        rw [hle, hle]
        simp only [Char.reduceToNat]
        omega
      have hlower : ¬('a' ≤ c ∧ c ≤ 'f') := by
        rw [hle, hle]
        simp only [Char.reduceToNat]
        omega
      have hupper : ¬('A' ≤ c ∧ c ≤ 'F') := by
        rw [hle, hle]
        simp only [Char.reduceToNat]
        omega
      rw [hexDigit?, hexValue?, if_neg hdigits, if_neg hlower, if_neg hupper]
  · intro h
    subst h
    revert hp
    decide
  · intro h
    subst h
    revert hp
    decide

/-- After such a code point the cursor is fresh. -/
theorem tallyText_cons_endsEscape (k : Char) (s : Cursor) {p : CodePoint} (hp : EndsEscape p)
    (rest : Text) :
    tallyText k s (p :: rest) = (if p = .char k then 1 else 0) + tallyText k .fresh rest := by
  obtain ⟨hhex, hslash, hu⟩ := hp
  rw [tallyText_cons]
  cases s with
  | fresh => simp [Cursor.gain, Cursor.next, hslash]
  | escaped => simp [Cursor.gain, Cursor.next, hu]
  | digits count value => simp [Cursor.gain, Cursor.next, hhex, hslash]

/-- Where such a code point or nothing comes next, the cursor does not matter. -/
theorem tallyText_eq_fresh (k : Char) (s : Cursor) {text : Text}
    (h : ∀ p ∈ text.head?, EndsEscape p) : tallyText k s text = tallyText k .fresh text := by
  cases text with
  | nil => simp
  | cons p rest =>
    rw [tallyText_cons_endsEscape k s (h p rfl), tallyText_cons_endsEscape k .fresh (h p rfl)]

theorem endsEscape_of_isBlank {p : CodePoint} (hp : isBlank p.value = true) : EndsEscape p := by
  refine endsEscape_of_value ?_
  simp only [isBlank, Bool.or_eq_true, Bool.and_eq_true, decide_eq_true_eq, beq_iff_eq] at hp
  omega

theorem endsEscape_of_isLineEnd {e : CodePoint} (he : isLineEnd e.value = true) : EndsEscape e :=
  endsEscape_of_isBlank (isBlank_of_isLineEnd he)

/-- Before a bracket that is closed next there is no part of an escape. -/
theorem endsEscape_of_closesNext {text : Text} (h : closesNext text = true) :
    ∀ p ∈ text.head?, EndsEscape p := by
  intro p hp
  obtain ⟨rest, rfl⟩ := List.head?_eq_some_iff.mp hp
  by_cases hblank : isBlank p.value = true
  · exact endsEscape_of_isBlank hblank
  · rw [Bool.not_eq_true] at hblank
    rw [closesNext_cons hblank, decide_eq_true_eq] at h
    rcases h with rfl | rfl <;> decide

theorem ne_of_mem_tallied {k : Char} (hk : k ∈ tallied) :
    k ≠ '\\' ∧ k ≠ 'u' ∧ k ≠ '"' ∧ hexDigit? (.char k) = none ∧ isSpace (.char k) = false ∧
      isScalarChar k = false ∧ k.toNat < 0x10000 ∧ 0 < k.toNat := by
  simp only [tallied, List.mem_cons, List.not_mem_nil, or_false] at hk
  rcases hk with rfl | rfl | rfl | rfl | rfl
  all_goals decide

/-- Beside a fresh cursor another one either counts the same, and one of the two is fresh afterwards
or both agree, or it ends an escape by digits and both agree. -/
theorem Cursor.gain_next {k : Char} (hk : k ∈ tallied) (s : Cursor) (p : CodePoint) :
    s.gain k p = Cursor.gain k .fresh p ∧ (s.next p = .fresh ∨ Cursor.next .fresh p = .fresh ∨
        s.next p = Cursor.next .fresh p) ∨
      s.gain k p ≤ 1 ∧ Cursor.gain k .fresh p = 0 ∧ s.next p = Cursor.next .fresh p := by
  obtain ⟨-, -, -, hhex, -⟩ := ne_of_mem_tallied hk
  cases s with
  | fresh => exact .inl ⟨rfl, .inr (.inr rfl)⟩
  | escaped =>
    refine .inl ⟨rfl, ?_⟩
    by_cases hp : p = .char 'u'
    · subst hp
      exact .inr (.inl rfl)
    · exact .inl (if_neg hp)
  | digits count value =>
    cases hdigit : hexDigit? p with
    | none => exact .inl (by simp [Cursor.gain, Cursor.next, hdigit])
    | some d =>
      have hpk : p ≠ .char k := by
        intro h
        rw [h, hhex] at hdigit
        cases hdigit
      have hp : p ≠ .char '\\' := by
        intro h
        rw [h] at hdigit
        cases hdigit
      have hgain : Cursor.gain k .fresh p = 0 := if_neg hpk
      have hnext : Cursor.next .fresh p = .fresh := if_neg hp
      rw [hgain, hnext]
      by_cases hcount : count = 3
      · refine .inr ⟨?_, rfl, by simp [Cursor.next, hdigit, hcount]⟩
        simp only [Cursor.gain, hdigit]
        split <;> omega
      · exact .inl ⟨by simp [Cursor.gain, hdigit, hcount], .inr (.inl rfl)⟩

/-- Whether the first code point is escaped makes a difference of at most one. -/
theorem tallyText_fresh {k : Char} (hk : k ∈ tallied) (text : Text) (s : Cursor) :
    tallyText k s text ≤ tallyText k .fresh text + 1 ∧
      tallyText k .fresh text ≤ tallyText k s text + 1 := by
  induction text generalizing s with
  | nil => simp
  | cons p rest ih =>
    have hnext := ih (s.next p)
    have hfresh := ih (Cursor.next .fresh p)
    rw [tallyText_cons k s, tallyText_cons k .fresh]
    rcases s.gain_next hk p with ⟨hgain, h | h | h⟩ | ⟨hgain, hnone, h⟩
    all_goals
      rw [h] at *
      omega

/-! ## Texts with a value -/

/-- The code point of a piece, if its neighbours do not join it. -/
def Piece.codePoint : Piece → CodePoint
  | .plain p => p
  | .unit u => .ofValue u

/-- Surrogates that are joined hold none of the characters before or after. -/
theorem count_joinPieces {k : Char} (hk : k ∈ tallied) (ps : List Piece) :
    (joinPieces ps).count (.char k) = (ps.map Piece.codePoint).count (.char k) := by
  obtain ⟨-, -, -, -, -, -, hlarge, hpos⟩ := ne_of_mem_tallied hk
  have hsurrogate : ∀ u, 0xD800 ≤ u ∧ u < 0xE000 → CodePoint.ofValue u ≠ .char k := by
    intro u hu
    rw [CodePoint.ofValue, dif_pos hu]
    simp
  have hjoined : ∀ n, 0x10000 ≤ n → CodePoint.ofValue n ≠ .char k := by
    intro n hn h
    rw [CodePoint.ofValue, dif_neg (by omega)] at h
    injection h with h
    by_cases hvalid : n.isValidChar
    · have hvalue : (Char.ofNat n).toNat = n := by
        rw [Char.ofNat, dif_pos hvalid]
        rfl
      rw [h] at hvalue
      omega
    · have hnull : (Char.ofNat n).toNat = 0 := by
        rw [Char.ofNat, dif_neg hvalid]
        rfl
      rw [h] at hnull
      omega
  fun_induction joinPieces ps with
  | case1 => rfl
  | case2 p rest ih => simp [Piece.codePoint, List.count_cons, ih]
  | case3 u v rest hpair ih =>
    have hu := hsurrogate u ⟨hpair.1, by omega⟩
    have hv := hsurrogate v ⟨by omega, by omega⟩
    have huv := hjoined (0x10000 + (u - 0xD800) * 0x400 + (v - 0xDC00)) (by omega)
    simp [Piece.codePoint, ih, hu, hv, huv]
  | case4 u v rest hpair ih =>
    rw [List.count_cons, ih, List.map_cons, List.map_cons, List.map_cons, List.count_cons,
      List.count_cons, List.count_cons]
    rfl
  | case5 u rest hrest ih =>
    rw [List.count_cons, ih, List.map_cons, List.count_cons]
    rfl

/-- The letter after a backslash is counted where it stands for the character itself. -/
theorem eq_iff_of_escapedChar? {k : Char} (hk : k ∈ tallied) {p : CodePoint} {c : Char}
    (hc : escapedChar? p = some c) : p = .char k ↔ CodePoint.char c = .char k := by
  simp only [tallied, List.mem_cons, List.not_mem_nil, or_false] at hk
  simp only [escapedChar?] at hc
  split at hc
  case h_9 => cases hc
  all_goals
    cases hc
    rcases hk with rfl | rfl | rfl | rfl | rfl
    all_goals decide

theorem tallyText_digit {k : Char} {n v d : Nat} {p : CodePoint} (hd : hexDigit? p = some d)
    (hn : n ≠ 3) (rest : Text) :
    tallyText k (.digits n v) (p :: rest) = tallyText k (.digits (n + 1) (v * 16 + d)) rest := by
  rw [tallyText_cons]
  simp [Cursor.gain, Cursor.next, hd, hn]

theorem tallyText_lastDigit {k : Char} {v d : Nat} {p : CodePoint} (hd : hexDigit? p = some d)
    (rest : Text) :
    tallyText k (.digits 3 v) (p :: rest) =
      (if CodePoint.ofValue (v * 16 + d) = .char k then 1 else 0) + tallyText k .fresh rest := by
  rw [tallyText_cons]
  simp [Cursor.gain, Cursor.next, hd]

/-- A backslash is not counted itself. -/
theorem tallyText_backslash {k : Char} (hk : k ∈ tallied) (text : Text) :
    tallyText k .fresh (.char '\\' :: text) = tallyText k .escaped text := by
  obtain ⟨hslash, -⟩ := ne_of_mem_tallied hk
  rw [tallyText_cons]
  simp [Cursor.gain, Cursor.next, hslash.symm]

/-- An escape by digits counts as the code point with their number. -/
theorem tallyText_unit {k : Char} (hk : k ∈ tallied) {a b c d : CodePoint} {u : Nat}
    (hcode : codeUnit? a b c d = some u) (text : Text) :
    tallyText k .escaped (.char 'u' :: a :: b :: c :: d :: text) =
      (if CodePoint.ofValue u = .char k then 1 else 0) + tallyText k .fresh text := by
  obtain ⟨-, hu, -⟩ := ne_of_mem_tallied hk
  obtain ⟨i, j, l, m, ha, hb, hc, hd, rfl⟩ := exists_of_codeUnit? hcode
  have hunit : ∀ text,
      tallyText k .escaped (.char 'u' :: text) = tallyText k (.digits 0 0) text := by
    intro text
    rw [tallyText_cons]
    simp [Cursor.gain, Cursor.next, hu.symm]
  have hvalue : (((0 * 16 + i) * 16 + j) * 16 + l) * 16 + m
      = (i * 16 + j) * 256 + l * 16 + m := by omega
  rw [hunit, tallyText_digit ha (by decide), tallyText_digit hb (by decide),
    tallyText_digit hc (by decide), tallyText_lastDigit hd, hvalue]

/-- Along what stands between quotes, each piece counts as the code point that it stands for. -/
theorem Quoted.tallyText_append {k : Char} (hk : k ∈ tallied) {content : Text} {ps : List Piece}
    (h : Quoted content ps) (rest : Text) :
    tallyText k .fresh (content ++ rest)
      = (ps.map Piece.codePoint).count (.char k) + tallyText k .fresh rest := by
  induction h with
  | nil => simp
  | @unit a b c d u content ps hcode h ih =>
    simp only [List.cons_append]
    rw [tallyText_backslash hk, tallyText_unit hk hcode, ih, List.map_cons, List.count_cons]
    simp only [Piece.codePoint, beq_iff_eq]
    omega
  | @escape p c content ps hc h ih =>
    have hpu : p ≠ .char 'u' := by
      intro heq
      subst heq
      cases hc
    have hiff := eq_iff_of_escapedChar? hk hc
    simp only [List.cons_append]
    rw [tallyText_backslash hk, tallyText_cons]
    simp only [Cursor.gain, Cursor.next, hpu, if_false, ih, List.map_cons, List.count_cons,
      Piece.codePoint, beq_iff_eq, hiff]
    omega
  | @plain p content ps hquote hslash' hvalue h ih =>
    simp only [List.cons_append]
    rw [tallyText_cons]
    simp only [Cursor.gain, Cursor.next, hslash', if_false, ih, List.map_cons, List.count_cons,
      Piece.codePoint, beq_iff_eq]
    omega

/-- Of the marks, the comma alone is counted. -/
theorem tally_of_mem_marks {k : Char} (hk : k ∈ tallied) {c : Char} {t : Token}
    (hmark : (c, t) ∈ marks) :
    c ≠ '\\' ∧ (if CodePoint.char c = .char k then 1 else 0) = t.tally k := by
  simp only [tallied, List.mem_cons, List.not_mem_nil, or_false] at hk
  simp only [marks, List.mem_cons, Prod.mk.injEq, List.not_mem_nil, or_false] at hmark
  rcases hmark with ⟨rfl, rfl⟩ | ⟨rfl, rfl⟩ | ⟨rfl, rfl⟩ | ⟨rfl, rfl⟩ | ⟨rfl, rfl⟩ | ⟨rfl, rfl⟩
  all_goals
    rcases hk with rfl | rfl | rfl | rfl | rfl
    all_goals decide

/-- A lexeme spells what its token holds. -/
theorem Lexeme.IsSound.tallyText_append {k : Char} (hk : k ∈ tallied) {l : Lexeme}
    (hl : l.IsSound) (rest : Text) :
    tallyText k .fresh (l.spelling ++ rest) = l.token.tally k + tallyText k .fresh rest := by
  obtain ⟨hslash, -, hquote, -, -, hscalarChar, -⟩ := ne_of_mem_tallied hk
  cases hl with
  | @mark c t hmark =>
    obtain ⟨hc, htally⟩ := tally_of_mem_marks hk hmark
    show tallyText k .fresh (.char c :: rest) = _
    rw [tallyText_cons, ← htally]
    simp [Cursor.gain, Cursor.next, hc]
  | @text content ps hquoted =>
    have hmark : ∀ text, tallyText k .fresh (.char '"' :: text) = tallyText k .fresh text := by
      intro text
      rw [tallyText_cons]
      simp [Cursor.gain, Cursor.next, hquote.symm]
    simp only [List.cons_append, List.append_assoc, List.nil_append]
    rw [hmark, hquoted.tallyText_append hk, hmark, ← count_joinPieces hk]
    rfl
  | @scalar cs v hcs hscalar =>
    clear hscalar
    show tallyText k .fresh (Text.ofChars cs ++ rest) = 0 + _
    induction cs with
    | nil => simp [Text.ofChars]
    | cons c cs ih =>
      obtain ⟨hc, hcs⟩ := List.forall_mem_cons.mp hcs
      have hck : c ≠ k := by
        intro h
        subst h
        rw [hc] at hscalarChar
        cases hscalarChar
      have hcslash : c ≠ '\\' := by
        intro h
        subst h
        exact absurd hc (by decide)
      show tallyText k .fresh (.char c :: (Text.ofChars cs ++ rest)) = _
      rw [tallyText_cons, ← ih hcs]
      simp [Cursor.gain, Cursor.next, hck, hcslash]

/-- A text that consists of lexemes and white space spells what their tokens hold. -/
theorem Decorated.tallyText_eq {k : Char} (hk : k ∈ tallied) {entry : Bool} {ls : List Lexeme}
    {d : Text} (hs : ∀ l ∈ ls, l.IsSound) (h : Decorated ⟨false, false, false⟩ entry ls d) :
    tallyText k .fresh d = tallyTokens k (ls.map Lexeme.token) := by
  obtain ⟨-, -, -, -, hspace, -⟩ := ne_of_mem_tallied hk
  induction h with
  | nil => simp
  | @space entry ls p d hp h ih =>
    have hpk : p ≠ .char k := by
      intro heq
      subst heq
      rw [hp] at hspace
      cases hspace
    have hends := endsEscape_of_isBlank (isBlank_of_isSpace hp)
    rw [tallyText_cons_endsEscape k .fresh hends, if_neg hpk, ih hs, Nat.zero_add]
  | block hk => cases hk
  | line hk => cases hk
  | lastLine hk => cases hk
  | comma hk => cases hk
  | @lexeme entry l ls d h ih =>
    obtain ⟨hl, hs⟩ := List.forall_mem_cons.mp hs
    rw [hl.tallyText_append hk, ih hs, List.map_cons, tallyTokens_cons]

/-! ## The passes -/

/-- A block comment holds at least two slashes. -/
theorem le_tallyText_block (s : Cursor) (body after : Text) :
    2 + tallyText '/' .fresh after
      ≤ tallyText '/' s (blockStart ++ (body ++ (blockEnd ++ after))) := by
  obtain ⟨s', hs'⟩ := exists_le_tallyText_append '/' .fresh (.char '*' :: (body ++ [.char '*']))
    (.char '/' :: after)
  have htext : blockStart ++ (body ++ (blockEnd ++ after))
      = .char '/' :: ((.char '*' :: (body ++ [.char '*'])) ++ .char '/' :: after) := by
    simp [blockStart, blockEnd]
  rw [tallyText_cons_endsEscape '/' s' (by decide), if_pos rfl] at hs'
  rw [htext, tallyText_cons_endsEscape '/' s (by decide), if_pos rfl]
  omega

/-- Taking out the block comments takes slashes with them, and brings in at most one less. -/
theorem tallyText_dropBlocks (s : Cursor) (text : Text) :
    tallyText '/' s (dropBlocks 0 text) ≤ tallyText '/' s text ∧
      (tallyText '/' s (dropBlocks 0 text) = tallyText '/' s text → ¬HasBlock text) := by
  induction h : text.length using Nat.strong_induction_on generalizing text s with
  | _ n ih =>
    subst h
    cases text with
    | nil => exact ⟨Nat.le_refl _, fun _ => not_hasBlock_nil⟩
    | cons p rest =>
      by_cases hblock : (p = .char '/' ∧ rest.head? = some (.char '*')) ∧
          (closing? rest.tail).isSome = true
      · obtain ⟨body, after, htext, hdrop⟩ := exists_block hblock.1 hblock.2
        have hshorter : after.length < (p :: rest).length := by
          rw [htext]
          simp only [blockStart, blockEnd, List.length_append, List.length_cons, List.length_nil]
          omega
        have hrest := (ih after.length hshorter s after rfl).1
        have hescape := (tallyText_fresh (k := '/') (by decide) after s).1
        have htwo := le_tallyText_block s body after
        rw [hdrop, htext]
        exact ⟨by omega, by omega⟩
      · have hkeep : dropBlocks 0 (p :: rest) = p :: dropBlocks 0 rest := by
          by_cases hpair : p = .char '/' ∧ rest.head? = some (.char '*')
          · refine dropBlocks_cons_of_closing? ?_
            by_contra hsome
            exact hblock ⟨hpair, Option.isSome_iff_ne_none.mpr hsome⟩
          · exact dropBlocks_cons hpair
        obtain ⟨hle, hnone⟩ := ih rest.length (by simp) (s.next p) rest rfl
        rw [hkeep, tallyText_cons, tallyText_cons]
        refine ⟨by omega, fun heq => ?_⟩
        rw [hasBlock_cons]
        exact not_or.mpr ⟨hblock, hnone (by omega)⟩

/-- What the second pass leaves of a character alone: no line end is one, and no comment starts
with it. -/
def IsKeptInLines (k : Char) (text : Text) : Prop :=
  (∀ p ∈ text, isLineEnd p.value = true → p ≠ .char k) ∧ (k = '/' → ¬slashes <:+: text)

/-- A line comment holds at least two slashes. -/
theorem le_tallyText_comment (k : Char) (s : Cursor) (body : Text) {after : Text}
    (hafter : ∀ e ∈ after.head?, isLineEnd e.value = true) :
    (if k = '/' then 2 else 0) + tallyText k .fresh after
      ≤ tallyText k s (slashes ++ (body ++ after)) := by
  obtain ⟨s', hs'⟩ := exists_le_tallyText_append k .fresh body after
  rw [tallyText_eq_fresh k s' fun e he => endsEscape_of_isLineEnd (hafter e he)] at hs'
  show _ ≤ tallyText k s (.char '/' :: .char '/' :: (body ++ after))
  rw [tallyText_cons_endsEscape k s (by decide), tallyText_cons_endsEscape k .fresh (by decide)]
  by_cases hk : k = '/'
  · rw [if_pos hk, if_pos (congrArg CodePoint.char hk.symm)]
    omega
  · rw [if_neg hk]
    omega

/-- No slash ends a line. -/
theorem ne_slash_of_isLineEnd {e : CodePoint} (he : isLineEnd e.value = true) :
    e ≠ .char '/' := by
  intro h
  subst h
  cases he

namespace IsKeptInLines

variable {k : Char} {p : CodePoint} {rest : Text}

theorem nil : IsKeptInLines k [] := ⟨by simp, fun _ => by simp [slashes]⟩

/-- A line end that is not the character is left alone. -/
theorem cons_lineEnd (h : IsKeptInLines k rest) (hp : isLineEnd p.value = true)
    (hpk : p ≠ .char k) : IsKeptInLines k (p :: rest) := by
  refine ⟨List.forall_mem_cons.mpr ⟨fun _ => hpk, h.1⟩, fun hk hin => ?_⟩
  rcases List.infix_cons_iff.mp hin with hstart | hlater
  · exact ne_slash_of_isLineEnd hp (List.cons_prefix_cons.mp hstart).1.symm
  · exact h.2 hk hlater

/-- What neither ends a line nor starts a comment is left alone. -/
theorem cons (h : IsKeptInLines k rest) (hp : isLineEnd p.value = false)
    (hpair : ¬(p = .char '/' ∧ rest.head? = some (.char '/'))) : IsKeptInLines k (p :: rest) := by
  refine ⟨List.forall_mem_cons.mpr ⟨fun he => ?_, h.1⟩, fun hk hin => ?_⟩
  · rw [hp] at he
    cases he
  · rcases List.infix_cons_iff.mp hin with ⟨tail, htail⟩ | hlater
    · cases htail
      exact hpair ⟨rfl, rfl⟩
    · exact h.2 hk hlater

/-- A comment is left alone by all but the slash. -/
theorem comment (h : IsKeptInLines k rest) (hk : k ≠ '/') {body : Text}
    (hbody : ∀ q ∈ body, isLineEnd q.value = false) :
    IsKeptInLines k (slashes ++ (body ++ rest)) := by
  refine ⟨?_, fun h => absurd h hk⟩
  intro q hq he
  simp only [List.mem_append, slashes, List.mem_cons, List.not_mem_nil, or_false, or_self] at hq
  rcases hq with rfl | hq | hq
  · exact absurd rfl (ne_slash_of_isLineEnd he)
  · rw [hbody q hq] at he
    cases he
  · exact h.1 q hq he

end IsKeptInLines

/-- A line end is counted by itself, and the next line starts afresh. -/
theorem tallyText_cons_lineEnd {k : Char} (s : Cursor) {p : CodePoint}
    (hp : isLineEnd p.value = true) (rest : Text) :
    tallyText k .fresh rest ≤ tallyText k s (p :: rest) ∧
      (tallyText k s (p :: rest) = tallyText k .fresh rest → p ≠ .char k) := by
  rw [tallyText_cons_endsEscape k s (endsEscape_of_isLineEnd hp)]
  refine ⟨Nat.le_add_left _ _, fun heq hpk => ?_⟩
  rw [if_pos hpk] at heq
  omega

/-- Taking out the line comments takes slashes with them, and replaces line ends. -/
theorem tallyText_dropLineComments {k : Char} (hk : k ∈ tallied) (s : Cursor) (text : Text) :
    tallyText k s (dropLineComments text) ≤ tallyText k s text ∧
      (tallyText k s (dropLineComments text) = tallyText k s text → IsKeptInLines k text) := by
  have hfeed : CodePoint.char '\n' ≠ .char k := by
    intro h
    cases h
    exact absurd hk (by decide)
  induction h : text.length using Nat.strong_induction_on generalizing text s with
  | _ n ih =>
    subst h
    cases text with
    | nil => exact ⟨Nat.le_refl _, fun _ => .nil⟩
    | cons p rest =>
      by_cases hp : isLineEnd p.value = true
      · obtain ⟨hge, hpgain⟩ := tallyText_cons_lineEnd (k := k) s hp rest
        rcases dropLineComments_lineEnd hp rest with hdrop | ⟨hnext, hdrop⟩
        · obtain ⟨hle, hrest⟩ := ih rest.length (by simp) .fresh rest rfl
          rw [hdrop, tallyText_cons_endsEscape k s (by decide), if_neg hfeed, Nat.zero_add]
          exact ⟨by omega, fun heq => (hrest (by omega)).cons_lineEnd hp (hpgain (by omega))⟩
        · obtain ⟨hle, hrest⟩ := ih rest.length (by simp) s rest rfl
          have hfresh : tallyText k s rest = tallyText k .fresh rest :=
            tallyText_eq_fresh k s fun q hq => by rw [hnext q hq]; decide
          rw [hdrop]
          exact ⟨by omega, fun heq => (hrest (by omega)).cons_lineEnd hp (hpgain (by omega))⟩
      · rw [Bool.not_eq_true] at hp
        by_cases hpair : p = .char '/' ∧ rest.head? = some (.char '/')
        · obtain ⟨body, after, htext, hbody, hafter⟩ := exists_comment hpair
          have hshorter : after.length < (p :: rest).length := by
            rw [htext]
            simp only [slashes, List.length_append, List.length_cons, List.length_nil]
            omega
          obtain ⟨hle, hrest⟩ := ih after.length hshorter s after rfl
          have hfresh : tallyText k s after = tallyText k .fresh after :=
            tallyText_eq_fresh k s fun e he => endsEscape_of_isLineEnd (hafter e he)
          have htwo := le_tallyText_comment k s body hafter
          rw [htext, dropLineComments_comment hbody hafter]
          refine ⟨by omega, fun heq => (hrest (by omega)).comment (fun hk => ?_) hbody⟩
          rw [if_pos hk] at htwo
          omega
        · obtain ⟨hle, hrest⟩ := ih rest.length (by simp) (s.next p) rest rfl
          rw [dropLineComments_cons hp hpair, tallyText_cons, tallyText_cons]
          exact ⟨by omega, fun heq => (hrest (by omega)).cons hp hpair⟩

/-- Taking out the trailing commas takes commas, and brings in nothing. -/
theorem tallyText_dropTrailingCommas {k : Char} (s : Cursor) (text : Text) :
    tallyText k s (dropTrailingCommas text) ≤ tallyText k s text ∧
      (k = ',' → tallyText k s (dropTrailingCommas text) = tallyText k s text →
        ¬HasTrailingComma text) := by
  induction text generalizing s with
  | nil => exact ⟨Nat.le_refl _, fun _ _ => not_hasTrailingComma_nil⟩
  | cons p rest ih =>
    by_cases hcomma : p = .char ',' ∧ closesNext rest = true
    · obtain ⟨rfl, hcloses⟩ := hcomma
      obtain ⟨hle, -⟩ := ih s
      rw [tallyText_eq_fresh k s (endsEscape_of_closesNext hcloses)] at hle
      rw [dropTrailingCommas_comma hcloses, tallyText_cons_endsEscape k s (by decide)]
      refine ⟨by omega, fun hk heq => ?_⟩
      rw [if_pos (congrArg CodePoint.char hk.symm)] at heq
      omega
    · obtain ⟨hle, hnone⟩ := ih (s.next p)
      rw [dropTrailingCommas_cons hcomma, tallyText_cons, tallyText_cons]
      refine ⟨by omega, fun hk heq => ?_⟩
      rw [hasTrailingComma_cons]
      exact not_or.mpr ⟨hcomma, hnone hk (by omega)⟩

end AntennaArray.Json
