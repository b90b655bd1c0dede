import AntennaArray.Proofs.Json.Lexeme
import AntennaArray.Proofs.Json.Passes

/-!
# Decorated texts

A text is decorated by comments, white space and trailing commas between its lexemes. Each pass over
a decorated text takes out one kind of decoration and leaves the lexemes and the others in place,
unless a text between quotes looks like a decoration itself. What the passes leave spells the tokens
of the lexemes (`readRelaxed_decorated`).
-/

namespace AntennaArray.Json

open AntennaArray.Text (isBlank isLineEnd isBlank_of_isLineEnd)

/-- Whether an entry of a list or an object can end with a token. -/
def Token.endsEntry : Token → Bool
  | .text _ | .scalar _ | .closeList | .closeObject => true
  | _ => false

/-- Which decorations a text may have, beside white space. -/
structure Decoration where
  blocks : Bool
  lines : Bool
  commas : Bool

/-- The text consists of the lexemes, with decorations of some kinds before, between and after them.
The mark says whether an entry has just ended, so that a trailing comma may follow. -/
inductive Decorated (k : Decoration) : Bool → List Lexeme → Text → Prop where
  | nil {entry : Bool} : Decorated k entry [] []
  | space {entry : Bool} {ls : List Lexeme} {p : CodePoint} {d : Text} (hp : isSpace p = true)
      (h : Decorated k entry ls d) : Decorated k entry ls (p :: d)
  | block {entry : Bool} {ls : List Lexeme} {body d : Text} (hk : k.blocks = true)
      (hbody : ¬blockEnd <:+: body) (h : Decorated k entry ls d) :
      Decorated k entry ls (blockStart ++ (body ++ (blockEnd ++ d)))
  | line {entry : Bool} {ls : List Lexeme} {body d : Text} {e : CodePoint} (hk : k.lines = true)
      (hbody : ∀ p ∈ body, isLineEnd p.value = false) (hstart : ¬blockStart <:+: slashes ++ body)
      (he : isLineEnd e.value = true) (h : Decorated k entry ls d) :
      Decorated k entry ls (slashes ++ (body ++ e :: d))
  /-- The end of the text ends a line comment too. -/
  | lastLine {entry : Bool} {body : Text} (hk : k.lines = true)
      (hbody : ∀ p ∈ body, isLineEnd p.value = false)
      (hstart : ¬blockStart <:+: slashes ++ body) : Decorated k entry [] (slashes ++ body)
  | comma {l : Lexeme} {ls : List Lexeme} {d : Text} (hk : k.commas = true)
      (hl : l.token.isClosing = true) (h : Decorated k false (l :: ls) d) :
      Decorated k true (l :: ls) (.char ',' :: d)
  | lexeme {entry : Bool} {l : Lexeme} {ls : List Lexeme} {d : Text}
      (h : Decorated k l.token.endsEntry ls d) : Decorated k entry (l :: ls) (l.spelling ++ d)

/-- Nothing in the text looks like a comment, a line end or a trailing comma. -/
structure IsHarmless (text : Text) : Prop where
  not_block : ¬blockStart <:+: text
  not_slashes : ¬slashes <:+: text
  not_lineEnd : ∀ p ∈ text, isLineEnd p.value = false
  not_comma : ¬HasTrailingComma text

/-! ## Lexemes under the passes -/

/-- A character of a scalar is no blank. -/
theorem isBlank_of_isScalarChar {c : Char} (hc : isScalarChar c = true) :
    isBlank (CodePoint.char c).value = false :=
  forall_of_isScalarChar (P := fun c => isBlank c.toNat = false) (by decide +kernel) hc

/-- A text without slashes, commas and line ends is harmless. -/
theorem isHarmless_of_forall {text : Text} (h : ∀ p ∈ text, p ≠ .char '/' ∧ p ≠ .char ',' ∧
    isLineEnd p.value = false) : IsHarmless text where
  not_block hin := (h _ (hin.subset (by simp [blockStart]))).1 rfl
  not_slashes hin := (h _ (hin.subset (by simp [slashes]))).1 rfl
  not_lineEnd p hp := (h p hp).2.2
  not_comma := by
    rintro ⟨blanks, bracket, -, -, hin⟩
    exact (h _ (hin.subset (by simp))).2.1 rfl

namespace Lexeme.IsSound

variable {l : Lexeme}

/-- A lexeme is harmless unless it is a text between quotes. -/
theorem isHarmless (hl : l.IsSound) (htext : ∀ s, l.token = .text s → IsHarmless l.spelling) :
    IsHarmless l.spelling := by
  cases hl with
  | @mark c t hmark =>
    simp only [marks, List.mem_cons, Prod.mk.injEq, List.not_mem_nil, or_false] at hmark
    rcases hmark with ⟨rfl, rfl⟩ | ⟨rfl, rfl⟩ | ⟨rfl, rfl⟩ | ⟨rfl, rfl⟩ | ⟨rfl, rfl⟩ | ⟨rfl, rfl⟩
    case inr.inr.inr.inr.inl =>
      -- the comma that separates entries
      refine ⟨fun h => ?_, fun h => ?_, by simp; rfl, ?_⟩
      · simpa [blockStart] using h.length_le
      · simpa [slashes] using h.length_le
      · rw [hasTrailingComma_cons]
        intro hcases
        rcases hcases with ⟨-, h⟩ | h
        · cases h
        · exact not_hasTrailingComma_nil h
    all_goals exact isHarmless_of_forall (by simp; rfl)
  | text => exact htext _ rfl
  | @scalar cs v hcs hscalar =>
    refine isHarmless_of_forall fun p hp => ?_
    obtain ⟨c, hc, rfl⟩ := List.mem_map.mp hp
    have hscalarChar := hcs c hc
    refine ⟨?_, ?_, ?_⟩
    · rintro ⟨rfl⟩
      exact absurd hscalarChar (by decide)
    · rintro ⟨rfl⟩
      exact absurd hscalarChar (by decide)
    · rw [Bool.eq_false_iff]
      intro hend
      have hblank := isBlank_of_isLineEnd hend
      rw [isBlank_of_isScalarChar hscalarChar] at hblank
      cases hblank

/-- No lexeme ends in a blank or a slash, and only the comma ends in a comma. -/
theorem getLast?_spelling (hl : l.IsSound) : ∀ q ∈ l.spelling.getLast?,
    isBlank q.value = false ∧ q ≠ .char '/' ∧ (q = .char ',' → l = ⟨[.char ','], .comma⟩) := by
  cases hl with
  | @mark c t hmark =>
    simp only [marks, List.mem_cons, Prod.mk.injEq, List.not_mem_nil, or_false] at hmark
    rcases hmark with ⟨rfl, rfl⟩ | ⟨rfl, rfl⟩ | ⟨rfl, rfl⟩ | ⟨rfl, rfl⟩ | ⟨rfl, rfl⟩ | ⟨rfl, rfl⟩
    all_goals
      simp
      rfl
  | @text content ps hquoted =>
    intro q hq
    rw [← List.cons_append, List.getLast?_concat] at hq
    cases hq
    exact ⟨rfl, by simp, by simp⟩
  | @scalar cs v hcs hscalar =>
    intro q hq
    obtain ⟨c, hc, rfl⟩ := List.mem_map.mp (List.mem_of_getLast? hq)
    have hscalarChar := hcs c hc
    refine ⟨isBlank_of_isScalarChar hscalarChar, ?_, ?_⟩
    · rintro ⟨rfl⟩
      exact absurd hscalarChar (by decide)
    · rintro ⟨rfl⟩
      exact absurd hscalarChar (by decide)

/-- A bracket is closed next by the lexeme of a closing bracket alone. -/
theorem closesNext_append (hl : l.IsSound) (d : Text) :
    closesNext (l.spelling ++ d) = l.token.isClosing := by
  cases hl with
  | @mark c t hmark =>
    simp only [marks, List.mem_cons, Prod.mk.injEq, List.not_mem_nil, or_false] at hmark
    rcases hmark with ⟨rfl, rfl⟩ | ⟨rfl, rfl⟩ | ⟨rfl, rfl⟩ | ⟨rfl, rfl⟩ | ⟨rfl, rfl⟩ | ⟨rfl, rfl⟩
    all_goals rfl
  | text => rfl
  | @scalar cs v hcs hscalar =>
    obtain ⟨hpos, -⟩ := length_scalarToken hscalar
    obtain ⟨c, cs', rfl⟩ := List.exists_cons_of_length_pos hpos
    have hc := hcs c (by simp)
    show closesNext (.char c :: (Text.ofChars cs' ++ d)) = false
    rw [closesNext_cons (isBlank_of_isScalarChar hc), decide_eq_false_iff_not]
    intro hcases
    rcases hcases with h | h
    · cases h
      exact absurd hc (by decide)
    · cases h
      exact absurd hc (by decide)

end Lexeme.IsSound

/-! ## One pass after the other -/

namespace Decorated

variable {k : Decoration} {entry : Bool} {ls : List Lexeme} {d : Text}

/-- The first pass takes out the block comments. -/
theorem dropBlocks_pass (hs : ∀ l ∈ ls, l.IsSound)
    (hblocks : ∀ l ∈ ls, ¬blockStart <:+: l.spelling) (h : Decorated k entry ls d) :
    Decorated { k with blocks := false } entry ls (dropBlocks 0 d) := by
  induction h with
  | nil => exact .nil
  | @space entry ls p d hp h ih =>
    rw [dropBlocks_cons]
    · exact .space hp (ih hs hblocks)
    · rintro ⟨rfl, -⟩
      cases hp
  | block hk hbody h ih =>
    rw [dropBlocks_block hbody]
    exact ih hs hblocks
  | @line entry ls body d e hk hbody hstart he h ih =>
    have hnext : (slashes ++ body).getLast? = some (.char '/') →
        (e :: d).head? ≠ some (.char '*') := by
      rintro - hhead
      cases hhead
      cases he
    rw [← List.append_assoc, dropBlocks_append hstart hnext, List.append_assoc, dropBlocks_cons]
    · exact .line hk hbody hstart he (ih hs hblocks)
    · rintro ⟨rfl, -⟩
      cases he
  | @lastLine entry body hk hbody hstart =>
    rw [← List.append_nil (slashes ++ body), dropBlocks_append hstart (fun _ h => by cases h)]
    simp only [dropBlocks, List.append_nil]
    exact .lastLine hk hbody hstart
  | comma hk hl h ih =>
    rw [dropBlocks_cons fun h => by cases h.1]
    exact .comma hk hl (ih hs hblocks)
  | @lexeme entry l ls d h ih =>
    obtain ⟨hl, hs⟩ := List.forall_mem_cons.mp hs
    obtain ⟨hblock, hblocks⟩ := List.forall_mem_cons.mp hblocks
    rw [dropBlocks_append hblock]
    · exact .lexeme (ih hs hblocks)
    · exact fun hlast => absurd rfl (hl.getLast?_spelling _ hlast).2.1

/-- The second pass takes out the line comments; line ends become line feeds or nothing. -/
theorem dropLineComments_pass (hs : ∀ l ∈ ls, l.IsSound)
    (hends : ∀ l ∈ ls, ∀ p ∈ l.spelling, isLineEnd p.value = false)
    (hslashes : ∀ l ∈ ls, ¬slashes <:+: l.spelling) (hk : k.blocks = false)
    (h : Decorated k entry ls d) :
    Decorated { k with lines := false } entry ls (dropLineComments d) := by
  -- where a line ends nothing comes in but a line feed
  have hbreak : ∀ {entry : Bool} {ls : List Lexeme} {e : CodePoint} {d : Text},
      isLineEnd e.value = true →
      Decorated { k with lines := false } entry ls (dropLineComments d) →
      Decorated { k with lines := false } entry ls (dropLineComments (e :: d)) := by
    intro entry ls e d he h
    rcases dropLineComments_lineEnd he d with hd | ⟨-, hd⟩
    · rw [hd]
      exact .space rfl h
    · rw [hd]
      exact h
  induction h with
  | nil => exact .nil
  | @space entry ls p d hp h ih =>
    by_cases he : isLineEnd p.value = true
    · exact hbreak he (ih hs hends hslashes)
    · rw [Bool.not_eq_true] at he
      rw [dropLineComments_cons he]
      · exact .space hp (ih hs hends hslashes)
      · rintro ⟨rfl, -⟩
        cases hp
  | block hblocks => rw [hk] at hblocks; cases hblocks
  | @line entry ls body d e hlines hbody hstart he h ih =>
    rw [dropLineComments_comment hbody fun p hp => by cases hp; exact he]
    exact hbreak he (ih hs hends hslashes)
  | @lastLine entry body hlines hbody hstart =>
    rw [← List.append_nil body, dropLineComments_comment hbody fun p hp => by cases hp]
    exact .nil
  | comma hcommas hl h ih =>
    rw [dropLineComments_cons rfl fun h => by cases h.1]
    exact .comma hcommas hl (ih hs hends hslashes)
  | @lexeme entry l ls d h ih =>
    obtain ⟨hl, hs⟩ := List.forall_mem_cons.mp hs
    obtain ⟨hend, hends⟩ := List.forall_mem_cons.mp hends
    obtain ⟨hslash, hslashes⟩ := List.forall_mem_cons.mp hslashes
    rw [dropLineComments_append hend hslash]
    · exact .lexeme (ih hs hends hslashes)
    · exact fun hlast => absurd rfl (hl.getLast?_spelling _ hlast).2.1

theorem isBlank_of_isSpace {p : CodePoint} (hp : isSpace p = true) : isBlank p.value = true := by
  simp only [isSpace, Bool.or_eq_true, decide_eq_true_eq] at hp
  rcases hp with ((rfl | rfl) | rfl) | rfl <;> rfl

/-- Where no trailing comma can stand, a bracket is closed next by the next lexeme. -/
theorem closesNext_eq (hs : ∀ l ∈ ls, l.IsSound) (hblocks : k.blocks = false)
    (hlines : k.lines = false) (h : Decorated k false ls d) :
    closesNext d = ls.head?.any fun l => l.token.isClosing := by
  generalize hentry : false = entry at h
  induction h with
  | nil => rfl
  | space hp h ih => rw [closesNext_cons_of_isBlank (isBlank_of_isSpace hp), ih hs hentry]
  | block hk => rw [hblocks] at hk; cases hk
  | line hk => rw [hlines] at hk; cases hk
  | lastLine hk => rw [hlines] at hk; cases hk
  | comma => cases hentry
  | @lexeme entry l ls d h ih => exact (hs l List.mem_cons_self).closesNext_append d

/-- What may stand where no entry has ended may stand where one has. -/
theorem after_entry (h : Decorated k false ls d) : Decorated k true ls d := by
  generalize hentry : false = entry at h
  induction h with
  | nil => exact .nil
  | space hp h ih => exact .space hp (ih hentry)
  | block hk hbody h ih => exact .block hk hbody (ih hentry)
  | line hk hbody hstart he h ih => exact .line hk hbody hstart he (ih hentry)
  | lastLine hk hbody hstart => exact .lastLine hk hbody hstart
  | comma => cases hentry
  | lexeme h => exact .lexeme h

/-- The third pass takes out the trailing commas, and no comma that separates entries. -/
theorem dropTrailingCommas_pass (hs : ∀ l ∈ ls, l.IsSound)
    (hcommas : ∀ l ∈ ls, ¬HasTrailingComma l.spelling)
    (hchain : (ls.map Lexeme.token).IsChain Token.Precedes) (hblocks : k.blocks = false)
    (hlines : k.lines = false) (h : Decorated k entry ls d) :
    Decorated { k with commas := false } entry ls (dropTrailingCommas d) := by
  induction h with
  | nil => exact .nil
  | @space entry ls p d hp h ih =>
    rw [dropTrailingCommas_cons]
    · exact .space hp (ih hs hcommas hchain)
    · rintro ⟨rfl, -⟩
      cases hp
  | block hk => rw [hblocks] at hk; cases hk
  | line hk => rw [hlines] at hk; cases hk
  | lastLine hk => rw [hlines] at hk; cases hk
  | @comma l ls d hk hl h ih =>
    have hcloses : closesNext d = true := by
      rw [h.closesNext_eq hs hblocks hlines]
      exact hl
    rw [dropTrailingCommas_comma hcloses]
    exact (ih hs hcommas hchain).after_entry
  | @lexeme entry l ls d h ih =>
    obtain ⟨hl, hsound⟩ := List.forall_mem_cons.mp hs
    obtain ⟨hinner, hothers⟩ := List.forall_mem_cons.mp hcommas
    rw [List.map_cons] at hchain
    have hrest := ih hsound hothers hchain.of_cons
    by_cases hcomma : l = ⟨[.char ','], .comma⟩
    · subst hcomma
      have hcloses : closesNext d = false := by
        rw [closesNext_eq hsound hblocks hlines h]
        cases ls with
        | nil => rfl
        | cons l' ls => exact (List.isChain_cons_cons.mp hchain).1
      have hkeep : dropTrailingCommas (.char ',' :: d) = .char ',' :: dropTrailingCommas d := by
        refine dropTrailingCommas_cons fun hclosed => ?_
        rw [hcloses] at hclosed
        cases hclosed.2
      show Decorated _ entry _ (dropTrailingCommas (.char ',' :: d))
      rw [hkeep]
      exact .lexeme hrest
    · rw [dropTrailingCommas_append hinner]
      · exact .lexeme hrest
      · intro q hq
        obtain ⟨hblank, -, hlast⟩ := hl.getLast?_spelling q hq
        exact ⟨hblank, fun h => hcomma (hlast h)⟩

/-- Where a mark or nothing comes next, no scalar goes on. -/
theorem scalarChars_eq_nil (hs : ∀ l ∈ ls, l.IsSound)
    (hmark : ∀ l ∈ ls.head?, l.token.isMark = true)
    (h : Decorated ⟨false, false, false⟩ entry ls d) : scalarChars d = [] := by
  cases h with
  | nil => rfl
  | @space _ _ p _ hp h =>
    simp only [isSpace, Bool.or_eq_true, decide_eq_true_eq] at hp
    rcases hp with ((rfl | rfl) | rfl) | rfl <;> rfl
  | block hk => cases hk
  | line hk => cases hk
  | lastLine hk => cases hk
  | comma hk => cases hk
  | @lexeme _ l ls d h =>
    have hl := hmark l rfl
    cases hs l List.mem_cons_self with
    | @mark c t hc =>
      simp only [marks, List.mem_cons, Prod.mk.injEq, List.not_mem_nil, or_false] at hc
      rcases hc with ⟨rfl, -⟩ | ⟨rfl, -⟩ | ⟨rfl, -⟩ | ⟨rfl, -⟩ | ⟨rfl, -⟩ | ⟨rfl, -⟩ <;> rfl
    | text => cases hl
    | scalar => cases hl

/-- With nothing but white space around them, lexemes spell their tokens. -/
theorem spelled_eq (hs : ∀ l ∈ ls, l.IsSound)
    (hchain : (ls.map Lexeme.token).IsChain Token.Precedes)
    (h : Decorated ⟨false, false, false⟩ entry ls d) : spelled d = ls.map Lexeme.token := by
  induction h with
  | nil => rfl
  | space hp h ih => rw [spelled_cons_space hp, ih hs hchain]
  | block hk => cases hk
  | line hk => cases hk
  | lastLine hk => cases hk
  | comma hk => cases hk
  | @lexeme entry l ls d h ih =>
    obtain ⟨hl, hs⟩ := List.forall_mem_cons.mp hs
    rw [List.map_cons] at hchain ⊢
    rw [hl.spelled_append, ih hs hchain.of_cons]
    intro v hv
    refine h.scalarChars_eq_nil hs fun l' hl' => ?_
    obtain ⟨ls', rfl⟩ := List.head?_eq_some_iff.mp hl'
    rw [hv] at hchain
    exact (List.isChain_cons_cons.mp hchain).1

end Decorated

/-- A text with a value keeps it when comments, white space and trailing commas are put between its
tokens, if none of its texts between quotes looks like one of these. -/
theorem readRelaxed_decorated {text d : Text} {v : Value} (hv : read text = .ok v)
    (htexts : ∀ l ∈ lexemes text, ∀ s, l.token = .text s → IsHarmless l.spelling)
    (hd : Decorated ⟨true, true, true⟩ false (lexemes text) d) : readRelaxed d = .ok v := by
  have hspells := read_eq_ok_iff.mp hv
  have hs := isSound_lexemes hspells.isLast_eq_false hspells.isChain
  have hh : ∀ l ∈ lexemes text, IsHarmless l.spelling :=
    fun l hl => (hs l hl).isHarmless (htexts l hl)
  have hchain : ((lexemes text).map Lexeme.token).IsChain Token.Precedes := by
    rw [map_token_lexemes]
    exact hspells.isChain
  have hblocks := hd.dropBlocks_pass hs fun l hl => (hh l hl).not_block
  have hlines := hblocks.dropLineComments_pass hs (fun l hl => (hh l hl).not_lineEnd)
    (fun l hl => (hh l hl).not_slashes) rfl
  have hplain := hlines.dropTrailingCommas_pass hs (fun l hl => (hh l hl).not_comma) hchain rfl rfl
  rw [readRelaxed, read_eq_ok_iff, plain, hplain.spelled_eq hs hchain, map_token_lexemes]
  exact hspells

/-- A list with a comment of each kind and a trailing comma. -/
theorem readRelaxed_decorated_list : readRelaxed ("[\"a\"/*//*/,1,// end\n]" : Text) =
    .ok (.list [.text "a", .number (.integer 1)]) := by
  let k : Decoration := ⟨true, true, true⟩
  let one : Lexeme := ⟨"1", .scalar (.number (.integer 1))⟩
  let close : Lexeme := ⟨"]", .closeList⟩
  have hline : Decorated k false [close] ("// end\n]" : Text) :=
    @Decorated.line k false [close] " end" "]" (.char '\n') rfl (by decide) (by decide) rfl
      (.lexeme .nil)
  have hone : Decorated k false [one, close] ("1,// end\n]" : Text) :=
    .lexeme (.comma rfl rfl hline)
  have hblock : Decorated k true [⟨",", .comma⟩, one, close] ("/*//*/,1,// end\n]" : Text) :=
    @Decorated.block k true _ "//" ",1,// end\n]" rfl (by decide) (.lexeme hone)
  refine @readRelaxed_decorated "[\"a\",1]" _ _ rfl ?_ (.lexeme (.lexeme hblock))
  intro l hl s hs
  have hmem : l ∈ [⟨"[", .openList⟩, ⟨"\"a\"", .text "a"⟩, ⟨",", .comma⟩, one, close] := hl
  simp only [List.mem_cons, List.not_mem_nil, or_false] at hmem
  rcases hmem with rfl | rfl | rfl | rfl | rfl
  case inr.inl => exact isHarmless_of_forall (by decide)
  all_goals cases hs

end AntennaArray.Json
