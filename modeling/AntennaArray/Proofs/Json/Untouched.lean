import AntennaArray.Proofs.Json.TextTally

/-!
# Texts that the passes leave alone

A text without comments may still look as if it had some, between its quotes. It keeps its value if
it does not (`IsUntouched`). If it does, the value changes or is lost, unless the place is in an
entry whose key is repeated later (`readRelaxed_of_isUntouched_and_converses`).
-/

namespace AntennaArray.Json

open AntennaArray.Text (isBlank isLineEnd)

/-- The line ends that may stand between quotes. -/
def wideEnds : List Char := ['\x85', '\u2028', '\u2029']

/-- Nothing in the text, between quotes or not, looks like a comment or a trailing comma, and each
line end is one of ASCII. -/
structure IsUntouched (text : Text) : Prop where
  not_block : ¬HasBlock text
  not_slashes : ¬slashes <:+: text
  not_comma : ¬HasTrailingComma text
  not_wideEnd : ∀ c ∈ wideEnds, .char c ∉ text

/-! ## A text and its lexemes -/

/-- A text consists of its lexemes and white space. -/
theorem decorated_lexemes {text : Text} (hlast : ∀ t ∈ spelled text, t.isLast = false)
    (entry : Bool) : Decorated ⟨false, false, false⟩ entry (lexemes text) text := by
  induction h : text.length using Nat.strong_induction_on generalizing text entry with
  | _ n ih =>
    subst h
    cases text with
    | nil => exact .nil
    | cons p rest =>
      by_cases hp : isSpace p = true
      · rw [spelled_cons_space hp] at hlast
        rw [lexemes_cons_space hp]
        exact .space hp (ih rest.length (by simp) hlast entry rfl)
      · rw [Bool.not_eq_true] at hp
        have hhead := hlast _ (by rw [spelled_cons hp]; exact List.mem_cons_self)
        rw [spelled_cons hp, hhead] at hlast
        rw [lexemes_cons hp, hhead]
        simp only [Bool.false_eq_true, if_false] at hlast ⊢
        generalize hn : (tokenAt p rest).2 - 1 = n at hlast ⊢
        have hshorter : (rest.drop n).length < (p :: rest).length := by
          rw [List.length_drop, List.length_cons]
          omega
        have hrest := ih _ hshorter (fun t ht => hlast t (List.mem_cons_of_mem _ ht))
          (tokenAt p rest).1.endsEntry rfl
        have hwhole : p :: rest.take n ++ rest.drop n = p :: rest := by
          rw [List.cons_append, List.take_append_drop]
        conv => arg 4; rw [← hwhole]
        exact .lexeme hrest

/-- Every lexeme stands in the text as it is spelled. -/
theorem Decorated.spelling_infix {k : Decoration} {entry : Bool} {ls : List Lexeme} {d : Text}
    (h : Decorated k entry ls d) : ∀ l ∈ ls, l.spelling <:+: d := by
  induction h with
  | nil => simp
  | space hp h ih => exact fun l hl => List.infix_cons (ih l hl)
  | block hk hbody h ih =>
    intro l hl
    rw [← List.append_assoc, ← List.append_assoc]
    exact (ih l hl).trans (List.suffix_append _ _).isInfix
  | @line entry ls body d e hk hbody hstart he h ih =>
    intro l hl
    rw [← List.append_assoc]
    exact (List.infix_cons (ih l hl)).trans (List.suffix_append _ _).isInfix
  | lastLine => simp
  | comma hk hl h ih => exact fun l hl => List.infix_cons (ih l hl)
  | @lexeme entry l ls d h ih =>
    refine List.forall_mem_cons.mpr ⟨(List.prefix_append _ _).isInfix, fun l' hl' => ?_⟩
    exact (ih l' hl').trans (List.suffix_append _ _).isInfix

/-- From the space on, the only line ends are the wide ones. -/
theorem exists_wideEnd {p : CodePoint} (hend : isLineEnd p.value = true) (hp : 32 ≤ p.value) :
    ∃ c ∈ wideEnds, p = .char c := by
  simp only [isLineEnd, Bool.or_eq_true, Bool.and_eq_true, decide_eq_true_eq, beq_iff_eq] at hend
  rw [← CodePoint.ofValue_value p]
  rcases hend with (((h | h) | h) | h) | h
  · omega
  · omega
  · exact ⟨'\x85', by decide, by rw [h]; rfl⟩
  · exact ⟨'\u2028', by decide, by rw [h]; rfl⟩
  · exact ⟨'\u2029', by decide, by rw [h]; rfl⟩

/-- A lexeme without wide line ends has no line ends at all. -/
theorem Lexeme.IsSound.isLineEnd_eq_false {l : Lexeme} (hl : l.IsSound)
    (hwide : ∀ c ∈ wideEnds, .char c ∉ l.spelling) :
    ∀ p ∈ l.spelling, isLineEnd p.value = false := by
  have hsound := hl
  cases hl with
  | mark hmark =>
    have hmarks : ∀ mark ∈ marks, ∀ s, mark.2 ≠ .text s := by simp [marks]
    exact (hsound.isHarmless fun s hs => absurd hs (hmarks _ hmark s)).not_lineEnd
  | scalar => exact (hsound.isHarmless fun s hs => by cases hs).not_lineEnd
  | @text content ps hquoted =>
    intro p hp
    rw [Bool.eq_false_iff]
    intro hend
    have hvalue : 32 ≤ p.value := by
      simp only [List.mem_cons, List.mem_append, List.not_mem_nil, or_false] at hp
      rcases hp with rfl | hp | rfl
      · decide
      · exact hquoted.le_value p hp
      · decide
    obtain ⟨c, hc, rfl⟩ := exists_wideEnd hend hvalue
    exact hwide c hc hp

/-! ## What is kept -/

/-- A text that is left alone keeps its value. -/
theorem readRelaxed_of_isUntouched {text : Text} {v : Value} (hv : read text = .ok v)
    (h : IsUntouched text) : readRelaxed text = .ok v := by
  have hspells := read_eq_ok_iff.mp hv
  have hs := isSound_lexemes hspells.isLast_eq_false hspells.isChain
  have hd := decorated_lexemes hspells.isLast_eq_false false
  have hin := hd.spelling_infix
  have hchain : ((lexemes text).map Lexeme.token).IsChain Token.Precedes := by
    rw [map_token_lexemes]
    exact hspells.isChain
  have hends : ∀ l ∈ lexemes text, ∀ p ∈ l.spelling, isLineEnd p.value = false := by
    intro l hl
    refine (hs l hl).isLineEnd_eq_false fun c hc hmem => ?_
    exact h.not_wideEnd c hc ((hin l hl).subset hmem)
  have hlines := hd.dropLineComments_pass hs hends
    (fun l hl hslash => h.not_slashes (hslash.trans (hin l hl))) rfl
  have hplain := hlines.dropTrailingCommas_pass hs
    (fun l hl hcomma => h.not_comma (hcomma.of_infix (hin l hl))) hchain rfl rfl
  rw [readRelaxed, read_eq_ok_iff, plain, dropBlocks_of_not_hasBlock h.not_block,
    hplain.spelled_eq hs hchain, map_token_lexemes]
  exact hspells

/-! ## What is lost -/

/-- The tokens of a text with a value hold a character as often as the text spells it. -/
theorem tallyText_of_read {k : Char} (hk : k ∈ tallied) {text : Text} {v : Value}
    (hv : read text = .ok v) : tallyText k .fresh text = tallyTokens k (spelled text) := by
  have hspells := read_eq_ok_iff.mp hv
  have hs := isSound_lexemes hspells.isLast_eq_false hspells.isChain
  have hd := decorated_lexemes hspells.isLast_eq_false false
  rw [hd.tallyText_eq hk hs, map_token_lexemes]

/-- A text spells each character at least as often as its value holds it. -/
theorem tallyValue_le_tallyText {k : Char} (hk : k ∈ tallied) {text : Text} {v : Value}
    (hv : read text = .ok v) : tallyValue k v ≤ tallyText k .fresh text := by
  have hspells := read_eq_ok_iff.mp hv
  rw [tallyText_of_read hk hv]
  exact hspells.tally_le (fun _ => hspells.isScalar_of_mem) k

theorem of_mem_wideEnds {c : Char} (hc : c ∈ wideEnds) :
    c ∈ tallied ∧ isLineEnd (CodePoint.char c).value = true := by
  simp only [wideEnds, List.mem_cons, List.not_mem_nil, or_false] at hc
  rcases hc with rfl | rfl | rfl
  all_goals decide

/-- A text is left alone if no counted character is lost. -/
theorem isUntouched_of_tallyText_le {text : Text}
    (hge : ∀ k ∈ tallied, tallyText k .fresh text ≤ tallyText k .fresh (plain text)) :
    IsUntouched text := by
  have hcommas : ∀ k, tallyText k .fresh (plain text)
      ≤ tallyText k .fresh (dropLineComments (dropBlocks 0 text)) :=
    fun k => (tallyText_dropTrailingCommas .fresh _).1
  -- slashes first: without a loss of slashes there are no comments
  have hslash : '/' ∈ tallied := by decide
  obtain ⟨hlines, hlines'⟩ := tallyText_dropLineComments hslash .fresh (dropBlocks 0 text)
  obtain ⟨hblocks, hblocks'⟩ := tallyText_dropBlocks .fresh text
  have hall := hge '/' hslash
  have hall' := hcommas '/'
  have hblock : ¬HasBlock text := hblocks' (by omega)
  have hsame : dropBlocks 0 text = text := dropBlocks_of_not_hasBlock hblock
  have hslashes : ¬slashes <:+: text := by
    have hkept := hlines' (by omega)
    rw [hsame] at hkept
    exact hkept.2 rfl
  rw [hsame] at hcommas
  have hkept : ∀ k ∈ tallied, tallyText k .fresh (plain text)
        = tallyText k .fresh (dropLineComments text) ∧
      tallyText k .fresh (dropLineComments text) = tallyText k .fresh text := by
    intro k hk
    have hle := (tallyText_dropLineComments hk .fresh text).1
    have hge := hge k hk
    have hcommas := hcommas k
    exact ⟨by omega, by omega⟩
  refine ⟨hblock, hslashes, ?_, ?_⟩
  · intro hcomma
    have hplain : plain text = dropTrailingCommas (dropLineComments text) := by
      rw [plain, hsame]
    have hsamecommas := (hkept ',' (by decide)).1
    rw [hplain] at hsamecommas
    exact (tallyText_dropTrailingCommas .fresh _).2 rfl hsamecommas
      (hcomma.dropLineComments hslashes)
  · intro c hc hmem
    obtain ⟨hk, hend⟩ := of_mem_wideEnds hc
    exact ((tallyText_dropLineComments hk .fresh text).2 (hkept c hk).2).1 _ hmem hend rfl

/-- A text with a value keeps it if the passes leave the text alone. In turn they do so where it
keeps its tokens, and, if no key is repeated, where it keeps its value. -/
theorem readRelaxed_of_isUntouched_and_converses {text : Text} {v : Value}
    (hv : read text = .ok v) :
    (IsUntouched text → readRelaxed text = .ok v) ∧
      (spelled (plain text) = spelled text → IsUntouched text) ∧
      (spelled text = v.tokens → readRelaxed text = .ok v → IsUntouched text) := by
  refine ⟨readRelaxed_of_isUntouched hv, fun hsame => ?_, fun hkeys hkept => ?_⟩
  · have hplain : read (plain text) = .ok v := by
      rw [read_eq_ok_iff, hsame]
      exact read_eq_ok_iff.mp hv
    refine isUntouched_of_tallyText_le fun k hk => ?_
    rw [tallyText_of_read hk hv, tallyText_of_read hk hplain, hsame]
  · refine isUntouched_of_tallyText_le fun k hk => ?_
    rw [tallyText_of_read hk hv, hkeys]
    exact tallyValue_le_tallyText hk hkept

/-- A single slash between quotes is left alone. -/
theorem readRelaxed_slash :
    readRelaxed ("[\"a/b\"]" : Text) = .ok (.list [.text "a/b"]) := by
  refine (readRelaxed_of_isUntouched_and_converses rfl).1 ⟨?_, by decide, ?_, ?_⟩
  · rintro ⟨body, h⟩
    have hstar : CodePoint.char '*' ∈ ("[\"a/b\"]" : Text) := h.subset (by simp [blockStart])
    exact absurd hstar (by decide)
  · rintro ⟨blanks, bracket, -, -, h⟩
    have hcomma : CodePoint.char ',' ∈ ("[\"a/b\"]" : Text) := h.subset (by simp)
    exact absurd hcomma (by decide)
  · intro c hc
    simp only [wideEnds, List.mem_cons, List.not_mem_nil, or_false] at hc
    rcases hc with rfl | rfl | rfl
    all_goals decide

/-- An address between quotes is cut off at its slashes, and what stands between the quotes of two
texts may be taken out without a word. -/
theorem readRelaxed_ne_read :
    (read ("[\"http://host\"]" : Text) = .ok (.list [.text "http://host"]) ∧
      readRelaxed ("[\"http://host\"]" : Text) ≠ .ok (.list [.text "http://host"])) ∧
    (read ("[\"/*\",\"*/\"]" : Text) = .ok (.list [.text "/*", .text "*/"]) ∧
      readRelaxed ("[\"/*\",\"*/\"]" : Text) = .ok (.list [.text ""])) := by
  refine ⟨⟨rfl, fun h => ?_⟩, rfl, rfl⟩
  have hcut : readRelaxed ("[\"http://host\"]" : Text) = .error ⟨.unterminated, 1, 2, 1⟩ := rfl
  rw [hcut] at h
  cases h

end AntennaArray.Json
