import AntennaArray.Json.Relaxed
import Mathlib.Data.List.Infix

/-!
# The three passes over a text with comments

What each pass does with a comment, a line end or a comma, and what it leaves alone. None of the
passes looks for quotes, so these are facts about texts, and not about tokens.
-/

namespace AntennaArray.Json

open AntennaArray.Text (isBlank isLineEnd lines firstLine isBlank_of_isLineEnd
  lines_cons_of_isLineEnd lines_cons lines_cons_ne_nil)

def blockStart : Text := [.char '/', .char '*']

def blockEnd : Text := [.char '*', .char '/']

def slashes : Text := [.char '/', .char '/']

/-- Two code points that do not stand next to each other in a text do not in the rest of it. -/
theorem not_infix_of_cons {p : CodePoint} {pattern text : Text} (h : ¬pattern <:+: p :: text) :
    ¬pattern <:+: text :=
  fun hin => h (List.infix_cons hin)

/-- The two code points do not stand at the front of a text either, if the rest of it does not bring
in the second one. -/
theorem not_pair_of_not_infix {a b p : CodePoint} {text : Text} (h : ¬[a, b] <:+: p :: text)
    {rest : Text} (hrest : text = [] → p = a → rest.head? ≠ some b) :
    ¬(p = a ∧ (text ++ rest).head? = some b) := by
  rintro ⟨rfl, hb⟩
  cases text with
  | nil => exact hrest rfl rfl hb
  | cons q text =>
    cases hb
    exact h ⟨[], text, rfl⟩

/-- The two code points do not stand at the front of such a text. -/
theorem not_pair_of_not_infix_cons {a b p : CodePoint} {text : Text}
    (h : ¬[a, b] <:+: p :: text) : ¬(p = a ∧ text.head? = some b) := by
  rintro ⟨rfl, hb⟩
  obtain ⟨rest, rfl⟩ := List.head?_eq_some_iff.mp hb
  exact h ⟨[], rest, rfl⟩

/-! ## Block comments -/

theorem closing?_cons (p : CodePoint) (rest : Text) :
    closing? (p :: rest) =
      if p = .char '*' ∧ rest.head? = some (.char '/') then some 2
      else (closing? rest).map (· + 1) := by
  rw [closing?.eq_def]
  split
  · next h => cases h
  · next tail h =>
    obtain ⟨rfl, rfl⟩ := List.cons.inj h
    rfl
  · next hne h =>
    obtain ⟨rfl, rfl⟩ := List.cons.inj h
    rw [if_neg]
    rintro ⟨rfl, hslash⟩
    obtain ⟨tail, rfl⟩ := List.head?_eq_some_iff.mp hslash
    exact hne tail rfl rfl

/-- The first end of a comment comes after a body that holds none. -/
theorem closing?_append {body : Text} (hbody : ¬blockEnd <:+: body) (rest : Text) :
    closing? (body ++ (blockEnd ++ rest)) = some (body.length + 2) := by
  induction body with
  | nil => rfl
  | cons p body ih =>
    have hpair : ¬(p = .char '*' ∧
        (body ++ (blockEnd ++ rest)).head? = some (CodePoint.char '/')) :=
      not_pair_of_not_infix hbody fun _ _ h => by cases h
    rw [List.cons_append, closing?_cons, if_neg hpair, ih (not_infix_of_cons hbody)]
    rfl

/-- Where an end of a comment is found, there is one. -/
theorem exists_of_closing? {text : Text} {n : Nat} (h : closing? text = some n) :
    ∃ body rest, text = body ++ (blockEnd ++ rest) ∧ n = body.length + 2 := by
  induction text generalizing n with
  | nil => cases h
  | cons p text ih =>
    rw [closing?_cons] at h
    split at h
    · next hpair =>
      obtain ⟨rfl, hslash⟩ := hpair
      obtain ⟨rest, rfl⟩ := List.head?_eq_some_iff.mp hslash
      cases h
      exact ⟨[], rest, rfl, rfl⟩
    · obtain ⟨m, hm, rfl⟩ := Option.map_eq_some_iff.mp h
      obtain ⟨body, rest, rfl, rfl⟩ := ih hm
      exact ⟨p :: body, rest, rfl, rfl⟩

/-- An end of a comment is found, unless an earlier one is. -/
theorem closing?_ne_none (body rest : Text) : closing? (body ++ (blockEnd ++ rest)) ≠ none := by
  induction body with
  | nil => simp [closing?, blockEnd]
  | cons p body ih =>
    rw [List.cons_append, closing?_cons]
    split
    · simp
    · rwa [ne_eq, Option.map_eq_none_iff]

theorem dropBlocks_eq (skip : Nat) (text : Text) :
    dropBlocks skip text = dropBlocks 0 (text.drop skip) := by
  induction text generalizing skip with
  | nil => simp [dropBlocks]
  | cons p rest ih =>
    cases skip with
    | zero => rfl
    | succ n => exact ih n

/-- A block comment is taken out. -/
theorem dropBlocks_block {body : Text} (hbody : ¬blockEnd <:+: body) (rest : Text) :
    dropBlocks 0 (blockStart ++ (body ++ (blockEnd ++ rest))) = dropBlocks 0 rest := by
  have hclosing := closing?_append hbody rest
  show dropBlocks 0 (.char '/' :: .char '*' :: (body ++ (blockEnd ++ rest))) = _
  rw [dropBlocks]
  simp only [List.head?_cons, List.tail_cons, and_self, if_true, hclosing]
  rw [dropBlocks_eq]
  congr 1
  rw [List.drop_succ_cons, ← List.append_assoc]
  exact List.drop_left' (by simp [blockEnd])

/-- Without a start of a block comment a code point is kept. -/
theorem dropBlocks_cons {p : CodePoint} {rest : Text}
    (h : ¬(p = .char '/' ∧ rest.head? = some (.char '*'))) :
    dropBlocks 0 (p :: rest) = p :: dropBlocks 0 rest := by
  rw [dropBlocks, if_neg h]

/-- A start of a block comment that is never ended is kept. -/
theorem dropBlocks_cons_of_closing? {p : CodePoint} {rest : Text}
    (h : closing? rest.tail = none) : dropBlocks 0 (p :: rest) = p :: dropBlocks 0 rest := by
  rw [dropBlocks, h]
  exact ite_self _

/-- A part of a text in which no block comment starts is kept. -/
theorem dropBlocks_append {part : Text} (hpart : ¬blockStart <:+: part) {rest : Text}
    (hlast : part.getLast? = some (.char '/') → rest.head? ≠ some (.char '*')) :
    dropBlocks 0 (part ++ rest) = part ++ dropBlocks 0 rest := by
  induction part with
  | nil => rfl
  | cons p part ih =>
    have hpair : ¬(p = .char '/' ∧ (part ++ rest).head? = some (.char '*')) :=
      not_pair_of_not_infix hpart fun hpart hp => hlast (by rw [hpart, hp]; rfl)
    have hlast' : part.getLast? = some (.char '/') → rest.head? ≠ some (.char '*') := by
      intro h
      cases part with
      | nil => cases h
      | cons q part => exact hlast (by rw [List.getLast?_cons_cons]; exact h)
    rw [List.cons_append, dropBlocks_cons hpair, ih (not_infix_of_cons hpart) hlast']
    rfl

/-- A block comment stands in the text, from its start to its end. -/
def HasBlock (text : Text) : Prop := ∃ body : Text, blockStart ++ (body ++ blockEnd) <:+: text

@[simp] theorem not_hasBlock_nil : ¬HasBlock [] := by
  rintro ⟨body, h⟩
  cases List.infix_nil.mp h

theorem hasBlock_cons {p : CodePoint} {rest : Text} :
    HasBlock (p :: rest) ↔
      ((p = .char '/' ∧ rest.head? = some (.char '*')) ∧ (closing? rest.tail).isSome = true) ∨
        HasBlock rest := by
  constructor
  · rintro ⟨body, h⟩
    rcases List.infix_cons_iff.mp h with ⟨tail, htail⟩ | h
    · obtain ⟨rfl, rfl⟩ := List.cons.inj htail
      left
      refine ⟨⟨rfl, rfl⟩, ?_⟩
      -- an end that stands somewhere after the start is found, if not this one
      by_contra hnone
      have hclosing : closing? (body ++ (blockEnd ++ tail)) = none := by
        simpa using hnone
      exact closing?_ne_none body tail hclosing
    · exact .inr ⟨body, h⟩
  · intro hcases
    rcases hcases with ⟨⟨rfl, hstar⟩, hclosing⟩ | ⟨body, h⟩
    · obtain ⟨tail, rfl⟩ := List.head?_eq_some_iff.mp hstar
      obtain ⟨n, hn⟩ := Option.isSome_iff_exists.mp hclosing
      obtain ⟨body, after, hbody, -⟩ := exists_of_closing? hn
      rw [List.tail_cons] at hbody
      subst hbody
      exact ⟨body, [], after, by simp [blockStart]⟩
    · exact ⟨body, List.infix_cons h⟩

/-- A comment that is closed is taken out up to its first end. -/
theorem exists_block {p : CodePoint} {rest : Text}
    (hpair : p = .char '/' ∧ rest.head? = some (.char '*'))
    (hclosing : (closing? rest.tail).isSome = true) :
    ∃ body after, p :: rest = blockStart ++ (body ++ (blockEnd ++ after)) ∧
      dropBlocks 0 (p :: rest) = dropBlocks 0 after := by
  obtain ⟨rfl, hstar⟩ := hpair
  obtain ⟨tail, rfl⟩ := List.head?_eq_some_iff.mp hstar
  rw [List.tail_cons] at hclosing
  obtain ⟨n, hn⟩ := Option.isSome_iff_exists.mp hclosing
  obtain ⟨body, after, rfl, rfl⟩ := exists_of_closing? hn
  refine ⟨body, after, rfl, ?_⟩
  have hdrop : (body ++ (blockEnd ++ after)).drop (body.length + 2) = after := by
    rw [← List.append_assoc]
    exact List.drop_left' (by simp [blockEnd])
  rw [dropBlocks, if_pos ⟨rfl, rfl⟩, List.tail_cons, hn]
  show dropBlocks (body.length + 3) _ = _
  rw [dropBlocks_eq, List.drop_succ_cons, hdrop]

/-- A text without block comments stays as it is. -/
theorem dropBlocks_of_not_hasBlock {text : Text} (h : ¬HasBlock text) :
    dropBlocks 0 text = text := by
  induction text with
  | nil => rfl
  | cons p rest ih =>
    obtain ⟨hhead, hrest⟩ := not_or.mp (mt hasBlock_cons.mpr h)
    by_cases hpair : p = .char '/' ∧ rest.head? = some (.char '*')
    · have hnone : closing? rest.tail = none := by
        by_contra hsome
        exact hhead ⟨hpair, Option.isSome_iff_ne_none.mpr hsome⟩
      rw [dropBlocks_cons_of_closing? hnone, ih hrest]
    · rw [dropBlocks_cons hpair, ih hrest]

/-! ## Line comments -/

theorem headD_lines (text : Text) : (lines text).headD [] = firstLine text := by
  induction text with
  | nil => rfl
  | cons p rest ih =>
    by_cases hp : isLineEnd p.value = true
    · have hfirst : firstLine (p :: rest) = [] := by simp [firstLine, hp]
      rw [hfirst]
      rcases lines_cons_of_isLineEnd hp rest with h | ⟨hfeed, h⟩
      · rw [h]
        rfl
      · obtain ⟨tail, rfl⟩ := List.head?_eq_some_iff.mp hfeed
        rw [h, ih]
        rfl
    · rw [Bool.not_eq_true] at hp
      have hfirst : firstLine (p :: rest) = p :: firstLine rest := by simp [firstLine, hp]
      rw [lines_cons hp, hfirst, ← ih]
      rfl

theorem beforeSlashes_cons {p : CodePoint} {line : Text}
    (h : ¬(p = .char '/' ∧ line.head? = some (.char '/'))) :
    beforeSlashes (p :: line) = p :: beforeSlashes line := by
  rw [beforeSlashes.eq_def]
  split
  · next h' => cases h'
  · next tail h' =>
    obtain ⟨rfl, rfl⟩ := List.cons.inj h'
    exact absurd ⟨rfl, rfl⟩ h
  · next h' =>
    obtain ⟨rfl, rfl⟩ := List.cons.inj h'
    rfl

/-- The lines after the first one, without their comments. -/
def laterLines (text : Text) : Text :=
  (lines text).tail.flatMap fun line => .char '\n' :: beforeSlashes line

/-- What is left of the first line comes before what is left of the others. -/
theorem dropLineComments_eq (text : Text) :
    dropLineComments text = beforeSlashes (firstLine text) ++ laterLines text := by
  have hjoin : ∀ (line : Text) (others : List Text),
      ("\n" : Text).intercalate (line :: others)
        = line ++ others.flatMap fun other => .char '\n' :: other := by
    intro line others
    induction others generalizing line with
    | nil => simp [List.intercalate]
    | cons other others ih =>
      rw [List.flatMap_cons, List.cons_append, ← ih other]
      rfl
  rw [dropLineComments, laterLines, ← headD_lines]
  cases lines text with
  | nil => rfl
  | cons line others =>
    rw [List.map_cons, hjoin, List.flatMap_map]
    rfl

/-- A line end becomes a line feed; at the end of the text, or as a return before a line feed, it is
taken out. -/
theorem dropLineComments_lineEnd {e : CodePoint} (he : isLineEnd e.value = true) (rest : Text) :
    dropLineComments (e :: rest) = .char '\n' :: dropLineComments rest ∨
      (∀ p ∈ rest.head?, p = .char '\n') ∧
        dropLineComments (e :: rest) = dropLineComments rest := by
  rcases lines_cons_of_isLineEnd he rest with h | ⟨hfeed, h⟩
  · cases rest with
    | nil =>
      right
      refine ⟨by simp, ?_⟩
      rw [dropLineComments, h]
      rfl
    | cons p rest =>
      left
      obtain ⟨line, others, hlines⟩ := List.exists_cons_of_ne_nil (lines_cons_ne_nil p rest)
      rw [dropLineComments, h, dropLineComments, hlines]
      rfl
  · right
    refine ⟨fun p hp => Option.some.inj (hp.symm.trans hfeed), ?_⟩
    rw [dropLineComments, h, dropLineComments]

/-- A first line is followed by nothing or by a line end. -/
theorem exists_append_firstLine (text : Text) :
    ∃ rest, text = firstLine text ++ rest ∧ ∀ e ∈ rest.head?, isLineEnd e.value = true := by
  induction text with
  | nil => exact ⟨[], rfl, fun e he => by cases he⟩
  | cons p text ih =>
    by_cases hp : isLineEnd p.value = true
    · refine ⟨p :: text, by simp [firstLine, hp], fun e he => ?_⟩
      cases he
      exact hp
    · obtain ⟨rest, htext, hrest⟩ := ih
      refine ⟨rest, ?_, hrest⟩
      have hfirst : firstLine (p :: text) = p :: firstLine text := by simp [firstLine, hp]
      rw [hfirst, List.cons_append, ← htext]

/-- Two slashes start a comment that reaches to the end of the line. -/
theorem exists_comment {p : CodePoint} {rest : Text}
    (hpair : p = .char '/' ∧ rest.head? = some (.char '/')) :
    ∃ body after, p :: rest = slashes ++ (body ++ after) ∧
      (∀ q ∈ body, isLineEnd q.value = false) ∧ ∀ e ∈ after.head?, isLineEnd e.value = true := by
  obtain ⟨rfl, hsecond⟩ := hpair
  obtain ⟨more, rfl⟩ := List.head?_eq_some_iff.mp hsecond
  obtain ⟨after, hmore, hafter⟩ := exists_append_firstLine more
  refine ⟨firstLine more, after, ?_, fun q hq => ?_, hafter⟩
  · rw [← hmore]
    rfl
  · exact AntennaArray.Text.isLineEnd_of_mem_firstLine hq

theorem head?_firstLine {text : Text} {p : CodePoint} (h : (firstLine text).head? = some p) :
    text.head? = some p := by
  cases text with
  | nil => exact h
  | cons q rest =>
    simp only [firstLine, List.takeWhile_cons] at h
    split at h
    · exact h
    · cases h

/-- A code point that is neither a line end nor the start of a comment is kept. -/
theorem dropLineComments_cons {p : CodePoint} {rest : Text} (hp : isLineEnd p.value = false)
    (h : ¬(p = .char '/' ∧ rest.head? = some (.char '/'))) :
    dropLineComments (p :: rest) = p :: dropLineComments rest := by
  have hfirst : firstLine (p :: rest) = p :: firstLine rest := by simp [firstLine, hp]
  have hlater : laterLines (p :: rest) = laterLines rest := by
    rw [laterLines, lines_cons hp, List.tail_cons, laterLines]
  rw [dropLineComments_eq, dropLineComments_eq, hfirst, hlater,
    beforeSlashes_cons fun hp => h ⟨hp.1, head?_firstLine hp.2⟩]
  rfl

/-- A line comment is taken out; the line end after it, if there is one, is not part of it. -/
theorem dropLineComments_comment {body : Text} (hbody : ∀ p ∈ body, isLineEnd p.value = false)
    {rest : Text} (hrest : ∀ e ∈ rest.head?, isLineEnd e.value = true) :
    dropLineComments (slashes ++ (body ++ rest)) = dropLineComments rest := by
  have hline : ∀ part : Text, (∀ p ∈ part, isLineEnd p.value = false) →
      firstLine (part ++ rest) = part ∧ laterLines (part ++ rest) = laterLines rest := by
    intro part hpart
    induction part with
    | nil =>
      cases rest with
      | nil => exact ⟨rfl, rfl⟩
      | cons e rest => exact ⟨by simp [firstLine, hrest e rfl], rfl⟩
    | cons p part ih =>
      obtain ⟨hp, hpart⟩ := List.forall_mem_cons.mp hpart
      obtain ⟨hfirst, hlater⟩ := ih hpart
      rw [List.cons_append, laterLines, lines_cons hp, List.tail_cons, ← laterLines, hlater,
        ← headD_lines, lines_cons hp, headD_lines, hfirst]
      exact ⟨rfl, rfl⟩
  have hslashes : ∀ p ∈ slashes ++ body, isLineEnd p.value = false := by
    intro p hp
    rcases List.mem_append.mp hp with hp | hp
    · simp only [slashes, List.mem_cons, List.not_mem_nil, or_false, or_self] at hp
      subst hp
      rfl
    · exact hbody p hp
  have hempty := hline [] fun p hp => by cases hp
  obtain ⟨hfirst, hlater⟩ := hline _ hslashes
  rw [← List.append_assoc, dropLineComments_eq, hfirst, hlater, dropLineComments_eq rest]
  congr 1
  rw [← List.nil_append rest, hempty.1]
  rfl

/-- A part of a text without line ends in which no comment starts is kept. -/
theorem dropLineComments_append {part : Text} (hends : ∀ p ∈ part, isLineEnd p.value = false)
    (hpart : ¬slashes <:+: part) {rest : Text}
    (hlast : part.getLast? = some (.char '/') → rest.head? ≠ some (.char '/')) :
    dropLineComments (part ++ rest) = part ++ dropLineComments rest := by
  induction part with
  | nil => rfl
  | cons p part ih =>
    obtain ⟨hp, hends⟩ := List.forall_mem_cons.mp hends
    have hpair : ¬(p = .char '/' ∧ (part ++ rest).head? = some (.char '/')) :=
      not_pair_of_not_infix hpart fun hpart hp => hlast (by rw [hpart, hp]; rfl)
    have hlast' : part.getLast? = some (.char '/') → rest.head? ≠ some (.char '/') := by
      intro h
      cases part with
      | nil => cases h
      | cons q part => exact hlast (by rw [List.getLast?_cons_cons]; exact h)
    rw [List.cons_append, dropLineComments_cons hp hpair,
      ih hends (not_infix_of_cons hpart) hlast']
    rfl

/-! ## Commas -/

/-- A comma stands before a closing bracket, with nothing but blanks between them. -/
def HasTrailingComma (text : Text) : Prop :=
  ∃ blanks : Text, ∃ bracket ∈ [']', '}'], (∀ p ∈ blanks, isBlank p.value = true) ∧
    .char ',' :: (blanks ++ [.char bracket]) <:+: text

theorem closesNext_cons_of_isBlank {p : CodePoint} (hp : isBlank p.value = true) (rest : Text) :
    closesNext (p :: rest) = closesNext rest := by
  simp [closesNext, hp]

/-- A code point that is no blank decides whether a bracket is closed. -/
theorem closesNext_cons {p : CodePoint} (hp : isBlank p.value = false) (rest : Text) :
    closesNext (p :: rest) = decide (p = .char ']' ∨ p = .char '}') := by
  simp only [closesNext, List.dropWhile_cons, hp, Bool.false_eq_true, if_false]
  split
  · next h =>
    obtain ⟨rfl, rfl⟩ := List.cons.inj h
    rfl
  · next h =>
    obtain ⟨rfl, rfl⟩ := List.cons.inj h
    rfl
  · next hlist hobject =>
    symm
    rw [decide_eq_false_iff_not]
    intro h
    rcases h with rfl | rfl
    · exact hlist rest rfl
    · exact hobject rest rfl

/-- What comes after a code point that is no blank does not matter. -/
theorem closesNext_append {part : Text} (hpart : ∃ p ∈ part, isBlank p.value = false)
    (rest : Text) : closesNext (part ++ rest) = closesNext part := by
  induction part with
  | nil =>
    obtain ⟨p, hp, -⟩ := hpart
    cases hp
  | cons p part ih =>
    rw [List.cons_append]
    by_cases hp : isBlank p.value = true
    · obtain ⟨q, hq, hblank⟩ := hpart
      have hmem : q ∈ part := by
        rcases List.mem_cons.mp hq with rfl | hq
        · rw [hp] at hblank; cases hblank
        · exact hq
      rw [closesNext_cons_of_isBlank hp, closesNext_cons_of_isBlank hp, ih ⟨q, hmem, hblank⟩]
    · rw [Bool.not_eq_true] at hp
      rw [closesNext_cons hp, closesNext_cons hp]

theorem closesNext_eq_true_iff {text : Text} :
    closesNext text = true ↔ ∃ blanks : Text, ∃ bracket ∈ [']', '}'],
      (∀ p ∈ blanks, isBlank p.value = true) ∧ blanks ++ [.char bracket] <+: text := by
  constructor
  · intro h
    induction text with
    | nil => cases h
    | cons p rest ih =>
      by_cases hp : isBlank p.value = true
      · rw [closesNext_cons_of_isBlank hp] at h
        obtain ⟨blanks, bracket, hbracket, hblanks, hprefix⟩ := ih h
        exact ⟨p :: blanks, bracket, hbracket, List.forall_mem_cons.mpr ⟨hp, hblanks⟩,
          List.cons_prefix_cons.mpr ⟨rfl, hprefix⟩⟩
      · rw [Bool.not_eq_true] at hp
        rw [closesNext_cons hp, decide_eq_true_eq] at h
        rcases h with rfl | rfl
        · exact ⟨[], ']', by simp, by simp, rest, rfl⟩
        · exact ⟨[], '}', by simp, by simp, rest, rfl⟩
  · rintro ⟨blanks, bracket, hbracket, hblanks, rest, rfl⟩
    rw [List.append_assoc]
    induction blanks with
    | nil =>
      simp only [List.mem_cons, List.not_mem_nil, or_false] at hbracket
      rcases hbracket with rfl | rfl <;> rfl
    | cons p blanks ih =>
      obtain ⟨hp, hblanks⟩ := List.forall_mem_cons.mp hblanks
      rw [List.cons_append, closesNext_cons_of_isBlank hp]
      exact ih hblanks

theorem HasTrailingComma.of_infix {part text : Text} (h : HasTrailingComma part)
    (hin : part <:+: text) : HasTrailingComma text := by
  obtain ⟨blanks, bracket, hbracket, hblanks, hpart⟩ := h
  exact ⟨blanks, bracket, hbracket, hblanks, hpart.trans hin⟩

@[simp] theorem not_hasTrailingComma_nil : ¬HasTrailingComma [] := by
  rintro ⟨blanks, bracket, -, -, h⟩
  cases List.infix_nil.mp h

theorem hasTrailingComma_cons {p : CodePoint} {rest : Text} :
    HasTrailingComma (p :: rest) ↔
      (p = .char ',' ∧ closesNext rest = true) ∨ HasTrailingComma rest := by
  constructor
  · rintro ⟨blanks, bracket, hbracket, hblanks, h⟩
    rcases List.infix_cons_iff.mp h with h | h
    · obtain ⟨hp, hprefix⟩ := List.cons_prefix_cons.mp h
      exact .inl ⟨hp.symm, closesNext_eq_true_iff.mpr
        ⟨blanks, bracket, hbracket, hblanks, hprefix⟩⟩
    · exact .inr ⟨blanks, bracket, hbracket, hblanks, h⟩
  · intro hcases
    rcases hcases with ⟨rfl, h⟩ | ⟨blanks, bracket, hbracket, hblanks, h⟩
    · obtain ⟨blanks, bracket, hbracket, hblanks, hprefix⟩ := closesNext_eq_true_iff.mp h
      exact ⟨blanks, bracket, hbracket, hblanks,
        (List.cons_prefix_cons.mpr ⟨rfl, hprefix⟩).isInfix⟩
    · exact ⟨blanks, bracket, hbracket, hblanks, List.infix_cons h⟩

/-- A comma before a closing bracket is taken out. -/
theorem dropTrailingCommas_comma {rest : Text} (h : closesNext rest = true) :
    dropTrailingCommas (.char ',' :: rest) = dropTrailingCommas rest := by
  rw [dropTrailingCommas, h]
  rfl

/-- Any other code point is kept. -/
theorem dropTrailingCommas_cons {p : CodePoint} {rest : Text}
    (h : ¬(p = .char ',' ∧ closesNext rest = true)) :
    dropTrailingCommas (p :: rest) = p :: dropTrailingCommas rest := by
  rw [dropTrailingCommas, if_neg]
  rwa [Bool.and_eq_true, decide_eq_true_eq]

/-- A part of a text without such commas is kept, if it does not end in a comma and blanks. -/
theorem dropTrailingCommas_append {part : Text} (hpart : ¬HasTrailingComma part)
    (hlast : ∀ q ∈ part.getLast?, isBlank q.value = false ∧ q ≠ .char ',') (rest : Text) :
    dropTrailingCommas (part ++ rest) = part ++ dropTrailingCommas rest := by
  induction part with
  | nil => rfl
  | cons p part ih =>
    obtain ⟨hp, hpart⟩ := not_or.mp (mt hasTrailingComma_cons.mpr hpart)
    have hpair : ¬(p = .char ',' ∧ closesNext (part ++ rest) = true) := by
      rintro ⟨rfl, hcloses⟩
      cases hlastq : part.getLast? with
      | none =>
        rw [List.getLast?_eq_none_iff] at hlastq
        subst hlastq
        exact (hlast _ rfl).2 rfl
      | some q =>
        have hcons : (CodePoint.char ',' :: part).getLast? = some q := by
          rw [List.getLast?_cons, hlastq]
          rfl
        rw [closesNext_append ⟨q, List.mem_of_getLast? hlastq, (hlast q hcons).1⟩] at hcloses
        exact hp ⟨rfl, hcloses⟩
    have hlast' : ∀ q ∈ part.getLast?, isBlank q.value = false ∧ q ≠ .char ',' := by
      intro q hq
      refine hlast q ?_
      rw [Option.mem_def] at hq ⊢
      rw [List.getLast?_cons, hq]
      rfl
    rw [List.cons_append, dropTrailingCommas_cons hpair, ih hpart hlast']
    rfl

/-- Without line comments, the second pass leaves every comma before its closing bracket. -/
theorem closesNext_dropLineComments {text : Text} (h : ¬slashes <:+: text) :
    closesNext (dropLineComments text) = closesNext text := by
  induction text with
  | nil => rfl
  | cons p rest ih =>
    have hrest := ih (not_infix_of_cons h)
    by_cases hp : isLineEnd p.value = true
    · rw [closesNext_cons_of_isBlank (isBlank_of_isLineEnd hp)]
      rcases dropLineComments_lineEnd hp rest with hdrop | ⟨-, hdrop⟩
      · rw [hdrop, closesNext_cons_of_isBlank rfl, hrest]
      · rw [hdrop, hrest]
    · rw [dropLineComments_cons (by simpa using hp) (not_pair_of_not_infix_cons h)]
      by_cases hblank : isBlank p.value = true
      · rw [closesNext_cons_of_isBlank hblank, closesNext_cons_of_isBlank hblank, hrest]
      · rw [Bool.not_eq_true] at hblank
        rw [closesNext_cons hblank, closesNext_cons hblank]

theorem HasTrailingComma.dropLineComments {text : Text} (hslashes : ¬slashes <:+: text)
    (h : HasTrailingComma text) : HasTrailingComma (dropLineComments text) := by
  induction text with
  | nil => exact h
  | cons p rest ih =>
    have hrest : HasTrailingComma rest → HasTrailingComma (Json.dropLineComments rest) :=
      ih (not_infix_of_cons hslashes)
    by_cases hp : isLineEnd p.value = true
    · have hcomma : p ≠ .char ',' := by
        intro heq
        subst heq
        cases hp
      have hin : HasTrailingComma rest := by
        rcases hasTrailingComma_cons.mp h with ⟨hpc, -⟩ | h
        · exact absurd hpc hcomma
        · exact h
      rcases dropLineComments_lineEnd hp rest with hdrop | ⟨-, hdrop⟩
      · rw [hdrop, hasTrailingComma_cons]
        exact .inr (hrest hin)
      · rw [hdrop]
        exact hrest hin
    · rw [dropLineComments_cons (by simpa using hp) (not_pair_of_not_infix_cons hslashes),
        hasTrailingComma_cons, closesNext_dropLineComments (not_infix_of_cons hslashes)]
      exact (hasTrailingComma_cons.mp h).imp_right hrest

end AntennaArray.Json
