import AntennaArray.Json.Reader
import Mathlib.Data.List.Chain

/-!
# What a JSON text spells

The value of a text depends on its tokens alone, and not on where they stand (`read_eq_ok_iff`).
A reading never goes from one token to another that cannot follow it: after a scalar comes a mark,
and no comma stands before a closing bracket (`Spells.isChain`).
-/

namespace AntennaArray.Json

/-! ## Tokens without their places -/

/-- Code points that belong to a token which has been read are passed over. -/
theorem tokens_skip (position skip : Nat) (text : Text) :
    tokens position skip text = tokens (position + skip) 0 (text.drop skip) := by
  induction text generalizing position skip with
  | nil => simp [tokens]
  | cons p rest ih =>
    cases skip with
    | zero => rfl
    | succ n =>
      rw [tokens, ih, List.drop_succ_cons, Nat.add_assoc, Nat.add_comm 1 n]

/-- The tokens that a text spells. -/
def spelled (text : Text) : List Token := (tokens 0 0 text).map Located.token

/-- Tokens are the same wherever the text starts. -/
theorem map_token_tokens (text : Text) (position : Nat) :
    (tokens position 0 text).map Located.token = spelled text := by
  suffices ∀ (text : Text) (a b skip : Nat),
      (tokens a skip text).map Located.token = (tokens b skip text).map Located.token from
    this text position 0 0
  intro text
  induction text with
  | nil => intro a b skip; simp [tokens]
  | cons p rest ih =>
    intro a b skip
    cases skip with
    | succ n => exact ih (a + 1) (b + 1) n
    | zero =>
      by_cases hp : isSpace p = true
      · simpa [tokens, hp] using ih (a + 1) (b + 1) 0
      · by_cases hl : (tokenAt p rest).1.isLast = true
        · simp [tokens, hp, hl]
        · simpa [tokens, hp, hl] using ih (a + 1) (b + 1) ((tokenAt p rest).2 - 1)

/-- White space spells nothing. -/
theorem spelled_cons_space {p : CodePoint} (hp : isSpace p = true) (rest : Text) :
    spelled (p :: rest) = spelled rest := by
  rw [spelled, tokens_space 0 hp, map_token_tokens]

/-- The first token, and what the text spells after it. -/
theorem spelled_cons {p : CodePoint} (hp : isSpace p = false) (rest : Text) :
    spelled (p :: rest) = (tokenAt p rest).1 ::
      if (tokenAt p rest).1.isLast then [] else spelled (rest.drop ((tokenAt p rest).2 - 1)) := by
  rw [spelled, tokens]
  simp only [hp, Bool.false_eq_true, if_false, List.map_cons]
  split
  · rfl
  · rw [tokens_skip, map_token_tokens]

/-! ## Reading without places -/

/-- The state after a token, wherever it stands. -/
def State.advance (s : State) (t : Token) : Option State := (s.step ⟨0, t⟩).toOption

/-- Only what is wrong with a token depends on its place. -/
theorem State.toOption_step (s : State) (t : Located) :
    (s.step t).toOption = s.advance t.token := by
  obtain ⟨position, token⟩ := t
  rw [State.advance]
  have hstart : ∀ stack, (State.startValue stack ⟨position, token⟩).toOption
      = (State.startValue stack ⟨0, token⟩).toOption := by
    intro stack
    cases token <;> simp only [State.startValue] <;> first | rfl | (split <;> rfl)
  cases s with
  | item opened stack =>
    cases opened
    · exact hstart stack
    · cases token <;> first | rfl | exact hstart _
  | key opened fields stack => cases opened <;> cases token <;> rfl
  | colon fields key stack => cases token <;> rfl
  | separator frame stack => cases frame <;> cases token <;> rfl
  | done v => rfl

/-- The tokens spell the value: they can be read one after another, and then the value is there. -/
def Spells (ts : List Token) (v : Value) : Prop :=
  ts.foldlM State.advance (.item false []) = some (.done v)

theorem toOption_foldlM_step (ts : List Located) (s : State) :
    (ts.foldlM State.step s).toOption = (ts.map Located.token).foldlM State.advance s := by
  induction ts generalizing s with
  | nil => rfl
  | cons t ts ih =>
    rw [List.foldlM_cons, List.map_cons, List.foldlM_cons, ← State.toOption_step]
    cases s.step t with
    | error e => rfl
    | ok s' => exact ih s'

/-- Some tokens give a value where they spell it. -/
theorem ofTokens_eq_ok_iff {length : Nat} {ts : List Located} {v : Value} :
    ofTokens length ts = .ok v ↔ Spells (ts.map Located.token) v := by
  rw [Spells, ← toOption_foldlM_step, ofTokens]
  cases ts.foldlM State.step (.item false []) with
  | error e => constructor <;> intro h <;> cases h
  | ok s =>
    cases s with
    | done w => constructor <;> intro h <;> cases h <;> rfl
    | item | key | colon | separator => constructor <;> intro h <;> cases h

/-- A text that starts with a byte order mark spells nothing that can be read. -/
theorem not_spells_byteOrderMark (rest : Text) (v : Value) :
    ¬Spells (spelled (.char '\uFEFF' :: rest)) v := by
  have hunknown : spelled (.char '\uFEFF' :: rest) = [.unknown] := rfl
  rw [hunknown]
  intro h
  cases h

/-- A text has the value that its tokens spell. -/
theorem read_eq_ok_iff {text : Text} {v : Value} : read text = .ok v ↔ Spells (spelled text) v := by
  have htokens : ofTokens text.length (tokens 0 0 text) = .ok v ↔ Spells (spelled text) v :=
    ofTokens_eq_ok_iff
  rw [read]
  split
  · next h =>
    obtain ⟨rest, rfl⟩ := List.head?_eq_some_iff.mp h
    exact iff_of_false (fun h => by cases h) (not_spells_byteOrderMark rest v)
  · rw [← htokens]
    cases ofTokens text.length (tokens 0 0 text) with
    | ok w => constructor <;> intro h <;> cases h <;> rfl
    | error e => constructor <;> intro h <;> cases h

/-! ## What can follow what -/

/-- Whether a value is neither a text nor a list nor an object. -/
def isScalar : Value → Bool
  | .text _ | .list _ | .object _ => false
  | _ => true

namespace Token

/-- A bracket, a comma or a colon. -/
def isMark : Token → Bool
  | .openList | .closeList | .openObject | .closeObject | .comma | .colon => true
  | _ => false

/-- The bracket that closes a list or an object. -/
def isClosing : Token → Bool
  | .closeList | .closeObject => true
  | _ => false

/-- Whether the second token may come directly after the first one: after a scalar only a mark, and
no closing bracket after a comma. -/
def Precedes : Token → Token → Prop
  | .scalar _, t => t.isMark = true
  | .comma, t => t.isClosing = false
  | _, _ => True

end Token

namespace State

/-- A value is complete: either it is the whole one, or a separator comes next. -/
def isComplete : State → Bool
  | .separator .. | .done _ => true
  | _ => false

/-- Nothing that has just been opened may be closed. -/
def isCommitted : State → Bool
  | .item false _ | .key false _ _ => true
  | _ => false

theorem isComplete_complete (v : Value) (stack : List Frame) :
    (complete v stack).isComplete = true := by
  cases stack with
  | nil => rfl
  | cons frame stack => cases frame <;> rfl

/-- A scalar completes a value. -/
theorem isComplete_of_advance_scalar {s s' : State} {v : Value}
    (h : s.advance (.scalar v) = some s') : s'.isComplete = true := by
  cases s with
  | item opened stack => cases opened <;> cases h <;> exact isComplete_complete _ _
  | key opened fields stack => cases opened <;> cases h
  | colon => cases h
  | separator frame stack => cases frame <;> cases h
  | done => cases h

/-- After a comma something has to follow. -/
theorem isCommitted_of_advance_comma {s s' : State} (h : s.advance .comma = some s') :
    s'.isCommitted = true := by
  cases s with
  | item opened stack => cases opened <;> cases h
  | key opened fields stack => cases opened <;> cases h
  | colon => cases h
  | separator frame stack => cases frame <;> cases h <;> rfl
  | done => cases h

/-- After a complete value comes a mark. -/
theorem isMark_of_isComplete {s s' : State} {t : Token} (hs : s.isComplete = true)
    (h : s.advance t = some s') : t.isMark = true := by
  cases s with
  | separator frame stack => cases frame <;> cases t <;> first | rfl | cases h
  | done => cases h
  | item | key | colon => cases hs

/-- Where something has to follow, nothing is closed. -/
theorem isClosing_eq_false_of_isCommitted {s s' : State} {t : Token} (hs : s.isCommitted = true)
    (h : s.advance t = some s') : t.isClosing = false := by
  cases s with
  | item opened stack =>
    cases opened
    · cases t <;> first | rfl | cases h
    · cases hs
  | key opened fields stack =>
    cases opened
    · cases t <;> first | rfl | cases h
    · cases hs
  | separator | done | colon => cases hs

/-- Tokens that are read one after the other may follow one another. -/
theorem precedes_of_advance {s s' s'' : State} {t u : Token} (ht : s.advance t = some s')
    (hu : s'.advance u = some s'') : t.Precedes u := by
  cases t with
  | scalar v => exact isMark_of_isComplete (isComplete_of_advance_scalar ht) hu
  | comma => exact isClosing_eq_false_of_isCommitted (isCommitted_of_advance_comma ht) hu
  | _ => trivial

/-- A token that ends the reading is never accepted. -/
theorem isLast_eq_false_of_advance {s s' : State} {t : Token} (h : s.advance t = some s') :
    t.isLast = false := by
  cases t with
  | badText | badNumber | unknown =>
    cases s with
    | item opened stack => cases opened <;> cases h
    | key opened fields stack => cases opened <;> cases h
    | separator frame stack => cases frame <;> cases h
    | colon | done => cases h
  | _ => rfl

theorem isChain_of_foldlM {ts : List Token} {s s' : State}
    (h : ts.foldlM advance s = some s') : ts.IsChain Token.Precedes := by
  induction ts generalizing s with
  | nil => exact .nil
  | cons t ts ih =>
    rw [List.foldlM_cons] at h
    obtain ⟨s₁, h₁, h⟩ := Option.bind_eq_some_iff.mp h
    cases ts with
    | nil => exact .singleton t
    | cons u ts =>
      have hchain := ih h
      rw [List.foldlM_cons] at h
      obtain ⟨s₂, h₂, -⟩ := Option.bind_eq_some_iff.mp h
      exact .cons_cons (precedes_of_advance h₁ h₂) hchain

theorem isLast_eq_false_of_foldlM {ts : List Token} {s s' : State}
    (h : ts.foldlM advance s = some s') : ∀ t ∈ ts, t.isLast = false := by
  induction ts generalizing s with
  | nil => intro t ht; cases ht
  | cons t ts ih =>
    rw [List.foldlM_cons] at h
    obtain ⟨s₁, h₁, h⟩ := Option.bind_eq_some_iff.mp h
    exact List.forall_mem_cons.mpr ⟨isLast_eq_false_of_advance h₁, ih h⟩

end State

/-- The tokens of a value may follow one another. -/
theorem Spells.isChain {ts : List Token} {v : Value} (h : Spells ts v) :
    ts.IsChain Token.Precedes :=
  State.isChain_of_foldlM h

/-- None of the tokens of a value ends the reading. -/
theorem Spells.isLast_eq_false {ts : List Token} {v : Value} (h : Spells ts v) :
    ∀ t ∈ ts, t.isLast = false :=
  State.isLast_eq_false_of_foldlM h

end AntennaArray.Json
