import AntennaArray.Proofs.Json.Spelling
import Mathlib.Algebra.GroupWithZero.Nat

/-!
# How often a character stands in a value

The tokens of a value hold each character a certain number of times. Any tokens that spell the value
hold it at least as often (`Spells.tally_le`): they may only hold more, in entries whose key is
repeated later.
-/

namespace AntennaArray

namespace Value

open AntennaArray.Json (Token)

mutual

/-- The tokens that spell a value with no key repeated. -/
def tokens : Value → List Token
  | .text s => [.text s]
  | .list items => .openList :: (itemTokens items ++ [.closeList])
  | .object fields => .openObject :: (fieldTokens fields ++ [.closeObject])
  | v => [.scalar v]

def itemTokens : List Value → List Token
  | [] => []
  | [v] => tokens v
  | v :: rest => tokens v ++ .comma :: itemTokens rest

def fieldTokens : List (Text × Value) → List Token
  | [] => []
  | [(name, v)] => .text name :: .colon :: tokens v
  | (name, v) :: rest => .text name :: .colon :: (tokens v ++ .comma :: fieldTokens rest)

end

end Value

namespace Json

/-- How often a character stands in a token, as a comma or in a text. -/
def Token.tally (k : Char) : Token → Nat
  | .text s => s.count (.char k)
  | .comma => if k = ',' then 1 else 0
  | _ => 0

/-- How often a character stands in some tokens. -/
def tallyTokens (k : Char) (ts : List Token) : Nat := (ts.map (Token.tally k)).sum

@[simp] theorem tallyTokens_nil (k : Char) : tallyTokens k [] = 0 := rfl

@[simp] theorem tallyTokens_cons (k : Char) (t : Token) (ts : List Token) :
    tallyTokens k (t :: ts) = t.tally k + tallyTokens k ts :=
  List.sum_cons

@[simp] theorem tallyTokens_append (k : Char) (ts us : List Token) :
    tallyTokens k (ts ++ us) = tallyTokens k ts + tallyTokens k us := by
  simp [tallyTokens]

/-- How often a character stands in a value. -/
def tallyValue (k : Char) (v : Value) : Nat := tallyTokens k v.tokens

/-- How often a character stands in a field. -/
def tallyField (k : Char) (f : Text × Value) : Nat := f.1.count (.char k) + tallyValue k f.2

theorem tallyTokens_itemTokens (k : Char) (items : List Value) :
    tallyTokens k (Value.itemTokens items) =
      (items.map (tallyValue k)).sum + (items.length - 1) * Token.comma.tally k := by
  induction items with
  | nil => simp [Value.itemTokens]
  | cons v rest ih =>
    cases rest with
    | nil => simp [Value.itemTokens, tallyValue]
    | cons w rest =>
      simp only [Value.itemTokens, tallyTokens_append, tallyTokens_cons, ih, List.map_cons,
        List.sum_cons, List.length_cons, tallyValue, Nat.add_sub_cancel, Nat.succ_mul]
      omega

theorem tallyTokens_fieldTokens (k : Char) (fields : List (Text × Value)) :
    tallyTokens k (Value.fieldTokens fields) =
      (fields.map (tallyField k)).sum + (fields.length - 1) * Token.comma.tally k := by
  induction fields with
  | nil => simp [Value.fieldTokens]
  | cons f rest ih =>
    obtain ⟨name, v⟩ := f
    cases rest with
    | nil => simp [Value.fieldTokens, tallyField, tallyValue, Token.tally]
    | cons g rest =>
      simp only [Value.fieldTokens, tallyTokens_append, tallyTokens_cons, ih, List.map_cons,
        List.sum_cons, List.length_cons, tallyField, tallyValue, Nat.add_sub_cancel, Nat.succ_mul,
        Token.tally]
      omega

theorem tallyValue_scalar (k : Char) {v : Value} (hv : isScalar v = true) :
    tallyValue k v = (Token.scalar v).tally k := by
  cases v with
  | text | list | object => cases hv
  | null | bool | number => simp [tallyValue, Value.tokens]

@[simp] theorem tallyValue_text (k : Char) (s : Text) :
    tallyValue k (.text s) = s.count (.char k) := by
  simp [tallyValue, Value.tokens, Token.tally]

@[simp] theorem tallyValue_list (k : Char) (items : List Value) :
    tallyValue k (.list items) =
      (items.map (tallyValue k)).sum + (items.length - 1) * Token.comma.tally k := by
  rw [← tallyTokens_itemTokens]
  simp [tallyValue, Value.tokens, Token.tally]

@[simp] theorem tallyValue_object (k : Char) (fields : List (Text × Value)) :
    tallyValue k (.object fields) =
      (fields.map (tallyField k)).sum + (fields.length - 1) * Token.comma.tally k := by
  rw [← tallyTokens_fieldTokens]
  simp [tallyValue, Value.tokens, Token.tally]

/-! ## Fields with distinct keys -/

/-- No two fields have the same key. -/
def HasDistinctKeys (fields : List (Text × Value)) : Prop := (fields.map Prod.fst).Nodup

theorem hasDistinctKeys_setField {fields : List (Text × Value)} (h : HasDistinctKeys fields)
    (name : Text) (v : Value) : HasDistinctKeys (Value.setField fields name v) := by
  rw [HasDistinctKeys, Value.keys_setField]
  by_cases hname : name ∈ fields.map Prod.fst
  · rw [if_pos hname]
    exact h
  · rw [if_neg hname]
    refine List.nodup_append.mpr ⟨h, by simp, ?_⟩
    intro key hkey other hother heq
    exact hname (heq.trans (List.mem_singleton.mp hother) ▸ hkey)

/-- Setting a field brings in no more than the field. -/
theorem tally_setField (k : Char) {fields : List (Text × Value)} (h : HasDistinctKeys fields)
    (name : Text) (v : Value) :
    ((Value.setField fields name v).map (tallyField k)).sum
      ≤ (fields.map (tallyField k)).sum + tallyField k (name, v) := by
  have hreplace : ∀ fields : List (Text × Value), HasDistinctKeys fields →
      ((fields.map fun f => if f.1 == name then (name, v) else f).map (tallyField k)).sum
        ≤ (fields.map (tallyField k)).sum
          + if name ∈ fields.map Prod.fst then tallyField k (name, v) else 0 := by
    intro fields
    induction fields with
    | nil => intro _; simp
    | cons f fields ih =>
      intro h
      obtain ⟨hf, hfields⟩ := List.nodup_cons.mp h
      have hrest := ih hfields
      by_cases hname : f.1 = name
      · rw [← hname, if_neg hf] at hrest
        simp only [List.map_cons, List.sum_cons, ← hname, beq_self_eq_true, if_true,
          List.mem_cons, true_or]
        omega
      · have hname' : name ≠ f.1 := fun h => hname h.symm
        simp only [List.map_cons, List.sum_cons, beq_iff_eq, hname, if_false, List.mem_cons, hname',
          false_or] at hrest ⊢
        omega
  rw [Value.setField]
  split
  · have hsum := hreplace fields h
    have hle : (if name ∈ fields.map Prod.fst then tallyField k (name, v) else 0)
        ≤ tallyField k (name, v) := by split <;> omega
    omega
  · simp

theorem length_setField_le (fields : List (Text × Value)) (name : Text) (v : Value) :
    (Value.setField fields name v).length - 1 ≤ fields.length := by
  rw [Value.setField]
  split
  · rw [List.length_map]; omega
  · rw [List.length_append, List.length_singleton]; omega

/-! ## What has been read -/

/-- How often a character stands in what has been read of an open list or object, up to the comma
after its last entry or up to a key. -/
def Frame.tally (k : Char) : Frame → Nat
  | .list items => (items.map (tallyValue k)).sum + items.length * Token.comma.tally k
  | .object fields name =>
    (fields.map (tallyField k)).sum + fields.length * Token.comma.tally k + name.count (.char k)

/-- No open object has a key twice. -/
def Frame.HasDistinctKeys : Frame → Prop
  | .list _ => True
  | .object fields _ => Json.HasDistinctKeys fields

namespace State

/-- How often a character stands in what some open lists and objects hold. -/
def tallyStack (k : Char) (stack : List Frame) : Nat := (stack.map (Frame.tally k)).sum

@[simp] theorem tallyStack_cons (k : Char) (frame : Frame) (stack : List Frame) :
    tallyStack k (frame :: stack) = frame.tally k + tallyStack k stack :=
  List.sum_cons

/-- How often a character stands in what has been read. -/
def tally (k : Char) : State → Nat
  | .item _ stack => tallyStack k stack
  | .key _ fields stack =>
    (fields.map (tallyField k)).sum + fields.length * Token.comma.tally k + tallyStack k stack
  | .colon fields name stack => (Frame.object fields name).tally k + tallyStack k stack
  | .separator (.list items) stack =>
    (items.map (tallyValue k)).sum + (items.length - 1) * Token.comma.tally k + tallyStack k stack
  | .separator (.object fields _) stack =>
    (fields.map (tallyField k)).sum + (fields.length - 1) * Token.comma.tally k
      + tallyStack k stack
  | .done v => tallyValue k v

/-- No open object has a key twice. -/
def HasDistinctKeys : State → Prop
  | .item _ stack => ∀ frame ∈ stack, frame.HasDistinctKeys
  | .key _ fields stack =>
    Json.HasDistinctKeys fields ∧ ∀ frame ∈ stack, frame.HasDistinctKeys
  | .colon fields _ stack =>
    Json.HasDistinctKeys fields ∧ ∀ frame ∈ stack, frame.HasDistinctKeys
  | .separator frame stack => frame.HasDistinctKeys ∧ ∀ frame ∈ stack, frame.HasDistinctKeys
  | .done _ => True

variable {k : Char}

@[simp] theorem tally_key (opened : Bool) (fields : List (Text × Value)) (stack : List Frame) :
    (State.key opened fields stack).tally k = (fields.map (tallyField k)).sum
      + fields.length * Token.comma.tally k + tallyStack k stack :=
  rfl

@[simp] theorem tally_separator_list (items : List Value) (stack : List Frame) :
    (State.separator (.list items) stack).tally k = (items.map (tallyValue k)).sum
      + (items.length - 1) * Token.comma.tally k + tallyStack k stack :=
  rfl

@[simp] theorem tally_separator_object (fields : List (Text × Value)) (name : Text)
    (stack : List Frame) :
    (State.separator (.object fields name) stack).tally k = (fields.map (tallyField k)).sum
      + (fields.length - 1) * Token.comma.tally k + tallyStack k stack :=
  rfl

/-- A whole value adds no more than itself, and brings in no key twice. -/
theorem complete_tally (v : Value) {stack : List Frame}
    (h : ∀ frame ∈ stack, frame.HasDistinctKeys) :
    (complete v stack).tally k ≤ tallyValue k v + tallyStack k stack ∧
      (complete v stack).HasDistinctKeys := by
  cases stack with
  | nil => exact ⟨Nat.le_refl _, trivial⟩
  | cons frame stack =>
    obtain ⟨hframe, hstack⟩ := List.forall_mem_cons.mp h
    cases frame with
    | list items =>
      refine ⟨?_, trivial, hstack⟩
      simp only [complete, tally, List.map_cons, List.sum_cons, List.length_cons,
        Nat.add_sub_cancel, tallyStack_cons, Frame.tally]
      omega
    | object fields name =>
      refine ⟨?_, hasDistinctKeys_setField hframe name v, hstack⟩
      have hsum := tally_setField k hframe name v
      have hlength := Nat.mul_le_mul_right (Token.comma.tally k) (length_setField_le fields name v)
      simp only [complete, tally, tallyStack_cons, Frame.tally]
      simp only [tallyField] at hsum ⊢
      omega

/-- A token that starts a value adds no more than itself. -/
theorem startValue_tally {stack : List Frame} (h : ∀ frame ∈ stack, frame.HasDistinctKeys)
    {t : Token} (ht : ∀ v, t = .scalar v → isScalar v = true) {s' : State}
    (hs' : (startValue stack ⟨0, t⟩).toOption = some s') :
    s'.tally k ≤ t.tally k + tallyStack k stack ∧ s'.HasDistinctKeys := by
  cases t with
  | scalar v =>
    cases hs'
    rw [← tallyValue_scalar k (ht v rfl)]
    exact complete_tally v h
  | text s =>
    cases hs'
    have htext : tallyValue k (.text s) = (Token.text s).tally k := tallyValue_text k s
    rw [← htext]
    exact complete_tally (.text s) h
  | openList =>
    simp only [startValue] at hs'
    split at hs'
    · cases hs'
      exact ⟨Nat.le_add_left _ _, h⟩
    · cases hs'
  | openObject =>
    simp only [startValue] at hs'
    split at hs'
    · cases hs'
      refine ⟨?_, List.nodup_nil, h⟩
      simp [tally]
    · cases hs'
  | _ => cases hs'

/-- A list or the end of a new list adds no more than its token. -/
theorem advance_item_tally {opened : Bool} {stack : List Frame} {s' : State} {t : Token}
    (ht : ∀ v, t = .scalar v → isScalar v = true)
    (hstack : ∀ frame ∈ stack, frame.HasDistinctKeys)
    (h : (State.item opened stack).advance t = some s') :
    s'.tally k ≤ t.tally k + (State.item opened stack).tally k ∧ s'.HasDistinctKeys := by
  cases opened with
  | false => exact startValue_tally hstack ht h
  | true =>
    have hvalue : (startValue (.list [] :: stack) ⟨0, t⟩).toOption = some s' →
        s'.tally k ≤ t.tally k + tallyStack k stack ∧ s'.HasDistinctKeys := by
      intro h
      have hopen : ∀ frame ∈ Frame.list [] :: stack, frame.HasDistinctKeys :=
        List.forall_mem_cons.mpr ⟨trivial, hstack⟩
      have hle := startValue_tally (k := k) hopen ht h
      simpa [Frame.tally] using hle
    cases t with
    | closeList =>
      cases h
      have hle := complete_tally (k := k) (.list []) hstack
      rw [tallyValue_list] at hle
      simpa [tally, Token.tally] using hle
    | _ => exact hvalue h

/-- A key or the end of an object adds no more than its token. -/
theorem advance_key_tally {opened : Bool} {fields : List (Text × Value)} {stack : List Frame}
    {s' : State} {t : Token} (hfields : Json.HasDistinctKeys fields)
    (hstack : ∀ frame ∈ stack, frame.HasDistinctKeys)
    (h : (State.key opened fields stack).advance t = some s') :
    s'.tally k ≤ t.tally k + (State.key opened fields stack).tally k ∧ s'.HasDistinctKeys := by
  cases t with
  | text name =>
    have hnext : some (State.colon fields name stack) = some s' := by
      cases opened with
      | false => exact h
      | true => exact h
    cases hnext
    refine ⟨?_, hfields, hstack⟩
    simp only [tally, Frame.tally, Token.tally]
    omega
  | closeObject =>
    cases opened with
    | false => cases h
    | true =>
      cases h
      obtain ⟨hle, hkeys⟩ := complete_tally (k := k) (.object fields) hstack
      refine ⟨?_, hkeys⟩
      have hcommas := Nat.mul_le_mul_right (Token.comma.tally k) (Nat.sub_le fields.length 1)
      rw [tallyValue_object] at hle
      rw [tally_key]
      omega
  | _ => cases opened <;> cases h

/-- A comma counts for the entry before it. -/
theorem mul_tally_comma_le (n : Nat) :
    n * Token.comma.tally k ≤ Token.comma.tally k + (n - 1) * Token.comma.tally k := by
  cases n with
  | zero => simp
  | succ n => rw [Nat.succ_mul, Nat.add_sub_cancel, Nat.add_comm]

/-- A comma or the end of a list or an object adds no more than its token. -/
theorem advance_separator_tally {frame : Frame} {stack : List Frame} {s' : State} {t : Token}
    (hframe : frame.HasDistinctKeys) (hstack : ∀ frame ∈ stack, frame.HasDistinctKeys)
    (h : (State.separator frame stack).advance t = some s') :
    s'.tally k ≤ t.tally k + (State.separator frame stack).tally k ∧ s'.HasDistinctKeys := by
  cases frame with
  | list items =>
    cases t with
    | comma =>
      cases h
      refine ⟨?_, List.forall_mem_cons.mpr ⟨hframe, hstack⟩⟩
      have hle := mul_tally_comma_le (k := k) items.length
      simp only [tally, tallyStack_cons, Frame.tally]
      omega
    | closeList =>
      cases h
      obtain ⟨hle, hkeys⟩ := complete_tally (k := k) (.list items.reverse) hstack
      refine ⟨?_, hkeys⟩
      rw [tallyValue_list, List.map_reverse, List.sum_reverse, List.length_reverse] at hle
      rw [tally_separator_list]
      omega
    | _ => cases h
  | object fields name =>
    cases t with
    | comma =>
      cases h
      refine ⟨?_, hframe, hstack⟩
      have hle := mul_tally_comma_le (k := k) fields.length
      simp only [tally]
      omega
    | closeObject =>
      cases h
      obtain ⟨hle, hkeys⟩ := complete_tally (k := k) (.object fields) hstack
      refine ⟨?_, hkeys⟩
      rw [tallyValue_object] at hle
      rw [tally_separator_object]
      omega
    | _ => cases h

/-- What has been read holds a character no more often than the tokens that were read. -/
theorem advance_tally {s s' : State} {t : Token} (ht : ∀ v, t = .scalar v → isScalar v = true)
    (hs : s.HasDistinctKeys) (h : s.advance t = some s') :
    s'.tally k ≤ t.tally k + s.tally k ∧ s'.HasDistinctKeys := by
  cases s with
  | item opened stack => exact advance_item_tally ht hs h
  | key opened fields stack => exact advance_key_tally hs.1 hs.2 h
  | colon fields name stack =>
    cases t with
    | colon =>
      cases h
      refine ⟨?_, List.forall_mem_cons.mpr hs⟩
      simp [tally]
    | _ => cases h
  | separator frame stack => exact advance_separator_tally hs.1 hs.2 h
  | done v => cases h

/-- What has been read after some tokens holds a character no more often than they do. -/
theorem foldlM_tally {ts : List Token} (ht : ∀ v, .scalar v ∈ ts → isScalar v = true)
    {s s' : State} (hs : s.HasDistinctKeys) (h : ts.foldlM advance s = some s') :
    s'.tally k ≤ tallyTokens k ts + s.tally k := by
  induction ts generalizing s with
  | nil =>
    cases h
    simp
  | cons t ts ih =>
    rw [List.foldlM_cons] at h
    obtain ⟨s₁, h₁, h⟩ := Option.bind_eq_some_iff.mp h
    obtain ⟨hle, hkeys⟩ := advance_tally (k := k)
      (fun v hv => ht v (hv ▸ List.mem_cons_self)) hs h₁
    have hrest := ih (fun v hv => ht v (List.mem_cons_of_mem _ hv)) hkeys h
    rw [tallyTokens_cons]
    omega

end State

/-- Tokens that spell a value hold a character at least as often as the value. -/
theorem Spells.tally_le {ts : List Token} {v : Value} (h : Spells ts v)
    (ht : ∀ v, .scalar v ∈ ts → isScalar v = true) (k : Char) :
    tallyValue k v ≤ tallyTokens k ts := by
  have hstart : (State.item false []).HasDistinctKeys := by
    intro frame hframe
    cases hframe
  have hle := State.foldlM_tally (k := k) ht hstart h
  simpa [State.tally, State.tallyStack] using hle

end Json

end AntennaArray
