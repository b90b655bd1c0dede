import AntennaArray.Json.Relaxed
import AntennaArray.Proofs.Json.Lexeme

/-!
# Fields as a text lists them

The text of an object lists its fields one after another, and it may name one of them several times.
Only some of the fields count, those of `effective`: each name stands at its first place and has its
last value. Every text of an object lists some fields (`Spells.exists_lists`), and whatever fields
it lists, those that count are read (`Lists.eq_object`). Both follow from what happens above an open
list or object (`State.under`): a value is read there from the tokens that spell it.
-/

namespace AntennaArray.Json

/-! ## Fields that count -/

/-- The last field with a name. -/
def lastNamed? (fields : List (Text × Value)) (name : Text) : Option (Text × Value) :=
  fields.reverse.find? (·.1 == name)

/-- The fields that count among some in which a name may be repeated: each name at its first place,
with its last value. -/
def effective (fields : List (Text × Value)) : List (Text × Value) :=
  (fields.map Prod.fst).eraseDups.filterMap (lastNamed? fields)

section

variable {fields : List (Text × Value)} {name : Text}

theorem lastNamed?_append_singleton (fields : List (Text × Value)) (f : Text × Value)
    (name : Text) :
    lastNamed? (fields ++ [f]) name = if f.1 = name then some f else lastNamed? fields name := by
  rw [lastNamed?, List.reverse_append, List.reverse_singleton, List.singleton_append,
    List.find?_cons]
  by_cases h : f.1 = name
  · simp [h]
  · simp only [beq_eq_false_iff_ne.mpr h, if_neg h]
    rfl

/-- Each name that is there has a last field. -/
theorem exists_lastNamed? (h : name ∈ fields.map Prod.fst) :
    ∃ v, lastNamed? fields name = some (name, v) := by
  obtain ⟨f, hf, rfl⟩ := List.mem_map.mp h
  cases hlast : lastNamed? fields f.1 with
  | none =>
    have hnone := List.find?_eq_none.mp hlast f (List.mem_reverse.mpr hf)
    simp at hnone
  | some g =>
    have hname : g.1 = f.1 := by simpa using List.find?_some hlast
    exact ⟨g.2, by rw [← hname]⟩

/-- The names that count are those that are there, in the order of their first places. -/
theorem map_fst_effective (fields : List (Text × Value)) :
    (effective fields).map Prod.fst = (fields.map Prod.fst).eraseDups := by
  have hname : ∀ name ∈ (fields.map Prod.fst).eraseDups,
      (lastNamed? fields name).map Prod.fst = some name := by
    intro name h
    obtain ⟨v, hv⟩ := exists_lastNamed? (List.mem_eraseDups.mp h)
    rw [hv]
    rfl
  rw [effective, List.map_filterMap, List.filterMap_congr hname, List.filterMap_some]

/-- One more field is set among those that count. -/
theorem effective_append_singleton (fields : List (Text × Value)) (name : Text) (v : Value) :
    effective (fields ++ [(name, v)]) = Value.setField (effective fields) name v := by
  have hany : (effective fields).any (·.1 == name) = true ↔ name ∈ fields.map Prod.fst := by
    rw [← List.mem_eraseDups, ← map_fst_effective]
    simp
  have hnames : ((fields ++ [(name, v)]).map Prod.fst).eraseDups
      = (fields.map Prod.fst).eraseDups ++ ([name].removeAll (fields.map Prod.fst)).eraseDups := by
    rw [List.map_append, List.eraseDups_append]
    rfl
  rw [effective, hnames, Value.setField]
  by_cases h : name ∈ fields.map Prod.fst
  · have hold : [name].removeAll (fields.map Prod.fst) = [] := by simp [List.removeAll, h]
    rw [if_pos (hany.mpr h), hold, List.eraseDups_nil, List.append_nil, effective,
      List.map_filterMap]
    refine List.filterMap_congr fun key hkey => ?_
    obtain ⟨w, hw⟩ := exists_lastNamed? (List.mem_eraseDups.mp hkey)
    rw [lastNamed?_append_singleton, hw]
    by_cases heq : name = key
    · simp [heq]
    · simp [heq, Ne.symm heq]
  · have hnew : [name].removeAll (fields.map Prod.fst) = [name] := by simp [List.removeAll, h]
    have hkept : ∀ key ∈ (fields.map Prod.fst).eraseDups,
        lastNamed? (fields ++ [(name, v)]) key = lastNamed? fields key := by
      intro key hkey
      have hne : name ≠ key := fun heq => h (heq ▸ List.mem_eraseDups.mp hkey)
      rw [lastNamed?_append_singleton, if_neg hne]
    have hlast : [name].filterMap (lastNamed? (fields ++ [(name, v)])) = [(name, v)] := by
      simp [lastNamed?_append_singleton]
    have hsingle : [name].eraseDups = [name] := by simp [List.eraseDups_cons]
    rw [if_neg (mt hany.mp h), hnew, hsingle, List.filterMap_append, List.filterMap_congr hkept,
      hlast, effective]

/-- Fields that are set one after another leave those that count. -/
theorem foldl_setField (fields : List (Text × Value)) :
    fields.foldl (fun known f => Value.setField known f.1 f.2) [] = effective fields := by
  induction fields using List.reverseRecOn with
  | nil => rfl
  | append_singleton fields f ih =>
    rw [List.foldl_append, ih, List.foldl_cons, List.foldl_nil, effective_append_singleton]

end

/-! ## Above open lists and objects -/

namespace State

/-- The state with some more lists and objects open around it. -/
def under (base : List Frame) : State → State
  | .item opened stack => .item opened (stack ++ base)
  | .key opened fields stack => .key opened fields (stack ++ base)
  | .colon fields name stack => .colon fields name (stack ++ base)
  | .separator frame stack => .separator frame (stack ++ base)
  | .done v => complete v base

theorem complete_append (v : Value) (stack base : List Frame) :
    complete v (stack ++ base) = (complete v stack).under base := by
  cases stack with
  | nil => rfl
  | cons frame stack => cases frame <;> rfl

/-- A value starts in the same way with fewer lists and objects open around it. -/
theorem exists_startValue_of_append {stack base : List Frame} {t : Token} {s' : State}
    (h : (startValue (stack ++ base) ⟨0, t⟩).toOption = some s') :
    ∃ s, (startValue stack ⟨0, t⟩).toOption = some s ∧ s' = s.under base := by
  cases t with
  | scalar v =>
    cases h
    exact ⟨_, rfl, complete_append v stack base⟩
  | text s =>
    cases h
    exact ⟨_, rfl, complete_append (.text s) stack base⟩
  | openList | openObject =>
    simp only [startValue, List.length_append] at h ⊢
    split at h
    · next hlimit =>
      cases h
      rw [if_pos (by omega)]
      exact ⟨_, rfl, rfl⟩
    · cases h
  | _ => cases h

/-- Until a value is complete, a token does the same with fewer lists and objects open around it. -/
theorem exists_advance_of_under {s s' : State} {base : List Frame} {t : Token}
    (hs : ∀ v, s ≠ .done v) (h : (s.under base).advance t = some s') :
    ∃ r, s.advance t = some r ∧ s' = r.under base := by
  cases s with
  | item opened stack =>
    cases opened with
    | false => exact exists_startValue_of_append h
    | true =>
      have hvalue : (startValue ((.list [] :: stack) ++ base) ⟨0, t⟩).toOption = some s' →
          ∃ r, (startValue (.list [] :: stack) ⟨0, t⟩).toOption = some r ∧ s' = r.under base :=
        exists_startValue_of_append
      cases t with
      | closeList =>
        cases h
        exact ⟨_, rfl, complete_append _ stack base⟩
      | _ => exact hvalue h
  | key opened fields stack =>
    cases t with
    | text name => cases opened <;> cases h <;> exact ⟨_, rfl, rfl⟩
    | closeObject =>
      cases opened with
      | false => cases h
      | true =>
        cases h
        exact ⟨_, rfl, complete_append _ stack base⟩
    | _ => cases opened <;> cases h
  | colon fields name stack =>
    cases t with
    | colon =>
      cases h
      exact ⟨_, rfl, rfl⟩
    | _ => cases h
  | separator frame stack =>
    cases frame with
    | list items =>
      cases t with
      | comma =>
        cases h
        exact ⟨_, rfl, rfl⟩
      | closeList =>
        cases h
        exact ⟨_, rfl, complete_append _ stack base⟩
      | _ => cases h
    | object fields name =>
      cases t with
      | comma =>
        cases h
        exact ⟨_, rfl, rfl⟩
      | closeObject =>
        cases h
        exact ⟨_, rfl, complete_append _ stack base⟩
      | _ => cases h
  | done v => exact absurd rfl (hs v)

/-- Nothing comes after the whole value. -/
theorem eq_nil_of_foldlM_done {ts : List Token} {v w : Value}
    (h : ts.foldlM advance (.done v) = some (.done w)) : ts = [] ∧ v = w := by
  cases ts with
  | nil =>
    cases h
    exact ⟨rfl, rfl⟩
  | cons t ts =>
    rw [List.foldlM_cons] at h
    obtain ⟨s, hs, -⟩ := Option.bind_eq_some_iff.mp h
    cases hs

/-- The tokens of a value are read above open lists and objects too, if what comes first there
is. -/
theorem foldlM_complete_of_under {ts us : List Token} {s s' : State} {base : List Frame} {v : Value}
    (hv : ts.foldlM advance s = some (.done v))
    (h : (ts ++ us).foldlM advance (s.under base) = some s') :
    us.foldlM advance (complete v base) = some s' := by
  induction ts generalizing s with
  | nil =>
    cases hv
    exact h
  | cons t ts ih =>
    rw [List.foldlM_cons] at hv
    rw [List.cons_append, List.foldlM_cons] at h
    obtain ⟨r, hr, hv⟩ := Option.bind_eq_some_iff.mp hv
    obtain ⟨r', hr', h⟩ := Option.bind_eq_some_iff.mp h
    have hs : ∀ w, s ≠ .done w := by
      rintro w rfl
      cases hr
    obtain ⟨r'', hr'', rfl⟩ := exists_advance_of_under hs hr'
    rw [hr] at hr''
    cases hr''
    exact ih hv h

/-- Before a list or an object is closed, the value that has been begun above it is complete. -/
theorem exists_complete_of_under {ts : List Token} {s : State} {frame : Frame} {base : List Frame}
    {w : Value} (h : ts.foldlM advance (s.under (frame :: base)) = some (.done w)) :
    ∃ us vs v, ts = us ++ vs ∧ us.foldlM advance s = some (.done v) ∧
      vs.foldlM advance (complete v (frame :: base)) = some (.done w) := by
  induction ts generalizing s with
  | nil =>
    cases s with
    | done v => exact ⟨[], [], v, rfl, rfl, h⟩
    | _ => cases h
  | cons t ts ih =>
    by_cases hs : ∃ v, s = .done v
    · obtain ⟨v, rfl⟩ := hs
      exact ⟨[], t :: ts, v, rfl, rfl, h⟩
    · rw [List.foldlM_cons] at h
      obtain ⟨s', hs', h⟩ := Option.bind_eq_some_iff.mp h
      obtain ⟨r, hr, rfl⟩ := exists_advance_of_under (fun v hv => hs ⟨v, hv⟩) hs'
      obtain ⟨us, vs, v, rfl, hus, hvs⟩ := ih h
      refine ⟨t :: us, vs, v, rfl, ?_, hvs⟩
      rw [List.foldlM_cons, hr]
      exact hus

end State

/-! ## Lists of fields -/

/-- The tokens list the fields, with commas between them, up to the bracket that closes the
object. -/
inductive ListsFields : List Token → List (Text × Value) → Prop
  | last {name : Text} {v : Value} {ts : List Token} (value : Spells ts v) :
      ListsFields (.text name :: .colon :: (ts ++ [.closeObject])) [(name, v)]
  | next {name : Text} {v : Value} {ts us : List Token} {fields : List (Text × Value)}
      (value : Spells ts v) (rest : ListsFields us fields) :
      ListsFields (.text name :: .colon :: (ts ++ .comma :: us)) ((name, v) :: fields)

/-- The tokens are those of an object that lists the fields, whether names are repeated or not. -/
inductive Lists : List Token → List (Text × Value) → Prop
  | empty : Lists [.openObject, .closeObject] []
  | fields {ts : List Token} {fields : List (Text × Value)} (h : ListsFields ts fields) :
      Lists (.openObject :: ts) fields

namespace State

/-- A name and a colon lead to a value above the open object. -/
theorem foldlM_field {opened : Bool} {known : List (Text × Value)} {name : Text} {ts : List Token}
    {s : State} (h : (.text name :: .colon :: ts).foldlM advance (.key opened known []) = some s) :
    ts.foldlM advance ((item false []).under [.object known name]) = some s := by
  cases opened <;> exact h

/-- Listed fields are set one after another. -/
theorem foldlM_listsFields {ts : List Token} {fields : List (Text × Value)}
    (hts : ListsFields ts fields) {opened : Bool} {known : List (Text × Value)} {w : Value}
    (h : ts.foldlM advance (.key opened known []) = some (.done w)) :
    w = .object (fields.foldl (fun known f => Value.setField known f.1 f.2) known) := by
  induction hts generalizing opened known with
  | last value =>
    have hclosed := foldlM_complete_of_under value (foldlM_field h)
    cases hclosed
    rfl
  | next value rest ih => exact ih (foldlM_complete_of_under value (foldlM_field h))

/-- Where a name may stand, a new object is closed or a field comes. -/
theorem exists_field {ts : List Token} {opened : Bool} {known : List (Text × Value)} {w : Value}
    (h : ts.foldlM advance (.key opened known []) = some (.done w)) :
    (opened = true ∧ ts = [.closeObject]) ∨ ∃ name us vs v,
      ts = .text name :: .colon :: (us ++ vs) ∧ Spells us v ∧ vs.foldlM advance
        (.separator (.object (Value.setField known name v) name) []) = some (.done w) := by
  cases ts with
  | nil => cases h
  | cons t ts =>
    cases t with
    | closeObject =>
      cases opened with
      | false => cases h
      | true =>
        obtain ⟨rfl, -⟩ := eq_nil_of_foldlM_done (v := .object known) h
        exact .inl ⟨rfl, rfl⟩
    | text name =>
      cases ts with
      | nil => cases opened <;> cases h
      | cons u ts =>
        cases u with
        | colon =>
          obtain ⟨us, vs, v, rfl, hus, hvs⟩ := exists_complete_of_under (foldlM_field h)
          exact .inr ⟨name, us, vs, v, rfl, hus, hvs⟩
        | _ => cases opened <;> cases h
    | _ => cases opened <;> cases h

/-- What is read up to the end of an object either closes it at once or lists fields. -/
theorem exists_listsFields {ts : List Token} {opened : Bool} {known : List (Text × Value)}
    {w : Value} (h : ts.foldlM advance (.key opened known []) = some (.done w)) :
    (opened = true ∧ ts = [.closeObject]) ∨ ∃ fields, ListsFields ts fields := by
  induction hlength : ts.length using Nat.strong_induction_on generalizing ts opened known with
  | _ n ih =>
    subst hlength
    rcases exists_field h with hclosed | ⟨name, us, vs, v, rfl, hus, hvs⟩
    · exact .inl hclosed
    · right
      cases vs with
      | nil => cases hvs
      | cons t vs =>
        cases t with
        | comma =>
          -- no object is closed directly after a comma
          have hrest : vs.foldlM advance (.key false (Value.setField known name v) [])
              = some (.done w) := hvs
          have hless : vs.length
              < (Token.text name :: .colon :: (us ++ Token.comma :: vs)).length := by
            simp only [List.length_append, List.length_cons]
            omega
          rcases ih vs.length hless hrest rfl with ⟨hopened, -⟩ | ⟨fields, hfields⟩
          · cases hopened
          · exact ⟨_, .next hus hfields⟩
        | closeObject =>
          have hdone : vs.foldlM advance (.done (.object (Value.setField known name v)))
              = some (.done w) := hvs
          obtain ⟨rfl, -⟩ := eq_nil_of_foldlM_done hdone
          exact ⟨_, .last hus⟩
        | _ => cases hvs

/-- A list that has been begun is completed as a list. -/
theorem eq_list_of_foldlM_separator {ts : List Token} {items : List Value} {w : Value}
    (h : ts.foldlM advance (.separator (.list items) []) = some (.done w)) : ∃ l, w = .list l := by
  induction hlength : ts.length using Nat.strong_induction_on generalizing ts items with
  | _ n ih =>
    subst hlength
    cases ts with
    | nil => cases h
    | cons t ts =>
      cases t with
      | comma =>
        have hitem : ts.foldlM advance ((item false []).under [.list items]) = some (.done w) := h
        obtain ⟨us, vs, v, rfl, -, hvs⟩ := exists_complete_of_under hitem
        have hless : vs.length < (Token.comma :: (us ++ vs)).length := by
          simp only [List.length_append, List.length_cons]
          omega
        exact ih vs.length hless hvs rfl
      | closeList =>
        have hdone : ts.foldlM advance (.done (.list items.reverse)) = some (.done w) := h
        exact ⟨_, (eq_nil_of_foldlM_done hdone).2.symm⟩
      | _ => cases h

/-- What starts as a list is a list. -/
theorem eq_list_of_foldlM_item {ts : List Token} {w : Value}
    (h : ts.foldlM advance (.item true []) = some (.done w)) : ∃ l, w = .list l := by
  cases ts with
  | nil => cases h
  | cons t ts =>
    have hvalue : (t :: ts).foldlM advance ((item false []).under [.list []]) = some (.done w) →
        ∃ l, w = .list l := by
      intro hitem
      obtain ⟨us, vs, v, -, -, hvs⟩ := exists_complete_of_under hitem
      exact eq_list_of_foldlM_separator hvs
    cases t with
    | closeList =>
      have hdone : ts.foldlM advance (.done (.list [])) = some (.done w) := h
      exact ⟨_, (eq_nil_of_foldlM_done hdone).2.symm⟩
    | _ => exact hvalue h

end State

/-! ## Objects -/

/-- Of the fields that are listed those that count are read. -/
theorem Lists.eq_object {ts : List Token} {fields : List (Text × Value)} {w : Value}
    (hts : Lists ts fields) (h : Spells ts w) : w = .object (effective fields) := by
  cases hts with
  | empty =>
    cases h
    rfl
  | @fields ts fields hfields =>
    have hkey : ts.foldlM State.advance (.key true [] []) = some (.done w) := h
    rw [← foldl_setField]
    exact State.foldlM_listsFields hfields hkey

/-- The tokens of an object list some fields. -/
theorem Spells.exists_lists {ts : List Token} {fields : List (Text × Value)}
    (h : Spells ts (.object fields)) (hscalar : ∀ v, .scalar v ∈ ts → isScalar v = true) :
    ∃ listed, Lists ts listed := by
  cases ts with
  | nil => cases h
  | cons t ts =>
    cases t with
    | openObject =>
      have hkey : ts.foldlM State.advance (.key true [] []) = some (.done (.object fields)) := h
      rcases State.exists_listsFields hkey with ⟨-, rfl⟩ | ⟨listed, hlisted⟩
      · exact ⟨[], .empty⟩
      · exact ⟨listed, .fields hlisted⟩
    | openList =>
      obtain ⟨l, hl⟩ := State.eq_list_of_foldlM_item h
      cases hl
    | scalar v =>
      have hdone : ts.foldlM State.advance (.done v) = some (.done (.object fields)) := h
      obtain ⟨-, rfl⟩ := State.eq_nil_of_foldlM_done hdone
      cases hscalar _ List.mem_cons_self
    | text s =>
      have hdone : ts.foldlM State.advance (.done (.text s)) = some (.done (.object fields)) := h
      cases (State.eq_nil_of_foldlM_done hdone).2
    | _ => cases h

/-- Without its comments and trailing commas, the text is that of an object that lists the
fields. -/
def IsListing (text : Text) (fields : List (Text × Value)) : Prop :=
  Lists (spelled (plain text)) fields

/-- Of the fields that a text lists those that count are read. -/
theorem IsListing.eq_object {text : Text} {fields : List (Text × Value)} {v : Value}
    (h : IsListing text fields) (hv : readRelaxed text = .ok v) : v = .object (effective fields) :=
  Lists.eq_object h (read_eq_ok_iff.mp hv)

/-- The text of an object lists some fields. -/
theorem exists_isListing {text : Text} {fields : List (Text × Value)}
    (h : readRelaxed text = .ok (.object fields)) : ∃ listed, IsListing text listed := by
  have hspells := read_eq_ok_iff.mp h
  exact hspells.exists_lists fun _ => hspells.isScalar_of_mem

end AntennaArray.Json
