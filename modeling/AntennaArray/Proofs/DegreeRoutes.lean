import AntennaArray.Proofs.PanelSettings

/-!
# Two ways to give angles in degrees

A panel takes its bearing and its downtilt in degrees from a call or from an entry of a file. The
entry requires numbers, the call takes whatever converts to a double: truth is a degree, and a text
is read. `routesAgree_iff` says for which values the two agree nevertheless.
-/

namespace AntennaArray

namespace Value

def IsNumber (v : Value) : Prop := ∃ n, v = .number n

/-- What is no list stands for itself. -/
theorem coerceDouble_of_ne_list {v : Value} (h : ∀ items, v ≠ .list items) :
    v.coerceDouble = v.leafDouble := by
  cases v with
  | list items => exact absurd rfl (h items)
  | _ => simp [coerceDouble, isRagged, shape?, Tensor.axisLimit]

/-- A number converts where it can be required, to its nearest double. -/
theorem coerceDouble_number (name : Text) (n : Number) :
    (Value.number n).coerceDouble
      = (Arguments.requireNumber name (.number n) []).map Number.toDouble := by
  rw [coerceDouble_of_ne_list (by simp), leafDouble, Arguments.requireNumber]
  cases hn : n.toDouble? with
  | none => rfl
  | some x => simp [Except.map, Number.toDouble_of_toDouble? hn]

theorem not_isRefused_leafDouble (v : Value) : ¬IsRefused v.leafDouble := by
  rintro ⟨m, hm⟩
  cases v with
  | null | bool | list | object => cases hm
  | number n =>
    rw [leafDouble] at hm
    split at hm <;> cases hm
  | text s =>
    rw [leafDouble] at hm
    split at hm <;> cases hm

/-- What does not convert is not reported as a wrong configuration. -/
theorem not_isRefused_coerceDouble (v : Value) : ¬IsRefused v.coerceDouble := by
  have hleaves (vs : List Value) : ¬IsRefused (vs.mapM leafDouble) := by
    rintro ⟨m, hm⟩
    rw [← void_eq_error, void_mapM] at hm
    obtain ⟨u, -, hu⟩ := exists_of_checkAll_eq_error hm
    exact not_isRefused_leafDouble u ⟨m, void_eq_error.mp hu⟩
  have hfault {α : Type} {f : Fault} (hf : f.isMisfit = false) :
      ¬IsRefused (.error f : Attempt α) := by
    rintro ⟨m, hm⟩
    cases hm
    cases hf
  cases v with
  | list items =>
    rw [coerceDouble]
    split
    · exact hfault rfl
    · simp only [isRefused_bind]
      rintro (h | ⟨-, -, h⟩)
      · exact hleaves _ h
      · exact hfault rfl h
  | _ =>
    rw [coerceDouble_of_ne_list (by simp)]
    exact not_isRefused_leafDouble _

end Value

namespace Panel

/-- Arguments that give both angles in degrees. -/
def inDegrees (a b : Value) : Arguments := [("bearing_deg", a), ("downtilt_deg", b)]

/-- The panel that is turned by some degrees, otherwise as it is by default. -/
def turned (x y : Float) : Attempt (Panel Float) :=
  construct [("bearing", .number (.double (Angle.toRadians x))),
    ("downtilt", .number (.double (Angle.toRadians y)))]

def InRange (x y : Float) : Prop :=
  Requirement.bearing.holds (Angle.toRadians x) = true ∧
    Requirement.downtilt.holds (Angle.toRadians y) = true

theorem ofDegrees_inDegrees (a b : Value) :
    ofDegrees (inDegrees a b)
      = a.coerceDouble >>= fun x => b.coerceDouble >>= fun y => turned x y := by
  have hsetting {name : Text} {v : Value} (h : (inDegrees a b).lookup name = some v) :
      degreeSetting (inDegrees a b) name
        = v.coerceDouble >>= fun x => .ok (.number (.double (Angle.toRadians x))) := by
    rw [degreeSetting, h]
    rfl
  have hscreen : (inDegrees a b).screen (title ++ ".from_degrees") "cls" degreeNames = .ok () := rfl
  rw [ofDegrees, hscreen, ok_bind, hsetting rfl, hsetting rfl]
  simp only [bind_assoc, ok_bind]
  rfl

theorem turned_eq (x y : Float) :
    turned x y = Arguments.requireNumber "bearing" (.number (.double (Angle.toRadians x)))
        [.bearing] >>= fun n =>
      Arguments.requireNumber "downtilt" (.number (.double (Angle.toRadians y)))
        [.downtilt] >>= fun m =>
      .ok { standard with bearing := n.toDouble, downtilt := m.toDouble } := by
  rfl

/-- A panel is turned where both angles are in their ranges. -/
theorem exists_turned_eq_ok {x y : Float} : (∃ p, turned x y = .ok p) ↔ InRange x y := by
  have hread {name : Text} {z : Float} {r : Requirement} {n : Number} :
      Arguments.requireNumber name (.number (.double z)) [r] = .ok n ↔
        n = .double z ∧ r.holds z = true := by
    rw [Arguments.requireNumber_eq_ok_iff, Value.number.injEq]
    constructor
    · rintro ⟨rfl, hfits⟩
      exact ⟨rfl, hfits.holds r (List.mem_singleton.mpr rfl)⟩
    · rintro ⟨rfl, hholds⟩
      exact ⟨rfl, z, rfl, List.forall_mem_singleton.mpr hholds⟩
  rw [turned_eq]
  constructor
  · rintro ⟨p, h⟩
    obtain ⟨n, hn, h⟩ := exists_of_bind_eq_ok h
    obtain ⟨m, hm, -⟩ := exists_of_bind_eq_ok h
    exact ⟨(hread.mp hn).2, (hread.mp hm).2⟩
  · rintro ⟨hbearing, hdowntilt⟩
    rw [hread.mpr ⟨rfl, hbearing⟩, ok_bind, hread.mpr ⟨rfl, hdowntilt⟩, ok_bind]
    exact ⟨_, rfl⟩

/-- Turning a panel too far is refused. -/
theorem isRefused_turned {x y : Float} : IsRefused (turned x y) ↔ ¬InRange x y := by
  have hescapes : ¬Escapes (turned x y) := by
    simp [turned_eq, escapes_bind, Arguments.escapes_requireNumber]
  rw [← exists_turned_eq_ok]
  rcases outcome (turned x y) with ⟨p, hp⟩ | hrefused | hescaping
  · rw [hp]
    simp
  · obtain ⟨m, hm⟩ := hrefused
    simp [hm, IsRefused]
  · exact absurd hescaping hescapes

/-- A panel that is turned is valid. -/
theorem isValid_turned {x y : Float} {p : Panel Float} (h : turned x y = .ok p) : p.IsValid := by
  obtain ⟨-, -, h⟩ := exists_of_bind_eq_ok h
  exact isValid_assemble isValid_standard h

end Panel

namespace Design

open Panel

theorem ofEntry_inDegrees (a b : Value) :
    ofEntry (.object (inDegrees a b))
      = Arguments.requireNumber "bearing_deg" a [] >>= fun n =>
        Arguments.requireNumber "downtilt_deg" b [] >>= fun m =>
        turned n.toDouble m.toDouble >>= fun p => .ok ⟨p, .isotropic⟩ := by
  have hfields : settingFields (inDegrees a b) = inDegrees a b := rfl
  have hbearing : setting "bearing_deg" a = _ := setting_degreeName .bearing a
  have hdowntilt : setting "downtilt_deg" b = _ := setting_degreeName .downtilt b
  rw [ofEntry_object, panelOf, hfields, settings]
  simp only [inDegrees, List.foldlM_cons, List.foldlM_nil, hbearing, hdowntilt, bind_assoc, ok_bind]
  rfl

/-- The two ways to give both angles in degrees accept equal panels, refuse together, and accept
nothing that is no number. -/
structure RoutesAgree (a b : Value) : Prop where
  alike : Alike (fun p d => p.equals d.panel = true) (ofDegrees (inDegrees a b))
    (ofEntry (.object (inDegrees a b)))
  isRefused_iff : IsRefused (ofDegrees (inDegrees a b)) ↔
    IsRefused (ofEntry (.object (inDegrees a b)))
  isNumber : ((∃ p, ofDegrees (inDegrees a b) = .ok p) ∨
    ∃ d, ofEntry (.object (inDegrees a b)) = .ok d) → a.IsNumber ∧ b.IsNumber

variable {a b : Value}

/-- For numbers the entry is the call, with an element that is isotropic. -/
theorem ofEntry_inDegrees_of_isNumber (ha : a.IsNumber) (hb : b.IsNumber) :
    ofEntry (.object (inDegrees a b))
      = ofDegrees (inDegrees a b) >>= fun p => .ok ⟨p, .isotropic⟩ := by
  obtain ⟨n, rfl⟩ := ha
  obtain ⟨m, rfl⟩ := hb
  rw [ofEntry_inDegrees, ofDegrees_inDegrees, Value.coerceDouble_number "bearing_deg",
    Value.coerceDouble_number "downtilt_deg"]
  cases hn : Arguments.requireNumber "bearing_deg" (.number n) [] with
  | error f => rfl
  | ok n' =>
    obtain ⟨hn', -⟩ := Arguments.requireNumber_eq_ok_iff.mp hn
    cases hn'
    cases hm : Arguments.requireNumber "downtilt_deg" (.number m) [] with
    | error f => rfl
    | ok m' => rfl

/-- An entry with something else in it is refused, unless the bearing is an integer that is too
large. -/
theorem isRefused_ofEntry_inDegrees (hnumbers : ¬(a.IsNumber ∧ b.IsNumber))
    (hlarge : ¬∃ n, a = .number (.integer n) ∧ IsTooLarge n) :
    IsRefused (ofEntry (.object (inDegrees a b))) := by
  have hother {name : Text} {v : Value} (hv : ¬v.IsNumber) :
      IsRefused (Arguments.requireNumber name v []) := by
    cases v with
    | number n => exact absurd ⟨n, rfl⟩ hv
    | _ => exact ⟨_, rfl⟩
  rw [ofEntry_inDegrees, isRefused_bind]
  rcases outcome (Arguments.requireNumber "bearing_deg" a []) with ⟨n, hn⟩ | hrefused | hescapes
  · have ha : a.IsNumber := ⟨n, Arguments.requireNumber_eq_ok hn⟩
    refine .inr ⟨n, hn, isRefused_bind.mpr (.inl (hother ?_))⟩
    exact fun hb => hnumbers ⟨ha, hb⟩
  · exact .inl hrefused
  · exact absurd (Arguments.escapes_requireNumber.mp hescapes) hlarge

/-- Attempts that both fail agree where both are refused or neither is. -/
theorem routesAgree_of_not_ok (hcall : ∀ p, ofDegrees (inDegrees a b) ≠ .ok p)
    (hentry : ∀ d, ofEntry (.object (inDegrees a b)) ≠ .ok d)
    (hrefused : IsRefused (ofDegrees (inDegrees a b)) ↔
      IsRefused (ofEntry (.object (inDegrees a b)))) : RoutesAgree a b where
  alike := .of_not_ok hcall hentry
  isRefused_iff := hrefused
  isNumber := by
    rintro (⟨p, hp⟩ | ⟨d, hd⟩)
    · exact absurd hp (hcall p)
    · exact absurd hd (hentry d)

theorem routesAgree_of_isNumber (ha : a.IsNumber) (hb : b.IsNumber) : RoutesAgree a b where
  alike := by
    rw [ofEntry_inDegrees_of_isNumber ha hb]
    cases hp : ofDegrees (inDegrees a b) with
    | error f => exact .error f f
    | ok p =>
      rw [ofDegrees_inDegrees] at hp
      obtain ⟨x, -, hp⟩ := exists_of_bind_eq_ok hp
      obtain ⟨y, -, hp⟩ := exists_of_bind_eq_ok hp
      exact .ok (isValid_turned hp).equals_self
  isRefused_iff := by
    rw [ofEntry_inDegrees_of_isNumber ha hb, isRefused_bind]
    simp
  isNumber _ := ⟨ha, hb⟩

theorem requireNumber_of_isTooLarge {n : Int} (h : IsTooLarge n) (name : Text) :
    Arguments.requireNumber name (.number (.integer n)) [] = .error .integerTooLarge := by
  rw [IsTooLarge] at h
  rw [Arguments.requireNumber, h]

/-- A bearing beyond all doubles fails both ways, before anything is judged. -/
theorem routesAgree_of_isTooLarge {n : Int} (h : IsTooLarge n) (b : Value) :
    RoutesAgree (.number (.integer n)) b := by
  have hcall : ofDegrees (inDegrees (.number (.integer n)) b) = .error .integerTooLarge := by
    rw [ofDegrees_inDegrees, Value.coerceDouble_number "bearing_deg",
      requireNumber_of_isTooLarge h]
    rfl
  have hentry : ofEntry (.object (inDegrees (.number (.integer n)) b))
      = .error .integerTooLarge := by
    rw [ofEntry_inDegrees, requireNumber_of_isTooLarge h]
    rfl
  refine routesAgree_of_not_ok ?_ ?_ ?_
  · simp [hcall]
  · simp [hentry]
  · simp [hcall, hentry, IsRefused]

/-- The two ways agree exactly for numbers, for a bearing that is an integer beyond all doubles, and
for values that convert to angles out of range. -/
theorem routesAgree_iff (a b : Value) :
    RoutesAgree a b ↔ (a.IsNumber ∧ b.IsNumber) ∨
      (∃ n, a = .number (.integer n) ∧ IsTooLarge n) ∨
      ∃ x y, a.coerceDouble = .ok x ∧ b.coerceDouble = .ok y ∧ ¬InRange x y := by
  have hcall : IsRefused (ofDegrees (inDegrees a b)) ↔
      ∃ x y, a.coerceDouble = .ok x ∧ b.coerceDouble = .ok y ∧ ¬InRange x y := by
    simp [ofDegrees_inDegrees, isRefused_bind, Value.not_isRefused_coerceDouble, isRefused_turned]
  constructor
  · intro hagree
    by_cases hnumbers : a.IsNumber ∧ b.IsNumber
    · exact .inl hnumbers
    · by_cases hbearing : ∃ n, a = .number (.integer n) ∧ IsTooLarge n
      · exact .inr (.inl hbearing)
      · have hrefused := isRefused_ofEntry_inDegrees hnumbers hbearing
        exact .inr (.inr (hcall.mp (hagree.isRefused_iff.mpr hrefused)))
  · rintro (⟨ha, hb⟩ | ⟨n, rfl, hn⟩ | hconverts)
    · exact routesAgree_of_isNumber ha hb
    · exact routesAgree_of_isTooLarge hn b
    · by_cases hnumbers : a.IsNumber ∧ b.IsNumber
      · exact routesAgree_of_isNumber hnumbers.1 hnumbers.2
      · have hcallRefused := hcall.mpr hconverts
        have hentryRefused : IsRefused (ofEntry (.object (inDegrees a b))) := by
          refine isRefused_ofEntry_inDegrees hnumbers ?_
          rintro ⟨n, rfl, hn⟩
          obtain ⟨x, -, hx, -⟩ := hconverts
          rw [Value.coerceDouble_number "bearing_deg", requireNumber_of_isTooLarge hn] at hx
          cases hx
        exact routesAgree_of_not_ok (not_ok_of_isRefused hcallRefused)
          (not_ok_of_isRefused hentryRefused) (iff_of_true hcallRefused hentryRefused)

/-- The two ways do not always agree: a call takes truth for a degree. -/
theorem not_routesAgree : ¬∀ a b, RoutesAgree a b := by
  intro h
  have hrange : InRange 1 (Binary64.ofInt 0) := ⟨by decide +kernel, by decide +kernel⟩
  obtain ⟨p, hp⟩ := exists_turned_eq_ok.mpr hrange
  have hcall : ofDegrees (inDegrees (.bool true) (.number (.integer 0))) = .ok p := by
    have hzero : (Number.integer 0).toDouble? = some (Binary64.ofInt 0) := by
      rw [Number.toDouble?]
      exact if_neg (by decide +kernel)
    rw [ofDegrees_inDegrees, Value.coerceDouble_of_ne_list (by simp),
      Value.coerceDouble_of_ne_list (by simp), Value.leafDouble, Value.leafDouble, hzero]
    exact hp
  obtain ⟨⟨n, hn⟩, -⟩ := (h _ _).isNumber (.inl ⟨p, hcall⟩)
  cases hn

end Design

end AntennaArray
