import AntennaArray.Proofs.Parameters

/-!
# Making an element from a description

An element is made in three steps: its model must know every argument, the parameters are read in
their order, and a cosine pattern needs an exponent for both of its beamwidths. The second step
escapes for an integer that is too large, the third for a beamwidth that is too small; the first is
always refused.
-/

namespace AntennaArray

namespace Arguments

variable {callee own : String} {known : List String} {args : Arguments}

/-- Arguments pass where each of them is known. -/
theorem screen_eq_ok :
    args.screen callee own known = .ok () ↔ ∀ a ∈ args, ∃ n ∈ known, a.1 = Text.ofString n := by
  have hnone : (args.find? fun a => !known.any (a.1 == Text.ofString ·)) = none ↔
      ∀ a ∈ args, ∃ n ∈ known, a.1 = Text.ofString n := by
    simp [List.find?_eq_none]
  rw [← hnone]
  rw [screen]
  split
  · next h => simp [h]
  · next name v h =>
    rw [h]
    split <;> simp

/-- An argument that does not pass is a fault of the call. -/
theorem exists_of_screen_eq_error {f : Fault} (h : args.screen callee own known = .error f) :
    ∃ c, f = .call c := by
  rw [screen] at h
  split at h
  · cases h
  · split at h
    · cases h
      exact ⟨_, rfl⟩
    · cases h
      exact ⟨_, rfl⟩

end Arguments

namespace Parameter

/-- A parameter that is not accepted is no fault of the call. -/
theorem check_ne_call {args : Arguments} {p : Parameter} {c : CallFault} :
    p.check args ≠ .error (.call c) := by
  intro h
  have hescapes : Escapes (p.check args) := ⟨_, h, rfl⟩
  obtain ⟨hrole, n, hn, hlarge⟩ := escapes_check.mp hescapes
  obtain ⟨name, role⟩ := p
  have hnumber : ∀ (d : Number) required,
      args.number name d required = .error .integerTooLarge := by
    intro d required
    simp only [Arguments.number, hn, Arguments.requireNumber]
    rw [IsTooLarge] at hlarge
    rw [hlarge]
  cases role with
  | count => exact hrole rfl
  | number required =>
    simp only [check, void_eq_error, hnumber] at h
    cases h
  | beamwidth =>
    simp only [check, void_eq_error, Arguments.beamwidth, hn, hnumber] at h
    cases h

end Parameter

namespace Element

/-! ## The parameters of a model -/

def parameters : ElementKind → List Parameter
  | .isotropic => []
  | .cosine => [
      ⟨"horizontal_beamwidth", .beamwidth⟩, ⟨"vertical_beamwidth", .beamwidth⟩,
      ⟨"orientation", .number [.finite, .orientation]⟩, ⟨"max_gain", .number [.finite]⟩]
  | .parabolic => [
      ⟨"horizontal_beamwidth", .number [.beamwidth (some 180) true]⟩,
      ⟨"vertical_beamwidth", .number [.beamwidth (some 180) true]⟩,
      ⟨"max_attenuation", .number [.finite, .nonNegative]⟩,
      ⟨"vertical_side_lobe_attenuation", .number [.finite, .nonNegative]⟩,
      ⟨"max_directional_gain", .number [.finite]⟩,
      ⟨"orientation", .number [.finite, .orientation]⟩]
  | .sector => [
      ⟨"horizontal_beamwidth", .number [.beamwidth none false]⟩,
      ⟨"vertical_beamwidth", .number [.beamwidth none false]⟩,
      ⟨"max_attenuation", .number [.finite, .nonNegative]⟩,
      ⟨"vertical_side_lobe_attenuation", .number [.finite, .nonNegative]⟩,
      ⟨"max_directional_gain", .number [.finite]⟩]

/-- The beamwidths of a model that need an exponent, with their defaults. -/
def beamwidths : ElementKind → List (String × Number)
  | .cosine => [("horizontal_beamwidth", .double 60),
      ("vertical_beamwidth", .double (Binary64.infinite false))]
  | _ => []

/-- Whether the beamwidth that the arguments give has an exponent. -/
def exponentCheck (args : Arguments) (b : String × Number) : Attempt Unit :=
  args.beamwidth b.1 b.2 >>= screenExponent

/-- The element of a model, from arguments that the model knows. -/
def ofArguments (args : Arguments) : ElementKind → Attempt (Element Number)
  | .isotropic => .ok .isotropic
  | .cosine => cosineOf args >>= fun p => .ok (.cosine p)
  | .parabolic => parabolicOf args >>= fun p => .ok (.parabolic p)
  | .sector => sectorOf args >>= fun p => .ok (.sector p)

theorem construct_eq (k : ElementKind) (args : Arguments) :
    construct k args = args.screen (k.title ++ ".__init__") "self" (parameterNames k) >>= fun _ =>
      ofArguments args k := by
  cases k <;> rfl

theorem void_parabolicOf (args : Arguments) :
    void (parabolicOf args) = checkAll (Parameter.check args) (parameters .parabolic) := by
  refine void_bind_eq_checkAll (void_number_eq_check args "horizontal_beamwidth" _ _) fun h => ?_
  refine void_bind_eq_checkAll (void_number_eq_check args "vertical_beamwidth" _ _) fun v => ?_
  refine void_bind_eq_checkAll (void_number_eq_check args "max_attenuation" _ _) fun a => ?_
  refine void_bind_eq_checkAll
    (void_number_eq_check args "vertical_side_lobe_attenuation" _ _) fun s => ?_
  refine void_bind_eq_checkAll (void_number_eq_check args "max_directional_gain" _ _) fun g => ?_
  refine void_bind_eq_checkAll (void_number_eq_check args "orientation" _ _) fun o => ?_
  rfl

theorem void_sectorOf (args : Arguments) :
    void (sectorOf args) = checkAll (Parameter.check args) (parameters .sector) := by
  refine void_bind_eq_checkAll (void_number_eq_check args "horizontal_beamwidth" _ _) fun h => ?_
  refine void_bind_eq_checkAll (void_number_eq_check args "vertical_beamwidth" _ _) fun v => ?_
  refine void_bind_eq_checkAll (void_number_eq_check args "max_attenuation" _ _) fun a => ?_
  refine void_bind_eq_checkAll
    (void_number_eq_check args "vertical_side_lobe_attenuation" _ _) fun s => ?_
  refine void_bind_eq_checkAll (void_number_eq_check args "max_directional_gain" _ _) fun g => ?_
  rfl

/-- A cosine pattern is made where its parameters are accepted and both exponents exist. -/
theorem void_cosineOf (args : Arguments) :
    void (cosineOf args) = checkAll (Parameter.check args) (parameters .cosine) >>= fun _ =>
      checkAll (exponentCheck args) (beamwidths .cosine) := by
  have horizontal := void_beamwidth_eq_check args "horizontal_beamwidth" (.double 60)
  have vertical := void_beamwidth_eq_check args "vertical_beamwidth"
    (.double (Binary64.infinite false))
  have orientation := void_number_eq_check args "orientation" (.double 0)
    [.finite, .orientation]
  have maxGain := void_number_eq_check args "max_gain" (.double 0) [.finite]
  simp only [parameters, beamwidths, checkAll, ← horizontal, ← vertical, ← orientation, ← maxGain,
    exponentCheck, cosineOf]
  cases args.beamwidth "horizontal_beamwidth" (.double 60) with
  | error f => rfl
  | ok h =>
    cases args.beamwidth "vertical_beamwidth" (.double (Binary64.infinite false)) with
    | error f => rfl
    | ok v =>
      cases args.number "orientation" (.double 0) [.finite, .orientation] with
      | error f => rfl
      | ok o =>
        cases args.number "max_gain" (.double 0) [.finite] with
        | error f => rfl
        | ok g =>
          simp only [ok_bind, void_ok]
          cases screenExponent h with
          | error f => rfl
          | ok u =>
            cases screenExponent v with
            | error f => rfl
            | ok u => rfl

/-- An element is made where its parameters are accepted and its exponents exist. -/
theorem void_ofArguments (args : Arguments) (k : ElementKind) :
    void (ofArguments args k) = checkAll (Parameter.check args) (parameters k) >>= fun _ =>
      checkAll (exponentCheck args) (beamwidths k) := by
  have hdone : ∀ x : Attempt Unit, (x >>= fun _ => checkAll (exponentCheck args) []) = x := by
    intro x
    cases x <;> rfl
  cases k with
  | isotropic => rfl
  | cosine =>
    rw [← void_cosineOf, ofArguments]
    cases cosineOf args <;> rfl
  | parabolic =>
    rw [beamwidths, hdone, ← void_parabolicOf, ofArguments]
    · cases parabolicOf args <;> rfl
    · simp
  | sector =>
    rw [beamwidths, hdone, ← void_sectorOf, ofArguments]
    · cases sectorOf args <;> rfl
    · simp

/-! ## What escapes -/

/-- A beamwidth has no exponent. -/
def IsDegenerate (args : Arguments) (b : String × Number) : Prop :=
  ∃ w, args.beamwidth b.1 b.2 = .ok w ∧ (w.map Number.toDouble).isDegenerate = true

/-- A screen of an exponent is not refused. -/
theorem not_isRefused_screenExponent (w : Beamwidth Number) : ¬IsRefused (screenExponent w) := by
  rw [screenExponent]
  split
  · rintro ⟨m, hm⟩
    cases hm
  · exact not_isRefused_ok ()

theorem escapes_screenExponent {w : Beamwidth Number} :
    Escapes (screenExponent w) ↔ (w.map Number.toDouble).isDegenerate = true := by
  rw [screenExponent]
  split
  · next h => exact iff_of_true ⟨_, rfl, rfl⟩ h
  · next h => exact iff_of_false (not_escapes_ok ()) h

/-- Where the beamwidths are accepted, their exponents escape if one of them is degenerate. -/
theorem escapes_checkAll_exponentCheck {args : Arguments} {bs : List (String × Number)}
    (h : ∀ b ∈ bs, ∃ w, args.beamwidth b.1 b.2 = .ok w) :
    Escapes (checkAll (exponentCheck args) bs) ↔ ∃ b ∈ bs, IsDegenerate args b := by
  induction bs with
  | nil => simp [checkAll]
  | cons b bs ih =>
    obtain ⟨⟨w, hw⟩, hbs⟩ := List.forall_mem_cons.mp h
    have hb : exponentCheck args b = screenExponent w := by
      rw [exponentCheck, hw, ok_bind]
    have hdegenerate : IsDegenerate args b ↔ Escapes (screenExponent w) := by
      rw [escapes_screenExponent, IsDegenerate, hw]
      simp
    have hcons : (∃ c ∈ b :: bs, IsDegenerate args c) ↔
        Escapes (screenExponent w) ∨ ∃ c ∈ bs, IsDegenerate args c := by
      simp [hdegenerate]
    rw [checkAll, hb, escapes_bind, ih hbs, hcons]
    constructor
    · intro h
      rcases h with hfirst | ⟨_, _, hrest⟩
      · exact .inl hfirst
      · exact .inr hrest
    · intro h
      rcases h with hfirst | hrest
      · exact .inl hfirst
      · rcases outcome (screenExponent w) with ⟨u, hu⟩ | hrefused | hescapes
        · exact .inr ⟨u, hu, hrest⟩
        · exact absurd hrefused (not_isRefused_screenExponent w)
        · exact .inl hescapes

/-- A beamwidth that needs an exponent is a parameter. -/
theorem exists_beamwidth_of_check {args : Arguments} {k : ElementKind}
    (h : ∀ p ∈ parameters k, p.check args = .ok ()) :
    ∀ b ∈ beamwidths k, ∃ w, args.beamwidth b.1 b.2 = .ok w := by
  intro b hb
  have hp : ⟨b.1, .beamwidth⟩ ∈ parameters k := by
    cases k with
    | cosine =>
      rw [beamwidths, List.mem_cons, List.mem_singleton] at hb
      rcases hb with rfl | rfl
      · simp [parameters]
      · simp [parameters]
    | isotropic => simp [beamwidths] at hb
    | parabolic => simp [beamwidths] at hb
    | sector => simp [beamwidths] at hb
  have hcheck := h _ hp
  rwa [← void_beamwidth_eq_check args b.1 b.2, void_eq_ok] at hcheck

/-- How making an element of a model escapes. -/
inductive Fails (args : Arguments) (k : ElementKind) : Prop
  /-- A parameter is an integer that is too large. -/
  | overflow {before : List Parameter} {p : Parameter} {after : List Parameter}
      (split : parameters k = before ++ p :: after) (overflows : p.Overflows args)
      (accepted : ∀ q ∈ before, q.check args = .ok ())
  /-- A beamwidth is so small that the cosine of its quarter rounds to one. -/
  | degenerate {b : String × Number} (accepted : ∀ p ∈ parameters k, p.check args = .ok ())
      (member : b ∈ beamwidths k) (degenerate : IsDegenerate args b)

theorem escapes_ofArguments {args : Arguments} {k : ElementKind} :
    Escapes (ofArguments args k) ↔ Fails args k := by
  rw [← escapes_void, void_ofArguments, escapes_bind, Parameter.escapes_checkAll_check]
  constructor
  · intro hcases
    rcases hcases with ⟨before, p, after, hsplit, hp, hbefore⟩ | ⟨_, haccepted, hexponent⟩
    · exact .overflow hsplit hp hbefore
    · have haccepted := checkAll_eq_ok.mp haccepted
      have hbeamwidths := exists_beamwidth_of_check haccepted
      obtain ⟨b, hb, hdegenerate⟩ := (escapes_checkAll_exponentCheck hbeamwidths).mp hexponent
      exact .degenerate haccepted hb hdegenerate
  · intro h
    cases h with
    | overflow hsplit hp hbefore => exact .inl ⟨_, _, _, hsplit, hp, hbefore⟩
    | degenerate haccepted hb hdegenerate =>
      have hbeamwidths := exists_beamwidth_of_check haccepted
      refine .inr ⟨(), checkAll_eq_ok.mpr haccepted, ?_⟩
      exact (escapes_checkAll_exponentCheck hbeamwidths).mpr ⟨_, hb, hdegenerate⟩

/-- An element that is not made from known arguments is no fault of the call. -/
theorem ofArguments_ne_call {args : Arguments} {k : ElementKind} {c : CallFault} :
    ofArguments args k ≠ .error (.call c) := by
  intro h
  rw [← void_eq_error, void_ofArguments] at h
  cases hchecks : checkAll (Parameter.check args) (parameters k) with
  | error f =>
    rw [hchecks, error_bind] at h
    cases h
    obtain ⟨p, -, hp⟩ := exists_of_checkAll_eq_error hchecks
    exact Parameter.check_ne_call hp
  | ok u =>
    rw [hchecks, ok_bind] at h
    obtain ⟨b, hb, hexponent⟩ := exists_of_checkAll_eq_error h
    obtain ⟨w, hw⟩ := exists_beamwidth_of_check (checkAll_eq_ok.mp hchecks) b hb
    rw [exponentCheck, hw, ok_bind] at hexponent
    rw [screenExponent] at hexponent
    split at hexponent
    · cases hexponent
    · cases hexponent

def Knows (k : ElementKind) (args : Arguments) : Prop :=
  ∀ a ∈ args, ∃ n ∈ parameterNames k, a.1 = Text.ofString n

/-- Making an element escapes where the call names its model twice, or where the model knows all
arguments and one of them is too large or too small. -/
theorem escapes_make {kind : Value} {args : Arguments} :
    Escapes (make kind args) ↔ (∃ a ∈ args, a.1 = Text.ofString "kind") ∨
      ∃ k, ElementKind.ofWord? kind.plain = some k ∧ Knows k args ∧ Fails args k := by
  have hkind : (args.any (·.1 == Text.ofString "kind")) = true ↔
      ∃ a ∈ args, a.1 = Text.ofString "kind" := by
    simp
  rw [make]
  split
  · next h => exact iff_of_true ⟨_, rfl, rfl⟩ (.inl (hkind.mp h))
  · next h =>
    rw [hkind] at h
    cases hword : ElementKind.ofWord? kind.plain with
    | none => simp [h]
    | some k =>
      simp only [h, false_or, Option.some.injEq, exists_eq_left', construct_eq]
      cases hscreen : args.screen (k.title ++ ".__init__") "self" (parameterNames k) with
      | error f =>
        obtain ⟨c, rfl⟩ := Arguments.exists_of_screen_eq_error hscreen
        have hknows : ¬Knows k args := by
          intro hknows
          rw [Arguments.screen_eq_ok.mpr hknows] at hscreen
          cases hscreen
        simp [hknows]
      | ok u =>
        have hknows : Knows k args := Arguments.screen_eq_ok.mp hscreen
        rw [ok_bind, ← escapes_ofArguments]
        cases hmade : ofArguments args k with
        | ok e => simp
        | error f =>
          cases f with
          | call c => exact absurd hmade ofArguments_ne_call
          | _ => simp [hknows]

/-- An element is constructed where its model knows all arguments and accepts them. -/
theorem construct_eq_ok_iff {args : Arguments} {k : ElementKind} {e : Element Number} :
    construct k args = .ok e ↔ Knows k args ∧ ofArguments args k = .ok e := by
  rw [construct_eq]
  constructor
  · intro h
    obtain ⟨⟨⟩, hscreen, h⟩ := exists_of_bind_eq_ok h
    exact ⟨Arguments.screen_eq_ok.mp hscreen, h⟩
  · rintro ⟨hknows, h⟩
    rw [Arguments.screen_eq_ok.mpr hknows, ok_bind, h]

/-- An element is made where it is constructed by the model that is named. -/
theorem make_eq_ok_iff {args : Arguments} {kind : Value} {e : Element Number} :
    make kind args = .ok e ↔ (∀ a ∈ args, a.1 ≠ Text.ofString "kind") ∧
      ∃ k, ElementKind.ofWord? kind.plain = some k ∧ construct k args = .ok e := by
  have hany : (args.any (·.1 == Text.ofString "kind")) = true ↔
      ¬∀ a ∈ args, a.1 ≠ Text.ofString "kind" := by simp
  rw [make]
  split
  · next h => exact iff_of_false (by simp) fun hmake => hany.mp h hmake.1
  · next h =>
    rw [and_iff_right (Classical.not_not.mp (mt hany.mpr h))]
    cases hword : ElementKind.ofWord? kind.plain with
    | none => simp [refuse]
    | some k =>
      simp only [Option.some.injEq, exists_eq_left']
      cases hmade : construct k args with
      | ok e' => exact Iff.rfl
      | error f => cases f <;> simp [refuse]

/-- An element that is made is the construction of its model. -/
theorem exists_construct_of_make {kind : Value} {args : Arguments} {e : Element Number}
    (h : make kind args = .ok e) : ∃ k, construct k args = .ok e := by
  rw [make] at h
  split at h
  · cases h
  · cases hword : ElementKind.ofWord? kind.plain with
    | none =>
      rw [hword] at h
      cases h
    | some k =>
      refine ⟨k, ?_⟩
      cases hmade : construct k args with
      | ok e' =>
        simp only [hword, hmade] at h
        exact h
      | error f =>
        simp only [hword, hmade] at h
        cases f with
        | call c => cases h
        | _ => cases h

end Element

end AntennaArray
