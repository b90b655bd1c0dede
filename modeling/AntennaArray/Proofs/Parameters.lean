import AntennaArray.Element.Construction
import AntennaArray.Panel.Construction
import AntennaArray.Proofs.Outcome

/-!
# Parameters in their order

A panel and an element read their parameters one after another. Whether one is accepted depends on
its own argument alone, so a whole construction comes down to a list of parameters that are checked
in order. A parameter escapes only if its argument is an integer that is too large for a double.
-/

namespace AntennaArray

/-- No double is near the integer. -/
def IsTooLarge (n : Int) : Prop := (Number.integer n).toDouble? = none

/-- What a parameter is read as. -/
inductive Role where
  | count
  | number (required : List Requirement)
  | beamwidth

/-- A parameter of a panel or of an element. -/
structure Parameter where
  name : String
  role : Role

/-- A number with a nearest double has it as its double. -/
theorem Number.toDouble_of_toDouble? {n : Number} {x : Float} (h : n.toDouble? = some x) :
    n.toDouble = x := by
  cases n with
  | double y => exact Option.some.inj h
  | integer m =>
    simp only [Number.toDouble?] at h
    split at h
    · cases h
    · exact Option.some.inj h

namespace Arguments

/-! ## One argument -/

variable {args : Arguments} {name : Text}

/-- A number that is required escapes only by its size. -/
theorem escapes_requireNumber {v : Value} {required : List Requirement} :
    Escapes (requireNumber name v required) ↔ ∃ n, v = .number (.integer n) ∧ IsTooLarge n := by
  simp only [requireNumber]
  split
  · next n =>
    cases hn : n.toDouble? with
    | none =>
      refine iff_of_true ⟨.integerTooLarge, rfl, rfl⟩ ?_
      cases n with
      | integer n => exact ⟨n, rfl, hn⟩
      | double x => cases hn
    | some x =>
      have hfits : ¬∃ m, Value.number n = .number (.integer m) ∧ IsTooLarge m := by
        rintro ⟨m, hm, hlarge⟩
        cases hm
        rw [IsTooLarge, hn] at hlarge
        cases hlarge
      refine iff_of_false ?_ hfits
      simp only
      split
      · exact not_escapes_ok n
      · exact not_escapes_refuse _
  · next hv =>
    refine iff_of_false (not_escapes_refuse _) ?_
    rintro ⟨n, rfl, -⟩
    exact hv _ rfl

theorem escapes_number {default : Number} {required : List Requirement} :
    Escapes (args.number name default required) ↔
      ∃ n, args.lookup name = some (.number (.integer n)) ∧ IsTooLarge n := by
  rw [number]
  cases args.lookup name with
  | none => simp
  | some v =>
    simp only [escapes_requireNumber, Option.some.injEq]

theorem escapes_beamwidth {default : Number} :
    Escapes (args.beamwidth name default) ↔
      ∃ n, args.lookup name = some (.number (.integer n)) ∧ IsTooLarge n := by
  have hmap : Escapes ((args.number name default [.beamwidth (some 360) false]).map
      Beamwidth.ofNumber) ↔ ∃ n, args.lookup name = some (.number (.integer n)) ∧ IsTooLarge n := by
    rw [← escapes_number, ← escapes_void, ← escapes_void (x := args.number _ _ _)]
    cases args.number name default [.beamwidth (some 360) false] <;> rfl
  rw [beamwidth]
  split
  · next x hx =>
    split
    · refine iff_of_false (not_escapes_ok _) ?_
      rintro ⟨n, hn, -⟩
      rw [hx] at hn
      cases hn
    · exact hmap
  · exact hmap

/-- A number that is accepted is as required, if the default is. -/
theorem holds_of_number {default n : Number} {required : Requirement}
    (h : args.number name default [required] = .ok n)
    (hdefault : required.holds default.toDouble = true) : required.holds n.toDouble = true := by
  rw [number] at h
  split at h
  · cases h
    exact hdefault
  · next v hv =>
    have hnumber := requireNumber_eq_ok h
    subst hnumber
    rw [requireNumber] at h
    cases hn : n.toDouble? with
    | none =>
      simp only [hn] at h
      cases h
    | some x =>
      rw [Number.toDouble_of_toDouble? hn]
      cases hholds : required.holds x with
      | true => rfl
      | false =>
        have hfind : [required].find? (fun r => !r.holds x) = some required := by
          simp [hholds]
        simp only [hn, hfind] at h
        cases h

/-- A count never escapes. -/
theorem not_escapes_count {default : { n : Nat // 0 < n }} :
    ¬Escapes (args.count name default) := by
  rw [count]
  split
  · exact not_escapes_ok _
  · split
    · exact not_escapes_ok _
    · exact not_escapes_refuse _
  · exact not_escapes_refuse _

/-! ## Defaults are not checked -/

theorem void_count (default default' : { n : Nat // 0 < n }) :
    void (args.count name default) = void (args.count name default') := by
  simp only [count]
  split <;> rfl

theorem void_number (default default' : Number) (required : List Requirement) :
    void (args.number name default required) = void (args.number name default' required) := by
  simp only [number]
  split <;> rfl

theorem void_beamwidth (default default' : Number) :
    void (args.beamwidth name default) = void (args.beamwidth name default') := by
  have hmap : void ((args.number name default [.beamwidth (some 360) false]).map
        Beamwidth.ofNumber)
      = void ((args.number name default' [.beamwidth (some 360) false]).map
        Beamwidth.ofNumber) := by
    simp only [number]
    split <;> rfl
  simp only [beamwidth]
  split
  · split
    · rfl
    · exact hmap
  · exact hmap

end Arguments

namespace Parameter

/-- Whether the argument of a parameter is accepted. -/
def check (args : Arguments) (p : Parameter) : Attempt Unit :=
  match p.role with
  | .count => void (args.count p.name ⟨1, Nat.one_pos⟩)
  | .number required => void (args.number p.name (.double 0) required)
  | .beamwidth => void (args.beamwidth p.name (.double 0))

/-- The argument of the parameter is an integer where a double is needed, and none is near. -/
def Overflows (args : Arguments) (p : Parameter) : Prop :=
  p.role ≠ .count ∧
    ∃ n, args.lookup (Text.ofString p.name) = some (.number (.integer n)) ∧ IsTooLarge n

theorem escapes_check {args : Arguments} {p : Parameter} :
    Escapes (p.check args) ↔ p.Overflows args := by
  obtain ⟨name, role⟩ := p
  cases role with
  | count =>
    refine iff_of_false ?_ fun h => h.1 rfl
    rw [check, escapes_void]
    exact Arguments.not_escapes_count
  | number required =>
    rw [check, escapes_void, Arguments.escapes_number, Overflows]
    simp
  | beamwidth =>
    rw [check, escapes_void, Arguments.escapes_beamwidth, Overflows]
    simp

/-- Parameters in order escape where one overflows and all before it are accepted. -/
theorem escapes_checkAll_check {args : Arguments} {ps : List Parameter} :
    Escapes (checkAll (check args) ps) ↔ ∃ before p after, ps = before ++ p :: after ∧
      p.Overflows args ∧ ∀ q ∈ before, q.check args = .ok () := by
  simp only [escapes_checkAll, escapes_check]

end Parameter

/-! ## Reading one parameter after another -/

section Reading

variable {args : Arguments} {α β : Type}

theorem void_count_eq_check (args : Arguments) (name : String) (default : { n : Nat // 0 < n }) :
    void (args.count name default) = Parameter.check args ⟨name, .count⟩ :=
  Arguments.void_count default _

theorem void_number_eq_check (args : Arguments) (name : String) (default : Number)
    (required : List Requirement) :
    void (args.number name default required) = Parameter.check args ⟨name, .number required⟩ :=
  Arguments.void_number default _ required

theorem void_beamwidth_eq_check (args : Arguments) (name : String) (default : Number) :
    void (args.beamwidth name default) = Parameter.check args ⟨name, .beamwidth⟩ :=
  Arguments.void_beamwidth default _

/-- A parameter that is read first is checked first. -/
theorem void_bind_eq_checkAll {x : Attempt α} {next : α → Attempt β} {p : Parameter}
    {ps : List Parameter} (hx : void x = p.check args)
    (h : ∀ a, void (next a) = checkAll (Parameter.check args) ps) :
    void (x >>= next) = checkAll (Parameter.check args) (p :: ps) := by
  rw [void_bind h, hx]
  rfl

end Reading

/-! ## Panels -/

namespace Panel

def parameters : List Parameter := [
  ⟨"num_rows", .count⟩, ⟨"num_columns", .count⟩,
  ⟨"horizontal_spacing", .number [.positive]⟩, ⟨"vertical_spacing", .number [.positive]⟩,
  ⟨"bearing", .number [.bearing]⟩, ⟨"downtilt", .number [.downtilt]⟩]

/-- A panel is assembled where its parameters are accepted. -/
theorem void_assemble (base : Panel Float) (args : Arguments) :
    void (assemble base args) = checkAll (Parameter.check args) parameters := by
  refine void_bind_eq_checkAll (void_count_eq_check args "num_rows" _) fun rows => ?_
  refine void_bind_eq_checkAll (void_count_eq_check args "num_columns" _) fun columns => ?_
  refine void_bind_eq_checkAll (void_number_eq_check args "horizontal_spacing" _ _) fun h => ?_
  refine void_bind_eq_checkAll (void_number_eq_check args "vertical_spacing" _ _) fun v => ?_
  refine void_bind_eq_checkAll (void_number_eq_check args "bearing" _ _) fun bearing => ?_
  refine void_bind_eq_checkAll (void_number_eq_check args "downtilt" _ _) fun downtilt => ?_
  rfl

/-- What a panel has to be besides having rows and columns. -/
structure IsValid (p : Panel Float) : Prop where
  horizontalSpacing : Requirement.positive.holds p.horizontalSpacing = true
  verticalSpacing : Requirement.positive.holds p.verticalSpacing = true
  bearing : Requirement.bearing.holds p.bearing = true
  downtilt : Requirement.downtilt.holds p.downtilt = true

/-- The defaults pass their own checks. -/
theorem isValid_standard : standard.IsValid where
  horizontalSpacing := by decide +kernel
  verticalSpacing := by decide +kernel
  bearing := by decide +kernel
  downtilt := by decide +kernel

/-- A panel that is assembled on a valid one is valid. -/
theorem isValid_assemble {base p : Panel Float} (hbase : base.IsValid) {args : Arguments}
    (h : assemble base args = .ok p) : p.IsValid := by
  obtain ⟨rows, -, h⟩ := exists_of_bind_eq_ok h
  obtain ⟨columns, -, h⟩ := exists_of_bind_eq_ok h
  obtain ⟨horizontal, hhorizontal, h⟩ := exists_of_bind_eq_ok h
  obtain ⟨vertical, hvertical, h⟩ := exists_of_bind_eq_ok h
  obtain ⟨bearing, hbearing, h⟩ := exists_of_bind_eq_ok h
  obtain ⟨downtilt, hdowntilt, h⟩ := exists_of_bind_eq_ok h
  cases h
  exact
    { horizontalSpacing := Arguments.holds_of_number hhorizontal hbase.horizontalSpacing
      verticalSpacing := Arguments.holds_of_number hvertical hbase.verticalSpacing
      bearing := Arguments.holds_of_number hbearing hbase.bearing
      downtilt := Arguments.holds_of_number hdowntilt hbase.downtilt }

end Panel

end AntennaArray
