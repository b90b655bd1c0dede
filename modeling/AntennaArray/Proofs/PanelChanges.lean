import AntennaArray.Proofs.ReadBack

/-!
# Changes to a panel

A panel is constructed where all given settings are admissible, and changed under the same condition
(`exists_construct_iff`, `exists_replace_iff`). A change that is refused leaves the last panel in
its place. So whatever changes are tried one after another, each of them alters only what it names
(`isChanged_of_assemble`), and the panel stays valid (`isValid_afterChanges`): its settings are
admissible and construct it again.
-/

namespace AntennaArray

/-! ## Values of settings -/

namespace Value

/-- The value is the integer that is the given count. -/
def HasCount (v : Value) (n : ℕ) : Prop := v = .number (.integer n)

/-- The value is a number with the given nearest double. -/
def HasDouble (v : Value) (x : Float) : Prop := ∃ n, v = .number n ∧ n.toDouble? = some x

/-- The value is an integer of at least one. -/
def IsCount (v : Value) : Prop := ∃ n, v.HasCount n ∧ 1 ≤ n

/-- The value is a number with a nearest double that is finite and in a range. -/
def LiesIn (range : Float → Prop) (v : Value) : Prop :=
  ∃ x, v.HasDouble x ∧ x.isFinite = true ∧ range x

end Value

namespace Requirement

variable {x : Float}

theorem holds_positive : positive.holds x = true ↔ x.isFinite = true ∧ 0 < x := by
  simp only [holds, Bool.and_eq_true]
  exact and_congr_right fun _ => decide_eq_true_iff

theorem holds_bearing :
    bearing.holds x = true ↔ x.isFinite = true ∧ -Scalar.pi ≤ x ∧ x ≤ Scalar.pi := by
  simp only [holds, Bool.and_eq_true, and_assoc]
  exact and_congr_right fun _ => and_congr decide_eq_true_iff decide_eq_true_iff

theorem holds_downtilt :
    downtilt.holds x = true ↔ x.isFinite = true ∧ 0 ≤ x ∧ x ≤ Scalar.pi := by
  simp only [holds, Bool.and_eq_true, and_assoc]
  exact and_congr_right fun _ => and_congr decide_eq_true_iff decide_eq_true_iff

end Requirement

namespace Arguments

variable {α : Type} {args : Arguments} {name : Text}

/-- The argument with a name, if there is one, is as wanted. -/
def Gives (args : Arguments) (name : Text) (wanted : Value → Prop) : Prop :=
  ∀ v, args.lookup name = some v → wanted v

/-- A parameter keeps its old value unless an argument names it; then the new value is read from the
argument. -/
def Sets (args : Arguments) (name : Text) (reads : Value → α → Prop) (old new : α) : Prop :=
  match args.lookup name with
  | none => new = old
  | some v => reads v new

/-- A parameter that no argument names keeps its old value. -/
theorem sets_of_absent {reads : Value → α → Prop} (h : args.lookup name = none) (old : α) :
    args.Sets name reads old old := by
  simp only [Sets, h]

/-- A parameter is set to what is read from its argument. -/
theorem sets_of_lookup {reads : Value → α → Prop} {v : Value} {old new : α}
    (h : args.lookup name = some v) (hreads : reads v new) : args.Sets name reads old new := by
  simp only [Sets, h]
  exact hreads

/-- A count that is read is the one of its argument. -/
theorem sets_of_count {default n : { n : ℕ // 0 < n }} (h : args.count name default = .ok n) :
    args.Sets name Value.HasCount default.1 n.1 := by
  rw [count] at h
  split at h
  · next hlookup =>
    cases h
    exact sets_of_absent hlookup _
  · next m hlookup =>
    split at h
    · next hpos =>
      cases h
      have hnat : (m.toNat : ℤ) = m := by omega
      exact sets_of_lookup hlookup (by simp only [Value.HasCount, hnat])
    · cases h
  · cases h

/-- A double that is read is the one of its argument. -/
theorem sets_of_number {x : Float} {n : Number} {required : List Requirement}
    (h : args.number name (.double x) required = .ok n) :
    args.Sets name Value.HasDouble x n.toDouble := by
  rw [number] at h
  split at h
  · next hlookup =>
    cases h
    exact sets_of_absent hlookup _
  · next v hlookup =>
    obtain ⟨rfl, y, hy, -⟩ := requireNumber_eq_ok_iff.mp h
    exact sets_of_lookup hlookup ⟨n, rfl, by rw [hy, Number.toDouble_of_toDouble? hy]⟩

end Arguments

namespace Parameter

variable {args : Arguments} {name : String}

/-- A count is accepted where its argument is a positive integer. -/
theorem check_count_eq_ok :
    (Parameter.mk name .count).check args = .ok () ↔ args.Gives name Value.IsCount := by
  rw [check, void_eq_ok]
  constructor
  · rintro ⟨n, hn⟩ v hv
    have hsets := Arguments.sets_of_count hn
    rw [Arguments.Sets] at hsets
    simp only [hv] at hsets
    exact ⟨n.1, hsets, n.2⟩
  · intro h
    simp only [Arguments.count]
    split
    · exact ⟨_, rfl⟩
    · next m hm =>
      obtain ⟨n, hn, hpos⟩ := h _ hm
      cases hn
      rw [Int.toNat_natCast, dif_pos (Nat.lt_of_succ_le hpos)]
      exact ⟨_, rfl⟩
    · next v hv hother =>
      obtain ⟨n, rfl, -⟩ := h v hother
      exact absurd rfl (hv n)

/-- A number is accepted where its argument has a nearest double that is as required. -/
theorem check_number_eq_ok {r : Requirement} :
    (Parameter.mk name (.number [r])).check args = .ok () ↔
      args.Gives name fun v => ∃ x, v.HasDouble x ∧ r.holds x = true := by
  rw [check, void_eq_ok]
  cases hlookup : args.lookup (Text.ofString name) with
  | none => simp [Arguments.number, Arguments.Gives, hlookup]
  | some v =>
    simp only [Arguments.Gives, Arguments.number_eq_requireNumber hlookup,
      Arguments.requireNumber_eq_ok_iff, hlookup, Option.some.injEq, forall_eq', Value.HasDouble,
      Number.Fits, List.forall_mem_singleton]
    constructor
    · rintro ⟨n, hn, x, hx, hholds⟩
      exact ⟨x, ⟨n, hn, hx⟩, hholds⟩
    · rintro ⟨x, ⟨n, hn, hx⟩, hholds⟩
      exact ⟨n, hn, x, hx, hholds⟩

end Parameter

/-! ## Admissible settings -/

namespace Panel

/-- A panel knows the names of all settings. -/
def Knows (args : Arguments) : Prop := ∀ a ∈ args, ∃ n ∈ settingNames, a.1 = Text.ofString n

/-- All settings are known. A count is an integer of at least one; a spacing or an angle has a
nearest double, which is finite and in its range. -/
structure AreAdmissible (args : Arguments) : Prop where
  known : Knows args
  rows : args.Gives "num_rows" Value.IsCount
  columns : args.Gives "num_columns" Value.IsCount
  horizontalSpacing : args.Gives "horizontal_spacing" (Value.LiesIn fun x => 0 < x)
  verticalSpacing : args.Gives "vertical_spacing" (Value.LiesIn fun x => 0 < x)
  bearing : args.Gives "bearing" (Value.LiesIn fun x => -Scalar.pi ≤ x ∧ x ≤ Scalar.pi)
  downtilt : args.Gives "downtilt" (Value.LiesIn fun x => 0 ≤ x ∧ x ≤ Scalar.pi)

variable {args : Arguments} {p q : Panel Float}

/-- Settings are admissible where they are known and each parameter accepts its own. -/
theorem areAdmissible_iff :
    AreAdmissible args ↔ Knows args ∧ ∀ r ∈ parameters, r.check args = .ok () := by
  simp only [parameters, List.forall_mem_cons, Parameter.check_count_eq_ok,
    Parameter.check_number_eq_ok, Requirement.holds_positive, Requirement.holds_bearing,
    Requirement.holds_downtilt]
  constructor
  · rintro ⟨hknown, hrows, hcolumns, hhorizontal, hvertical, hbearing, hdowntilt⟩
    exact ⟨hknown, hrows, hcolumns, hhorizontal, hvertical, hbearing, hdowntilt, by simp⟩
  · rintro ⟨hknown, hrows, hcolumns, hhorizontal, hvertical, hbearing, hdowntilt, -⟩
    exact ⟨hknown, hrows, hcolumns, hhorizontal, hvertical, hbearing, hdowntilt⟩

/-- Admissible settings are those that are known and assemble, whatever the others are. -/
theorem areAdmissible_iff_assemble (base : Panel Float) :
    AreAdmissible args ↔ Knows args ∧ ∃ p, assemble base args = .ok p := by
  rw [areAdmissible_iff, ← checkAll_eq_ok, ← void_assemble base args, void_eq_ok]

theorem screen_eq_ok_iff :
    args.screen (title ++ ".__init__") "self" settingNames = .ok () ↔ Knows args :=
  Arguments.screen_eq_ok

theorem construct_eq_ok_iff :
    construct args = .ok p ↔ Knows args ∧ assemble standard args = .ok p := by
  rw [← screen_eq_ok_iff, construct]
  cases args.screen (title ++ ".__init__") "self" settingNames with
  | ok u => simp
  | error f => simp

/-- A panel is changed where the settings are known, `self` being none of them. -/
theorem replace_eq_ok_iff :
    p.replace args = .ok q ↔ Knows args ∧ assemble p args = .ok q := by
  rw [replace]
  split
  · next hself =>
    obtain ⟨a, ha, hname⟩ := List.any_eq_true.mp hself
    refine iff_of_false (by simp) fun h => ?_
    obtain ⟨n, hn, han⟩ := h.1 a ha
    rw [beq_iff_eq.mp hname] at han
    revert n
    decide
  · rw [← screen_eq_ok_iff]
    cases args.screen (title ++ ".__init__") "self" settingNames with
    | ok u => simp
    | error f => simp

/-- A panel is constructed exactly from admissible settings. -/
theorem exists_construct_iff : (∃ p, construct args = .ok p) ↔ AreAdmissible args := by
  simp only [areAdmissible_iff_assemble standard, construct_eq_ok_iff, exists_and_left]

/-- A panel is changed exactly by admissible settings. -/
theorem exists_replace_iff : (∃ q, p.replace args = .ok q) ↔ AreAdmissible args := by
  simp only [areAdmissible_iff_assemble p, replace_eq_ok_iff, exists_and_left]

/-! ## What a change does -/

/-- A panel differs from another one only in the settings that are named, which are as given. -/
structure IsChanged (p q : Panel Float) (args : Arguments) : Prop where
  rows : args.Sets "num_rows" Value.HasCount p.rows q.rows
  columns : args.Sets "num_columns" Value.HasCount p.columns q.columns
  horizontalSpacing :
    args.Sets "horizontal_spacing" Value.HasDouble p.horizontalSpacing q.horizontalSpacing
  verticalSpacing : args.Sets "vertical_spacing" Value.HasDouble p.verticalSpacing q.verticalSpacing
  bearing : args.Sets "bearing" Value.HasDouble p.bearing q.bearing
  downtilt : args.Sets "downtilt" Value.HasDouble p.downtilt q.downtilt

theorem isChanged_of_assemble (h : assemble p args = .ok q) : p.IsChanged q args := by
  obtain ⟨rows, hrows, h⟩ := exists_of_bind_eq_ok h
  obtain ⟨columns, hcolumns, h⟩ := exists_of_bind_eq_ok h
  obtain ⟨horizontal, hhorizontal, h⟩ := exists_of_bind_eq_ok h
  obtain ⟨vertical, hvertical, h⟩ := exists_of_bind_eq_ok h
  obtain ⟨bearing, hbearing, h⟩ := exists_of_bind_eq_ok h
  obtain ⟨downtilt, hdowntilt, h⟩ := exists_of_bind_eq_ok h
  cases h
  exact
    { rows := Arguments.sets_of_count hrows
      columns := Arguments.sets_of_count hcolumns
      horizontalSpacing := Arguments.sets_of_number hhorizontal
      verticalSpacing := Arguments.sets_of_number hvertical
      bearing := Arguments.sets_of_number hbearing
      downtilt := Arguments.sets_of_number hdowntilt }

/-! ## Changes one after another -/

/-- The panel after a change, which stays as it is if the change is refused. -/
def changed (p : Panel Float) (args : Arguments) : Panel Float :=
  match p.replace args with
  | .ok q => q
  | .error _ => p

def afterChanges (p : Panel Float) (changes : List Arguments) : Panel Float :=
  changes.foldl changed p

theorem changed_of_replace (h : p.replace args = .ok q) : p.changed args = q := by
  rw [changed, h]

theorem changed_of_not_admissible (h : ¬AreAdmissible args) : p.changed args = p := by
  rw [changed]
  split
  · next q hq => exact absurd (exists_replace_iff.mp ⟨q, hq⟩) h
  · rfl

theorem afterChanges_concat (p : Panel Float) (changes : List Arguments) (args : Arguments) :
    p.afterChanges (changes ++ [args]) = (p.afterChanges changes).changed args := by
  rw [afterChanges, List.foldl_append]
  rfl

/-- A change leaves a valid panel valid. -/
theorem isValid_changed (hp : p.IsValid) (args : Arguments) : (p.changed args).IsValid := by
  rw [changed]
  split
  · next q hq => exact isValid_assemble hp (replace_eq_ok_iff.mp hq).2
  · exact hp

/-- However many changes are tried, a valid panel stays valid. -/
theorem isValid_afterChanges (hp : p.IsValid) (changes : List Arguments) :
    (p.afterChanges changes).IsValid := by
  induction changes generalizing p with
  | nil => exact hp
  | cons args changes ih => exact ih (isValid_changed hp args)

/-! ## Sound panels -/

/-- The settings of a panel are two integers and four doubles, are admissible and construct the
panel. -/
structure IsSound (p : Panel Float) : Prop where
  stored : p.fields.map Prod.snd = [.integer p.rows, .integer p.columns,
    .double p.horizontalSpacing, .double p.verticalSpacing, .double p.bearing, .double p.downtilt]
  admissible : AreAdmissible p.arguments
  size : p.size = p.rows * p.columns ∧ 1 ≤ p.size
  constructs : construct p.arguments = .ok p ∧ p.equals p = true

theorem IsValid.isSound (h : p.IsValid) : p.IsSound where
  stored := rfl
  admissible := exists_construct_iff.mp ⟨p, construct_arguments h⟩
  size := ⟨rfl, p.size_pos⟩
  constructs := ⟨construct_arguments h, h.equals_self⟩

/-- Which settings construct a panel, and how it goes on from there under any changes. -/
theorem construct_then_change :
    (∀ args, (∃ p, construct args = .ok p) ↔ AreAdmissible args) ∧
      ∀ args p, construct args = .ok p → standard.IsChanged p args ∧
        ∀ changes : List Arguments, (p.afterChanges changes).IsSound ∧
          ∀ next : Arguments,
            ((∃ q, (p.afterChanges changes).replace next = .ok q) ↔ AreAdmissible next) ∧
            (∀ q, (p.afterChanges changes).replace next = .ok q →
              p.afterChanges (changes ++ [next]) = q ∧
                (p.afterChanges changes).IsChanged q next) ∧
            (¬AreAdmissible next →
              p.afterChanges (changes ++ [next]) = p.afterChanges changes) := by
  refine ⟨fun args => exists_construct_iff, fun args p h => ?_⟩
  have hassemble := (construct_eq_ok_iff.mp h).2
  have hp : p.IsValid := isValid_assemble isValid_standard hassemble
  refine ⟨isChanged_of_assemble hassemble, fun changes => ?_⟩
  refine ⟨(isValid_afterChanges hp changes).isSound, fun next => ⟨exists_replace_iff, ?_, ?_⟩⟩
  · intro q hq
    rw [afterChanges_concat, changed_of_replace hq]
    exact ⟨rfl, isChanged_of_assemble (replace_eq_ok_iff.mp hq).2⟩
  · intro hnext
    rw [afterChanges_concat, changed_of_not_admissible hnext]

end Panel

end AntennaArray
