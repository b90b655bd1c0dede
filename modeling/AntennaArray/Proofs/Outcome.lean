import AntennaArray.Fault
import Mathlib.Data.List.Forall2

/-!
# Outcomes of attempts

An attempt succeeds, is refused because a configuration is wrong, or escapes with some other fault.
Of several attempts in order the first that does not succeed decides (`escapes_checkAll`). Two
attempts are alike where both succeed with related results or neither succeeds.
-/

namespace AntennaArray

variable {α β ι : Type}

/-- The attempt is refused because a configuration is wrong. -/
def IsRefused (x : Attempt α) : Prop := ∃ m, x = .error (.misfit m)

/-- The attempt ends with a fault that is not about a configuration. -/
def Escapes (x : Attempt α) : Prop := ∃ f, x = .error f ∧ f.isMisfit = false

/-- An attempt has one of three outcomes. -/
theorem outcome (x : Attempt α) : (∃ a, x = .ok a) ∨ IsRefused x ∨ Escapes x := by
  cases x with
  | ok a => exact .inl ⟨a, rfl⟩
  | error f =>
    cases f with
    | misfit m => exact .inr (.inl ⟨m, rfl⟩)
    | _ => exact .inr (.inr ⟨_, rfl, rfl⟩)

@[simp] theorem not_isRefused_ok (a : α) : ¬IsRefused (.ok a : Attempt α) := by
  rintro ⟨m, h⟩
  cases h

/-- What is refused does not succeed. -/
theorem not_ok_of_isRefused {x : Attempt α} (h : IsRefused x) (a : α) : x ≠ .ok a := by
  rintro rfl
  exact not_isRefused_ok a h

@[simp] theorem not_escapes_ok (a : α) : ¬Escapes (.ok a : Attempt α) := by
  rintro ⟨f, h, -⟩
  cases h

/-- A fault escapes unless it is about a configuration. -/
@[simp] theorem escapes_error {f : Fault} :
    Escapes (.error f : Attempt α) ↔ f.isMisfit = false := by
  constructor
  · rintro ⟨g, hg, hmisfit⟩
    cases hg
    exact hmisfit
  · intro hmisfit
    exact ⟨f, rfl, hmisfit⟩

@[simp] theorem not_escapes_refuse (m : Misfit) : ¬Escapes (refuse m : Attempt α) := by
  simp [refuse, Fault.isMisfit]

theorem escapes_bind {x : Attempt α} {next : α → Attempt β} :
    Escapes (x >>= next) ↔ Escapes x ∨ ∃ a, x = .ok a ∧ Escapes (next a) := by
  cases x with
  | ok a => simp
  | error f => simp

theorem isRefused_bind {x : Attempt α} {next : α → Attempt β} :
    IsRefused (x >>= next) ↔ IsRefused x ∨ ∃ a, x = .ok a ∧ IsRefused (next a) := by
  cases x with
  | ok a => simp
  | error f => simp [IsRefused]

/-! ## Attempts without their results -/

/-- The attempt without its result. -/
def void (x : Attempt α) : Attempt Unit := x.map fun _ => ()

@[simp] theorem void_ok (a : α) : void (.ok a : Attempt α) = .ok () := rfl

@[simp] theorem void_eq_ok {x : Attempt α} : void x = .ok () ↔ ∃ a, x = .ok a := by
  cases x with
  | ok a => simp
  | error f => simp [void, Except.map]

@[simp] theorem void_eq_error {x : Attempt α} {f : Fault} : void x = .error f ↔ x = .error f := by
  cases x with
  | ok a => simp
  | error g => simp [void, Except.map]

@[simp] theorem escapes_void {x : Attempt α} : Escapes (void x) ↔ Escapes x := by
  cases x with
  | ok a => simp
  | error f => simp [void, Except.map]

/-- What comes after a result that does not matter comes after the attempt without it. -/
theorem void_bind {x : Attempt α} {next : α → Attempt β} {rest : Attempt Unit}
    (h : ∀ a, void (next a) = rest) : void (x >>= next) = void x >>= fun _ => rest := by
  cases x with
  | ok a => exact h a
  | error f => rfl

/-! ## Checks in order -/

/-- Checks one after another; the first that does not succeed decides. -/
def checkAll (check : ι → Attempt Unit) : List ι → Attempt Unit
  | [] => .ok ()
  | i :: is => check i >>= fun _ => checkAll check is

/-- Checks in order succeed where all of them do. -/
theorem checkAll_eq_ok {check : ι → Attempt Unit} {is : List ι} :
    checkAll check is = .ok () ↔ ∀ i ∈ is, check i = .ok () := by
  induction is with
  | nil => simp [checkAll]
  | cons i is ih =>
    rw [checkAll, List.forall_mem_cons, ← ih]
    cases check i with
    | ok a => simp
    | error f => simp

/-- Checks in order escape where one of them does and all before it succeed. -/
theorem escapes_checkAll {check : ι → Attempt Unit} {is : List ι} :
    Escapes (checkAll check is) ↔ ∃ before i after, is = before ++ i :: after ∧
      Escapes (check i) ∧ ∀ j ∈ before, check j = .ok () := by
  induction is with
  | nil =>
    refine iff_of_false (not_escapes_ok ()) ?_
    rintro ⟨before, i, after, h, -⟩
    simp at h
  | cons j is ih =>
    rw [checkAll, escapes_bind]
    constructor
    · intro hcases
      rcases hcases with h | ⟨⟨⟩, hj, h⟩
      · exact ⟨[], j, is, rfl, h, by simp⟩
      · obtain ⟨before, i, after, rfl, hi, hbefore⟩ := ih.mp h
        refine ⟨j :: before, i, after, rfl, hi, ?_⟩
        exact List.forall_mem_cons.mpr ⟨hj, hbefore⟩
    · rintro ⟨before, i, after, his, hi, hbefore⟩
      cases before with
      | nil =>
        cases his
        exact .inl hi
      | cons j' before =>
        cases his
        obtain ⟨hj, hbefore⟩ := List.forall_mem_cons.mp hbefore
        exact .inr ⟨(), hj, ih.mpr ⟨before, i, after, rfl, hi, hbefore⟩⟩

/-- A fault of checks in order is the fault of one of them. -/
theorem exists_of_checkAll_eq_error {check : ι → Attempt Unit} {is : List ι} {f : Fault}
    (h : checkAll check is = .error f) : ∃ i ∈ is, check i = .error f := by
  induction is with
  | nil => cases h
  | cons i is ih =>
    rw [checkAll] at h
    cases hi : check i with
    | error g =>
      rw [hi, error_bind] at h
      cases h
      exact ⟨i, by simp, hi⟩
    | ok a =>
      rw [hi, ok_bind] at h
      obtain ⟨j, hj, hfault⟩ := ih h
      exact ⟨j, List.mem_cons_of_mem i hj, hfault⟩

theorem void_mapM (f : ι → Attempt α) (is : List ι) :
    void (is.mapM f) = checkAll (fun i => void (f i)) is := by
  induction is with
  | nil => rfl
  | cons i is ih =>
    rw [List.mapM_cons, checkAll, ← ih]
    refine void_bind fun a => ?_
    cases is.mapM f with
    | ok as => rfl
    | error e => rfl

/-- What comes after checks that succeed decides. -/
theorem checkAll_append {check : ι → Attempt Unit} {before : List ι}
    (h : ∀ i ∈ before, check i = .ok ()) (after : List ι) :
    checkAll check (before ++ after) = checkAll check after := by
  induction before with
  | nil => rfl
  | cons i before ih =>
    obtain ⟨hi, hbefore⟩ := List.forall_mem_cons.mp h
    rw [List.cons_append, checkAll, hi, ok_bind, ih hbefore]

/-- Of attempts in order the first that does not succeed decides. -/
theorem mapM_eq_error {f : ι → Attempt α} {before after : List ι} {i : ι} {e : Fault}
    (hbefore : ∀ j ∈ before, ∃ a, f j = .ok a) (hi : f i = .error e) :
    (before ++ i :: after).mapM f = .error e := by
  rw [← void_eq_error, void_mapM, checkAll_append fun j hj => void_eq_ok.mpr (hbefore j hj),
    checkAll, hi]
  rfl

/-- Attempts in order succeed where each of them does. -/
theorem exists_mapM_eq_ok_iff {f : ι → Attempt α} {is : List ι} :
    (∃ as, is.mapM f = .ok as) ↔ ∀ i ∈ is, ∃ a, f i = .ok a := by
  simp only [← void_eq_ok, void_mapM, checkAll_eq_ok]

/-- Where attempts in order succeed, each gives its own result. -/
theorem forall₂_of_mapM_eq_ok {f : ι → Attempt α} {is : List ι} {as : List α}
    (h : is.mapM f = .ok as) : List.Forall₂ (fun i a => f i = .ok a) is as := by
  induction is generalizing as with
  | nil =>
    cases h
    exact .nil
  | cons i is ih =>
    rw [List.mapM_cons] at h
    obtain ⟨a, ha, h⟩ := exists_of_bind_eq_ok h
    obtain ⟨as', has', h⟩ := exists_of_bind_eq_ok h
    cases h
    exact .cons ha (ih has')

/-! ## Attempts that are alike -/

/-- Both attempts succeed, with related results, or neither does. -/
inductive Alike (r : α → β → Prop) : Attempt α → Attempt β → Prop
  | ok {a : α} {b : β} (h : r a b) : Alike r (.ok a) (.ok b)
  | error (f g : Fault) : Alike r (.error f) (.error g)

namespace Alike

variable {γ δ : Type} {r : α → β → Prop} {s : γ → δ → Prop} {x : Attempt α} {y : Attempt β}

/-- An attempt is like itself if its result is related to itself. -/
theorem refl {r : α → α → Prop} {x : Attempt α} (h : ∀ a, x = .ok a → r a a) : Alike r x x := by
  cases x with
  | ok a => exact .ok (h a rfl)
  | error f => exact .error f f

/-- Attempts that fail are alike. -/
theorem of_not_ok (hx : ∀ a, x ≠ .ok a) (hy : ∀ b, y ≠ .ok b) : Alike r x y := by
  cases x with
  | ok a => exact absurd rfl (hx a)
  | error f =>
    cases y with
    | ok b => exact absurd rfl (hy b)
    | error g => exact .error f g

/-- Attempts are alike where they succeed with the same results. -/
theorem of_eq_ok_iff {x y : Attempt α} (h : ∀ a, x = .ok a ↔ y = .ok a) : Alike Eq x y := by
  cases x with
  | ok a =>
    rw [(h a).mp rfl]
    exact .ok rfl
  | error f =>
    refine .of_not_ok (by simp) fun a ha => ?_
    cases (h a).mpr ha

theorem mono {q : α → β → Prop} (h : Alike r x y)
    (himp : ∀ a b, x = .ok a → y = .ok b → r a b → q a b) : Alike q x y := by
  cases h with
  | ok h => exact .ok (himp _ _ rfl rfl h)
  | error f g => exact .error f g

/-- Where one of two attempts that are alike succeeds, the other does. -/
theorem exists_of_ok {a : α} (h : Alike r x y) (hx : x = .ok a) : ∃ b, y = .ok b ∧ r a b := by
  cases h with
  | ok h =>
    cases hx
    exact ⟨_, rfl, h⟩
  | error f g => cases hx

/-- Attempts that go on alike after results that are alike are alike. -/
theorem bind {next : α → Attempt γ} {next' : β → Attempt δ} (h : Alike r x y)
    (hnext : ∀ a b, x = .ok a → y = .ok b → r a b → Alike s (next a) (next' b)) :
    Alike s (x >>= next) (y >>= next') := by
  cases h with
  | ok h => exact hnext _ _ rfl rfl h
  | error f g => exact .error f g

end Alike

end AntennaArray
