/-!
# Tensors

A tensor holds its entries in row-major order, with the sizes of its axes, last axis first. Two
tensors are combined entry by entry when their axes agree, where an axis of size one, or one that is
missing at the front, is repeated as often as needed (`zipWith?`).
-/

namespace AntennaArray

/-- The number of entries of a tensor with the given axes. -/
def volume : List Nat → Nat
  | [] => 1
  | n :: rest => n * volume rest

/-- Entries along axes; the last axis comes first in `axes` and varies fastest. -/
structure Tensor (α : Type) where
  axes : List Nat
  entries : Array α
  size_eq : entries.size = volume axes

namespace Tensor

variable {α β γ : Type}

/-- The greatest number of axes that the environment allows a table. -/
def axisLimit : Nat := 64

def rank (t : Tensor α) : Nat := t.axes.length

def shape (t : Tensor α) : List Nat := t.axes.reverse

/-- The entries in row-major order. -/
def toList (t : Tensor α) : List α := t.entries.toList

def scalar (x : α) : Tensor α := ⟨[], #[x], rfl⟩

def ofList (xs : List α) : Tensor α := ⟨[xs.length], xs.toArray, by simp [volume]⟩

/-- The tensor with a given shape, if there are as many entries as it takes. -/
def ofShape? (shape : List Nat) (xs : List α) : Option (Tensor α) :=
  if h : xs.length = volume shape.reverse then some ⟨shape.reverse, xs.toArray, by simpa using h⟩
  else none

/-- A function on every entry. -/
def map (f : α → β) (t : Tensor α) : Tensor β := ⟨t.axes, t.entries.map f, by simp [t.size_eq]⟩

@[simp] theorem rank_map (f : α → β) (t : Tensor α) : (t.map f).rank = t.rank := rfl

@[simp] theorem toList_map (f : α → β) (t : Tensor α) : (t.map f).toList = t.toList.map f := by
  simp [map, toList]

@[simp] theorem toList_ofList (xs : List α) : (ofList xs).toList = xs := by simp [ofList, toList]

@[simp] theorem rank_ofList (xs : List α) : (ofList xs).rank = 1 := rfl

theorem map_ofList (f : α → β) (xs : List α) : (ofList xs).map f = ofList (xs.map f) := by
  simp [map, ofList]

@[simp] theorem length_toList (t : Tensor α) : t.toList.length = volume t.axes := by
  simp [toList, t.size_eq]

theorem axes_of_shape {t : Tensor α} {rows columns : Nat} (h : t.shape = [rows, columns]) :
    t.axes = [columns, rows] := by
  rw [shape, List.reverse_eq_iff] at h
  exact h

theorem length_toList_of_shape {t : Tensor α} {rows columns : Nat}
    (h : t.shape = [rows, columns]) : t.toList.length = rows * columns := by
  rw [length_toList, axes_of_shape h, volume, volume, volume, Nat.mul_one, Nat.mul_comm]

def single? (t : Tensor α) : Option α :=
  if t.axes.isEmpty then t.toList.head? else none

/-! ## Repeated axes -/

/-- The axes of the combination of two tensors. -/
def joinAxes? : List Nat → List Nat → Option (List Nat)
  | [], bs => some bs
  | as, [] => some as
  | a :: as, b :: bs =>
    (joinAxes? as bs).bind fun rest =>
      if a = b then some (a :: rest)
      else if a = 1 then some (b :: rest)
      else if b = 1 then some (a :: rest)
      else none

/-- Whether a tensor with the axes `own` can be repeated to the axes `whole`. -/
def Fits : List Nat → List Nat → Prop
  | _, [] => True
  | [], _ :: _ => False
  | r :: rs, s :: ss => (s = 1 ∨ s = r) ∧ Fits rs ss

/-- Where the `k`-th entry of the whole stands in a tensor that is repeated to it. -/
def source : List Nat → List Nat → Nat → Nat
  | r :: rs, s :: ss, k => (if s = 1 then 0 else k % r) + s * source rs ss (k / r)
  | _, _, _ => 0

theorem fits_refl (axes : List Nat) : Fits axes axes := by
  induction axes with
  | nil => trivial
  | cons r rs ih => exact ⟨.inr rfl, ih⟩

/-- Both tensors can be repeated to their combination. -/
theorem fits_of_joinAxes? {as bs rs : List Nat} (h : joinAxes? as bs = some rs) :
    Fits rs as ∧ Fits rs bs := by
  induction as generalizing bs rs with
  | nil =>
    cases bs <;> simp only [joinAxes?, Option.some.injEq] at h <;> subst h
    · exact ⟨trivial, trivial⟩
    · exact ⟨trivial, fits_refl _⟩
  | cons a as ih =>
    cases bs with
    | nil =>
      simp only [joinAxes?, Option.some.injEq] at h
      subst h
      exact ⟨fits_refl _, trivial⟩
    | cons b bs =>
      simp only [joinAxes?, Option.bind_eq_some_iff] at h
      obtain ⟨rest, hrest, h⟩ := h
      have := ih hrest
      split at h
      · cases h; subst_vars; exact ⟨⟨.inr rfl, this.1⟩, .inr rfl, this.2⟩
      · split at h
        · cases h; subst_vars; exact ⟨⟨.inl rfl, this.1⟩, .inr rfl, this.2⟩
        · split at h
          · cases h; subst_vars; exact ⟨⟨.inr rfl, this.1⟩, .inl rfl, this.2⟩
          · cases h

/-- An entry of the whole stands at an entry of each tensor that is repeated to it. -/
theorem source_lt {whole own : List Nat} (h : Fits whole own) {k : Nat} (hk : k < volume whole) :
    source whole own k < volume own := by
  induction whole generalizing own k with
  | nil =>
    cases own with
    | nil => simp [source, volume]
    | cons s ss => exact h.elim
  | cons r rs ih =>
    cases own with
    | nil => simp [source, volume]
    | cons s ss =>
      have hr : 0 < r := Nat.pos_of_ne_zero fun e => by simp [volume, e] at hk
      have hq : k / r < volume rs := by
        rw [Nat.div_lt_iff_lt_mul hr, Nat.mul_comm]; exact hk
      have hrec := ih h.2 hq
      have hfirst : (if s = 1 then 0 else k % r) < s := by
        split
        · omega
        · rcases h.1 with hs | hs
          · contradiction
          · rw [hs]; exact Nat.mod_lt _ hr
      calc (if s = 1 then 0 else k % r) + s * source rs ss (k / r)
          < s + s * source rs ss (k / r) := by omega
        _ = s * (source rs ss (k / r) + 1) := by rw [Nat.mul_add, Nat.mul_one, Nat.add_comm]
        _ ≤ s * volume ss := Nat.mul_le_mul_left s hrec

/-- The entry that stands for the `k`-th one of the whole. -/
def repeated (t : Tensor α) (whole : List Nat) (h : Fits whole t.axes) (k : Fin (volume whole)) :
    α :=
  have : source whole t.axes k < t.entries.size := by rw [t.size_eq]; exact source_lt h k.isLt
  t.entries[source whole t.axes k]

/-- Two tensors combined entry by entry, if their axes agree. -/
def zipWith? (f : α → β → γ) (a : Tensor α) (b : Tensor β) : Option (Tensor γ) :=
  match h : joinAxes? a.axes b.axes with
  | none => none
  | some whole =>
    let ends := fits_of_joinAxes? h
    some ⟨whole, Array.ofFn fun k => f (a.repeated whole ends.1 k) (b.repeated whole ends.2 k),
      by simp⟩

end Tensor

end AntennaArray
