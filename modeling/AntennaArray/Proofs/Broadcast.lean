import Mathlib.Data.List.Forall2
import Mathlib.Tactic.Ring
import AntennaArray.Aim

/-!
# Repeated axes

Two tensors are combined where their axes agree, counted from the last one, and the combination has
an axis of each size that is not one (`joinAxes?_eq_some_iff`). At a multi-index of the combination
the two tensors are read at the same multi-index, less the axes that they lack, and at the first
entry of an axis of size one (`Follows.item?`). What is combined further with one of the two keeps
the axes of the combination (`Follows.combine_whole`), so a formula of two tensors comes down to the
formula of two numbers.
-/

namespace AntennaArray

namespace Tensor

variable {α β γ δ : Type}

/-! ## Axes that agree -/

/-- Along each axis that both have, counted from the last one, the sizes are equal or one of them is
one. -/
def Agree (as bs : List ℕ) : Prop :=
  ∀ i n m : ℕ, as[i]? = some n → bs[i]? = some m → n = m ∨ n = 1 ∨ m = 1

/-- The sizes along all axes, counted from the last one: a missing axis counts as one of size one,
and a size of one gives way to the other size. -/
def joined (as bs : List ℕ) : List ℕ :=
  (List.range (max as.length bs.length)).map fun i =>
    if as.getD i 1 = 1 then bs.getD i 1 else as.getD i 1

@[simp] theorem agree_nil_left (bs : List ℕ) : Agree [] bs := by
  simp [Agree]

@[simp] theorem agree_nil_right (as : List ℕ) : Agree as [] := by
  simp [Agree]

@[simp] theorem agree_cons_cons {a b : ℕ} {as bs : List ℕ} :
    Agree (a :: as) (b :: bs) ↔ (a = b ∨ a = 1 ∨ b = 1) ∧ Agree as bs := by
  constructor
  · intro h
    exact ⟨h 0 a b rfl rfl, fun i n m hn hm => h (i + 1) n m hn hm⟩
  · rintro ⟨hfirst, hrest⟩ i n m hn hm
    cases i with
    | zero =>
      cases hn
      cases hm
      exact hfirst
    | succ i => exact hrest i n m hn hm

theorem agree_comm {as bs : List ℕ} : Agree as bs ↔ Agree bs as := by
  have hswap {as bs : List ℕ} (h : Agree as bs) : Agree bs as := by
    intro i n m hn hm
    have := h i m n hm hn
    omega
  exact ⟨hswap, hswap⟩

@[simp] theorem joined_nil_left (bs : List ℕ) : joined [] bs = bs := by
  apply List.ext_getElem <;> simp +contextual [joined]

@[simp] theorem joined_nil_right (as : List ℕ) : joined as [] = as := by
  apply List.ext_getElem
  · simp [joined]
  · intro i _ hi
    by_cases hone : as[i] = 1 <;> simp [joined, hi, hone]

@[simp] theorem joined_cons_cons (a b : ℕ) (as bs : List ℕ) :
    joined (a :: as) (b :: bs) = (if a = 1 then b else a) :: joined as bs := by
  simp [joined, List.range_succ_eq_map, Function.comp_def]

theorem joined_comm {as bs : List ℕ} (h : Agree as bs) : joined as bs = joined bs as := by
  induction as generalizing bs with
  | nil => simp
  | cons a as ih =>
    cases bs with
    | nil => simp
    | cons b bs =>
      rw [agree_cons_cons] at h
      rw [joined_cons_cons, joined_cons_cons, ih h.2]
      grind

/-- Axes can be joined where they agree. -/
theorem joinAxes?_eq_some_iff {as bs rs : List ℕ} :
    joinAxes? as bs = some rs ↔ Agree as bs ∧ rs = joined as bs := by
  induction as generalizing bs rs with
  | nil => simp [joinAxes?, eq_comm]
  | cons a as ih =>
    cases bs with
    | nil => simp [joinAxes?, eq_comm]
    | cons b bs =>
      simp only [joinAxes?, Option.bind_eq_some_iff, ih, agree_cons_cons, joined_cons_cons]
      grind

theorem joinAxes?_eq_none_iff {as bs : List ℕ} : joinAxes? as bs = none ↔ ¬Agree as bs := by
  rw [Option.eq_none_iff_forall_ne_some]
  simp [joinAxes?_eq_some_iff]

theorem joinAxes?_comm (as bs : List ℕ) : joinAxes? as bs = joinAxes? bs as := by
  apply Option.ext
  intro rs
  rw [joinAxes?_eq_some_iff, joinAxes?_eq_some_iff, agree_comm]
  exact and_congr_right fun h => by rw [joined_comm h]

/-- What can be repeated to a whole gives way to it. -/
theorem joinAxes?_of_fits {whole own : List ℕ} (h : Fits whole own) :
    joinAxes? own whole = some whole := by
  induction own generalizing whole with
  | nil => rfl
  | cons s ss ih =>
    cases whole with
    | nil => exact h.elim
    | cons r rs =>
      obtain ⟨hsize, hrest⟩ := h
      simp only [joinAxes?, ih hrest, Option.bind_some]
      grind

/-- The combination has as many axes as the one of the two tensors that has more. -/
theorem length_joined (as bs : List ℕ) : (joined as bs).length = max as.length bs.length := by
  simp [joined]

/-! ## Places -/

/-- What is repeated to its own axes stays where it is. -/
theorem source_self {axes : List ℕ} {k : ℕ} (hk : k < volume axes) : source axes axes k = k := by
  induction axes generalizing k with
  | nil =>
    have : k = 0 := Nat.lt_one_iff.mp hk
    rw [this, source]
    simp
  | cons r rs ih =>
    have hr : 0 < r := Nat.pos_of_ne_zero fun h => by simp [volume, h] at hk
    have hrest : k / r < volume rs := by
      rw [Nat.div_lt_iff_lt_mul hr, Nat.mul_comm]
      exact hk
    have hfirst : (if r = 1 then 0 else k % r) = k % r := by
      split
      · next h => rw [h, Nat.mod_one]
      · rfl
    rw [source, ih hrest, hfirst, Nat.mod_add_div]

/-- A multi-index has a number below the size for each axis; the last axis comes first. -/
def InRange (axes index : List ℕ) : Prop := List.Forall₂ (· < ·) index axes

instance (axes index : List ℕ) : Decidable (InRange axes index) :=
  inferInstanceAs (Decidable (List.Forall₂ _ _ _))

/-- The row-major place of a multi-index. -/
def place : List ℕ → List ℕ → ℕ
  | n :: axes, i :: index => i + n * place axes index
  | _, _ => 0

def item? (t : Tensor α) (index : List ℕ) : Option α :=
  if InRange t.axes index then t.toList[place t.axes index]? else none

/-- Where a tensor is read when it is repeated: axes that it lacks are left out, and an axis of size
one has only its first entry. -/
def readAt (axes index : List ℕ) : List ℕ :=
  axes.zipWith (fun n i => if n = 1 then 0 else i) index

theorem place_lt {axes index : List ℕ} (h : InRange axes index) :
    place axes index < volume axes := by
  induction h with
  | nil => exact Nat.one_pos
  | @cons i n index axes hi _ ih =>
    calc i + n * place axes index < n + n * place axes index := Nat.add_lt_add_right hi _
      _ = n * (place axes index + 1) := by ring
      _ ≤ n * volume axes := Nat.mul_le_mul_left n ih

/-- A multi-index of the tensor itself stays. -/
theorem readAt_self {axes index : List ℕ} (h : InRange axes index) : readAt axes index = index := by
  induction h with
  | nil => rfl
  | @cons i n index axes hi _ ih =>
    have hfirst : (if n = 1 then 0 else i) = i := by
      split
      · omega
      · rfl
    rw [readAt, List.zipWith_cons_cons, hfirst]
    exact congrArg (i :: ·) ih

theorem inRange_readAt {whole own index : List ℕ} (hfits : Fits whole own)
    (h : InRange whole index) : InRange own (readAt own index) := by
  induction own generalizing whole index with
  | nil => exact .nil
  | cons s ss ih =>
    cases h with
    | nil => exact hfits.elim
    | @cons i r index rs hi hrest =>
      refine .cons ?_ (ih hfits.2 hrest)
      have := hfits.1
      by_cases hone : s = 1
      · simp [hone]
      · simp only [hone, if_false]
        omega

/-- A place of the whole is taken from the place of the multi-index that is read there. -/
theorem source_place {whole own index : List ℕ} (hfits : Fits whole own)
    (h : InRange whole index) :
    source whole own (place whole index) = place own (readAt own index) := by
  induction own generalizing whole index with
  | nil => cases h <;> rfl
  | cons s ss ih =>
    cases h with
    | nil => exact hfits.elim
    | @cons i r index rs hi hrest =>
      have hr : 0 < r := Nat.zero_lt_of_lt hi
      have hmod : (i + r * place rs index) % r = i := by
        rw [Nat.add_mul_mod_self_left, Nat.mod_eq_of_lt hi]
      have hdiv : (i + r * place rs index) / r = place rs index := by
        rw [Nat.add_mul_div_left _ _ hr, Nat.div_eq_of_lt hi, Nat.zero_add]
      rw [place, source, hmod, hdiv, ih hfits.2 hrest]
      rfl

/-! ## Entries of a combination -/

theorem eq_of_toList {a b : Tensor α} (haxes : a.axes = b.axes) (h : a.toList = b.toList) :
    a = b := by
  cases a
  cases b
  simp only [toList, Array.toList_inj] at haxes h
  subst haxes
  subst h
  rfl

@[simp] theorem axes_map (f : α → β) (a : Tensor α) : (a.map f).axes = a.axes := rfl

@[simp] theorem map_map (g : β → γ) (f : α → β) (a : Tensor α) :
    (a.map f).map g = a.map fun x => g (f x) := by
  simp [map, Function.comp_def]

variable {f : α → β → γ} {a : Tensor α} {b : Tensor β} {t : Tensor γ}

theorem getElem?_toList_repeated {whole : List ℕ} (h : Fits whole a.axes)
    (k : Fin (volume whole)) :
    a.toList[source whole a.axes k]? = some (a.repeated whole h k) := by
  have hlt : source whole a.axes k < a.entries.size := by
    rw [a.size_eq]
    exact source_lt h k.isLt
  simp [toList, repeated, hlt]

/-- Where the axes do not agree there is none. -/
theorem combine_eq_error (h : joinAxes? a.axes b.axes = none) :
    combine f a b = .error .incompatible := by
  have hnone : zipWith? f a b = none := by
    unfold zipWith?
    split
    · rfl
    · next hsome =>
      rw [h] at hsome
      cases hsome
  rw [combine, hnone]

/-- Where the axes agree there is a combination. -/
theorem exists_combine {whole : List ℕ} (hjoin : joinAxes? a.axes b.axes = some whole)
    (hfits : Fits whole a.axes ∧ Fits whole b.axes) :
    ∃ u, combine f a b = .ok u ∧ u.axes = whole ∧ ∀ k : Fin (volume whole),
      u.toList[(k : ℕ)]? = some (f (a.repeated whole hfits.1 k) (b.repeated whole hfits.2 k)) := by
  refine ⟨⟨whole, Array.ofFn fun k => f (a.repeated whole hfits.1 k)
    (b.repeated whole hfits.2 k), by simp⟩, ?_, rfl, fun k => by simp [toList]⟩
  unfold combine zipWith?
  split
  · next t h =>
    split at h
    · cases h
    · next whole' hwhole =>
      rw [hjoin] at hwhole
      cases hwhole
      cases h
      rfl
  · next h =>
    split at h
    · next hnone =>
      rw [hjoin] at hnone
      cases hnone
    · cases h

/-- A combination is known by its axes and its entries. -/
theorem combine_eq_ok_iff :
    combine f a b = .ok t ↔ joinAxes? a.axes b.axes = some t.axes ∧
      ∀ k < volume t.axes, ∃ x y, a.toList[source t.axes a.axes k]? = some x ∧
        b.toList[source t.axes b.axes k]? = some y ∧ t.toList[k]? = some (f x y) := by
  cases hjoin : joinAxes? a.axes b.axes with
  | none =>
    rw [combine_eq_error hjoin]
    simp
  | some whole =>
    have hfits := fits_of_joinAxes? hjoin
    obtain ⟨u, hu, haxes, hentries⟩ := exists_combine (f := f) hjoin hfits
    rw [hu, Except.ok.injEq, Option.some.injEq]
    subst haxes
    constructor
    · rintro rfl
      refine ⟨rfl, fun k hk => ⟨_, _, ?_, ?_, hentries ⟨k, hk⟩⟩⟩
      · exact getElem?_toList_repeated hfits.1 ⟨k, hk⟩
      · exact getElem?_toList_repeated hfits.2 ⟨k, hk⟩
    · rintro ⟨haxes, hall⟩
      refine eq_of_toList haxes (List.ext_getElem? fun k => ?_)
      by_cases hk : k < volume t.axes
      · obtain ⟨x, y, hx, hy, hxy⟩ := hall k hk
        rw [← haxes] at hx hy hk
        rw [getElem?_toList_repeated hfits.1 ⟨k, hk⟩, Option.some.injEq] at hx
        rw [getElem?_toList_repeated hfits.2 ⟨k, hk⟩, Option.some.injEq] at hy
        rw [hentries ⟨k, hk⟩, hxy, hx, hy]
      · rw [List.getElem?_eq_none (by simpa [haxes] using hk),
          List.getElem?_eq_none (by simpa using hk)]

/-! ## Parts of a formula -/

/-- Repeated to the axes of the whole, the part has the entry `p d` where the whole has `d`. -/
def Follows (whole : Tensor δ) (part : Tensor α) (p : δ → α) : Prop :=
  Fits whole.axes part.axes ∧ ∀ k < volume whole.axes, ∃ d, whole.toList[k]? = some d ∧
    part.toList[source whole.axes part.axes k]? = some (p d)

namespace Follows

variable {whole : Tensor δ} {p : δ → α} {q : δ → β}

/-- A combination is followed by the first of the two tensors. -/
theorem of_first (h : combine f a b = .ok t) (p : γ → α) (hp : ∀ x y, p (f x y) = x) :
    Follows t a p := by
  obtain ⟨hjoin, hentries⟩ := combine_eq_ok_iff.mp h
  refine ⟨(fits_of_joinAxes? hjoin).1, fun k hk => ?_⟩
  obtain ⟨x, y, hx, _, hxy⟩ := hentries k hk
  exact ⟨f x y, hxy, by rw [hx, hp]⟩

/-- A combination is followed by the second of the two tensors. -/
theorem of_second (h : combine f a b = .ok t) (q : γ → β) (hq : ∀ x y, q (f x y) = y) :
    Follows t b q := by
  obtain ⟨hjoin, hentries⟩ := combine_eq_ok_iff.mp h
  refine ⟨(fits_of_joinAxes? hjoin).2, fun k hk => ?_⟩
  obtain ⟨x, y, _, hy, hxy⟩ := hentries k hk
  exact ⟨f x y, hxy, by rw [hy, hq]⟩

/-- The whole follows itself. -/
theorem self (whole : Tensor δ) (p : δ → α) : Follows whole (whole.map p) p := by
  refine ⟨fits_refl _, fun k hk => ?_⟩
  have hlt : k < whole.toList.length := by rwa [length_toList]
  refine ⟨whole.toList[k], List.getElem?_eq_getElem hlt, ?_⟩
  show (whole.map p).toList[source whole.axes whole.axes k]? = _
  rw [source_self hk, toList_map, List.getElem?_map, List.getElem?_eq_getElem hlt]
  rfl

theorem map (h : Follows whole a p) (g : α → γ) : Follows whole (a.map g) (fun d => g (p d)) := by
  refine ⟨h.1, fun k hk => ?_⟩
  obtain ⟨d, hd, hp⟩ := h.2 k hk
  refine ⟨d, hd, ?_⟩
  show (a.map g).toList[source whole.axes a.axes k]? = _
  rw [toList_map, List.getElem?_map, hp]
  rfl

/-- Two parts whose axes join to those of the whole are combined as the formula says. -/
theorem combine (ha : Follows whole a p) (hb : Follows whole b q)
    (hjoin : joinAxes? a.axes b.axes = some whole.axes) (f : α → β → γ) :
    Tensor.combine f a b = .ok (whole.map fun d => f (p d) (q d)) := by
  refine combine_eq_ok_iff.mpr ⟨hjoin, fun k hk => ?_⟩
  obtain ⟨d, hd, hp⟩ := ha.2 k hk
  obtain ⟨e, he, hq⟩ := hb.2 k hk
  have hde : d = e := by
    rw [hd] at he
    exact Option.some.inj he
  subst hde
  refine ⟨p d, q d, hp, hq, ?_⟩
  rw [toList_map, List.getElem?_map, hd]
  rfl

/-- The whole is not made larger by one of its parts. -/
theorem combine_whole (ha : Follows whole a p) (q : δ → β) (f : α → β → γ) :
    Tensor.combine f a (whole.map q) = .ok (whole.map fun d => f (p d) (q d)) :=
  ha.combine (.self whole q) (joinAxes?_of_fits ha.1) f

theorem whole_combine (ha : Follows whole a p) (q : δ → β) (f : β → α → γ) :
    Tensor.combine f (whole.map q) a = .ok (whole.map fun d => f (q d) (p d)) := by
  refine (self whole q).combine ha ?_ f
  rw [joinAxes?_comm]
  exact joinAxes?_of_fits ha.1

/-- At a multi-index of the whole, the part is read at the same one less the axes it lacks. -/
theorem item? (h : Follows whole a p) {index : List ℕ} (hindex : InRange whole.axes index) :
    ∃ d, whole.item? index = some d ∧ a.item? (readAt a.axes index) = some (p d) := by
  obtain ⟨d, hd, hp⟩ := h.2 _ (place_lt hindex)
  rw [source_place h.1 hindex] at hp
  refine ⟨d, ?_, ?_⟩
  · rw [Tensor.item?, if_pos hindex, hd]
  · rw [Tensor.item?, if_pos (inRange_readAt h.1 hindex), hp]

end Follows

/-- Coordinates that a formula gives are stacked unless they have the most axes already. -/
theorem stack_map (whole : Tensor δ) (x y z : δ → α) :
    stack (whole.map x) (whole.map y) (whole.map z) =
      if whole.rank < axisLimit then .ok (whole.map fun d => ⟨x d, y d, z d⟩)
      else .error (.noSuchTensor axisLimit (whole.rank + 1)) := by
  rw [stack, dif_pos ⟨rfl, rfl⟩, rank_map]
  by_cases h : whole.rank < axisLimit
  · rw [if_pos h, if_pos h, Except.ok.injEq]
    refine eq_of_toList rfl ?_
    simp [map, toList, List.zipWith_map_left, List.zipWith_map_right, List.zip_map']
  · rw [if_neg h, if_neg h]

/-! ## Rows of a table -/

/-- A tensor has one axis less than the table whose only row it is. -/
theorem rank_of_onlyRow {row : Tensor α} (h : a.onlyRow = .ok row) : row.rank = a.rank + 1 := by
  rw [onlyRow] at h
  split at h
  · rw [reshape, ofShape?] at h
    split at h
    · next hrow =>
      split at hrow
      · cases hrow
        cases h
        simp [rank, shape]
      · cases hrow
    · cases h
  · cases h

@[simp] theorem onlyRow_scalar (x : α) : (scalar x).onlyRow = .ok (ofList [x]) := rfl

/-! ## Tensors without axes -/

/-- A tensor with a single entry and no axes is that entry. -/
theorem eq_scalar_of_single? {x : α} (h : a.single? = some x) : a = scalar x := by
  rw [single?, Option.ite_none_right_eq_some] at h
  obtain ⟨haxes, hhead⟩ := h
  have hnil : a.axes = [] := List.isEmpty_iff.mp haxes
  refine eq_of_toList hnil ?_
  have hlength : a.toList.length = 1 := by rw [length_toList, hnil, volume]
  obtain ⟨y, hy⟩ := List.length_eq_one_iff.mp hlength
  rw [hy, List.head?_cons, Option.some.injEq] at hhead
  rw [hy, hhead]
  rfl

theorem exists_single? (h : a.axes = []) : ∃ x, a.single? = some x := by
  have hlength : a.toList.length = 1 := by rw [length_toList, h, volume]
  obtain ⟨x, hx⟩ := List.length_eq_one_iff.mp hlength
  exact ⟨x, by simp [single?, h, hx]⟩

@[simp] theorem map_scalar (f : α → β) (x : α) : (scalar x).map f = scalar (f x) := by
  simp [map, scalar]

@[simp] theorem combine_scalar (f : α → β → γ) (x : α) (y : β) :
    combine f (scalar x) (scalar y) = .ok (scalar (f x y)) := by
  refine combine_eq_ok_iff.mpr ⟨rfl, fun k hk => ⟨x, y, ?_, ?_, ?_⟩⟩ <;>
    simp_all [scalar, volume, toList, source]

end Tensor

end AntennaArray
