import Mathlib.Logic.Equiv.Fin.Basic
import AntennaArray.Proofs.Rotation
import AntennaArray.Placement

/-!
# The layout of a panel

The indices of a panel go over its rows and columns, each pair once (`Panel.seat_bijective`). A
rotation keeps distances (`Rotation.distSq_toGlobal`), so two elements are as far apart in space as
their rows and columns tell, whatever the bearing and the downtilt (`Panel.distSq_globalPoint`), and
no two of them share a place. An element by itself is found where the list of all elements has it
(`Panel.isLaidOut`).
-/

namespace AntennaArray

open Scalar

/-! ## Distances -/

namespace Point

def sub (p q : Point ℝ) : Point ℝ := ⟨p.x - q.x, p.y - q.y, p.z - q.z⟩

noncomputable def distSq (p q : Point ℝ) : ℝ := (p.sub q).dot (p.sub q)

theorem distSq_eq (p q : Point ℝ) :
    p.distSq q = (p.x - q.x) ^ 2 + (p.y - q.y) ^ 2 + (p.z - q.z) ^ 2 := by
  simp only [distSq, sub, dot_real]
  ring

theorem distSq_self (p : Point ℝ) : p.distSq p = 0 := by
  rw [distSq_eq, sub_self, sub_self, sub_self]
  norm_num

end Point

namespace Rotation

variable {r : Rotation ℝ}

/-- A point that is carried into space and pulled back is as before. -/
theorem pullBack_toGlobal (hr : r.IsProper) (p : Point ℝ) : r.pullBack (r.toGlobal p) = p := by
  have hbearing := Real.sin_sq_add_cos_sq r.bearing
  have htilt : r.cosTilt ^ 2 + r.sinTilt ^ 2 = 1 := hr
  obtain ⟨x, y, z⟩ := p
  simp only [toGlobal, pullBack, Matrix.apply, Matrix.transpose, matrix, Point.dot_real, sin_real,
    cos_real, zero_real, Point.mk.injEq]
  generalize Real.sin r.bearing = sa at *
  generalize Real.cos r.bearing = ca at *
  refine ⟨?_, ?_, ?_⟩
  · linear_combination (r.cosTilt ^ 2 * x + r.cosTilt * r.sinTilt * z) * hbearing + x * htilt
  · linear_combination y * hbearing
  · linear_combination (r.sinTilt ^ 2 * z + r.cosTilt * r.sinTilt * x) * hbearing + z * htilt

theorem dot_toGlobal_toGlobal (hr : r.IsProper) (p q : Point ℝ) :
    (r.toGlobal p).dot (r.toGlobal q) = p.dot q := by
  rw [dot_toGlobal, pullBack_toGlobal hr]

theorem toGlobal_sub (r : Rotation ℝ) (p q : Point ℝ) :
    r.toGlobal (p.sub q) = (r.toGlobal p).sub (r.toGlobal q) := by
  simp only [toGlobal, Matrix.apply, Point.sub, Point.dot_real, Point.mk.injEq]
  refine ⟨?_, ?_, ?_⟩ <;> ring

/-- A rotation keeps the distance between two points. -/
theorem distSq_toGlobal (hr : r.IsProper) (p q : Point ℝ) :
    (r.toGlobal p).distSq (r.toGlobal q) = p.distSq q := by
  rw [Point.distSq, ← toGlobal_sub, dot_toGlobal_toGlobal hr, Point.distSq]

/-- The origin stays where it is. -/
theorem toGlobal_origin (r : Rotation ℝ) : r.toGlobal ⟨0, 0, 0⟩ = ⟨0, 0, 0⟩ := by
  simp [toGlobal, Matrix.apply]

end Rotation

/-! ## Indices -/

namespace Value

variable {v : Value} {n : ℤ} {count : ℕ}

/-- The integers from zero up to the count are indices. -/
theorem indexBelow_of_mem (i : Fin count) (h : v.coerceInteger = .ok (i : ℕ)) :
    v.indexBelow count = .ok i := by
  have hmem : 0 ≤ ((i : ℕ) : ℤ) ∧ ((i : ℕ) : ℤ).toNat < count := ⟨Int.natCast_nonneg i, i.isLt⟩
  rw [indexBelow, h, ok_bind, dif_pos hmem]
  rfl

/-- Other integers are not. -/
theorem indexBelow_of_not_mem (h : v.coerceInteger = .ok n) (hout : n < 0 ∨ count ≤ n) :
    v.indexBelow count = .error (.noElementAt v.plain count) := by
  have hnot : ¬(0 ≤ n ∧ n.toNat < count) := by omega
  rw [indexBelow, h, ok_bind, dif_neg hnot]
  rfl

/-- What succeeds for each index and fails for the other integers fails exactly for those. -/
theorem eq_error_iff_of_index {β : Type} {x : Attempt β} {f : Fault} {place : Fin count → β}
    (hindex : ∀ i : Fin count, n = (i : ℕ) → x = .ok (place i))
    (hout : n < 0 ∨ count ≤ n → x = .error f) : x = .error f ↔ n < 0 ∨ count ≤ n := by
  refine ⟨fun herror => ?_, hout⟩
  by_contra hin
  have hvalue : n = (n.toNat : ℕ) := by omega
  rw [hindex ⟨n.toNat, by omega⟩ hvalue] at herror
  cases herror

end Value

namespace Panel

section Seats

variable {α : Type}

/-- The row and the column of an element. -/
def seat (p : Panel α) (i : Fin p.size) : Fin p.rows × Fin p.columns :=
  (⟨i / p.columns, Nat.div_lt_of_lt_mul (Nat.mul_comm p.rows p.columns ▸ i.isLt)⟩,
    ⟨i % p.columns, Nat.mod_lt _ p.columns_pos⟩)

/-- Every row and column have one element. -/
theorem seat_bijective (p : Panel α) : Function.Bijective p.seat :=
  (finProdFinEquiv (m := p.rows) (n := p.columns)).symm.bijective

end Seats

/-! ## Elements in space -/

variable (p : Panel ℝ)

theorem points_eq_ofFn : p.points = List.ofFn fun i : Fin p.size => p.globalPoint i :=
  List.ext_getElem (by simp) (by simp [points_eq])

theorem getElem?_points (i : Fin p.size) : p.points[(i : ℕ)]? = some (p.globalPoint i) := by
  rw [points_eq, List.getElem?_map, List.getElem?_range i.isLt, Option.map_some]

/-- Elements are as far apart as their rows and columns tell. -/
theorem distSq_globalPoint (i j : Fin p.size) :
    (p.globalPoint i).distSq (p.globalPoint j)
      = (p.horizontalSpacing * ((p.seat i).2 - (p.seat j).2 : ℝ)) ^ 2
        + (p.verticalSpacing * ((p.seat i).1 - (p.seat j).1 : ℝ)) ^ 2 := by
  have hr : p.rotation.IsProper := Rotation.isProper_ofAngles p.bearing p.downtilt
  rw [globalPoint, globalPoint, Rotation.distSq_toGlobal hr, Point.distSq_eq]
  simp only [localPoint, seat, zero_real, ofInt_real, Int.cast_natCast]
  ring

/-- The first element is at the origin. -/
theorem globalPoint_zero : p.globalPoint 0 = ⟨0, 0, 0⟩ := by
  have hlocal : p.localPoint 0 = ⟨0, 0, 0⟩ := by simp [localPoint]
  rw [globalPoint, hlocal, Rotation.toGlobal_origin]

/-- Two elements are at least as far apart as the lesser spacing. -/
theorem sq_le_distSq {p : Panel ℝ} {s : ℝ} (hs : 0 ≤ s) (hH : s ≤ p.horizontalSpacing)
    (hV : s ≤ p.verticalSpacing) {i j : Fin p.size} (h : i ≠ j) :
    s ^ 2 ≤ (p.globalPoint i).distSq (p.globalPoint j) := by
  -- in one of the two directions there is a whole step between them
  have hstep {n : ℕ} {a b : Fin n} {spacing : ℝ} (hab : a ≠ b) (hspacing : s ≤ spacing) :
      s ^ 2 ≤ (spacing * ((a : ℕ) - (b : ℕ) : ℝ)) ^ 2 := by
    have hne : ((a : ℕ) : ℤ) - (b : ℕ) ≠ 0 := by
      rw [sub_ne_zero]
      exact_mod_cast fun heq => hab (Fin.ext heq)
    have hone : (1 : ℝ) ≤ |((a : ℕ) : ℝ) - (b : ℕ)| := by
      exact_mod_cast Int.one_le_abs hne
    refine sq_le_sq.mpr ?_
    rw [abs_of_nonneg hs, abs_mul, abs_of_nonneg (hs.trans hspacing)]
    exact hspacing.trans (le_mul_of_one_le_right (hs.trans hspacing) hone)
  rw [distSq_globalPoint]
  have hseat : p.seat i ≠ p.seat j := fun heq => h (p.seat_bijective.injective heq)
  by_cases hrow : (p.seat i).1 = (p.seat j).1
  · have hcolumn : (p.seat i).2 ≠ (p.seat j).2 := fun heq => hseat (Prod.ext hrow heq)
    exact (hstep hcolumn hH).trans (le_add_of_nonneg_right (sq_nonneg _))
  · exact (hstep hrow hV).trans (le_add_of_nonneg_left (sq_nonneg _))

/-- Elements share no place. -/
theorem globalPoint_injective {p : Panel ℝ} (hH : 0 < p.horizontalSpacing)
    (hV : 0 < p.verticalSpacing) : Function.Injective fun i : Fin p.size => p.globalPoint i := by
  intro i j hij
  by_contra hne
  have hpos : 0 < min p.horizontalSpacing p.verticalSpacing := lt_min hH hV
  have hapart := sq_le_distSq hpos.le (min_le_left _ _) (min_le_right _ _) hne
  rw [show p.globalPoint i = p.globalPoint j from hij, Point.distSq_self] at hapart
  exact (pow_pos hpos 2).not_ge hapart

/-! ## Elements by their indices -/

/-- No count is beyond the real numbers. -/
theorem isBeyond_real (n : ℕ) : isBeyond ℝ n = false := rfl

variable {v : Value} {n : ℤ}

theorem localLocation_of_index (i : Fin p.size) (h : v.coerceInteger = .ok (i : ℕ)) :
    p.localLocation v = .ok (p.localPoint i) := by
  rw [localLocation, Value.indexBelow_of_mem i h, ok_bind, isBeyond_real, isBeyond_real]
  rfl

theorem localLocation_of_out (h : v.coerceInteger = .ok n) (hout : n < 0 ∨ p.size ≤ n) :
    p.localLocation v = .error (.noElementAt v.plain p.size) := by
  rw [localLocation, Value.indexBelow_of_not_mem h hout, error_bind]

theorem location_of_index (i : Fin p.size) (h : v.coerceInteger = .ok (i : ℕ)) :
    p.location v = .ok (p.globalPoint i) := by
  rw [location, p.localLocation_of_index i h, ok_bind]
  rfl

theorem location_of_out (h : v.coerceInteger = .ok n) (hout : n < 0 ∨ p.size ≤ n) :
    p.location v = .error (.noElementAt v.plain p.size) := by
  rw [location, p.localLocation_of_out h hout, error_bind]

/-- The elements stand in rows and columns. An integer that is no index is refused, in the frame of
the panel and in space; by an index an element is found where the list of all elements has it. Each
index has a row and a column of its own, which tell the distances. -/
structure IsLaidOut : Prop where
  localLocation_iff : ∀ v (n : ℤ), v.coerceInteger = .ok n →
    (p.localLocation v = .error (.noElementAt v.plain p.size) ↔ n < 0 ∨ p.size ≤ n)
  location_iff : ∀ v (n : ℤ), v.coerceInteger = .ok n →
    (p.location v = .error (.noElementAt v.plain p.size) ↔ n < 0 ∨ p.size ≤ n)
  found : ∀ v (i : Fin p.size), v.coerceInteger = .ok (i : ℕ) →
    p.localLocation v = .ok (p.localPoint i) ∧
      ∃ q, p.location v = .ok q ∧ p.points[(i : ℕ)]? = some q
  length_points : p.points.length = p.size
  seat_bijective : Function.Bijective p.seat
  distSq_eq : ∀ (i j : Fin p.size) (a b : Point ℝ), p.points[(i : ℕ)]? = some a →
    p.points[(j : ℕ)]? = some b →
      a.distSq b = (p.horizontalSpacing * ((p.seat i).2 - (p.seat j).2 : ℝ)) ^ 2
        + (p.verticalSpacing * ((p.seat i).1 - (p.seat j).1 : ℝ)) ^ 2
  first : p.points[0]? = some ⟨0, 0, 0⟩
  nodup : p.points.Nodup

/-- A panel with spacings is laid out in its rows and columns, however it is turned. -/
theorem isLaidOut (hH : 0 < p.horizontalSpacing) (hV : 0 < p.verticalSpacing) : p.IsLaidOut where
  localLocation_iff _ _ h := Value.eq_error_iff_of_index
    (fun i hi => p.localLocation_of_index i (hi ▸ h)) (p.localLocation_of_out h)
  location_iff _ _ h := Value.eq_error_iff_of_index
    (fun i hi => p.location_of_index i (hi ▸ h)) (p.location_of_out h)
  found v i h :=
    ⟨p.localLocation_of_index i h, _, p.location_of_index i h, p.getElem?_points i⟩
  length_points := p.length_points
  seat_bijective := p.seat_bijective
  distSq_eq i j a b ha hb := by
    rw [getElem?_points, Option.some.injEq] at ha hb
    rw [← ha, ← hb, distSq_globalPoint]
  first := by
    rw [← p.globalPoint_zero]
    exact p.getElem?_points ⟨0, p.size_pos⟩
  nodup := by
    rw [points_eq_ofFn]
    exact List.nodup_ofFn.mpr (globalPoint_injective hH hV)

/-- In two rows of three, the last element is two columns and one row away from the first. -/
theorem isLaidOut_twoByThree :
    let p : Panel ℝ := ⟨2, 3, 1 / 2, 2, 1, 1 / 3, by decide, by decide⟩
    p.location (.number (.integer 6)) = .error (.noElementAt "6" 6) ∧
      ∃ a b, p.points[0]? = some a ∧ p.points[5]? = some b ∧ a.distSq b = 5 := by
  intro p
  have h : p.IsLaidOut := isLaidOut p (by norm_num [p]) (by norm_num [p])
  refine ⟨(h.location_iff _ 6 rfl).mpr (.inr (by decide)), _, _, p.getElem?_points ⟨0, by decide⟩,
    p.getElem?_points ⟨5, by decide⟩, ?_⟩
  rw [h.distSq_eq _ _ _ _ (p.getElem?_points ⟨0, by decide⟩) (p.getElem?_points ⟨5, by decide⟩)]
  norm_num [p, seat]

end Panel

end AntennaArray
