import AntennaArray.Proofs.Broadcast
import AntennaArray.PhasedArray

/-!
# Formulas over tensors

A formula of a direction goes over tensors of inclinations and azimuths part by part: what depends
on one of the angles alone keeps the axes of that one. The result is as if the formula had been
taken at each pair of angles on its own (`TakesTensors`); what is refused are axes that do not agree
and, for some formulas, too many of them. None of this depends on the arithmetic, so it holds in
doubles bit by bit.
-/

namespace AntennaArray

open Scalar

variable {α β L : Type}

/-- `F` goes over tensors as `f` goes over directions. It succeeds where the axes agree and their
number is admitted. The result has the joined axes, and its entry at a multi-index is what `F` gives
for the two angles alone that stand there when the tensors are repeated. -/
def TakesTensors (admits : ℕ → Prop) (f : Direction α → β)
    (F : Tensor α → Tensor α → Attempt (Tensor β)) : Prop :=
  ∀ θ φ : Tensor α,
    ((∃ t, F θ φ = .ok t) ↔ Tensor.Agree θ.axes φ.axes ∧ admits (max θ.rank φ.rank)) ∧
    ∀ t, F θ φ = .ok t → t.axes = Tensor.joined θ.axes φ.axes ∧
      ∀ index, Tensor.InRange t.axes index → ∃ x y,
        θ.item? (Tensor.readAt θ.axes index) = some x ∧
        φ.item? (Tensor.readAt φ.axes index) = some y ∧
        t.item? index = some (f ⟨x, y⟩) ∧ F (.scalar x) (.scalar y) = .ok (.scalar (f ⟨x, y⟩))

variable {θ φ : Tensor α} {ds : Tensor (Direction α)}

/-! ## The directions of two tensors -/

section Directions

variable (h : overDirections id θ φ = .ok ds)
include h

theorem axes_of_overDirections : Tensor.joinAxes? θ.axes φ.axes = some ds.axes :=
  (Tensor.combine_eq_ok_iff.mp h).1

theorem axes_of_overDirections_swap : Tensor.joinAxes? φ.axes θ.axes = some ds.axes := by
  rw [Tensor.joinAxes?_comm]
  exact axes_of_overDirections h

theorem rank_of_overDirections : ds.rank = max θ.rank φ.rank := by
  have haxes := (Tensor.joinAxes?_eq_some_iff.mp (axes_of_overDirections h)).2
  rw [Tensor.rank, haxes, Tensor.length_joined]
  rfl

theorem follows_theta : ds.Follows θ Direction.theta :=
  .of_first h Direction.theta fun _ _ => rfl

theorem follows_phi : ds.Follows φ Direction.phi :=
  .of_second h Direction.phi fun _ _ => rfl

end Directions

theorem exists_overDirections (h : Tensor.Agree θ.axes φ.axes) :
    ∃ ds, overDirections id θ φ = .ok ds := by
  have hjoin := Tensor.joinAxes?_eq_some_iff.mpr ⟨h, rfl⟩
  obtain ⟨ds, hds, -⟩ := Tensor.exists_combine (f := fun t p => id (Direction.mk t p)) hjoin
    (Tensor.fits_of_joinAxes? hjoin)
  exact ⟨ds, hds⟩

/-- What is aimed at as a single direction has a single inclination and a single azimuth. -/
theorem Aim.pair_of_single {aim : Aim α} {d : Direction α} (h : aim.single = .ok d) :
    aim.pair = .ok (.scalar d.theta, .scalar d.phi) := by
  obtain ⟨⟨θ, φ⟩, hpair, h⟩ := exists_of_bind_eq_ok h
  dsimp only at h
  split at h
  · next x y hx hy =>
    cases h
    rw [hpair, Tensor.eq_scalar_of_single? hx, Tensor.eq_scalar_of_single? hy]
  · cases h

/-- What succeeds only with axes that agree and are admitted, and then is made of the directions of
two tensors, goes over them. -/
theorem takesTensors_of {admits : ℕ → Prop} {f : Direction α → β}
    {F : Tensor α → Tensor α → Attempt (Tensor β)} (hzero : admits 0)
    (hagree : ∀ {θ φ t}, F θ φ = .ok t →
      Tensor.Agree θ.axes φ.axes ∧ admits (max θ.rank φ.rank))
    (hspread : ∀ {θ φ ds}, overDirections id θ φ = .ok ds → admits ds.rank →
      F θ φ = .ok (ds.map f)) : TakesTensors admits f F := by
  intro θ φ
  constructor
  · constructor
    · rintro ⟨t, ht⟩
      exact hagree ht
    · rintro ⟨h, hadmits⟩
      obtain ⟨ds, hds⟩ := exists_overDirections h
      exact ⟨_, hspread hds (by rwa [rank_of_overDirections hds])⟩
  · intro t ht
    obtain ⟨h, hadmits⟩ := hagree ht
    obtain ⟨ds, hds⟩ := exists_overDirections h
    rw [← rank_of_overDirections hds] at hadmits
    rw [hspread hds hadmits, Except.ok.injEq] at ht
    subst ht
    refine ⟨(Tensor.joinAxes?_eq_some_iff.mp (axes_of_overDirections hds)).2,
      fun index hindex => ?_⟩
    obtain ⟨d, hd, hθ⟩ := (follows_theta hds).item? hindex
    obtain ⟨d', hd', hφ⟩ := (follows_phi hds).item? hindex
    obtain ⟨d'', hd'', hf⟩ := (Tensor.Follows.self ds f).item? hindex
    have hsame : d' = d ∧ d'' = d := by simp_all
    rw [hsame.1] at hφ
    rw [hsame.2, Tensor.readAt_self hindex] at hf
    refine ⟨d.theta, d.phi, hθ, hφ, hf, ?_⟩
    rw [hspread (Tensor.combine_scalar _ _ _) hzero, Tensor.map_scalar]
    rfl

/-! ## Gains of an element -/

namespace Radiator

variable [Scalar α] [LevelScale α L]

/-- Only an element without directivity limits the number of axes. -/
def Admits (r : Radiator α) (rank : ℕ) : Prop := r = .isotropic → rank ≤ repetitionLimit

omit [Scalar α] [LevelScale α L] in
theorem screenRank_eq_ok_iff {r : Radiator α} {rank : ℕ} :
    r.screenRank rank = .ok () ↔ r.Admits rank := by
  cases r with
  | isotropic =>
    unfold screenRank Admits
    by_cases h : rank ≤ repetitionLimit <;> simp [h]
  | cosine | parabolic => simp [screenRank, Admits]

theorem spread_eq_error (r : Radiator α) (h : ¬Tensor.Agree θ.axes φ.axes) :
    r.spread θ φ = (.error .incompatible : Attempt (Tensor L)) := by
  have hnone := Tensor.joinAxes?_eq_none_iff.mpr h
  have hswap := Tensor.joinAxes?_eq_none_iff.mpr (mt Tensor.agree_comm.mp h)
  cases r <;> simp [spread, Tensor.combine_eq_error, hnone, hswap]

theorem spread_eq_ok (r : Radiator α) (h : overDirections id θ φ = .ok ds) :
    r.spread θ φ = .ok (ds.map r.gain : Tensor L) := by
  have hθ := follows_theta h
  have hφ := follows_phi h
  have hjoin := axes_of_overDirections h
  have hswap := axes_of_overDirections_swap h
  cases r with
  | isotropic => exact hθ.combine hφ hjoin _
  | cosine hw vw o g =>
    have hx := (hφ.map fun p => Angle.wrap (p - o)).map fun p => pow (cos (p / ofInt 2)) hw
    have hy := (hθ.map Angle.clamp).map fun t => pow (cos ((t - pi / ofInt 2) / ofInt 2)) vw
    rw [spread, hx.combine hy hswap, ok_bind, Tensor.map_map]
    rfl
  | parabolic p =>
    have hx := ((hθ.map Angle.clamp).map Angle.toDegrees).map fun x =>
      attenuation p.sideLobeAttenuation p.vertical (x - ofInt 90)
    have hy := ((hφ.map fun x => Angle.wrap (x - p.orientation)).map Angle.toDegrees).map fun x =>
      attenuation p.maxAttenuation p.horizontal x
    rw [spread, hx.combine hy hjoin, ok_bind, Tensor.map_map]
    rfl

theorem gains_eq_ok {r : Radiator α} (h : overDirections id θ φ = .ok ds)
    (hr : r.Admits ds.rank) : r.gains θ φ = .ok (ds.map r.gain : Tensor L) := by
  rw [rank_of_overDirections h] at hr
  have hθ : r.Admits θ.rank := fun hiso => le_trans (le_max_left _ _) (hr hiso)
  have hφ : r.Admits φ.rank := fun hiso => le_trans (le_max_right _ _) (hr hiso)
  rw [gains, screenRank_eq_ok_iff.mpr hθ, ok_bind, screenRank_eq_ok_iff.mpr hφ, ok_bind,
    spread_eq_ok r h]

/-- Gains of tensors are those of angles that agree and are admitted. -/
theorem agree_of_gains {r : Radiator α} {t : Tensor L} (h : r.gains θ φ = .ok t) :
    Tensor.Agree θ.axes φ.axes ∧ r.Admits (max θ.rank φ.rank) := by
  obtain ⟨_, hθ, h⟩ := exists_of_bind_eq_ok h
  obtain ⟨_, hφ, h⟩ := exists_of_bind_eq_ok h
  rw [screenRank_eq_ok_iff] at hθ hφ
  constructor
  · by_contra hagree
    rw [spread_eq_error r hagree] at h
    cases h
  · intro hiso
    exact max_le (hθ hiso) (hφ hiso)

end Radiator

/-! ## Vectors and rotated frames -/

section Frames

variable [Scalar α]

theorem overVectors_eq (h : overDirections id θ φ = .ok ds) :
    overVectors θ φ = if ds.rank < Tensor.axisLimit then .ok (ds.map Direction.vector)
      else .error (.noSuchTensor Tensor.axisLimit (ds.rank + 1)) := by
  have hθ := follows_theta h
  have hφ := follows_phi h
  have hjoin := axes_of_overDirections h
  rw [overVectors, (hθ.map sin).combine (hφ.map cos) hjoin, ok_bind,
    (hθ.map sin).combine (hφ.map sin) hjoin, ok_bind,
    (hθ.map cos).combine (hφ.map fun _ => one) hjoin, ok_bind, Tensor.stack_map]
  rfl

/-- Vectors of tensors are those of angles that agree, with room for one more axis. -/
theorem agree_of_overVectors {t : Tensor (Point α)} (h : overVectors θ φ = .ok t) :
    Tensor.Agree θ.axes φ.axes ∧ max θ.rank φ.rank < Tensor.axisLimit := by
  by_cases hagree : Tensor.Agree θ.axes φ.axes
  · obtain ⟨ds, hds⟩ := exists_overDirections hagree
    rw [overVectors_eq hds, ← rank_of_overDirections hds] at *
    refine ⟨hagree, ?_⟩
    by_contra hrank
    rw [if_neg hrank] at h
    cases h
  · exfalso
    simp [overVectors, Tensor.combine_eq_error, Tensor.joinAxes?_eq_none_iff.mpr hagree] at h

namespace Rotation

variable (r : Rotation α)

theorem toLocals_eq_ok (h : overDirections id θ φ = .ok ds) :
    r.toLocals θ φ =
      .ok (ds.map fun d => (r.toLocal d).theta, ds.map fun d => (r.toLocal d).phi) := by
  have hθ := follows_theta h
  have hφ := (follows_phi h).map fun p => p - r.bearing
  have hjoin := axes_of_overDirections h
  have hswap := axes_of_overDirections_swap h
  rw [toLocals, ((hφ.map cos).map (r.sinTilt * ·)).combine (hθ.map sin) hswap, ok_bind,
    ((hθ.map cos).map (r.cosTilt * ·)).combine_whole, ok_bind,
    (hφ.map sin).combine (hθ.map sin) hswap, ok_bind,
    ((hθ.map sin).map (r.cosTilt * ·)).combine (hφ.map cos) hjoin, ok_bind,
    ((hθ.map cos).map (r.sinTilt * ·)).whole_combine, ok_bind,
    (Tensor.Follows.self ds _).combine_whole, ok_bind, Tensor.map_map]
  rfl

theorem toLocals_eq_error (h : ¬Tensor.Agree θ.axes φ.axes) :
    r.toLocals θ φ = .error .incompatible := by
  have hswap := Tensor.joinAxes?_eq_none_iff.mpr (mt Tensor.agree_comm.mp h)
  simp [toLocals, Tensor.combine_eq_error, hswap]

theorem polarizationAngles_eq_ok (h : overDirections id θ φ = .ok ds) :
    r.polarizationAngles θ φ = .ok (ds.map r.polarizationAngle) := by
  have hθ := follows_theta h
  have hφ := (follows_phi h).map fun p => p - r.bearing
  have hjoin := axes_of_overDirections h
  rw [polarizationAngles, ((hθ.map cos).map (r.sinTilt * ·)).combine (hφ.map cos) hjoin, ok_bind,
    ((hθ.map sin).map (r.cosTilt * ·)).combine_whole, ok_bind,
    ((hφ.map sin).map (r.sinTilt * ·)).combine_whole]
  rfl

theorem polarizationAngles_eq_error (h : ¬Tensor.Agree θ.axes φ.axes) :
    r.polarizationAngles θ φ = .error .incompatible := by
  simp [polarizationAngles, Tensor.combine_eq_error, Tensor.joinAxes?_eq_none_iff.mpr h]

end Rotation

end Frames

/-! ## Fields of an array -/

namespace PhasedArray

variable [Scalar α] [LevelScale α L] (a : PhasedArray α)

theorem fields_eq_ok (h : overDirections id θ φ = .ok ds) (hr : a.radiator.Admits ds.rank) :
    a.fields θ φ = .ok (ds.map (a.field (L := L))) := by
  have hlocal : overDirections id (ds.map fun d => (a.rotation.toLocal d).theta)
      (ds.map fun d => (a.rotation.toLocal d).phi) = .ok (ds.map a.rotation.toLocal) :=
    (Tensor.Follows.self ds _).combine_whole _ _
  rw [fields, Rotation.toLocals_eq_ok _ h, ok_bind]
  dsimp only
  rw [Radiator.gains_eq_ok hlocal hr, ok_bind, Rotation.polarizationAngles_eq_ok _ h, ok_bind]
  simp only [Tensor.map_map]
  rw [(Tensor.Follows.self ds _).combine_whole, ok_bind,
    (Tensor.Follows.self ds _).combine_whole, ok_bind, (Tensor.Follows.self ds _).combine_whole]
  rfl

/-- Fields over tensors are those of angles that agree and are admitted. -/
theorem agree_of_fields {t : Tensor (Field α)} (h : a.fields (L := L) θ φ = .ok t) :
    Tensor.Agree θ.axes φ.axes ∧ a.radiator.Admits (max θ.rank φ.rank) := by
  obtain ⟨⟨u, v⟩, hlocals, h⟩ := exists_of_bind_eq_ok h
  obtain ⟨levels, hgains, -⟩ := exists_of_bind_eq_ok h
  by_cases hagree : Tensor.Agree θ.axes φ.axes
  · obtain ⟨ds, hds⟩ := exists_overDirections hagree
    rw [Rotation.toLocals_eq_ok _ hds] at hlocals
    cases hlocals
    refine ⟨hagree, ?_⟩
    have := (Radiator.agree_of_gains hgains).2
    simpa [rank_of_overDirections hds] using this
  · rw [Rotation.toLocals_eq_error _ hagree] at hlocals
    cases hlocals

/-! ## Rows of steering vectors -/

section Rows

omit [LevelScale α L]

omit [Scalar α] in
theorem overDirections_ofList {θ φ : List α} (h : θ.length = φ.length) :
    overDirections id (.ofList θ) (.ofList φ) = .ok (.ofList (θ.zipWith Direction.mk φ)) := by
  have hlength : (θ.zipWith Direction.mk φ).length = θ.length := by simp [h]
  refine Tensor.combine_eq_ok_iff.mpr ⟨?_, fun k hk => ?_⟩
  · simp [Tensor.ofList, Tensor.joinAxes?, hlength, h]
  · simp only [Tensor.toList_ofList]
    simp only [Tensor.ofList, hlength, ← h] at hk ⊢
    rw [Tensor.source_self hk]
    have hθ : k < θ.length := by simpa [volume] using hk
    have hφ : k < φ.length := h ▸ hθ
    exact ⟨θ[k], φ[k], List.getElem?_eq_getElem hθ, List.getElem?_eq_getElem hφ,
      by simp [hθ, hφ]⟩

/-- The rows are the steering vectors of corresponding angles. -/
theorem steeringRows_eq_ok {θ φ : List α} (h : θ.length = φ.length) :
    a.steeringRows θ φ = .ok ((θ.zipWith Direction.mk φ).map a.steering) := by
  have hrank : (Tensor.ofList (θ.zipWith Direction.mk φ)).rank < Tensor.axisLimit := by
    rw [Tensor.rank_ofList]
    decide
  rw [steeringRows, if_pos h, overVectors_eq (overDirections_ofList h), if_pos hrank, ok_bind,
    Tensor.toList_map, Tensor.toList_ofList]
  dsimp only
  rw [List.map_map]
  rfl

end Rows

/-! ## Lists of directions -/

section Directions

variable (ds : List (Direction α))

omit [Scalar α] [LevelScale α L] in
theorem zipWith_angles :
    (ds.map Direction.theta).zipWith Direction.mk (ds.map Direction.phi) = ds := by
  rw [List.zipWith_map, List.zipWith_self, List.map_id']

omit [LevelScale α L] in
/-- The rows for the angles of some directions are the steering vectors of these. -/
theorem steeringRows_angles :
    a.steeringRows (ds.map Direction.theta) (ds.map Direction.phi) = .ok (ds.map a.steering) := by
  rw [a.steeringRows_eq_ok (by simp), zipWith_angles]

/-- The fields at the angles of some directions are those of the directions: a list has one axis,
which no element refuses. -/
theorem fields_angles :
    a.fields (.ofList (ds.map Direction.theta)) (.ofList (ds.map Direction.phi))
      = .ok ((Tensor.ofList ds).map (a.field (L := L))) := by
  have hspread := overDirections_ofList (θ := ds.map Direction.theta) (φ := ds.map Direction.phi)
    (by simp)
  rw [zipWith_angles] at hspread
  refine a.fields_eq_ok hspread fun _ => ?_
  rw [Tensor.rank_ofList]
  decide

end Directions

end PhasedArray

/-! ## Agreement -/

section Agreement

variable [Scalar α] [LevelScale α L]

theorem Radiator.takesTensors_gains (r : Radiator α) :
    TakesTensors r.Admits r.gain (r.gains (L := L)) :=
  takesTensors_of (fun _ => Nat.zero_le _) agree_of_gains gains_eq_ok

omit [LevelScale α L] in
theorem takesTensors_overVectors :
    TakesTensors (· < Tensor.axisLimit) Direction.vector (overVectors (α := α)) := by
  refine takesTensors_of (by decide) agree_of_overVectors fun h hrank => ?_
  rw [overVectors_eq h, if_pos hrank]

namespace Rotation

omit [LevelScale α L]

variable (r : Rotation α)

/-- Whatever is taken of rotated directions goes over tensors. -/
theorem takesTensors_toLocals {f : Direction α → β} (g : Tensor α × Tensor α → Tensor β)
    (hg : ∀ ds : Tensor (Direction α),
      g (ds.map fun d => (r.toLocal d).theta, ds.map fun d => (r.toLocal d).phi) = ds.map f) :
    TakesTensors (fun _ => True) f fun θ φ => (r.toLocals θ φ).map g := by
  refine takesTensors_of trivial (fun {θ φ t} h => ⟨?_, trivial⟩) fun h _ => ?_
  · by_contra hagree
    rw [r.toLocals_eq_error hagree] at h
    cases h
  · rw [r.toLocals_eq_ok h, ← hg]
    rfl

theorem takesTensors_polarizationAngles :
    TakesTensors (fun _ => True) r.polarizationAngle r.polarizationAngles := by
  refine takesTensors_of trivial (fun {θ φ t} h => ⟨?_, trivial⟩) fun h _ =>
    r.polarizationAngles_eq_ok h
  by_contra hagree
  rw [r.polarizationAngles_eq_error hagree] at h
  cases h

end Rotation

namespace PhasedArray

variable (a : PhasedArray α)

theorem takesTensors_fields :
    TakesTensors a.radiator.Admits (a.field (L := L)) (a.fields (L := L)) :=
  takesTensors_of (fun _ => Nat.zero_le _) a.agree_of_fields a.fields_eq_ok

omit [LevelScale α L] in
/-- There are rows for lists of one length, and no others. -/
theorem exists_steeringRows_iff {θ φ : List α} :
    (∃ rows, a.steeringRows θ φ = .ok rows) ↔ θ.length = φ.length := by
  constructor
  · rintro ⟨rows, h⟩
    by_contra hlength
    have hrefused : a.steeringRows θ φ = reject .angleCounts := if_neg hlength
    rw [hrefused] at h
    cases h
  · intro h
    exact ⟨_, a.steeringRows_eq_ok h⟩

omit [LevelScale α L] in
/-- A row is the steering vector of the two angles at its place. -/
theorem getElem?_steeringRows {θ φ : List α} {rows : List (List (Phasor α))}
    (h : a.steeringRows θ φ = .ok rows) :
    rows.length = θ.length ∧ ∀ (k : ℕ) (t p : α), θ[k]? = some t → φ[k]? = some p →
      rows[k]? = some (a.steering ⟨t, p⟩) := by
  have hlength : θ.length = φ.length := a.exists_steeringRows_iff.mp ⟨rows, h⟩
  rw [a.steeringRows_eq_ok hlength] at h
  cases h
  refine ⟨by simp [hlength], fun k t p ht hp => ?_⟩
  simp [List.getElem?_zipWith, ht, hp]

end PhasedArray

/-- Gains, unit vectors, rotated frames and fields go over tensors as they go over two angles, and
rows of steering vectors go over lists. -/
theorem forall_takesTensors (e : Element α) (r : Rotation α) (a : PhasedArray α) :
    TakesTensors e.radiator.Admits e.radiator.gain (e.radiator.gains (L := L)) ∧
    TakesTensors (· < Tensor.axisLimit) Direction.vector (overVectors (α := α)) ∧
    TakesTensors (fun _ => True) (fun d => (r.toLocal d).theta)
      (fun θ φ => (r.toLocals θ φ).map Prod.fst) ∧
    TakesTensors (fun _ => True) (fun d => (r.toLocal d).phi)
      (fun θ φ => (r.toLocals θ φ).map Prod.snd) ∧
    TakesTensors (fun _ => True) r.polarizationAngle r.polarizationAngles ∧
    TakesTensors a.radiator.Admits (a.field (L := L)) (a.fields (L := L)) ∧
    ∀ θ φ : List α, ((∃ rows, a.steeringRows θ φ = .ok rows) ↔ θ.length = φ.length) ∧
      ∀ rows, a.steeringRows θ φ = .ok rows → rows.length = θ.length ∧
        ∀ (k : ℕ) (t p : α), θ[k]? = some t → φ[k]? = some p →
          rows[k]? = some (a.steering ⟨t, p⟩) := by
  refine ⟨e.radiator.takesTensors_gains, takesTensors_overVectors, ?_, ?_,
    r.takesTensors_polarizationAngles, a.takesTensors_fields, ?_⟩
  · exact r.takesTensors_toLocals Prod.fst fun _ => rfl
  · exact r.takesTensors_toLocals Prod.snd fun _ => rfl
  · intro θ φ
    exact ⟨a.exists_steeringRows_iff, fun _ => a.getElem?_steeringRows⟩

end Agreement

/-- An element without directivity refuses one axis more, although axes of size one agree with an
angle that has none. -/
theorem gains_isotropic_crowded :
    Tensor.Agree (List.replicate 33 1) [] ∧
      Element.isotropic.radiator.gains ⟨List.replicate 33 1, #[(1 : Float)], by decide⟩ (.scalar 0)
        = (.error (.tooManyAxes 32 33) : Attempt (Tensor Float)) :=
  ⟨Tensor.agree_nil_right _, rfl⟩

end AntennaArray
