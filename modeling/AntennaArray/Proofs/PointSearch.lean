import AntennaArray.Nearest
import AntennaArray.Proofs.Exact

/-!
# Searches for nearest points

A search is exact if it finds points of least distance in ascending order. Which ones it finds among
equally distant points is its own affair, but their distances are determined
(`Finds.distances_eq`). The search that compares all points is exact (`isExact_scan`).
-/

namespace AntennaArray

open Scalar

namespace DirectionIndex

/-- A list that is sorted by a number for each entry is in ascending order of these numbers. -/
theorem pairwise_mergeSort_le {β : Type} (key : β → ℝ) (xs : List β) :
    (xs.mergeSort fun a b => le (key a) (key b)).Pairwise fun a b => key a ≤ key b := by
  have htrans (a b c : β) (hab : le (key a) (key b) = true) (hbc : le (key b) (key c) = true) :
      le (key a) (key c) = true := by
    rw [le_real, decide_eq_true_eq] at *
    exact hab.trans hbc
  have htotal (a b : β) : (le (key a) (key b) || le (key b) (key a)) = true := by
    rw [le_real, le_real, Bool.or_eq_true, decide_eq_true_eq, decide_eq_true_eq]
    exact le_total (key a) (key b)
  simpa using List.pairwise_mergeSort htrans htotal xs

/-- What was found are as many points as were asked for, in ascending order of their distances; the
points that were left out are not nearer than any of them. -/
structure Finds (points : List (Point ℝ)) (q : Point ℝ) (count : ℕ) (found : List (ℕ × ℝ)) :
    Prop where
  length : found.length = count
  sorted : found.Pairwise fun a b => a.2 ≤ b.2
  nearest : ∃ rest, (found ++ rest).Perm (points.mapIdx fun i p => (i, distance p q)) ∧
    ∀ a ∈ found, ∀ b ∈ rest, a.2 ≤ b.2

/-- The search finds nearest points, as long as there are enough points. -/
def IsExact (search : PointSearch ℝ) : Prop :=
  ∀ points q count, count ≤ points.length → Finds points q count (search points q count)

namespace Finds

variable {points : List (Point ℝ)} {q : Point ℝ} {count : ℕ} {found found' : List (ℕ × ℝ)}

/-- No point is found twice. -/
theorem nodup (h : Finds points q count found) : (found.map Prod.fst).Nodup := by
  obtain ⟨rest, hperm, -⟩ := h.nearest
  have hindices : ((found ++ rest).map Prod.fst).Perm (List.range points.length) := by
    have hrange : (points.mapIdx fun i p => (i, distance p q)).map Prod.fst
        = List.range points.length := by
      apply List.ext_getElem <;> simp
    exact hrange ▸ hperm.map Prod.fst
  have hall := hindices.nodup_iff.mpr List.nodup_range
  rw [List.map_append] at hall
  exact hall.of_append_left

/-- A point that is found is one of the given ones, with its distance. -/
theorem exists_point (h : Finds points q count found) {i : ℕ} {r : ℝ} (hmem : (i, r) ∈ found) :
    ∃ p, points[i]? = some p ∧ r = distance p q := by
  obtain ⟨rest, hperm, -⟩ := h.nearest
  have hall := hperm.mem_iff.mp (List.mem_append_left rest hmem)
  obtain ⟨j, hj, heq⟩ := List.mem_mapIdx.mp hall
  cases heq
  exact ⟨points[i], List.getElem?_eq_getElem hj, rfl⟩

/-- A point that is left out is not nearer than one that is found. -/
theorem le_of_not_mem (h : Finds points q count found) {j : ℕ} {p : Point ℝ}
    (hp : points[j]? = some p) (hj : j ∉ found.map Prod.fst) :
    ∀ a ∈ found, a.2 ≤ distance p q := by
  intro a ha
  obtain ⟨rest, hperm, hrest⟩ := h.nearest
  have hall : (j, distance p q) ∈ points.mapIdx fun i p => (i, distance p q) := by
    obtain ⟨hlt, rfl⟩ := List.getElem?_eq_some_iff.mp hp
    exact List.mem_mapIdx.mpr ⟨j, hlt, rfl⟩
  rcases List.mem_append.mp (hperm.mem_iff.mpr hall) with hmem | hmem
  · exact absurd (List.mem_map_of_mem hmem) hj
  · exact hrest a ha _ hmem

/-- What is found begins the distances of all points in ascending order. -/
theorem distances_eq_take (h : Finds points q count found) :
    found.map Prod.snd
      = ((points.map fun p => distance p q).mergeSort fun a b => le a b).take count := by
  obtain ⟨rest, hperm, hrest⟩ := h.nearest
  have hsort := pairwise_mergeSort_le (id : ℝ → ℝ)
  -- with the others in ascending order behind it, it is all the distances in ascending order
  have hwhole : found.map Prod.snd ++ (rest.map Prod.snd).mergeSort (fun a b => le a b)
      = (points.map fun p => distance p q).mergeSort fun a b => le a b := by
    refine List.Perm.eq_of_pairwise (fun _ _ _ _ => le_antisymm) ?_ (hsort _) ?_
    · refine List.pairwise_append.mpr ⟨List.pairwise_map.mpr h.sorted, hsort _, ?_⟩
      intro r hr r' hr'
      rw [(List.mergeSort_perm _ _).mem_iff] at hr'
      obtain ⟨a, ha, rfl⟩ := List.mem_map.mp hr
      obtain ⟨b, hb, rfl⟩ := List.mem_map.mp hr'
      exact hrest a ha b hb
    · have hdistances : (points.mapIdx fun i p => (i, distance p q)).map Prod.snd
          = points.map fun p => distance p q := by
        apply List.ext_getElem <;> simp
      refine ((List.mergeSort_perm _ _).append_left _).trans ?_
      refine List.Perm.trans ?_ (List.mergeSort_perm _ _).symm
      rw [← List.map_append, ← hdistances]
      exact hperm.map Prod.snd
  rw [← hwhole, List.take_left' (by rw [List.length_map, h.length])]

theorem distances_eq (h : Finds points q count found) (h' : Finds points q count found') :
    found.map Prod.snd = found'.map Prod.snd := by
  rw [h.distances_eq_take, h'.distances_eq_take]

end Finds

/-- To compare all points is an exact search. -/
theorem isExact_scan : IsExact scan := by
  intro points q count hcount
  have hsorted : (ranking points q).Pairwise fun a b => a.2 ≤ b.2 :=
    pairwise_mergeSort_le Prod.snd _
  have hsplit := List.take_append_drop count (ranking points q)
  refine ⟨by simp [scan, ranking, hcount], ?_, (ranking points q).drop count, ?_, ?_⟩
  · exact hsorted.sublist (List.take_sublist _ _)
  · rw [scan, hsplit]
    exact List.mergeSort_perm _ _
  · rw [← hsplit] at hsorted
    exact (List.pairwise_append.mp hsorted).2.2

end DirectionIndex

end AntennaArray
