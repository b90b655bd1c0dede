import AntennaArray.Proofs.Binary64.Units
import AntennaArray.Sweep

/-!
# The first greatest entry

The search for the peak keeps the first entry of greatest rank among those it has seen
(`IsFirstGreatest.concat`), so it ends with the first one of all (`isFirstGreatest_of_peak?`).
Doubles are ranked by their units, and what is not a number ranks above them all.
-/

namespace AntennaArray

section

variable {L β : Type} [LinearOrder β] {rank : L → β} {xs : List L} {k : ℕ} {x : L}

/-- An entry has the greatest rank, and no entry before it has that rank. -/
structure IsFirstGreatest (rank : L → β) (xs : List L) (k : ℕ) (x : L) : Prop where
  entry : xs[k]? = some x
  greatest : ∀ y ∈ xs, rank y ≤ rank x
  first : ∀ l < k, ∀ y, xs[l]? = some y → rank y < rank x

namespace IsFirstGreatest

theorem singleton (x : L) : IsFirstGreatest rank [x] 0 x where
  entry := rfl
  greatest _ hy := (congrArg rank (List.mem_singleton.mp hy)).le
  first l hl := absurd hl (Nat.not_lt_zero l)

theorem lt_length (h : IsFirstGreatest rank xs k x) : k < xs.length :=
  (List.getElem?_eq_some_iff.mp h.entry).1

/-- One more entry takes the place of the greatest one if its rank is greater. -/
theorem concat (h : IsFirstGreatest rank xs k x) (y : L) :
    IsFirstGreatest rank (xs ++ [y]) (if rank x < rank y then xs.length else k)
      (if rank x < rank y then y else x) := by
  by_cases hlt : rank x < rank y
  · rw [if_pos hlt, if_pos hlt]
    refine ⟨by simp, ?_, ?_⟩
    · intro z hz
      rcases List.mem_append.mp hz with hz | hz
      · exact (h.greatest z hz).trans hlt.le
      · exact (congrArg rank (List.mem_singleton.mp hz)).le
    · intro l hl z hz
      rw [List.getElem?_append_left hl] at hz
      exact (h.greatest z (List.mem_of_getElem? hz)).trans_lt hlt
  · rw [if_neg hlt, if_neg hlt]
    refine ⟨?_, ?_, ?_⟩
    · rw [List.getElem?_append_left h.lt_length]
      exact h.entry
    · intro z hz
      rcases List.mem_append.mp hz with hz | hz
      · exact h.greatest z hz
      · rw [List.mem_singleton.mp hz]
        exact not_lt.mp hlt
    · intro l hl z hz
      rw [List.getElem?_append_left (hl.trans h.lt_length)] at hz
      exact h.first l hl z hz

end IsFirstGreatest

variable [Ranked L]

/-- The search goes on from the first greatest of the entries it has seen. -/
theorem isFirstGreatest_peakFrom
    (hrank : ∀ x y : L, Ranked.exceeds x y = true ↔ rank x < rank y) (rest : List L)
    (h : IsFirstGreatest rank xs k x) :
    IsFirstGreatest rank (xs ++ rest) (peakFrom x k xs.length rest).1
      (peakFrom x k xs.length rest).2 := by
  induction rest generalizing xs k x with
  | nil => simpa [peakFrom] using h
  | cons y rest ih =>
    have hstep := ih (h.concat y)
    rw [List.length_append, List.length_singleton, List.append_assoc, List.singleton_append]
      at hstep
    rw [peakFrom]
    by_cases hlt : rank x < rank y
    · rw [if_pos ((hrank x y).mpr hlt)]
      rwa [if_pos hlt, if_pos hlt] at hstep
    · rw [if_neg (mt (hrank x y).mp hlt)]
      rwa [if_neg hlt, if_neg hlt] at hstep

/-- The peak is the first greatest entry. -/
theorem isFirstGreatest_of_peak?
    (hrank : ∀ x y : L, Ranked.exceeds x y = true ↔ rank x < rank y)
    (h : peak? xs = some (k, x)) : IsFirstGreatest rank xs k x := by
  cases xs with
  | nil => cases h
  | cons y rest =>
    have hpeak := isFirstGreatest_peakFrom hrank rest (.singleton y)
    rw [List.length_singleton, show peakFrom y 0 1 rest = (k, x) from Option.some.inj h] at hpeak
    exact hpeak

end

/-! ## Doubles -/

namespace Binary64

/-- The rank of a double: its units, and more than that where it is not a number. -/
def rank (x : Float) : WithTop ℤ := (units? x).elim ⊤ (↑)

variable {x y : Float}

theorem rank_of_units? {a : ℤ} (h : units? x = some a) : rank x = a := by
  rw [rank, h]
  rfl

theorem rank_of_isNaN (h : x.isNaN = true) : rank x = ⊤ := by
  rw [rank, isNaN_iff.mp h]
  rfl

theorem isNaN_of_top_le (h : ⊤ ≤ rank x) : x.isNaN = true := by
  cases hx : units? x with
  | none => exact isNaN_iff.mpr hx
  | some a =>
    rw [rank_of_units? hx, top_le_iff] at h
    exact absurd h (WithTop.coe_ne_top)

/-- A double exceeds the greatest one so far if it ranks above it. -/
theorem exceeds_iff : Ranked.exceeds x y = true ↔ rank x < rank y := by
  have hexceeds : Ranked.exceeds x y = (!x.isNaN && (y.isNaN || decide (x < y))) := rfl
  rw [hexceeds]
  cases hx : units? x with
  | none =>
    have hnan := isNaN_iff.mpr hx
    rw [hnan, rank_of_isNaN hnan]
    exact iff_of_false Bool.false_ne_true not_top_lt
  | some a =>
    rw [isNaN_eq_false_iff.mpr ⟨a, hx⟩, rank_of_units? hx]
    cases hy : units? y with
    | none =>
      have hnan := isNaN_iff.mpr hy
      rw [hnan, rank_of_isNaN hnan]
      exact iff_of_true rfl (WithTop.coe_lt_top a)
    | some b =>
      rw [isNaN_eq_false_iff.mpr ⟨b, hy⟩, rank_of_units? hy, WithTop.coe_lt_coe]
      simp [lt_iff, hx, hy]

/-- Up to a number, doubles are ordered by rank. -/
theorem le_iff_rank_le (h : x.isNaN = false) : y ≤ x ↔ rank y ≤ rank x := by
  obtain ⟨a, hx⟩ := isNaN_eq_false_iff.mp h
  rw [rank_of_units? hx]
  cases hy : units? y with
  | none => simp [le_iff, hy, rank_of_isNaN (isNaN_iff.mpr hy)]
  | some b => simp [le_iff, hx, hy, rank_of_units? hy]

/-- What stands at the peak of some doubles: what is not a number if there is such an entry,
otherwise a greatest one. -/
def IsTop (xs : List Float) (x : Float) : Prop :=
  if xs.any Float.isNaN then x.isNaN = true else ∀ y ∈ xs, y ≤ x

theorem isTop_iff {xs : List Float} (h : x ∈ xs) : IsTop xs x ↔ ∀ y ∈ xs, rank y ≤ rank x := by
  rw [IsTop]
  by_cases hany : xs.any Float.isNaN = true
  · rw [if_pos hany]
    obtain ⟨z, hz, hnan⟩ := List.any_eq_true.mp hany
    constructor
    · intro hx y _
      rw [rank_of_isNaN hx]
      exact le_top
    · intro hall
      have hle := hall z hz
      rw [rank_of_isNaN hnan] at hle
      exact isNaN_of_top_le hle
  · have hnan : x.isNaN = false := by
      rw [← Bool.not_eq_true]
      exact fun hnan => hany (List.any_eq_true.mpr ⟨x, h, hnan⟩)
    rw [if_neg hany]
    exact forall₂_congr fun y _ => le_iff_rank_le hnan

/-- The peak of some doubles is the least index at which a top entry stands. -/
theorem isLeast_of_peak? {xs : List Float} {k : ℕ} (h : peak? xs = some (k, x)) :
    xs[k]? = some x ∧ IsLeast {l | ∃ y, xs[l]? = some y ∧ IsTop xs y} k := by
  have hpeak := isFirstGreatest_of_peak? (fun x y => exceeds_iff) h
  have hx := List.mem_of_getElem? hpeak.entry
  refine ⟨hpeak.entry, ⟨x, hpeak.entry, (isTop_iff hx).mpr hpeak.greatest⟩, ?_⟩
  rintro l ⟨y, hy, htop⟩
  by_contra hlt
  have hbelow := hpeak.first l (Nat.lt_of_not_le hlt) y hy
  exact (hbelow.trans_le ((isTop_iff (List.mem_of_getElem? hy)).mp htop x hx)).false

end Binary64

end AntennaArray
