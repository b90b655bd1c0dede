import AntennaArray.Proofs.BestEntry

/-!
# The search over a codebook

The search compares the lengths of inner products and reports the gain of the row that it finds. The
gain is the level of that length, and a level grows with its amplitude down to `-∞`, so the first
row of greatest length is the first row of greatest gain (`isBestMatch_of_peak`). Multiplying the
steering vector by a phasor multiplies all lengths by one number, and the rows in another order have
their gains in that order.
-/

namespace AntennaArray

open Scalar

namespace Codebook

variable {rows : List (List (Phasor ℝ))} {row s : List (Phasor ℝ)} {cb : Codebook ℝ} {k width : ℕ}

/-! ## Rows of a table -/

theorem length_chunks (width count : ℕ) (xs : List (Phasor ℝ)) :
    (chunks width count xs).length = count := by
  induction count generalizing xs with
  | zero => rfl
  | succ count ih => rw [chunks, List.length_cons, ih]

/-- Entries enough for all rows are cut into rows of the full length. -/
theorem length_of_mem_chunks {count : ℕ} {xs : List (Phasor ℝ)} (h : xs.length = width * count) :
    ∀ row ∈ chunks width count xs, row.length = width := by
  induction count generalizing xs with
  | zero => simp [chunks]
  | succ count ih =>
    have hlength : xs.length = width + width * count := by
      rw [h]
      ring
    rw [chunks, List.forall_mem_cons]
    constructor
    · rw [List.length_take, hlength]
      exact min_eq_left (Nat.le_add_right _ _)
    · apply ih
      rw [List.length_drop, hlength, Nat.add_sub_cancel_left]

theorem flatten_chunks {count : ℕ} {xs : List (Phasor ℝ)} (h : xs.length = width * count) :
    (chunks width count xs).flatten = xs := by
  induction count generalizing xs with
  | zero =>
    have hnil : xs = [] := List.eq_nil_of_length_eq_zero h
    rw [hnil]
    rfl
  | succ count ih =>
    have hlength : (xs.drop width).length = width * count := by
      rw [List.length_drop, h, Nat.mul_succ, Nat.add_sub_cancel]
    rw [chunks, List.flatten_cons, ih hlength, List.take_append_drop]

/-- The rows of a codebook: all of one length, laid out one after another in its entries. -/
structure HasRows (cb : Codebook ℝ) (width : ℕ) (rows : List (List (Phasor ℝ))) : Prop where
  shape : cb.shape = [rows.length, width]
  length_row : ∀ row ∈ rows, row.length = width
  entries : rows.flatten = cb.toList

/-- A codebook with two axes has rows, and they are the ones that are searched. -/
theorem exists_hasRows {count : ℕ} (h : cb.shape = [count, width]) :
    ∃ rows, cb.HasRows width rows ∧ rows.length = count ∧ table? cb = some (width, rows) := by
  have haxes : cb.axes = [width, count] := Tensor.axes_of_shape h
  have hlength : cb.toList.length = width * count := by
    rw [Tensor.length_toList_of_shape h, Nat.mul_comm]
  refine ⟨chunks width count cb.toList, ⟨?_, length_of_mem_chunks hlength, flatten_chunks hlength⟩,
    length_chunks .., ?_⟩
  · rw [length_chunks, h]
  · rw [table?, haxes]

/-- The rows of a codebook are the ones that are searched. -/
theorem HasRows.table?_eq (h : cb.HasRows width rows) : table? cb = some (width, rows) := by
  have haxes : cb.axes = [width, rows.length] := Tensor.axes_of_shape h.shape
  rw [table?, haxes]
  simp only
  rw [← h.entries, chunks_flatten h.length_row]

/-- Without two axes there are no rows. -/
theorem table?_eq_none (h : ∀ count width, cb.shape ≠ [count, width]) : table? cb = none := by
  rw [table?]
  split
  · next width count haxes =>
    refine absurd ?_ (h count width)
    rw [Tensor.shape, haxes]
    rfl
  · rfl

/-! ## Gains of rows -/

theorem likeness_nonneg (s row : List (Phasor ℝ)) : 0 ≤ likeness s row := Phasor.abs_nonneg _

/-- Multiplying the steering vector multiplies the likeness of every row. -/
theorem likeness_map_mul (z : Phasor ℝ) (s row : List (Phasor ℝ)) :
    likeness (s.map z.mul) row = z.abs * likeness s row := by
  have hconj (xs : List (Phasor ℝ)) :
      (Phasor.inner row (xs.map Phasor.conj)).abs
        = (Phasor.inner xs (row.map Phasor.conj)).abs := by
    rw [Phasor.abs_eq_norm, Phasor.abs_eq_norm, Phasor.toComplex_inner_conj_comm, RCLike.norm_conj]
  rw [likeness, likeness, hconj, hconj, Phasor.abs_eq_norm, Phasor.abs_eq_norm, Phasor.abs_eq_norm,
    Phasor.toComplex_inner_map_mul, norm_mul]

/-! ## The search -/

/-- The rows that no other row exceeds in gain. -/
def Winners (rows : List (List (Phasor ℝ))) (s : List (Phasor ℝ)) : Set ℕ :=
  {k | ∃ row, rows[k]? = some row ∧ ∃ g : WithBot ℝ, Gain.codeword row s = .ok g ∧
    ∀ other ∈ rows, ∃ g', Gain.codeword other s = .ok g' ∧ g' ≤ g}

/-- A row has a gain, every row has a gain that is no greater, and every row before it has one that
is less. -/
structure IsBestMatch (rows : List (List (Phasor ℝ))) (s : List (Phasor ℝ)) (b : ℕ)
    (g : WithBot ℝ) : Prop where
  gain : ∃ row, rows[b]? = some row ∧ Gain.codeword row s = .ok g
  greatest : ∀ (k : ℕ) (row : List (Phasor ℝ)), rows[k]? = some row →
    ∃ g', Gain.codeword row s = .ok g' ∧ g' ≤ g
  first : ∀ k < b, ∀ row : List (Phasor ℝ), rows[k]? = some row →
    ∃ g', Gain.codeword row s = .ok g' ∧ g' < g

/-- The first row of greatest likeness is the best match. -/
theorem isBestMatch_of_peak (hrows : ∀ row ∈ rows, row.length = s.length) {x : ℝ}
    (h : IsFirstGreatest id (rows.map (likeness s)) k x) :
    IsBestMatch rows s k (LevelScale.ofAmplitude x) where
  gain := by
    have hentry := h.entry
    rw [List.getElem?_map, Option.map_eq_some_iff] at hentry
    obtain ⟨row, hrow, rfl⟩ := hentry
    exact ⟨row, hrow, codeword_eq_ok (hrows row (List.mem_of_getElem? hrow))⟩
  greatest l row hrow := by
    have hmem : row ∈ rows := List.mem_of_getElem? hrow
    have hle : likeness s row ≤ x := h.greatest _ (List.mem_map_of_mem hmem)
    have hx : 0 ≤ x := (likeness_nonneg s row).trans hle
    exact ⟨_, codeword_eq_ok (hrows row hmem),
      (LevelScale.ofAmplitude_le_ofAmplitude (likeness_nonneg s row) hx).mpr hle⟩
  first l hl row hrow := by
    have hmem : row ∈ rows := List.mem_of_getElem? hrow
    have hlt : likeness s row < x := h.first l hl _ (by rw [List.getElem?_map, hrow]; rfl)
    have hx : 0 ≤ x := (likeness_nonneg s row).trans hlt.le
    exact ⟨_, codeword_eq_ok (hrows row hmem),
      (LevelScale.ofAmplitude_lt_ofAmplitude (likeness_nonneg s row) hx).mpr hlt⟩

/-- The search finds the first row of greatest likeness, with the level of that likeness. -/
theorem exists_best_eq_ok (h : cb.HasRows s.length rows) (hne : rows ≠ []) :
    ∃ b x, best cb s = .ok (b, (LevelScale.ofAmplitude x : WithBot ℝ)) ∧
      IsFirstGreatest id (rows.map (likeness s)) b x := by
  have hlikeness : rows.map (likeness s) ≠ [] := by simp [hne]
  obtain ⟨b, x, hpeak, hfirst⟩ := exists_peak hlikeness
  have hentry := hfirst.entry
  rw [List.getElem?_map, Option.map_eq_some_iff] at hentry
  obtain ⟨row, hrow, rfl⟩ := hentry
  have hlength : row.length = s.length := h.length_row row (List.mem_of_getElem? hrow)
  exact ⟨b, _, best_of_peak h.table?_eq hpeak hrow hlength, hfirst⟩

theorem best_eq_reject (h : ∀ count, cb.shape ≠ [count, s.length]) :
    (best cb s : Attempt (ℕ × WithBot ℝ)) = reject .codebookWidth := by
  by_cases hshape : ∃ count width, cb.shape = [count, width]
  · obtain ⟨count, width, hshape⟩ := hshape
    obtain ⟨rows, -, -, htable⟩ := exists_hasRows hshape
    have hwidth : width ≠ s.length := by
      rintro rfl
      exact h count hshape
    rw [best, htable]
    simp [hwidth]
  · have hnone : table? cb = none := by
      apply table?_eq_none
      intro count width heq
      exact hshape ⟨count, width, heq⟩
    rw [best, hnone]

/-! ## Other steering vectors and other orders -/

/-- The first greatest entry is where it was when all entries are multiplied by a positive
number. -/
theorem isFirstGreatest_map_mul {xs : List ℝ} {x c : ℝ} (hc : 0 < c)
    (h : IsFirstGreatest id xs k x) : IsFirstGreatest id (xs.map (c * ·)) k (c * x) where
  entry := by rw [List.getElem?_map, h.entry]; rfl
  greatest y hy := by
    obtain ⟨z, hz, rfl⟩ := List.mem_map.mp hy
    exact mul_le_mul_of_nonneg_left (h.greatest z hz) hc.le
  first l hl y hy := by
    rw [List.getElem?_map, Option.map_eq_some_iff] at hy
    obtain ⟨z, hz, rfl⟩ := hy
    exact mul_lt_mul_of_pos_left (h.first l hl z hz) hc

/-- There is only one first greatest entry. -/
theorem eq_of_isFirstGreatest {xs : List ℝ} {l : ℕ} {x y : ℝ} (h : IsFirstGreatest id xs k x)
    (h' : IsFirstGreatest id xs l y) : k = l ∧ x = y := by
  have hxy : x = y := le_antisymm (h'.greatest x (List.mem_of_getElem? h.entry))
    (h.greatest y (List.mem_of_getElem? h'.entry))
  subst hxy
  refine ⟨?_, rfl⟩
  rcases lt_trichotomy k l with hlt | heq | hgt
  · exact absurd (h'.first k hlt x h.entry) (lt_irrefl _)
  · exact heq
  · exact absurd (h.first l hgt x h'.entry) (lt_irrefl _)

/-- Multiplying the steering vector by a phasor keeps the winner and adds the level of the
phasor. -/
theorem best_map_mul (h : cb.HasRows s.length rows) {b : ℕ} {x : ℝ} {z : Phasor ℝ} (hz : z.abs ≠ 0)
    (hfirst : IsFirstGreatest id (rows.map (likeness s)) b x) :
    best cb (s.map z.mul) = .ok (b,
      (LevelScale.ofAmplitude x : WithBot ℝ) + LevelScale.ofAmplitude z.abs) := by
  have hpos : 0 < z.abs := lt_of_le_of_ne (Phasor.abs_nonneg z) (Ne.symm hz)
  have hrows : cb.HasRows (s.map z.mul).length rows := by rwa [List.length_map]
  have hne : rows ≠ [] := by
    rintro rfl
    exact absurd hfirst.lt_length (Nat.not_lt_zero b)
  obtain ⟨b', x', hbest, hfirst'⟩ := exists_best_eq_ok hrows hne
  have hmap : rows.map (likeness (s.map z.mul)) = (rows.map (likeness s)).map (z.abs * ·) := by
    rw [List.map_map]
    apply List.map_congr_left
    intro row _
    exact likeness_map_mul z s row
  rw [hmap] at hfirst'
  obtain ⟨rfl, rfl⟩ := eq_of_isFirstGreatest hfirst' (isFirstGreatest_map_mul hpos hfirst)
  rw [hbest, LevelScale.ofAmplitude_mul, add_comm]

def reorder (rows : List (List (Phasor ℝ))) (σ : Equiv.Perm (Fin rows.length)) :
    List (List (Phasor ℝ)) :=
  List.ofFn fun k => rows[σ k]

@[simp] theorem length_reorder (rows : List (List (Phasor ℝ))) (σ : Equiv.Perm (Fin rows.length)) :
    (reorder rows σ).length = rows.length := by
  simp [reorder]

theorem getElem?_reorder (σ : Equiv.Perm (Fin rows.length)) (k : Fin rows.length) :
    (reorder rows σ)[(k : ℕ)]? = rows[(σ k : ℕ)]? := by
  simp [reorder]

theorem mem_reorder {σ : Equiv.Perm (Fin rows.length)} : row ∈ reorder rows σ ↔ row ∈ rows := by
  rw [reorder, List.mem_ofFn, List.mem_iff_get]
  constructor
  · rintro ⟨k, hk⟩
    exact ⟨σ k, hk⟩
  · rintro ⟨k, hk⟩
    refine ⟨σ.symm k, ?_⟩
    simpa using hk

/-- The winners among reordered rows are the winners at their new places. -/
theorem mem_winners_reorder (σ : Equiv.Perm (Fin rows.length)) (k : Fin rows.length) :
    (k : ℕ) ∈ Winners (reorder rows σ) s ↔ (σ k : ℕ) ∈ Winners rows s := by
  simp only [Winners, Set.mem_ofPred_eq, getElem?_reorder, mem_reorder]

/-- The row that is found is the first of the winners. -/
theorem IsBestMatch.isLeast {b : ℕ} {g : WithBot ℝ} (h : IsBestMatch rows s b g) :
    IsLeast (Winners rows s) b := by
  obtain ⟨row, hrow, hgain⟩ := h.gain
  constructor
  · refine ⟨row, hrow, g, hgain, ?_⟩
    intro other hother
    obtain ⟨l, hl⟩ := List.mem_iff_getElem?.mp hother
    exact h.greatest l other hl
  · rintro l ⟨other, hother, g', hgain', hall⟩
    by_contra hlt
    obtain ⟨gl, hgl, hless⟩ := h.first l (not_le.mp hlt) other hother
    obtain ⟨gb, hgb, hle⟩ := hall row (List.mem_of_getElem? hrow)
    rw [hgain] at hgb
    rw [hgain'] at hgl
    cases hgb
    cases hgl
    exact absurd hle (not_le.mpr hless)

/-- Reordered rows make a codebook, on which the search reports the same gain. -/
theorem exists_best_reorder (h : cb.HasRows s.length rows) (σ : Equiv.Perm (Fin rows.length))
    {b : ℕ} {x : ℝ} (hfirst : IsFirstGreatest id (rows.map (likeness s)) b x) :
    ∃ cb' : Codebook ℝ, cb'.HasRows s.length (reorder rows σ) ∧
      ∃ b', best cb' s = .ok (b', (LevelScale.ofAmplitude x : WithBot ℝ)) ∧
        IsLeast (Winners (reorder rows σ) s) b' := by
  have hrows : ∀ row ∈ reorder rows σ, row.length = s.length := by
    intro row hrow
    exact h.length_row row (mem_reorder.mp hrow)
  have hlength : (reorder rows σ).flatten.length = volume [s.length, (reorder rows σ).length] := by
    rw [length_flatten hrows]
    simp [volume, Nat.mul_comm]
  let cb' : Codebook ℝ := ⟨[s.length, (reorder rows σ).length], (reorder rows σ).flatten.toArray,
    hlength⟩
  have hcb' : cb'.HasRows s.length (reorder rows σ) := ⟨rfl, hrows, by simp [cb', Tensor.toList]⟩
  have hne : reorder rows σ ≠ [] := by
    rw [← List.length_pos_iff, length_reorder]
    have hb := hfirst.lt_length
    rw [List.length_map] at hb
    exact (Nat.zero_le b).trans_lt hb
  obtain ⟨b', y, hbest, hfirst'⟩ := exists_best_eq_ok hcb' hne
  -- both peaks are the greatest of the same numbers
  have hmem (z : ℝ) : z ∈ (reorder rows σ).map (likeness s) ↔ z ∈ rows.map (likeness s) := by
    simp only [List.mem_map, mem_reorder]
  have hxy : y = x := le_antisymm
    (hfirst.greatest y ((hmem y).mp (List.mem_of_getElem? hfirst'.entry)))
    (hfirst'.greatest x ((hmem x).mpr (List.mem_of_getElem? hfirst.entry)))
  subst hxy
  exact ⟨cb', hcb', b', hbest, (isBestMatch_of_peak hrows hfirst').isLeast⟩

/-- The rows in another order have their winners in that order, and the search over them reports the
same gain at the first of these. -/
structure FindsReordered (rows : List (List (Phasor ℝ))) (s : List (Phasor ℝ)) (g : WithBot ℝ)
    (σ : Equiv.Perm (Fin rows.length)) : Prop where
  winners (k : Fin rows.length) :
    (k : ℕ) ∈ Winners (reorder rows σ) s ↔ (σ k : ℕ) ∈ Winners rows s
  found : ∃ cb : Codebook ℝ, cb.HasRows s.length (reorder rows σ) ∧
    ∃ b, best cb s = .ok (b, g) ∧ IsLeast (Winners (reorder rows σ) s) b

/-- The search reports the first row of greatest gain and that gain. It finds the same row after the
steering vector is multiplied by a phasor that does not vanish, and follows the rows into another
order. -/
structure FindsMatch (cb : Codebook ℝ) (s : List (Phasor ℝ)) (rows : List (List (Phasor ℝ)))
    (b : ℕ) (g : WithBot ℝ) : Prop where
  found : best cb s = .ok (b, g)
  best_match : IsBestMatch rows s b g
  first : IsLeast (Winners rows s) b
  scaled (z : Phasor ℝ) : z.abs ≠ 0 → ∃ g', best cb (s.map z.mul) = .ok (b, g')
  reordered (σ : Equiv.Perm (Fin rows.length)) : FindsReordered rows s g σ

/-- A codebook with rows as long as the steering vector, at least one, is searched; one without such
rows is refused. -/
structure Searches (cb : Codebook ℝ) (s : List (Phasor ℝ)) : Prop where
  finds (count : ℕ) : cb.shape = [count, s.length] → 0 < count →
    ∃ rows, cb.HasRows s.length rows ∧ rows.length = count ∧ ∃ b g, FindsMatch cb s rows b g
  refused : (∀ count, cb.shape ≠ [count, s.length]) →
    (best cb s : Attempt (ℕ × WithBot ℝ)) = reject .codebookWidth

/-- The search over a codebook finds the best match where there are rows to match. -/
theorem best_finds_match (cb : Codebook ℝ) (s : List (Phasor ℝ)) : Searches cb s where
  refused := best_eq_reject
  finds := by
    intro count hshape hcount
    obtain ⟨rows, hrows, hlength, -⟩ := exists_hasRows hshape
    have hne : rows ≠ [] := List.ne_nil_of_length_pos (hlength ▸ hcount)
    obtain ⟨b, x, hbest, hfirst⟩ := exists_best_eq_ok hrows hne
    have hmatch : IsBestMatch rows s b (LevelScale.ofAmplitude x) :=
      isBestMatch_of_peak hrows.length_row hfirst
    exact ⟨rows, hrows, hlength, b, _, hbest, hmatch, hmatch.isLeast,
      fun z hz => ⟨_, best_map_mul hrows hz hfirst⟩,
      fun σ => ⟨mem_winners_reorder σ, exists_best_reorder hrows σ hfirst⟩⟩

/-- Towards a vector of ones a row of two phasors has the level of their sum. -/
theorem codeword_ones (a b : Phasor ℝ) :
    Gain.codeword [a, b] [⟨1, 0⟩, ⟨1, 0⟩]
      = .ok (LevelScale.ofAmplitude (a.add b).abs : WithBot ℝ) := by
  have hlikeness : likeness [⟨1, 0⟩, ⟨1, 0⟩] [a, b] = (a.add b).abs := by
    simp [likeness, Phasor.inner, Phasor.sum, Phasor.mul, Phasor.add, Phasor.conj]
  rw [codeword_eq_ok (by simp), hlikeness]

/-- A row without power and two equally good ones: the first of these is found, also after a quarter
turn of the steering vector. -/
theorem best_finds_match_tie :
    let cb : Codebook ℝ := ⟨[2, 3], #[⟨0, 0⟩, ⟨0, 0⟩, ⟨1, 0⟩, ⟨0, 0⟩, ⟨0, 0⟩, ⟨0, 1⟩], rfl⟩
    cb.shape = [3, 2] ∧ best cb [⟨1, 0⟩, ⟨1, 0⟩] = .ok (1, ((0 : ℝ) : WithBot ℝ)) ∧
      ∃ g' : WithBot ℝ, best cb ([⟨1, 0⟩, ⟨1, 0⟩].map (Phasor.mul ⟨0, 1⟩)) = .ok (1, g') := by
  intro cb
  set s : List (Phasor ℝ) := [⟨1, 0⟩, ⟨1, 0⟩] with hs
  obtain ⟨rows, hrows, -, b, g, hbest, hmatch, hleast, hturned, -⟩ :=
    (best_finds_match cb s).finds 3 rfl (by decide)
  have htable : some (2, rows)
      = some (2, [[⟨0, 0⟩, ⟨0, 0⟩], [⟨1, 0⟩, ⟨0, 0⟩], [⟨0, 0⟩, ⟨0, 1⟩]]) :=
    hrows.table?_eq.symm
  obtain rfl : rows = [[⟨0, 0⟩, ⟨0, 0⟩], [⟨1, 0⟩, ⟨0, 0⟩], [⟨0, 0⟩, ⟨0, 1⟩]] :=
    congrArg Prod.snd (Option.some.inj htable)
  have hdark : Gain.codeword [⟨0, 0⟩, ⟨0, 0⟩] s = .ok (⊥ : WithBot ℝ) := by
    have hzero : (Phasor.add (⟨0, 0⟩ : Phasor ℝ) ⟨0, 0⟩).abs = 0 := by
      simp [Phasor.add, Phasor.abs]
    rw [hs, codeword_ones, hzero, LevelScale.ofAmplitude_eq_bot.mpr rfl]
  have hlevel {a b : Phasor ℝ} (hone : (a.add b).abs = 1) :
      Gain.codeword [a, b] s = .ok ((0 : ℝ) : WithBot ℝ) := by
    rw [hs, codeword_ones, hone, LevelScale.ofAmplitude_of_ne_zero one_ne_zero, Real.logb_one,
      mul_zero]
  have hbright : Gain.codeword [⟨1, 0⟩, ⟨0, 0⟩] s = .ok ((0 : ℝ) : WithBot ℝ) :=
    hlevel (by simp [Phasor.add, Phasor.abs])
  have hlast : Gain.codeword [⟨0, 0⟩, ⟨0, 1⟩] s = .ok ((0 : ℝ) : WithBot ℝ) :=
    hlevel (by simp [Phasor.add, Phasor.abs])
  have hwinner : 1 ∈ Winners [[⟨0, 0⟩, ⟨0, 0⟩], [⟨1, 0⟩, ⟨0, 0⟩], [⟨0, 0⟩, ⟨0, 1⟩]] s := by
    refine ⟨_, rfl, _, hbright, ?_⟩
    simp [hdark, hbright, hlast]
  obtain rfl : b = 1 := by
    have hle : b ≤ 1 := hleast.2 hwinner
    by_contra hne
    obtain rfl : b = 0 := by omega
    obtain ⟨row, hrow, g₀, hgain, hall⟩ := hleast.1
    cases hrow
    obtain ⟨g₁, hg₁, hle'⟩ := hall _ (List.mem_cons_of_mem _ List.mem_cons_self)
    rw [hdark] at hgain
    rw [hbright] at hg₁
    cases hgain
    cases hg₁
    exact absurd hle' (not_le.mpr (WithBot.bot_lt_coe 0))
  obtain ⟨row, hrow, hgain⟩ := hmatch.gain
  cases hrow
  rw [hbright] at hgain
  cases hgain
  exact ⟨rfl, hbest, hturned ⟨0, 1⟩ (by simp [Phasor.abs])⟩

end Codebook

end AntennaArray
