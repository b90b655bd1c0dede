import AntennaArray.Proofs.Decimal.Spelling
import AntennaArray.Proofs.Sweep
import AntennaArray.Table

/-!
# Lines of a table

The text of a number has neither commas nor line ends (`isWord_general`). So a table splits at the
line feeds into its heading and its lines, and a line splits at the commas into three fields, each
of which spells its number with ten significant digits (`carries_line`).
-/

namespace AntennaArray

open Json (isScalarChar)

/-! ## Lines and fields -/

namespace Table

def number (x : Float) : List Char := (Decimal.general 10 x).toList

/-- A character between numbers stands in none of them. -/
theorem notMem_number {c : Char} (hc : isScalarChar c = false) (x : Float) : c ∉ number x := by
  intro hmem
  rw [Decimal.isWord_general (by decide) x c hmem] at hc
  cases hc

theorem toList_line (row : Float × Float × Float) :
    (line row).toList = [','].intercalate [number row.1, number row.2.1, number row.2.2] := by
  simp [line, number, List.intercalate]

/-- A line is split at its commas into the three numbers. -/
theorem splitOn_line (row : Float × Float × Float) :
    (line row).toList.splitOn ',' = [number row.1, number row.2.1, number row.2.2] := by
  have hcomma := notMem_number (c := ',') (by decide)
  rw [toList_line]
  refine List.splitOn_intercalate ',' ?_ (List.cons_ne_nil _ _)
  simp [hcomma]

/-- The fields of a line spell three numbers. -/
def Carries (sample : List Char) (row : Float × Float × Float) : Prop :=
  List.Forall₂ (Decimal.Spells 10) (sample.splitOn ',') [row.1, row.2.1, row.2.2]

theorem carries_line (row : Float × Float × Float) : Carries (line row).toList row := by
  have hnumber (x : Float) : Decimal.Spells 10 (number x) x := Decimal.spells_general (by decide) x
  rw [Carries, splitOn_line]
  exact .cons (hnumber _) (.cons (hnumber _) (.cons (hnumber _) .nil))

theorem notMem_line (row : Float × Float × Float) : '\n' ∉ (line row).toList := by
  have hfeed := notMem_number (c := '\n') (by decide)
  simp [toList_line, List.intercalate, hfeed]

/-- Lines with a line feed after each of them, split at the line feeds. -/
theorem splitOn_flatMap {ls : List (List Char)} (h : ∀ l ∈ ls, '\n' ∉ l) :
    (ls.flatMap (· ++ ['\n'])).splitOn '\n' = ls ++ [[]] := by
  have hjoin : ls.flatMap (· ++ ['\n']) = ['\n'].intercalate (ls ++ [[]]) := by
    clear h
    induction ls with
    | nil => rfl
    | cons l ls ih =>
      obtain ⟨l', rest, heq⟩ := List.exists_cons_of_ne_nil (List.append_ne_nil_of_right_ne_nil ls
        (List.cons_ne_nil ([] : List Char) []))
      rw [List.flatMap_cons, ih, List.cons_append, heq]
      simp [List.intercalate]
  rw [hjoin]
  refine List.splitOn_intercalate '\n' ?_
    (List.append_ne_nil_of_right_ne_nil _ (List.cons_ne_nil _ _))
  simpa [or_imp, forall_and] using h

/-- A table is split at its line feeds into the heading and the lines. -/
theorem splitOn_text (rows : List (Float × Float × Float)) :
    (text rows).toList.splitOn '\n'
      = heading.toList :: rows.map (fun row => (line row).toList) ++ [[]] := by
  have hlines : ∀ l ∈ heading.toList :: rows.map (fun row => (line row).toList), '\n' ∉ l := by
    refine List.forall_mem_cons.mpr ⟨by decide, ?_⟩
    intro l hl
    obtain ⟨row, -, rfl⟩ := List.mem_map.mp hl
    exact notMem_line row
  rw [← splitOn_flatMap hlines, text, String.toList_join]
  congr 1
  simp [List.flatMap_map]

end Table

end AntennaArray
