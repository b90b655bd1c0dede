import AntennaArray.Angle
import AntennaArray.Number

/-!
# Panels

A panel has its elements in rows and columns on a vertical plane, turned by a bearing and a
downtilt. Spacings are in wavelengths, angles in radians.
-/

namespace AntennaArray

/-- A panel with at least one row and one column. -/
structure Panel (α : Type) where
  rows : Nat
  columns : Nat
  horizontalSpacing : α
  verticalSpacing : α
  bearing : α
  downtilt : α
  rows_pos : 0 < rows
  columns_pos : 0 < columns

namespace Panel

variable {α β : Type}

def size (p : Panel α) : Nat := p.rows * p.columns

theorem size_pos (p : Panel α) : 0 < p.size := Nat.mul_pos p.rows_pos p.columns_pos

/-- The same panel in another type of numbers. -/
def map (f : α → β) (p : Panel α) : Panel β :=
  { rows := p.rows, columns := p.columns, rows_pos := p.rows_pos, columns_pos := p.columns_pos
    horizontalSpacing := f p.horizontalSpacing, verticalSpacing := f p.verticalSpacing
    bearing := f p.bearing, downtilt := f p.downtilt }

/-- Four rows and four columns, half a wavelength apart, not turned. -/
def standard : Panel Float := ⟨4, 4, 0.5, 0.5, 0, 0, by decide, by decide⟩

def presets : List (String × Panel Float) := [
  ("single", { standard with
    rows := 1, columns := 1, rows_pos := by decide, columns_pos := by decide }),
  ("linear_10x1", { standard with
    rows := 10, columns := 1, rows_pos := by decide, columns_pos := by decide }),
  ("planar_4x4", standard),
  ("planar_8x8", { standard with
    rows := 8, columns := 8, rows_pos := by decide, columns_pos := by decide }),
  ("planar_10x10", { standard with
    rows := 10, columns := 10, rows_pos := by decide, columns_pos := by decide })]

/-- The settings of a panel with their names, in their order. -/
def fields (p : Panel Float) : List (String × Number) := [
  ("num_rows", .integer p.rows), ("num_columns", .integer p.columns),
  ("horizontal_spacing", .double p.horizontalSpacing),
  ("vertical_spacing", .double p.verticalSpacing),
  ("bearing", .double p.bearing), ("downtilt", .double p.downtilt)]

def display (p : Panel Float) : String :=
  "ArrayConfig(" ++ ", ".intercalate (p.fields.map fun (name, n) => name ++ "=" ++ n.text) ++ ")"

end Panel

end AntennaArray
