import AntennaArray.Decimal.Text
import AntennaArray.Fault
import AntennaArray.Tensor

/-!
# Sweeps as tables of text

A table has a heading and one line for each point of a grid, inclinations fastest: the two angles
and the gain, with ten significant digits.
-/

namespace AntennaArray.Table

def heading : String := "theta_rad,phi_rad,gain_db"

section

variable {α : Type}

/-- The angles of a grid, inclinations fastest, as they are. -/
def points (θ φ : List α) : List (α × α) := φ.flatMap fun p => θ.map fun t => (t, p)

/-- The three numbers of each line. -/
def rows (θ φ : List α) (gain : Tensor α) : Attempt (List (α × α × α)) :=
  if gain.shape = [φ.length, θ.length] then
    .ok ((points θ φ).zipWith (fun (t, p) g => (t, p, g)) gain.toList)
  else reject .gainShape

@[simp] theorem length_points (θ φ : List α) : (points θ φ).length = φ.length * θ.length := by
  simp [points, List.length_flatMap, List.map_const']

end

def line (row : Float × Float × Float) : String :=
  let number (x : Float) := Decimal.general 10 x
  number row.1 ++ "," ++ number row.2.1 ++ "," ++ number row.2.2

/-- A table as text, with a line feed after each line. -/
def text (rows : List (Float × Float × Float)) : String :=
  String.join ((heading :: rows.map line).map (· ++ "\n"))

end AntennaArray.Table
