/-!
# Rounding a quotient to the nearest natural number

A half goes to the even neighbour. The two laws below fix the result: it is within half a unit of
the quotient, and at a distance of exactly half a unit it is even.
-/

namespace AntennaArray

/-- The natural number nearest to `num / den`; a half goes to the even neighbour. -/
def halfEven (num den : Nat) : Nat :=
  let quotient := num / den
  let excess := 2 * (num % den)
  if den < excess then quotient + 1
  else if excess = den then quotient + quotient % 2
  else quotient

/-- The result is at most half a unit away from the quotient. -/
theorem halfEven_close (num den : Nat) (h : 0 < den) :
    2 * (halfEven num den * den) ≤ 2 * num + den ∧
      2 * num ≤ 2 * (halfEven num den * den) + den := by
  have hq := Nat.div_add_mod num den
  have hr := Nat.mod_lt num h
  have hc : num / den * den = den * (num / den) := Nat.mul_comm _ _
  have hp : num / den % 2 = 0 ∨ num / den % 2 = 1 := by omega
  unfold halfEven
  simp only
  split
  · rw [Nat.add_mul, hc]; omega
  · split
    · rcases hp with hp | hp <;> rw [hp, Nat.add_mul, hc] <;> omega
    · rw [hc]; omega

/-- At a distance of exactly half a unit the result is even. -/
theorem halfEven_even (num den : Nat) (h : 2 * (num % den) = den) : halfEven num den % 2 = 0 := by
  simp only [halfEven, h, Nat.lt_irrefl, if_false, if_true]
  omega

/-- A quotient that is a natural number is left alone. -/
theorem halfEven_mul (n den : Nat) (h : 0 < den) : halfEven (n * den) den = n := by
  unfold halfEven
  simp only [Nat.mul_mod_left, Nat.mul_zero, Nat.not_lt_zero, if_false]
  rw [Nat.mul_div_cancel _ h]
  split
  · omega
  · rfl

end AntennaArray
