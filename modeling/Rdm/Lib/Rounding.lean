import Mathlib.Algebra.Group.Nat.Defs
import Mathlib.Algebra.GroupWithZero.Nat

/-!
# Rounding up

`ceilTo x u` is the least multiple of `u` that is not below `x`.
-/

namespace Rounding

variable {x u b b' : Nat}

def ceilTo (x u : Nat) : Nat := (x + u - 1) / u * u

theorem dvd_ceilTo (x u : Nat) : u ∣ ceilTo x u := Nat.dvd_mul_left _ _

theorem ceilTo_bounds (hu : 0 < u) (x : Nat) : x ≤ ceilTo x u ∧ ceilTo x u < x + u := by
  have hdiv := Nat.div_add_mod (x + u - 1) u
  have hlt := Nat.mod_lt (x + u - 1) hu
  rw [Nat.mul_comm] at hdiv
  unfold ceilTo
  omega

theorem le_ceilTo_of_pos (hu : 0 < u) (hx : 0 < x) : u ≤ ceilTo x u :=
  Nat.le_of_dvd (Nat.lt_of_lt_of_le hx (ceilTo_bounds hu x).1) (dvd_ceilTo x u)

theorem ceilTo_mul_add (hu : 0 < u) (k x : Nat) : ceilTo (u * k + x) u = u * k + ceilTo x u := by
  have hshift : u * k + x + u - 1 = u * k + (x + u - 1) := by omega
  rw [ceilTo, hshift, Nat.mul_add_div hu, Nat.add_mul, Nat.mul_comm k u, ceilTo]

theorem ceilTo_add (hu : 0 < u) (hb : u ∣ b) (x : Nat) : ceilTo (b + x) u = b + ceilTo x u := by
  obtain ⟨k, rfl⟩ := hb
  exact ceilTo_mul_add hu k x

/-- **The same residue, the same distance.** -/
theorem ceilTo_congr (hu : 0 < u) (hb : b % u = b' % u) (x : Nat) :
    ∃ o, x ≤ o ∧ o < x + u ∧ ceilTo (b + x) u = b + o ∧ ceilTo (b' + x) u = b' + o := by
  have hdiv := Nat.div_add_mod b u
  have hdiv' := Nat.div_add_mod b' u
  have hx : b + x = u * (b / u) + (b % u + x) := by omega
  have hx' : b' + x = u * (b' / u) + (b % u + x) := by omega
  have hbound := ceilTo_bounds hu (b % u + x)
  rw [hx, hx', ceilTo_mul_add hu, ceilTo_mul_add hu]
  refine ⟨ceilTo (b % u + x) u - b % u, ?_, ?_, ?_, ?_⟩ <;> omega

end Rounding
