import Mathlib.Algebra.Ring.Basic
import Mathlib.Logic.Function.Iterate
import Mathlib.Tactic.Ring

/-!
# Iterated affine maps

A linear congruential generator steps by a map `x ↦ a * x + c`.  Any number of
steps is such a map again, and the pair of its coefficients can be computed one
step at a time.
-/

namespace IPPD
namespace Foundation
namespace Affine

variable {R : Type u} [CommRing R]

/-- The map with multiplier `p.1` and addend `p.2`. -/
def map (p : R × R) (x : R) : R :=
  p.1 * x + p.2

/-- The coefficients of `n` steps. -/
def jump (p : R × R) : Nat -> R × R
  | 0 => (1, 0)
  | n + 1 => ((jump p n).1 * p.1, p.2 + (jump p n).2 * p.1)

theorem map_jump (p : R × R) (n : Nat) (x : R) :
    map (jump p n) x = (map p)^[n] x := by
  induction n with
  | zero => simp [map, jump]
  | succ n ih =>
      rw [Function.iterate_succ_apply', ← ih]
      simp only [map, jump]
      ring

end Affine
end Foundation
end IPPD
