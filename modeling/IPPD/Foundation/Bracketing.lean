import Mathlib.Algebra.BigOperators.Fin
import Mathlib.Algebra.Free
import Mathlib.Algebra.FreeMonoid.Basic

/-!
# Bracketed sums

A sum that is computed in a certain order with certain brackets, for an addition
that need not be associative or commutative.  The value of a bracketed sum is
its image in the type of the summands; where the addition is associative the
value depends on the order of the summands alone.
-/

namespace IPPD
namespace Foundation
namespace Bracketing

variable {index : Type u} {value : Type v}

/-- The summands from left to right. -/
def summands (t : FreeAddMagma index) : List index :=
  FreeAddMonoid.toList (FreeAddMagma.lift FreeAddMonoid.of t)

@[simp]
theorem summands_of (i : index) : summands (FreeAddMagma.of i) = [i] := rfl

@[simp]
theorem summands_add (s t : FreeAddMagma index) :
    summands (s + t) = summands s ++ summands t := by
  simp [summands]

theorem lift_eq_sum [AddMonoid value] (f : index -> value)
    (t : FreeAddMagma index) :
    FreeAddMagma.lift f t = ((summands t).map f).sum := by
  induction t with
  | ih1 i => simp
  | ih2 s t hs ht =>
      rw [map_add, hs, ht, summands_add, List.map_append, List.sum_append]

theorem lift_eq_univ_sum [AddCommMonoid value] {n : Nat} (f : Fin n -> value)
    {t : FreeAddMagma (Fin n)} (ht : summands t = List.finRange n) :
    FreeAddMagma.lift f t = ∑ i, f i := by
  rw [lift_eq_sum, ht, Fin.sum_univ_def]

end Bracketing
end Foundation
end IPPD
