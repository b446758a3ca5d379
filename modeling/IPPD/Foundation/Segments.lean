import Mathlib.Algebra.BigOperators.Fin
import Mathlib.Algebra.BigOperators.Group.List.Basic
import Mathlib.Algebra.Order.BigOperators.Group.List

/-!
# Sums over segments of an array

A loop over the indices from `lo` to `hi` accumulates the sum of a segment.
Consecutive segments of equal length add up to the sum of a prefix.
-/

namespace IPPD
namespace Foundation

variable {value : Type u} [AddCommMonoid value]

def segmentSum (l : List value) (lo hi : Nat) : value :=
  ((l.take hi).drop lo).sum

@[simp] theorem segmentSum_self (l : List value) (lo : Nat) :
    segmentSum l lo lo = 0 := by
  simp [segmentSum]

theorem segmentSum_succ {l : List value} {lo i : Nat} {x : value}
    (hlo : lo ≤ i) (hx : l[i]? = some x) :
    segmentSum l lo (i + 1) = segmentSum l lo i + x := by
  have hlen : i < l.length := by
    rcases List.getElem?_eq_some_iff.mp hx with ⟨h, _⟩
    exact h
  have htake : (l.take i).length = i := by
    rw [List.length_take]
    lia
  have hdrop : lo - (l.take i).length = 0 := by lia
  unfold segmentSum
  rw [List.take_add_one, hx, List.drop_append, hdrop]
  simp

theorem sum_take_add_segmentSum (l : List value) {lo hi : Nat}
    (h : lo ≤ hi) :
    (l.take lo).sum + segmentSum l lo hi = (l.take hi).sum := by
  have hprefix : (l.take hi).take lo = l.take lo := by
    rw [List.take_take, Nat.min_eq_left h]
  unfold segmentSum
  rw [← hprefix, List.sum_take_add_sum_drop]

theorem sum_segments (l : List value) (q n : Nat) :
    ∑ i : Fin n, segmentSum l (i * q) ((i + 1) * q) =
      (l.take (n * q)).sum := by
  induction n with
  | zero => simp
  | succ n ih =>
      have hle : n * q ≤ (n + 1) * q := Nat.mul_le_mul_right q (by lia)
      rw [Fin.sum_univ_castSucc]
      simp only [Fin.val_castSucc, Fin.val_last]
      rw [ih, sum_take_add_segmentSum l hle]

/-!
## Elements that are not negative
-/

section Ordered

variable [PartialOrder value] [IsOrderedAddMonoid value] {l : List value}

theorem segmentSum_nonneg (hl : forall x, x ∈ l -> 0 ≤ x) (lo hi : Nat) :
    0 ≤ segmentSum l lo hi := by
  apply List.sum_nonneg
  intro x hx
  exact hl x (List.mem_of_mem_take (List.mem_of_mem_drop hx))

theorem sum_take_mono (hl : forall x, x ∈ l -> 0 ≤ x) {k k' : Nat}
    (hk : k ≤ k') : (l.take k).sum ≤ (l.take k').sum := by
  rw [← sum_take_add_segmentSum l hk]
  exact le_add_of_nonneg_right (segmentSum_nonneg hl k k')

theorem segmentSum_le_sum_take (hl : forall x, x ∈ l -> 0 ≤ x)
    {lo hi : Nat} (h : lo ≤ hi) :
    segmentSum l lo hi ≤ (l.take hi).sum := by
  have hprefix : 0 ≤ (l.take lo).sum := by
    apply List.sum_nonneg
    intro x hx
    exact hl x (List.mem_of_mem_take hx)
  rw [← sum_take_add_segmentSum l h]
  exact le_add_of_nonneg_left hprefix

end Ordered

end Foundation
end IPPD
