import Mathlib.Algebra.BigOperators.Intervals
import Mathlib.Algebra.Field.Basic
import Mathlib.Tactic.Ring

/-!
# Linear algebra on parts of arrays

The operations that the factorization of a panel uses.  An array is a function of
row and column, and a part of it is given by the row and the column of its first
entry.  The operations do the arithmetic of the loops of the library in the order
of these loops, over any type that has it.  Their results are in a field, where,
unlike in `double`, nothing is rounded.
-/

namespace IPPD
namespace HPL

universe u

variable {α : Type u}

/-!
## The operations
-/

section Operations

/-- The `m` by `n` part of `a` is copied.  This is also `HPL_dcopy`, which copies
one row or one column. -/
def dlacpy (m n : Nat) (a : Nat -> Nat -> α) (ia ja : Nat) (b : Nat -> Nat -> α)
    (ib jb : Nat) : Nat -> Nat -> α :=
  fun i j =>
    if (ib ≤ i ∧ i < ib + m) ∧ jb ≤ j ∧ j < jb + n then
      a (ia + (i - ib)) (ja + (j - jb))
    else b i j

variable [Add α] [Sub α] [Mul α] [Zero α]

/-- The terms are added to `c` one after the other. -/
def accumulate (c : α) (term : Nat -> α) : Nat -> α
  | 0 => c
  | k + 1 => accumulate c term k + term k

/-- Column `jx` of the `m` rows from `i0` on is scaled. -/
def dscal (m : Nat) (alpha : α) (i0 jx : Nat) (a : Nat -> Nat -> α) :
    Nat -> Nat -> α :=
  fun i j => if (i0 ≤ i ∧ i < i0 + m) ∧ j = jx then a i j * alpha else a i j

/-- A multiple of column `jx` is added to column `jy`. -/
def daxpy (m : Nat) (alpha : α) (i0 jx jy : Nat) (a : Nat -> Nat -> α) :
    Nat -> Nat -> α :=
  fun i j =>
    if (i0 ≤ i ∧ i < i0 + m) ∧ j = jy then a i j + alpha * a i jx else a i j

/-- Multiples of column `jx` are added to the `n` columns from `j0` on. -/
def dger (m n : Nat) (alpha : α) (i0 jx : Nat) (y : Nat -> α) (j0 : Nat)
    (a : Nat -> Nat -> α) : Nat -> Nat -> α :=
  fun i j =>
    if (i0 ≤ i ∧ i < i0 + m) ∧ j0 ≤ j ∧ j < j0 + n then
      a i j + a i jx * (alpha * y (j - j0))
    else a i j

/-- The `m` by `n` part of `c` at `(ic, jc)` gets a multiple of the product of the
parts of `a` and `b`, which have `k` columns and `k` rows. -/
def dgemm (m n k : Nat) (alpha : α) (a : Nat -> Nat -> α) (ia ja : Nat)
    (b : Nat -> Nat -> α) (ib jb : Nat) (c : Nat -> Nat -> α) (ic jc : Nat) :
    Nat -> Nat -> α :=
  fun i j =>
    if (ic ≤ i ∧ i < ic + m) ∧ jc ≤ j ∧ j < jc + n then
      accumulate (c i j)
        (fun l => a (ia + (i - ic)) (ja + l) *
          (alpha * b (ib + l) (jb + (j - jc)))) k
    else c i j

/-- The matrix times a column. -/
def dgemvN (m n : Nat) (alpha : α) (a : Nat -> Nat -> α) (ia ja : Nat)
    (x : Nat -> Nat -> α) (ix jx : Nat) (y : Nat -> Nat -> α) (iy jy : Nat) :
    Nat -> Nat -> α :=
  dgemm m 1 n alpha a ia ja x ix jx y iy jy

/-- The transposed `m` by `n` matrix times a row. -/
def dgemvT (m n : Nat) (alpha : α) (a : Nat -> Nat -> α) (ia ja : Nat)
    (x : Nat -> Nat -> α) (ix jx : Nat) (y : Nat -> Nat -> α) (iy jy : Nat) :
    Nat -> Nat -> α :=
  fun i j =>
    if i = iy ∧ jy ≤ j ∧ j < jy + n then
      y i j + alpha *
        accumulate 0 (fun l => a (ia + l) (ja + (j - jy)) * x ix (jx + l)) m
    else y i j

/-- Row `k` of the solution is subtracted from the rows below. -/
def dtrsmRow (m n : Nat) (a : Nat -> Nat -> α) (ia ja ib jb k : Nat)
    (b : Nat -> Nat -> α) : Nat -> Nat -> α :=
  fun i j =>
    if (ib + k < i ∧ i < ib + m) ∧ jb ≤ j ∧ j < jb + n then
      b i j - b (ib + k) j * a (ia + (i - ib)) (ja + k)
    else b i j

def dtrsmLoop (m n : Nat) (a : Nat -> Nat -> α) (ia ja : Nat)
    (b : Nat -> Nat -> α) (ib jb : Nat) : Nat -> Nat -> Nat -> α
  | 0 => b
  | k + 1 => dtrsmRow m n a ia ja ib jb k (dtrsmLoop m n a ia ja b ib jb k)

/-- The part of `b` is solved with the lower triangle of the part of `a`, which has
a unit diagonal. -/
def dtrsm (m n : Nat) (a : Nat -> Nat -> α) (ia ja : Nat) (b : Nat -> Nat -> α)
    (ib jb : Nat) : Nat -> Nat -> α :=
  dtrsmLoop m n a ia ja b ib jb m

/-- One column is solved. -/
def dtrsv (m : Nat) (a : Nat -> Nat -> α) (ia ja : Nat) (x : Nat -> Nat -> α)
    (ix jx : Nat) : Nat -> Nat -> α :=
  dtrsm m 1 a ia ja x ix jx

end Operations

/-!
## Their results

The callers use rows and columns of the same number.
-/

theorem dlacpy_apply (m n : Nat) (a : Nat -> Nat -> α) (i0 j0 : Nat)
    (b : Nat -> Nat -> α) (i j : Nat) :
    dlacpy m n a i0 j0 b i0 j0 i j =
      if (i0 ≤ i ∧ i < i0 + m) ∧ j0 ≤ j ∧ j < j0 + n then a i j else b i j := by
  unfold dlacpy
  split
  case isTrue h =>
    rw [Nat.add_sub_cancel' h.left.left, Nat.add_sub_cancel' h.right.left]
  case isFalse _ => rfl

section Results

variable [Field α]

theorem accumulate_eq (c : α) (term : Nat -> α) (k : Nat) :
    accumulate c term k = c + ∑ l ∈ Finset.range k, term l := by
  induction k with
  | zero => simp [accumulate]
  | succ k ih => rw [accumulate, ih, Finset.sum_range_succ, add_assoc]

theorem sum_range_add (f : Nat -> α) (i k : Nat) :
    ∑ l ∈ Finset.range k, f (i + l) = ∑ l ∈ Finset.Ico i (i + k), f l := by
  rw [Finset.sum_Ico_eq_sum_range, Nat.add_sub_cancel_left]

theorem dger_zero (m : Nat) (alpha : α) (i0 jx : Nat) (y : Nat -> α) (j0 : Nat)
    (a : Nat -> Nat -> α) : dger m 0 alpha i0 jx y j0 a = a := by
  funext i j
  exact if_neg fun h => absurd h.right.right (Nat.not_lt.mpr h.right.left)

theorem dgemm_apply (m n k : Nat) (a : Nat -> Nat -> α) (i0 k0 : Nat)
    (b : Nat -> Nat -> α) (j0 : Nat) (c : Nat -> Nat -> α) (i j : Nat) :
    dgemm m n k (-1) a i0 k0 b k0 j0 c i0 j0 i j =
      if (i0 ≤ i ∧ i < i0 + m) ∧ j0 ≤ j ∧ j < j0 + n then
        c i j - ∑ l ∈ Finset.Ico k0 (k0 + k), a i l * b l j
      else c i j := by
  unfold dgemm
  split
  case isTrue h =>
    rw [Nat.add_sub_cancel' h.left.left, Nat.add_sub_cancel' h.right.left,
      accumulate_eq, ← sum_range_add (fun l => a i l * b l j), sub_eq_add_neg,
      ← Finset.sum_neg_distrib]
    congr 1
    apply Finset.sum_congr rfl
    intro l _
    ring
  case isFalse _ => rfl

theorem dgemvN_apply (m n : Nat) (a : Nat -> Nat -> α) (i0 k0 : Nat)
    (x : Nat -> Nat -> α) (j0 : Nat) (y : Nat -> Nat -> α) (i j : Nat) :
    dgemvN m n (-1) a i0 k0 x k0 j0 y i0 j0 i j =
      if (i0 ≤ i ∧ i < i0 + m) ∧ j = j0 then
        y i j - ∑ l ∈ Finset.Ico k0 (k0 + n), a i l * x l j
      else y i j := by
  have hcolumn : j0 ≤ j ∧ j < j0 + 1 <-> j = j0 := by lia
  simp only [dgemvN, dgemm_apply, hcolumn]

theorem dgemvT_apply (m n : Nat) (a : Nat -> Nat -> α) (i0 j0 : Nat)
    (x : Nat -> Nat -> α) (ix : Nat) (y : Nat -> Nat -> α) (iy i j : Nat) :
    dgemvT m n (-1) a i0 j0 x ix i0 y iy j0 i j =
      if i = iy ∧ j0 ≤ j ∧ j < j0 + n then
        y i j - ∑ l ∈ Finset.Ico i0 (i0 + m), x ix l * a l j
      else y i j := by
  unfold dgemvT
  split
  case isTrue h =>
    rw [Nat.add_sub_cancel' h.right.left, accumulate_eq, zero_add,
      ← sum_range_add (fun l => x ix l * a l j), neg_one_mul, ← sub_eq_add_neg]
    congr 1
    apply Finset.sum_congr rfl
    intro l _
    ring
  case isFalse _ => rfl

section Solve

variable (m n : Nat) (a : Nat -> Nat -> α) (i0 : Nat) (b : Nat -> Nat -> α)
  (j0 : Nat)

theorem dtrsmLoop_succ_of_le {k i : Nat} (h : i ≤ i0 + k) (j : Nat) :
    dtrsmLoop m n a i0 i0 b i0 j0 (k + 1) i j =
      dtrsmLoop m n a i0 i0 b i0 j0 k i j :=
  if_neg fun hrow => absurd hrow.left.left (Nat.not_lt.mpr h)

theorem dtrsmLoop_apply (k : Nat) (i j : Nat) :
    dtrsmLoop m n a i0 i0 b i0 j0 k i j =
      if (i0 ≤ i ∧ i < i0 + m) ∧ j0 ≤ j ∧ j < j0 + n then
        b i j - ∑ l ∈ Finset.Ico i0 (min (i0 + k) i),
          a i l * dtrsmLoop m n a i0 i0 b i0 j0 k l j
      else b i j := by
  induction k generalizing i with
  | zero =>
      have hempty : Finset.Ico i0 (min (i0 + 0) i) = ∅ :=
        Finset.Ico_eq_empty_of_le (min_le_left _ _)
      rw [hempty, Finset.sum_empty, sub_zero, ite_self]
      rfl
  | succ k ih =>
      have hsolved : forall e, e ≤ i0 + k + 1 ->
          ∑ l ∈ Finset.Ico i0 e,
            a i l * dtrsmLoop m n a i0 i0 b i0 j0 (k + 1) l j =
          ∑ l ∈ Finset.Ico i0 e, a i l * dtrsmLoop m n a i0 i0 b i0 j0 k l j := by
        intro e he
        apply Finset.sum_congr rfl
        intro l hl
        rw [dtrsmLoop_succ_of_le]
        exact Nat.le_of_lt_succ ((Finset.mem_Ico.mp hl).right.trans_le he)
      rw [← Nat.add_assoc, hsolved _ (min_le_left _ _)]
      rcases Nat.lt_or_ge (i0 + k) i with hlt | hge
      · rw [dtrsmLoop, dtrsmRow, ih i, min_eq_left hlt.le, min_eq_left hlt]
        have hlow : i0 ≤ i := (Nat.le_add_right i0 k).trans hlt.le
        simp only [hlt, hlow, true_and]
        split
        case isTrue _ =>
          rw [Finset.sum_Ico_succ_top (Nat.le_add_right i0 k),
            Nat.add_sub_cancel' hlow]
          ring
        case isFalse _ => rfl
      · rw [dtrsmLoop_succ_of_le m n a i0 b j0 hge, ih i, min_eq_right hge,
          min_eq_right (hge.trans (Nat.le_succ _))]

/-- The solution times the triangle is the right-hand side. -/
theorem dtrsm_apply (i j : Nat) :
    dtrsm m n a i0 i0 b i0 j0 i j =
      if (i0 ≤ i ∧ i < i0 + m) ∧ j0 ≤ j ∧ j < j0 + n then
        b i j - ∑ l ∈ Finset.Ico i0 i, a i l * dtrsm m n a i0 i0 b i0 j0 l j
      else b i j := by
  rw [dtrsm, dtrsmLoop_apply]
  split
  case isTrue h => rw [min_eq_right h.left.right.le]
  case isFalse _ => rfl

theorem dtrsv_apply (i j : Nat) :
    dtrsv m a i0 i0 b i0 j0 i j =
      if (i0 ≤ i ∧ i < i0 + m) ∧ j = j0 then
        b i j - ∑ l ∈ Finset.Ico i0 i, a i l * dtrsv m a i0 i0 b i0 j0 l j
      else b i j := by
  have hcolumn : j0 ≤ j ∧ j < j0 + 1 <-> j = j0 := by lia
  rw [dtrsv, dtrsm_apply]
  simp only [hcolumn]

end Solve

end Results

end HPL
end IPPD
