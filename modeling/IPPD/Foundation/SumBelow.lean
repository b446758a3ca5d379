import IPPD.Foundation.CInt
import Mathlib.Algebra.BigOperators.Intervals
import Mathlib.Algebra.Order.BigOperators.Group.Finset
import Mathlib.Data.Nat.ModEq
import Mathlib.Data.Nat.Prime.Basic
import Mathlib.Tactic.Ring

/-!
# Wrapping sums of initial ranges

The sum of the numbers below `k` as an `int`.  The exact sum soon leaves the
range of `int`, but the wrapped sums for different `k` stay different as long
as `k` itself is a non-negative `int`.
-/

namespace IPPD
namespace Foundation

def sumBelow (k : Nat) : CInt :=
  BitVec.ofNat 32 (∑ j ∈ Finset.range k, j)

theorem sumBelow_zero : sumBelow 0 = 0 := rfl

theorem sumBelow_succ (k : Nat) :
    sumBelow (k + 1) = sumBelow k + BitVec.ofNat 32 k := by
  rw [sumBelow, Finset.sum_range_succ, BitVec.ofNat_add]
  rfl

theorem sumBelow_eq (k : Nat) :
    sumBelow k = BitVec.ofNat 32 (k * (k - 1) / 2) := by
  rw [sumBelow, Finset.sum_range_id]

/-!
## Different ranges have different sums

Twice the sum of the `d` numbers from `k` on is `d * (2 * k + d - 1)`.  One of
the two factors is odd, so a power of two that divides the product divides the
other one.
-/

theorem two_pow_dvd_of_odd_add {a b e : Nat} (hodd : Odd (a + b))
    (h : 2 ^ e ∣ a * b) : 2 ^ e ∣ a ∨ 2 ^ e ∣ b := by
  rcases Nat.even_or_odd a with ha | ha
  · have hb : Odd b := (Nat.odd_add'.mp hodd).mpr ha
    have hcop : Nat.Coprime (2 ^ e) b :=
      Nat.Coprime.pow_left e (Nat.coprime_two_left.mpr hb)
    exact Or.inl (hcop.dvd_of_dvd_mul_right h)
  · have hcop : Nat.Coprime (2 ^ e) a :=
      Nat.Coprime.pow_left e (Nat.coprime_two_left.mpr ha)
    exact Or.inr (hcop.dvd_of_dvd_mul_left h)

theorem two_mul_sum_range_add (k d : Nat) :
    2 * ∑ j ∈ Finset.range (k + d), j + d =
      2 * ∑ j ∈ Finset.range k, j + d * (2 * k + d) := by
  induction d with
  | zero => simp
  | succ d ih =>
      rw [← Nat.add_assoc k d 1, Finset.sum_range_succ]
      have hprod : (d + 1) * (2 * k + (d + 1)) =
          d * (2 * k + d) + (2 * k + 2 * d + 1) := by ring
      lia

theorem sumBelow_inj {k n : Nat} (hk : k ≤ n) (hn : 2 ≤ n)
    (hmax : n < 2 ^ 31) (h : sumBelow k = sumBelow n) : k = n := by
  rcases Nat.exists_eq_add_of_le hk with ⟨d, hd⟩
  subst hd
  by_contra hne
  have hsum : ∑ j ∈ Finset.range k, j ≤ ∑ j ∈ Finset.range (k + d), j :=
    Finset.sum_le_sum_of_subset (Finset.range_mono hk)
  have hmod : ∑ j ∈ Finset.range k, j ≡ ∑ j ∈ Finset.range (k + d), j
      [MOD 2 ^ 32] := by
    have hnat := congrArg BitVec.toNat h
    simpa [sumBelow, Nat.ModEq] using hnat
  have hdvd : 2 ^ 33 ∣ d * (2 * k + d - 1) := by
    have hdiff := (Nat.modEq_iff_dvd' hsum).mp hmod
    have htwo := Nat.mul_dvd_mul_left 2 hdiff
    have hprod := two_mul_sum_range_add k d
    have hpred : d * (2 * k + d - 1) = d * (2 * k + d) - d :=
      Nat.mul_sub_one _ _
    have heq : 2 * (∑ j ∈ Finset.range (k + d), j -
        ∑ j ∈ Finset.range k, j) = d * (2 * k + d - 1) := by lia
    rw [← heq]
    exact htwo
  have hodd : Odd (d + (2 * k + d - 1)) := ⟨k + d - 1, by lia⟩
  rcases two_pow_dvd_of_odd_add hodd hdvd with hfst | hsnd
  · have hle := Nat.le_of_dvd (by lia) hfst
    lia
  · have hle := Nat.le_of_dvd (by lia) hsnd
    lia

end Foundation
end IPPD
