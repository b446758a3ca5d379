import Mathlib.Data.Nat.Bitwise

/-!
# Corners of a hypercube

The bits of a number are the coordinates of a corner.  A corner whose first `k`
coordinates are zero has a neighbour across dimension `k`, above it or below it
by `2 ^ k`.
-/

namespace IPPD
namespace Foundation
namespace Hypercube

/-!
## Powers of two
-/

theorem log2_halved {i : Nat} (hi : 1 < i) :
    Nat.log2 (i >>> 1) + 1 = Nat.log2 i := by
  have hi' : 2 ≤ i := hi
  rw [Nat.log2_def i, if_pos hi', Nat.shiftRight_one]

theorem log2_of_le_one {i : Nat} (hi : ¬ 1 < i) : Nat.log2 i = 0 := by
  rw [Nat.log2_def]
  exact if_neg hi

theorem halved_lt {i : Nat} (hi : 1 < i) : i >>> 1 < i := by
  rw [Nat.shiftRight_one]
  lia

theorem two_pow_shiftLeft (k : Nat) : 2 ^ k <<< 1 = 2 ^ (k + 1) := by
  rw [Nat.shiftLeft_eq, Nat.pow_one, Nat.pow_succ]

theorem two_pow_shiftRight (k : Nat) : 2 ^ (k + 1) >>> 1 = 2 ^ k := by
  rw [Nat.shiftRight_one, Nat.pow_succ, Nat.mul_div_cancel _ Nat.two_pos]

/-!
## Masks and neighbours
-/

theorem mask_xor (k : Nat) : (2 ^ (k + 1) - 1) ^^^ 2 ^ k = 2 ^ k - 1 := by
  apply Nat.eq_of_testBit_eq
  intro j
  rw [Nat.testBit_xor, Nat.testBit_two_pow_sub_one, Nat.testBit_two_pow,
    Nat.testBit_two_pow_sub_one]
  by_cases hj : k = j
  · simp [hj]
  · have hlt : j < k + 1 <-> j < k := by lia
    simp [hj, hlt]

theorem mask_xor_succ (k : Nat) : (2 ^ k - 1) ^^^ 2 ^ k = 2 ^ (k + 1) - 1 := by
  rw [← mask_xor k, Nat.xor_assoc, Nat.xor_self, Nat.xor_zero]

theorem mod_two_pow_succ {d k : Nat} (h : d % 2 ^ k = 0) :
    d % 2 ^ (k + 1) = 0 ∨ d % 2 ^ (k + 1) = 2 ^ k := by
  rw [Nat.mod_pow_succ, h]
  rcases Nat.mod_two_eq_zero_or_one (d / 2 ^ k) with hbit | hbit
  · exact Or.inl (by simp [hbit])
  · exact Or.inr (by simp [hbit])

theorem mod_two_pow_of_succ {d k : Nat} (h : d % 2 ^ (k + 1) = 0) :
    d % 2 ^ k = 0 :=
  Nat.mod_eq_zero_of_dvd ((pow_dvd_pow 2 (Nat.le_succ k)).trans
    (Nat.dvd_of_mod_eq_zero h))

theorem upper_mod {d k : Nat} (h : d % 2 ^ (k + 1) = 0) :
    (d + 2 ^ k) % 2 ^ (k + 1) = 2 ^ k := by
  have hlt : 2 ^ k < 2 ^ (k + 1) := Nat.pow_lt_pow_succ (by lia)
  rw [Nat.add_mod, h, Nat.zero_add, Nat.mod_mod, Nat.mod_eq_of_lt hlt]

theorem lower_mod {d k : Nat} (h : d % 2 ^ (k + 1) = 2 ^ k) :
    2 ^ k ≤ d ∧ (d - 2 ^ k) % 2 ^ (k + 1) = 0 := by
  have hsplit := Nat.div_add_mod d (2 ^ (k + 1))
  have hdvd : 2 ^ (k + 1) ∣ d - 2 ^ k := ⟨d / 2 ^ (k + 1), by lia⟩
  exact ⟨h ▸ Nat.mod_le d _, Nat.mod_eq_zero_of_dvd hdvd⟩

theorem testBit_of_mod {d k m : Nat} (h : d % 2 ^ (k + 1) = m) :
    d.testBit k = m.testBit k := by
  rw [← h, Nat.testBit_mod_two_pow]
  simp

theorem land_eq_zero {d k : Nat} (h : d % 2 ^ (k + 1) = 0) :
    d &&& 2 ^ k = 0 := by
  rw [Nat.and_two_pow, testBit_of_mod h]
  simp

theorem land_ne_zero {d k : Nat} (h : d % 2 ^ (k + 1) = 2 ^ k) :
    d &&& 2 ^ k ≠ 0 := by
  rw [Nat.and_two_pow, testBit_of_mod h, Nat.testBit_two_pow_self]
  simp

theorem xor_lower {d k : Nat} (h : d % 2 ^ (k + 1) = 0) :
    d ^^^ 2 ^ k = d + 2 ^ k := by
  rcases Nat.dvd_of_mod_eq_zero h with ⟨q, hq⟩
  have hlt : 2 ^ k < 2 ^ (k + 1) := Nat.pow_lt_pow_succ (by lia)
  apply Nat.eq_of_testBit_eq
  intro j
  rw [Nat.testBit_xor, hq, Nat.testBit_two_pow_mul_add q hlt,
    Nat.testBit_two_pow_mul, Nat.testBit_two_pow]
  by_cases hj : j < k + 1
  · have hle : ¬ k + 1 ≤ j := Nat.not_le_of_lt hj
    simp [hj, hle]
  · have hle : k + 1 ≤ j := Nat.le_of_not_lt hj
    have hne : k ≠ j := by lia
    simp [hj, hle, hne]

theorem xor_upper {d k : Nat} (h : d % 2 ^ (k + 1) = 2 ^ k) :
    d ^^^ 2 ^ k = d - 2 ^ k := by
  rcases lower_mod h with ⟨hle, hbelow⟩
  have hback := xor_lower hbelow
  rw [Nat.sub_add_cancel hle] at hback
  rw [← hback, Nat.xor_assoc, Nat.xor_self, Nat.xor_zero, hback]

theorem even_of_testBit {d k : Nat} (h : d.testBit k = false) :
    d / 2 ^ k % 2 = 0 := by
  rw [Nat.testBit_eq_decide_div_mod_eq, decide_eq_false_iff_not] at h
  lia

theorem xor_across {d k : Nat} (h : d.testBit k = false) :
    d ^^^ 2 ^ k = d + 2 ^ k := by
  have hdiv : (d ^^^ 2 ^ k) / 2 ^ k = d / 2 ^ k + 1 := by
    rw [Nat.xor_div_two_pow, Nat.div_self (Nat.two_pow_pos k)]
    exact xor_lower (k := 0) (even_of_testBit h)
  have hmod : (d ^^^ 2 ^ k) % 2 ^ k = d % 2 ^ k := by
    rw [Nat.xor_mod_two_pow, Nat.mod_self, Nat.xor_zero]
  rw [← Nat.div_add_mod (d ^^^ 2 ^ k) (2 ^ k), hdiv, hmod, Nat.mul_add,
    Nat.mul_one, Nat.add_right_comm, Nat.div_add_mod]

theorem xor_back {d k : Nat} (h : d.testBit k = false) :
    (d + 2 ^ k) ^^^ 2 ^ k = d := by
  rw [← xor_across h, Nat.xor_assoc, Nat.xor_self, Nat.xor_zero]

end Hypercube
end Foundation
end IPPD
