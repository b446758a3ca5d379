import Mathlib.Algebra.BigOperators.Group.Finset.Basic
import Mathlib.Algebra.Order.BigOperators.Group.Finset
import Mathlib.Data.Fintype.Card

/-!
# Families of threads

A program with any number of threads keeps one local state per thread.  Its
invariants are mostly counting statements: how many threads are at a program
point, or what the sum of a local counter is.  A step moves one thread, so each
such quantity changes by the difference between the new and the old local
state.
-/

namespace IPPD
namespace Foundation

open Finset

theorem map_update {thread : Type u} [DecidableEq thread]
    {lstate : Type v} {lstate' : Type w} (g : lstate -> lstate')
    (f : thread -> lstate) (i : thread) (x : lstate) :
    (fun j => g (Function.update f i x j)) =
      Function.update (fun j => g (f j)) i (g x) :=
  Function.comp_update g f i x

section Tally

variable {thread : Type u} [Fintype thread]
variable {lstate : Type v} {value : Type w} [AddCommMonoid value]

/-- Sum of a per-thread quantity over all threads. -/
def tally (weight : lstate -> value) (f : thread -> lstate) : value :=
  ∑ i, weight (f i)

theorem sum_erase_update [DecidableEq thread]
    (weight : lstate -> value) (f : thread -> lstate) (i : thread)
    (x : lstate) :
    ∑ j ∈ univ.erase i, weight (Function.update f i x j) =
      ∑ j ∈ univ.erase i, weight (f j) := by
  apply sum_congr rfl
  intro j hj
  rw [Function.update_of_ne (ne_of_mem_erase hj)]

theorem tally_update [DecidableEq thread]
    (weight : lstate -> value) (f : thread -> lstate) (i : thread)
    (x : lstate) :
    tally weight (Function.update f i x) + weight (f i) =
      tally weight f + weight x := by
  have hnew := add_sum_erase univ
    (fun j => weight (Function.update f i x j)) (mem_univ i)
  have hold := add_sum_erase univ (fun j => weight (f j)) (mem_univ i)
  unfold tally
  rw [← hnew, ← hold, sum_erase_update, Function.update_self]
  ac_rfl

theorem tally_update_add [DecidableEq thread] {weight : lstate -> value}
    {f : thread -> lstate} {i : thread} {x : lstate} {d : value}
    (h : weight x = weight (f i) + d) :
    tally weight (Function.update f i x) = tally weight f + d := by
  have hnew := add_sum_erase univ
    (fun j => weight (Function.update f i x j)) (mem_univ i)
  have hold := add_sum_erase univ (fun j => weight (f j)) (mem_univ i)
  unfold tally
  rw [← hnew, ← hold, sum_erase_update, Function.update_self, h]
  ac_rfl

theorem tally_update_of_eq [DecidableEq thread] {weight : lstate -> value}
    {f : thread -> lstate} {i : thread} {x : lstate}
    (h : weight x = weight (f i)) :
    tally weight (Function.update f i x) = tally weight f := by
  apply sum_congr rfl
  intro j _
  by_cases hj : j = i
  · rw [hj, Function.update_self, h]
  · rw [Function.update_of_ne hj]

theorem tally_add (weight weight' : lstate -> value) (f : thread -> lstate) :
    tally (fun x => weight x + weight' x) f =
      tally weight f + tally weight' f :=
  sum_add_distrib

theorem tally_const (weight : lstate -> value) (x : lstate) :
    tally weight (fun _ : thread => x) = Fintype.card thread • weight x := by
  simp [tally]

end Tally

/-!
## Counting the threads at a program point
-/

section Census

variable {thread : Type u} [Fintype thread]
variable {lstate : Type v}

/-- Number of threads whose local state satisfies `p`. -/
def census (p : lstate -> Bool) (f : thread -> lstate) : Nat :=
  tally (fun x => (p x).toNat) f

theorem census_update [DecidableEq thread] (p : lstate -> Bool)
    (f : thread -> lstate) (i : thread) (x : lstate) :
    census p (Function.update f i x) + (p (f i)).toNat =
      census p f + (p x).toNat :=
  tally_update (fun x => (p x).toNat) f i x

theorem census_pos_iff {p : lstate -> Bool} {f : thread -> lstate} :
    0 < census p f <-> exists i, p (f i) = true := by
  simp [census, tally, sum_pos_iff, Nat.pos_iff_ne_zero]

theorem census_eq_zero_iff {p : lstate -> Bool} {f : thread -> lstate} :
    census p f = 0 <-> forall i, p (f i) = false := by
  simp [census, tally]

theorem census_add_census_not (p : lstate -> Bool) (f : thread -> lstate) :
    census p f + census (fun x => !p x) f = Fintype.card thread := by
  have hone : forall x : lstate, (p x).toNat + (!p x).toNat = 1 := by
    intro x
    cases p x <;> rfl
  unfold census
  rw [← tally_add]
  simp [tally, hone]

theorem census_le_card (p : lstate -> Bool) (f : thread -> lstate) :
    census p f ≤ Fintype.card thread := by
  have h := census_add_census_not p f
  lia

theorem census_eq_card_iff {p : lstate -> Bool} {f : thread -> lstate} :
    census p f = Fintype.card thread <-> forall i, p (f i) = true := by
  have hsum := census_add_census_not p f
  have hzero := census_eq_zero_iff (p := fun x => !p x) (f := f)
  constructor
  · intro h i
    have hi := hzero.mp (by lia) i
    simpa using hi
  · intro h
    have hnone : census (fun x => !p x) f = 0 :=
      hzero.mpr (fun i => by simp [h i])
    lia

theorem census_lt_card {p : lstate -> Bool} {f : thread -> lstate}
    {i : thread} (h : p (f i) = false) :
    census p f < Fintype.card thread := by
  have hle := census_le_card p f
  have hne : census p f ≠ Fintype.card thread := by
    intro heq
    have hi := census_eq_card_iff.mp heq i
    rw [h] at hi
    cases hi
  lia

theorem census_le_one_unique [DecidableEq thread] {p : lstate -> Bool}
    {f : thread -> lstate} (h : census p f ≤ 1) {i j : thread}
    (hi : p (f i) = true) (hj : p (f j) = true) : i = j := by
  by_contra hne
  have hpair :
      ∑ k ∈ ({i, j} : Finset thread), (p (f k)).toNat ≤ census p f :=
    sum_le_sum_of_subset (subset_univ _)
  rw [sum_pair hne, hi, hj] at hpair
  simp only [Bool.toNat_true] at hpair
  lia

theorem census_const (p : lstate -> Bool) (x : lstate) :
    census p (fun _ : thread => x) = Fintype.card thread * (p x).toNat := by
  simp [census, tally]

end Census

end Foundation
end IPPD
