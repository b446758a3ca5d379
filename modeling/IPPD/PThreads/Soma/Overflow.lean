import IPPD.Foundation.SumBelow
import IPPD.PThreads.Soma.Ex1aSum
import IPPD.PThreads.Soma.Ex1bSum
import IPPD.PThreads.Soma.Exact

/-!
# Overflow in the parallel sums

The exact values of the variables are those of a run on exact integers.  They
are never negative and never above the sum of the visited elements, which is
also the last value of `acum`.  So nothing overflows exactly when this sum fits
in an `int`, and with `vet[j] = j` it does for up to `2 ^ 16` visited elements.
-/

namespace IPPD
namespace PThreads
namespace Soma

open Foundation

/-!
## The exact vector
-/

/-- The vector that `main` fills, in exact integers. -/
def numbers (tam : Nat) : Vector Int tam :=
  Vector.ofFn fun j => (j : Int)

variable {tam nthreads : Nat}

theorem wrap_numbers (tam : Nat) : (numbers tam).map wrap = fill tam := by
  apply Vector.ext
  intro j hj
  simp [numbers, fill, wrap_natCast]

theorem numbers_nonneg (tam : Nat) :
    forall x, x ∈ (numbers tam).toList -> 0 ≤ x := by
  intro x hx
  rcases List.getElem_of_mem hx with ⟨j, hj, hx⟩
  rw [← hx]
  simp [numbers]

theorem sum_take_numbers {k : Nat} (hk : k ≤ tam) :
    ((numbers tam).toList.take k).sum =
      ((∑ j ∈ Finset.range k, j : Nat) : Int) := by
  induction k with
  | zero => simp
  | succ k ih =>
      have hget : (numbers tam).toList[k]? = some (k : Int) := by
        simp [numbers, Nat.lt_of_succ_le hk]
      rw [List.take_add_one, hget, List.sum_append, ih (by lia),
        Finset.sum_range_succ]
      simp

theorem visitedSum_numbers (tam nthreads : Nat) :
    visitedSum (numbers tam) nthreads =
      ((∑ j ∈ Finset.range (nthreads * (tam / nthreads)), j : Nat) : Int) :=
  sum_take_numbers (Nat.mul_div_le tam nthreads)

theorem fits_sum_range_iff (k : Nat) :
    Fits ((∑ j ∈ Finset.range k, j : Nat) : Int) <-> k ≤ 65536 := by
  have hmono : forall {m n : Nat}, m ≤ n ->
      ∑ j ∈ Finset.range m, j ≤ ∑ j ∈ Finset.range n, j :=
    fun hmn => Finset.sum_le_sum_of_subset (Finset.range_mono hmn)
  have hlast : ∑ j ∈ Finset.range 65536, j = 2147450880 :=
    Finset.sum_range_id 65536
  have hfirst : ∑ j ∈ Finset.range 65537, j = 2147516416 :=
    Finset.sum_range_id 65537
  unfold Fits
  constructor
  · intro h
    by_contra hgt
    have hle := hmono (show 65537 ≤ k by lia)
    lia
  · intro h
    have hle := hmono h
    lia

theorem fits_of_between {x v : Int} (hv : Fits v) (hx : 0 ≤ x)
    (hle : x ≤ v) : Fits x := by
  unfold Fits at hv ⊢
  lia

/-!
## Partial sums

The vector has no negative element in this part.
-/

section Bounds

variable {int : Type u} [AddCommMonoid int] [PartialOrder int]
variable [IsOrderedAddMonoid int] {vet : Vector int tam}

theorem visitedBy_nonneg (hvet : forall x, x ∈ vet.toList -> 0 ≤ x)
    (nthreads k : Nat) : 0 ≤ visitedBy vet nthreads k := by
  have hle := sum_take_mono hvet (Nat.zero_le (k * (tam / nthreads)))
  simpa [visitedBy] using hle

theorem visitedBy_le_visitedSum (hvet : forall x, x ∈ vet.toList -> 0 ≤ x)
    {nthreads k : Nat} (hk : k ≤ nthreads) :
    visitedBy vet nthreads k ≤ visitedSum vet nthreads :=
  sum_take_mono hvet (Nat.mul_le_mul_right _ hk)

theorem segmentSum_le_visitedSum
    (hvet : forall x, x ∈ vet.toList -> 0 ≤ x) {j lo i : Nat}
    (hj : j < nthreads) (hlo : lo ≤ i)
    (hi : i ≤ (dta tam nthreads j).end_) :
    segmentSum vet.toList lo i ≤ visitedSum vet nthreads :=
  calc
    segmentSum vet.toList lo i ≤ (vet.toList.take i).sum :=
      segmentSum_le_sum_take hvet hlo
    _ ≤ visitedBy vet nthreads (j + 1) := sum_take_mono hvet hi
    _ ≤ visitedSum vet nthreads := visitedBy_le_visitedSum hvet hj

theorem threadSum_nonneg (hvet : forall x, x ∈ vet.toList -> 0 ≤ x)
    (nthreads j : Nat) : 0 ≤ threadSum vet nthreads j :=
  segmentSum_nonneg hvet _ _

end Bounds

namespace Ex1a

/-!
## The sum with a mutex
-/

section Bounds

variable {int : Type u} [AddCommMonoid int] [PartialOrder int]
variable [IsOrderedAddMonoid int] {vet : Vector int tam}

theorem somaL_between (hvet : forall x, x ∈ vet.toList -> 0 ≤ x)
    {s : State int nthreads} (h : (system vet nthreads).Reachable s)
    (j : Fin nthreads) :
    0 ≤ (s.threads j).somaL ∧
      (s.threads j).somaL ≤ visitedSum vet nthreads := by
  have hadding := (reachable_inv h).adding j
  rw [hadding.somaL]
  constructor
  · exact segmentSum_nonneg hvet _ _
  · exact segmentSum_le_visitedSum hvet j.isLt hadding.lower hadding.upper

theorem contribution_between (hvet : forall x, x ∈ vet.toList -> 0 ≤ x)
    {j : Nat} {t : SomaThread int} (ht : Adding vet (dta tam nthreads j) t) :
    0 ≤ t.contribution ∧ t.contribution ≤ threadSum vet nthreads j := by
  have hnonneg := threadSum_nonneg hvet nthreads j
  cases hpc : t.pc with
  | loop | lock | load | store => simp [SomaThread.contribution, hpc, hnonneg]
  | unlock | left =>
      have hsomaL := ht.somaL_eq (by simp [hpc])
      simp [SomaThread.contribution, hpc, hsomaL, hnonneg]

theorem acum_between (hvet : forall x, x ∈ vet.toList -> 0 ≤ x)
    {s : State int nthreads} (h : (system vet nthreads).Reachable s) :
    0 ≤ s.shared.acum ∧ s.shared.acum ≤ visitedSum vet nthreads := by
  have hs := reachable_inv h
  rw [hs.acum, ← sum_threadSum]
  constructor
  · apply Finset.sum_nonneg
    intro j _
    exact (contribution_between hvet (hs.adding j)).left
  · apply Finset.sum_le_sum
    intro j _
    exact (contribution_between hvet (hs.adding j)).right

end Bounds

/-- The exact values of the variables fit in an `int`, in every run. -/
def NoOverflow (tam nthreads : Nat) : Prop :=
  forall s : State Int nthreads,
    (system (numbers tam) nthreads).Reachable s ->
      Fits s.shared.acum ∧ forall j, Fits (s.threads j).somaL

/-- What the program prints is the exact sum of the visited elements. -/
def PrintsExact (tam nthreads : Nat) : Prop :=
  forall v : CInt, Prints (fill tam) nthreads v ->
    v.toInt = visitedSum (numbers tam) nthreads

theorem noOverflow_of_fits
    (h : Fits (visitedSum (numbers tam) nthreads)) :
    NoOverflow tam nthreads := by
  intro s hs
  have hacum := acum_between (numbers_nonneg tam) hs
  refine ⟨fits_of_between h hacum.left hacum.right, ?_⟩
  intro j
  have hsomaL := somaL_between (numbers_nonneg tam) hs j
  exact fits_of_between h hsomaL.left hsomaL.right

theorem fits_of_noOverflow (h : NoOverflow tam nthreads) :
    Fits (visitedSum (numbers tam) nthreads) := by
  rcases (prints_iff (numbers tam) nthreads _).mpr rfl with ⟨s, hs, hv⟩
  have hprinted := (reachable_inv hs).printed
  rw [hv] at hprinted
  split at hprinted
  · rw [Option.some_inj.mp hprinted]
    exact (h s hs).left
  · cases hprinted

theorem printsExact_of_fits
    (h : Fits (visitedSum (numbers tam) nthreads)) :
    PrintsExact tam nthreads := by
  intro v hv
  rw [← wrap_numbers] at hv
  rcases (prints_map_iff wrap (numbers tam) nthreads v).mp hv with
    ⟨w, hw, hwv⟩
  rw [(prints_iff (numbers tam) nthreads w).mp hw] at hwv
  rw [← hwv]
  exact toInt_wrap h

end Ex1a

namespace Ex1b

/-!
## The sum without shared data
-/

theorem MainPc.added_le_joined (nthreads : Nat) (pc : MainPc) :
    pc.added nthreads ≤ pc.joined nthreads := by
  cases pc <;> simp [added, joined]

section Bounds

variable {int : Type u} [AddCommMonoid int] [PartialOrder int]
variable [IsOrderedAddMonoid int] {vet : Vector int tam}

theorem acum_between (hvet : forall x, x ∈ vet.toList -> 0 ≤ x)
    {s : State int nthreads} (h : (system vet nthreads).Reachable s) :
    0 ≤ s.acum ∧ s.acum ≤ visitedSum vet nthreads := by
  have hs := reachable_inv h
  have hadded : s.main.added nthreads ≤ nthreads :=
    Nat.le_trans (MainPc.added_le_joined nthreads s.main) hs.joined_le
  rw [hs.acum]
  exact ⟨visitedBy_nonneg hvet nthreads _,
    visitedBy_le_visitedSum hvet hadded⟩

/-- Every value on the heap is a partial sum of its owner. -/
theorem load_between (hvet : forall x, x ∈ vet.toList -> 0 ≤ x)
    {s : State int nthreads} (h : (system vet nthreads).Reachable s)
    {a : Nat} {v : int} (hload : s.heap.load a = some v) :
    0 ≤ v ∧ v ≤ visitedSum vet nthreads := by
  have hs := reachable_inv h
  have hcell : s.heap a = some (some v) :=
    Option.join_eq_some_iff.mp hload
  rcases hs.owned.live hcell with ⟨j, hj⟩
  have hadding := hs.adding j
  unfold State.owner at hj
  split at hj
  · cases hj
  · unfold SomaThread.cell at hj
    split at hj
    · cases hj
    · cases hj
    all_goals
      cases hj
      rw [hadding.dta]
      exact ⟨segmentSum_nonneg hvet _ _, segmentSum_le_visitedSum hvet j.isLt
        hadding.lower hadding.upper⟩

end Bounds

/-- The exact values of `acum` and of the cells fit in an `int`, in every
run. -/
def NoOverflow (tam nthreads : Nat) : Prop :=
  forall s : State Int nthreads,
    (system (numbers tam) nthreads).Reachable s ->
      Fits s.acum ∧ forall a v, s.heap.load a = some v -> Fits v

/-- What the program prints is the exact sum of the visited elements. -/
def PrintsExact (tam nthreads : Nat) : Prop :=
  forall v : CInt, Prints (fill tam) nthreads v ->
    v.toInt = visitedSum (numbers tam) nthreads

theorem noOverflow_of_fits
    (h : Fits (visitedSum (numbers tam) nthreads)) :
    NoOverflow tam nthreads := by
  intro s hs
  have hacum := acum_between (numbers_nonneg tam) hs
  refine ⟨fits_of_between h hacum.left hacum.right, ?_⟩
  intro a v hload
  have hv := load_between (numbers_nonneg tam) hs hload
  exact fits_of_between h hv.left hv.right

theorem printsExact_of_fits
    (h : Fits (visitedSum (numbers tam) nthreads)) :
    PrintsExact tam nthreads := by
  intro v hv
  rw [← wrap_numbers] at hv
  rcases (prints_map_iff wrap (numbers tam) nthreads v).mp hv with
    ⟨w, hw, hwv⟩
  rw [(prints_iff (numbers tam) nthreads w).mp hw] at hwv
  rw [← hwv]
  exact toInt_wrap h

end Ex1b

/-!
## Both programs
-/

/-- No value leaves the range of `int`, in no run of the two programs, exactly
when at most `2 ^ 16` elements belong to the threads. -/
theorem noOverflow_iff (tam nthreads : Nat) :
    (Ex1a.NoOverflow tam nthreads ∧ Ex1b.NoOverflow tam nthreads ∧
        Ex1a.PrintsExact tam nthreads ∧ Ex1b.PrintsExact tam nthreads) <->
      nthreads * (tam / nthreads) ≤ 65536 := by
  rw [← fits_sum_range_iff, ← visitedSum_numbers]
  constructor
  · intro h
    exact Ex1a.fits_of_noOverflow h.left
  · intro h
    exact ⟨Ex1a.noOverflow_of_fits h, Ex1b.noOverflow_of_fits h,
      Ex1a.printsExact_of_fits h, Ex1b.printsExact_of_fits h⟩

/-- Two threads on 65538 elements. -/
theorem overflow_65538 :
    ¬ forall tam nthreads : Nat, 100 ≤ tam -> tam < 2 ^ 31 ->
      2 ≤ nthreads -> nthreads < 2 ^ 31 ->
        Ex1a.NoOverflow tam nthreads ∧ Ex1b.NoOverflow tam nthreads ∧
          Ex1a.PrintsExact tam nthreads ∧ Ex1b.PrintsExact tam nthreads := by
  intro h
  have hno := h 65538 2 (by decide) (by decide) (by decide) (by decide)
  have hfits := Ex1a.fits_of_noOverflow hno.left
  rw [visitedSum_numbers, fits_sum_range_iff] at hfits
  exact absurd hfits (by decide)

end Soma
end PThreads
end IPPD
