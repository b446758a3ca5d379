import IPPD.Foundation.SumBelow
import IPPD.PThreads.Soma.Ex1aSum
import IPPD.PThreads.Soma.Ex1bSum

/-!
# The two sums compared

Both programs print the sum of the elements that belong to some thread, under
every schedule.  These are all elements only when the number of threads divides
the size of the vector; the remainder of the division belongs to no thread.
-/

namespace IPPD
namespace PThreads
namespace Soma

open Foundation

variable {tam : Nat}

/-!
## The two programs agree
-/

theorem parseArgs_ok_iff (argv : List String) (cfg : Config) :
    Ex1a.parseArgs argv = Except.ok cfg <->
      Ex1b.parseArgs argv = Except.ok cfg :=
  checkArgs_eq_ok_iff.trans checkArgs_eq_ok_iff.symm

/-- Under every schedule both programs end and print the sum of the elements
before `nthreads * (tam / nthreads)`, and nothing else. -/
theorem sums_agree (vet : Vector CInt tam) (nthreads : Nat) (v : CInt) :
    (Ex1a.Prints vet nthreads v <-> Ex1b.Prints vet nthreads v) ∧
      (Ex1a.Prints vet nthreads v <->
        v = (vet.toList.take (nthreads * (tam / nthreads))).sum) ∧
      (exists bound, (Ex1a.system vet nthreads).Ends
        (Ex1a.initial tam nthreads) bound fun s =>
          s.printed =
            some (vet.toList.take (nthreads * (tam / nthreads))).sum) ∧
      exists bound, (Ex1b.system vet nthreads).Ends
        (Ex1b.initial tam nthreads) bound fun s =>
          s.printed =
            some (vet.toList.take (nthreads * (tam / nthreads))).sum := by
  have ha := Ex1a.prints_iff vet nthreads v
  have hb := Ex1b.prints_iff vet nthreads v
  exact ⟨ha.trans hb.symm, ha, ⟨_, Ex1a.ends vet nthreads⟩,
    ⟨_, Ex1b.ends vet nthreads⟩⟩

/-!
## The vector that `main` fills
-/

theorem fill_getElem? {j : Nat} (h : j < tam) :
    (fill tam).toList[j]? = some (BitVec.ofNat 32 j) := by
  simp [fill, h]

theorem fill_sum_take {k : Nat} (h : k ≤ tam) :
    ((fill tam).toList.take k).sum = sumBelow k := by
  induction k with
  | zero => simp [sumBelow_zero]
  | succ k ih =>
      rw [List.take_add_one, fill_getElem? h, List.sum_append, sumBelow_succ,
        ih (by lia)]
      simp

theorem fill_sum (tam : Nat) : (fill tam).toList.sum = sumBelow tam := by
  have hall : (fill tam).toList.take tam = (fill tam).toList :=
    List.take_of_length_le (by simp)
  rw [← hall, fill_sum_take (Nat.le_refl tam)]

theorem visitedSum_fill (tam nthreads : Nat) :
    visitedSum (fill tam) nthreads =
      sumBelow (nthreads * (tam / nthreads)) :=
  fill_sum_take (Nat.mul_div_le tam nthreads)

/-!
## The sum of the whole vector

The elements from `nthreads * (tam / nthreads)` on belong to no thread.  Their
sum is never a multiple of `2 ^ 32`, so dropping them always shows.
-/

/-- Every run prints the sum of the whole vector exactly when the number of
threads divides its size. -/
theorem prints_whole_sum_iff {tam nthreads : Nat} (htam : 100 ≤ tam)
    (hmax : tam < 2 ^ 31) :
    (forall v, Ex1a.Prints (fill tam) nthreads v ->
        v = (fill tam).toList.sum) <->
      nthreads ∣ tam := by
  rw [fill_sum]
  constructor
  · intro h
    have hprints := (Ex1a.prints_iff (fill tam) nthreads _).mpr rfl
    have hsum := h _ hprints
    rw [visitedSum_fill] at hsum
    have hall := sumBelow_inj (Nat.mul_div_le tam nthreads) (by lia) hmax hsum
    exact ⟨tam / nthreads, hall.symm⟩
  · intro hdvd v hv
    rw [(Ex1a.prints_iff (fill tam) nthreads v).mp hv, visitedSum_fill,
      Nat.mul_div_cancel' hdvd]

theorem prints_whole_sum_hundred_four :
    exists v, Ex1a.Prints (fill 100) 4 v ∧ v = (fill 100).toList.sum := by
  have hprints := (Ex1a.prints_iff (fill 100) 4 _).mpr rfl
  have hwhole := (prints_whole_sum_iff (by decide) (by decide)).mpr
    (by decide : 4 ∣ 100)
  exact ⟨_, hprints, hwhole _ hprints⟩

/-- With three threads the last of 100 elements is dropped. -/
theorem drops_last_hundred_three :
    ¬ forall v, Ex1a.Prints (fill 100) 3 v -> v = (fill 100).toList.sum := by
  intro h
  have hprints := (Ex1a.prints_iff (fill 100) 3 _).mpr rfl
  have hsum := h _ hprints
  rw [visitedSum_fill, fill_sum, sumBelow_eq, sumBelow_eq] at hsum
  exact absurd hsum (by decide)

end Soma
end PThreads
end IPPD
