import IPPD.Foundation.CInt
import IPPD.Foundation.Segments

/-!
# Splitting the vector

`ex1a.cpp` and `ex1b.cpp` add up the elements of a vector with several threads.
Both read the size of the vector and the number of threads from the command
line, fill the vector, and hand each thread the bounds of its segment.
-/

namespace IPPD
namespace PThreads
namespace Soma

open Foundation

/-!
## Command line
-/

/-- What `main` accepts. -/
structure Config where
  tam : { m : Nat // 100 ≤ m }
  nthreads : { m : Nat // 2 ≤ m }

/-- The argument checks of both programs, which differ in their messages. -/
def checkArgs (uso tamPequeno poucosThreads : String) :
    List String -> Except String Config
  | [_, arg1, arg2] => do
      let tam ← atoiFrom 100 tamPequeno arg1
      let nthreads ← atoiFrom 2 poucosThreads arg2
      return { tam := tam, nthreads := nthreads }
  | _ => Except.error uso

theorem checkArgs_eq_ok_iff {uso tamPequeno poucosThreads : String}
    {argv : List String} {cfg : Config} :
    checkArgs uso tamPequeno poucosThreads argv = Except.ok cfg <->
      exists prog arg1 arg2, argv = [prog, arg1, arg2] ∧
        (atoi arg1).toInt = cfg.tam.val ∧
          (atoi arg2).toInt = cfg.nthreads.val := by
  unfold checkArgs
  constructor
  · intro h
    split at h
    · rename_i prog arg1 arg2
      rcases checks_eq_ok_iff.mp h with ⟨tam, htam, h⟩
      rcases checks_eq_ok_iff.mp h with ⟨nthreads, hnthreads, h⟩
      cases h
      exact ⟨prog, arg1, arg2, rfl, atoiFrom_eq_ok_iff.mp htam,
        atoiFrom_eq_ok_iff.mp hnthreads⟩
    · cases h
  · intro h
    rcases h with ⟨prog, arg1, arg2, hargv, htam, hnthreads⟩
    subst hargv
    exact checks_eq_ok_iff.mpr
      ⟨cfg.tam, atoiFrom_eq_ok_iff.mpr htam,
        checks_eq_ok_iff.mpr
          ⟨cfg.nthreads, atoiFrom_eq_ok_iff.mpr hnthreads, rfl⟩⟩

/-!
## Segments
-/

/-- The record a thread receives; the vector is a parameter of the programs.
The field `s` of `ex1b.cpp` is never used. -/
structure VetorThread where
  begin_ : Nat
  end_ : Nat

/-- The bounds `main` computes for thread `i`.  They stay within the vector, so
the `int` arithmetic does not wrap. -/
def dta (tam nthreads i : Nat) : VetorThread where
  begin_ := i * (tam / nthreads)
  end_ := (i + 1) * (tam / nthreads)

theorem begin_le_end (tam nthreads i : Nat) :
    (dta tam nthreads i).begin_ ≤ (dta tam nthreads i).end_ :=
  Nat.mul_le_mul_right _ (Nat.le_succ i)

theorem end_le_tam {tam nthreads i : Nat} (h : i < nthreads) :
    (dta tam nthreads i).end_ ≤ tam :=
  calc
    (i + 1) * (tam / nthreads) ≤ nthreads * (tam / nthreads) :=
      Nat.mul_le_mul_right _ h
    _ ≤ tam := Nat.mul_div_le tam nthreads

section Values

variable {int : Type u} {tam : Nat}

theorem exists_element (vet : Vector int tam) {nthreads j i : Nat}
    (hj : j < nthreads) (hi : i < (dta tam nthreads j).end_) :
    exists x, vet[i]? = some x := by
  have hle : (dta tam nthreads j).end_ ≤ tam := end_le_tam hj
  have hlt : i < tam := by lia
  exact ⟨vet[i], by simp [hlt]⟩

variable [AddCommMonoid int]

/-- The sum of the elements between the bounds of thread `j`. -/
def threadSum (vet : Vector int tam) (nthreads j : Nat) : int :=
  segmentSum vet.toList (dta tam nthreads j).begin_ (dta tam nthreads j).end_

/-- The sum of the elements that belong to the first `k` threads. -/
def visitedBy (vet : Vector int tam) (nthreads k : Nat) : int :=
  (vet.toList.take (k * (tam / nthreads))).sum

/-- The sum of the elements that belong to some thread. -/
def visitedSum (vet : Vector int tam) (nthreads : Nat) : int :=
  visitedBy vet nthreads nthreads

theorem visitedBy_zero (vet : Vector int tam) (nthreads : Nat) :
    visitedBy vet nthreads 0 = 0 := by
  simp [visitedBy]

theorem visitedBy_succ (vet : Vector int tam) (nthreads k : Nat) :
    visitedBy vet nthreads (k + 1) =
      visitedBy vet nthreads k + threadSum vet nthreads k :=
  (sum_take_add_segmentSum vet.toList (begin_le_end tam nthreads k)).symm

theorem sum_threadSum (vet : Vector int tam) (nthreads : Nat) :
    ∑ j : Fin nthreads, threadSum vet nthreads j = visitedSum vet nthreads :=
  sum_segments vet.toList (tam / nthreads) nthreads

end Values

/-- `for(i = 0; i < tam; i++) vet[i] = i;` -/
def fill (tam : Nat) : Vector CInt tam :=
  Vector.ofFn fun j => BitVec.ofNat 32 j

end Soma
end PThreads
end IPPD
