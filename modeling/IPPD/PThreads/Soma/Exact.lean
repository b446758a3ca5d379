import IPPD.PThreads.Soma.Ex1a
import IPPD.PThreads.Soma.Ex1b

/-!
# Changing the integers

The two programs only add the numbers they read.  A map of the numbers that
keeps zero and sums therefore carries every run on one vector to a run on the
mapped vector, step by step.  With the map from the exact integers to `int`,
the values of the program are the wrapped exact ones.
-/

namespace IPPD
namespace PThreads
namespace Soma

open Foundation

variable {int : Type u} {int' : Type v} [AddCommMonoid int]
variable [AddCommMonoid int'] {tam nthreads : Nat}

namespace Ex1a

section Definitions

variable (φ : int →+ int')

def SomaThread.map (t : SomaThread int) : SomaThread int' where
  dta := t.dta
  pc := t.pc
  i := t.i
  somaL := φ t.somaL
  loaded := φ t.loaded

def Shared.map (sh : Shared int) : Shared int' where
  acum := φ sh.acum
  m := sh.m

def State.map (s : State int nthreads) : State int' nthreads where
  main := s.main
  shared := s.shared.map φ
  threads := fun j => (s.threads j).map φ
  printed := s.printed.map φ

end Definitions

/-!
## The sum with a mutex
-/

theorem hasLeft_map (φ : int →+ int') (t : SomaThread int) :
    (t.map φ).hasLeft = t.hasLeft := rfl

theorem soma_map (φ : int →+ int') (vet : Vector int tam)
    (sh : Shared int) (t : SomaThread int) :
    soma (vet.map φ) (sh.map φ) (t.map φ) =
      (soma vet sh t).map fun r => (r.fst.map φ, r.snd.map φ) := by
  unfold soma
  cases hpc : t.pc with
  | loop =>
      simp only [SomaThread.map, hpc, Vector.getElem?_map]
      split_ifs with hlt
      · cases hx : vet[t.i]? with
        | none => rfl
        | some x => simp
      · rfl
  | lock =>
      simp only [SomaThread.map, Shared.map, hpc]
      split_ifs <;> rfl
  | store => simp [SomaThread.map, Shared.map, hpc]
  | load | unlock | left => simp [SomaThread.map, Shared.map, hpc]

theorem mainStep_map (φ : int →+ int') (s : State int nthreads) :
    mainStep (s.map φ) = (mainStep s).map (State.map φ) := by
  unfold mainStep
  cases hmain : s.main with
  | create i =>
      simp only [State.map, hmain]
      split_ifs <;> rfl
  | join i =>
      simp only [State.map, hmain, hasLeft_map]
      split_ifs <;> rfl
  | returned => simp [State.map, hmain]

theorem step_map (φ : int →+ int') (vet : Vector int tam)
    (s : State int nthreads) (a : Action nthreads) :
    step (vet.map φ) (s.map φ) a = (step vet s a).map (State.map φ) := by
  cases a with
  | main => exact mainStep_map φ s
  | soma j =>
      have hsoma := soma_map φ vet s.shared (s.threads j)
      dsimp only [step, State.map]
      rw [hsoma]
      cases hstarted : s.main.started j with
      | false => rfl
      | true =>
          cases hr : soma vet s.shared (s.threads j) with
          | none => rfl
          | some r => simp [State.map, map_update]

theorem reachable_map_iff (φ : int →+ int') (vet : Vector int tam)
    {u : State int' nthreads} :
    (system (vet.map φ) nthreads).Reachable u <->
      exists s, (system vet nthreads).Reachable s ∧ s.map φ = u := by
  have hinitial : (initial tam nthreads : State int nthreads).map φ =
      initial tam nthreads := by
    simp [initial, State.map, Shared.map, SomaThread.map, SomaThread.start]
  apply System.reachable_map_iff
  · intro u
    simp [system, hinitial, eq_comm]
  · exact step_map φ vet

theorem prints_map_iff (φ : int →+ int') (vet : Vector int tam)
    (nthreads : Nat) (v : int') :
    Prints (vet.map φ) nthreads v <->
      exists w, Prints vet nthreads w ∧ φ w = v :=
  System.exists_reachable_map_iff State.printed State.printed
    (fun _ => rfl) (reachable_map_iff φ vet) v

end Ex1a

namespace Ex1b

/-!
## The sum without shared data
-/

section Definitions

variable (φ : int →+ int')

def SomaThread.map (t : SomaThread int) : SomaThread int' where
  dta := t.dta
  pc := t.pc
  i := t.i
  somaL := t.somaL
  loaded := φ t.loaded

def State.map (s : State int nthreads) : State int' nthreads where
  main := s.main
  heap := s.heap.map φ
  threads := fun j => (s.threads j).map φ
  acum := φ s.acum
  aux := s.aux
  printed := s.printed.map φ

end Definitions

theorem hasLeft_map (φ : int →+ int') (t : SomaThread int) :
    (t.map φ).hasLeft = t.hasLeft := rfl

theorem soma_map (φ : int →+ int') (vet : Vector int tam) (a : Nat)
    (heap : Heap int) (t : SomaThread int) :
    soma (vet.map φ) a (heap.map φ) (t.map φ) =
      (soma vet a heap t).map fun r => (r.fst.map φ, r.snd.map φ) := by
  unfold soma
  cases hpc : t.pc with
  | malloc =>
      simp only [SomaThread.map, hpc, Heap.malloc_map]
      cases heap.malloc a <;> rfl
  | zero =>
      have hstore := heap.store_map φ t.somaL 0
      rw [map_zero] at hstore
      simp only [SomaThread.map, hpc, hstore]
      cases heap.store t.somaL 0 <;> rfl
  | loop =>
      simp only [SomaThread.map, hpc, Heap.load_map, Vector.getElem?_map]
      split_ifs with hlt
      · cases heap.load t.somaL with
        | none => rfl
        | some y =>
            cases vet[t.i]? with
            | none => rfl
            | some x => simp
      · rfl
  | store =>
      simp only [SomaThread.map, hpc, Heap.store_map]
      cases heap.store t.somaL t.loaded <;> rfl
  | left => simp [SomaThread.map, hpc]

theorem mainStep_map (φ : int →+ int') (s : State int nthreads) :
    mainStep (s.map φ) = (mainStep s).map (State.map φ) := by
  unfold mainStep
  cases hmain : s.main with
  | create i =>
      simp only [State.map, hmain]
      split_ifs
      · rfl
      · simp [State.map]
  | join i =>
      simp only [State.map, hmain, hasLeft_map]
      split_ifs <;> rfl
  | add i =>
      simp only [State.map, hmain, Heap.load_map]
      cases s.heap.load s.aux with
      | none => rfl
      | some v => simp [State.map]
  | free i =>
      simp only [State.map, hmain, Heap.free_map]
      cases s.heap.free s.aux <;> rfl
  | returned => simp [State.map, hmain]

theorem step_map (φ : int →+ int') (vet : Vector int tam)
    (s : State int nthreads) (a : Action nthreads) :
    step (vet.map φ) (s.map φ) a = (step vet s a).map (State.map φ) := by
  cases a with
  | main => exact mainStep_map φ s
  | soma j a =>
      have hsoma := soma_map φ vet a s.heap (s.threads j)
      dsimp only [step, State.map]
      rw [hsoma]
      cases hstarted : s.main.started j with
      | false => rfl
      | true =>
          cases hr : soma vet a s.heap (s.threads j) with
          | none => rfl
          | some r => simp [State.map, map_update]

theorem reachable_map_iff (φ : int →+ int') (vet : Vector int tam)
    {u : State int' nthreads} :
    (system (vet.map φ) nthreads).Reachable u <->
      exists s, (system vet nthreads).Reachable s ∧ s.map φ = u := by
  have hinitial : (initial tam nthreads : State int nthreads).map φ =
      initial tam nthreads := by
    simp [initial, State.map, SomaThread.map, SomaThread.start]
    rfl
  apply System.reachable_map_iff
  · intro u
    simp [system, hinitial, eq_comm]
  · exact step_map φ vet

theorem prints_map_iff (φ : int →+ int') (vet : Vector int tam)
    (nthreads : Nat) (v : int') :
    Prints (vet.map φ) nthreads v <->
      exists w, Prints vet nthreads w ∧ φ w = v :=
  System.exists_reachable_map_iff State.printed State.printed
    (fun _ => rfl) (reachable_map_iff φ vet) v

end Ex1b

end Soma
end PThreads
end IPPD
