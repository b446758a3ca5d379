import IPPD.Foundation.System
import IPPD.Foundation.Threads
import IPPD.PThreads.Soma.Split

/-!
# The sum with a mutex

In `ex1a.cpp` each thread adds up its segment in a local variable and then adds
the result to the shared `acum` inside a critical section.  `acum +=` is a load
and a store, and every access to shared data is a step of its own.
-/

namespace IPPD
namespace PThreads
namespace Soma
namespace Ex1a

open Foundation

/-!
## Threads
-/

inductive Pc where
  /-- In the `for` loop over the segment. -/
  | loop
  | lock
  /-- `acum +=`, before the load. -/
  | load
  /-- `acum +=`, before the store. -/
  | store
  | unlock
  | left
  deriving DecidableEq

/-- The local variables of `soma`. -/
structure SomaThread (int : Type u) where
  dta : VetorThread
  pc : Pc
  i : Nat
  somaL : int
  /-- What `acum +=` has loaded. -/
  loaded : int

structure Shared (int : Type u) where
  acum : int
  /-- The mutex is held. -/
  m : Bool

section Soma

variable {int : Type u} [AddCommMonoid int] {tam : Nat}

/-- One step of `soma`.  A read outside the vector is undefined. -/
def soma (vet : Vector int tam) (sh : Shared int) (t : SomaThread int) :
    Option (Shared int × SomaThread int) :=
  match t.pc with
  | Pc.loop =>
      if t.i < t.dta.end_ then
        match vet[t.i]? with
        | some x => some (sh, { t with i := t.i + 1, somaL := t.somaL + x })
        | none => none
      else some (sh, { t with pc := Pc.lock })
  | Pc.lock =>
      if sh.m then none
      else some ({ sh with m := true }, { t with pc := Pc.load })
  | Pc.load => some (sh, { t with loaded := sh.acum, pc := Pc.store })
  | Pc.store =>
      some ({ sh with acum := t.loaded + t.somaL }, { t with pc := Pc.unlock })
  | Pc.unlock => some ({ sh with m := false }, { t with pc := Pc.left })
  | Pc.left => none

end Soma

/-!
## The main thread
-/

inductive MainPc where
  | create (i : Nat)
  | join (i : Nat)
  | returned
  deriving DecidableEq

def MainPc.started : MainPc -> Nat -> Bool
  | create k, j => decide (j < k)
  | _, _ => true

structure State (int : Type u) (nthreads : Nat) where
  main : MainPc
  shared : Shared int
  threads : Fin nthreads -> SomaThread int
  /-- What `main` has printed. -/
  printed : Option int

variable {int : Type u} {nthreads : Nat}

def SomaThread.hasLeft (t : SomaThread int) : Bool := decide (t.pc = Pc.left)

/-- One step of `main`; a join blocks until its thread has left. -/
def mainStep (s : State int nthreads) : Option (State int nthreads) :=
  match s.main with
  | MainPc.create i =>
      if i < nthreads then some { s with main := MainPc.create (i + 1) }
      else some { s with main := MainPc.join 0 }
  | MainPc.join i =>
      if h : i < nthreads then
        if (s.threads ⟨i, h⟩).hasLeft then
          some { s with main := MainPc.join (i + 1) }
        else none
      else
        some
          { s with
            main := MainPc.returned
            printed := some s.shared.acum }
  | MainPc.returned => none

inductive Action (nthreads : Nat) where
  | main
  | soma (j : Fin nthreads)
  deriving DecidableEq

variable [AddCommMonoid int] {tam : Nat}

def step (vet : Vector int tam) (s : State int nthreads) :
    Action nthreads -> Option (State int nthreads)
  | Action.main => mainStep s
  | Action.soma j =>
      if s.main.started j then
        match soma vet s.shared (s.threads j) with
        | some (sh, t) =>
            some
              { s with
                shared := sh
                threads := Function.update s.threads j t }
        | none => none
      else none

/-- A thread when it starts `soma`. -/
def SomaThread.start (d : VetorThread) : SomaThread int where
  dta := d
  pc := Pc.loop
  i := d.begin_
  somaL := 0
  loaded := 0

def initial (tam nthreads : Nat) : State int nthreads where
  main := MainPc.create 0
  shared := { acum := 0, m := false }
  threads := fun j => SomaThread.start (dta tam nthreads j)
  printed := none

def system (vet : Vector int tam) (nthreads : Nat) :
    System (State int nthreads) (Action nthreads) where
  Init s := s = initial tam nthreads
  step := step vet

/-- Some run prints `v`. -/
def Prints (vet : Vector int tam) (nthreads : Nat) (v : int) : Prop :=
  exists s, (system vet nthreads).Reachable s ∧ s.printed = some v

/-!
## Command line
-/

def parseArgs : List String -> Except String Config :=
  checkArgs "Uso: acumula <tamanhoVetor> <numeroThreads>\n"
    "O tamanho do vetor deve ser maior ou igual a 100\n"
    "O numero de threads deve ser maior ou igual a 2\n"

/-!
## Inversion of the steps
-/

inductive Moves (vet : Vector int tam) (sh : Shared int)
    (t : SomaThread int) : Shared int -> SomaThread int -> Prop where
  | add {x : int} :
      t.pc = Pc.loop -> t.i < t.dta.end_ -> vet[t.i]? = some x ->
      Moves vet sh t sh { t with i := t.i + 1, somaL := t.somaL + x }
  | leaveLoop :
      t.pc = Pc.loop -> t.dta.end_ ≤ t.i ->
      Moves vet sh t sh { t with pc := Pc.lock }
  | lock :
      t.pc = Pc.lock -> sh.m = false ->
      Moves vet sh t { sh with m := true } { t with pc := Pc.load }
  | load :
      t.pc = Pc.load ->
      Moves vet sh t sh { t with loaded := sh.acum, pc := Pc.store }
  | store :
      t.pc = Pc.store ->
      Moves vet sh t { sh with acum := t.loaded + t.somaL }
        { t with pc := Pc.unlock }
  | unlock :
      t.pc = Pc.unlock ->
      Moves vet sh t { sh with m := false } { t with pc := Pc.left }

theorem moves_of_soma {vet : Vector int tam} {sh sh' : Shared int}
    {t t' : SomaThread int} (h : soma vet sh t = some (sh', t')) :
    Moves vet sh t sh' t' := by
  unfold soma at h
  split at h
  · rename_i hpc
    split at h
    · rename_i hlt
      split at h
      · rename_i x hx
        cases h
        exact Moves.add hpc hlt hx
      · cases h
    · rename_i hge
      cases h
      exact Moves.leaveLoop hpc (by lia)
  · rename_i hpc
    split at h
    · cases h
    · rename_i hm
      cases h
      exact Moves.lock hpc (eq_false_of_ne_true hm)
  · rename_i hpc
    cases h
    exact Moves.load hpc
  · rename_i hpc
    cases h
    exact Moves.store hpc
  · rename_i hpc
    cases h
    exact Moves.unlock hpc
  · cases h

inductive MainMoves (s : State int nthreads) : State int nthreads -> Prop where
  | create {i : Nat} :
      s.main = MainPc.create i -> i < nthreads ->
      MainMoves s { s with main := MainPc.create (i + 1) }
  | createDone {i : Nat} :
      s.main = MainPc.create i -> nthreads ≤ i ->
      MainMoves s { s with main := MainPc.join 0 }
  | join {i : Nat} (h : i < nthreads) :
      s.main = MainPc.join i -> (s.threads ⟨i, h⟩).pc = Pc.left ->
      MainMoves s { s with main := MainPc.join (i + 1) }
  | print {i : Nat} :
      s.main = MainPc.join i -> nthreads ≤ i ->
      MainMoves s
        { s with
          main := MainPc.returned
          printed := some s.shared.acum }

omit [AddCommMonoid int] in
theorem mainMoves_of_mainStep {s s' : State int nthreads}
    (h : mainStep s = some s') : MainMoves s s' := by
  unfold mainStep at h
  split at h
  · rename_i i hmain
    split at h
    · rename_i hi
      cases h
      exact MainMoves.create hmain hi
    · rename_i hi
      cases h
      exact MainMoves.createDone hmain (by lia)
  · rename_i i hmain
    split at h
    · rename_i hi
      split at h
      · rename_i hleft
        cases h
        exact MainMoves.join hi hmain (of_decide_eq_true hleft)
      · cases h
    · rename_i hi
      cases h
      exact MainMoves.print hmain (by lia)
  · cases h

inductive Steps (vet : Vector int tam) (s : State int nthreads) :
    State int nthreads -> Prop where
  | main {s' : State int nthreads} : MainMoves s s' -> Steps vet s s'
  | soma (j : Fin nthreads) {sh : Shared int} {t : SomaThread int} :
      s.main.started j = true -> Moves vet s.shared (s.threads j) sh t ->
      Steps vet s
        { s with
          shared := sh
          threads := Function.update s.threads j t }

theorem step_soma {vet : Vector int tam} {s s' : State int nthreads}
    {j : Fin nthreads} (h : step vet s (Action.soma j) = some s') :
    s.main.started j = true ∧
      exists sh t, Moves vet s.shared (s.threads j) sh t ∧
        s' =
          { s with
            shared := sh
            threads := Function.update s.threads j t } := by
  simp only [step] at h
  split at h
  · rename_i hstarted
    split at h
    · rename_i sh t hsoma
      cases h
      exact ⟨hstarted, sh, t, moves_of_soma hsoma, rfl⟩
    · cases h
  · cases h

theorem steps_of_step {vet : Vector int tam} {s s' : State int nthreads}
    {a : Action nthreads} (h : step vet s a = some s') : Steps vet s s' := by
  cases a with
  | main => exact Steps.main (mainMoves_of_mainStep h)
  | soma j =>
      rcases step_soma h with ⟨hstarted, sh, t, hmoves, hs'⟩
      subst hs'
      exact Steps.soma j hstarted hmoves

end Ex1a
end Soma
end PThreads
end IPPD
