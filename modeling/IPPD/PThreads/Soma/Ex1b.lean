import IPPD.Foundation.Ownership
import IPPD.Foundation.System
import IPPD.Foundation.Threads
import IPPD.PThreads.Soma.Split

/-!
# The sum without shared data

In `ex1b.cpp` each thread allocates a cell, adds up its segment there and
returns the address.  `main` joins the threads in index order, adds the value of
each returned cell to its local `acum` and frees the cell.  Nothing but the
heap is shared; every access to it is a step of its own.
-/

namespace IPPD
namespace PThreads
namespace Soma
namespace Ex1b

open Foundation

/-!
## Threads
-/

inductive Pc where
  /-- About to call `malloc`. -/
  | malloc
  /-- `*somaL = 0` -/
  | zero
  /-- In the `for` loop, before the loads of `*somaL += in->v[i]`. -/
  | loop
  /-- `*somaL += in->v[i]`, before the store. -/
  | store
  /-- The thread has returned `somaL`. -/
  | left
  deriving DecidableEq

/-- The local variables of `soma`. -/
structure SomaThread (int : Type u) where
  dta : VetorThread
  pc : Pc
  i : Nat
  /-- An address. -/
  somaL : Nat
  /-- The value that `*somaL +=` is about to store. -/
  loaded : int

section Soma

variable {int : Type u} [AddCommMonoid int] {tam : Nat}

/-- One step of `soma`; `a` is the address that `malloc` returns if it is
called. -/
def soma (vet : Vector int tam) (a : Nat) (heap : Heap int)
    (t : SomaThread int) : Option (Heap int × SomaThread int) :=
  match t.pc with
  | Pc.malloc =>
      match heap.malloc a with
      | some heap => some (heap, { t with somaL := a, pc := Pc.zero })
      | none => none
  | Pc.zero =>
      match heap.store t.somaL 0 with
      | some heap => some (heap, { t with pc := Pc.loop })
      | none => none
  | Pc.loop =>
      if t.i < t.dta.end_ then
        match heap.load t.somaL, vet[t.i]? with
        | some y, some x =>
            some (heap, { t with loaded := y + x, pc := Pc.store })
        | _, _ => none
      else some (heap, { t with pc := Pc.left })
  | Pc.store =>
      match heap.store t.somaL t.loaded with
      | some heap => some (heap, { t with i := t.i + 1, pc := Pc.loop })
      | none => none
  | Pc.left => none

end Soma

/-!
## The main thread
-/

inductive MainPc where
  | create (i : Nat)
  | join (i : Nat)
  /-- `acum += *aux` -/
  | add (i : Nat)
  /-- `free(aux)` -/
  | free (i : Nat)
  | returned
  deriving DecidableEq

def MainPc.started : MainPc -> Nat -> Bool
  | create k, j => decide (j < k)
  | _, _ => true

structure State (int : Type u) (nthreads : Nat) where
  main : MainPc
  heap : Heap int
  threads : Fin nthreads -> SomaThread int
  acum : int
  /-- An address. -/
  aux : Nat
  /-- What `main` has printed. -/
  printed : Option int

section Main

variable {int : Type u} [AddCommMonoid int] {nthreads : Nat}

def SomaThread.hasLeft (t : SomaThread int) : Bool := decide (t.pc = Pc.left)

/-- One step of `main`; a join blocks until its thread has left. -/
def mainStep (s : State int nthreads) : Option (State int nthreads) :=
  match s.main with
  | MainPc.create i =>
      if i < nthreads then some { s with main := MainPc.create (i + 1) }
      else some { s with main := MainPc.join 0, acum := 0 }
  | MainPc.join i =>
      if h : i < nthreads then
        if (s.threads ⟨i, h⟩).hasLeft then
          some
            { s with
              main := MainPc.add i
              aux := (s.threads ⟨i, h⟩).somaL }
        else none
      else some { s with main := MainPc.returned, printed := some s.acum }
  | MainPc.add i =>
      match s.heap.load s.aux with
      | some v => some { s with main := MainPc.free i, acum := s.acum + v }
      | none => none
  | MainPc.free i =>
      match s.heap.free s.aux with
      | some heap => some { s with main := MainPc.join (i + 1), heap := heap }
      | none => none
  | MainPc.returned => none

inductive Action (nthreads : Nat) where
  | main
  | soma (j : Fin nthreads) (a : Nat)
  deriving DecidableEq

def step {tam : Nat} (vet : Vector int tam) (s : State int nthreads) :
    Action nthreads -> Option (State int nthreads)
  | Action.main => mainStep s
  | Action.soma j a =>
      if s.main.started j then
        match soma vet a s.heap (s.threads j) with
        | some (heap, t) =>
            some
              { s with
                heap := heap
                threads := Function.update s.threads j t }
        | none => none
      else none

/-- A thread when it starts `soma`. -/
def SomaThread.start (d : VetorThread) : SomaThread int where
  dta := d
  pc := Pc.malloc
  i := d.begin_
  somaL := 0
  loaded := 0

def initial (tam nthreads : Nat) : State int nthreads where
  main := MainPc.create 0
  heap := fun _ => none
  threads := fun j => SomaThread.start (dta tam nthreads j)
  acum := 0
  aux := 0
  printed := none

def system {tam : Nat} (vet : Vector int tam) (nthreads : Nat) :
    System (State int nthreads) (Action nthreads) where
  Init s := s = initial tam nthreads
  step := step vet

/-- Some run prints `v`. -/
def Prints {tam : Nat} (vet : Vector int tam) (nthreads : Nat)
    (v : int) : Prop :=
  exists s, (system vet nthreads).Reachable s ∧ s.printed = some v

end Main

/-!
## Command line
-/

def parseArgs : List String -> Except String Config :=
  checkArgs
    "Falta de parâmetros ou excedente, esses são: <tamanhoVetor> <numeroThreads\n"
    "O tamanho do vetor precisa ser maior ou igual a 100"
    "O número de threads necessita ser maior ou igual a 2"

/-!
## Inversion of the steps
-/

section Inversion

variable {int : Type u} [AddCommMonoid int] {tam nthreads : Nat}

inductive Moves (vet : Vector int tam) (heap : Heap int)
    (t : SomaThread int) : Heap int -> SomaThread int -> Prop where
  | malloc {a : Nat} {heap' : Heap int} :
      t.pc = Pc.malloc -> heap.malloc a = some heap' ->
      Moves vet heap t heap' { t with somaL := a, pc := Pc.zero }
  | zero {heap' : Heap int} :
      t.pc = Pc.zero -> heap.store t.somaL 0 = some heap' ->
      Moves vet heap t heap' { t with pc := Pc.loop }
  | load {x y : int} :
      t.pc = Pc.loop -> t.i < t.dta.end_ -> heap.load t.somaL = some y ->
      vet[t.i]? = some x ->
      Moves vet heap t heap { t with loaded := y + x, pc := Pc.store }
  | leave :
      t.pc = Pc.loop -> t.dta.end_ ≤ t.i ->
      Moves vet heap t heap { t with pc := Pc.left }
  | store {heap' : Heap int} :
      t.pc = Pc.store -> heap.store t.somaL t.loaded = some heap' ->
      Moves vet heap t heap' { t with i := t.i + 1, pc := Pc.loop }

theorem moves_of_soma {vet : Vector int tam} {a : Nat} {heap heap' : Heap int}
    {t t' : SomaThread int} (h : soma vet a heap t = some (heap', t')) :
    Moves vet heap t heap' t' := by
  unfold soma at h
  split at h
  · rename_i hpc
    split at h
    · rename_i hmalloc
      cases h
      exact Moves.malloc hpc hmalloc
    · cases h
  · rename_i hpc
    split at h
    · rename_i hstore
      cases h
      exact Moves.zero hpc hstore
    · cases h
  · rename_i hpc
    split at h
    · rename_i hlt
      split at h
      · rename_i y x hload hx
        cases h
        exact Moves.load hpc hlt hload hx
      · cases h
    · rename_i hge
      cases h
      exact Moves.leave hpc (by lia)
  · rename_i hpc
    split at h
    · rename_i hstore
      cases h
      exact Moves.store hpc hstore
    · cases h
  · cases h

inductive MainMoves (s : State int nthreads) : State int nthreads -> Prop where
  | create {i : Nat} :
      s.main = MainPc.create i -> i < nthreads ->
      MainMoves s { s with main := MainPc.create (i + 1) }
  | createDone {i : Nat} :
      s.main = MainPc.create i -> nthreads ≤ i ->
      MainMoves s { s with main := MainPc.join 0, acum := 0 }
  | join {i : Nat} (h : i < nthreads) :
      s.main = MainPc.join i -> (s.threads ⟨i, h⟩).pc = Pc.left ->
      MainMoves s
        { s with
          main := MainPc.add i
          aux := (s.threads ⟨i, h⟩).somaL }
  | print {i : Nat} :
      s.main = MainPc.join i -> nthreads ≤ i ->
      MainMoves s { s with main := MainPc.returned, printed := some s.acum }
  | add {i : Nat} {v : int} :
      s.main = MainPc.add i -> s.heap.load s.aux = some v ->
      MainMoves s { s with main := MainPc.free i, acum := s.acum + v }
  | free {i : Nat} {heap : Heap int} :
      s.main = MainPc.free i -> s.heap.free s.aux = some heap ->
      MainMoves s { s with main := MainPc.join (i + 1), heap := heap }

theorem mainMoves_of_mainStep {s s' : State int nthreads}
    (h : mainStep s = some s') : MainMoves s s' := by
  unfold mainStep at h
  split at h
  · rename_i i hmain
    split at h
    · rename_i hi
      cases h
      exact MainMoves.create hmain hi
    · rename_i hi
      cases h
      exact MainMoves.createDone hmain (by lia)
  · rename_i i hmain
    split at h
    · rename_i hi
      split at h
      · rename_i hleft
        cases h
        exact MainMoves.join hi hmain (of_decide_eq_true hleft)
      · cases h
    · rename_i hi
      cases h
      exact MainMoves.print hmain (by lia)
  · rename_i i hmain
    split at h
    · rename_i v hload
      cases h
      exact MainMoves.add hmain hload
    · cases h
  · rename_i i hmain
    split at h
    · rename_i heap hfree
      cases h
      exact MainMoves.free hmain hfree
    · cases h
  · cases h

inductive Steps (vet : Vector int tam) (s : State int nthreads) :
    State int nthreads -> Prop where
  | main {s' : State int nthreads} : MainMoves s s' -> Steps vet s s'
  | soma (j : Fin nthreads) {heap : Heap int} {t : SomaThread int} :
      s.main.started j = true -> Moves vet s.heap (s.threads j) heap t ->
      Steps vet s
        { s with
          heap := heap
          threads := Function.update s.threads j t }

theorem step_soma {vet : Vector int tam} {s s' : State int nthreads}
    {j : Fin nthreads} {a : Nat} (h : step vet s (Action.soma j a) = some s') :
    s.main.started j = true ∧
      exists heap t, Moves vet s.heap (s.threads j) heap t ∧
        s' =
          { s with
            heap := heap
            threads := Function.update s.threads j t } := by
  simp only [step] at h
  split at h
  · rename_i hstarted
    split at h
    · rename_i heap t hsoma
      cases h
      exact ⟨hstarted, heap, t, moves_of_soma hsoma, rfl⟩
    · cases h
  · cases h

theorem steps_of_step {vet : Vector int tam} {s s' : State int nthreads}
    {a : Action nthreads} (h : step vet s a = some s') : Steps vet s s' := by
  cases a with
  | main => exact Steps.main (mainMoves_of_mainStep h)
  | soma j a =>
      rcases step_soma h with ⟨hstarted, heap, t, hmoves, hs'⟩
      subst hs'
      exact Steps.soma j hstarted hmoves

end Inversion

end Ex1b
end Soma
end PThreads
end IPPD
