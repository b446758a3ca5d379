import IPPD.Foundation.System
import IPPD.Foundation.Threads

/-!
# The semaphore program

`aula6_semaforo.cpp` is a bounded buffer written with two counting semaphores
and a mutex.  Any number of threads run `Produtora` and `Consumidora`.  Every
statement is one atomic step; `p` waits at zero, `lock` waits while the mutex
is held, and the flag `notEnd` may turn false at any time.
-/

namespace IPPD
namespace PThreads
namespace Semaforo

open Foundation

/-!
## The buffer

The program leaves `insereElem` and `retiraElem` to the reader.  They are
parameters here: inserting adds one element as long as the array is not full,
and removing takes one away as long as it is not empty.
-/

structure Buffer (TAM : Nat) (buff : Type u) where
  empty : buff
  /-- Number of elements in the buffer. -/
  nelem : buff -> Nat
  insereElem : buff -> buff
  retiraElem : buff -> buff
  nelem_empty : nelem empty = 0
  nelem_insereElem : forall b, nelem b < TAM ->
    nelem (insereElem b) = nelem b + 1
  nelem_retiraElem : forall b, 0 < nelem b ->
    nelem (retiraElem b) + 1 = nelem b

/-- An array filled from the left, for replaying runs. -/
def arrayBuffer (TAM : Nat) : Buffer TAM (List Int) where
  empty := []
  nelem := List.length
  insereElem b := b ++ [0]
  retiraElem b := b.tail
  nelem_empty := rfl
  nelem_insereElem b _ := by simp
  nelem_retiraElem b h := by
    rw [List.length_tail]
    lia

/-!
## Shared variables
-/

structure Shared (buff : Type u) where
  buff : buff
  nbelem : Int
  /-- The mutex is held. -/
  m : Bool
  s : Nat
  s1 : Nat
  notEnd : Bool

/-- `p` on a counting semaphore: waits at zero. -/
def semP : Nat -> Option Nat
  | 0 => none
  | n + 1 => some n

/-- `v` on a counting semaphore. -/
def semV (n : Nat) : Nat := n + 1

/-!
## The two kinds of thread

Both run the same seven statements and differ only in four of them.
-/

inductive Pc where
  /-- At the test `while( notEnd )`. -/
  | test
  | p
  | lock
  /-- At `insereElem(buff)` or `retiraElem(buff)`. -/
  | elem
  /-- At `++nbelem` or `--nbelem`. -/
  | count
  | unlock
  | v
  /-- The loop has ended. -/
  | fim
  deriving DecidableEq

structure Ut (buff : Type u) where
  p : Shared buff -> Option (Shared buff)
  elem : Shared buff -> Shared buff
  count : Shared buff -> Shared buff
  v : Shared buff -> Shared buff

/-- One statement of a thread: the new shared variables and program point. -/
def Ut.step {buff : Type u} (ut : Ut buff) (sh : Shared buff) :
    Pc -> Option (Shared buff × Pc)
  | Pc.test => some (sh, if sh.notEnd then Pc.p else Pc.fim)
  | Pc.p =>
      match ut.p sh with
      | some sh' => some (sh', Pc.lock)
      | none => none
  | Pc.lock => if sh.m then none else some ({ sh with m := true }, Pc.elem)
  | Pc.elem => some (ut.elem sh, Pc.count)
  | Pc.count => some (ut.count sh, Pc.unlock)
  | Pc.unlock => some ({ sh with m := false }, Pc.v)
  | Pc.v => some (ut.v sh, Pc.test)
  | Pc.fim => none

section Program

variable {TAM : Nat} {buff : Type u} (B : Buffer TAM buff)

def Produtora : Ut buff where
  p sh :=
    match semP sh.s1 with
    | some s1 => some { sh with s1 := s1 }
    | none => none
  elem sh := { sh with buff := B.insereElem sh.buff }
  count sh := { sh with nbelem := sh.nbelem + 1 }
  v sh := { sh with s := semV sh.s }

def Consumidora : Ut buff where
  p sh :=
    match semP sh.s with
    | some s => some { sh with s := s }
    | none => none
  elem sh := { sh with buff := B.retiraElem sh.buff }
  count sh := { sh with nbelem := sh.nbelem - 1 }
  v sh := { sh with s1 := semV sh.s1 }

/-!
## The program
-/

structure State (buff : Type u) (nprod ncons : Nat) where
  shared : Shared buff
  prods : Fin nprod -> Pc
  conss : Fin ncons -> Pc

inductive Action (nprod ncons : Nat) where
  | prod (i : Fin nprod)
  | cons (j : Fin ncons)
  /-- The environment sets `notEnd` to false. -/
  | encerra

variable {nprod ncons : Nat}

def step (st : State buff nprod ncons) :
    Action nprod ncons -> Option (State buff nprod ncons)
  | Action.prod i =>
      match (Produtora B).step st.shared (st.prods i) with
      | some (sh, pc) =>
          some
            { st with
              shared := sh
              prods := Function.update st.prods i pc }
      | none => none
  | Action.cons j =>
      match (Consumidora B).step st.shared (st.conss j) with
      | some (sh, pc) =>
          some
            { st with
              shared := sh
              conss := Function.update st.conss j pc }
      | none => none
  | Action.encerra =>
      some { st with shared := { st.shared with notEnd := false } }

/-- The declarations `nbelem`, `m`, `s(0)` and `s1(TAM)`. -/
def initial (nprod ncons : Nat) (notEnd : Bool) : State buff nprod ncons where
  shared :=
    { buff := B.empty
      nbelem := 0
      m := false
      s := 0
      s1 := TAM
      notEnd := notEnd }
  prods := fun _ => Pc.test
  conss := fun _ => Pc.test

def system (nprod ncons : Nat) :
    System (State buff nprod ncons) (Action nprod ncons) where
  Init st := exists notEnd, st = initial B nprod ncons notEnd
  step := step B

end Program

end Semaforo
end PThreads
end IPPD
