import IPPD.Foundation.CInt
import IPPD.Foundation.System
import IPPD.Foundation.Threads

/-!
# The producer/consumer program

`ex2.cpp` starts producers running `prod` and consumers running `cons` on one
shared record.  Everything between `pthread_mutex_lock` and
`pthread_mutex_unlock` is one atomic step.  `pthread_cond_wait` ends the step
of a consumer that finds the queue empty: the consumer releases the mutex and
is blocked until it is woken, and its next step tests the queue again.

The state also records the history of the run: the values pushed and popped so
far and the number of calls of `pthread_cond_wait`.  No step reads it.
-/

namespace IPPD
namespace PThreads
namespace ProdCons

open Foundation

/-!
## The buffer

`queue<int>`: `front` and `pop` are undefined on an empty queue.
-/

abbrev Queue := List Int

namespace Queue

def push (b : Queue) (it : Int) : Queue := b ++ [it]

def size (b : Queue) : Nat := b.length

def front? (b : Queue) : Option Int := b.head?

def pop? (b : Queue) : Option Queue := b.tail?

end Queue

/-!
## Local and shared data
-/

/-- The record every thread receives: buffer and the two shared counters.  The
mutex is the atomicity of a step, and the waiters of the condition variable are
the consumers at `ConsPc.blocked`. -/
structure Thread where
  b : Queue
  nptotal : Int
  nctotal : Int
  deriving DecidableEq

inductive ProdPc where
  /-- Inside `while(fim == false)`, about to take the mutex. -/
  | loop
  /-- The loop test failed: `fim` was set. -/
  | left
  deriving DecidableEq

structure ProdThread where
  cont : Int
  pc : ProdPc
  deriving DecidableEq

namespace ProdThread

def hasLeft (p : ProdThread) : Bool := decide (p.pc = ProdPc.left)

end ProdThread

inductive ConsPc where
  /-- At the top of the loop, about to take the mutex. -/
  | lock
  /-- Inside `pthread_cond_wait`, not woken. -/
  | blocked
  /-- Inside `pthread_cond_wait`, woken and about to retake the mutex. -/
  | woken
  | left
  deriving DecidableEq

structure ConsThread where
  cont : Int
  pc : ConsPc
  deriving DecidableEq

namespace ConsThread

def hasLeft (c : ConsThread) : Bool := decide (c.pc = ConsPc.left)

def isBlocked (c : ConsThread) : Bool := decide (c.pc = ConsPc.blocked)

/-- Neither finished nor blocked in `pthread_cond_wait`. -/
def isActive (c : ConsThread) : Bool :=
  decide (c.pc = ConsPc.lock ∨ c.pc = ConsPc.woken)

end ConsThread

/-!
## The critical sections
-/

structure ProdResult where
  shared : Thread
  /-- `pthread_cond_signal` was called. -/
  signal : Bool
  fim : Bool

/-- The body of `prod` between lock and unlock. -/
def prodSection (shared : Thread) (it : Int) : ProdResult :=
  let b := shared.b.push it
  let nptotal := shared.nptotal - 1
  { shared := { shared with b := b, nptotal := nptotal }
    signal := b.size == 1
    fim := decide (nptotal ≤ 0) }

inductive ConsResult where
  /-- `size() == 0`: the consumer calls `pthread_cond_wait`. -/
  | wait
  | pop (shared : Thread) (it : Int) (fim : Bool)
  /-- `front` or `pop` was called on an empty queue. -/
  | undefined
  deriving DecidableEq

/-- The body of `cons` from a test of `size()` to the next release of the
mutex. -/
def consSection (shared : Thread) : ConsResult :=
  if shared.b.size = 0 then ConsResult.wait
  else
    match shared.b.front?, shared.b.pop? with
    | some it, some b =>
        let nctotal := shared.nctotal - 1
        ConsResult.pop { shared with b := b, nctotal := nctotal } it
          (decide (nctotal ≤ 0))
    | _, _ => ConsResult.undefined

/-- `pthread_cond_signal`: the scheduler names the waiter it wakes, and may
name nobody only when nobody is blocked. -/
def condSignal (conss : Fin ncons -> ConsThread) (woken : Option (Fin ncons)) :
    Option (Fin ncons -> ConsThread) :=
  match woken with
  | some j =>
      if (conss j).isBlocked then
        some (Function.update conss j { conss j with pc := ConsPc.woken })
      else none
  | none =>
      if forall j, (conss j).isBlocked = false then some conss else none

/-!
## The main thread

`main` creates the producers, creates the consumers, joins the producers and
joins the consumers, each in index order.
-/

inductive MainPc where
  | createProd (i : Nat)
  | createCons (i : Nat)
  | joinProd (i : Nat)
  | joinCons (i : Nat)
  | returned
  deriving DecidableEq

def MainPc.startedProd : MainPc -> Nat -> Bool
  | createProd k, i => decide (i < k)
  | _, _ => true

def MainPc.startedCons : MainPc -> Nat -> Bool
  | createProd _, _ => false
  | createCons k, j => decide (j < k)
  | _, _ => true

structure State (nprod ncons : Nat) where
  main : MainPc
  shared : Thread
  prods : Fin nprod -> ProdThread
  conss : Fin ncons -> ConsThread
  /-- Values pushed so far. -/
  pushed : List Int
  /-- Values popped so far. -/
  popped : List Int
  /-- Calls of `pthread_cond_wait` so far. -/
  waits : Nat

variable {nprod ncons : Nat}

/-- One step of `main`; a join blocks until its thread has left. -/
def mainStep (s : State nprod ncons) : Option MainPc :=
  match s.main with
  | MainPc.createProd i =>
      if i < nprod then some (MainPc.createProd (i + 1))
      else some (MainPc.createCons 0)
  | MainPc.createCons i =>
      if i < ncons then some (MainPc.createCons (i + 1))
      else some (MainPc.joinProd 0)
  | MainPc.joinProd i =>
      if h : i < nprod then
        if (s.prods ⟨i, h⟩).hasLeft then some (MainPc.joinProd (i + 1))
        else none
      else some (MainPc.joinCons 0)
  | MainPc.joinCons i =>
      if h : i < ncons then
        if (s.conss ⟨i, h⟩).hasLeft then some (MainPc.joinCons (i + 1))
        else none
      else some MainPc.returned
  | MainPc.returned => none

/-!
## Steps
-/

inductive Action (nprod ncons : Nat) where
  | main
  /-- A producer runs its section with the value `rand()` returned; `woken` is
  the consumer its signal wakes. -/
  | prod (i : Fin nprod) (it : Int) (woken : Option (Fin ncons))
  | cons (j : Fin ncons)
  /-- A blocked consumer wakes without a signal. -/
  | spurious (j : Fin ncons)
  deriving DecidableEq

def afterPush (s : State nprod ncons) (i : Fin nprod) (it : Int)
    (r : ProdResult) (conss : Fin ncons -> ConsThread) : State nprod ncons :=
  { s with
    shared := r.shared
    prods := Function.update s.prods i
      { cont := (s.prods i).cont + 1
        pc := if r.fim then ProdPc.left else ProdPc.loop }
    conss := conss
    pushed := s.pushed ++ [it] }

def afterWait (s : State nprod ncons) (j : Fin ncons) : State nprod ncons :=
  { s with
    conss := Function.update s.conss j
      { s.conss j with pc := ConsPc.blocked }
    waits := s.waits + 1 }

def afterPop (s : State nprod ncons) (j : Fin ncons) (shared : Thread)
    (it : Int) (fim : Bool) : State nprod ncons :=
  { s with
    shared := shared
    conss := Function.update s.conss j
      { cont := (s.conss j).cont + 1
        pc := if fim then ConsPc.left else ConsPc.lock }
    popped := s.popped ++ [it] }

def afterSpurious (s : State nprod ncons) (j : Fin ncons) :
    State nprod ncons :=
  { s with
    conss := Function.update s.conss j
      { s.conss j with pc := ConsPc.woken } }

/-- One atomic step; `spurious` says whether spurious wake-ups can happen. -/
def step (spurious : Bool) (s : State nprod ncons) :
    Action nprod ncons -> Option (State nprod ncons)
  | Action.main =>
      match mainStep s with
      | some pc => some { s with main := pc }
      | none => none
  | Action.prod i it woken =>
      if s.main.startedProd i ∧ (s.prods i).pc = ProdPc.loop then
        let r := prodSection s.shared it
        if r.signal then
          match condSignal s.conss woken with
          | some conss => some (afterPush s i it r conss)
          | none => none
        else if woken = none then some (afterPush s i it r s.conss)
        else none
      else none
  | Action.cons j =>
      if s.main.startedCons j ∧ (s.conss j).isActive then
        match consSection s.shared with
        | ConsResult.wait => some (afterWait s j)
        | ConsResult.pop shared it fim => some (afterPop s j shared it fim)
        | ConsResult.undefined => none
      else none
  | Action.spurious j =>
      if spurious ∧ (s.conss j).isBlocked then some (afterSpurious s j)
      else none

def initial (N : Int) (nprod ncons : Nat) : State nprod ncons where
  main := MainPc.createProd 0
  shared := { b := [], nptotal := N, nctotal := N }
  prods := fun _ => { cont := 0, pc := ProdPc.loop }
  conss := fun _ => { cont := 0, pc := ConsPc.lock }
  pushed := []
  popped := []
  waits := 0

def system (spurious : Bool) (N : Int) (nprod ncons : Nat) :
    System (State nprod ncons) (Action nprod ncons) where
  Init s := s = initial N nprod ncons
  step := step spurious

/-!
## Command line
-/

/-- What `main` accepts. -/
structure Config where
  N : { m : Nat // 100 ≤ m }
  nprod : { m : Nat // 2 ≤ m }
  ncons : { m : Nat // 2 ≤ m }

/-- The argument checks of `main`.  The number of consumers is read from the
same argument as the number of producers. -/
def parseArgs : List String -> Except String Config
  | [_, arg1, arg2, _] => do
      let N ← atoiFrom 100
        "O tamanho do vetor precisa ser maior ou igual a 100\n" arg1
      let nprod ← atoiFrom 2
        "O número de produtores precisa ser maior ou igual a 2\n" arg2
      let ncons ← atoiFrom 2
        "O número de produtores precisa ser maior ou igual a 2\n" arg2
      return { N := N, nprod := nprod, ncons := ncons }
  | _ =>
      Except.error
        "Parâmetros -> <numElementosVetor> <numProd> <numCons>\n"

/-- Every accepted command line starts as many consumers as producers. -/
theorem parseArgs_ncons_eq {argv : List String} {cfg : Config}
    (h : parseArgs argv = Except.ok cfg) : cfg.ncons = cfg.nprod := by
  unfold parseArgs at h
  split at h
  · rcases checks_eq_ok_iff.mp h with ⟨N, _, h⟩
    rcases checks_eq_ok_iff.mp h with ⟨nprod, hprod, h⟩
    rcases checks_eq_ok_iff.mp h with ⟨ncons, hcons, h⟩
    have hp := atoiFrom_eq_ok_iff.mp hprod
    have hc := atoiFrom_eq_ok_iff.mp hcons
    cases h
    exact Subtype.ext (Int.ofNat.inj (hc.symm.trans hp))
  · cases h

end ProdCons
end PThreads
end IPPD
