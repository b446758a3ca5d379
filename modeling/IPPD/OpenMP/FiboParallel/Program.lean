import IPPD.Foundation.CInt
import IPPD.Foundation.TaskPool
import IPPD.Fibonacci.Recursive

/-!
# Fibonacci with tasks

In `fiboParallel.c` an invocation of `fiboParalelo` creates one task for each
of its two recursive calls.  The tasks share `r1` and `r2` of the invocation
and write the value of their call there.
-/

namespace IPPD
namespace OpenMP
namespace FiboParallel

open Foundation
open Foundation.TaskPool (Next Advances)

/-!
## Invocations
-/

inductive Pc where
  /-- At the test `n < 2`. -/
  | start
  /-- At the task construct for `r1`. -/
  | task1
  /-- At the task construct for `r2`. -/
  | task2
  | taskwait
  /-- At `return r1+r2`. -/
  | add
  | returned (v : CInt)
  deriving DecidableEq

/-- The variable that the value of a call is assigned to: `r` of `main`, or
`r1` or `r2` of the invocation that created the task. -/
inductive Dest where
  | r
  | r1
  | r2
  deriving DecidableEq

/-- The frame of an invocation and the destination of its value. -/
structure Frame where
  n : Int
  pc : Pc
  /-- `none` until it is written. -/
  r1 : Option CInt
  r2 : Option CInt
  dest : Dest
  deriving DecidableEq

/-- `dest = fiboParalelo(n)`, about to be called. -/
def call (n : Int) (dest : Dest) : Frame where
  n := n
  pc := Pc.start
  r1 := none
  r2 := none
  dest := dest

/-- Assign `v` to a variable of the creator's frame. -/
def assign (dest : Dest) (v : CInt) (f : Frame) : Frame :=
  match dest with
  | Dest.r => f
  | Dest.r1 => { f with r1 := some v }
  | Dest.r2 => { f with r2 := some v }

/-- One step of `fiboParalelo`.  Reading `r1` or `r2` before it is written is
undefined. -/
def fiboParalelo (f : Frame) : Next Frame CInt :=
  match f.pc with
  | Pc.start =>
      if f.n < 2 then
        Next.go { f with pc := Pc.returned (BitVec.ofInt 32 f.n) }
      else Next.go { f with pc := Pc.task1 }
  | Pc.task1 => Next.spawn { f with pc := Pc.task2 } (call (f.n - 1) Dest.r1)
  | Pc.task2 =>
      Next.spawn { f with pc := Pc.taskwait } (call (f.n - 2) Dest.r2)
  | Pc.taskwait => Next.taskwait { f with pc := Pc.add }
  | Pc.add =>
      match f.r1, f.r2 with
      | some v1, some v2 => Next.go { f with pc := Pc.returned (v1 + v2) }
      | _, _ => Next.undefined
  | Pc.returned v => Next.finish v (assign f.dest v)

abbrev State := TaskPool.State Frame CInt

/-- The sequential reading: each task runs at its construct. -/
def fiboSerial (n : Int) : CInt := Fibonacci.fiboRec n

/-- The parallel region of `main`, whose single thread calls
`r = fiboParalelo(n)`. -/
def system (n : Int) : System State TaskPool.Action :=
  TaskPool.system fiboParalelo (call n Dest.r)

/-!
## What a step does
-/

inductive Does (f : Frame) : Next Frame CInt -> Prop where
  | base : f.pc = Pc.start -> f.n < 2 ->
      Does f (Next.go { f with pc := Pc.returned (BitVec.ofInt 32 f.n) })
  | recurse : f.pc = Pc.start -> 2 ≤ f.n ->
      Does f (Next.go { f with pc := Pc.task1 })
  | task1 : f.pc = Pc.task1 ->
      Does f (Next.spawn { f with pc := Pc.task2 } (call (f.n - 1) Dest.r1))
  | task2 : f.pc = Pc.task2 ->
      Does f
        (Next.spawn { f with pc := Pc.taskwait } (call (f.n - 2) Dest.r2))
  | taskwait : f.pc = Pc.taskwait ->
      Does f (Next.taskwait { f with pc := Pc.add })
  | add {v1 v2 : CInt} : f.pc = Pc.add -> f.r1 = some v1 -> f.r2 = some v2 ->
      Does f (Next.go { f with pc := Pc.returned (v1 + v2) })
  | unwritten : f.pc = Pc.add -> (f.r1 = none ∨ f.r2 = none) ->
      Does f Next.undefined
  | finish {v : CInt} : f.pc = Pc.returned v ->
      Does f (Next.finish v (assign f.dest v))

theorem does (f : Frame) : Does f (fiboParalelo f) := by
  unfold fiboParalelo
  cases hpc : f.pc with
  | start =>
      dsimp only
      split
      · rename_i hn
        exact Does.base hpc hn
      · rename_i hn
        exact Does.recurse hpc (Int.not_lt.mp hn)
  | task1 => exact Does.task1 hpc
  | task2 => exact Does.task2 hpc
  | taskwait => exact Does.taskwait hpc
  | add =>
      dsimp only
      split
      · rename_i v1 v2 h1 h2
        exact Does.add hpc h1 h2
      · rename_i hnone
        apply Does.unwritten hpc
        cases h1 : f.r1 with
        | none => exact Or.inl rfl
        | some v1 =>
            cases h2 : f.r2 with
            | none => exact Or.inr rfl
            | some v2 => exact absurd h2 (hnone v1 v2 h1)
  | returned v => exact Does.finish hpc

/-- The step of an invocation that goes on with frame `f'`. -/
inductive Moves (f : Frame) : Frame -> Prop where
  | base : f.pc = Pc.start -> f.n < 2 ->
      Moves f { f with pc := Pc.returned (BitVec.ofInt 32 f.n) }
  | recurse : f.pc = Pc.start -> 2 ≤ f.n -> Moves f { f with pc := Pc.task1 }
  | task1 : f.pc = Pc.task1 -> Moves f { f with pc := Pc.task2 }
  | task2 : f.pc = Pc.task2 -> Moves f { f with pc := Pc.taskwait }
  | taskwait : f.pc = Pc.taskwait -> Moves f { f with pc := Pc.add }
  | add {v1 v2 : CInt} : f.pc = Pc.add -> f.r1 = some v1 -> f.r2 = some v2 ->
      Moves f { f with pc := Pc.returned (v1 + v2) }

theorem moves_of_advances {f f' : Frame} (h : Advances fiboParalelo f f') :
    Moves f f' := by
  have hdoes := does f
  cases h with
  | go hnext =>
      rw [hnext] at hdoes
      cases hdoes with
      | base hpc hn => exact Moves.base hpc hn
      | recurse hpc hn => exact Moves.recurse hpc hn
      | add hpc h1 h2 => exact Moves.add hpc h1 h2
  | spawn hnext =>
      rw [hnext] at hdoes
      cases hdoes with
      | task1 hpc => exact Moves.task1 hpc
      | task2 hpc => exact Moves.task2 hpc
  | taskwait hnext =>
      rw [hnext] at hdoes
      cases hdoes with
      | taskwait hpc => exact Moves.taskwait hpc

theorem waits_of_add {f f' : Frame} (h : Advances fiboParalelo f f')
    (hpc : f'.pc = Pc.add) : fiboParalelo f = Next.taskwait f' := by
  have hdoes := does f
  cases moves_of_advances h with
  | taskwait htw =>
      unfold fiboParalelo
      rw [htw]
  | _ => cases hpc

theorem finish_cases {f : Frame} {v : CInt} {store : Frame -> Frame}
    (h : fiboParalelo f = Next.finish v store) :
    f.pc = Pc.returned v ∧ store = assign f.dest v := by
  have hdoes := does f
  rw [h] at hdoes
  cases hdoes with
  | finish hpc => exact ⟨hpc, rfl⟩

theorem spawn_cases {f f' c : Frame}
    (h : fiboParalelo f = Next.spawn f' c) :
    (f.pc = Pc.task1 ∧ f' = { f with pc := Pc.task2 } ∧
        c = call (f.n - 1) Dest.r1) ∨
      (f.pc = Pc.task2 ∧ f' = { f with pc := Pc.taskwait } ∧
        c = call (f.n - 2) Dest.r2) := by
  have hdoes := does f
  rw [h] at hdoes
  cases hdoes with
  | task1 hpc => exact Or.inl ⟨hpc, rfl, rfl⟩
  | task2 hpc => exact Or.inr ⟨hpc, rfl, rfl⟩

/-!
An assignment changes one of the two variables and nothing else.
-/

@[simp] theorem assign_n (dest : Dest) (v : CInt) (f : Frame) :
    (assign dest v f).n = f.n := by
  cases dest <;> rfl

@[simp] theorem assign_pc (dest : Dest) (v : CInt) (f : Frame) :
    (assign dest v f).pc = f.pc := by
  cases dest <;> rfl

@[simp] theorem assign_dest (dest : Dest) (v : CInt) (f : Frame) :
    (assign dest v f).dest = f.dest := by
  cases dest <;> rfl

end FiboParallel
end OpenMP
end IPPD
