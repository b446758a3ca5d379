import IPPD.Foundation.System

/-!
# Shared countdown loops

Several workers share one counter.  A worker repeats: do one turn of work,
decrement the counter, and leave when the counter is then zero or below.  The
test comes after the work, so a worker that finds the counter already used up
still does one more turn.

A `Countdown` records the number of turns done so far and the number of workers
that have left.  The two are tied together by its fields: the worker that takes
the last announced turn leaves, and so does every worker that takes a later
one.
-/

namespace IPPD
namespace Foundation

structure Countdown (N : Int) (workers : Nat) where
  turns : Nat
  left : Nat
  left_eq : (left : Int) = max 0 (1 - (N - turns))
  left_le : left ≤ workers

namespace Countdown

variable {N : Int} {workers : Nat}

/-- Current value of the shared counter. -/
def total (c : Countdown N workers) : Int :=
  N - c.turns

def start (hN : 1 ≤ N) : Countdown N workers where
  turns := 0
  left := 0
  left_eq := by lia
  left_le := Nat.zero_le _

/-- One turn by a worker that has not left. -/
def turn (c : Countdown N workers) (h : c.left < workers) :
    Countdown N workers where
  turns := c.turns + 1
  left := if c.total - 1 ≤ 0 then c.left + 1 else c.left
  left_eq := by
    have hleft := c.left_eq
    unfold total
    split <;> lia
  left_le := by
    split <;> lia

def system (N : Int) (workers : Nat) (hN : 1 ≤ N) :
    System (Countdown N workers) Unit where
  Init c := c = start hN
  step c _ := if h : c.left < workers then some (c.turn h) else none

theorem step_turn {hN : 1 ≤ N} {c : Countdown N workers}
    (h : c.left < workers) :
    (system N workers hN).step c () = some (c.turn h) := by
  simp [system, h]

@[simp] theorem total_start (hN : 1 ≤ N) :
    (start hN : Countdown N workers).total = N := by
  simp [total, start]

@[simp] theorem total_turn (c : Countdown N workers) (h : c.left < workers) :
    (c.turn h).total = c.total - 1 := by
  simp only [total, turn]
  lia

/-!
## Counting the turns
-/

theorem total_pos_iff (c : Countdown N workers) :
    0 < c.total <-> c.left = 0 := by
  have hleft := c.left_eq
  unfold total
  lia

theorem left_eq_of_total_nonpos (c : Countdown N workers)
    (h : c.total ≤ 0) : (c.left : Int) = 1 - c.total := by
  have hleft := c.left_eq
  unfold total at *
  lia

theorem turns_le (c : Countdown N workers) :
    (c.turns : Int) ≤ N + workers - 1 := by
  have hleft := c.left_eq
  have hle := c.left_le
  lia

/-- When all workers have left, each of them but one overshot by one turn. -/
theorem turns_of_all_left (c : Countdown N workers) (hpos : 0 < workers)
    (h : c.left = workers) : (c.turns : Int) = N + workers - 1 := by
  have hleft := c.left_eq
  lia

end Countdown
end Foundation
end IPPD
