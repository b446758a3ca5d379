import IPPD.Foundation.CInt
import Mathlib.Logic.Function.Basic

/-!
# C arrays and int arithmetic with faults

An automatic array of variable length needs a positive size and starts with
indeterminate elements.  Every access names an index that may lie outside.

A program on arrays takes the arithmetic of its ints as a parameter: the
wrapping one gives the values that the machine computes, the checked one is
undefined on overflow.
-/

namespace IPPD
namespace Foundation

/-- Undefined behaviour. -/
inductive Fault where
  /-- An array declared with a size that is not positive. -/
  | size
  /-- An access outside an array. -/
  | bounds
  | overflow
  deriving DecidableEq

structure CArray (int : Type u) where
  size : Nat
  cell : Nat -> int

namespace CArray

variable {int : Type u}

/-- `int f[n]` with the indeterminate elements `junk`. -/
def declare (n : Int) (junk : Nat -> int) : Except Fault (CArray int) :=
  if 0 < n then Except.ok { size := n.toNat, cell := junk }
  else Except.error Fault.size

def get (f : CArray int) (i : Int) : Except Fault int :=
  if 0 ≤ i ∧ i < f.size then Except.ok (f.cell i.toNat)
  else Except.error Fault.bounds

def put (f : CArray int) (i : Nat) (v : int) : CArray int :=
  { f with cell := Function.update f.cell i v }

def set (f : CArray int) (i : Int) (v : int) : Except Fault (CArray int) :=
  if 0 ≤ i ∧ i < f.size then Except.ok (f.put i.toNat v)
  else Except.error Fault.bounds

variable {f : CArray int} {i : Int} {k : Nat} {v : int}

theorem get_eq_ok (hk : k < f.size) (hi : i = k) :
    f.get i = Except.ok (f.cell k) := by
  have hin : 0 ≤ i ∧ i < f.size := by lia
  rw [get, if_pos hin, hi, Int.toNat_natCast]

theorem set_eq_ok (hk : k < f.size) (hi : i = k) :
    f.set i v = Except.ok (f.put k v) := by
  have hin : 0 ≤ i ∧ i < f.size := by lia
  rw [set, if_pos hin, hi, Int.toNat_natCast]

theorem set_eq_error (hi : i < 0 ∨ (f.size : Int) ≤ i) :
    f.set i v = Except.error Fault.bounds := by
  have hout : ¬ (0 ≤ i ∧ i < f.size) := by lia
  rw [set, if_neg hout]

@[simp] theorem put_cell_self : (f.put k v).cell k = v := by
  simp [put]

theorem put_cell_ne {j : Nat} (hj : j ≠ k) :
    (f.put k v).cell j = f.cell j := by
  simp [put, hj]

end CArray

/-!
## Arithmetic
-/

structure Arith (int : Type u) where
  one : int
  add : int -> int -> Except Fault int

namespace Arith

/-- Addition modulo `2^32`. -/
def wrapping : Arith CInt where
  one := 1
  add x y := Except.ok (x + y)

/-- Addition that is undefined when it leaves the 32-bit range. -/
def checked : Arith Int where
  one := 1
  add x y :=
    if Fits (x + y) then Except.ok (x + y) else Except.error Fault.overflow

end Arith

end Foundation
end IPPD
