import IPPD.Foundation.CInt
import Mathlib.Data.Nat.Fib.Basic

/-!
# Fibonacci numbers as ints

The Fibonacci numbers with `0, 1` as first values, reduced to an `int`.
-/

namespace IPPD
namespace Foundation

def fibInt (k : Nat) : CInt := BitVec.ofNat 32 (Nat.fib k)

theorem fibInt_zero : fibInt 0 = 0 := rfl

theorem fibInt_add_two (k : Nat) :
    fibInt (k + 2) = fibInt (k + 1) + fibInt k := by
  unfold fibInt
  rw [Nat.fib_add_two, Nat.add_comm, BitVec.ofNat_add]

/-!
The recursion of the programs on its two branches.
-/

theorem ofInt_eq_fibInt {n : Int} (hnonneg : 0 ≤ n) (hn : n < 2) :
    BitVec.ofInt 32 n = fibInt n.toNat := by
  have hcases : n = 0 ∨ n = 1 := by lia
  rcases hcases with h | h
  · rw [h]
    rfl
  · rw [h]
    rfl

theorem add_eq_fibInt {n : Int} (hn : 2 ≤ n) :
    fibInt (n - 1).toNat + fibInt (n - 2).toNat = fibInt n.toNat := by
  have h0 : n.toNat = (n - 2).toNat + 2 := by lia
  have h1 : (n - 1).toNat = (n - 2).toNat + 1 := by lia
  rw [h0, h1, fibInt_add_two]

end Foundation
end IPPD
