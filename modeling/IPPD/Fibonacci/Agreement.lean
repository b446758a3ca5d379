import IPPD.Foundation.FibInt
import IPPD.Fibonacci.Array
import IPPD.Fibonacci.Recursive
import IPPD.OpenMP.FiboParallel.Program
import IPPD.RPC.Services

/-!
# The Fibonacci implementations agree

With addition modulo `2^32` the element `f[k]` of the array versions is the
Fibonacci number at index `k + 1`, so `f[n-1]` is what the recursion returns
at `n`.
-/

namespace IPPD
namespace Fibonacci

open Foundation

/-- What the array holds at index `k`. -/
def element (k : Nat) : CInt := fibInt (k + 1)

theorem wrapping_add_element (k : Nat) :
    Arith.wrapping.add (element (k + 1)) (element k) =
      Except.ok (element (k + 2)) := by
  unfold element
  rw [fibInt_add_two (k + 1)]
  rfl

theorem fiboArray_wrapping {n : Int} (hn : 2 ≤ n) (junk : Nat -> CInt) :
    fiboArray Arith.wrapping junk n = Except.ok (fibInt n.toNat) := by
  have hnat : n = (n.toNat : Int) := by lia
  have harray := fiboArray_eq_ok (A := Arith.wrapping) element junk
    (n := n.toNat) (by lia) rfl rfl
    (fun k _ => wrapping_add_element k)
  rw [← hnat] at harray
  rw [harray, element, Nat.sub_add_cancel (by lia)]

/-- Every implementation gives the Fibonacci number at `n`. -/
theorem implementations_agree (n : CInt) (hn : 2 ≤ n.toInt)
    (junk junk' : Nat -> CInt) :
    fiboSequencial Arith.wrapping junk n.toInt =
        Except.ok (fibInt n.toInt.toNat) ∧
      RPC.Fibonacci.fibonacci1Svc Arith.wrapping junk' { n := n } =
        Except.ok (some (fibInt n.toInt.toNat)) ∧
      OpenMP.FiboParallel.fiboSerial n.toInt = fibInt n.toInt.toNat ∧
      fiboSeq n.toInt = fibInt n.toInt.toNat ∧
      calcula n.toInt = fibInt n.toInt.toNat := by
  have hrec : fiboRec n.toInt = fibInt n.toInt.toNat :=
    fiboRec_eq (by lia)
  refine ⟨?_, ?_, hrec, hrec, hrec⟩
  · exact fiboArray_wrapping hn junk
  · unfold RPC.Fibonacci.fibonacci1Svc
    rw [fiboArray_wrapping hn junk']
    rfl

theorem implementations_agree_ten :
    fiboSequencial Arith.wrapping (fun _ => 7) 10 = Except.ok 55 ∧
      fiboSeq 10 = 55 := by
  have h := implementations_agree 10 (by decide) (fun _ => 7) (fun _ => 7)
  exact ⟨h.left, h.right.right.right.left⟩

end Fibonacci
end IPPD
