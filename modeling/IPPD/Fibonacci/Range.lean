import IPPD.Fibonacci.Array
import IPPD.RPC.Services
import Mathlib.Data.Nat.Fib.Basic
import Mathlib.Tactic.NormNum.NatFib

/-!
# The range of the Fibonacci server

The server does not test the `n` of a request.  With checked arithmetic its
service is exact from `n = 2` to `n = 46`.  Below, the array is too small for
the two assignments in front of the loop; above, the sums do not fit.
-/

namespace IPPD
namespace Fibonacci

open Foundation

/-- What the array should hold at index `k`. -/
def number (k : Nat) : Int := Nat.fib (k + 1)

theorem number_add (k : Nat) :
    number (k + 1) + number k = number (k + 2) := by
  unfold number
  rw [Nat.fib_add_two (n := k + 1)]
  push_cast
  lia

theorem fits_number {k : Nat} : Fits (number k) <-> k < 46 := by
  have h46 : Nat.fib 46 = 1836311903 := by norm_num
  have h47 : Nat.fib 47 = 2971215073 := by norm_num
  unfold Fits number
  constructor
  · intro h
    by_contra hk
    have hmono : Nat.fib 47 ≤ Nat.fib (k + 1) := Nat.fib_mono (by lia)
    lia
  · intro hk
    have hmono : Nat.fib (k + 1) ≤ Nat.fib 46 := Nat.fib_mono (by lia)
    lia

theorem checked_add_number {k : Nat} (hk : k < 44) :
    Arith.checked.add (number (k + 1)) (number k) =
      Except.ok (number (k + 2)) := by
  have hfits : Fits (number (k + 1) + number k) := by
    rw [number_add]
    exact fits_number.mpr (by lia)
  rw [Arith.checked]
  dsimp only
  rw [if_pos hfits, number_add]

theorem checked_add_overflow :
    Arith.checked.add (number 45) (number 44) =
      Except.error Fault.overflow := by
  have hfits : ¬ Fits (number 45 + number 44) := by
    rw [number_add]
    intro h
    have hlt := fits_number.mp h
    lia
  rw [Arith.checked]
  dsimp only
  rw [if_neg hfits]

theorem fiboArray_checked {n : Int} (hlow : 2 ≤ n) (hhigh : n ≤ 46)
    (junk : Nat -> Int) :
    fiboArray Arith.checked junk n = Except.ok (Nat.fib n.toNat : Int) := by
  have hnat : n = (n.toNat : Int) := by lia
  have harray := fiboArray_eq_ok (A := Arith.checked) number junk
    (n := n.toNat) (by lia) rfl rfl
    (fun k _ => checked_add_number (by lia))
  rw [← hnat] at harray
  rw [harray, number, Nat.sub_add_cancel (by lia)]

theorem fiboArray_checked_overflow {n : Int} (hn : 47 ≤ n)
    (junk : Nat -> Int) :
    fiboArray Arith.checked junk n = Except.error Fault.overflow := by
  have hnat : n = (n.toNat : Int) := by lia
  rw [hnat]
  exact fiboArray_eq_error number junk (m := 44) (by lia) rfl rfl
    (fun k hk => checked_add_number hk) checked_add_overflow

/-- Outside the range every request runs into undefined behaviour. -/
theorem fiboArray_checked_iff {n : Int} (junk : Nat -> Int) :
    (exists v, fiboArray Arith.checked junk n = Except.ok v) <->
      2 ≤ n ∧ n ≤ 46 := by
  constructor
  · intro h
    rcases h with ⟨v, hv⟩
    by_contra hrange
    have hcases : n ≤ 0 ∨ n = 1 ∨ 47 ≤ n := by lia
    rcases hcases with hneg | hone | hbig
    · rw [fiboArray_size hneg] at hv
      cases hv
    · rw [hone, fiboArray_one] at hv
      cases hv
    · rw [fiboArray_checked_overflow hbig junk] at hv
      cases hv
  · intro h
    exact ⟨_, fiboArray_checked h.left h.right junk⟩

/-- What a request for `n` should give: the number if it is one that an `int`
can hold, `NULL` otherwise. -/
def answer (n : Int) : Option Int :=
  if 1 ≤ n ∧ Fits (Nat.fib n.toNat : Int) then some (Nat.fib n.toNat)
  else none

theorem answer_of_range {n : Int} (hlow : 2 ≤ n) (hhigh : n ≤ 46) :
    answer n = some (Nat.fib n.toNat : Int) := by
  have hfits : Fits (number (n.toNat - 1)) := fits_number.mpr (by lia)
  rw [number, Nat.sub_add_cancel (by lia)] at hfits
  rw [answer, if_pos ⟨by lia, hfits⟩]

theorem fibonacci1Svc_exact_iff (n : CInt) (junk : Nat -> Int) :
    (RPC.Fibonacci.fibonacci1Svc Arith.checked junk { n := n } =
        Except.ok (answer n.toInt) <->
      2 ≤ n.toInt ∧ n.toInt ≤ 46) ∧
    (fiboSequencial Arith.checked junk n.toInt =
        Except.ok (Nat.fib n.toInt.toNat : Int) <->
      2 ≤ n.toInt ∧ n.toInt ≤ 46) := by
  constructor
  · unfold RPC.Fibonacci.fibonacci1Svc
    dsimp only
    constructor
    · intro h
      rw [← fiboArray_checked_iff junk]
      cases hf : fiboArray Arith.checked junk n.toInt with
      | ok v => exact ⟨v, rfl⟩
      | error e =>
          rw [hf] at h
          cases h
    · intro h
      rw [fiboArray_checked h.left h.right junk,
        answer_of_range h.left h.right]
      rfl
  · unfold fiboSequencial
    constructor
    · intro h
      exact (fiboArray_checked_iff junk).mp ⟨_, h⟩
    · intro h
      exact fiboArray_checked h.left h.right junk

/-- A client that asks for the number at 47 makes `f[46]` overflow. -/
theorem fibonacci1Svc_overflow_47 :
    RPC.Fibonacci.fibonacci1Svc Arith.checked (fun _ => 0) { n := 47 } ≠
      Except.ok (answer 47) := by
  unfold RPC.Fibonacci.fibonacci1Svc
  dsimp only
  rw [show (47 : CInt).toInt = 47 from rfl,
    fiboArray_checked_overflow (by lia)]
  intro h
  cases h

end Fibonacci
end IPPD
