import IPPD.Foundation.FibInt

/-!
# Fibonacci numbers by recursion

The Java server and the sequential reading of `fiboParallel.c` compute with the
recursion below, which starts from `0` and `1` and returns the number at index
`n`.
-/

namespace IPPD
namespace Fibonacci

open Foundation

def fiboRec (n : Int) : CInt :=
  if n < 2 then BitVec.ofInt 32 n
  else
    let r1 := fiboRec (n - 1)
    let r2 := fiboRec (n - 2)
    r1 + r2
termination_by n.toNat

theorem fiboRec_eq {n : Int} (hn : 0 ≤ n) : fiboRec n = fibInt n.toNat := by
  induction n using fiboRec.induct with
  | case1 n hlt =>
      rw [fiboRec, if_pos hlt]
      exact ofInt_eq_fibInt hn hlt
  | case2 n hge ih1 ih2 =>
      rw [fiboRec, if_neg hge]
      dsimp only
      rw [ih1 (by lia), ih2 (by lia)]
      exact add_eq_fibInt (by lia)

/-- `fiboSeq` of `FiboImplementacao.java`. -/
def fiboSeq (n : Int) : CInt := fiboRec n

/-- The remote method of the Java server. -/
def calcula (n : Int) : CInt := fiboSeq n

end Fibonacci
end IPPD
