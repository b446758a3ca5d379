import IPPD.Fibonacci.Array

/-!
# The remote procedures

The procedures of the two servers, as `servico.c` of each directory implements
them.  A procedure returns a pointer to its static `result`, so its value is an
`Option` that is never `none`.
-/

namespace IPPD
namespace RPC

open Foundation

namespace AddSub

structure Operands where
  x : CInt
  y : CInt
  deriving DecidableEq

def add1Svc (argp : Operands) : Option CInt :=
  let result := argp.x + argp.y
  some result

def sub1Svc (argp : Operands) : Option CInt :=
  let result := argp.x - argp.y
  some result

end AddSub

namespace Fibonacci

structure Operands where
  n : CInt
  deriving DecidableEq

/-- The array `f` of `fibonacci_1_svc` starts with the indeterminate elements
`junk`. -/
def fibonacci1Svc {int : Type u} (A : Arith int) (junk : Nat -> int)
    (argp : Operands) : Except Fault (Option int) := do
  let result <- IPPD.Fibonacci.fiboArray A junk argp.n.toInt
  Except.ok (some result)

end Fibonacci

end RPC
end IPPD
