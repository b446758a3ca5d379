import IPPD.Foundation.CInt
import IPPD.Foundation.MessagePassing

/-!
# The ring sum of the ranks

`mpi_somatorio_rank.c`: rank 0 sends its number to rank 1, every other rank
receives a number from its predecessor, adds its own and sends the result to
its successor, and rank 0 prints what comes back.
-/

namespace IPPD
namespace MPI
namespace Ring

open Foundation
open MessagePassing

/-- A rank as the `int` that is sent and added. -/
def ofRank (r : Int) : CInt := BitVec.ofInt 32 r

/-- All messages have tag 0 and the receives use `MPI_ANY_TAG`. -/
def emParalelo (myRank worldSize : Int) : Process CInt :=
  if myRank = 0 then
    Process.send (myRank + 1) 0 (ofRank myRank)
      (Process.recv (worldSize - 1) none fun aux =>
        Process.print (aux + ofRank myRank) Process.done)
  else
    let dest := if myRank = worldSize - 1 then 0 else myRank + 1
    Process.recv (myRank - 1) none fun aux =>
      let aux := aux + ofRank myRank
      Process.send dest 0 aux Process.done

/-- Every rank runs `main`, which asks for its number and the world size. -/
def ring (n : Nat) : System (State CInt n) (Action n) :=
  system fun r => emParalelo r n

end Ring
end MPI
end IPPD
