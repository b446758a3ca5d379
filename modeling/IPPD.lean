import IPPD.Foundation.System
import IPPD.Foundation.Threads
import IPPD.Foundation.Countdown
import IPPD.Foundation.Channel
import IPPD.Foundation.MessagePassing
import IPPD.Foundation.Ownership
import IPPD.Foundation.Segments
import IPPD.Foundation.AccessLog
import IPPD.Foundation.Reduction
import IPPD.Foundation.CInt
import IPPD.Foundation.SumBelow
import IPPD.Foundation.TaskPool
import IPPD.Foundation.TaskContract
import IPPD.Foundation.FibInt
import IPPD.Foundation.CArray
import IPPD.Foundation.Xdr
import IPPD.Fibonacci.Array
import IPPD.Fibonacci.Recursive
import IPPD.PThreads.ProdCons.Program
import IPPD.PThreads.ProdCons.Steps
import IPPD.PThreads.ProdCons.Accounting
import IPPD.PThreads.ProdCons.Balance
import IPPD.PThreads.ProdCons.Progress
import IPPD.PThreads.ProdCons.Bounds
import IPPD.PThreads.ProdCons.Totals
import IPPD.PThreads.ProdCons.WakeUp
import IPPD.PThreads.ProdCons.Deadlock
import IPPD.PThreads.Semaforo.Program
import IPPD.PThreads.Semaforo.Safety
import IPPD.PThreads.Semaforo.Deadlock
import IPPD.PThreads.Soma.Split
import IPPD.PThreads.Soma.Ex1a
import IPPD.PThreads.Soma.Ex1aSum
import IPPD.PThreads.Soma.Ex1b
import IPPD.PThreads.Soma.Ex1bSum
import IPPD.PThreads.Soma.Total
import IPPD.PThreads.Soma.Exact
import IPPD.PThreads.Soma.Overflow
import IPPD.PThreads.Soma.Reads
import IPPD.MPI.Ring.Program
import IPPD.MPI.Ring.Token
import IPPD.MPI.Ring.Sum
import IPPD.MPI.Ring.Addressing
import IPPD.OpenMP.FiboParallel.Program
import IPPD.OpenMP.FiboParallel.Contract
import IPPD.OpenMP.FiboParallel.Schedule
import IPPD.RPC.Services
import IPPD.Fibonacci.Agreement
import IPPD.Fibonacci.Range
import IPPD.OpenMP.FiboFor.Program
import IPPD.OpenMP.FiboFor.Race
import IPPD.OpenMP.Somatorio
import IPPD.RPC.Dispatch
import IPPD.RPC.Registry
import IPPD.Foundation.BlockCyclic
import IPPD.HPL.Distribution
import IPPD.Foundation.Affine
import IPPD.HPL.Rand
import IPPD.HPL.Matgen
import IPPD.Foundation.Communicator
import IPPD.Foundation.Hypercube
import IPPD.Foundation.Rounds
import IPPD.HPL.Broadcast
import IPPD.HPL.Reduce
import IPPD.HPL.Rings
import IPPD.HPL.LongBroadcast
import IPPD.Foundation.Elimination
import IPPD.HPL.RecursiveUpdates
