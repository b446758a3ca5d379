import IPPD.Foundation.Xdr
import IPPD.Fibonacci.Agreement
import IPPD.RPC.Services

/-!
# Requests and replies

Both interfaces number their first procedure 1 and give it an argument that
starts with an `int`.  The module has the dispatchers of the two servers, the
stubs and functions of the two clients, and what each pair of client function
and server returns.
-/

namespace IPPD
namespace RPC

open Foundation
open Foundation.Xdr (Byte encodeInt decodeInt)

inductive Reply where
  | success (body : List Byte)
  /-- No such procedure. -/
  | noproc
  /-- The argument cannot be decoded. -/
  | decode
  /-- The server sends nothing. -/
  | silent
  deriving DecidableEq

/-- What a server does with a procedure number and a request body. -/
abbrev Server := Nat -> List Byte -> Reply

/-- The procedure of number 0. -/
def nullproc : Nat := 0

/-- Reply with the `int` that a procedure points to. -/
def sendreply (result : Option CInt) : Reply :=
  match result with
  | some v => Reply.success (encodeInt v)
  | none => Reply.silent

/-- `clnt_call` with an `int` as result. -/
def clntCall (server : Server) (proc : Nat) (args : List Byte) :
    Option CInt :=
  match server proc args with
  | Reply.success body => (decodeInt body).map Prod.fst
  | _ => none

theorem clntCall_eq {server : Server} {proc : Nat} {args : List Byte}
    {v : CInt} (h : server proc args = Reply.success (encodeInt v)) :
    clntCall server proc args = some v := by
  have hdecode := Xdr.decodeInt_encodeInt v []
  rw [List.append_nil] at hdecode
  rw [clntCall, h]
  dsimp only
  rw [hdecode]
  rfl

/-!
## The addsub interface
-/

namespace AddSub

def addsubProg : Nat := 12345678

def addsubVersion : Nat := 1

def addProc : Nat := 1

def subProc : Nat := 2

def encode (ops : Operands) : List Byte := encodeInt ops.x ++ encodeInt ops.y

/-- `xdr_operands` when it decodes. -/
def xdrOperands (bytes : List Byte) : Option Operands :=
  match decodeInt bytes with
  | none => none
  | some (x, rest) =>
      match decodeInt rest with
      | none => none
      | some (y, _) => some { x := x, y := y }

def addsubProg1 : Server := fun proc body =>
  if proc = nullproc then Reply.success []
  else if proc = addProc then
    match xdrOperands body with
    | some argp => sendreply (add1Svc argp)
    | none => Reply.decode
  else if proc = subProc then
    match xdrOperands body with
    | some argp => sendreply (sub1Svc argp)
    | none => Reply.decode
  else Reply.noproc

/-- The function `add` of the client; `none` when it ends the client. -/
def add (server : Server) (x y : CInt) : Option CInt :=
  clntCall server addProc (encode { x := x, y := y })

def sub (server : Server) (x y : CInt) : Option CInt :=
  clntCall server subProc (encode { x := x, y := y })

theorem xdrOperands_encode (ops : Operands) :
    xdrOperands (encode ops) = some ops := by
  have hy := Xdr.decodeInt_encodeInt ops.y []
  rw [List.append_nil] at hy
  unfold xdrOperands encode
  rw [Xdr.decodeInt_encodeInt]
  dsimp only
  rw [hy]

theorem xdrOperands_eq_none {bytes : List Byte} (h : bytes.length < 8) :
    xdrOperands bytes = none := by
  unfold xdrOperands
  cases hx : decodeInt bytes with
  | none => rfl
  | some r =>
      have hlength := Xdr.length_of_decodeInt hx
      have hy : decodeInt r.snd = none := Xdr.decodeInt_eq_none (by lia)
      dsimp only
      rw [hy]

theorem addsubProg1_decode {proc : Nat} {body : List Byte}
    (hproc : proc = addProc ∨ proc = subProc) (h : body.length < 8) :
    addsubProg1 proc body = Reply.decode := by
  have hnone := xdrOperands_eq_none h
  rcases hproc with hadd | hsub
  · simp [addsubProg1, nullproc, addProc, hadd, hnone]
  · simp [addsubProg1, nullproc, addProc, subProc, hsub, hnone]

theorem add_addsubProg1 (x y : CInt) :
    add addsubProg1 x y = some (x + y) := by
  apply clntCall_eq
  show (match xdrOperands (encode { x := x, y := y }) with
    | some argp => sendreply (add1Svc argp)
    | none => Reply.decode) = _
  rw [xdrOperands_encode]
  rfl

theorem sub_addsubProg1 (x y : CInt) :
    sub addsubProg1 x y = some (x - y) := by
  apply clntCall_eq
  show (match xdrOperands (encode { x := x, y := y }) with
    | some argp => sendreply (sub1Svc argp)
    | none => Reply.decode) = _
  rw [xdrOperands_encode]
  rfl

end AddSub

/-!
## The fibonacci interface
-/

namespace Fibonacci

def fibonacciProg : Nat := 12345678

def fibonacciVersion : Nat := 1

def fibonacciProc : Nat := 1

def encode (ops : Operands) : List Byte := encodeInt ops.n

/-- `xdr_operands` when it decodes. -/
def xdrOperands (bytes : List Byte) : Option Operands :=
  match decodeInt bytes with
  | none => none
  | some (n, _) => some { n := n }

/-- The dispatcher.  The reply to a request on which the service is undefined
is a parameter. -/
def fibonacciProg1 (junk : Nat -> CInt) (undefinedReply : Reply) : Server :=
  fun proc body =>
    if proc = nullproc then Reply.success []
    else if proc = fibonacciProc then
      match xdrOperands body with
      | some argp =>
          match fibonacci1Svc Arith.wrapping junk argp with
          | Except.ok result => sendreply result
          | Except.error _ => undefinedReply
      | none => Reply.decode
    else Reply.noproc

/-- The function `fibonacci` of the client. -/
def fibonacci (server : Server) (n : CInt) : Option CInt :=
  clntCall server fibonacciProc (encode { n := n })

theorem fibonacciProg1_eq (junk : Nat -> CInt) (undefinedReply : Reply)
    {n : CInt} (hn : 2 ≤ n.toInt) (rest : List Byte) :
    fibonacciProg1 junk undefinedReply fibonacciProc (encodeInt n ++ rest) =
      Reply.success (encodeInt (fibInt n.toInt.toNat)) := by
  have hdecode : xdrOperands (encodeInt n ++ rest) = some { n := n } := by
    unfold xdrOperands
    rw [Xdr.decodeInt_encodeInt]
  have hsvc : fibonacci1Svc Arith.wrapping junk { n := n } =
      Except.ok (some (fibInt n.toInt.toNat)) := by
    unfold fibonacci1Svc
    dsimp only
    rw [IPPD.Fibonacci.fiboArray_wrapping hn junk]
    rfl
  show (match xdrOperands (encodeInt n ++ rest) with
    | some argp =>
        match fibonacci1Svc Arith.wrapping junk argp with
        | Except.ok result => sendreply result
        | Except.error _ => undefinedReply
    | none => Reply.decode) = _
  rw [hdecode]
  dsimp only
  rw [hsvc]
  rfl

theorem fibonacci_fibonacciProg1 (junk : Nat -> CInt)
    (undefinedReply : Reply) {n : CInt} (hn : 2 ≤ n.toInt) :
    fibonacci (fibonacciProg1 junk undefinedReply) n =
      some (fibInt n.toInt.toNat) := by
  apply clntCall_eq
  have h := fibonacciProg1_eq junk undefinedReply hn []
  rw [List.append_nil] at h
  exact h

end Fibonacci

/-!
## A client and the server of the other interface
-/

/-- The fibonacci server takes the first operand of an addition for its own. -/
theorem add_fibonacciProg1 (junk : Nat -> CInt) (undefinedReply : Reply)
    {x : CInt} (hx : 2 ≤ x.toInt) (y : CInt) :
    AddSub.add (Fibonacci.fibonacciProg1 junk undefinedReply) x y =
      some (fibInt x.toInt.toNat) :=
  clntCall_eq
    (Fibonacci.fibonacciProg1_eq junk undefinedReply hx (encodeInt y))

/-- The addsub server misses the second operand of a Fibonacci request. -/
theorem fibonacci_addsubProg1 (n : CInt) :
    Fibonacci.fibonacci AddSub.addsubProg1 n = none := by
  have hreply : AddSub.addsubProg1 Fibonacci.fibonacciProc
      (Fibonacci.encode { n := n }) = Reply.decode :=
    AddSub.addsubProg1_decode (Or.inl rfl) (show 4 < 8 by decide)
  rw [Fibonacci.fibonacci, clntCall, hreply]

end RPC
end IPPD
