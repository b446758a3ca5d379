import IPPD.Foundation.System
import Mathlib.GroupTheory.Perm.Cycle.Basic

/-!
# Message-passing processes

A fixed number of ranks each run a sequential process that sends, receives and
prints.  A send either buffers its message and goes on, or blocks its sender
until the matching receive has taken the message; which of the two happens is
a choice of the scheduler at every send.  Messages in flight may be received in
any order.
-/

namespace IPPD
namespace Foundation

inductive Process (value : Type u) where
  | send (dest : Int) (tag : Int) (v : value) (next : Process value)
  /-- Receive from `source`; without a tag every tag matches. -/
  | recv (source : Int) (tag : Option Int) (next : value -> Process value)
  | print (v : value) (next : Process value)
  | done

/-- Some send of the process, whatever it receives before, goes to `r`. -/
def Process.SendsTo {value : Type u} : Process value -> Int -> Prop
  | send dest _ _ next, r => r = dest ∨ next.SendsTo r
  | recv _ _ next, r => exists v, (next v).SendsTo r
  | print _ next, r => next.SendsTo r
  | done, _ => False

/-- Some receive of the process waits for a message of `r`. -/
def Process.ReceivesFrom {value : Type u} : Process value -> Int -> Prop
  | send _ _ _ next, r => next.ReceivesFrom r
  | recv source _ next, r => r = source ∨ exists v, (next v).ReceivesFrom r
  | print _ next, r => next.ReceivesFrom r
  | done, _ => False

namespace MessagePassing

variable {value : Type u} {n : Nat}

/-!
## Addresses

Ranks that pass messages round a ring: each sends to one other rank only, each
receives from one other rank only, the two agree, and the ranks form a single
cycle.
-/

structure RingAddressed (code : Fin n -> Process value) : Prop where
  dest : forall r d, (code r).SendsTo d -> exists q : Fin n, d = q ∧ q ≠ r
  source : forall r d, (code r).ReceivesFrom d ->
    exists q : Fin n, d = q ∧ q ≠ r
  cycle : exists next : Equiv.Perm (Fin n), next.IsCycleOn Set.univ ∧
    forall r d, (code r).SendsTo d <-> d = next r
  matched : forall r q : Fin n,
    (code r).SendsTo q <-> (code q).ReceivesFrom r

/-!
## States
-/

structure Node (value : Type u) where
  code : Process value
  /-- The last send waits for its receive. -/
  blocked : Bool
  sent : Nat
  received : Nat
  printed : List value

/-- A node about to run its process. -/
def Node.start (code : Process value) : Node value where
  code := code
  blocked := false
  sent := 0
  received := 0
  printed := []

def Node.Finished (nd : Node value) : Prop :=
  nd.code = Process.done ∧ nd.blocked = false

structure Message (value : Type u) (n : Nat) where
  source : Fin n
  dest : Fin n
  tag : Int
  v : value
  /-- The sender is blocked until this message is received. -/
  sync : Bool

structure State (value : Type u) (n : Nat) where
  nodes : Fin n -> Node value
  flight : List (Message value n)

inductive Action (n : Nat) where
  | send (r : Fin n) (sync : Bool)
  /-- Rank `r` receives the message at position `k` of the messages in
  flight. -/
  | recv (r : Fin n) (k : Nat)
  | print (r : Fin n)

/-- A rank number that a process computed, if it names a rank. -/
def rankOf? (n : Nat) (r : Int) : Option (Fin n) :=
  if h : r.toNat < n ∧ 0 ≤ r then some ⟨r.toNat, h.left⟩ else none

def Message.matches (m : Message value n) (r : Fin n) (source : Int)
    (tag : Option Int) : Bool :=
  decide (m.dest = r ∧ (m.source : Int) = source) &&
    match tag with
    | some t => decide (m.tag = t)
    | none => true

/-- The sender of a synchronous message goes on once it is received. -/
def release (nodes : Fin n -> Node value) (m : Message value n) :
    Fin n -> Node value :=
  if m.sync then
    Function.update nodes m.source
      { nodes m.source with blocked := false }
  else nodes

def step (s : State value n) : Action n -> Option (State value n)
  | Action.send r sync =>
      let nd := s.nodes r
      if nd.blocked then none
      else
        match nd.code with
        | Process.send dest tag v next =>
            match rankOf? n dest with
            | some q =>
                some
                  { nodes := Function.update s.nodes r
                      { nd with
                        code := next
                        blocked := sync
                        sent := nd.sent + 1 }
                    flight := s.flight ++
                      [{ source := r, dest := q, tag := tag, v := v,
                         sync := sync }] }
            | none => none
        | _ => none
  | Action.recv r k =>
      let nd := s.nodes r
      if nd.blocked then none
      else
        match nd.code, s.flight[k]? with
        | Process.recv source tag next, some m =>
            if m.matches r source tag then
              some
                { nodes := release
                    (Function.update s.nodes r
                      { nd with
                        code := next m.v
                        received := nd.received + 1 }) m
                  flight := s.flight.eraseIdx k }
            else none
        | _, _ => none
  | Action.print r =>
      let nd := s.nodes r
      if nd.blocked then none
      else
        match nd.code with
        | Process.print v next =>
            some
              { s with
                nodes := Function.update s.nodes r
                  { nd with
                    code := next
                    printed := nd.printed ++ [v] } }
        | _ => none

/-- All ranks start their processes with no message in flight. -/
def initial (code : Fin n -> Process value) : State value n where
  nodes := fun r => Node.start (code r)
  flight := []

def system (code : Fin n -> Process value) :
    System (State value n) (Action n) where
  Init s := s = initial code
  step := step

/-!
## Inversion of the steps
-/

inductive Moves (s : State value n) : Action n -> State value n -> Prop where
  | send {r q : Fin n} {sync : Bool} {dest tag : Int} {v : value}
      {next : Process value} :
      (s.nodes r).blocked = false ->
      (s.nodes r).code = Process.send dest tag v next ->
      rankOf? n dest = some q ->
      Moves s (Action.send r sync)
        { nodes := Function.update s.nodes r
            { s.nodes r with
              code := next
              blocked := sync
              sent := (s.nodes r).sent + 1 }
          flight := s.flight ++
            [{ source := r, dest := q, tag := tag, v := v, sync := sync }] }
  | recv {r : Fin n} {k : Nat} {source : Int} {tag : Option Int}
      {next : value -> Process value} {m : Message value n} :
      (s.nodes r).blocked = false ->
      (s.nodes r).code = Process.recv source tag next ->
      s.flight[k]? = some m -> m.matches r source tag = true ->
      Moves s (Action.recv r k)
        { nodes := release
            (Function.update s.nodes r
              { s.nodes r with
                code := next m.v
                received := (s.nodes r).received + 1 }) m
          flight := s.flight.eraseIdx k }
  | print {r : Fin n} {v : value} {next : Process value} :
      (s.nodes r).blocked = false ->
      (s.nodes r).code = Process.print v next ->
      Moves s (Action.print r)
        { s with
          nodes := Function.update s.nodes r
            { s.nodes r with
              code := next
              printed := (s.nodes r).printed ++ [v] } }

theorem moves_of_step {s t : State value n} {a : Action n}
    (h : step s a = some t) : Moves s a t := by
  cases a with
  | send r sync =>
      simp only [step] at h
      split at h
      · cases h
      · rename_i hfree
        split at h
        · rename_i dest tag v next hcode
          split at h
          · rename_i q hrank
            cases h
            exact Moves.send (eq_false_of_ne_true hfree) hcode hrank
          · cases h
        · cases h
  | recv r k =>
      simp only [step] at h
      split at h
      · cases h
      · rename_i hfree
        split at h
        · rename_i source tag next m hcode hflight
          split at h
          · rename_i hmatch
            cases h
            exact Moves.recv (eq_false_of_ne_true hfree) hcode
              hflight hmatch
          · cases h
        · cases h
  | print r =>
      simp only [step] at h
      split at h
      · cases h
      · rename_i hfree
        split at h
        · rename_i v next hcode
          cases h
          exact Moves.print (eq_false_of_ne_true hfree) hcode
        · cases h

theorem step_of_moves {s t : State value n} {a : Action n}
    (h : Moves s a t) : step s a = some t := by
  cases h with
  | send hfree hcode hrank => simp [step, hfree, hcode, hrank]
  | recv hfree hcode hflight hmatch =>
      simp [step, hfree, hcode, hflight, hmatch]
  | print hfree hcode => simp [step, hfree, hcode]

theorem rankOf?_val (r : Fin n) : rankOf? n (r : Int) = some r := by
  simp [rankOf?]

end MessagePassing
end Foundation
end IPPD
