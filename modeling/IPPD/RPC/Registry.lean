import IPPD.Foundation.System
import IPPD.RPC.Dispatch

/-!
# Servers and clients on one registry

A server that starts removes the mapping of its program and version and then
registers its own port.  A client looks the mapping up once, when it creates
its handle, and calls through that handle from then on.  Servers start, and
clients create handles and call, in any order.

Both interfaces have the program number 12345678 and the version 1, so each
server takes over the mapping of the other.
-/

namespace IPPD
namespace RPC

open Foundation

/-!
## The system
-/

/-- An interface: a server offers it, a client expects it. -/
inductive Interface where
  | addsub
  | fibonacci
  deriving DecidableEq

/-- The program and the version that both sides use. -/
def Interface.key : Interface -> Nat × Nat
  | addsub => (AddSub.addsubProg, AddSub.addsubVersion)
  | fibonacci => (Fibonacci.fibonacciProg, Fibonacci.fibonacciVersion)

/-- The call of a client function. -/
inductive Call where
  | add (x y : CInt)
  | sub (x y : CInt)
  | fibonacci (n : CInt)
  deriving DecidableEq

/-- The client that has the function. -/
def Call.interface : Call -> Interface
  | add _ _ => Interface.addsub
  | sub _ _ => Interface.addsub
  | fibonacci _ => Interface.fibonacci

/-- What the surroundings decide in a call: whether a message is lost, the
indeterminate elements of the server's array, and the reply to a request on
which the service is undefined. -/
structure Surroundings where
  lost : Bool
  junk : Nat -> CInt
  undefinedReply : Reply

def Interface.server (env : Surroundings) : Interface -> Server
  | addsub => AddSub.addsubProg1
  | fibonacci => Fibonacci.fibonacciProg1 env.junk env.undefinedReply

/-- The value that a client function returns, `none` when it fails. -/
def Call.run (server : Server) : Call -> Option CInt
  | add x y => AddSub.add server x y
  | sub x y => AddSub.sub server x y
  | fibonacci n => Fibonacci.fibonacci server n

/-- The handle of a client: its own interface, and the one that the server at
the other end offers. -/
structure Handle where
  client : Interface
  server : Interface
  deriving DecidableEq

structure State where
  /-- Which server's port a program and version is mapped to. -/
  registry : Nat × Nat -> Option Interface
  /-- Servers between removing the old mapping and registering. -/
  starting : Interface -> Nat
  handles : Nat -> Option Handle
  /-- The calls that have returned a value, the last one first. -/
  log : List (Call × CInt)

inductive Action where
  | unset (server : Interface)
  | register (server : Interface)
  /-- `clnt_create` of the client `c`. -/
  | create (c : Nat) (client : Interface)
  | call (c : Nat) (request : Call) (env : Surroundings)

/-- A registration fails, and ends the server, when there is a mapping. -/
def register (s : State) (server : Interface) : State :=
  let starting :=
    Function.update s.starting server (s.starting server - 1)
  match s.registry server.key with
  | none =>
      { s with
        registry := Function.update s.registry server.key (some server)
        starting := starting }
  | some _ => { s with starting := starting }

/-- A client whose call fails exits. -/
def call (s : State) (c : Nat) (h : Handle) (request : Call)
    (env : Surroundings) : State :=
  let result :=
    if env.lost then none else request.run (h.server.server env)
  match result with
  | some v => { s with log := (request, v) :: s.log }
  | none => { s with handles := Function.update s.handles c none }

def step (s : State) : Action -> Option State
  | Action.unset server =>
      some
        { s with
          registry := Function.update s.registry server.key none
          starting :=
            Function.update s.starting server (s.starting server + 1) }
  | Action.register server =>
      if 0 < s.starting server then some (register s server) else none
  | Action.create c client =>
      match s.handles c, s.registry client.key with
      | none, some server =>
          some
            { s with
              handles := Function.update s.handles c
                (some { client := client, server := server }) }
      | _, _ => none
  | Action.call c request env =>
      match s.handles c with
      | some h =>
          if h.client = request.interface then some (call s c h request env)
          else none
      | none => none

def first : State where
  registry := fun _ => none
  starting := fun _ => 0
  handles := fun _ => none
  log := []

def system : System State Action where
  Init s := s = first
  step := step

/-!
## Right answers
-/

/-- What a returned value should be. -/
def Call.Right : Call -> CInt -> Prop
  | add x y, v => v = x + y
  | sub x y, v => v = x - y
  | fibonacci n, v => 2 ≤ n.toInt -> v = fibInt n.toInt.toNat

def AllRight (s : State) : Prop :=
  forall request v, (request, v) ∈ s.log -> request.Right v

/-- No addsub client has its handle on the fibonacci server. -/
def NoMisbound (s : State) : Prop :=
  forall c h, s.handles c = some h -> h.client = Interface.addsub ->
    h.server = Interface.addsub

/-- A client on the server of its own interface gets right values, and the
fibonacci client gets none from the addsub server. -/
theorem right_of_run {h : Handle} {request : Call} {env : Surroundings}
    {v : CInt} (hclient : h.client = request.interface)
    (hbound : h.client = Interface.addsub -> h.server = Interface.addsub)
    (hv : request.run (h.server.server env) = some v) :
    request.Right v := by
  cases request with
  | add x y =>
      rw [hbound hclient] at hv
      have hadd := AddSub.add_addsubProg1 x y
      rw [show (AddSub.add AddSub.addsubProg1 x y = some v) from hv] at hadd
      exact Option.some_inj.mp hadd
  | sub x y =>
      rw [hbound hclient] at hv
      have hsub := AddSub.sub_addsubProg1 x y
      rw [show (AddSub.sub AddSub.addsubProg1 x y = some v) from hv] at hsub
      exact Option.some_inj.mp hsub
  | fibonacci n =>
      intro hn
      cases hserver : h.server with
      | addsub =>
          rw [hserver] at hv
          have hnone := fibonacci_addsubProg1 n
          rw [show (Fibonacci.fibonacci AddSub.addsubProg1 n = some v) from
            hv] at hnone
          cases hnone
      | fibonacci =>
          rw [hserver] at hv
          have hfib := Fibonacci.fibonacci_fibonacciProg1 env.junk
            env.undefinedReply hn
          rw [show (Fibonacci.fibonacci (Fibonacci.fibonacciProg1 env.junk
            env.undefinedReply) n = some v) from hv] at hfib
          exact Option.some_inj.mp hfib

/-!
## Runs without a misbound handle
-/

/-- No addsub client creates its handle while the fibonacci server is the one
registered. -/
def Allowed (s : State) : Action -> Prop
  | Action.create _ Interface.addsub =>
      s.registry Interface.addsub.key ≠ some Interface.fibonacci
  | _ => True

instance (s : State) (a : Action) : Decidable (Allowed s a) :=
  match a with
  | Action.create _ Interface.addsub => inferInstanceAs (Decidable (_ ≠ _))
  | Action.create _ Interface.fibonacci => isTrue trivial
  | Action.unset _ => isTrue trivial
  | Action.register _ => isTrue trivial
  | Action.call _ _ _ => isTrue trivial

theorem create_eq_some {s t : State} {c : Nat} {client : Interface}
    (h : step s (Action.create c client) = some t) :
    exists server, s.registry client.key = some server ∧
      t = { s with
        handles := Function.update s.handles c
          (some { client := client, server := server }) } := by
  dsimp only [step] at h
  split at h
  · rename_i server _ hserver
    cases h
    exact ⟨server, hserver, rfl⟩
  · cases h

theorem call_eq_some {s t : State} {c : Nat} {request : Call}
    {env : Surroundings} (h : step s (Action.call c request env) = some t) :
    exists hd, s.handles c = some hd ∧ hd.client = request.interface ∧
      t = call s c hd request env := by
  dsimp only [step] at h
  split at h
  · rename_i hd hhandle
    split at h
    · rename_i hclient
      cases h
      exact ⟨hd, hhandle, hclient, rfl⟩
    · cases h
  · cases h

theorem noMisbound_step {s t : State} {a : Action} (hs : NoMisbound s)
    (hallowed : Allowed s a) (hstep : step s a = some t) : NoMisbound t := by
  cases a with
  | unset server =>
      cases hstep
      exact hs
  | register server =>
      dsimp only [step, register] at hstep
      split at hstep
      · split at hstep <;> cases hstep <;> exact hs
      · cases hstep
  | create c client =>
      rcases create_eq_some hstep with ⟨server, hserver, ht⟩
      subst ht
      intro c' h hh hclient
      by_cases hc : c' = c
      · subst hc
        dsimp only at hh
        rw [Function.update_self] at hh
        cases hh
        dsimp only at hclient
        subst hclient
        cases server with
        | addsub => rfl
        | fibonacci => exact absurd hserver hallowed
      · dsimp only at hh
        rw [Function.update_of_ne hc] at hh
        exact hs c' h hh hclient
  | call c request env =>
      rcases call_eq_some hstep with ⟨hd, hhandle, _, ht⟩
      subst ht
      intro c' h hh hclient
      unfold call at hh
      dsimp only at hh
      split at hh
      · exact hs c' h hh hclient
      · dsimp only at hh
        by_cases hc : c' = c
        · subst hc
          rw [Function.update_self] at hh
          cases hh
        · rw [Function.update_of_ne hc] at hh
          exact hs c' h hh hclient

theorem allRight_step {s t : State} {a : Action} (hs : AllRight s)
    (hbound : NoMisbound s) (hstep : step s a = some t) : AllRight t := by
  cases a with
  | unset server =>
      cases hstep
      exact hs
  | register server =>
      dsimp only [step, register] at hstep
      split at hstep
      · split at hstep <;> cases hstep <;> exact hs
      · cases hstep
  | create c client =>
      rcases create_eq_some hstep with ⟨server, _, ht⟩
      subst ht
      exact hs
  | call c request env =>
      rcases call_eq_some hstep with ⟨hd, hhandle, hclient, ht⟩
      subst ht
      unfold call
      dsimp only
      split
      · rename_i v hv
        intro request' v' hmem
        rcases List.mem_cons.mp hmem with heq | hold
        · cases heq
          split at hv
          · cases hv
          · exact right_of_run hclient (hbound c hd hhandle) hv
        · exact hs request' v' hold
      · exact hs

theorem restricted_run {s t : State} {tr : List Action}
    (hrun : (system.restrict Allowed).Run s tr t)
    (hs : NoMisbound s ∧ AllRight s) : NoMisbound t ∧ AllRight t := by
  refine System.run_preserves (P := fun x => NoMisbound x ∧ AllRight x)
    ?_ hrun hs
  intro x a y hx hstep
  rcases System.restrict_step_eq_some.mp hstep with ⟨hallowed, hxy⟩
  exact ⟨noMisbound_step hx.left hallowed hxy,
    allRight_step hx.right hx.left hxy⟩

theorem first_ok : NoMisbound first ∧ AllRight first := by
  constructor
  · intro c h hh
    cases hh
  · intro request v hmem
    cases hmem

/-!
## Runs with a misbound handle
-/

/-- No message is lost, and an undefined request gets no reply. -/
def quiet : Surroundings where
  lost := false
  junk := fun _ => 0
  undefinedReply := Reply.silent

/-- After a forbidden step an addition can return a Fibonacci number. -/
theorem wrong_after_misbound {s t : State} {a : Action}
    (hallowed : ¬ Allowed s a) (hstep : step s a = some t) :
    exists b u, step t b = some u ∧ ¬ AllRight u := by
  cases a with
  | unset server => exact absurd trivial hallowed
  | register server => exact absurd trivial hallowed
  | call c request env => exact absurd trivial hallowed
  | create c client =>
      cases client with
      | fibonacci => exact absurd trivial hallowed
      | addsub =>
          rcases create_eq_some hstep with ⟨server, hserver, ht⟩
          have hregistered : s.registry Interface.addsub.key =
              some Interface.fibonacci := by
            by_contra hne
            exact hallowed hne
          rw [hregistered] at hserver
          cases hserver
          have hhandle : t.handles c = some
              { client := Interface.addsub
                server := Interface.fibonacci } := by
            rw [ht]
            exact Function.update_self _ _ _
          have hvalue : (Call.add 2 0).run
              (Interface.fibonacci.server quiet) = some 1 :=
            add_fibonacciProg1 _ _ (by decide) 0
          refine ⟨Action.call c (Call.add 2 0) quiet,
            { t with log := (Call.add 2 0, 1) :: t.log }, ?_, ?_⟩
          · dsimp only [step]
            rw [hhandle]
            dsimp only
            rw [if_pos (show Interface.addsub = (Call.add 2 0).interface
              from rfl)]
            unfold call
            dsimp only
            rw [if_neg (by decide), hvalue]
          · intro hall
            have hwrong : (1 : CInt) = 2 + 0 :=
              hall (Call.add 2 0) 1 List.mem_cons_self
            exact absurd hwrong (by decide)

/-- The values returned in a run, and in any one further step from a point of
it, are right. -/
def RightThroughout (tr : List Action) : Prop :=
  forall front back u, tr = front ++ back -> system.Run first front u ->
    AllRight u ∧ forall a v, system.step u a = some v -> AllRight v

/-- The answers of a run are right exactly when no addsub client creates its
handle while the fibonacci server is registered. -/
theorem answers_right_iff {tr : List Action} {t : State}
    (hrun : system.Run first tr t) :
    RightThroughout tr <-> (system.restrict Allowed).Run first tr t := by
  constructor
  · intro hright
    rcases System.run_restrict_or_split Allowed hrun with hgood |
      ⟨front, u, a, v, back, htr, hfront, ha, hstep, _⟩
    · exact hgood
    · exfalso
      have hpoint : system.Run first (front ++ [a]) v :=
        System.run_append (System.run_of_restrict hfront)
          (System.run_single hstep)
      rcases wrong_after_misbound ha hstep with ⟨b, w, hb, hwrong⟩
      exact hwrong ((hright (front ++ [a]) back v (by simp [htr])
        hpoint).right b w hb)
  · intro hgood front back u htr hfront
    subst htr
    rcases System.run_append_inv hgood with ⟨u', hfront', _⟩
    have hu : u = u' :=
      System.run_unique hfront (System.run_of_restrict hfront')
    subst hu
    rcases restricted_run hfront' first_ok with ⟨hbound, hall⟩
    exact ⟨hall, fun a v hstep => allRight_step hall hbound hstep⟩

/-- The two servers are started one after the other, then an addsub client
comes. -/
def takeover : List Action :=
  [Action.unset Interface.addsub, Action.register Interface.addsub,
    Action.unset Interface.fibonacci, Action.register Interface.fibonacci,
    Action.create 0 Interface.addsub, Action.call 0 (Call.add 2 0) quiet]

/-- The addsub server is alone. -/
def alone : List Action :=
  [Action.unset Interface.addsub, Action.register Interface.addsub,
    Action.create 0 Interface.addsub, Action.call 0 (Call.add 2 0) quiet]

theorem alone_right : RightThroughout alone := by
  refine (answers_right_iff (System.run_iff_exec.mpr
    (show System.exec _ _ _ = some _ from rfl))).mpr ?_
  exact System.run_iff_exec.mpr (show System.exec _ _ _ = some _ from rfl)

/-- The addition `2 + 0` returns 1. -/
theorem takeover_wrong :
    exists s, system.Run first takeover s ∧
      (Call.add 2 0, (1 : CInt)) ∈ s.log ∧ ¬ AllRight s := by
  refine ⟨_, System.run_iff_exec.mpr
    (show System.exec _ _ _ = some _ from rfl), ?_, ?_⟩
  · exact List.mem_cons_self
  · intro hall
    have hwrong : (1 : CInt) = 2 + 0 :=
      hall (Call.add 2 0) 1 List.mem_cons_self
    exact absurd hwrong (by decide)

end RPC
end IPPD
