import IPPD.Foundation.MessagePassing

/-!
# Communicators

The ranks of a communicator each run a sequential program that returns a
result.  Messages between two ranks arrive in the order they were sent.  A send
either buffers its message or is over only when the message is received; which
of the two happens is a choice of the scheduler at every send.  A program waits
for its send at once, or starts it, goes on and waits for it later.  A rank has
at most one send that it waits for at a time, and does not send while it has
one.
-/

namespace IPPD
namespace Foundation

inductive Program (value : Type u) (result : Type v) where
  | ret (x : result)
  | send (dest : Int) (v : value) (next : Program value result)
  /-- Start a send. -/
  | isend (dest : Int) (v : value) (next : Program value result)
  /-- Wait for the send that is not received yet. -/
  | wait (next : Program value result)
  | recv (source : Int) (next : value -> Program value result)
  /-- Go on when a message of `source` is there.  Otherwise the call that made
  the test returns, is made again and comes to this test again. -/
  | test (source : Int) (next : Program value result)

namespace Program

variable {value : Type u} {result : Type v} {result' : Type w}

/-- Go on with the result. -/
def bind : Program value result -> (result -> Program value result') ->
    Program value result'
  | ret x, f => f x
  | send dest v next, f => send dest v (next.bind f)
  | isend dest v next, f => isend dest v (next.bind f)
  | wait next, f => wait (next.bind f)
  | recv source next, f => recv source fun x => (next x).bind f
  | test source next, f => test source (next.bind f)

end Program

namespace Communicator

open MessagePassing

variable {value : Type u} {result : Type v} {n : Nat}

/-!
## States and steps
-/

structure State (value : Type u) (result : Type v) (n : Nat) where
  code : Fin n -> Program value result
  /-- The receiver of the send that a rank has to wait for. -/
  pending : Fin n -> Option (Fin n)
  /-- The messages from one rank to another, the oldest first. -/
  chan : Fin n × Fin n -> List value

inductive Action (n : Nat) where
  | send (r : Fin n) (sync : Bool)
  | isend (r : Fin n) (sync : Bool)
  | wait (r : Fin n)
  | recv (r : Fin n)
  /-- A test that finds a message. -/
  | test (r : Fin n)
  /-- A test that finds none. -/
  | miss (r : Fin n)

def Action.rank : Action n -> Fin n
  | send r _ => r
  | isend r _ => r
  | wait r => r
  | recv r => r
  | test r => r
  | miss r => r

/-- Every step but a test that finds no message gets its rank further. -/
def Action.moves : Action n -> Bool
  | miss _ => false
  | _ => true

/-- What a step does to the messages. -/
inductive Change (value : Type u) (n : Nat) where
  | none
  | push (r q : Fin n) (v : value)
  | pop (r q : Fin n)

def Change.apply : Change value n -> (Fin n × Fin n -> List value) ->
    Fin n × Fin n -> List value
  | none, chan => chan
  | push r q v, chan => Function.update chan (r, q) (chan (r, q) ++ [v])
  | pop r q, chan => Function.update chan (r, q) (chan (r, q)).tail

/-- What a step does: the program and the pending send of its rank afterwards,
and the change of the messages. -/
structure Effect (value : Type u) (result : Type v) (n : Nat) where
  code : Program value result
  pending : Option (Fin n)
  change : Change value n

def Effect.apply (e : Effect value result n) (r : Fin n)
    (s : State value result n) : State value result n where
  code := Function.update s.code r e.code
  pending := Function.update s.pending r e.pending
  chan := e.change.apply s.chan

def effect (s : State value result n) : Action n -> Option (Effect value result n)
  | Action.send r sync =>
      match s.code r, s.pending r with
      | Program.send dest v next, none =>
          (rankOf? n dest).map fun q =>
            if sync then ⟨Program.wait next, some q, Change.push r q v⟩
            else ⟨next, none, Change.push r q v⟩
      | _, _ => none
  | Action.isend r sync =>
      match s.code r, s.pending r with
      | Program.isend dest v next, none =>
          (rankOf? n dest).map fun q =>
            ⟨next, if sync then some q else none, Change.push r q v⟩
      | _, _ => none
  | Action.wait r =>
      match s.code r, s.pending r with
      | Program.wait next, none => some ⟨next, none, Change.none⟩
      | Program.wait next, some q =>
          match s.chan (r, q) with
          | [] => some ⟨next, none, Change.none⟩
          | _ :: _ => none
      | _, _ => none
  | Action.recv r =>
      match s.code r with
      | Program.recv source next =>
          (rankOf? n source).bind fun q =>
            match s.chan (q, r) with
            | v :: _ => some ⟨next v, s.pending r, Change.pop q r⟩
            | [] => none
      | _ => none
  | Action.test r =>
      match s.code r with
      | Program.test source next =>
          (rankOf? n source).bind fun q =>
            match s.chan (q, r) with
            | _ :: _ => some ⟨next, s.pending r, Change.none⟩
            | [] => none
      | _ => none
  | Action.miss _ => none

/-- The rank is at a test and the message is not there. -/
def missing (s : State value result n) (r : Fin n) : Bool :=
  match s.code r with
  | Program.test source _ =>
      match rankOf? n source with
      | some q => (s.chan (q, r)).isEmpty
      | none => false
  | _ => false

def step (s : State value result n) (a : Action n) :
    Option (State value result n) :=
  match a with
  | Action.miss r => if missing s r then some s else none
  | _ => (effect s a).map fun e => e.apply a.rank s

/-- No message is under way and no rank waits for a send. -/
def quiet (code : Fin n -> Program value result) : State value result n where
  code := code
  pending := fun _ => none
  chan := fun _ => []

def system (code : Fin n -> Program value result) :
    System (State value result n) (Action n) where
  Init s := s = quiet code
  step := step

theorem step_of_effect {s : State value result n} {a : Action n}
    {e : Effect value result n} (h : effect s a = some e) :
    step s a = some (e.apply a.rank s) := by
  cases a with
  | miss r => simp [effect] at h
  | _ => simp [step, h]

/-- A step gets its rank further or changes nothing. -/
theorem step_cases {s t : State value result n} {a : Action n}
    (h : step s a = some t) :
    (exists e, effect s a = some e ∧ t = e.apply a.rank s) ∨
      a.moves = false ∧ t = s := by
  cases a with
  | miss r =>
      right
      simp only [step] at h
      split at h
      · exact ⟨rfl, (Option.some_inj.mp h).symm⟩
      · cases h
  | _ =>
      left
      simp only [step] at h
      rcases Option.map_eq_some_iff.mp h with ⟨e, he, ht⟩
      exact ⟨e, he, ht.symm⟩

theorem moves_of_effect {s : State value result n} {a : Action n}
    {e : Effect value result n} (h : effect s a = some e) : a.moves = true := by
  cases a with
  | miss r => simp [effect] at h
  | _ => rfl

/-!
## Steps of different ranks commute
-/

/-- The rank that a change belongs to. -/
def Change.Of : Change value n -> Fin n -> Prop
  | none, _ => True
  | push r _ _, a => r = a
  | pop _ q, a => q = a

/-- A message is taken only from where there is one. -/
def Change.Fits (chan : Fin n × Fin n -> List value) : Change value n -> Prop
  | pop r q => chan (r, q) ≠ []
  | _ => True

theorem modify_comm {key val : Type*} [DecidableEq key] (m : key -> val)
    (f g : val -> val) {k l : key} (h : k = l -> f (g (m l)) = g (f (m l))) :
    let mg := Function.update m l (g (m l))
    let mf := Function.update m k (f (m k))
    Function.update mg k (f (mg k)) = Function.update mf l (g (mf l)) := by
  intro mg mf
  by_cases hkl : k = l
  · subst hkl
    simp [mg, mf, h rfl]
  · have hlk : l ≠ k := fun h' => hkl h'.symm
    simp only [mg, mf, Function.update_of_ne hkl, Function.update_of_ne hlk]
    exact Function.update_comm hlk _ _ _

theorem Change.apply_comm {c d : Change value n} {a b : Fin n} (hab : a ≠ b)
    (hc : c.Of a) (hd : d.Of b) {chan : Fin n × Fin n -> List value}
    (hcf : c.Fits chan) (hdf : d.Fits chan) :
    c.apply (d.apply chan) = d.apply (c.apply chan) := by
  cases c with
  | none => rfl
  | push r q v =>
      cases d with
      | none => rfl
      | push r' q' v' =>
          apply modify_comm chan (· ++ [v]) (· ++ [v'])
          intro h
          cases hc
          cases hd
          exact absurd (congrArg Prod.fst h) hab
      | pop r' q' =>
          apply modify_comm chan (· ++ [v]) List.tail
          intro _
          exact (List.tail_append_of_ne_nil hdf).symm
  | pop r q =>
      cases d with
      | none => rfl
      | push r' q' v' =>
          apply modify_comm chan List.tail (· ++ [v'])
          intro h
          rw [← h]
          exact List.tail_append_of_ne_nil hcf
      | pop r' q' =>
          apply modify_comm chan List.tail List.tail
          intro h
          cases hc
          cases hd
          exact absurd (congrArg Prod.snd h) hab

theorem effect_own {s : State value result n} {a : Action n}
    {e : Effect value result n} (h : effect s a = some e) :
    e.change.Of a.rank ∧ e.change.Fits s.chan := by
  cases a with
  | send r sync =>
      simp only [effect] at h
      split at h
      · rcases Option.map_eq_some_iff.mp h with ⟨q, _, rfl⟩
        cases sync <;> exact ⟨rfl, trivial⟩
      · cases h
  | isend r sync =>
      simp only [effect] at h
      split at h
      · rcases Option.map_eq_some_iff.mp h with ⟨q, _, rfl⟩
        exact ⟨rfl, trivial⟩
      · cases h
  | wait r =>
      simp only [effect] at h
      split at h
      · cases h
        exact ⟨trivial, trivial⟩
      · split at h
        · cases h
          exact ⟨trivial, trivial⟩
        · cases h
      · cases h
  | recv r =>
      simp only [effect] at h
      split at h
      · rcases Option.bind_eq_some_iff.mp h with ⟨q, _, h'⟩
        split at h'
        · rename_i hchan
          cases h'
          exact ⟨rfl, by simp [Change.Fits, hchan]⟩
        · cases h'
      · cases h
  | test r =>
      simp only [effect] at h
      split at h
      · rcases Option.bind_eq_some_iff.mp h with ⟨q, _, h'⟩
        split at h'
        · cases h'
          exact ⟨trivial, trivial⟩
        · cases h'
      · cases h
  | miss r => cases h

/-- What the steps of the other ranks keep for rank `r`. -/
structure Keeps (r : Fin n) (s t : State value result n) : Prop where
  code : t.code r = s.code r
  pending : t.pending r = s.pending r
  sent : forall q, s.chan (r, q) = [] -> t.chan (r, q) = []
  there : forall q v l, s.chan (q, r) = v :: l ->
    exists l', t.chan (q, r) = v :: l'

theorem Keeps.effect_eq {s t : State value result n} {a : Action n}
    (hk : Keeps a.rank s t) {e : Effect value result n}
    (h : effect s a = some e) : effect t a = some e := by
  rcases hk with ⟨hcode, hpending, hsent, hthere⟩
  cases a with
  | send r sync =>
      simp only [effect, Action.rank] at *
      rw [hcode, hpending]
      exact h
  | isend r sync =>
      simp only [effect, Action.rank] at *
      rw [hcode, hpending]
      exact h
  | wait r =>
      simp only [effect, Action.rank] at *
      rw [hcode, hpending]
      split at h
      · exact h
      · split at h
        · rename_i hq
          rw [hsent _ hq]
          exact h
        · cases h
      · cases h
  | recv r =>
      simp only [effect, Action.rank] at *
      rw [hcode]
      split at h
      · rcases Option.bind_eq_some_iff.mp h with ⟨q, hq, h'⟩
        split at h'
        · rename_i hchan
          rcases hthere _ _ _ hchan with ⟨l', hl'⟩
          rw [hpending]
          simp only [hq, Option.bind_some, hl']
          exact h'
        · cases h'
      · cases h
  | test r =>
      simp only [effect, Action.rank] at *
      rw [hcode]
      split at h
      · rcases Option.bind_eq_some_iff.mp h with ⟨q, hq, h'⟩
        split at h'
        · rename_i hchan
          rcases hthere _ _ _ hchan with ⟨l', hl'⟩
          rw [hpending]
          simp only [hq, Option.bind_some, hl']
          exact h'
        · cases h'
      · cases h
  | miss r => cases h

theorem keeps_apply {s : State value result n} {r b : Fin n} (hrb : r ≠ b)
    {f : Effect value result n} (hf : f.change.Of b) :
    Keeps r s (f.apply b s) := by
  rcases f with ⟨code, pending, change⟩
  constructor
  case code => exact Function.update_of_ne hrb _ _
  case pending => exact Function.update_of_ne hrb _ _
  case sent =>
    intro q hq
    cases change with
    | none => exact hq
    | push b' q' v =>
        cases hf
        have hne : (r, q) ≠ (b, q') := fun h => hrb (congrArg Prod.fst h)
        simp [Effect.apply, Change.apply, Function.update_of_ne hne, hq]
    | pop q' b' =>
        by_cases hkey : (r, q) = (q', b')
        · simp [Effect.apply, Change.apply, ← hkey, hq]
        · simp [Effect.apply, Change.apply, Function.update_of_ne hkey, hq]
  case there =>
    intro q v l hq
    cases change with
    | none => exact ⟨l, hq⟩
    | push b' q' v' =>
        by_cases hkey : (q, r) = (b', q')
        · exact ⟨l ++ [v'], by simp [Effect.apply, Change.apply, ← hkey, hq]⟩
        · exact ⟨l, by
            simp [Effect.apply, Change.apply, Function.update_of_ne hkey, hq]⟩
    | pop q' b' =>
        cases hf
        have hne : (q, r) ≠ (q', b) := fun h => hrb (congrArg Prod.snd h)
        exact ⟨l, by
          simp [Effect.apply, Change.apply, Function.update_of_ne hne, hq]⟩

theorem effect_stable {s : State value result n} {a b : Action n}
    (hab : a.rank ≠ b.rank) {e f : Effect value result n}
    (ha : effect s a = some e) (hb : effect s b = some f) :
    effect (f.apply b.rank s) a = some e :=
  (keeps_apply hab (effect_own hb).left).effect_eq ha

theorem Effect.apply_comm {s : State value result n} {a b : Fin n}
    (hab : a ≠ b) {e f : Effect value result n} (he : e.change.Of a)
    (hef : e.change.Fits s.chan) (hf : f.change.Of b)
    (hff : f.change.Fits s.chan) :
    e.apply a (f.apply b s) = f.apply b (e.apply a s) := by
  simp only [Effect.apply, State.mk.injEq]
  exact ⟨Function.update_comm hab.symm _ _ _,
    Function.update_comm hab.symm _ _ _,
    Change.apply_comm hab he hf hef hff⟩

/-- Steps of different ranks commute. -/
theorem apply_comm {s : State value result n} {a b : Action n}
    (hab : a.rank ≠ b.rank) {e f : Effect value result n}
    (ha : effect s a = some e) (hb : effect s b = some f) :
    e.apply a.rank (f.apply b.rank s) = f.apply b.rank (e.apply a.rank s) :=
  Effect.apply_comm hab (effect_own ha).left (effect_own ha).right
    (effect_own hb).left (effect_own hb).right

/-- The same step, with a buffered send. -/
def Action.eager : Action n -> Action n
  | send r _ => send r false
  | isend r _ => isend r false
  | a => a

/-- The step that a program takes next. -/
def action (r : Fin n) : Program value result -> Option (Action n)
  | Program.ret _ => none
  | Program.send _ _ _ => some (Action.send r false)
  | Program.isend _ _ _ => some (Action.isend r false)
  | Program.wait _ => some (Action.wait r)
  | Program.recv _ _ => some (Action.recv r)
  | Program.test _ _ => some (Action.test r)

theorem action_of_effect {s : State value result n} {a : Action n}
    {e : Effect value result n} (h : effect s a = some e) :
    action a.rank (s.code a.rank) = some a.eager := by
  cases a with
  | send r sync =>
      simp only [effect, Action.rank] at *
      split at h <;> rename_i hcode _
      · rw [hcode]
        rfl
      · cases h
  | isend r sync =>
      simp only [effect, Action.rank] at *
      split at h <;> rename_i hcode _
      · rw [hcode]
        rfl
      · cases h
  | wait r =>
      simp only [effect, Action.rank] at *
      split at h <;> rename_i hcode _
      · rw [hcode]
        rfl
      · rw [hcode]
        rfl
      · cases h
  | recv r =>
      simp only [effect, Action.rank] at *
      split at h <;> rename_i hcode
      · rw [hcode]
        rfl
      · cases h
  | test r =>
      simp only [effect, Action.rank] at *
      split at h <;> rename_i hcode
      · rw [hcode]
        rfl
      · cases h
  | miss r => cases h

/-- Two steps of one rank are the same, but for the mode of a send. -/
theorem action_unique {s : State value result n} {a b : Action n}
    (hab : a.rank = b.rank) {e f : Effect value result n}
    (ha : effect s a = some e) (hb : effect s b = some f) :
    a = b ∨ (exists r x y, a = Action.send r x ∧ b = Action.send r y) ∨
      exists r x y, a = Action.isend r x ∧ b = Action.isend r y := by
  have h := (action_of_effect ha).symm.trans (hab ▸ action_of_effect hb)
  have heq : a.eager = b.eager := Option.some_inj.mp h
  cases a <;> cases b <;> simp_all [Action.eager]

theorem effect_quiet_recv {code : Fin n -> Program value result} {a : Action n}
    {source : Int} {next : value -> Program value result}
    (hcode : code a.rank = Program.recv source next) :
    effect (quiet code) a = none := by
  cases h : effect (quiet code) a with
  | none => rfl
  | some e =>
      have haction := action_of_effect h
      rw [show (quiet code).code a.rank = Program.recv source next from hcode]
        at haction
      cases a with
      | recv r =>
          have hcode' : code r = Program.recv source next := hcode
          simp [effect, quiet, hcode'] at h
      | send r sync => cases haction
      | isend r sync => cases haction
      | wait r => cases haction
      | test r => cases haction
      | miss r => cases haction

end Communicator
end Foundation
end IPPD
