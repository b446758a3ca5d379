import IPPD.Foundation.Communicator

/-!
# Schedules without buffering

On one schedule every send waits until its message is received.  A communicator
that gets to its end on this schedule gets there on every other one: the steps
of different ranks commute, and a send that does not wait only lets its rank go
on earlier.  What such a communicator returns can then be found on rounds of
messages that are handed over one by one.
-/

namespace IPPD
namespace Foundation
namespace Communicator

open MessagePassing

variable {value : Type u} {result : Type v} {n : Nat}

/-!
## The schedule
-/

/-- The steps of the schedule on which every send waits for its receive. -/
def Action.waits : Action n -> Bool
  | send _ sync => sync
  | isend _ sync => sync
  | miss _ => false
  | _ => true

/-- So many steps lead from one state to another when every send waits. -/
inductive Rendezvous :
    State value result n -> Nat -> State value result n -> Prop where
  | nil (s : State value result n) : Rendezvous s 0 s
  | cons {s t : State value result n} {a : Action n} {m : Nat}
      {e : Effect value result n} :
      a.waits = true -> effect s a = some e ->
      Rendezvous (e.apply a.rank s) m t -> Rendezvous s (m + 1) t

theorem Rendezvous.append {s t u : State value result n} {l m : Nat}
    (hst : Rendezvous s l t) (htu : Rendezvous t m u) :
    Rendezvous s (l + m) u := by
  induction hst with
  | nil s =>
      rw [Nat.zero_add]
      exact htu
  | cons hw he _ ih =>
      rw [Nat.add_right_comm]
      exact Rendezvous.cons hw he (ih htu)

/-- Every rank has returned and no message is left. -/
def returned (res : Fin n -> result) : State value result n :=
  quiet fun r => Program.ret (res r)

theorem effect_returned (res : Fin n -> result) (a : Action n) :
    effect (returned res : State value result n) a = none := by
  cases h : effect (returned res : State value result n) a with
  | none => rfl
  | some e =>
      have haction := action_of_effect h
      cases haction

/-!
## Every run gets there
-/

/-- A wait that is over. -/
def goOn (next : Program value result) : Effect value result n :=
  ⟨next, none, Change.none⟩

theorem effect_at_wait {s : State value result n} {a : Action n}
    {next : Program value result} (hcode : s.code a.rank = Program.wait next)
    {e : Effect value result n} (h : effect s a = some e) : e = goOn next := by
  have haction := action_of_effect h
  rw [hcode] at haction
  cases a with
  | wait r =>
      simp only [Action.rank] at hcode
      simp only [effect, hcode] at h
      split at h
      · cases h
        rename_i heq _
        cases heq
        rfl
      · split at h
        · cases h
          rename_i heq _ _ _
          cases heq
          rfl
        · cases h
      · cases h
  | send r sync => cases haction
  | isend r sync => cases haction
  | recv r => cases haction
  | test r => cases haction
  | miss r => cases haction

theorem effect_goOn {s : State value result n} {a : Action n}
    {e : Effect value result n} (he : effect s a = some e) {r : Fin n}
    (har : a.rank ≠ r) (p : Program value result) :
    effect ((goOn p).apply r s) a = some e ∧
      e.apply a.rank ((goOn p).apply r s) =
        (goOn p).apply r (e.apply a.rank s) := by
  have hown := effect_own he
  have hkeep : Keeps a.rank s ((goOn p).apply r s) :=
    keeps_apply har (f := goOn p) trivial
  exact ⟨hkeep.effect_eq he,
    Effect.apply_comm har hown.left hown.right trivial trivial⟩

/-- A rank that need not wait gets the others no later to their end. -/
theorem Rendezvous.early {s : State value result n} {m : Nat}
    {res : Fin n -> result} (h : Rendezvous s m (returned res)) {r : Fin n}
    {next : Program value result} (hcode : s.code r = Program.wait next) :
    exists l, l < m ∧ Rendezvous ((goOn next).apply r s) l (returned res) := by
  generalize hend : (returned res : State value result n) = u at h
  induction h with
  | nil s =>
      subst hend
      cases hcode
  | cons hw he hrest ih =>
      rename_i s t a m e
      by_cases har : a.rank = r
      · have hnext : e = goOn next := effect_at_wait (har ▸ hcode) he
        refine ⟨m, Nat.lt_succ_self m, ?_⟩
        rw [← hnext, ← har]
        exact hrest
      · have hcode' : (e.apply a.rank s).code r = Program.wait next := by
          rw [← hcode]
          exact Function.update_of_ne (fun h => har h.symm) _ _
        rcases ih hcode' hend with ⟨l, hl, hrun⟩
        rcases effect_goOn he har next with ⟨he', hcomm⟩
        rw [← hcomm] at hrun
        exact ⟨l + 1, Nat.succ_lt_succ hl, Rendezvous.cons hw he' hrun⟩

/-- The send of the rank need not be waited for any more. -/
def release (r : Fin n) (s : State value result n) : State value result n :=
  (goOn (s.code r)).apply r s

theorem release_eq (r : Fin n) (s : State value result n) :
    release r s = ⟨s.code, Function.update s.pending r none, s.chan⟩ := by
  simp [release, goOn, Effect.apply, Change.apply]

theorem release_eq_self {r : Fin n} {s : State value result n}
    (h : s.pending r = none) : release r s = s := by
  rw [release_eq, ← h, Function.update_eq_self]

theorem effect_release {s : State value result n} {a : Action n}
    {e : Effect value result n} (he : effect s a = some e) :
    exists f, effect (release a.rank s) a = some f ∧
      (f.apply a.rank (release a.rank s) = e.apply a.rank s ∨
        f.apply a.rank (release a.rank s) =
          release a.rank (e.apply a.rank s)) := by
  cases a with
  | send r sync =>
      have hpending : s.pending r = none := by
        simp only [effect] at he
        split at he
        · assumption
        · cases he
      rw [Action.rank, release_eq_self hpending]
      exact ⟨e, he, Or.inl rfl⟩
  | isend r sync =>
      have hpending : s.pending r = none := by
        simp only [effect] at he
        split at he
        · assumption
        · cases he
      rw [Action.rank, release_eq_self hpending]
      exact ⟨e, he, Or.inl rfl⟩
  | wait r =>
      have haction := action_of_effect he
      rw [Action.rank] at *
      cases hcode : s.code r with
      | wait next =>
          have hnext := effect_at_wait (a := Action.wait r) hcode he
          subst hnext
          refine ⟨goOn next, by simp [effect, release_eq, hcode, goOn], ?_⟩
          simp [release_eq, Effect.apply, goOn]
      | _ =>
          rw [hcode] at haction
          cases haction
  | recv r =>
      simp only [effect] at he
      split at he
      · rename_i source next hcode
        rcases Option.bind_eq_some_iff.mp he with ⟨q, hq, he'⟩
        split at he'
        · rename_i v l hchan
          cases he'
          refine ⟨⟨next v, none, Change.pop q r⟩, by
            simp [effect, release_eq, Action.rank, hcode, hq, hchan], ?_⟩
          simp [release_eq, Effect.apply]
        · cases he'
      · cases he
  | test r =>
      simp only [effect] at he
      split at he
      · rename_i source next hcode
        rcases Option.bind_eq_some_iff.mp he with ⟨q, hq, he'⟩
        split at he'
        · rename_i v l hchan
          cases he'
          refine ⟨⟨next, none, Change.none⟩, by
            simp [effect, release_eq, Action.rank, hcode, hq, hchan], ?_⟩
          simp [release_eq, Effect.apply]
        · cases he'
      · cases he
  | miss r => cases he

theorem Rendezvous.release {s : State value result n} {m : Nat}
    {res : Fin n -> result} (h : Rendezvous s m (returned res)) (r : Fin n) :
    Rendezvous (release r s) m (returned res) := by
  generalize hend : (returned res : State value result n) = u at h
  induction h with
  | nil s =>
      subst hend
      have hsame : Communicator.release r (returned res) =
          (returned res : State value result n) := by
        rw [release_eq]
        simp [returned, quiet]
      rw [hsame]
      exact Rendezvous.nil _
  | cons hw he hrest ih =>
      rename_i s t a m e
      by_cases har : a.rank = r
      · subst har
        rcases effect_release he with ⟨f, hf, hsame | hless⟩
        · refine Rendezvous.cons hw hf ?_
          rw [hsame]
          exact hrest
        · refine Rendezvous.cons hw hf ?_
          rw [hless]
          exact ih hend
      · rcases effect_goOn he har (s.code r) with ⟨he', hcomm⟩
        have hcode : (e.apply a.rank s).code r = s.code r :=
          Function.update_of_ne (fun h => har h.symm) _ _
        have hrun := ih hend
        rw [Communicator.release, hcode, ← hcomm] at hrun
        exact Rendezvous.cons hw he' hrun

/-- A send that does not wait is one that waits and need not. -/
theorem effect_buffered {s : State value result n} {r : Fin n}
    {e f : Effect value result n} (he : effect s (Action.send r true) = some e)
    (hf : effect s (Action.send r false) = some f) :
    exists next, (e.apply r s).code r = Program.wait next ∧
      f.apply r s = (goOn next).apply r (e.apply r s) := by
  simp only [effect] at he hf
  split at he
  · rename_i dest v next hcode hpending
    rw [hcode, hpending] at hf
    rcases Option.map_eq_some_iff.mp he with ⟨q, hq, rfl⟩
    rcases Option.map_eq_some_iff.mp hf with ⟨q', hq', rfl⟩
    cases Option.some_inj.mp (hq.symm.trans hq')
    exact ⟨next, by simp [Effect.apply],
      by simp [Effect.apply, goOn, Change.apply]⟩
  · cases he

theorem effect_started {s : State value result n} {r : Fin n}
    {e f : Effect value result n} (he : effect s (Action.isend r true) = some e)
    (hf : effect s (Action.isend r false) = some f) :
    f.apply r s = release r (e.apply r s) := by
  simp only [effect] at he hf
  split at he
  · rename_i dest v next hcode hpending
    rw [hcode, hpending] at hf
    rcases Option.map_eq_some_iff.mp he with ⟨q, hq, rfl⟩
    rcases Option.map_eq_some_iff.mp hf with ⟨q', hq', rfl⟩
    cases Option.some_inj.mp (hq.symm.trans hq')
    simp [release_eq, Effect.apply]
  · cases he

/-- Any step at all takes the communicator towards its end. -/
theorem Rendezvous.after_effect {s : State value result n} {m : Nat}
    {res : Fin n -> result} (h : Rendezvous s m (returned res)) {b : Action n}
    {f : Effect value result n} (hf : effect s b = some f) :
    exists l, l < m ∧ Rendezvous (f.apply b.rank s) l (returned res) := by
  generalize hend : (returned res : State value result n) = u at h
  induction h with
  | nil s =>
      subst hend
      rw [effect_returned] at hf
      cases hf
  | cons hw he hrest ih =>
      rename_i s t a m e
      subst hend
      by_cases hab : a.rank = b.rank
      · rcases action_unique hab he hf with
          hsame | ⟨r, x, y, ha, hb⟩ | ⟨r, x, y, ha, hb⟩
        · subst hsame
          cases Option.some_inj.mp (he.symm.trans hf)
          exact ⟨m, Nat.lt_succ_self m, hrest⟩
        · subst ha
          subst hb
          cases hw
          cases y with
          | true =>
              cases Option.some_inj.mp (he.symm.trans hf)
              exact ⟨m, Nat.lt_succ_self m, hrest⟩
          | false =>
              rcases effect_buffered he hf with ⟨next, hcode, hearly⟩
              rcases hrest.early hcode with ⟨l, hl, hrun⟩
              simp only [Action.rank] at *
              rw [← hearly] at hrun
              exact ⟨l, Nat.lt_succ_of_lt hl, hrun⟩
        · subst ha
          subst hb
          cases hw
          cases y with
          | true =>
              cases Option.some_inj.mp (he.symm.trans hf)
              exact ⟨m, Nat.lt_succ_self m, hrest⟩
          | false =>
              have hrun := hrest.release r
              simp only [Action.rank] at *
              rw [← effect_started he hf] at hrun
              exact ⟨m, Nat.lt_succ_self m, hrun⟩
      · have hba : b.rank ≠ a.rank := fun h => hab h.symm
        rcases ih (effect_stable hba hf he) rfl with ⟨l, hl, hrun⟩
        rw [← apply_comm hab he hf] at hrun
        exact ⟨l + 1, Nat.succ_lt_succ hl,
          Rendezvous.cons hw (effect_stable hab he hf) hrun⟩

theorem Rendezvous.run {s t : State value result n} {m : Nat}
    {res : Fin n -> result} {code : Fin n -> Program value result}
    {tr : List (Action n)} (hrun : System.Run (system code) s tr t)
    (h : Rendezvous s m (returned res)) :
    exists l, Rendezvous t l (returned res) ∧
      (tr.filter Action.moves).length + l ≤ m := by
  induction hrun generalizing m with
  | nil s => exact ⟨m, h, by simp⟩
  | cons hstep _ ih =>
      rename_i s u t a tr
      rcases step_cases hstep with ⟨e, he, rfl⟩ | ⟨hidle, rfl⟩
      · rcases h.after_effect he with ⟨k, hk, hu⟩
        rcases ih hu with ⟨l, ht, hl⟩
        have hmoves := moves_of_effect he
        rw [List.filter_cons_of_pos hmoves, List.length_cons]
        exact ⟨l, ht, by lia⟩
      · rcases ih h with ⟨l, ht, hl⟩
        rw [List.filter_cons_of_neg (by simp [hidle])]
        exact ⟨l, ht, hl⟩

theorem Rendezvous.ret_eq {s : State value result n} {m : Nat}
    {res : Fin n -> result} (h : Rendezvous s m (returned res)) {r : Fin n}
    {x : result} (hcode : s.code r = Program.ret x) : x = res r := by
  generalize hend : (returned res : State value result n) = u at h
  induction h with
  | nil s =>
      subst hend
      cases hcode
      rfl
  | cons hw he hrest ih =>
      rename_i s t a m e
      have har : r ≠ a.rank := by
        intro h
        have haction := action_of_effect he
        rw [← h, hcode] at haction
        cases haction
      exact ih ((Function.update_of_ne har _ _).trans hcode) hend

/-- Every run returns the results: no run goes on for ever, what a rank returns
is right, and as long as a rank has not returned some rank can go on. -/
structure Delivers (code : Fin n -> Program value result)
    (res : Fin n -> result) : Prop where
  bounded : exists m, forall tr t, System.Run (system code) (quiet code) tr t ->
    (tr.filter Action.moves).length ≤ m
  right : forall t, (system code).Reachable t -> forall r x,
    t.code r = Program.ret x -> x = res r
  progress : forall t, (system code).Reachable t ->
    t = returned res ∨ exists a u, a.moves = true ∧ step t a = some u

theorem Rendezvous.delivers {code : Fin n -> Program value result}
    {res : Fin n -> result} {m : Nat}
    (h : Rendezvous (quiet code) m (returned res)) : Delivers code res := by
  have hreach : forall t, (system code).Reachable t ->
      exists l, Rendezvous t l (returned res) := by
    intro t ht
    rcases ht with ⟨s, tr, hs, hrun⟩
    cases hs
    rcases h.run hrun with ⟨l, hl, _⟩
    exact ⟨l, hl⟩
  constructor
  case bounded =>
    refine ⟨m, ?_⟩
    intro tr t hrun
    rcases h.run hrun with ⟨l, _, hl⟩
    exact (Nat.le_add_right _ _).trans hl
  case right =>
    intro t ht r x hx
    rcases hreach t ht with ⟨l, hl⟩
    exact hl.ret_eq hx
  case progress =>
    intro t ht
    rcases hreach t ht with ⟨l, hl⟩
    cases hl with
    | nil => exact Or.inl rfl
    | cons hw he hrest =>
        exact Or.inr ⟨_, _, moves_of_effect he, step_of_effect he⟩

end Communicator
end Foundation
end IPPD
