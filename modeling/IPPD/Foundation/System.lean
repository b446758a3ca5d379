import Mathlib.Data.Option.Basic
import Mathlib.Tactic.Push

/-!
# Labelled transition systems

Every concurrent program of the development is given as a partial step function
on explicit states.  An action names the thread that moves together with every
choice the scheduler makes for it, so a run is determined by its action list
and can be replayed by evaluation.

The module provides runs, reachable states, the invariant rule, the ranking
rule for termination, restriction of a system to a set of allowed steps, what a
run gives out, maps of the states, and forward simulation between two systems.
-/

namespace IPPD
namespace Foundation

structure System (state : Type u) (action : Type v) where
  /-- Possible first states. -/
  Init : state -> Prop
  /-- The successor, or `none` when the action is not enabled. -/
  step : state -> action -> Option state

namespace System

variable {state : Type u} {action : Type v}

/-!
## Runs
-/

inductive Run (M : System state action) :
    state -> List action -> state -> Prop where
  | nil (s : state) : Run M s [] s
  | cons {s t u : state} {a : action} {tr : List action} :
      M.step s a = some t -> Run M t tr u -> Run M s (a :: tr) u

/-- Replay an action list by evaluation. -/
def exec (M : System state action) : state -> List action -> Option state
  | s, [] => some s
  | s, a :: tr =>
      match M.step s a with
      | none => none
      | some t => exec M t tr

theorem run_iff_exec {M : System state action} {s t : state}
    {tr : List action} :
    Run M s tr t <-> M.exec s tr = some t := by
  constructor
  · intro h
    induction h with
    | nil s => rfl
    | cons hstep _ ih =>
        simpa [exec, hstep] using ih
  · intro h
    induction tr generalizing s with
    | nil =>
        cases h
        exact Run.nil _
    | cons a rest ih =>
        unfold exec at h
        cases hstep : M.step s a with
        | none =>
            rw [hstep] at h
            cases h
        | some u =>
            rw [hstep] at h
            exact Run.cons hstep (ih h)

theorem run_append {M : System state action} {s t u : state}
    {front back : List action}
    (hfront : Run M s front t) (hback : Run M t back u) :
    Run M s (front ++ back) u := by
  induction hfront with
  | nil _ => exact hback
  | cons hstep _ ih => exact Run.cons hstep (ih hback)

theorem run_append_inv {M : System state action} {s t : state}
    {front back : List action} (h : Run M s (front ++ back) t) :
    exists u, Run M s front u ∧ Run M u back t := by
  induction front generalizing s with
  | nil => exact ⟨s, Run.nil s, h⟩
  | cons a front ih =>
      cases h with
      | cons hstep hrest =>
          rcases ih hrest with ⟨u, hfront, hback⟩
          exact ⟨u, Run.cons hstep hfront, hback⟩

theorem run_unique {M : System state action} {s t t' : state}
    {tr : List action} (h : Run M s tr t) (h' : Run M s tr t') : t = t' := by
  have hexec := run_iff_exec.mp h
  rw [run_iff_exec.mp h'] at hexec
  exact (Option.some_inj.mp hexec).symm

theorem run_single {M : System state action} {s t : state} {a : action}
    (hstep : M.step s a = some t) : Run M s [a] t :=
  Run.cons hstep (Run.nil t)

theorem run_preserves {M : System state action} {P : state -> Prop}
    (hstep : forall {s a t}, P s -> M.step s a = some t -> P t)
    {s t : state} {tr : List action}
    (hrun : Run M s tr t) (hs : P s) : P t := by
  induction hrun with
  | nil _ => exact hs
  | cons h _ ih => exact ih (hstep hs h)

/-!
## Reachable states
-/

def Reachable (M : System state action) (t : state) : Prop :=
  exists s tr, M.Init s ∧ Run M s tr t

theorem reachable_init {M : System state action} {s : state}
    (h : M.Init s) : M.Reachable s :=
  ⟨s, [], h, Run.nil s⟩

theorem reachable_run {M : System state action} {s t : state}
    {tr : List action} (hs : M.Reachable s) (hrun : Run M s tr t) :
    M.Reachable t := by
  rcases hs with ⟨s0, tr0, hinit, hrun0⟩
  exact ⟨s0, tr0 ++ tr, hinit, run_append hrun0 hrun⟩

theorem reachable_step {M : System state action} {s t : state} {a : action}
    (hs : M.Reachable s) (hstep : M.step s a = some t) : M.Reachable t :=
  reachable_run hs (run_single hstep)

/-- The invariant rule.  A step may use that its source is reachable, so that
invariants proved earlier are available. -/
theorem reachable_invariant {M : System state action} {P : state -> Prop}
    (hinit : forall {s}, M.Init s -> P s)
    (hstep : forall {s a t},
      M.Reachable s -> P s -> M.step s a = some t -> P t)
    {s : state} (h : M.Reachable s) : P s := by
  rcases h with ⟨s0, tr, hs0, hrun⟩
  have hboth : M.Reachable s ∧ P s :=
    run_preserves (P := fun x => M.Reachable x ∧ P x)
      (fun hx hxy =>
        ⟨reachable_step hx.left hxy, hstep hx.left hx.right hxy⟩)
      hrun ⟨reachable_init hs0, hinit hs0⟩
  exact hboth.right

/-!
## Stuck states and termination
-/

def Stuck (M : System state action) (s : state) : Prop :=
  forall a, M.step s a = none

/-- A rank that drops at every step taken where `P` holds. -/
def Ranked (M : System state action) (P : state -> Prop)
    (rank : state -> Nat) : Prop :=
  forall {s a t}, P s -> M.step s a = some t -> rank t < rank s

theorem run_length_le_rank {M : System state action} {P : state -> Prop}
    {rank : state -> Nat} (hrank : Ranked M P rank)
    (hkeep : forall {s a t}, P s -> M.step s a = some t -> P t)
    {s t : state} {tr : List action}
    (hrun : Run M s tr t) (hs : P s) : tr.length + rank t ≤ rank s := by
  induction hrun with
  | nil _ => simp
  | cons hstep _ ih =>
      have hdrop := hrank hs hstep
      have hrest := ih (hkeep hs hstep)
      rw [List.length_cons]
      lia

theorem exists_run_stuck {M : System state action} {P : state -> Prop}
    {rank : state -> Nat} (hrank : Ranked M P rank)
    (hkeep : forall {s a t}, P s -> M.step s a = some t -> P t)
    {s : state} (hs : P s) :
    exists tr t, Run M s tr t ∧ P t ∧ Stuck M t := by
  induction hn : rank s using Nat.strongRecOn generalizing s with
  | _ n ih =>
      by_cases hstuck : Stuck M s
      · exact ⟨[], s, Run.nil s, hs, hstuck⟩
      · unfold Stuck at hstuck
        push Not at hstuck
        rcases hstuck with ⟨a, ha⟩
        rcases Option.ne_none_iff_exists'.mp ha with ⟨u, hstep⟩
        have hdrop : rank u < n := hn ▸ hrank hs hstep
        rcases ih (rank u) hdrop (hkeep hs hstep) rfl with
          ⟨tr, t, hrun, ht, hend⟩
        exact ⟨a :: tr, t, Run.cons hstep hrun, ht, hend⟩

/-- A ranked system can always be run to an end. -/
theorem exists_reachable_stuck {M : System state action}
    {rank : state -> Nat} (hrank : Ranked M M.Reachable rank)
    {s : state} (hs : M.Reachable s) :
    exists t, M.Reachable t ∧ Stuck M t := by
  rcases exists_run_stuck hrank reachable_step hs with ⟨_, t, _, ht, hstuck⟩
  exact ⟨t, ht, hstuck⟩

/-- All runs from `s` end, after at most `bound` steps, and then `P` holds. -/
structure Ends (M : System state action) (s : state) (bound : Nat)
    (P : state -> Prop) : Prop where
  bounded : forall {tr t}, Run M s tr t -> tr.length ≤ bound
  ended : forall {tr t}, Run M s tr t -> Stuck M t -> P t

theorem Ends.exists_run {M : System state action} {s t : state} {bound : Nat}
    {P : state -> Prop} {tr : List action} (h : Ends M s bound P)
    (hrun : Run M s tr t) :
    exists tr' t', Run M t tr' t' ∧ Stuck M t' ∧ P t' := by
  induction hleft : bound - tr.length generalizing t tr with
  | zero =>
      have hstuck : Stuck M t := by
        intro a
        by_contra ha
        rcases Option.ne_none_iff_exists'.mp ha with ⟨u, hstep⟩
        have hlength := h.bounded (run_append hrun (run_single hstep))
        rw [List.length_append, List.length_singleton] at hlength
        lia
      exact ⟨[], t, Run.nil t, hstuck, h.ended hrun hstuck⟩
  | succ left ih =>
      by_cases hstuck : Stuck M t
      · exact ⟨[], t, Run.nil t, hstuck, h.ended hrun hstuck⟩
      · unfold Stuck at hstuck
        push Not at hstuck
        rcases hstuck with ⟨a, ha⟩
        rcases Option.ne_none_iff_exists'.mp ha with ⟨u, hstep⟩
        rcases ih (run_append hrun (run_single hstep))
          (by rw [List.length_append, List.length_singleton]; lia) with
          ⟨tr', t', hrest, hend⟩
        exact ⟨a :: tr', t', Run.cons hstep hrest, hend⟩

theorem Ends.complete {M : System state action} {s t : state} {bound : Nat}
    {P : state -> Prop} {tr : List action} (h : Ends M s bound P)
    (hrun : Run M s tr t) :
    exists tr' t', Run M s (tr ++ tr') t' ∧ Stuck M t' := by
  rcases h.exists_run hrun with ⟨tr', t', hrest, hstuck, _⟩
  exact ⟨tr', t', run_append hrun hrest, hstuck⟩

/-!
## Restricting the allowed steps

Restriction expresses both a scheduling policy (which threads may run for now)
and the condition "no step of this kind is ever taken".
-/

def restrict (M : System state action) (allowed : state -> action -> Prop)
    [forall s a, Decidable (allowed s a)] : System state action where
  Init := M.Init
  step s a := if allowed s a then M.step s a else none

section Restrict

variable {M : System state action} {allowed : state -> action -> Prop}
variable [forall s a, Decidable (allowed s a)]

theorem restrict_step_eq_some {s t : state} {a : action} :
    (M.restrict allowed).step s a = some t <->
      allowed s a ∧ M.step s a = some t := by
  simp [restrict]

/-- Run one phase of a schedule: take allowed steps until none is left.  The
phase ends because the whole system is ranked. -/
theorem exists_phase (allowed : state -> action -> Prop)
    [forall s a, Decidable (allowed s a)] {rank : state -> Nat}
    (hrank : Ranked M M.Reachable rank) {I : state -> Prop}
    (hkeep : forall {s a t}, M.Reachable s -> I s -> allowed s a ->
      M.step s a = some t -> I t)
    {s : state} (hs : M.Reachable s) (hI : I s) :
    exists t, M.Reachable t ∧ I t ∧
      forall a, allowed t a -> M.step t a = none := by
  have hrank' : Ranked (M.restrict allowed)
      (fun x => M.Reachable x ∧ I x) rank := by
    intro x a y hx hstep
    exact hrank hx.left (restrict_step_eq_some.mp hstep).right
  have hkeep' : forall {x a y}, (M.Reachable x ∧ I x) ->
      (M.restrict allowed).step x a = some y -> M.Reachable y ∧ I y := by
    intro x a y hx hstep
    rcases restrict_step_eq_some.mp hstep with ⟨ha, hxy⟩
    exact ⟨reachable_step hx.left hxy, hkeep hx.left hx.right ha hxy⟩
  rcases exists_run_stuck hrank' hkeep' ⟨hs, hI⟩ with
    ⟨tr, t, _, ht, hstuck⟩
  refine ⟨t, ht.left, ht.right, ?_⟩
  intro a ha
  simpa [restrict, ha] using hstuck a

theorem run_of_restrict {s t : state} {tr : List action}
    (h : Run (M.restrict allowed) s tr t) : Run M s tr t := by
  induction h with
  | nil s => exact Run.nil s
  | cons hstep _ ih =>
      exact Run.cons (restrict_step_eq_some.mp hstep).right ih

theorem run_restrict_or_split (allowed : state -> action -> Prop)
    [forall s a, Decidable (allowed s a)] {s t : state} {tr : List action}
    (h : Run M s tr t) :
    Run (M.restrict allowed) s tr t ∨
      exists front u a v back, tr = front ++ a :: back ∧
        Run (M.restrict allowed) s front u ∧ ¬ allowed u a ∧
          M.step u a = some v ∧ Run M v back t := by
  induction h with
  | nil s => exact Or.inl (Run.nil s)
  | cons hstep hrest ih =>
      rename_i s u t a tr
      by_cases ha : allowed s a
      · have hstep' : (M.restrict allowed).step s a = some u :=
          restrict_step_eq_some.mpr ⟨ha, hstep⟩
        rcases ih with hgood |
          ⟨front, w, b, v, back, htr, hfront, hb, hbad, hback⟩
        · exact Or.inl (Run.cons hstep' hgood)
        · exact Or.inr ⟨a :: front, w, b, v, back, by rw [htr]; rfl,
            Run.cons hstep' hfront, hb, hbad, hback⟩
      · exact Or.inr ⟨[], s, a, u, tr, rfl, Run.nil s, ha, hstep, hrest⟩

theorem run_restrict_or_violates (allowed : state -> action -> Prop)
    [forall s a, Decidable (allowed s a)] {s t : state} {tr : List action}
    (h : Run M s tr t) :
    Run (M.restrict allowed) s tr t ∨
      exists front u a v back,
        Run (M.restrict allowed) s front u ∧ ¬ allowed u a ∧
          M.step u a = some v ∧ Run M v back t := by
  rcases run_restrict_or_split allowed h with hgood |
    ⟨front, u, a, v, back, _, hfront, ha, hbad, hback⟩
  · exact Or.inl hgood
  · exact Or.inr ⟨front, u, a, v, back, hfront, ha, hbad, hback⟩

end Restrict

/-!
## Observing a run
-/

section Observe

variable {out : Type w}

/-- What the steps of a run give out, in order. -/
def observe (M : System state action) (obs : state -> action -> Option out) :
    state -> List action -> List out
  | _, [] => []
  | s, a :: tr =>
      match M.step s a with
      | none => []
      | some t => (obs s a).toList ++ observe M obs t tr

theorem run_observe {M : System state action}
    {obs : state -> action -> Option out} {P : state -> List out -> Prop}
    (hstep : forall {s a t l}, P s l -> M.step s a = some t ->
      P t (l ++ (obs s a).toList))
    {s t : state} {tr : List action} (hrun : Run M s tr t) {l : List out}
    (h : P s l) : P t (l ++ M.observe obs s tr) := by
  induction hrun generalizing l with
  | nil s => simpa [observe] using h
  | cons hst _ ih =>
      have hrest := ih (hstep h hst)
      rw [List.append_assoc] at hrest
      rw [observe, hst]
      exact hrest

end Observe

/-!
## Mapping the states

A map of the states that commutes with every step carries the runs of one
system to the runs of another, and these are all runs from a mapped state.
-/

section Map

variable {state' : Type w} {M : System state action}
variable {N : System state' action} {g : state -> state'}

theorem run_map (hstep : forall s a, N.step (g s) a = (M.step s a).map g)
    {s t : state} {tr : List action} (h : Run M s tr t) :
    Run N (g s) tr (g t) := by
  induction h with
  | nil s => exact Run.nil (g s)
  | cons hst _ ih =>
      apply Run.cons _ ih
      rw [hstep, hst]
      rfl

theorem exists_run_of_run_map
    (hstep : forall s a, N.step (g s) a = (M.step s a).map g)
    {s : state} {u : state'} {tr : List action} (h : Run N (g s) tr u) :
    exists t, Run M s tr t ∧ g t = u := by
  induction tr generalizing s with
  | nil =>
      cases h
      exact ⟨s, Run.nil s, rfl⟩
  | cons a tr ih =>
      cases h with
      | cons hsu hrest =>
          rw [hstep] at hsu
          rcases Option.map_eq_some_iff.mp hsu with ⟨t, hst, ht⟩
          rw [← ht] at hrest
          rcases ih hrest with ⟨t', hrun, ht'⟩
          exact ⟨t', Run.cons hst hrun, ht'⟩

theorem reachable_map_iff
    (hinit : forall u, N.Init u <-> exists s, M.Init s ∧ g s = u)
    (hstep : forall s a, N.step (g s) a = (M.step s a).map g)
    {u : state'} :
    N.Reachable u <-> exists t, M.Reachable t ∧ g t = u := by
  constructor
  · intro h
    rcases h with ⟨u0, tr, hu0, hrun⟩
    rcases (hinit u0).mp hu0 with ⟨s, hs, hg⟩
    rw [← hg] at hrun
    rcases exists_run_of_run_map hstep hrun with ⟨t, hrun', ht⟩
    exact ⟨t, ⟨s, tr, hs, hrun'⟩, ht⟩
  · intro h
    rcases h with ⟨t, ⟨s, tr, hs, hrun⟩, ht⟩
    rw [← ht]
    exact ⟨g s, tr, (hinit (g s)).mpr ⟨s, hs, rfl⟩, run_map hstep hrun⟩

theorem exists_reachable_map_iff {out : Type w'} {out' : Type x}
    {φ : out -> out'} (shown : state -> Option out)
    (shown' : state' -> Option out')
    (hshown : forall s, shown' (g s) = (shown s).map φ)
    (hreach : forall {u}, N.Reachable u <->
      exists t, M.Reachable t ∧ g t = u)
    (v : out') :
    (exists u, N.Reachable u ∧ shown' u = some v) <->
      exists w, (exists s, M.Reachable s ∧ shown s = some w) ∧ φ w = v := by
  constructor
  · intro h
    rcases h with ⟨u, hu, hv⟩
    rcases hreach.mp hu with ⟨s, hs, hsu⟩
    rw [← hsu, hshown] at hv
    rcases Option.map_eq_some_iff.mp hv with ⟨w, hw, hwv⟩
    exact ⟨w, ⟨s, hs, hw⟩, hwv⟩
  · intro h
    rcases h with ⟨w, ⟨s, hs, hw⟩, hwv⟩
    refine ⟨g s, hreach.mpr ⟨s, hs, rfl⟩, ?_⟩
    rw [hshown, hw, ← hwv]
    rfl

end Map

/-!
## Forward simulation

A concrete step may be matched by any number of abstract steps, none included.
-/

structure Simulation {cstate : Type u} {caction : Type v}
    {astate : Type w} {aaction : Type x}
    (C : System cstate caction) (A : System astate aaction) where
  Rel : cstate -> astate -> Prop
  init : forall {s}, C.Init s -> exists t, A.Init t ∧ Rel s t
  step : forall {s a s' t}, C.Reachable s -> A.Reachable t -> Rel s t ->
    C.step s a = some s' -> exists tr t', A.Run t tr t' ∧ Rel s' t'

theorem Simulation.reachable {cstate : Type u} {caction : Type v}
    {astate : Type w} {aaction : Type x}
    {C : System cstate caction} {A : System astate aaction}
    (F : Simulation C A) {s : cstate} (h : C.Reachable s) :
    exists t, A.Reachable t ∧ F.Rel s t := by
  refine reachable_invariant
    (P := fun s => exists t, A.Reachable t ∧ F.Rel s t) ?_ ?_ h
  · intro s hs
    rcases F.init hs with ⟨t, ht, hrel⟩
    exact ⟨t, reachable_init ht, hrel⟩
  · intro s a s' hs hex hstep
    rcases hex with ⟨t, ht, hrel⟩
    rcases F.step hs ht hrel hstep with ⟨tr, t', hrun, hrel'⟩
    exact ⟨t', reachable_run ht hrun, hrel'⟩

end System
end Foundation
end IPPD
