import IPPD.PThreads.ProdCons.Progress

/-!
# Totals of complete runs

The counters start at `N`, but a thread tests its counter only after its own
push or pop, so every thread but one overshoots by one item.  The schedules
below show that the final states this speaks about are reachable for every
admitted number of items and threads.
-/

namespace IPPD
namespace PThreads
namespace ProdCons

open Foundation

variable {nprod ncons : Nat} {N : Int} {spurious : Bool}

/-!
## A schedule that ends with every thread gone

First `main` and the producers run alone.  No consumer has started, so none is
blocked, and from then on the queue holds what the consumers need.
-/

def NoneBlocked (s : State nprod ncons) : Prop :=
  forall j, (s.conss j).isBlocked = false

/-- The phase in which the consumers do not move. -/
def notCons (_ : State nprod ncons) : Action nprod ncons -> Prop
  | Action.cons _ => False
  | _ => True

instance (s : State nprod ncons) (a : Action nprod ncons) :
    Decidable (notCons s a) :=
  match a with
  | Action.cons _ => inferInstanceAs (Decidable False)
  | Action.main | Action.prod _ _ _ | Action.spurious _ =>
      inferInstanceAs (Decidable True)

theorem signalled_noneBlocked {conss conss' : Fin ncons -> ConsThread}
    {b : Queue} {woken : Option (Fin ncons)}
    (h : Signalled conss b woken conss')
    (hnone : forall j, (conss j).isBlocked = false) : conss' = conss := by
  cases h with
  | silent _ => rfl
  | nobody _ _ => rfl
  | @wakes j _ hj =>
      rw [hnone j] at hj
      cases hj

theorem exists_allProdsLeft (nprod ncons : Nat) (hN : 1 ≤ N) :
    exists s, (system false N nprod ncons).Reachable s ∧
      AllProdsLeft s ∧ NoneBlocked s := by
  have hinit : (system false N nprod ncons).Reachable
      (initial N nprod ncons) :=
    System.reachable_init rfl
  have hkeep : forall {s a t}, (system false N nprod ncons).Reachable s ->
      NoneBlocked s -> notCons s a ->
      (system false N nprod ncons).step s a = some t -> NoneBlocked t := by
    intro s a t _ hnone hallowed hstep
    cases moves_of_step hstep with
    | main _ => exact hnone
    | push _ _ hsignal =>
        cases signalled_noneBlocked hsignal hnone
        exact hnone
    | wait _ _ _ => exact hallowed.elim
    | pop _ _ _ => exact hallowed.elim
    | wake hspurious _ => cases hspurious
  rcases System.exists_phase notCons (ranked hN) hkeep hinit (fun _ => rfl) with
    ⟨s, hs, hnone, hquiet⟩
  refine ⟨s, hs, ?_, hnone⟩
  have hmain := mainStep_of_step_none (hquiet Action.main trivial)
  exact allProdsLeft_of_quiet (started_of_mainStep_none hmain).left
    (fun i it woken => hquiet (Action.prod i it woken) trivial)

theorem exists_allLeft (hN : 1 ≤ N) (hpos : 0 < nprod) :
    exists s, (system false N nprod nprod).Reachable s ∧
      AllProdsLeft s ∧ AllConssLeft s := by
  rcases exists_allProdsLeft nprod nprod hN with
    ⟨s, hs, hleft, hnone⟩
  have hkeep : forall {s a t}, (system false N nprod nprod).Reachable s ->
      (AllProdsLeft s ∧ NoneBlocked s) -> True ->
      (system false N nprod nprod).step s a = some t ->
      AllProdsLeft t ∧ NoneBlocked t := by
    intro s a t hs hI _ hstep
    rcases hI with ⟨hleft, hnone⟩
    cases moves_of_step hstep with
    | main _ => exact ⟨hleft, hnone⟩
    | @push i it woken conss _ hloop _ =>
        have hi := hleft i
        rw [ProdThread.not_hasLeft_of_loop hloop] at hi
        cases hi
    | wait _ hactive hb =>
        have hsupply := length_buffer_eq_demand hN hpos hs hleft
        have hdemand := demand_pos_of_not_left
          (ConsThread.not_hasLeft_of_active hactive)
        rw [hb] at hsupply
        simp only [List.length_nil] at hsupply
        lia
    | @pop j it rest _ _ _ =>
        refine ⟨hleft, ?_⟩
        intro k
        by_cases hk : k = j
        · subst hk
          simp only [afterPop, Function.update_self, ConsThread.isBlocked]
          split <;> rfl
        · simpa only [afterPop, Function.update_of_ne hk] using hnone k
    | wake hspurious _ => cases hspurious
  rcases System.exists_phase (fun _ _ => True) (ranked hN) hkeep hs
      ⟨hleft, hnone⟩ with
    ⟨t, ht, htI, hquiet⟩
  refine ⟨t, ht, htI.left, ?_⟩
  intro j
  have hmain := mainStep_of_step_none (hquiet Action.main trivial)
  have hidle := not_isActive_of_quiet (started_of_mainStep_none hmain).right
    (fun k => hquiet (Action.cons k) trivial) j
  exact ConsThread.hasLeft_of_idle hidle (htI.right j)

/-!
## Supply equals demand
-/

/-- Once the producers have left, the queue holds exactly what the consumers
still need, so a state in which everybody has left has an empty queue. -/
theorem supply_eq_demand {s : State nprod nprod} (hN : 100 ≤ N)
    (hnprod : 2 ≤ nprod) (h : (system spurious N nprod nprod).Reachable s)
    (hleft : AllProdsLeft s) :
    (s.shared.b.length : Int) = demand s ∧
      (forall tr t, (system spurious N nprod nprod).Run s tr t ->
        AllConssLeft t ->
          (t.popped.length : Int) - s.popped.length = demand s) ∧
      (AllConssLeft s -> s.shared.b = [] ∧ s.pushed = s.popped) := by
  have hsupply := length_buffer_eq_demand (by lia) (by lia) h hleft
  have hdemand := demand_eq (by lia) h
  refine ⟨hsupply, ?_, ?_⟩
  · intro tr t hrun hall
    have htotal := popped_of_allConssLeft (by lia) (by lia)
      (System.reachable_run h hrun) hall
    lia
  · intro hall
    have htotal := popped_of_allConssLeft (by lia) (by lia) h hall
    have hempty : s.shared.b = [] := by
      apply List.eq_nil_of_length_eq_zero
      lia
    refine ⟨hempty, ?_⟩
    rw [pushed_eq h, hempty, List.append_nil]

theorem supply_eq_demand_hundred_two :
    exists s, (system false 100 2 2).Reachable s ∧ AllProdsLeft s ∧
      (s.shared.b.length : Int) = demand s := by
  rcases exists_allProdsLeft 2 2 (N := 100) (by decide) with
    ⟨s, hs, hleft, _⟩
  exact ⟨s, hs, hleft,
    (supply_eq_demand (by decide) (by decide) hs hleft).left⟩

/-!
## The requested number of items is never the number processed
-/

/-- Whenever all producers have left, exactly `N` items were pushed. -/
def ExactPushes (spurious : Bool) (N : Int) (nprod ncons : Nat) : Prop :=
  forall s, (system spurious N nprod ncons).Reachable s -> AllProdsLeft s ->
    (s.pushed.length : Int) = N

/-- Whenever all consumers have left, exactly `N` items were popped. -/
def ExactPops (spurious : Bool) (N : Int) (nprod ncons : Nat) : Prop :=
  forall s, (system spurious N nprod ncons).Reachable s -> AllConssLeft s ->
    (s.popped.length : Int) = N

theorem exactPushes_iff (hN : 1 ≤ N) (hpos : 0 < nprod) :
    ExactPushes spurious N nprod ncons <-> nprod = 1 := by
  constructor
  · intro h
    rcases exists_allProdsLeft nprod ncons hN with
      ⟨s, hs, hleft, _⟩
    have hs' := reachable_of_reachable_false spurious hs
    have hexact := h s hs' hleft
    have htotal := pushed_of_allProdsLeft hN hpos hs' hleft
    lia
  · intro h s hs hleft
    have htotal := pushed_of_allProdsLeft hN hpos hs hleft
    lia

theorem exactPops_iff (hN : 1 ≤ N) (hpos : 0 < nprod) :
    ExactPops spurious N nprod nprod <-> nprod = 1 := by
  constructor
  · intro h
    rcases exists_allLeft hN hpos with ⟨s, hs, _, hleft⟩
    have hs' := reachable_of_reachable_false spurious hs
    have hexact := h s hs' hleft
    have htotal := popped_of_allConssLeft hN hpos hs' hleft
    lia
  · intro h s hs hleft
    have htotal := popped_of_allConssLeft hN hpos hs hleft
    lia

/-- With two threads or more on each side the program never processes the
requested number of items. -/
theorem not_exact_totals (hN : 100 ≤ N) (hnprod : 2 ≤ nprod) :
    ¬ ExactPushes spurious N nprod nprod ∧
      ¬ ExactPops spurious N nprod nprod := by
  constructor
  · intro h
    have hone := (exactPushes_iff (by lia) (by lia)).mp h
    lia
  · intro h
    have hone := (exactPops_iff (by lia) (by lia)).mp h
    lia

theorem not_exact_totals_hundred_two :
    ¬ ExactPushes false 100 2 2 ∧ ¬ ExactPops false 100 2 2 :=
  not_exact_totals (by decide) (by decide)

theorem overshoot_hundred_two :
    ¬ (ExactPushes false 100 2 2 ∧ ExactPops false 100 2 2) := by
  intro h
  have hone := (exactPushes_iff (by decide) (by decide)).mp h.left
  cases hone

end ProdCons
end PThreads
end IPPD
