import IPPD.PThreads.ProdCons.Accounting

/-!
# Conservation and balance

Every item pushed is popped at most once and in order, the two shared counters
count the pushes and the pops, and, with as many consumers as producers, the
overshoot of the producers is exactly the overshoot of the consumers.
-/

namespace IPPD
namespace PThreads
namespace ProdCons

open Foundation

variable {nprod ncons : Nat} {N : Int} {spurious : Bool}

/-!
## Counters
-/

theorem nptotal_eq {s : State nprod ncons} (hN : 1 ≤ N)
    (h : (system spurious N nprod ncons).Reachable s) :
    s.shared.nptotal = N - s.pushed.length := by
  rcases exists_prodCountdown hN h with ⟨c, htotal, hturns, _⟩
  rw [htotal, hturns]
  rfl

theorem nctotal_eq {s : State nprod ncons} (hN : 1 ≤ N)
    (h : (system spurious N nprod ncons).Reachable s) :
    s.shared.nctotal = N - s.popped.length := by
  rcases exists_consCountdown hN h with ⟨c, htotal, hturns, _⟩
  rw [htotal, hturns]
  rfl

theorem cont_prods_eq {s : State nprod ncons}
    (h : (system spurious N nprod ncons).Reachable s) :
    tally ProdThread.cont s.prods = s.pushed.length := by
  refine System.reachable_invariant
    (P := fun s => tally ProdThread.cont s.prods = s.pushed.length) ?_ ?_ h
  · intro s hs
    cases hs
    simp [initial, tally_const]
  · intro s a t _ hs hstep
    cases moves_of_step hstep with
    | main _ => exact hs
    | wait _ _ _ => exact hs
    | pop _ _ _ => exact hs
    | wake _ _ => exact hs
    | @push i it _ _ _ _ _ =>
        have hsum := tally_update ProdThread.cont s.prods i
          { cont := (s.prods i).cont + 1
            pc := if (prodSection s.shared it).fim then ProdPc.left
              else ProdPc.loop }
        simp only [afterPush, List.length_append, List.length_singleton]
        push_cast
        lia

theorem cont_conss_eq {s : State nprod ncons}
    (h : (system spurious N nprod ncons).Reachable s) :
    tally ConsThread.cont s.conss = s.popped.length := by
  refine System.reachable_invariant
    (P := fun s => tally ConsThread.cont s.conss = s.popped.length) ?_ ?_ h
  · intro s hs
    cases hs
    simp [initial, tally_const]
  · intro s a t _ hs hstep
    cases moves_of_step hstep with
    | main _ => exact hs
    | push _ _ hsignal => exact (signalled_tally_cont hsignal).trans hs
    | wait _ _ _ => exact (tally_cont_update _ _ _).trans hs
    | wake _ _ => exact (tally_cont_update _ _ _).trans hs
    | @pop j it rest _ _ _ =>
        have hsum := tally_update ConsThread.cont s.conss j
          { cont := (s.conss j).cont + 1
            pc := if decide (s.shared.nctotal - 1 ≤ 0) then ConsPc.left
              else ConsPc.lock }
        simp only [afterPop, List.length_append, List.length_singleton]
        push_cast
        lia

/-- Conservation and FIFO order, with and without spurious wake-ups. -/
theorem conservation_fifo {s : State nprod ncons} (hN : 100 ≤ N)
    (h : (system spurious N nprod ncons).Reachable s) :
    s.pushed = s.popped ++ s.shared.b ∧
      s.shared.nptotal = N - s.pushed.length ∧
      s.shared.nctotal = N - s.popped.length ∧
      tally ProdThread.cont s.prods = s.pushed.length ∧
      tally ConsThread.cont s.conss = s.popped.length ∧
      consSection s.shared ≠ ConsResult.undefined :=
  ⟨pushed_eq h, nptotal_eq (by lia) h, nctotal_eq (by lia) h,
    cont_prods_eq h, cont_conss_eq h, consSection_ne_undefined s.shared⟩

/-- Two pushes and one pop, as soon as the first consumer exists. -/
def shortTrace : List (Action 2 2) :=
  [Action.main, Action.main, Action.main, Action.main,
    Action.prod 0 7 none, Action.prod 1 8 none, Action.cons 0]

theorem conservation_fifo_shortTrace :
    exists s, (system true 100 2 2).Run (initial 100 2 2) shortTrace s ∧
      s.popped = [7] ∧ s.shared.b = [8] ∧
      s.pushed = s.popped ++ s.shared.b ∧
      s.shared.nptotal = 100 - s.pushed.length ∧
      s.shared.nctotal = 100 - s.popped.length ∧
      tally ProdThread.cont s.prods = s.pushed.length ∧
      tally ConsThread.cont s.conss = s.popped.length ∧
      consSection s.shared ≠ ConsResult.undefined := by
  have hrun := System.run_iff_exec.mpr
    (show (system true 100 2 2).exec (initial 100 2 2) shortTrace = some _
      from rfl)
  exact ⟨_, hrun, rfl, rfl,
    conservation_fifo (by decide) ⟨_, shortTrace, rfl, hrun⟩⟩

/-!
## Supply and demand
-/

def AllProdsLeft (s : State nprod ncons) : Prop :=
  forall i, (s.prods i).hasLeft = true

def AllConssLeft (s : State nprod ncons) : Prop :=
  forall j, (s.conss j).hasLeft = true

/-- Pops the unfinished consumers still have to perform before all of them
leave. -/
def demand (s : State nprod ncons) : Int :=
  if 0 < s.shared.nctotal then s.shared.nctotal + ncons - 1
  else census (fun c => !ConsThread.hasLeft c) s.conss

theorem pushed_of_allProdsLeft {s : State nprod ncons} (hN : 1 ≤ N)
    (hpos : 0 < nprod) (h : (system spurious N nprod ncons).Reachable s)
    (hleft : AllProdsLeft s) : (s.pushed.length : Int) = N + nprod - 1 := by
  rcases exists_prodCountdown hN h with ⟨c, _, hturns, hcensus⟩
  have hall := census_eq_card_iff.mpr hleft
  rw [hcensus, Fintype.card_fin] at hall
  rw [hturns]
  exact c.turns_of_all_left hpos hall

theorem popped_of_allConssLeft {s : State nprod ncons} (hN : 1 ≤ N)
    (hpos : 0 < ncons) (h : (system spurious N nprod ncons).Reachable s)
    (hleft : AllConssLeft s) : (s.popped.length : Int) = N + ncons - 1 := by
  rcases exists_consCountdown hN h with ⟨c, _, hturns, hcensus⟩
  have hall := census_eq_card_iff.mpr hleft
  rw [hcensus, Fintype.card_fin] at hall
  rw [hturns]
  exact c.turns_of_all_left hpos hall

/-- The two branches of `demand` agree with one count of the pops missing from
the final total. -/
theorem demand_eq {s : State nprod ncons} (hN : 1 ≤ N)
    (h : (system spurious N nprod ncons).Reachable s) :
    demand s = N + ncons - 1 - s.popped.length := by
  rcases exists_consCountdown hN h with ⟨c, htotal, _, hcensus⟩
  have htotal' := nctotal_eq hN h
  unfold demand
  split
  · lia
  · rename_i hnonpos
    have hleft := c.left_eq_of_total_nonpos (by lia)
    have hsplit := census_add_census_not ConsThread.hasLeft s.conss
    rw [Fintype.card_fin] at hsplit
    lia

theorem demand_pos_of_not_left {s : State nprod ncons} {j : Fin ncons}
    (hj : (s.conss j).hasLeft = false) : 0 < demand s := by
  have hunfinished : 0 < census (fun c => !ConsThread.hasLeft c) s.conss :=
    census_pos_iff.mpr ⟨j, by rw [hj]; rfl⟩
  have hncons := j.pos
  unfold demand
  split <;> lia

theorem length_buffer_eq_demand {s : State nprod nprod} (hN : 1 ≤ N)
    (hpos : 0 < nprod) (h : (system spurious N nprod nprod).Reachable s)
    (hleft : AllProdsLeft s) : (s.shared.b.length : Int) = demand s := by
  have hpushed := pushed_of_allProdsLeft hN hpos h hleft
  have hlength := congrArg List.length (pushed_eq h)
  rw [List.length_append] at hlength
  rw [demand_eq hN h]
  lia

end ProdCons
end PThreads
end IPPD
