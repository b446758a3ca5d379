import IPPD.PThreads.ProdCons.Balance

/-!
# Progress

Without spurious wake-ups every step lowers a rank, so every schedule is
finite.  The rank counts the pushes and pops that are still possible, the
consumers that are not blocked and the remaining steps of `main`.  A push costs
two units because it can reactivate one consumer.
-/

namespace IPPD
namespace PThreads
namespace ProdCons

open Foundation

variable {nprod ncons : Nat} {N : Int}

/-!
## Enabled steps
-/

theorem push_enabled {s : State nprod ncons} {i : Fin nprod} (it : Int)
    (hstart : s.main.startedProd i = true)
    (hloop : (s.prods i).pc = ProdPc.loop) :
    exists woken t, step false s (Action.prod i it woken) = some t := by
  by_cases hb : s.shared.b = []
  · by_cases hnone : forall j, (s.conss j).isBlocked = false
    · exact ⟨none, _, step_of_moves
        (Moves.push hstart hloop (Signalled.nobody hb hnone))⟩
    · push Not at hnone
      rcases hnone with ⟨j, hj⟩
      exact ⟨some j, _, step_of_moves
        (Moves.push hstart hloop
          (Signalled.wakes hb (Bool.eq_true_of_not_eq_false hj)))⟩
  · exact ⟨none, _, step_of_moves
      (Moves.push hstart hloop (Signalled.silent hb))⟩

theorem cons_enabled {s : State nprod ncons} {j : Fin ncons}
    (hstart : s.main.startedCons j = true)
    (hactive : (s.conss j).isActive = true) :
    exists t, step false s (Action.cons j) = some t := by
  cases hb : s.shared.b with
  | nil => exact ⟨_, step_of_moves (Moves.wait hstart hactive hb)⟩
  | cons it rest => exact ⟨_, step_of_moves (Moves.pop hstart hactive hb)⟩

theorem mainStep_of_step_none {s : State nprod ncons}
    (h : step false s Action.main = none) : mainStep s = none := by
  cases hmain : mainStep s with
  | none => rfl
  | some pc =>
      rw [step_of_moves (Moves.main hmain)] at h
      cases h

/-- Where `main` cannot move. -/
inductive MainWaits (s : State nprod ncons) : Prop where
  | joinProd {i : Nat} (h : i < nprod) : s.main = MainPc.joinProd i ->
      (s.prods ⟨i, h⟩).hasLeft = false -> MainWaits s
  | joinCons {i : Nat} (h : i < ncons) : s.main = MainPc.joinCons i ->
      (s.conss ⟨i, h⟩).hasLeft = false -> MainWaits s
  | returned : s.main = MainPc.returned -> MainWaits s

theorem mainWaits_of_mainStep_none {s : State nprod ncons}
    (h : mainStep s = none) : MainWaits s := by
  unfold mainStep at h
  split at h
  · split at h <;> cases h
  · split at h <;> cases h
  · rename_i i hmain
    split at h
    · rename_i hi
      split at h
      · cases h
      · rename_i hleft
        exact MainWaits.joinProd hi hmain (eq_false_of_ne_true hleft)
    · cases h
  · rename_i i hmain
    split at h
    · rename_i hi
      split at h
      · cases h
      · rename_i hleft
        exact MainWaits.joinCons hi hmain (eq_false_of_ne_true hleft)
    · cases h
  · rename_i hmain
    exact MainWaits.returned hmain

theorem started_of_mainStep_none {s : State nprod ncons}
    (h : mainStep s = none) :
    (forall i, s.main.startedProd i = true) ∧
      (forall j, s.main.startedCons j = true) := by
  cases mainWaits_of_mainStep_none h with
  | joinProd _ hmain _ | joinCons _ hmain _ | returned hmain =>
      rw [hmain]
      exact ⟨fun _ => rfl, fun _ => rfl⟩

theorem returned_of_mainStep_none {s : State nprod ncons}
    (h : mainStep s = none) (hprods : AllProdsLeft s)
    (hconss : AllConssLeft s) : s.main = MainPc.returned := by
  cases mainWaits_of_mainStep_none h with
  | joinProd hi _ hleft =>
      rw [hprods ⟨_, hi⟩] at hleft
      cases hleft
  | joinCons hi _ hleft =>
      rw [hconss ⟨_, hi⟩] at hleft
      cases hleft
  | returned hmain => exact hmain

theorem allProdsLeft_of_quiet {s : State nprod ncons}
    (hstart : forall i, s.main.startedProd i = true)
    (hprod : forall i it woken,
      step false s (Action.prod i it woken) = none) :
    AllProdsLeft s := by
  intro i
  by_contra hleft
  have hloop : (s.prods i).pc = ProdPc.loop :=
    ProdThread.loop_of_not_hasLeft (Bool.eq_false_of_not_eq_true hleft)
  rcases push_enabled 0 (hstart i) hloop with ⟨woken, t, hstep⟩
  rw [hprod i 0 woken] at hstep
  cases hstep

theorem not_isActive_of_quiet {s : State nprod ncons}
    (hstart : forall j, s.main.startedCons j = true)
    (hcons : forall j, step false s (Action.cons j) = none)
    (j : Fin ncons) : (s.conss j).isActive = false := by
  apply Bool.eq_false_of_not_eq_true
  intro hactive
  rcases cons_enabled (hstart j) hactive with ⟨t, hstep⟩
  rw [hcons j] at hstep
  cases hstep

/-!
## The rank
-/

/-- Steps `main` still has to take. -/
def mainRank (nprod ncons : Nat) : MainPc -> Nat
  | MainPc.createProd i => (nprod - i) + 2 * ncons + nprod + 4
  | MainPc.createCons i => (ncons - i) + ncons + nprod + 3
  | MainPc.joinProd i => (nprod - i) + ncons + 2
  | MainPc.joinCons i => (ncons - i) + 1
  | MainPc.returned => 0

def rank (N : Int) (s : State nprod ncons) : Nat :=
  2 * (N + nprod - 1 - s.pushed.length).toNat +
    (N + ncons - 1 - s.popped.length).toNat +
    census ConsThread.isActive s.conss + mainRank nprod ncons s.main

theorem mainRank_lt {s : State nprod ncons} {pc : MainPc}
    (h : mainStep s = some pc) :
    mainRank nprod ncons pc < mainRank nprod ncons s.main := by
  unfold mainStep at h
  split at h
  · split at h <;> cases h <;> simp only [mainRank] <;> lia
  · split at h <;> cases h <;> simp only [mainRank] <;> lia
  · split at h
    · split at h <;> cases h
      simp only [mainRank]
      lia
    · cases h
      simp only [mainRank]
      lia
  · split at h
    · split at h <;> cases h
      simp only [mainRank]
      lia
    · cases h
      simp only [mainRank]
      lia
  · cases h

theorem signalled_census_isActive {conss conss' : Fin ncons -> ConsThread}
    {b : Queue} {woken : Option (Fin ncons)}
    (h : Signalled conss b woken conss') :
    census ConsThread.isActive conss' ≤
      census ConsThread.isActive conss + 1 := by
  cases h with
  | silent _ => exact Nat.le_succ _
  | nobody _ _ => exact Nat.le_succ _
  | @wakes j _ _ =>
      have hcount := census_update ConsThread.isActive conss j
        { conss j with pc := ConsPc.woken }
      have hone := Bool.toNat_le
        (ConsThread.isActive { conss j with pc := ConsPc.woken })
      lia

theorem census_isActive_afterWait {s : State nprod ncons} {j : Fin ncons}
    (hactive : (s.conss j).isActive = true) :
    census ConsThread.isActive (afterWait s j).conss + 1 =
      census ConsThread.isActive s.conss := by
  have hcount := census_update ConsThread.isActive s.conss j
    { s.conss j with pc := ConsPc.blocked }
  rw [hactive] at hcount
  exact hcount

theorem census_isActive_afterPop {s : State nprod ncons} {j : Fin ncons}
    (shared : Thread) (it : Int) (fim : Bool)
    (hactive : (s.conss j).isActive = true) :
    census ConsThread.isActive (afterPop s j shared it fim).conss ≤
      census ConsThread.isActive s.conss := by
  have hcount := census_update ConsThread.isActive s.conss j
    { cont := (s.conss j).cont + 1
      pc := if fim then ConsPc.left else ConsPc.lock }
  have hone := Bool.toNat_le (ConsThread.isActive
    { cont := (s.conss j).cont + 1
      pc := if fim then ConsPc.left else ConsPc.lock })
  rw [hactive, Bool.toNat_true] at hcount
  change census ConsThread.isActive (Function.update s.conss j _) ≤ _
  lia

theorem length_pushed_le {spurious : Bool} (hN : 1 ≤ N) {s : State nprod ncons}
    (h : (system spurious N nprod ncons).Reachable s) :
    (s.pushed.length : Int) ≤ N + nprod - 1 := by
  rcases exists_prodCountdown hN h with ⟨c, _, hturns, _⟩
  rw [hturns]
  exact c.turns_le

theorem length_popped_le {spurious : Bool} (hN : 1 ≤ N) {s : State nprod ncons}
    (h : (system spurious N nprod ncons).Reachable s) :
    (s.popped.length : Int) ≤ N + ncons - 1 := by
  rcases exists_consCountdown hN h with ⟨c, _, hturns, _⟩
  rw [hturns]
  exact c.turns_le

theorem ranked (hN : 1 ≤ N) :
    System.Ranked (system false N nprod ncons)
      (system false N nprod ncons).Reachable (rank N) := by
  intro s a t hs hstep
  have hpushed := length_pushed_le hN (System.reachable_step hs hstep)
  have hpopped := length_popped_le hN (System.reachable_step hs hstep)
  cases moves_of_step hstep with
  | main hmain =>
      have hlt := mainRank_lt hmain
      simp only [rank]
      lia
  | @push i it woken conss _ _ hsignal =>
      have hactive := signalled_census_isActive hsignal
      simp only [afterPush, List.length_append, List.length_singleton]
        at hpushed
      simp only [rank, afterPush, List.length_append, List.length_singleton]
      lia
  | wait _ hactive _ =>
      have hdrop := census_isActive_afterWait hactive
      simp only [rank, afterWait] at hdrop ⊢
      lia
  | @pop j it rest _ hactive _ =>
      have hle := census_isActive_afterPop (s.shared.popped rest) it
        (decide (s.shared.nctotal - 1 ≤ 0)) hactive
      simp only [afterPop, List.length_append, List.length_singleton]
        at hpopped hle
      simp only [rank, afterPop, List.length_append, List.length_singleton]
      lia
  | wake hspurious _ => cases hspurious

end ProdCons
end PThreads
end IPPD
