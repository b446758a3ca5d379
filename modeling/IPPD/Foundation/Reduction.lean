import IPPD.Foundation.System
import IPPD.Foundation.Threads

/-!
# Reductions

A parallel loop that adds up one value for each iteration.  The iterations are
shared among the threads of a team.  Each thread adds the values of its
iterations to a private copy, which starts at zero, and adds the copy to the
variable when it has no iteration left.  Nothing else is ordered: a thread may
run its iterations in any order, and the copies are added in any order.

The variable ends up with its value on entry plus the sum over all iterations.
-/

namespace IPPD
namespace Foundation
namespace Reduction

open Finset

/-!
## The loop
-/

/-- The private copy of a thread. -/
structure Copy (value : Type u) where
  sum : value
  /-- It has been added to the variable. -/
  combined : Bool

structure State (iteration : Type u) (thread : Type v) (value : Type w) where
  target : value
  /-- The iterations that have not been executed. -/
  pending : Finset iteration
  copies : thread -> Copy value

inductive Action (iteration : Type u) (thread : Type v) where
  | iterate (i : iteration)
  | combine (t : thread)

variable {iteration : Type u} {thread : Type v} {value : Type w}
variable [DecidableEq iteration] [DecidableEq thread] [AddCommMonoid value]

/-- The thread has executed all its iterations. -/
def Done (owner : iteration -> thread) (pending : Finset iteration)
    (t : thread) : Prop :=
  forall i, i ∈ pending -> owner i ≠ t

instance (owner : iteration -> thread) (pending : Finset iteration)
    (t : thread) : Decidable (Done owner pending t) :=
  inferInstanceAs (Decidable (forall i, i ∈ pending -> owner i ≠ t))

/-- All copies have been added to the variable. -/
def State.Finished (s : State iteration thread value) : Prop :=
  forall t, (s.copies t).combined = true

instance [Fintype thread] (s : State iteration thread value) :
    Decidable s.Finished :=
  inferInstanceAs (Decidable (forall t, (s.copies t).combined = true))

def Copy.add (c : Copy value) (x : value) : Copy value :=
  { c with sum := c.sum + x }

def Copy.finish (c : Copy value) : Copy value :=
  { c with combined := true }

/-- Iteration `i` belongs to the thread `owner i` and adds `f i`. -/
def step (f : iteration -> value) (owner : iteration -> thread)
    (s : State iteration thread value) :
    Action iteration thread -> Option (State iteration thread value)
  | Action.iterate i =>
      if i ∈ s.pending then
        some
          { s with
            pending := s.pending.erase i
            copies := Function.update s.copies (owner i)
              ((s.copies (owner i)).add (f i)) }
      else none
  | Action.combine t =>
      if (s.copies t).combined = false ∧ Done owner s.pending t then
        some
          { s with
            target := s.target + (s.copies t).sum
            copies := Function.update s.copies t (s.copies t).finish }
      else none

/-- The loop about to start, with the variable at `entry`. -/
def initial (iteration : Type u) (thread : Type v) {value : Type w}
    [AddCommMonoid value] [Fintype iteration] (entry : value) :
    State iteration thread value where
  target := entry
  pending := univ
  copies := fun _ => { sum := 0, combined := false }

def system [Fintype iteration] (f : iteration -> value)
    (owner : iteration -> thread) (entry : value) :
    System (State iteration thread value) (Action iteration thread) where
  Init s := s = initial iteration thread entry
  step := step f owner

/-!
## What a step does
-/

variable {f : iteration -> value} {owner : iteration -> thread}

inductive Moves (f : iteration -> value) (owner : iteration -> thread)
    (s : State iteration thread value) :
    State iteration thread value -> Prop where
  | iterate {i : iteration} : i ∈ s.pending ->
      Moves f owner s
        { s with
          pending := s.pending.erase i
          copies := Function.update s.copies (owner i)
            ((s.copies (owner i)).add (f i)) }
  | combine {t : thread} :
      (s.copies t).combined = false -> Done owner s.pending t ->
      Moves f owner s
        { s with
          target := s.target + (s.copies t).sum
          copies := Function.update s.copies t (s.copies t).finish }

theorem moves_of_step {s s' : State iteration thread value}
    {a : Action iteration thread} (h : step f owner s a = some s') :
    Moves f owner s s' := by
  cases a with
  | iterate i =>
      dsimp only [step] at h
      split at h
      · rename_i hi
        cases h
        exact Moves.iterate hi
      · cases h
  | combine t =>
      dsimp only [step] at h
      split at h
      · rename_i ht
        cases h
        exact Moves.combine ht.left ht.right
      · cases h

/-!
## Nothing is lost

What the variable has, what the copies still have to add, and the values of the
iterations still to come always add up to the same total.
-/

/-- What the copy still has to add to the variable. -/
def Copy.left (c : Copy value) : value :=
  match c.combined with
  | true => 0
  | false => c.sum

variable [Fintype thread] [Fintype iteration] {entry : value}

structure Inv (f : iteration -> value) (owner : iteration -> thread)
    (entry : value) (s : State iteration thread value) : Prop where
  total : s.target + tally Copy.left s.copies + ∑ i ∈ s.pending, f i =
    entry + ∑ i, f i
  done : forall t, (s.copies t).combined = true -> Done owner s.pending t

omit [DecidableEq iteration] [DecidableEq thread] in
theorem inv_initial (f : iteration -> value) (owner : iteration -> thread)
    (entry : value) : Inv f owner entry (initial iteration thread entry) where
  total := by simp [initial, tally, Copy.left]
  done := by
    intro t ht
    cases ht

theorem total_iterate {s : State iteration thread value}
    (hs : Inv f owner entry s) {i : iteration} (hi : i ∈ s.pending) :
    s.target +
        tally Copy.left (Function.update s.copies (owner i)
          ((s.copies (owner i)).add (f i))) +
        ∑ j ∈ s.pending.erase i, f j =
      entry + ∑ j, f j := by
  have hopen : (s.copies (owner i)).combined = false := by
    apply eq_false_of_ne_true
    intro hcombined
    exact hs.done (owner i) hcombined i hi rfl
  have htally : tally Copy.left (Function.update s.copies (owner i)
      ((s.copies (owner i)).add (f i))) = tally Copy.left s.copies + f i := by
    apply tally_update_add
    simp [Copy.left, Copy.add, hopen]
  rw [htally, ← hs.total, ← add_sum_erase s.pending f hi]
  ac_rfl

omit [DecidableEq iteration] in
theorem total_combine {s : State iteration thread value}
    (hs : Inv f owner entry s) {t : thread}
    (hopen : (s.copies t).combined = false) :
    s.target + (s.copies t).sum +
        tally Copy.left (Function.update s.copies t (s.copies t).finish) +
        ∑ j ∈ s.pending, f j =
      entry + ∑ j, f j := by
  have htally := tally_update Copy.left s.copies t (s.copies t).finish
  simp only [Copy.left, Copy.finish, hopen, add_zero] at htally
  rw [← hs.total, ← htally]
  ac_rfl

theorem inv_moves {s s' : State iteration thread value}
    (hs : Inv f owner entry s) (h : Moves f owner s s') :
    Inv f owner entry s' := by
  cases h with
  | @iterate i hi =>
      constructor
      · exact total_iterate hs hi
      · intro t ht j hj
        apply hs.done t _ j (mem_of_mem_erase hj)
        by_cases heq : t = owner i
        · subst heq
          simpa [Copy.add] using ht
        · simpa [heq] using ht
  | @combine t hopen hdone =>
      constructor
      · exact total_combine hs hopen
      · intro u hu
        by_cases heq : u = t
        · rw [heq]
          exact hdone
        · apply hs.done u
          simpa [heq] using hu

theorem reachable_inv {s : State iteration thread value}
    (h : (system f owner entry).Reachable s) : Inv f owner entry s := by
  refine System.reachable_invariant (P := Inv f owner entry) ?_ ?_ h
  · intro s hs
    cases hs
    exact inv_initial f owner entry
  · intro s a s' _ hs hstep
    exact inv_moves hs (moves_of_step hstep)

/-!
## The end of the loop
-/

omit [DecidableEq iteration] [DecidableEq thread] in
theorem Inv.pending_eq {s : State iteration thread value}
    (hs : Inv f owner entry s) (h : s.Finished) : s.pending = ∅ := by
  apply eq_empty_of_forall_notMem
  intro i hi
  exact hs.done (owner i) (h (owner i)) i hi rfl

omit [DecidableEq iteration] [DecidableEq thread] in
theorem Inv.target_eq {s : State iteration thread value}
    (hs : Inv f owner entry s) (h : s.Finished) :
    s.target = entry + ∑ i, f i := by
  have hleft : tally Copy.left s.copies = 0 := by
    apply sum_eq_zero
    intro t _
    simp [Copy.left, h t]
  have htotal := hs.total
  rw [hs.pending_eq h, hleft, sum_empty, add_zero, add_zero] at htotal
  exact htotal

theorem Inv.no_moves {s s' : State iteration thread value}
    (hs : Inv f owner entry s) (h : s.Finished) : ¬ Moves f owner s s' := by
  intro hmoves
  cases hmoves with
  | iterate hi =>
      rw [hs.pending_eq h] at hi
      exact notMem_empty _ hi
  | @combine t hopen _ =>
      rw [h t] at hopen
      cases hopen

omit [Fintype thread] in
/-- The loop can go on until all copies have been added. -/
theorem finished_of_stuck {s : State iteration thread value}
    (hstuck : (system f owner entry).Stuck s) : s.Finished := by
  intro t
  by_contra hopen
  have hdone : Done owner s.pending t := by
    intro i hi _
    have hnone : step f owner s (Action.iterate i) = none :=
      hstuck (Action.iterate i)
    simp [step, hi] at hnone
  have hnone : step f owner s (Action.combine t) = none :=
    hstuck (Action.combine t)
  simp [step, hopen, hdone] at hnone

/-!
## Termination
-/

def State.rank (s : State iteration thread value) : Nat :=
  s.pending.card + census (fun c => !c.combined) s.copies

omit [Fintype iteration] in
theorem rank_moves {s s' : State iteration thread value}
    (h : Moves f owner s s') : s'.rank < s.rank := by
  cases h with
  | @iterate i hi =>
      have hcard := card_erase_add_one hi
      have hcount := census_update (fun c => !c.combined) s.copies (owner i)
        ((s.copies (owner i)).add (f i))
      simp only [Copy.add] at hcount
      simp only [State.rank, Copy.add]
      lia
  | @combine t hopen hdone =>
      have hcount := census_update (fun c => !c.combined) s.copies t
        (s.copies t).finish
      simp only [Copy.finish, hopen, Bool.not_true, Bool.not_false,
        Bool.toNat_true, Bool.toNat_false] at hcount
      simp only [State.rank, Copy.finish]
      lia

omit [DecidableEq iteration] [DecidableEq thread] in
theorem rank_initial (entry : value) :
    (initial iteration thread entry).rank =
      Fintype.card iteration + Fintype.card thread := by
  simp [State.rank, initial, census_const]

end Reduction
end Foundation
end IPPD
