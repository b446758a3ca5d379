import IPPD.Foundation.FibInt
import IPPD.Foundation.System
import IPPD.Fibonacci.Agreement
import Mathlib.Data.Finset.Card

/-!
# Fibonacci with a parallel loop

In `fibo.c` the function `fiboParalelo` shares the iterations of the filling
loop among the threads of a team.  A thread runs its own iterations in
increasing order, and nothing orders the iterations of different threads,
although each iteration reads what the two before it write.
-/

namespace IPPD
namespace OpenMP
namespace FiboFor

open Foundation
open Fibonacci (body firstTwo fiboSequencial)

structure State where
  f : CArray CInt
  /-- The iterations that have been executed. -/
  executed : Nat -> Bool
  returned : Option CInt

inductive Action where
  | iteration (i : Nat)
  /-- Past the barrier at the end of the loop. -/
  | return

variable {thread : Type u} [DecidableEq thread]

/-- The thread of iteration `i` has come to it. -/
def Enabled (n : Nat) (owner : Nat -> thread) (s : State) (i : Nat) : Prop :=
  2 ≤ i ∧ i < n ∧ s.executed i = false ∧
    forall j, j < i -> 2 ≤ j -> owner j = owner i -> s.executed j = true

instance (n : Nat) (owner : Nat -> thread) (s : State) (i : Nat) :
    Decidable (Enabled n owner s i) :=
  inferInstanceAs (Decidable (_ ∧ _ ∧ _ ∧ _))

/-- All iterations have been executed. -/
def Finished (n : Nat) (s : State) : Prop :=
  forall i, i < n -> 2 ≤ i -> s.executed i = true

instance (n : Nat) (s : State) : Decidable (Finished n s) :=
  inferInstanceAs (Decidable (forall i, i < n -> _))

def iterate (s : State) (i : Nat) : Option State :=
  match body Arith.wrapping s.f i with
  | Except.ok f =>
      some { s with f := f, executed := Function.update s.executed i true }
  | Except.error _ => none

def finish (n : Nat) (s : State) : Option State :=
  match s.f.get ((n : Int) - 1) with
  | Except.ok v => some { s with returned := some v }
  | Except.error _ => none

def step (n : Nat) (owner : Nat -> thread) (s : State) :
    Action -> Option State
  | Action.iteration i =>
      if Enabled n owner s i then iterate s i else none
  | Action.return =>
      if Finished n s ∧ s.returned = none then finish n s else none

/-- `fiboParalelo(n)`, with the iteration `i` given to the thread `owner i` and
the indeterminate elements `junk`. -/
def system (n : Nat) (owner : Nat -> thread) (junk : Nat -> CInt) :
    System State Action where
  Init s := exists f, firstTwo Arith.wrapping junk n = Except.ok f ∧
    s = { f := f, executed := fun _ => false, returned := none }
  step := step n owner

/-- Every complete run returns the value of the sequential function. -/
def Agrees (n : Nat) (owner : Nat -> thread) : Prop :=
  forall (junk junk' : Nat -> CInt) (s : State),
    (system n owner junk).Reachable s -> (system n owner junk).Stuck s ->
      exists v, s.returned = some v ∧
        fiboSequencial Arith.wrapping junk' n = Except.ok v

/-!
## What a step does
-/

variable {n : Nat} {owner : Nat -> thread} {junk : Nat -> CInt}

theorem iterate_eq {s : State} {i : Nat} (hi : i + 2 < s.f.size) :
    iterate s (i + 2) =
      some
        { s with
          f := s.f.put (i + 2) (s.f.cell (i + 1) + s.f.cell i)
          executed := Function.update s.executed (i + 2) true } := by
  unfold iterate
  rw [Fibonacci.body_eq hi]
  rfl

theorem finish_eq {s : State} (hn : 1 ≤ n) (hsize : s.f.size = n) :
    finish n s = some { s with returned := some (s.f.cell (n - 1)) } := by
  unfold finish
  rw [CArray.get_eq_ok (k := n - 1) (by lia) (by lia)]

inductive Moves (n : Nat) (owner : Nat -> thread) (s : State) :
    State -> Prop where
  | iteration {i : Nat} : Enabled n owner s (i + 2) ->
      Moves n owner s
        { s with
          f := s.f.put (i + 2) (s.f.cell (i + 1) + s.f.cell i)
          executed := Function.update s.executed (i + 2) true }
  | finish : Finished n s -> s.returned = none ->
      Moves n owner s { s with returned := some (s.f.cell (n - 1)) }

theorem moves_of_step {s t : State} {a : Action} (hn : 2 ≤ n)
    (hsize : s.f.size = n) (h : step n owner s a = some t) :
    Moves n owner s t := by
  cases a with
  | iteration i =>
      dsimp only [step] at h
      split at h
      · rename_i henabled
        rcases Nat.exists_eq_add_of_le' henabled.left with ⟨k, hk⟩
        subst hk
        have hlt := henabled.right.left
        rw [iterate_eq (by lia)] at h
        cases h
        exact Moves.iteration henabled
      · cases h
  | «return» =>
      dsimp only [step] at h
      split at h
      · rename_i hfinished
        rw [finish_eq (by lia) hsize] at h
        cases h
        exact Moves.finish hfinished.left hfinished.right
      · cases h

/-- The array keeps its size and its first two elements, and a value has been
returned only from the finished array. -/
structure Inv (n : Nat) (s : State) : Prop where
  size : s.f.size = n
  cell_zero : s.f.cell 0 = 1
  cell_one : s.f.cell 1 = 1
  returned : forall {v}, s.returned = some v ->
    Finished n s ∧ v = s.f.cell (n - 1)

omit [DecidableEq thread] in
theorem inv_moves {s t : State} (hs : Inv n s) (h : Moves n owner s t) :
    Inv n t := by
  cases h with
  | iteration henabled =>
      rename_i i
      constructor
      · exact hs.size
      · rw [CArray.put_cell_ne (by lia)]
        exact hs.cell_zero
      · rw [CArray.put_cell_ne (by lia)]
        exact hs.cell_one
      · intro v hv
        have hdone := (hs.returned hv).left (i + 2) henabled.right.left
          henabled.left
        rw [henabled.right.right.left] at hdone
        cases hdone
  | finish hfinished _ =>
      exact
        { hs with
          returned := by
            intro v hv
            cases hv
            exact ⟨hfinished, rfl⟩ }

theorem inv_init {s : State} (hn : 2 ≤ n)
    (h : (system n owner junk).Init s) : Inv n s := by
  rcases h with ⟨f, hf, hs⟩
  rcases Fibonacci.firstTwo_eq_ok (A := Arith.wrapping)
    (fun _ => 1) junk hn rfl rfl with ⟨g, hg, hfilled⟩
  rw [hf] at hg
  cases hg
  subst hs
  constructor
  · exact hfilled.size
  · exact hfilled.cell (by lia)
  · exact hfilled.cell (by lia)
  · intro v hv
    cases hv

theorem reachable_inv {s : State} (hn : 2 ≤ n)
    (h : (system n owner junk).Reachable s) : Inv n s :=
  System.reachable_invariant (inv_init hn)
    (fun _ hs hstep => inv_moves hs (moves_of_step hn hs.size hstep)) h

/-- The first iteration that has not been executed is enabled. -/
theorem finished_of_stuck {s : State} (hsize : s.f.size = n)
    (hstuck : (system n owner junk).Stuck s) : Finished n s := by
  intro i
  induction i using Nat.strongRecOn with
  | _ i ih =>
      intro hin hi
      by_contra hnot
      rw [Bool.not_eq_true] at hnot
      have henabled : Enabled n owner s i :=
        ⟨hi, hin, hnot, fun j hj hj2 _ => ih j hj (by lia) hj2⟩
      rcases Nat.exists_eq_add_of_le' hi with ⟨k, hk⟩
      subst hk
      have hnone := hstuck (Action.iteration (k + 2))
      rw [show (system n owner junk).step s (Action.iteration (k + 2)) =
        iterate s (k + 2) from if_pos henabled, iterate_eq (by lia)] at hnone
      cases hnone

theorem returned_of_stuck {s : State} (hn : 2 ≤ n) (hsize : s.f.size = n)
    (hstuck : (system n owner junk).Stuck s) :
    exists v, s.returned = some v := by
  have hfinished := finished_of_stuck hsize hstuck
  cases hreturned : s.returned with
  | some v => exact ⟨v, rfl⟩
  | none =>
      have hnone := hstuck Action.return
      rw [show (system n owner junk).step s Action.return = finish n s from
        if_pos ⟨hfinished, hreturned⟩, finish_eq (by lia) hsize] at hnone
      cases hnone

theorem stuck_of_returned {s : State} {v : CInt} (hs : Inv n s)
    (hv : s.returned = some v) : (system n owner junk).Stuck s := by
  have hfinished := (hs.returned hv).left
  intro a
  cases a with
  | iteration i =>
      apply if_neg
      intro henabled
      have hdone := hfinished i henabled.right.left henabled.left
      rw [henabled.right.right.left] at hdone
      cases hdone
  | «return» =>
      apply if_neg
      intro h
      rw [hv] at h
      cases h.right

/-!
## Termination
-/

/-- The indices whose iteration has not been executed. -/
def State.pending (n : Nat) (s : State) : Finset Nat :=
  (Finset.range n).filter fun i => s.executed i = false

def State.rank (n : Nat) (s : State) : Nat :=
  (s.pending n).card + (if s.returned = none then 1 else 0)

theorem mem_pending {s : State} {i : Nat} :
    i ∈ s.pending n <-> i < n ∧ s.executed i = false := by
  simp [State.pending]

omit [DecidableEq thread] in
theorem rank_moves {s t : State} (h : Moves n owner s t) :
    t.rank n < s.rank n := by
  cases h with
  | @iteration i henabled =>
      have hmem : i + 2 ∈ s.pending n :=
        mem_pending.mpr ⟨henabled.right.left, henabled.right.right.left⟩
      have hsubset : State.pending n
          { s with
            f := s.f.put (i + 2) (s.f.cell (i + 1) + s.f.cell i)
            executed := Function.update s.executed (i + 2) true } ⊆
          (s.pending n).erase (i + 2) := by
        intro j hj
        rcases mem_pending.mp hj with ⟨hjn, hj⟩
        by_cases hji : j = i + 2
        · simp [hji] at hj
        · rw [Finset.mem_erase, mem_pending]
          exact ⟨hji, hjn, by simpa [hji] using hj⟩
      have hcard := Finset.card_le_card hsubset
      have herase := Finset.card_erase_lt_of_mem hmem
      simp only [State.rank]
      lia
  | finish _ hnone =>
      simp [State.rank, State.pending, hnone]

theorem ranked (hn : 2 ≤ n) (owner : Nat -> thread) (junk : Nat -> CInt) :
    System.Ranked (system n owner junk) (system n owner junk).Reachable
      (State.rank n) := by
  intro s a t hs hstep
  exact rank_moves (moves_of_step hn (reachable_inv hn hs).size hstep)

theorem run_length_le (hn : 2 ≤ n) {s t : State} {tr : List Action}
    (hinit : (system n owner junk).Init s)
    (hrun : (system n owner junk).Run s tr t) : tr.length ≤ n + 1 := by
  have hle := System.run_length_le_rank (ranked hn owner junk)
    System.reachable_step hrun (System.reachable_init hinit)
  have hcard := Finset.card_filter_le (Finset.range n)
    (fun i => s.executed i = false)
  rw [Finset.card_range] at hcard
  have hrank : s.rank n ≤ n + 1 := by
    unfold State.rank State.pending
    split_ifs <;> lia
  lia

/-!
## One thread

A single thread executes the iterations in order, so that each one finds the
two before it executed.
-/

/-- All iterations belong to one thread. -/
def OneThread (n : Nat) (owner : Nat -> thread) : Prop :=
  forall i j, 2 ≤ i -> i < n -> 2 ≤ j -> j < n -> owner i = owner j

/-- The executed iterations have stored the right elements. -/
def Right (s : State) : Prop :=
  forall i, (i < 2 ∨ s.executed i = true) -> s.f.cell i = fibInt (i + 1)

omit [DecidableEq thread] in
theorem right_moves {s t : State} (howner : OneThread n owner)
    (hs : Right s) (h : Moves n owner s t) : Right t := by
  cases h with
  | finish _ _ => exact hs
  | iteration henabled =>
      rename_i i
      rcases henabled with ⟨_, hlt, _, hbefore⟩
      have hdone : forall j, j < i + 2 -> j < 2 ∨ s.executed j = true := by
        intro j hj
        by_cases hj2 : j < 2
        · exact Or.inl hj2
        · have howns : owner j = owner (i + 2) :=
            howner j (i + 2) (by lia) (by lia) (by lia) hlt
          exact Or.inr (hbefore j hj (by lia) howns)
      intro k hk
      by_cases hki : k = i + 2
      · subst hki
        rw [CArray.put_cell_self, hs (i + 1) (hdone (i + 1) (by lia)),
          hs i (hdone i (by lia))]
        exact (fibInt_add_two (i + 1)).symm
      · rw [CArray.put_cell_ne hki]
        dsimp only at hk
        rw [Function.update_of_ne hki] at hk
        exact hs k hk

theorem agrees_of_oneThread (hn : 2 ≤ n) (howner : OneThread n owner) :
    Agrees n owner := by
  intro junk junk' s hs hstuck
  have hinv := reachable_inv hn hs
  have hright : Right s := by
    refine System.reachable_invariant ?_ ?_ hs
    · intro s0 hinit i hi
      have hinv0 := inv_init hn hinit
      rcases hinit with ⟨f, _, hs0⟩
      subst hs0
      have hcases : i = 0 ∨ i = 1 := by
        rcases hi with hi | hi
        · lia
        · cases hi
      rcases hcases with h0 | h1
      · rw [h0]
        exact hinv0.cell_zero
      · rw [h1]
        exact hinv0.cell_one
    · intro s1 a s2 hreach hr hstep
      exact right_moves howner hr
        (moves_of_step hn (reachable_inv hn hreach).size hstep)
  rcases returned_of_stuck hn hinv.size hstuck with ⟨v, hv⟩
  rcases hinv.returned hv with ⟨hfinished, hvalue⟩
  refine ⟨v, hv, ?_⟩
  have hlast : n - 1 < 2 ∨ s.executed (n - 1) = true := by
    by_cases hsmall : n - 1 < 2
    · exact Or.inl hsmall
    · exact Or.inr (hfinished (n - 1) (by lia) (by lia))
  rw [hvalue, hright (n - 1) hlast, Nat.sub_add_cancel (by lia)]
  exact Fibonacci.fiboArray_wrapping (n := (n : Int)) (by lia) junk'

end FiboFor
end OpenMP
end IPPD
