import IPPD.Foundation.CInt
import IPPD.Foundation.Reduction

/-!
# The sum with a reduction

`somatorio.c` fills a vector with random digits and adds it up in a parallel
loop with `reduction(+:somaL)`.  The variable `somaL` is never initialised, and
a reduction adds the sum to what the variable holds on entry.
-/

namespace IPPD
namespace OpenMP
namespace Somatorio

open Foundation

/-!
## The program
-/

def tam : Nat := 50000

def NUM_THREADS : Nat := 16

/-- `vet[i] = rand()%10`, where `rand i` is what the call for `i` returns. -/
def fill (rand : Nat -> CInt) : Vector CInt tam :=
  Vector.ofFn fun i => (rand i).srem 10

structure State (thread : Type u) where
  /-- The parallel region, with `somaL` as its variable. -/
  region : Reduction.State (Fin tam) thread CInt
  printed : Option CInt

inductive Action (thread : Type u) where
  | region (a : Reduction.Action (Fin tam) thread)
  /-- Past the barrier at the end of the region. -/
  | print

variable {thread : Type u} [Fintype thread] [DecidableEq thread]

def step (vet : Vector CInt tam) (owner : Fin tam -> thread)
    (s : State thread) : Action thread -> Option (State thread)
  | Action.region a =>
      match Reduction.step vet.get owner s.region a with
      | some r => some { s with region := r }
      | none => none
  | Action.print =>
      if s.region.Finished ∧ s.printed = none then
        some { s with printed := some s.region.target }
      else none

def initial (thread : Type u) (somaL : CInt) : State thread where
  region := Reduction.initial (Fin tam) thread somaL
  printed := none

/-- The filled vector `vet`, the iteration `i` given to the thread `owner i` of
the team, and the indeterminate value `somaL` of the variable. -/
def system (vet : Vector CInt tam) (owner : Fin tam -> thread)
    (somaL : CInt) : System (State thread) (Action thread) where
  Init s := s = initial thread somaL
  step := step vet owner

/-- Every complete run prints the sum of the elements. -/
def PrintsSum (vet : Vector CInt tam) (owner : Fin tam -> thread)
    (somaL : CInt) : Prop :=
  forall s, (system vet owner somaL).Reachable s ->
    (system vet owner somaL).Stuck s ->
      exists v, s.printed = some v ∧ v.toInt = ∑ i, (vet.get i).toInt

/-!
## What a step does
-/

variable {vet : Vector CInt tam} {owner : Fin tam -> thread} {somaL : CInt}

inductive Moves (vet : Vector CInt tam) (owner : Fin tam -> thread)
    (s : State thread) : State thread -> Prop where
  | region {a : Reduction.Action (Fin tam) thread}
      {r : Reduction.State (Fin tam) thread CInt} :
      Reduction.step vet.get owner s.region a = some r ->
      Moves vet owner s { s with region := r }
  | print : s.region.Finished -> s.printed = none ->
      Moves vet owner s { s with printed := some s.region.target }

theorem moves_of_step {s t : State thread} {a : Action thread}
    (h : step vet owner s a = some t) : Moves vet owner s t := by
  cases a with
  | region a =>
      dsimp only [step] at h
      split at h
      · rename_i r hr
        cases h
        exact Moves.region hr
      · cases h
  | print =>
      dsimp only [step] at h
      split at h
      · rename_i hprint
        cases h
        exact Moves.print hprint.left hprint.right
      · cases h

theorem region_reachable {s : State thread}
    (h : (system vet owner somaL).Reachable s) :
    (Reduction.system vet.get owner somaL).Reachable s.region := by
  refine System.reachable_invariant
    (P := fun s => (Reduction.system vet.get owner somaL).Reachable s.region)
    ?_ ?_ h
  · intro s hs
    cases hs
    exact System.reachable_init rfl
  · intro s a t _ hs hstep
    cases moves_of_step hstep with
    | region hr => exact System.reachable_step hs hr
    | print _ _ => exact hs

theorem region_inv {s : State thread}
    (h : (system vet owner somaL).Reachable s) :
    Reduction.Inv vet.get owner somaL s.region :=
  Reduction.reachable_inv (region_reachable h)

/-!
## The printed value
-/

theorem finished_of_printed {s : State thread}
    (h : (system vet owner somaL).Reachable s) :
    forall v, s.printed = some v ->
      s.region.Finished ∧ v = s.region.target := by
  refine System.reachable_invariant
    (P := fun s => forall v, s.printed = some v ->
      s.region.Finished ∧ v = s.region.target) ?_ ?_ h
  · intro s hs v hv
    cases hs
    cases hv
  · intro s a t hreach hs hstep v hv
    cases moves_of_step hstep with
    | region hr =>
        have hmoves := Reduction.moves_of_step hr
        exact absurd hmoves ((region_inv hreach).no_moves (hs v hv).left)
    | print hfinished _ =>
        cases hv
        exact ⟨hfinished, rfl⟩

theorem printed_eq {s : State thread} {v : CInt}
    (h : (system vet owner somaL).Reachable s) (hv : s.printed = some v) :
    v = somaL + ∑ i, vet.get i := by
  rcases finished_of_printed h v hv with ⟨hfinished, hv'⟩
  rw [hv']
  exact (region_inv h).target_eq hfinished

theorem printed_of_stuck {s : State thread}
    (hstuck : (system vet owner somaL).Stuck s) :
    exists v, s.printed = some v := by
  have hregion : (Reduction.system vet.get owner somaL).Stuck s.region := by
    intro a
    have hnone : step vet owner s (Action.region a) = none :=
      hstuck (Action.region a)
    dsimp only [step] at hnone
    split at hnone
    · cases hnone
    · rename_i hr
      exact hr
  have hfinished := Reduction.finished_of_stuck hregion
  cases hprinted : s.printed with
  | some v => exact ⟨v, rfl⟩
  | none =>
      have hnone : step vet owner s Action.print = none :=
        hstuck Action.print
      simp [step, hfinished, hprinted] at hnone

/-!
## Termination
-/

def State.rank (s : State thread) : Nat :=
  s.region.rank + (if s.printed = none then 1 else 0)

theorem ranked (vet : Vector CInt tam) (owner : Fin tam -> thread)
    (somaL : CInt) :
    System.Ranked (system vet owner somaL)
      (system vet owner somaL).Reachable State.rank := by
  intro s a t _ hstep
  cases moves_of_step hstep with
  | region hr =>
      have hdrop := Reduction.rank_moves (Reduction.moves_of_step hr)
      simp only [State.rank]
      lia
  | print _ hprinted => simp [State.rank, hprinted]

theorem run_length_le {s : State thread} {tr : List (Action thread)}
    (hrun : (system vet owner somaL).Run (initial thread somaL) tr s) :
    tr.length ≤ tam + Fintype.card thread + 1 := by
  have hle := System.run_length_le_rank (ranked vet owner somaL)
    System.reachable_step hrun (System.reachable_init rfl)
  have hrank : (initial thread somaL).rank =
      tam + Fintype.card thread + 1 := by
    simp [State.rank, initial, Reduction.rank_initial]
  lia

/-!
## The sum of digits
-/

def Digits (vet : Vector CInt tam) : Prop :=
  forall i, 0 ≤ (vet.get i).toInt ∧ (vet.get i).toInt ≤ 9

/-- `rand` returns no negative number. -/
theorem fill_digits {rand : Nat -> CInt}
    (hrand : forall i, 0 ≤ (rand i).toInt) : Digits (fill rand) := by
  intro i
  have hget : (fill rand).get i = (rand i).srem 10 := by
    exact Vector.getElem_ofFn _
  have hten : (10 : CInt).toInt = 10 := by decide
  have hrem := hrand i
  rw [hget, BitVec.toInt_srem, hten, Int.tmod_eq_emod_of_nonneg hrem]
  lia

theorem fits_sum (hdigits : Digits vet) :
    Fits (∑ i, (vet.get i).toInt) := by
  have hlow : 0 ≤ ∑ i, (vet.get i).toInt :=
    Finset.sum_nonneg (fun i _ => (hdigits i).left)
  have hhigh : ∑ i, (vet.get i).toInt ≤ Fintype.card (Fin tam) • (9 : Int) :=
    Finset.sum_le_card_nsmul _ _ _ (fun i _ => (hdigits i).right)
  have hcard : Fintype.card (Fin tam) • (9 : Int) = 450000 := by
    rw [Fintype.card_fin]
    rfl
  unfold Fits
  lia

theorem toInt_eq_sum_iff (hdigits : Digits vet) (v : CInt) :
    v.toInt = ∑ i, (vet.get i).toInt <-> v = ∑ i, vet.get i := by
  rw [← toInt_sum (fits_sum hdigits)]
  exact BitVec.toInt_inj

/-!
## What the variable held on entry
-/

theorem printsSum_of_zero (hdigits : Digits vet) :
    PrintsSum vet owner 0 := by
  intro s hs hstuck
  rcases printed_of_stuck hstuck with ⟨v, hv⟩
  refine ⟨v, hv, ?_⟩
  rw [toInt_eq_sum_iff hdigits, printed_eq hs hv, zero_add]

theorem zero_of_printsSum (hdigits : Digits vet)
    (h : PrintsSum vet owner somaL) : somaL = 0 := by
  have hinit : (system vet owner somaL).Reachable (initial thread somaL) :=
    System.reachable_init rfl
  rcases System.exists_reachable_stuck (ranked vet owner somaL) hinit with
    ⟨s, hs, hstuck⟩
  rcases h s hs hstuck with ⟨v, hv, hsum⟩
  rw [toInt_eq_sum_iff hdigits, printed_eq hs hv] at hsum
  exact add_eq_right.mp hsum

/-- However the iterations are shared and the copies are added, the printed
value is the sum of the elements exactly when the variable is zero on entry. -/
theorem printsSum_iff (hdigits : Digits vet) :
    PrintsSum vet owner somaL <-> somaL = 0 := by
  constructor
  · exact zero_of_printsSum hdigits
  · intro hsomaL
    rw [hsomaL]
    exact printsSum_of_zero hdigits

theorem printsSum_sevens :
    PrintsSum (Vector.replicate tam 7)
        (fun i => (⟨i % NUM_THREADS, Nat.mod_lt _ (by decide)⟩ :
          Fin NUM_THREADS)) 0 := by
  refine (printsSum_iff ?_).mpr rfl
  intro i
  have hget : (Vector.replicate tam (7 : CInt)).get i = 7 := by
    simp [Vector.get]
  rw [hget]
  decide

/-- A variable that holds one on entry. -/
theorem not_printsSum_one :
    ¬ forall (vet : Vector CInt tam) (owner : Fin tam -> Fin NUM_THREADS)
      (somaL : CInt), Digits vet -> PrintsSum vet owner somaL := by
  intro h
  have hdigits : Digits (Vector.replicate tam 7) := by
    intro i
    have hget : (Vector.replicate tam (7 : CInt)).get i = 7 := by
      simp [Vector.get]
    rw [hget]
    decide
  have hsum := h (Vector.replicate tam 7) (fun _ => ⟨0, by decide⟩) 1 hdigits
  exact absurd (zero_of_printsSum hdigits hsum) (by decide)

end Somatorio
end OpenMP
end IPPD
