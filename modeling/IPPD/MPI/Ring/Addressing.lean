import IPPD.MPI.Ring.Token
import Mathlib.GroupTheory.Perm.Fin

/-!
# The addresses of the ring

The destination and the source of a rank come from three expressions in two
branches.  They fit together in every world of at least two ranks.  Rank 0 does
not wrap its destination, so alone in the world it sends to rank 1.
-/

namespace IPPD
namespace MPI
namespace Ring

open Foundation
open MessagePassing

/-!
## One rank
-/

theorem emParalelo_sendsTo (myRank worldSize d : Int) :
    (emParalelo myRank worldSize).SendsTo d <->
      d = if myRank = 0 then myRank + 1
        else if myRank = worldSize - 1 then 0 else myRank + 1 := by
  unfold emParalelo
  split <;> simp [Process.SendsTo]

theorem emParalelo_receivesFrom (myRank worldSize d : Int) :
    (emParalelo myRank worldSize).ReceivesFrom d <->
      d = if myRank = 0 then worldSize - 1 else myRank - 1 := by
  unfold emParalelo
  split <;> simp [Process.ReceivesFrom]

/-!
## The cycle of all ranks
-/

theorem next_eq_finRotate {n : Nat} (r : Fin n) : next r = finRotate n r := by
  cases n with
  | zero => exact r.elim0
  | succ n =>
      apply Fin.ext
      rw [coe_finRotate]
      unfold next
      split_ifs with hlt hlast hlast
      · rw [hlast] at hlt
        exact absurd hlt (Nat.lt_irrefl _)
      · rfl
      · rfl
      · have hne : r.val ≠ n := fun heq => hlast (Fin.ext heq)
        lia

theorem finRotate_isCycleOn {n : Nat} (hn : 2 ≤ n) :
    (finRotate n).IsCycleOn Set.univ := by
  have hmoved : {r | finRotate n r ≠ r} = Set.univ := by
    rw [← Equiv.Perm.coe_support_eq_set_support,
      support_finRotate_of_le hn, Finset.coe_univ]
  rw [← hmoved]
  exact (isCycle_finRotate_of_le hn).isCycleOn

theorem sendsTo_iff {n : Nat} (hn : 2 ≤ n) (r : Fin n) (d : Int) :
    (emParalelo r n).SendsTo d <-> d = next r := by
  have hlt := r.isLt
  rw [emParalelo_sendsTo, next_val]
  split_ifs <;> simp <;> lia

theorem receivesFrom_next_iff {n : Nat} (r : Fin n) (d : Int) :
    (emParalelo (next r) n).ReceivesFrom d <-> d = r := by
  have hlt := r.isLt
  rw [emParalelo_receivesFrom, next_val]
  split_ifs <;> lia

theorem exists_next_eq {n : Nat} (q : Fin n) : exists r, next r = q := by
  refine ⟨(finRotate n).symm q, ?_⟩
  rw [next_eq_finRotate, Equiv.apply_symm_apply]

theorem next_injective {n : Nat} : Function.Injective (next (n := n)) := by
  intro r q h
  rw [next_eq_finRotate, next_eq_finRotate] at h
  exact (finRotate n).injective h

/-!
## All world sizes
-/

theorem ringAddressed_of_le {n : Nat} (hn : 2 ≤ n) :
    RingAddressed fun r : Fin n => emParalelo r n where
  dest := by
    intro r d hd
    exact ⟨next r, (sendsTo_iff hn r d).mp hd, next_ne hn r⟩
  source := by
    intro q d hd
    rcases exists_next_eq q with ⟨r, hr⟩
    subst hr
    exact ⟨r, (receivesFrom_next_iff r d).mp hd, (next_ne hn r).symm⟩
  cycle := by
    refine ⟨finRotate n, finRotate_isCycleOn hn, ?_⟩
    intro r d
    rw [sendsTo_iff hn r d, next_eq_finRotate]
  matched := by
    intro r q
    rcases exists_next_eq q with ⟨r', hr'⟩
    subst hr'
    rw [sendsTo_iff hn, receivesFrom_next_iff]
    constructor
    · intro h
      rw [next_injective (Fin.ext (Int.ofNat_inj.mp h))]
    · intro h
      rw [Fin.ext (Int.ofNat_inj.mp h)]

/-- Alone in the world, rank 0 sends to a rank that does not exist. -/
theorem not_ringAddressed_one :
    ¬ RingAddressed fun r : Fin 1 => emParalelo r 1 := by
  intro h
  have hsends : (emParalelo (0 : Fin 1) 1).SendsTo 1 := by
    rw [emParalelo_sendsTo]
    rfl
  rcases h.dest 0 1 hsends with ⟨q, hq, _⟩
  have hlt := q.isLt
  lia

/-- The addresses are well formed exactly in a world of at least two ranks. -/
theorem ringAddressed_iff {n : Nat} (hn : 1 ≤ n) :
    RingAddressed (fun r : Fin n => emParalelo r n) <-> 2 ≤ n := by
  constructor
  · intro h
    by_contra hlt
    have hone : n = 1 := by lia
    subst hone
    exact not_ringAddressed_one h
  · exact ringAddressed_of_le

theorem ringAddressed_five :
    RingAddressed fun r : Fin 5 => emParalelo r 5 :=
  (ringAddressed_iff (by decide)).mpr (by decide)

/-- A world of one rank. -/
theorem not_ringAddressed_all :
    ¬ forall n : Nat, 1 ≤ n ->
      RingAddressed fun r : Fin n => emParalelo r n := by
  intro h
  exact not_ringAddressed_one (h 1 (Nat.le_refl 1))

theorem stuck_one : (ring 1).Stuck (initial fun r => emParalelo r 1) := by
  intro a
  cases a with
  | send r sync | recv r k | print r =>
      simp [ring, system, step, initial, Node.start, emParalelo, rankOf?]

end Ring
end MPI
end IPPD
