import IPPD.PThreads.ProdCons.Progress

/-!
# Bounds on every run

Without spurious wake-ups a consumer that waits stops being active, and only a
push makes it active again.  This bounds the calls of `pthread_cond_wait` by
the pushes, and the countdowns bound the pushes and the pops.
-/

namespace IPPD
namespace PThreads
namespace ProdCons

open Foundation

variable {nprod ncons : Nat} {N : Int}

/-- Each call of `pthread_cond_wait` uses up an active consumer. -/
theorem waits_add_active_le {s : State nprod ncons}
    (h : (system false N nprod ncons).Reachable s) :
    s.waits + census ConsThread.isActive s.conss ≤
      s.pushed.length + ncons := by
  refine System.reachable_invariant
    (P := fun s => s.waits + census ConsThread.isActive s.conss ≤
      s.pushed.length + ncons) ?_ ?_ h
  · intro s0 hinit
    cases hinit
    have hle := census_le_card ConsThread.isActive
      (initial N nprod ncons).conss
    rw [Fintype.card_fin] at hle
    change 0 + census ConsThread.isActive _ ≤ 0 + ncons
    lia
  · intro s a t _ hs hstep
    cases moves_of_step hstep with
    | main _ => exact hs
    | push _ _ hsignal =>
        have hactive := signalled_census_isActive hsignal
        simp only [afterPush, List.length_append, List.length_singleton]
        lia
    | wait _ hactive _ =>
        have hdrop := census_isActive_afterWait hactive
        simp only [afterWait] at hdrop ⊢
        lia
    | @pop j it rest _ hactive _ =>
        have hle := census_isActive_afterPop (s.shared.popped rest) it
          (decide (s.shared.nctotal - 1 ≤ 0)) hactive
        simp only [afterPop] at hle ⊢
        lia
    | wake hspurious _ => cases hspurious

theorem rank_initial (nprod ncons : Nat) (hN : 1 ≤ N) :
    (rank N (initial N nprod ncons) : Int) ≤
      3 * N + 4 * nprod + 4 * ncons + 1 := by
  have hle := census_le_card ConsThread.isActive (initial N nprod ncons).conss
  rw [Fintype.card_fin] at hle
  have hprods : (initial N nprod ncons).pushed.length = 0 := rfl
  have hpops : (initial N nprod ncons).popped.length = 0 := rfl
  have hmain : mainRank nprod ncons (initial N nprod ncons).main =
      (nprod - 0) + 2 * ncons + nprod + 4 := rfl
  rw [rank, hprods, hpops, hmain]
  lia

/-- The number of steps of a run, and of the critical sections of each kind in
it, is bounded, and the counters stay above their bounds. -/
theorem run_bounded (hN : 1 ≤ N) {tr : List (Action nprod ncons)}
    {s : State nprod ncons}
    (hrun : (system false N nprod ncons).Run (initial N nprod ncons) tr s) :
    (s.pushed.length : Int) ≤ N + nprod - 1 ∧
      (s.popped.length : Int) ≤ N + ncons - 1 ∧
      1 - (nprod : Int) ≤ s.shared.nptotal ∧
      1 - (ncons : Int) ≤ s.shared.nctotal ∧
      s.waits ≤ s.pushed.length + s.popped.length + ncons ∧
      (tr.length : Int) ≤ 3 * N + 4 * nprod + 4 * ncons + 1 := by
  have hs : (system false N nprod ncons).Reachable s :=
    ⟨initial N nprod ncons, tr, rfl, hrun⟩
  have hpushed := length_pushed_le hN hs
  have hpopped := length_popped_le hN hs
  have hnptotal := nptotal_eq hN hs
  have hnctotal := nctotal_eq hN hs
  have hwaits := waits_add_active_le hs
  have hlength := System.run_length_le_rank (ranked hN)
    System.reachable_step hrun (System.reachable_init rfl)
  have hrank := rank_initial nprod ncons hN
  refine ⟨hpushed, hpopped, ?_, ?_, ?_, ?_⟩ <;> lia

theorem run_bounded_shortTrace :
    exists s, (system false 100 2 2).Run (initial 100 2 2) shortTrace s ∧
      (s.pushed.length : Int) ≤ 101 ∧ (s.popped.length : Int) ≤ 101 ∧
      -1 ≤ s.shared.nptotal ∧ -1 ≤ s.shared.nctotal ∧
      s.waits ≤ s.pushed.length + s.popped.length + 2 ∧
      (shortTrace.length : Int) ≤ 317 := by
  have hrun := System.run_iff_exec.mpr
    (show (system false 100 2 2).exec (initial 100 2 2) shortTrace = some _
      from rfl)
  exact ⟨_, hrun, run_bounded (by decide) hrun⟩

end ProdCons
end PThreads
end IPPD
