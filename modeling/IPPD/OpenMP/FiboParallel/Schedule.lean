import IPPD.OpenMP.FiboParallel.Contract

/-!
# Every schedule of the Fibonacci tasks

No invocation returns before its tasks have completed, no schedule is endless,
and every complete one returns the Fibonacci number.
-/

namespace IPPD
namespace OpenMP
namespace FiboParallel

open Foundation
open Foundation.TaskPool (Next Advances Tree)

/-!
## Reachable pools
-/

variable {n : Nat} {s : State} {i : Nat} {t : TaskPool.Task Frame}

theorem holds (hs : (system n).Reachable s) : (contract n).Holds s :=
  (contract n).reachable hs

/-- The invocation has created its task for `dest`. -/
def Frame.hasCreated (f : Frame) (dest : Dest) : Bool :=
  match f.pc with
  | Pc.start => false
  | Pc.task1 => false
  | Pc.task2 => decide (dest = Dest.r1)
  | Pc.taskwait => decide (dest ≠ Dest.r)
  | Pc.add => decide (dest ≠ Dest.r)
  | Pc.returned _ => decide (2 ≤ f.n) && decide (dest ≠ Dest.r)

theorem hasCreated_moves {f f' : Frame} {dest : Dest} (h : Moves f f')
    (hf' : f'.hasCreated dest = true) :
    f.hasCreated dest = true ∨
      exists c, fiboParalelo f = Next.spawn f' c ∧ c.dest = dest := by
  cases h with
  | base hpc hn =>
      simp [Frame.hasCreated] at hf'
      lia
  | recurse hpc hn => cases hf'
  | task1 hpc =>
      have hdest : dest = Dest.r1 := by
        simpa [Frame.hasCreated] using hf'
      refine Or.inr ⟨call (f.n - 1) Dest.r1, ?_, hdest.symm⟩
      rw [fiboParalelo, hpc]
  | task2 hpc =>
      cases dest with
      | r => cases hf'
      | r1 =>
          apply Or.inl
          rw [Frame.hasCreated, hpc]
          rfl
      | r2 =>
          refine Or.inr ⟨call (f.n - 2) Dest.r2, ?_, rfl⟩
          rw [fiboParalelo, hpc]
  | taskwait hpc =>
      apply Or.inl
      rw [Frame.hasCreated, hpc]
      exact hf'
  | add hpc _ _ =>
      have hdest : 2 ≤ f.n ∧ dest ≠ Dest.r := by
        simpa [Frame.hasCreated] using hf'
      apply Or.inl
      rw [Frame.hasCreated, hpc]
      exact decide_eq_true hdest.right

theorem exists_task (hs : (system n).Reachable s)
    (ht : s.tasks[i]? = some t) {dest : Dest}
    (hcreated : t.frame.hasCreated dest = true) :
    exists (c : Nat) (u : TaskPool.Task Frame),
      s.tasks[c]? = some u ∧ u.parent = some i ∧ u.frame.dest = dest := by
  refine TaskPool.exists_child (fun f => f.hasCreated dest = true)
    (fun f => f.dest = dest) ?_ ?_ ?_ ?_ ?_ ?_ hs ht hcreated
  · simp [call, Frame.hasCreated]
  · intro f f' c h
    rcases spawn_cases h with ⟨_, _, hc⟩ | ⟨_, _, hc⟩ <;>
      simp [hc, call, Frame.hasCreated]
  · intro f f' h hf'
    exact hasCreated_moves (moves_of_advances h) hf'
  · intro f u v st h hf
    rw [(finish_cases h).right] at hf
    simpa [Frame.hasCreated] using hf
  · intro f f' hf h
    cases moves_of_advances h <;> exact hf
  · intro f u v st hf h
    rw [(finish_cases h).right, assign_dest]
    exact hf

/-- Past its `taskwait` an invocation has both tasks, they have completed, and
both variables are written. -/
theorem joined_tasks (hs : (system n).Reachable s)
    (ht : s.tasks[i]? = some t) (hjoined : t.frame.pc.joined = true)
    (hn : 2 ≤ t.frame.n) (dest : Dest) (hdest : dest ≠ Dest.r) :
    exists (c : Nat) (u : TaskPool.Task Frame),
      s.tasks[c]? = some u ∧ u.parent = some i ∧ u.frame.dest = dest ∧
        u.completed = true ∧ exists v, t.frame.read dest = some v := by
  have hcreated : t.frame.hasCreated dest = true := by
    cases hpc : t.frame.pc <;>
      simp [Frame.hasCreated, Pc.joined, hpc, hn, hdest] at hjoined ⊢
  rcases exists_task hs ht hcreated with ⟨c, u, hu, hparent, hd⟩
  have hlink := (holds hs).link hu hparent ht
  have hdone := hlink.joined hjoined
  refine ⟨c, u, hu, hparent, hd, hdone, ?_⟩
  rw [← hd]
  exact hlink.written hdone

theorem defined (hs : (system n).Reachable s)
    (ht : s.tasks[i]? = some t) :
    fiboParalelo t.frame ≠ Next.undefined := by
  intro h
  have hdoes := does t.frame
  rw [h] at hdoes
  cases hdoes with
  | unwritten hpc hnone =>
      have hok : FrameOk t.frame t.completed := (holds hs).ok ht
      have hn := hok.two_le (by simp [hpc]) (by simp [hpc])
      have hjoined : t.frame.pc.joined = true := by
        rw [hpc]
        rfl
      rcases hnone with h1 | h2
      · rcases joined_tasks hs ht hjoined hn Dest.r1 (by simp) with
          ⟨_, _, _, _, _, _, v, hv⟩
        rw [Frame.read, h1] at hv
        cases hv
      · rcases joined_tasks hs ht hjoined hn Dest.r2 (by simp) with
          ⟨_, _, _, _, _, _, v, hv⟩
        rw [Frame.read, h2] at hv
        cases hv

theorem result_of_stuck (hs : (system n).Reachable s)
    (hstuck : (system n).Stuck s) : s.result = some (fibInt n) := by
  have htree : Tree s := Tree.reachable hs
  rcases htree.first with ⟨t, ht, hnone⟩
  have hdone := TaskPool.completed_of_stuck htree hstuck
    (fun hu _ => defined hs hu) ht
  rcases htree.answered ht hnone hdone with ⟨v, hv⟩
  have hvalue : v = fibInt n := (holds hs).result hv
  rw [hv, hvalue]

/-!
## Termination
-/

/-- The cost of a call before its last step. -/
def calls : Nat -> Nat
  | 0 => 1
  | 1 => 1
  | k + 2 => calls (k + 1) + calls k + 7

def weight (f : Frame) : Nat :=
  match f.pc with
  | Pc.start => calls f.n.toNat
  | Pc.task1 => calls (f.n - 1).toNat + calls (f.n - 2).toNat + 6
  | Pc.task2 => calls (f.n - 2).toNat + 4
  | Pc.taskwait => 2
  | Pc.add => 1
  | Pc.returned _ => 0

theorem calls_pos (k : Nat) : 1 ≤ calls k := by
  induction k using calls.induct with
  | case1 => exact Nat.le_refl 1
  | case2 => exact Nat.le_refl 1
  | case3 k _ _ =>
      rw [calls]
      lia

theorem calls_of_two_le {n : Int} (hn : 2 ≤ n) :
    calls n.toNat = calls (n - 1).toNat + calls (n - 2).toNat + 7 := by
  have h0 : n.toNat = (n - 2).toNat + 2 := by lia
  have h1 : (n - 1).toNat = (n - 2).toNat + 1 := by lia
  rw [h0, h1, calls]

theorem ranked (n : Int) :
    System.Ranked (system n) Tree (TaskPool.rank weight) := by
  refine TaskPool.ranked ?_ ?_ ?_ (call n Dest.r)
  · intro f f' h
    have hmoves : Moves f f' := by
      rcases h with hgo | hwait
      · exact moves_of_advances (Advances.go hgo)
      · exact moves_of_advances (Advances.taskwait hwait)
    have hspawn : forall c, fiboParalelo f ≠ Next.spawn f' c := by
      intro c hc
      rcases h with hgo | hwait
      · rw [hgo] at hc
        cases hc
      · rw [hwait] at hc
        cases hc
    cases hmoves with
    | base hpc _ =>
        have hpos := calls_pos f.n.toNat
        simp only [weight, hpc]
        lia
    | recurse hpc hn =>
        have hcalls := calls_of_two_le hn
        simp only [weight, hpc]
        lia
    | task1 hpc => exact absurd (by rw [fiboParalelo, hpc]) (hspawn _)
    | task2 hpc => exact absurd (by rw [fiboParalelo, hpc]) (hspawn _)
    | taskwait hpc => simp [weight, hpc]
    | add hpc _ _ => simp [weight, hpc]
  · intro f f' c h
    rcases spawn_cases h with ⟨hpc, hf, hc⟩ | ⟨hpc, hf, hc⟩
    · subst hf hc
      simp only [weight, hpc, call]
      lia
    · subst hf hc
      simp only [weight, hpc, call]
      lia
  · intro u v st h f
    rw [(finish_cases h).right]
    simp [weight]

theorem run_length_le {n : Nat} {s0 s : State} {tr : List TaskPool.Action}
    (hinit : (system n).Init s0) (hrun : (system n).Run s0 tr s) :
    tr.length ≤ calls n + 1 := by
  have htree : Tree s0 := Tree.reachable (System.reachable_init hinit)
  have hlength := System.run_length_le_rank (ranked n)
    (fun hs hstep => Tree.step hs hstep) hrun htree
  have hrank : TaskPool.rank weight s0 = calls n + 1 := by
    rw [show s0 = _ from hinit]
    simp [TaskPool.rank, TaskPool.totalCost, TaskPool.cost,
      TaskPool.newTask, weight, call]
  lia

/-!
## Every schedule
-/

def Frame.hasReturned (f : Frame) : Bool :=
  match f.pc with
  | Pc.returned _ => true
  | _ => false

/-- An invocation that has returned from its recursion had both tasks, all its
tasks have completed, and `r1` and `r2` are written. -/
def ReturnsAfterTasks (s : State) : Prop :=
  forall (i : Nat) (t : TaskPool.Task Frame), s.tasks[i]? = some t ->
    t.frame.hasReturned = true -> 2 ≤ t.frame.n ->
      (forall (c : Nat) (u : TaskPool.Task Frame), s.tasks[c]? = some u ->
        u.parent = some i -> u.completed = true) ∧
      forall dest, dest ≠ Dest.r ->
        exists (c : Nat) (u : TaskPool.Task Frame), s.tasks[c]? = some u ∧
          u.parent = some i ∧ u.frame.dest = dest ∧ u.completed = true ∧
            exists v, t.frame.read dest = some v

/-- The creator of a live task has not returned. -/
def NoDanglingTask (s : State) : Prop :=
  forall (c p : Nat) (u t : TaskPool.Task Frame), s.tasks[c]? = some u ->
    u.completed = false -> u.parent = some p -> s.tasks[p]? = some t ->
      t.frame.hasReturned = false

theorem joined_of_hasReturned {f : Frame} (h : f.hasReturned = true) :
    f.pc.joined = true := by
  unfold Frame.hasReturned at h
  split at h
  · rename_i hpc
    rw [hpc]
    rfl
  · cases h

theorem fiboParalelo_every_schedule (n : Nat) {s0 s : State}
    {tr : List TaskPool.Action} (hinit : (system n).Init s0)
    (hrun : (system n).Run s0 tr s) :
    ReturnsAfterTasks s ∧ NoDanglingTask s ∧
      ((system n).Stuck s ->
        s.result = some (fibInt n) ∧ s.result = some (fiboSerial n)) ∧
      tr.length ≤ calls n + 1 := by
  have hs : (system n).Reachable s := ⟨s0, tr, hinit, hrun⟩
  refine ⟨?_, ?_, ?_, run_length_le hinit hrun⟩
  · intro i t ht hreturned hn
    have hjoined := joined_of_hasReturned hreturned
    constructor
    · intro c u hu hparent
      exact ((holds hs).link hu hparent ht).joined hjoined
    · intro dest hdest
      exact joined_tasks hs ht hjoined hn dest hdest
  · intro c p u t hu hlive hparent ht
    by_contra hreturned
    rw [Bool.not_eq_false] at hreturned
    have hdone := ((holds hs).link hu hparent ht).joined
      (joined_of_hasReturned hreturned)
    rw [hlive] at hdone
    cases hdone
  · intro hstuck
    have hresult := result_of_stuck hs hstuck
    refine ⟨hresult, ?_⟩
    rw [hresult, fiboSerial, Fibonacci.fiboRec_eq (Int.natCast_nonneg n),
      Int.toNat_natCast]

/-- The task for `r2` runs at once, the one for `r1` is deferred. -/
def scheduleOfTwo : List TaskPool.Action :=
  [⟨0, false⟩, ⟨0, false⟩, ⟨0, true⟩, ⟨2, false⟩, ⟨2, false⟩, ⟨1, false⟩,
    ⟨1, false⟩, ⟨0, false⟩, ⟨0, false⟩, ⟨0, false⟩]

theorem fiboParalelo_two : exists s0 s, (system 2).Init s0 ∧
    (system 2).Run s0 scheduleOfTwo s ∧ ReturnsAfterTasks s ∧
      NoDanglingTask s ∧ s.result = some 1 := by
  have hrun : exists s, (system 2).Run
      { tasks := [TaskPool.newTask none (call 2 Dest.r)], result := none }
      scheduleOfTwo s ∧ (system 2).Stuck s := by
    refine ⟨_, System.run_iff_exec.mpr
      (show System.exec _ _ _ = some _ from rfl), ?_⟩
    intro a
    rcases a with ⟨k, b⟩
    match k with
    | 0 => rfl
    | 1 => rfl
    | 2 => rfl
    | k + 3 => rfl
  rcases hrun with ⟨s, hrun, hstuck⟩
  have hall := fiboParalelo_every_schedule 2 rfl hrun
  exact ⟨_, s, rfl, hrun, hall.left, hall.right.left,
    (hall.right.right.left hstuck).left⟩

end FiboParallel
end OpenMP
end IPPD
