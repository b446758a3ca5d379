import IPPD.PThreads.Semaforo.Safety

/-!
# Deadlock freedom of the semaphore program

Each thread does its `p` before its `lock`, so a thread that waits for a token
never holds the mutex.  While the program runs, the holder of the mutex can
move; and when the mutex is free and every thread waits for a token, all the
tokens would be lost.
-/

namespace IPPD
namespace PThreads
namespace Semaforo

open Foundation

variable {TAM : Nat} {buff : Type u} {B : Buffer TAM buff}
variable {nprod ncons : Nat}

/-!
## Enabled threads
-/

/-- A thread that has not ended waits only at `p` and at `lock`. -/
theorem Ut.step_none {ut : Ut buff} {sh : Shared buff} {pc : Pc}
    (h : ut.step sh pc = none) (hfim : pc ≠ Pc.fim) :
    (pc = Pc.p ∧ ut.p sh = none) ∨ (pc = Pc.lock ∧ sh.m = true) := by
  cases pc with
  | p =>
      left
      simp only [Ut.step] at h
      split at h
      · cases h
      · rename_i hp
        exact ⟨rfl, hp⟩
  | lock =>
      right
      simp only [Ut.step] at h
      split at h
      · rename_i hm
        exact ⟨rfl, hm⟩
      · cases h
  | fim => exact absurd rfl hfim
  | test => cases h
  | elem => cases h
  | count => cases h
  | unlock => cases h
  | v => cases h

theorem Produtora_p_none {sh : Shared buff}
    (h : (Produtora B).p sh = none) : sh.s1 = 0 := by
  cases hs1 : sh.s1 with
  | zero => rfl
  | succ n => simp [Produtora, semP, hs1] at h

theorem Consumidora_p_none {sh : Shared buff}
    (h : (Consumidora B).p sh = none) : sh.s = 0 := by
  cases hs : sh.s with
  | zero => rfl
  | succ n => simp [Consumidora, semP, hs] at h

theorem step_prod_none {st : State buff nprod ncons} {i : Fin nprod}
    (h : step B st (Action.prod i) = none) :
    (Produtora B).step st.shared (st.prods i) = none := by
  simp only [step] at h
  split at h
  · cases h
  · rename_i hnone
    exact hnone

theorem step_cons_none {st : State buff nprod ncons} {j : Fin ncons}
    (h : step B st (Action.cons j) = none) :
    (Consumidora B).step st.shared (st.conss j) = none := by
  simp only [step] at h
  split at h
  · cases h
  · rename_i hnone
    exact hnone

/-!
## While `notEnd` holds nobody ends
-/

def Running (st : State buff nprod ncons) : Prop :=
  st.shared.notEnd = true ->
    (forall i, st.prods i ≠ Pc.fim) ∧ forall j, st.conss j ≠ Pc.fim

theorem Ut.moves_notEnd {ut : Ut buff} {sh sh' : Shared buff} {a b : Pc}
    (hp : forall {x y}, ut.p x = some y -> y.notEnd = x.notEnd)
    (helem : forall x, (ut.elem x).notEnd = x.notEnd)
    (hcount : forall x, (ut.count x).notEnd = x.notEnd)
    (hv : forall x, (ut.v x).notEnd = x.notEnd)
    (h : ut.Moves sh a sh' b) :
    sh'.notEnd = sh.notEnd ∧ (sh.notEnd = true -> b ≠ Pc.fim) := by
  cases h with
  | enter _ => exact ⟨rfl, fun _ => Pc.noConfusion⟩
  | leave hend =>
      refine ⟨rfl, ?_⟩
      intro hnotEnd
      rw [hend] at hnotEnd
      cases hnotEnd
  | p hsome => exact ⟨hp hsome, fun _ => Pc.noConfusion⟩
  | lock _ => exact ⟨rfl, fun _ => Pc.noConfusion⟩
  | elem => exact ⟨helem sh, fun _ => Pc.noConfusion⟩
  | count => exact ⟨hcount sh, fun _ => Pc.noConfusion⟩
  | unlock => exact ⟨rfl, fun _ => Pc.noConfusion⟩
  | v => exact ⟨hv sh, fun _ => Pc.noConfusion⟩

theorem Produtora_notEnd {sh sh' : Shared buff} {a b : Pc}
    (h : (Produtora B).Moves sh a sh' b) :
    sh'.notEnd = sh.notEnd ∧ (sh.notEnd = true -> b ≠ Pc.fim) := by
  refine Ut.moves_notEnd ?_ (fun _ => rfl) (fun _ => rfl) (fun _ => rfl) h
  intro x y hp
  rcases Produtora_p hp with ⟨s1, _, rfl⟩
  rfl

theorem Consumidora_notEnd {sh sh' : Shared buff} {a b : Pc}
    (h : (Consumidora B).Moves sh a sh' b) :
    sh'.notEnd = sh.notEnd ∧ (sh.notEnd = true -> b ≠ Pc.fim) := by
  refine Ut.moves_notEnd ?_ (fun _ => rfl) (fun _ => rfl) (fun _ => rfl) h
  intro x y hp
  rcases Consumidora_p hp with ⟨s, _, rfl⟩
  rfl

theorem update_ne_fim {f : Fin n -> Pc} {i : Fin n} {b : Pc}
    (hf : forall k, f k ≠ Pc.fim) (hb : b ≠ Pc.fim) (k : Fin n) :
    Function.update f i b k ≠ Pc.fim := by
  by_cases hk : k = i
  · rw [hk, Function.update_self]
    exact hb
  · rw [Function.update_of_ne hk]
    exact hf k

theorem running_reachable {st : State buff nprod ncons}
    (h : (system B nprod ncons).Reachable st) : Running st := by
  refine System.reachable_invariant (P := Running) ?_ ?_ h
  · intro st hinit _
    rcases hinit with ⟨notEnd, rfl⟩
    exact ⟨fun _ => Pc.noConfusion, fun _ => Pc.noConfusion⟩
  · intro st a st' _ hrunning hstep
    cases moves_of_step hstep with
    | prod _ hmove =>
        intro hnotEnd
        rcases Produtora_notEnd hmove with ⟨hsame, hb⟩
        have hbefore : st.shared.notEnd = true := hsame ▸ hnotEnd
        exact ⟨update_ne_fim (hrunning hbefore).left (hb hbefore),
          (hrunning hbefore).right⟩
    | cons _ hmove =>
        intro hnotEnd
        rcases Consumidora_notEnd hmove with ⟨hsame, hb⟩
        have hbefore : st.shared.notEnd = true := hsame ▸ hnotEnd
        exact ⟨(hrunning hbefore).left,
          update_ne_fim (hrunning hbefore).right (hb hbefore)⟩
    | encerra =>
        intro hnotEnd
        cases hnotEnd

/-!
## Some thread can move
-/

theorem free_of_quiet {st : State buff nprod ncons} (hinv : Inv B st)
    (hprod : forall i, st.prods i = Pc.p ∨ st.prods i = Pc.lock)
    (hcons : forall j, st.conss j = Pc.p ∨ st.conss j = Pc.lock) :
    st.shared.m = false := by
  have houtside : forall {n : Nat} {f : Fin n -> Pc},
      (forall i, f i = Pc.p ∨ f i = Pc.lock) -> census Pc.inside f = 0 := by
    intro n f hf
    rw [census_eq_zero_iff]
    intro i
    rcases hf i with hi | hi <;> rw [hi] <;> rfl
  have hmutex := hinv.mutex
  rw [houtside hprod, houtside hcons] at hmutex
  cases hm : st.shared.m with
  | false => rfl
  | true =>
      rw [hm] at hmutex
      cases hmutex

/-- While the loop condition holds the program never deadlocks. -/
theorem deadlock_free (hTAM : 1 ≤ TAM) (hnprod : 1 ≤ nprod)
    (hncons : 1 ≤ ncons) {st : State buff nprod ncons}
    (h : (system B nprod ncons).Reachable st)
    (hnotEnd : st.shared.notEnd = true) :
    (exists i st', step B st (Action.prod i) = some st') ∨
      exists j st', step B st (Action.cons j) = some st' := by
  by_contra hquiet
  push Not at hquiet
  rcases hquiet with ⟨hprods, hconss⟩
  have hinv := inv_reachable h
  have hrunning := running_reachable h hnotEnd
  have hprod : forall i, (st.prods i = Pc.p ∧ st.shared.s1 = 0) ∨
      (st.prods i = Pc.lock ∧ st.shared.m = true) := by
    intro i
    have hnone := step_prod_none (Option.eq_none_iff_forall_ne_some.mpr
      (hprods i))
    rcases Ut.step_none hnone (hrunning.left i) with ⟨hpc, hp⟩ | hlock
    · exact Or.inl ⟨hpc, Produtora_p_none hp⟩
    · exact Or.inr hlock
  have hcons : forall j, (st.conss j = Pc.p ∧ st.shared.s = 0) ∨
      (st.conss j = Pc.lock ∧ st.shared.m = true) := by
    intro j
    have hnone := step_cons_none (Option.eq_none_iff_forall_ne_some.mpr
      (hconss j))
    rcases Ut.step_none hnone (hrunning.right j) with ⟨hpc, hp⟩ | hlock
    · exact Or.inl ⟨hpc, Consumidora_p_none hp⟩
    · exact Or.inr hlock
  have hm : st.shared.m = false :=
    free_of_quiet hinv (fun i => (hprod i).imp And.left And.left)
      (fun j => (hcons j).imp And.left And.left)
  -- With the mutex free everybody is at `p`, and no token is left anywhere.
  simp only [hm, Bool.false_eq_true, and_false, or_false] at hprod hcons
  have hnobody : forall {n : Nat} {f : Fin n -> Pc},
      (forall i, f i = Pc.p) ->
        census Pc.pending f = 0 ∧ census Pc.settled f = 0 := by
    intro n f hf
    constructor <;>
      exact census_eq_zero_iff.mpr (fun i => by rw [hf i]; rfl)
  have hnoProd := hnobody (fun i => (hprod i).left)
  have hnoCons := hnobody (fun j => (hcons j).left)
  have htokens := hinv.tokens
  rw [hnoProd.left, hnoProd.right, hnoCons.left, hnoCons.right,
    (hprod ⟨0, hnprod⟩).right, (hcons ⟨0, hncons⟩).right] at htokens
  lia

/-- One producer is in the critical section, the other waits for a place and the
consumer for the mutex. -/
theorem deadlock_free_arrayBuffer :
    exists st, (system (arrayBuffer 2) 2 1).Run
        (initial (arrayBuffer 2) 2 1 true)
        (List.replicate 10 (Action.prod 0) ++
          [Action.prod 1, Action.cons 0, Action.cons 0]) st ∧
      st.shared.notEnd = true ∧
      step (arrayBuffer 2) st (Action.prod 1) = none ∧
      step (arrayBuffer 2) st (Action.cons 0) = none ∧
      ((exists i st', step (arrayBuffer 2) st (Action.prod i) = some st') ∨
        exists j st', step (arrayBuffer 2) st (Action.cons j) = some st') := by
  have hrun := System.run_iff_exec.mpr
    (show (system (arrayBuffer 2) 2 1).exec
        (initial (arrayBuffer 2) 2 1 true)
        (List.replicate 10 (Action.prod 0) ++
          [Action.prod 1, Action.cons 0, Action.cons 0]) = some _ from rfl)
  have hmoves := deadlock_free (by decide) (by decide) (by decide)
    ⟨initial (arrayBuffer 2) 2 1 true, _, ⟨true, rfl⟩, hrun⟩ rfl
  exact ⟨_, hrun, rfl, rfl, rfl, hmoves⟩

end Semaforo
end PThreads
end IPPD
