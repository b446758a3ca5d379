import IPPD.PThreads.Soma.Ex1a

/-!
# What the sum with a mutex prints

`acum` is the sum of the local results of the threads that have done their
store.  The mutex makes the load and the store of a thread one update, so the
order in which the threads enter the critical section does not matter.
-/

namespace IPPD
namespace PThreads
namespace Soma
namespace Ex1a

open Foundation

/-!
## Program points
-/

/-- Between `pthread_mutex_lock` and `pthread_mutex_unlock`. -/
def SomaThread.inside {int : Type u} (t : SomaThread int) : Bool :=
  match t.pc with
  | Pc.load | Pc.store | Pc.unlock => true
  | _ => false

/-- What the thread has added to `acum`. -/
def SomaThread.contribution {int : Type u} [Zero int]
    (t : SomaThread int) : int :=
  match t.pc with
  | Pc.unlock | Pc.left => t.somaL
  | _ => 0

/-- The threads joined so far are those with a smaller index. -/
def MainPc.joined (nthreads : Nat) : MainPc -> Nat
  | create _ => 0
  | join k => k
  | returned => nthreads

variable {int : Type u} [AddCommMonoid int] {tam nthreads : Nat}

/-!
## The loop of a thread
-/

structure Adding (vet : Vector int tam) (d : VetorThread)
    (t : SomaThread int) : Prop where
  dta : t.dta = d
  lower : d.begin_ ≤ t.i
  upper : t.i ≤ d.end_
  somaL : t.somaL = segmentSum vet.toList d.begin_ t.i
  complete : t.pc ≠ Pc.loop -> t.i = d.end_

theorem adding_start (vet : Vector int tam) {d : VetorThread}
    (h : d.begin_ ≤ d.end_) : Adding vet d (SomaThread.start d) where
  dta := rfl
  lower := Nat.le_refl _
  upper := h
  somaL := by simp [SomaThread.start]
  complete := by simp [SomaThread.start]

theorem adding_moves {vet : Vector int tam} {d : VetorThread}
    {sh sh' : Shared int} {t t' : SomaThread int}
    (ht : Adding vet d t) (h : Moves vet sh t sh' t') : Adding vet d t' := by
  cases h with
  | add hpc hlt hx =>
      have hlt' : t.i < d.end_ := ht.dta ▸ hlt
      constructor
      · exact ht.dta
      · exact Nat.le_succ_of_le ht.lower
      · exact hlt'
      · rw [segmentSum_succ ht.lower (by simpa using hx), ← ht.somaL]
      · intro hne
        exact absurd hpc hne
  | leaveLoop hpc hge =>
      have hge' : d.end_ ≤ t.i := ht.dta ▸ hge
      exact { ht with complete := fun _ => Nat.le_antisymm ht.upper hge' }
  | lock hpc _ | load hpc | store hpc | unlock hpc =>
      have hend := ht.complete (by simp [hpc])
      exact { ht with complete := fun _ => hend }

theorem Adding.somaL_eq {vet : Vector int tam} {t : SomaThread int}
    {j : Nat} (ht : Adding vet (Soma.dta tam nthreads j) t)
    (hpc : t.pc ≠ Pc.loop) : t.somaL = threadSum vet nthreads j := by
  rw [ht.somaL, ht.complete hpc]
  rfl

/-!
## The invariant
-/

structure Inv (vet : Vector int tam) (s : State int nthreads) : Prop where
  adding : forall j : Fin nthreads,
    Adding vet (dta tam nthreads j) (s.threads j)
  mutex : census SomaThread.inside s.threads = s.shared.m.toNat
  /-- `acum` has not changed since it was loaded. -/
  loaded : forall j, (s.threads j).pc = Pc.store ->
    (s.threads j).loaded = s.shared.acum
  acum : s.shared.acum = tally SomaThread.contribution s.threads
  joined : forall j : Fin nthreads, j.val < s.main.joined nthreads ->
    (s.threads j).pc = Pc.left
  printed : s.printed =
    if s.main = MainPc.returned then some s.shared.acum else none

theorem inv_initial (vet : Vector int tam) :
    Inv vet (initial tam nthreads) where
  adding := fun j => adding_start vet (begin_le_end tam nthreads j)
  mutex := census_eq_zero_iff.mpr fun _ => rfl
  loaded := by
    intro j hpc
    cases hpc
  acum := by simp [initial, tally, SomaThread.contribution, SomaThread.start]
  joined := by
    intro j hj
    exact absurd hj (Nat.not_lt_zero _)
  printed := rfl

theorem inv_mainMoves {vet : Vector int tam} {s s' : State int nthreads}
    (hs : Inv vet s) (h : MainMoves s s') : Inv vet s' := by
  cases h with
  | create hmain hi =>
      exact
        { hs with
          joined := fun j hj => absurd hj (Nat.not_lt_zero _)
          printed := by simp [hs.printed, hmain] }
  | createDone hmain hi =>
      exact
        { hs with
          joined := fun j hj => absurd hj (Nat.not_lt_zero _)
          printed := by simp [hs.printed, hmain] }
  | @join i hi hmain hleft =>
      refine { hs with joined := ?_, printed := ?_ }
      · intro j hj
        simp only [MainPc.joined] at hj
        by_cases hji : j.val = i
        · have hj' : j = ⟨i, hi⟩ := Fin.ext hji
          rw [hj']
          exact hleft
        · apply hs.joined j
          rw [hmain]
          simp only [MainPc.joined]
          lia
      · simp [hs.printed, hmain]
  | @print i hmain hi =>
      refine { hs with joined := ?_, printed := ?_ }
      · intro j hj
        apply hs.joined j
        rw [hmain]
        simp only [MainPc.joined]
        lia
      · simp

theorem Inv.not_joined {vet : Vector int tam} {s : State int nthreads}
    (hs : Inv vet s) {j : Fin nthreads} {sh : Shared int}
    {t : SomaThread int} (h : Moves vet s.shared (s.threads j) sh t) :
    s.main.joined nthreads ≤ j.val := by
  by_contra hlt
  have hleft := hs.joined j (by lia)
  cases h with
  | add hpc _ _ | leaveLoop hpc _ | lock hpc _ | load hpc | store hpc
  | unlock hpc =>
      rw [hleft] at hpc
      cases hpc

theorem mutex_moves {vet : Vector int tam} {s : State int nthreads}
    (hs : Inv vet s) {j : Fin nthreads} {sh : Shared int}
    {t : SomaThread int} (h : Moves vet s.shared (s.threads j) sh t) :
    census SomaThread.inside (Function.update s.threads j t) =
      sh.m.toNat := by
  have hcount := census_update SomaThread.inside s.threads j t
  have hmutex := hs.mutex
  cases h with
  | add hpc _ _ | leaveLoop hpc _ | load hpc | store hpc =>
      simp only [SomaThread.inside, hpc, Bool.toNat_true,
        Bool.toNat_false] at hcount
      lia
  | lock hpc hm =>
      simp only [SomaThread.inside, hpc, hm, Bool.toNat_true,
        Bool.toNat_false] at hcount hmutex ⊢
      lia
  | unlock hpc =>
      have hle := Bool.toNat_le s.shared.m
      simp only [SomaThread.inside, hpc, Bool.toNat_true,
        Bool.toNat_false] at hcount ⊢
      lia

theorem Inv.inside_unique {vet : Vector int tam} {s : State int nthreads}
    (hs : Inv vet s) {i j : Fin nthreads}
    (hi : (s.threads i).inside = true) (hj : (s.threads j).inside = true) :
    i = j := by
  refine census_le_one_unique ?_ hi hj
  rw [hs.mutex]
  exact Bool.toNat_le _

theorem acum_moves {vet : Vector int tam} {s : State int nthreads}
    (hs : Inv vet s) {j : Fin nthreads} {sh : Shared int}
    {t : SomaThread int} (h : Moves vet s.shared (s.threads j) sh t) :
    sh.acum =
      tally SomaThread.contribution (Function.update s.threads j t) := by
  cases h with
  | add hpc _ _ | leaveLoop hpc _ | lock hpc _ | load hpc | unlock hpc =>
      rw [tally_update_of_eq (by simp [SomaThread.contribution, hpc])]
      exact hs.acum
  | store hpc =>
      have htally := tally_update SomaThread.contribution s.threads j
        { s.threads j with pc := Pc.unlock }
      simp only [SomaThread.contribution, hpc, add_zero] at htally
      dsimp only
      rw [htally, hs.loaded j hpc, hs.acum]

theorem loaded_moves {vet : Vector int tam} {s : State int nthreads}
    (hs : Inv vet s) {j : Fin nthreads} {sh : Shared int}
    {t : SomaThread int} (h : Moves vet s.shared (s.threads j) sh t)
    (i : Fin nthreads)
    (hi : (Function.update s.threads j t i).pc = Pc.store) :
    (Function.update s.threads j t i).loaded = sh.acum := by
  by_cases hij : i = j
  · subst hij
    rw [Function.update_self] at hi ⊢
    cases h with
    | load hpc => rfl
    | add hpc _ _ =>
        rw [hpc] at hi
        cases hi
    | leaveLoop _ _ | lock _ _ | store _ | unlock _ => cases hi
  · rw [Function.update_of_ne hij] at hi ⊢
    cases h with
    | add _ _ _ | leaveLoop _ _ | lock _ _ | load _ | unlock _ =>
        exact hs.loaded i hi
    | store hpc =>
        -- both threads would be inside the critical section
        refine absurd (hs.inside_unique ?_ ?_) hij
        · simp [SomaThread.inside, hi]
        · simp [SomaThread.inside, hpc]

theorem inv_moves {vet : Vector int tam} {s : State int nthreads}
    (hs : Inv vet s) {j : Fin nthreads} {sh : Shared int}
    {t : SomaThread int} (h : Moves vet s.shared (s.threads j) sh t) :
    Inv vet
      { s with
        shared := sh
        threads := Function.update s.threads j t } where
  adding := by
    intro i
    dsimp only
    by_cases hij : i = j
    · subst hij
      rw [Function.update_self]
      exact adding_moves (hs.adding i) h
    · rw [Function.update_of_ne hij]
      exact hs.adding i
  mutex := mutex_moves hs h
  loaded := loaded_moves hs h
  acum := acum_moves hs h
  joined := by
    intro i hi
    have hij : i ≠ j := by
      intro heq
      have := hs.not_joined h
      rw [heq] at hi
      exact absurd hi (by lia)
    dsimp only
    rw [Function.update_of_ne hij]
    exact hs.joined i hi
  printed := by
    have hmain : s.main ≠ MainPc.returned := by
      intro hreturned
      have hle := hs.not_joined h
      rw [hreturned] at hle
      exact absurd j.isLt (Nat.not_lt.mpr hle)
    simp [hs.printed, hmain]

theorem reachable_inv {vet : Vector int tam} {s : State int nthreads}
    (h : (system vet nthreads).Reachable s) : Inv vet s := by
  refine System.reachable_invariant (P := Inv vet) ?_ ?_ h
  · intro s hs
    cases hs
    exact inv_initial vet
  · intro s a s' _ hs hstep
    cases steps_of_step hstep with
    | main hmoves => exact inv_mainMoves hs hmoves
    | soma j _ hmoves => exact inv_moves hs hmoves

/-!
## The printed value
-/

theorem Inv.acum_eq {vet : Vector int tam} {s : State int nthreads}
    (hs : Inv vet s) (hleft : forall j, (s.threads j).pc = Pc.left) :
    s.shared.acum = visitedSum vet nthreads := by
  rw [hs.acum, ← sum_threadSum]
  apply Finset.sum_congr rfl
  intro j _
  have hne : (s.threads j).pc ≠ Pc.loop := by simp [hleft j]
  have hsomaL := (hs.adding j).somaL_eq hne
  simp only [SomaThread.contribution, hleft j]
  exact hsomaL

theorem Inv.printed_eq {vet : Vector int tam} {s : State int nthreads}
    (hs : Inv vet s) {v : int} (hv : s.printed = some v) :
    v = visitedSum vet nthreads := by
  rw [hs.printed] at hv
  split at hv
  · rename_i hmain
    cases hv
    apply hs.acum_eq
    intro j
    apply hs.joined j
    simp [hmain, MainPc.joined]
  · cases hv

/-!
## Termination

Every step of a thread brings it closer to its end and so does every step of
`main`.
-/

def SomaThread.rank (t : SomaThread int) : Nat :=
  match t.pc with
  | Pc.loop => t.dta.end_ - t.i + 5
  | Pc.lock => 4
  | Pc.load => 3
  | Pc.store => 2
  | Pc.unlock => 1
  | Pc.left => 0

def MainPc.rank (nthreads : Nat) : MainPc -> Nat
  | create i => (nthreads - i) + nthreads + 2
  | join i => (nthreads - i) + 1
  | returned => 0

def State.rank (s : State int nthreads) : Nat :=
  s.main.rank nthreads + tally SomaThread.rank s.threads

theorem rank_moves {vet : Vector int tam} {sh sh' : Shared int}
    {t t' : SomaThread int} (h : Moves vet sh t sh' t') :
    t'.rank < t.rank := by
  cases h with
  | add hpc hlt _ =>
      simp only [SomaThread.rank, hpc]
      lia
  | leaveLoop hpc _ | lock hpc _ | load hpc | store hpc | unlock hpc =>
      simp [SomaThread.rank, hpc]

theorem ranked (vet : Vector int tam) :
    System.Ranked (system vet nthreads) (system vet nthreads).Reachable
      State.rank := by
  intro s a s' _ hstep
  cases steps_of_step hstep with
  | @soma j sh t _ hmoves =>
      have hdrop := rank_moves hmoves
      have htally := tally_update SomaThread.rank s.threads j t
      simp only [State.rank]
      lia
  | main hmoves =>
      cases hmoves with
      | create hmain _ | createDone hmain _ | join _ hmain _
      | print hmain _ =>
          simp only [State.rank, MainPc.rank, hmain]
          lia

theorem run_length_le {vet : Vector int tam} {s : State int nthreads}
    {tr : List (Action nthreads)}
    (hrun : (system vet nthreads).Run (initial tam nthreads) tr s) :
    tr.length ≤ nthreads * (tam / nthreads + 7) + 2 := by
  have hinit : (system vet nthreads).Reachable (initial tam nthreads) :=
    System.reachable_init rfl
  have hle := System.run_length_le_rank (ranked vet) System.reachable_step
    hrun hinit
  have hrank : (initial tam nthreads : State int nthreads).rank =
      nthreads * (tam / nthreads + 7) + 2 := by
    have hthread : forall j : Fin nthreads,
        (SomaThread.start (dta tam nthreads j) : SomaThread int).rank =
          tam / nthreads + 5 := by
      intro j
      simp [SomaThread.rank, SomaThread.start, dta, Nat.succ_mul]
    simp only [State.rank, MainPc.rank, initial, tally, hthread,
      Finset.sum_const, Finset.card_univ, Fintype.card_fin, smul_eq_mul]
    lia
  lia

/-!
## Progress

A thread can be held up only at the mutex, and then the thread that holds the
mutex can move.
-/

theorem soma_isSome {vet : Vector int tam} {sh : Shared int}
    {t : SomaThread int} {j : Nat} (hj : j < nthreads)
    (ht : Adding vet (dta tam nthreads j) t) (hleft : t.pc ≠ Pc.left)
    (hlock : t.pc = Pc.lock -> sh.m = false) :
    exists r, soma vet sh t = some r := by
  cases hpc : t.pc with
  | loop =>
      by_cases hlt : t.i < t.dta.end_
      · rcases exists_element vet hj (ht.dta ▸ hlt) with ⟨x, hx⟩
        simp [soma, hpc, hlt, hx]
      · simp [soma, hpc, hlt]
  | lock => simp [soma, hpc, hlock hpc]
  | load | store | unlock => simp [soma, hpc]
  | left => exact absurd hpc hleft

theorem Inv.exists_step {vet : Vector int tam} {s : State int nthreads}
    (hs : Inv vet s) (hstarted : forall j, s.main.started j = true)
    {j : Fin nthreads} (hj : (s.threads j).pc ≠ Pc.left) :
    exists a s', step vet s a = some s' := by
  have hmove : forall i : Fin nthreads, (s.threads i).pc ≠ Pc.left ->
      ((s.threads i).pc = Pc.lock -> s.shared.m = false) ->
      exists a s', step vet s a = some s' := by
    intro i hleft hlock
    rcases soma_isSome i.isLt (hs.adding i) hleft hlock with ⟨r, hr⟩
    refine ⟨Action.soma i, ?_⟩
    simp [step, hstarted, hr]
  cases hm : s.shared.m with
  | false => exact hmove j hj (fun _ => hm)
  | true =>
      have hpos : 0 < census SomaThread.inside s.threads := by
        rw [hs.mutex, hm]
        decide
      rcases census_pos_iff.mp hpos with ⟨i, hi⟩
      apply hmove i
      · intro hpc
        simp [SomaThread.inside, hpc] at hi
      · intro hpc
        simp [SomaThread.inside, hpc] at hi

theorem Inv.returned_of_stuck {vet : Vector int tam}
    {s : State int nthreads} (hs : Inv vet s)
    (hstuck : (system vet nthreads).Stuck s) : s.main = MainPc.returned := by
  have hnone : mainStep s = none := hstuck Action.main
  unfold mainStep at hnone
  split at hnone
  · split at hnone <;> cases hnone
  · rename_i i hmain
    split at hnone
    · rename_i hi
      split at hnone
      · cases hnone
      · rename_i hleft
        have hstarted : forall j, s.main.started j = true := by
          intro j
          rw [hmain]
          rfl
        have hne : (s.threads ⟨i, hi⟩).pc ≠ Pc.left := by
          simpa [SomaThread.hasLeft] using hleft
        rcases hs.exists_step hstarted hne with ⟨a, s', hstep⟩
        have hblocked : step vet s a = none := hstuck a
        rw [hblocked] at hstep
        cases hstep
    · cases hnone
  · rename_i hmain
    exact hmain

/-!
## What is printed
-/

theorem ends (vet : Vector int tam) (nthreads : Nat) :
    (system vet nthreads).Ends (initial tam nthreads)
      (nthreads * (tam / nthreads + 7) + 2) fun s =>
        s.printed = some (visitedSum vet nthreads) where
  bounded := run_length_le
  ended := by
    intro tr s hrun hstuck
    have hinv := reachable_inv ⟨initial tam nthreads, tr, rfl, hrun⟩
    have hmain := hinv.returned_of_stuck hstuck
    have hprinted : s.printed = some s.shared.acum := by
      simp [hinv.printed, hmain]
    rw [hprinted, hinv.printed_eq hprinted]

/-- Every run prints the sum of the elements that belong to some thread, and
there is a run. -/
theorem prints_iff (vet : Vector int tam) (nthreads : Nat) (v : int) :
    Prints vet nthreads v <-> v = visitedSum vet nthreads := by
  constructor
  · intro h
    rcases h with ⟨s, hs, hv⟩
    exact (reachable_inv hs).printed_eq hv
  · intro hv
    rcases (ends vet nthreads).exists_run (System.Run.nil _) with
      ⟨tr, s, hrun, _, hprinted⟩
    exact ⟨s, ⟨_, tr, rfl, hrun⟩, hv ▸ hprinted⟩

end Ex1a
end Soma
end PThreads
end IPPD
