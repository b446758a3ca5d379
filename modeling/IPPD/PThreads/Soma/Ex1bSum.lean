import IPPD.PThreads.Soma.Ex1b

/-!
# What the sum without shared data prints

Every allocated cell belongs to exactly one thread that has not been joined,
and holds the sum of the elements that the thread has visited.  `main` adds the
cells in index order, so `acum` is the sum of a prefix of the vector.
-/

namespace IPPD
namespace PThreads
namespace Soma
namespace Ex1b

open Foundation

/-!
## Progress of `main`
-/

/-- The threads that were joined are those with a smaller index. -/
def MainPc.joined (nthreads : Nat) : MainPc -> Nat
  | create _ => 0
  | join k => k
  | add k | free k => k + 1
  | returned => nthreads

/-- The threads whose result is in `acum`. -/
def MainPc.added (nthreads : Nat) : MainPc -> Nat
  | create _ => 0
  | join k | add k => k
  | free k => k + 1
  | returned => nthreads

/-- The threads whose cell was freed. -/
def MainPc.freed (nthreads : Nat) : MainPc -> Nat
  | create _ => 0
  | join k | add k | free k => k
  | returned => nthreads

/-- The thread whose cell `aux` points to. -/
def MainPc.collecting : MainPc -> Option Nat
  | add k | free k => some k
  | _ => none

theorem MainPc.freed_le_joined (nthreads : Nat) (pc : MainPc) :
    pc.freed nthreads ≤ pc.joined nthreads := by
  cases pc <;> simp [freed, joined]

variable {int : Type u} [AddCommMonoid int] {tam nthreads : Nat}

/-!
## The cell of a thread
-/

/-- The cell a thread has allocated, with the value it has given it. -/
def SomaThread.cell (vet : Vector int tam) (t : SomaThread int) :
    Option (Nat × Option int) :=
  match t.pc with
  | Pc.malloc => none
  | Pc.zero => some (t.somaL, none)
  | Pc.loop | Pc.store | Pc.left =>
      some (t.somaL, some (segmentSum vet.toList t.dta.begin_ t.i))

/-- The owner of each cell; the freed ones have none. -/
def State.owner (vet : Vector int tam) (s : State int nthreads) :
    Owner (Fin nthreads) int :=
  fun j =>
    if j.val < s.main.freed nthreads then none else (s.threads j).cell vet

theorem owner_of_le (vet : Vector int tam) {s : State int nthreads}
    {j : Fin nthreads} (h : s.main.freed nthreads ≤ j.val) :
    s.owner vet j = (s.threads j).cell vet := by
  unfold State.owner
  rw [if_neg (by lia)]

theorem owner_congr (vet : Vector int tam) {s s' : State int nthreads}
    (hfreed : s'.main.freed nthreads = s.main.freed nthreads)
    (hthreads : s'.threads = s.threads) : s'.owner vet = s.owner vet := by
  unfold State.owner
  rw [hfreed, hthreads]

theorem owner_update {vet : Vector int tam} {s : State int nthreads}
    {j : Fin nthreads} (h : s.main.freed nthreads ≤ j.val)
    (heap : Heap int) (t : SomaThread int) :
    State.owner vet
        { s with
          heap := heap
          threads := Function.update s.threads j t } =
      Function.update (s.owner vet) j (t.cell vet) := by
  funext i
  by_cases hij : i = j
  · subst hij
    simp [State.owner, Nat.not_lt.mpr h]
  · rw [Function.update_of_ne hij]
    simp [State.owner, hij]

/-!
## The loop of a thread
-/

structure Adding (vet : Vector int tam) (d : VetorThread)
    (t : SomaThread int) : Prop where
  dta : t.dta = d
  lower : d.begin_ ≤ t.i
  upper : t.i ≤ d.end_
  starting : t.pc = Pc.malloc ∨ t.pc = Pc.zero -> t.i = d.begin_
  storing : t.pc = Pc.store ->
    t.i < d.end_ ∧ t.loaded = segmentSum vet.toList d.begin_ (t.i + 1)
  complete : t.pc = Pc.left -> t.i = d.end_

theorem adding_start (vet : Vector int tam) {d : VetorThread}
    (h : d.begin_ ≤ d.end_) : Adding vet d (SomaThread.start d) where
  dta := rfl
  lower := Nat.le_refl _
  upper := h
  starting := fun _ => rfl
  storing := by simp [SomaThread.start]
  complete := by simp [SomaThread.start]

theorem adding_moves {vet : Vector int tam} {d : VetorThread}
    {heap heap' : Heap int} {t t' : SomaThread int}
    (ht : Adding vet d t)
    (hcell : forall {a v}, t.cell vet = some (a, some v) ->
      heap.load a = some v)
    (h : Moves vet heap t heap' t') : Adding vet d t' := by
  cases h with
  | malloc hpc _ =>
      have hstart := ht.starting (Or.inl hpc)
      exact
        { ht with
          starting := fun _ => hstart
          storing := by simp
          complete := by simp }
  | zero hpc _ =>
      exact
        { ht with
          starting := by simp
          storing := by simp
          complete := by simp }
  | @load x y hpc hlt hload hx =>
      have hlt' : t.i < d.end_ := ht.dta ▸ hlt
      have hy : y = segmentSum vet.toList d.begin_ t.i := by
        have hheld := hcell (by rw [SomaThread.cell, hpc])
        rw [hload] at hheld
        cases hheld
        rw [ht.dta]
      have hsum : y + x = segmentSum vet.toList d.begin_ (t.i + 1) := by
        rw [segmentSum_succ ht.lower (by simpa using hx), hy]
      exact
        { ht with
          starting := by simp
          storing := fun _ => ⟨hlt', hsum⟩
          complete := by simp }
  | leave hpc hge =>
      have hge' : d.end_ ≤ t.i := ht.dta ▸ hge
      exact
        { ht with
          starting := by simp
          storing := by simp
          complete := fun _ => Nat.le_antisymm ht.upper hge' }
  | store hpc _ =>
      have hlt := (ht.storing hpc).left
      exact
        { ht with
          lower := Nat.le_succ_of_le ht.lower
          upper := hlt
          starting := by simp
          storing := by simp
          complete := by simp }

theorem owned_moves {vet : Vector int tam} {d : VetorThread}
    {heap heap' : Heap int} {own : Owner (Fin nthreads) int}
    {j : Fin nthreads} {t t' : SomaThread int}
    (ht : Adding vet d t) (hown : Owned heap own)
    (hj : own j = t.cell vet) (h : Moves vet heap t heap' t') :
    Owned heap' (Function.update own j (t'.cell vet)) := by
  have hsame : t'.cell vet = own j ->
      Owned heap (Function.update own j (t'.cell vet)) := by
    intro hcell
    rw [hcell, Function.update_eq_self]
    exact hown
  cases h with
  | malloc hpc hmalloc =>
      simp only [SomaThread.cell, hpc] at hj
      exact hown.malloc hj hmalloc
  | zero hpc hstore =>
      have hstart := ht.starting (Or.inr hpc)
      simp only [SomaThread.cell, hpc] at hj
      have hnew := hown.store hj hstore
      simpa [SomaThread.cell, hstart, ht.dta] using hnew
  | load hpc _ _ _ =>
      apply hsame
      rw [hj]
      simp [SomaThread.cell, hpc]
  | leave hpc _ =>
      apply hsame
      rw [hj]
      simp [SomaThread.cell, hpc]
  | store hpc hstore =>
      have hloaded := (ht.storing hpc).right
      simp only [SomaThread.cell, hpc] at hj
      have hnew := hown.store hj hstore
      simpa [SomaThread.cell, hloaded, ht.dta] using hnew

/-!
## The invariant
-/

structure Inv (vet : Vector int tam) (s : State int nthreads) : Prop where
  adding : forall j : Fin nthreads,
    Adding vet (dta tam nthreads j) (s.threads j)
  owned : Owned s.heap (s.owner vet)
  joined_le : s.main.joined nthreads ≤ nthreads
  joined : forall j : Fin nthreads, j.val < s.main.joined nthreads ->
    (s.threads j).pc = Pc.left
  aux : forall j : Fin nthreads, s.main.collecting = some j.val ->
    s.aux = (s.threads j).somaL
  acum : s.acum = visitedBy vet nthreads (s.main.added nthreads)
  printed : s.printed =
    if s.main = MainPc.returned then some s.acum else none

theorem inv_initial (vet : Vector int tam) :
    Inv vet (initial tam nthreads) where
  adding := fun j => adding_start vet (begin_le_end tam nthreads j)
  owned := by
    have hnone : State.owner vet (initial tam nthreads) = fun _ => none := by
      funext j
      rw [owner_of_le vet (Nat.zero_le _)]
      rfl
    rw [hnone]
    exact Owned.empty
  joined_le := Nat.zero_le _
  joined := by
    intro j hj
    exact absurd hj (Nat.not_lt_zero _)
  aux := by
    intro j hj
    cases hj
  acum := (visitedBy_zero vet nthreads).symm
  printed := rfl

theorem Inv.collected {vet : Vector int tam} {s : State int nthreads}
    (hs : Inv vet s) {k : Nat}
    (hmain : s.main = MainPc.add k ∨ s.main = MainPc.free k) :
    exists hk : k < nthreads, s.owner vet ⟨k, hk⟩ =
      some (s.aux, some (threadSum vet nthreads k)) := by
  have hjoined : s.main.joined nthreads = k + 1 := by
    rcases hmain with h | h <;> rw [h] <;> rfl
  have hfreed : s.main.freed nthreads = k := by
    rcases hmain with h | h <;> rw [h] <;> rfl
  have hcollecting : s.main.collecting = some k := by
    rcases hmain with h | h <;> rw [h] <;> rfl
  have hk : k < nthreads := by
    have := hs.joined_le
    lia
  have hleft : (s.threads ⟨k, hk⟩).pc = Pc.left :=
    hs.joined ⟨k, hk⟩ (by simp [hjoined])
  have hadding := hs.adding ⟨k, hk⟩
  refine ⟨hk, ?_⟩
  rw [owner_of_le vet (by simp [hfreed]), hs.aux ⟨k, hk⟩ hcollecting]
  simp only [SomaThread.cell, hleft, hadding.dta, hadding.complete hleft]
  rfl

theorem Inv.owned_of_eq {vet : Vector int tam} {s s' : State int nthreads}
    (hs : Inv vet s) (hheap : s'.heap = s.heap)
    (hfreed : s'.main.freed nthreads = s.main.freed nthreads)
    (hthreads : s'.threads = s.threads) :
    Owned s'.heap (s'.owner vet) := by
  rw [hheap, owner_congr vet hfreed hthreads]
  exact hs.owned

theorem Inv.join_eq {vet : Vector int tam} {s : State int nthreads}
    (hs : Inv vet s) {k : Nat} (hmain : s.main = MainPc.join k)
    (hk : nthreads ≤ k) : k = nthreads := by
  have hle := hs.joined_le
  rw [hmain] at hle
  exact Nat.le_antisymm hle hk

theorem owned_mainMoves {vet : Vector int tam} {s s' : State int nthreads}
    (hs : Inv vet s) (h : MainMoves s s') :
    Owned s'.heap (s'.owner vet) := by
  cases h with
  | create hmain _ | createDone hmain _ | join _ hmain _ | add hmain _ =>
      exact hs.owned_of_eq rfl (by rw [hmain]; rfl) rfl
  | print hmain hk =>
      have hkeq := hs.join_eq hmain hk
      exact hs.owned_of_eq rfl (by rw [hmain, hkeq]; rfl) rfl
  | @free k heap hmain hfree =>
      rcases hs.collected (Or.inr hmain) with ⟨hk, hcell⟩
      have hnew := hs.owned.free hcell hfree
      have howner : Function.update (s.owner vet) ⟨k, hk⟩ none =
          State.owner vet
            { s with main := MainPc.join (k + 1), heap := heap } := by
        funext j
        by_cases hjk : j = ⟨k, hk⟩
        · subst hjk
          simp [State.owner, MainPc.freed]
        · have hne : j.val ≠ k := fun heq => hjk (Fin.ext heq)
          rw [Function.update_of_ne hjk]
          simp only [State.owner, hmain, MainPc.freed]
          split_ifs <;> first | rfl | lia
      rw [howner] at hnew
      exact hnew

theorem joined_mainMoves {vet : Vector int tam} {s s' : State int nthreads}
    (hs : Inv vet s) (h : MainMoves s s') {j : Fin nthreads}
    (hj : j.val < s'.main.joined nthreads) :
    (s'.threads j).pc = Pc.left := by
  have hjoined := hs.joined j
  cases h with
  | create _ _ | createDone _ _ => exact absurd hj (Nat.not_lt_zero _)
  | @join k hk hmain hleft =>
      by_cases hjk : j.val = k
      · have hj' : j = ⟨k, hk⟩ := Fin.ext hjk
        rw [hj']
        exact hleft
      · rw [hmain] at hjoined
        simp only [MainPc.joined] at hj hjoined
        exact hjoined (by lia)
  | print hmain hk =>
      rw [hmain] at hjoined
      exact hjoined (Nat.lt_of_lt_of_le hj hk)
  | add hmain _ | free hmain _ =>
      rw [hmain] at hjoined
      exact hjoined hj

theorem acum_mainMoves {vet : Vector int tam} {s s' : State int nthreads}
    (hs : Inv vet s) (h : MainMoves s s') :
    s'.acum = visitedBy vet nthreads (s'.main.added nthreads) := by
  have hacum := hs.acum
  cases h with
  | createDone _ _ => exact (visitedBy_zero vet nthreads).symm
  | create hmain _ | join _ hmain _ | free hmain _ =>
      rw [hmain] at hacum
      exact hacum
  | print hmain hk =>
      rw [hmain, hs.join_eq hmain hk] at hacum
      exact hacum
  | @add k v hmain hload =>
      rcases hs.collected (Or.inl hmain) with ⟨hk, hcell⟩
      rw [hs.owned.load hcell] at hload
      cases hload
      rw [hmain] at hacum
      simp only [MainPc.added] at hacum ⊢
      rw [visitedBy_succ, hacum]

theorem inv_mainMoves {vet : Vector int tam} {s s' : State int nthreads}
    (hs : Inv vet s) (h : MainMoves s s') : Inv vet s' where
  adding := by
    cases h <;> exact hs.adding
  owned := owned_mainMoves hs h
  joined_le := by
    cases h with
    | create _ _ | createDone _ _ => exact Nat.zero_le _
    | join hk _ _ => exact hk
    | print _ _ => exact Nat.le_refl _
    | add hmain _ | free hmain _ =>
        have hle := hs.joined_le
        rw [hmain] at hle
        exact hle
  joined := fun j hj => joined_mainMoves hs h hj
  aux := by
    intro j hj
    cases h with
    | create _ _ | createDone _ _ | print _ _ | free _ _ => cases hj
    | join _ _ _ =>
        cases hj
        rfl
    | add hmain _ => exact hs.aux j (by rw [hmain]; exact hj)
  acum := acum_mainMoves hs h
  printed := by
    have hprinted := hs.printed
    cases h with
    | print _ _ => simp
    | create hmain _ | createDone hmain _ | join _ hmain _ | add hmain _
    | free hmain _ => simp [hprinted, hmain]

theorem Inv.not_joined {vet : Vector int tam} {s : State int nthreads}
    (hs : Inv vet s) {j : Fin nthreads} {heap : Heap int}
    {t : SomaThread int} (h : Moves vet s.heap (s.threads j) heap t) :
    s.main.joined nthreads ≤ j.val := by
  by_contra hlt
  have hleft := hs.joined j (by lia)
  cases h with
  | malloc hpc _ | zero hpc _ | load hpc _ _ _ | leave hpc _
  | store hpc _ =>
      rw [hleft] at hpc
      cases hpc

theorem inv_moves {vet : Vector int tam} {s : State int nthreads}
    (hs : Inv vet s) {j : Fin nthreads} {heap : Heap int}
    {t : SomaThread int} (h : Moves vet s.heap (s.threads j) heap t) :
    Inv vet
      { s with
        heap := heap
        threads := Function.update s.threads j t } := by
  have hjoined := hs.not_joined h
  have hfreed : s.main.freed nthreads ≤ j.val :=
    Nat.le_trans (MainPc.freed_le_joined nthreads s.main) hjoined
  have hcell := owner_of_le vet hfreed
  refine { hs with adding := ?_, owned := ?_, joined := ?_, aux := ?_ }
  · intro i
    dsimp only
    by_cases hij : i = j
    · subst hij
      rw [Function.update_self]
      refine adding_moves (hs.adding i) ?_ h
      intro a v hav
      exact hs.owned.load (hcell.trans hav)
    · rw [Function.update_of_ne hij]
      exact hs.adding i
  · rw [owner_update hfreed]
    exact owned_moves (hs.adding j) hs.owned hcell h
  · intro i hi
    have hij : i ≠ j := by
      intro heq
      rw [heq] at hi
      exact absurd hi (Nat.not_lt.mpr hjoined)
    dsimp only
    rw [Function.update_of_ne hij]
    exact hs.joined i hi
  · intro i hi
    have hij : i ≠ j := by
      intro heq
      -- the collected thread was joined
      have hlt : i.val < s.main.joined nthreads := by
        cases hmain : s.main with
        | add k | free k =>
            rw [hmain] at hi
            cases hi
            exact Nat.lt_succ_self _
        | create _ | join _ | returned =>
            rw [hmain] at hi
            cases hi
      rw [heq] at hlt
      exact absurd hlt (Nat.not_lt.mpr hjoined)
    dsimp only
    rw [Function.update_of_ne hij]
    exact hs.aux i hi

theorem reachable_inv {vet : Vector int tam} {s : State int nthreads}
    (h : (system vet nthreads).Reachable s) : Inv vet s := by
  refine System.reachable_invariant (P := Inv vet) ?_ ?_ h
  · intro s hs
    cases hs
    exact inv_initial vet
  · intro s a s' _ hs hstep
    cases steps_of_step hstep with
    | main hmoves => exact inv_mainMoves hs hmoves
    | soma j _ hmoves => exact inv_moves hs hmoves

/-!
## The end of a run
-/

theorem Inv.printed_eq {vet : Vector int tam} {s : State int nthreads}
    (hs : Inv vet s) {v : int} (hv : s.printed = some v) :
    v = visitedSum vet nthreads := by
  rw [hs.printed] at hv
  split at hv
  · rename_i hmain
    cases hv
    rw [hs.acum, hmain]
    rfl
  · cases hv

/-- Every cell has been freed when `main` has printed. -/
theorem heap_empty_of_returned {vet : Vector int tam}
    {s : State int nthreads} (h : (system vet nthreads).Reachable s)
    (hmain : s.main = MainPc.returned) : s.heap = fun _ => none := by
  apply (reachable_inv h).owned.heap_eq_empty
  intro j
  simp [State.owner, hmain, MainPc.freed]

/-!
## Termination
-/

def SomaThread.rank (t : SomaThread int) : Nat :=
  match t.pc with
  | Pc.malloc => 2 * (t.dta.end_ - t.i) + 4
  | Pc.zero => 2 * (t.dta.end_ - t.i) + 3
  | Pc.loop => 2 * (t.dta.end_ - t.i) + 2
  | Pc.store => 2 * (t.dta.end_ - t.i) + 1
  | Pc.left => 0

def MainPc.rank (nthreads : Nat) : MainPc -> Nat
  | create i => (nthreads - i) + 3 * nthreads + 2
  | join i => 3 * (nthreads - i) + 1
  | add i => 3 * (nthreads - i)
  | free i => 3 * (nthreads - i) - 1
  | returned => 0

def State.rank (s : State int nthreads) : Nat :=
  s.main.rank nthreads + tally SomaThread.rank s.threads

theorem rank_moves {vet : Vector int tam} {d : VetorThread}
    {heap heap' : Heap int} {t t' : SomaThread int}
    (ht : Adding vet d t) (h : Moves vet heap t heap' t') :
    t'.rank < t.rank := by
  cases h with
  | store hpc _ =>
      have hlt := (ht.storing hpc).left
      rw [← ht.dta] at hlt
      simp only [SomaThread.rank, hpc]
      lia
  | malloc hpc _ | zero hpc _ | load hpc _ _ _ | leave hpc _ =>
      simp [SomaThread.rank, hpc]

theorem rank_mainMoves {vet : Vector int tam} {s s' : State int nthreads}
    (hs : Inv vet s) (h : MainMoves s s') : s'.rank < s.rank := by
  cases h with
  | create hmain _ | createDone hmain _ | join _ hmain _
  | print hmain _ =>
      simp only [State.rank, MainPc.rank, hmain]
      lia
  | add hmain _ =>
      rcases hs.collected (Or.inl hmain) with ⟨hk, _⟩
      simp only [State.rank, MainPc.rank, hmain]
      lia
  | free hmain _ =>
      rcases hs.collected (Or.inr hmain) with ⟨hk, _⟩
      simp only [State.rank, MainPc.rank, hmain]
      lia

theorem ranked (vet : Vector int tam) :
    System.Ranked (system vet nthreads) (system vet nthreads).Reachable
      State.rank := by
  intro s a s' hreach hstep
  have hs := reachable_inv hreach
  cases steps_of_step hstep with
  | @soma j heap t _ hmoves =>
      have hdrop := rank_moves (hs.adding j) hmoves
      have htally := tally_update SomaThread.rank s.threads j t
      simp only [State.rank]
      lia
  | main hmoves => exact rank_mainMoves hs hmoves

theorem run_length_le {vet : Vector int tam} {s : State int nthreads}
    {tr : List (Action nthreads)}
    (hrun : (system vet nthreads).Run (initial tam nthreads) tr s) :
    tr.length ≤ nthreads * (2 * (tam / nthreads) + 8) + 2 := by
  have hinit : (system vet nthreads).Reachable (initial tam nthreads) :=
    System.reachable_init rfl
  have hle := System.run_length_le_rank (ranked vet) System.reachable_step
    hrun hinit
  have hrank : (initial tam nthreads : State int nthreads).rank =
      nthreads * (2 * (tam / nthreads) + 8) + 2 := by
    have hthread : forall j : Fin nthreads,
        (SomaThread.start (dta tam nthreads j) : SomaThread int).rank =
          2 * (tam / nthreads) + 4 := by
      intro j
      simp [SomaThread.rank, SomaThread.start, dta, Nat.succ_mul]
    simp only [State.rank, MainPc.rank, initial, tally, hthread,
      Finset.sum_const, Finset.card_univ, Fintype.card_fin, smul_eq_mul]
    lia
  lia

/-!
## Progress

No thread ever waits: `malloc` finds an address and every other access is to
the own cell of the thread.
-/

theorem Inv.soma_isSome {vet : Vector int tam} {s : State int nthreads}
    (hs : Inv vet s) {j : Fin nthreads}
    (hfreed : s.main.freed nthreads ≤ j.val)
    (hleft : (s.threads j).pc ≠ Pc.left) :
    exists a r, soma vet a s.heap (s.threads j) = some r := by
  have hcell := owner_of_le vet hfreed
  cases hpc : (s.threads j).pc with
  | malloc =>
      rcases hs.owned.malloc_isSome with ⟨a, heap, hmalloc⟩
      exact ⟨a, by simp [soma, hpc, hmalloc]⟩
  | zero =>
      simp only [SomaThread.cell, hpc] at hcell
      rcases hs.owned.store_isSome hcell 0 with ⟨heap, hstore⟩
      exact ⟨0, by simp [soma, hpc, hstore]⟩
  | loop =>
      simp only [SomaThread.cell, hpc] at hcell
      have hload := hs.owned.load hcell
      by_cases hlt : (s.threads j).i < (s.threads j).dta.end_
      · have hlt' : (s.threads j).i < (dta tam nthreads j).end_ :=
          (hs.adding j).dta ▸ hlt
        rcases exists_element vet j.isLt hlt' with ⟨x, hx⟩
        exact ⟨0, by simp [soma, hpc, hlt, hload, hx]⟩
      · exact ⟨0, by simp [soma, hpc, hlt]⟩
  | store =>
      simp only [SomaThread.cell, hpc] at hcell
      rcases hs.owned.store_isSome hcell (s.threads j).loaded with
        ⟨heap, hstore⟩
      exact ⟨0, by simp [soma, hpc, hstore]⟩
  | left => exact absurd hpc hleft

theorem Inv.returned_of_stuck {vet : Vector int tam}
    {s : State int nthreads} (hs : Inv vet s)
    (hstuck : (system vet nthreads).Stuck s) : s.main = MainPc.returned := by
  have hnone : mainStep s = none := hstuck Action.main
  cases hmain : s.main with
  | returned => rfl
  | create i =>
      simp only [mainStep, hmain] at hnone
      split at hnone <;> cases hnone
  | join i =>
      simp only [mainStep, hmain] at hnone
      split at hnone
      · rename_i hi
        split at hnone
        · cases hnone
        · rename_i hleft
          have hne : (s.threads ⟨i, hi⟩).pc ≠ Pc.left := by
            simpa [SomaThread.hasLeft] using hleft
          rcases hs.soma_isSome (by simp [hmain, MainPc.freed]) hne with
            ⟨a, r, hr⟩
          have hblocked : step vet s (Action.soma ⟨i, hi⟩ a) = none :=
            hstuck (Action.soma ⟨i, hi⟩ a)
          simp [step, hmain, MainPc.started, hr] at hblocked
      · cases hnone
  | add i =>
      rcases hs.collected (Or.inl hmain) with ⟨hi, hcell⟩
      simp [mainStep, hmain, hs.owned.load hcell] at hnone
  | free i =>
      rcases hs.collected (Or.inr hmain) with ⟨hi, hcell⟩
      rcases hs.owned.free_isSome hcell with ⟨heap, hfree⟩
      simp [mainStep, hmain, hfree] at hnone

/-!
## What is printed
-/

theorem ends (vet : Vector int tam) (nthreads : Nat) :
    (system vet nthreads).Ends (initial tam nthreads)
      (nthreads * (2 * (tam / nthreads) + 8) + 2) fun s =>
        s.printed = some (visitedSum vet nthreads) where
  bounded := run_length_le
  ended := by
    intro tr s hrun hstuck
    have hinv := reachable_inv ⟨initial tam nthreads, tr, rfl, hrun⟩
    have hmain := hinv.returned_of_stuck hstuck
    have hprinted : s.printed = some s.acum := by
      simp [hinv.printed, hmain]
    rw [hprinted, hinv.printed_eq hprinted]

/-- Every run prints the sum of the elements that belong to some thread, and
there is a run. -/
theorem prints_iff (vet : Vector int tam) (nthreads : Nat) (v : int) :
    Prints vet nthreads v <-> v = visitedSum vet nthreads := by
  constructor
  · intro h
    rcases h with ⟨s, hs, hv⟩
    exact (reachable_inv hs).printed_eq hv
  · intro hv
    rcases (ends vet nthreads).exists_run (System.Run.nil _) with
      ⟨tr, s, hrun, _, hprinted⟩
    exact ⟨s, ⟨_, tr, rfl, hrun⟩, hv ▸ hprinted⟩

end Ex1b
end Soma
end PThreads
end IPPD
