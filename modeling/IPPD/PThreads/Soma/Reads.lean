import IPPD.Foundation.AccessLog
import IPPD.PThreads.Soma.Ex1aSum
import IPPD.PThreads.Soma.Ex1bSum

/-!
# Which thread reads which element

The segments follow one another without a gap and stay within the vector, in
`int` arithmetic too.  In every complete run a thread reads exactly the indices
of its segment, each once; the remainder of the division is read by no thread.
-/

namespace IPPD
namespace PThreads
namespace Soma

open Foundation

/-!
## Segments
-/

def InSegment (tam nthreads j k : Nat) : Prop :=
  (dta tam nthreads j).begin_ ≤ k ∧ k < (dta tam nthreads j).end_

/-- The segments divide the front of the vector, and leave out the remainder of
the division. -/
structure Tiling (tam nthreads : Nat) : Prop where
  consecutive : forall i,
    (dta tam nthreads i).end_ = (dta tam nthreads (i + 1)).begin_
  disjoint : forall i j k,
    InSegment tam nthreads i k -> InSegment tam nthreads j k -> i = j
  inside : forall j k, j < nthreads -> InSegment tam nthreads j k -> k < tam
  rest : forall k, k < tam ->
    ((forall j, j < nthreads -> ¬ InSegment tam nthreads j k) <->
      tam - tam % nthreads ≤ k)

variable {tam nthreads : Nat}

theorem inSegment_iff {j k : Nat} :
    InSegment tam nthreads j k <->
      0 < tam / nthreads ∧ k / (tam / nthreads) = j := by
  unfold InSegment dta
  generalize tam / nthreads = q
  rcases Nat.eq_zero_or_pos q with hq | hq
  · subst hq
    simp
  · rw [Nat.div_eq_iff hq, Nat.succ_mul]
    constructor
    · intro h
      exact ⟨hq, h.left, by lia⟩
    · intro h
      exact ⟨h.right.left, by lia⟩

theorem mul_div_eq_sub_mod (tam nthreads : Nat) :
    nthreads * (tam / nthreads) = tam - tam % nthreads := by
  have hsum := Nat.div_add_mod tam nthreads
  lia

theorem exists_inSegment_iff {k : Nat} :
    (exists j, j < nthreads ∧ InSegment tam nthreads j k) <->
      k < tam - tam % nthreads := by
  rw [← mul_div_eq_sub_mod]
  constructor
  · intro h
    rcases h with ⟨j, hj, hk⟩
    exact Nat.lt_of_lt_of_le hk.right (Nat.mul_le_mul_right _ hj)
  · intro hk
    have hq : 0 < tam / nthreads := by
      apply Nat.pos_of_ne_zero
      intro hzero
      rw [hzero, Nat.mul_zero] at hk
      exact Nat.not_lt_zero k hk
    exact ⟨k / (tam / nthreads),
      (Nat.div_lt_iff_lt_mul hq).mpr hk, inSegment_iff.mpr ⟨hq, rfl⟩⟩

theorem tiling (tam nthreads : Nat) : Tiling tam nthreads where
  consecutive := fun _ => rfl
  disjoint := by
    intro i j k hi hj
    rw [← (inSegment_iff.mp hi).right, (inSegment_iff.mp hj).right]
  inside := by
    intro j k hj hk
    exact Nat.lt_of_lt_of_le hk.right (end_le_tam hj)
  rest := by
    intro k _
    rw [← Nat.not_lt, ← exists_inSegment_iff]
    constructor
    · intro h hex
      rcases hex with ⟨j, hj, hk⟩
      exact h j hj hk
    · intro h j hj hk
      exact h ⟨j, hj, hk⟩

/-!
## The reads of a complete run
-/

/-- Every index before the remainder of the division is read exactly once, by
the thread of its segment, and no other index is read. -/
structure ReadOnce (tam nthreads : Nat) (log : AccessLog (Fin nthreads)) :
    Prop where
  segment : forall (j : Fin nthreads) (k : Nat),
    (j, k) ∈ log <-> InSegment tam nthreads j k
  nodup : log.Nodup
  one : forall k, k < tam - tam % nthreads -> ∃! j, (j, k) ∈ log
  unread : forall k, k < tam ->
    ((forall j, (j, k) ∉ log) <-> tam - tam % nthreads ≤ k)

theorem readOnce_of_walks {log : AccessLog (Fin nthreads)}
    (h : AccessLog.Walks
      (fun j : Fin nthreads => (dta tam nthreads j).begin_)
      (fun j : Fin nthreads => (dta tam nthreads j).end_) log) :
    ReadOnce tam nthreads log where
  segment := fun _ _ => h.mem_iff
  nodup := h.nodup
  one := by
    intro k hk
    rcases exists_inSegment_iff.mpr hk with ⟨j, hj, hseg⟩
    refine ⟨⟨j, hj⟩, h.mem_iff.mpr hseg, ?_⟩
    intro i hi
    exact Fin.ext ((tiling tam nthreads).disjoint i j k (h.mem_iff.mp hi) hseg)
  unread := by
    intro k hk
    rw [← (tiling tam nthreads).rest k hk]
    constructor
    · intro hnone j hj hseg
      exact hnone ⟨j, hj⟩ (h.mem_iff.mpr hseg)
    · intro hnone j hj
      exact hnone j j.isLt (h.mem_iff.mp hj)

namespace Ex1a

/-!
## The sum with a mutex
-/

variable {int : Type u} [AddCommMonoid int]

/-- The index that the next step of the thread reads, if it reads one. -/
def SomaThread.reads (t : SomaThread int) : Option Nat :=
  match t.pc with
  | Pc.loop => if t.i < t.dta.end_ then some t.i else none
  | _ => none

def reads (s : State int nthreads) :
    Action nthreads -> Option (Fin nthreads × Nat)
  | Action.main => none
  | Action.soma j => (s.threads j).reads.map fun k => (j, k)

/-- What the threads read in a run, in order. -/
def log (vet : Vector int tam) (nthreads : Nat)
    (tr : List (Action nthreads)) : AccessLog (Fin nthreads) :=
  (system vet nthreads).observe reads (initial tam nthreads) tr

theorem soma_congr {vet vet' : Vector int tam} {sh : Shared int}
    {t : SomaThread int}
    (h : forall k, t.reads = some k -> vet[k]? = vet'[k]?) :
    soma vet sh t = soma vet' sh t := by
  unfold soma
  cases hpc : t.pc with
  | loop =>
      by_cases hlt : t.i < t.dta.end_
      · have hread := h t.i (by simp [SomaThread.reads, hpc, hlt])
        simp only [hlt, if_true, hread]
      · simp only [hlt, if_false]
  | lock | load | store | unlock | left => rfl

theorem step_congr {vet vet' : Vector int tam} {s : State int nthreads}
    {a : Action nthreads}
    (h : forall j k, reads s a = some (j, k) -> vet[k]? = vet'[k]?) :
    step vet s a = step vet' s a := by
  cases a with
  | main => rfl
  | soma j =>
      have hsoma : soma vet s.shared (s.threads j) =
          soma vet' s.shared (s.threads j) :=
        soma_congr fun k hk => h j k (by rw [reads, hk]; rfl)
      simp only [step, hsoma]

theorem adds_of_reads {vet : Vector int tam} {s s' : State int nthreads}
    {a : Action nthreads} {j : Fin nthreads} {k : Nat}
    (hstep : step vet s a = some s') (hreads : reads s a = some (j, k)) :
    exists x, vet[k]? = some x ∧
      (s'.threads j).somaL = (s.threads j).somaL + x := by
  cases a with
  | main => cases hreads
  | soma i =>
      rcases Option.map_eq_some_iff.mp hreads with ⟨m, hm, heq⟩
      cases heq
      rcases step_soma hstep with ⟨_, sh, t, hmoves, rfl⟩
      simp only [Function.update_self]
      cases hmoves with
      | add hpc hlt hx =>
          simp only [SomaThread.reads, hpc, hlt, if_true, Option.some_inj] at hm
          exact ⟨_, hm ▸ hx, rfl⟩
      | leaveLoop hpc hge =>
          simp only [SomaThread.reads, hpc, Nat.not_lt.mpr hge, if_false] at hm
          cases hm
      | lock hpc _ | load hpc | store hpc | unlock hpc =>
          simp [SomaThread.reads, hpc] at hm

theorem reads_moves {vet : Vector int tam} {sh sh' : Shared int}
    {t t' : SomaThread int} (h : Moves vet sh t sh' t') :
    (t.reads = some t.i ∧ t'.i = t.i + 1) ∨ (t.reads = none ∧ t'.i = t.i) := by
  cases h with
  | add hpc hlt _ => exact Or.inl ⟨by simp [SomaThread.reads, hpc, hlt], rfl⟩
  | leaveLoop hpc hge =>
      exact Or.inr ⟨by simp [SomaThread.reads, hpc, hge], rfl⟩
  | lock hpc _ | load hpc | store hpc | unlock hpc =>
      exact Or.inr ⟨by simp [SomaThread.reads, hpc], rfl⟩

/-- Where the threads have come. -/
def State.next (s : State int nthreads) (j : Fin nthreads) : Nat :=
  (s.threads j).i

theorem advances_step {vet : Vector int tam} {s s' : State int nthreads}
    {a : Action nthreads} (hstep : step vet s a = some s') :
    AccessLog.Advances s.next (reads s a) s'.next := by
  cases a with
  | main =>
      have hnext : s'.next = s.next := by
        cases mainMoves_of_mainStep hstep <;> rfl
      rw [hnext]
      exact AccessLog.Advances.still
  | soma j =>
      rcases step_soma hstep with ⟨_, sh, t, hmoves, hs'⟩
      have hnext : s'.next = Function.update s.next j t.i := by
        rw [hs']
        exact map_update (fun t : SomaThread int => t.i) s.threads j t
      rw [hnext, reads]
      exact AccessLog.advances_thread (reads_moves hmoves)

theorem walks_run {vet : Vector int tam} {s : State int nthreads}
    {tr : List (Action nthreads)}
    (hrun : (system vet nthreads).Run (initial tam nthreads) tr s) :
    AccessLog.Walks (fun j : Fin nthreads => (dta tam nthreads j).begin_)
      s.next (log vet nthreads tr) :=
  AccessLog.walks_run State.next advances_step hrun

theorem reads_inside {vet : Vector int tam} {s : State int nthreads}
    {tr : List (Action nthreads)}
    (hrun : (system vet nthreads).Run (initial tam nthreads) tr s)
    {j : Fin nthreads} {k : Nat}
    (hk : (j, k) ∈ log vet nthreads tr) : k < tam := by
  have hs := reachable_inv ⟨initial tam nthreads, tr, rfl, hrun⟩
  have hlt := ((walks_run hrun).mem_iff.mp hk).right
  have hle : (dta tam nthreads j).end_ ≤ tam := end_le_tam j.isLt
  have hupper : s.next j ≤ (dta tam nthreads j).end_ := (hs.adding j).upper
  lia

theorem readOnce {vet : Vector int tam} {s : State int nthreads}
    {tr : List (Action nthreads)}
    (hrun : (system vet nthreads).Run (initial tam nthreads) tr s)
    (hstuck : (system vet nthreads).Stuck s) :
    ReadOnce tam nthreads (log vet nthreads tr) := by
  have hs := reachable_inv ⟨initial tam nthreads, tr, rfl, hrun⟩
  have hmain := hs.returned_of_stuck hstuck
  have hend : s.next =
      fun j : Fin nthreads => (dta tam nthreads j).end_ := by
    funext j
    have hleft := hs.joined j (by simp [hmain, MainPc.joined])
    exact (hs.adding j).complete (by simp [hleft])
  have hwalks := walks_run hrun
  rw [hend] at hwalks
  exact readOnce_of_walks hwalks

/-- What the threads read.  `reads` names all that a step takes from the vector;
the threads walk through their segments in every run, every run can be completed,
and then each segment has been read once. -/
structure ReadsSegments (vet : Vector int tam) (nthreads : Nat) : Prop where
  only : forall (vet' : Vector int tam) (s : State int nthreads)
      (a : Action nthreads),
    (forall j k, reads s a = some (j, k) -> vet[k]? = vet'[k]?) ->
      step vet s a = step vet' s a
  adds : forall {s s' : State int nthreads} {a : Action nthreads}
      {j : Fin nthreads} {k : Nat}, step vet s a = some s' ->
    reads s a = some (j, k) -> exists x, vet[k]? = some x ∧
      (s'.threads j).somaL = (s.threads j).somaL + x
  ends : exists bound, (system vet nthreads).Ends (initial tam nthreads)
    bound fun s => s.main = MainPc.returned
  walks : forall tr s, (system vet nthreads).Run (initial tam nthreads) tr s ->
    AccessLog.Walks (fun j : Fin nthreads => (dta tam nthreads j).begin_)
      s.next (log vet nthreads tr)
  inside : forall tr s, (system vet nthreads).Run (initial tam nthreads) tr s ->
    forall j k, (j, k) ∈ log vet nthreads tr -> k < tam
  complete : forall tr s, (system vet nthreads).Run (initial tam nthreads) tr s ->
    exists tr' s', (system vet nthreads).Run (initial tam nthreads)
        (tr ++ tr') s' ∧
      (system vet nthreads).Stuck s'
  once : forall tr s, (system vet nthreads).Run (initial tam nthreads) tr s ->
    (system vet nthreads).Stuck s ->
      ReadOnce tam nthreads (log vet nthreads tr)

theorem ends_returned (vet : Vector int tam) (nthreads : Nat) :
    exists bound, (system vet nthreads).Ends (initial tam nthreads) bound
      fun s => s.main = MainPc.returned :=
  ⟨_, (ends vet nthreads).bounded, fun hrun hstuck =>
    (reachable_inv ⟨_, _, rfl, hrun⟩).returned_of_stuck hstuck⟩

theorem readsSegments (vet : Vector int tam) (nthreads : Nat) :
    ReadsSegments vet nthreads where
  only := fun _ _ _ h => step_congr h
  adds := fun hstep hreads => adds_of_reads hstep hreads
  ends := ends_returned vet nthreads
  walks := fun _ _ hrun => walks_run hrun
  inside := fun _ _ hrun _ _ hk => reads_inside hrun hk
  complete := fun _ _ hrun => (ends vet nthreads).complete hrun
  once := fun _ _ hrun hstuck => readOnce hrun hstuck

end Ex1a

namespace Ex1b

/-!
## The sum without shared data
-/

variable {int : Type u} [AddCommMonoid int]

/-- The index that the next step of the thread reads, if it reads one. -/
def SomaThread.reads (t : SomaThread int) : Option Nat :=
  match t.pc with
  | Pc.loop => if t.i < t.dta.end_ then some t.i else none
  | _ => none

/-- The first index that the thread has not read. -/
def SomaThread.next (t : SomaThread int) : Nat :=
  match t.pc with
  | Pc.store => t.i + 1
  | _ => t.i

def reads (s : State int nthreads) :
    Action nthreads -> Option (Fin nthreads × Nat)
  | Action.main => none
  | Action.soma j _ => (s.threads j).reads.map fun k => (j, k)

/-- What the threads read in a run, in order. -/
def log (vet : Vector int tam) (nthreads : Nat)
    (tr : List (Action nthreads)) : AccessLog (Fin nthreads) :=
  (system vet nthreads).observe reads (initial tam nthreads) tr

theorem soma_congr {vet vet' : Vector int tam} {a : Nat} {heap : Heap int}
    {t : SomaThread int}
    (h : forall k, t.reads = some k -> vet[k]? = vet'[k]?) :
    soma vet a heap t = soma vet' a heap t := by
  unfold soma
  cases hpc : t.pc with
  | loop =>
      by_cases hlt : t.i < t.dta.end_
      · have hread := h t.i (by simp [SomaThread.reads, hpc, hlt])
        simp only [hlt, if_true, hread]
      · simp only [hlt, if_false]
  | malloc | zero | store | left => rfl

theorem step_congr {vet vet' : Vector int tam} {s : State int nthreads}
    {a : Action nthreads}
    (h : forall j k, reads s a = some (j, k) -> vet[k]? = vet'[k]?) :
    step vet s a = step vet' s a := by
  cases a with
  | main => rfl
  | soma j a =>
      have hsoma : soma vet a s.heap (s.threads j) =
          soma vet' a s.heap (s.threads j) :=
        soma_congr fun k hk => h j k (by rw [reads, hk]; rfl)
      simp only [step, hsoma]

theorem adds_of_reads {vet : Vector int tam} {s s' : State int nthreads}
    {a : Action nthreads} {j : Fin nthreads} {k : Nat}
    (hstep : step vet s a = some s') (hreads : reads s a = some (j, k)) :
    exists x y, vet[k]? = some x ∧
      s.heap.load (s.threads j).somaL = some y ∧
      (s'.threads j).loaded = y + x := by
  cases a with
  | main => cases hreads
  | soma i a =>
      rcases Option.map_eq_some_iff.mp hreads with ⟨m, hm, heq⟩
      cases heq
      rcases step_soma hstep with ⟨_, heap, t, hmoves, rfl⟩
      simp only [Function.update_self]
      cases hmoves with
      | load hpc hlt hy hx =>
          simp only [SomaThread.reads, hpc, hlt, if_true, Option.some_inj] at hm
          exact ⟨_, _, hm ▸ hx, hy, rfl⟩
      | leave hpc hge =>
          simp only [SomaThread.reads, hpc, Nat.not_lt.mpr hge, if_false] at hm
          cases hm
      | malloc hpc _ | zero hpc _ | store hpc _ =>
          simp [SomaThread.reads, hpc] at hm

theorem reads_moves {vet : Vector int tam} {heap heap' : Heap int}
    {t t' : SomaThread int} (h : Moves vet heap t heap' t') :
    (t.reads = some t.next ∧ t'.next = t.next + 1) ∨
      (t.reads = none ∧ t'.next = t.next) := by
  cases h with
  | load hpc hlt _ _ =>
      apply Or.inl
      simp [SomaThread.reads, SomaThread.next, hpc, hlt]
  | leave hpc hge =>
      apply Or.inr
      simp [SomaThread.reads, SomaThread.next, hpc, hge]
  | malloc hpc _ | zero hpc _ | store hpc _ =>
      apply Or.inr
      simp [SomaThread.reads, SomaThread.next, hpc]

/-- Where the threads have come. -/
def State.next (s : State int nthreads) (j : Fin nthreads) : Nat :=
  (s.threads j).next

theorem advances_step {vet : Vector int tam} {s s' : State int nthreads}
    {a : Action nthreads} (hstep : step vet s a = some s') :
    AccessLog.Advances s.next (reads s a) s'.next := by
  cases a with
  | main =>
      have hnext : s'.next = s.next := by
        cases mainMoves_of_mainStep hstep <;> rfl
      rw [hnext]
      exact AccessLog.Advances.still
  | soma j a =>
      rcases step_soma hstep with ⟨_, heap, t, hmoves, hs'⟩
      have hnext : s'.next = Function.update s.next j t.next := by
        rw [hs']
        exact map_update SomaThread.next s.threads j t
      rw [hnext, reads]
      exact AccessLog.advances_thread (reads_moves hmoves)

theorem walks_run {vet : Vector int tam} {s : State int nthreads}
    {tr : List (Action nthreads)}
    (hrun : (system vet nthreads).Run (initial tam nthreads) tr s) :
    AccessLog.Walks (fun j : Fin nthreads => (dta tam nthreads j).begin_)
      s.next (log vet nthreads tr) :=
  AccessLog.walks_run State.next advances_step hrun

theorem next_le {vet : Vector int tam} {d : VetorThread}
    {t : SomaThread int} (ht : Adding vet d t) : t.next ≤ d.end_ := by
  unfold SomaThread.next
  split
  · rename_i hpc
    exact (ht.storing hpc).left
  · exact ht.upper

theorem reads_inside {vet : Vector int tam} {s : State int nthreads}
    {tr : List (Action nthreads)}
    (hrun : (system vet nthreads).Run (initial tam nthreads) tr s)
    {j : Fin nthreads} {k : Nat}
    (hk : (j, k) ∈ log vet nthreads tr) : k < tam := by
  have hs := reachable_inv ⟨initial tam nthreads, tr, rfl, hrun⟩
  have hlt := ((walks_run hrun).mem_iff.mp hk).right
  have hle : (dta tam nthreads j).end_ ≤ tam := end_le_tam j.isLt
  have hupper : s.next j ≤ (dta tam nthreads j).end_ :=
    next_le (hs.adding j)
  lia

theorem readOnce {vet : Vector int tam} {s : State int nthreads}
    {tr : List (Action nthreads)}
    (hrun : (system vet nthreads).Run (initial tam nthreads) tr s)
    (hstuck : (system vet nthreads).Stuck s) :
    ReadOnce tam nthreads (log vet nthreads tr) := by
  have hs := reachable_inv ⟨initial tam nthreads, tr, rfl, hrun⟩
  have hmain := hs.returned_of_stuck hstuck
  have hend : s.next =
      fun j : Fin nthreads => (dta tam nthreads j).end_ := by
    funext j
    have hleft := hs.joined j (by simp [hmain, MainPc.joined])
    simp only [State.next, SomaThread.next, hleft]
    exact (hs.adding j).complete hleft
  have hwalks := walks_run hrun
  rw [hend] at hwalks
  exact readOnce_of_walks hwalks

/-- What the threads read.  `reads` names all that a step takes from the vector;
the threads walk through their segments in every run, every run can be completed,
and then each segment has been read once. -/
structure ReadsSegments (vet : Vector int tam) (nthreads : Nat) : Prop where
  only : forall (vet' : Vector int tam) (s : State int nthreads)
      (a : Action nthreads),
    (forall j k, reads s a = some (j, k) -> vet[k]? = vet'[k]?) ->
      step vet s a = step vet' s a
  adds : forall {s s' : State int nthreads} {a : Action nthreads}
      {j : Fin nthreads} {k : Nat}, step vet s a = some s' ->
    reads s a = some (j, k) -> exists x y, vet[k]? = some x ∧
      s.heap.load (s.threads j).somaL = some y ∧
      (s'.threads j).loaded = y + x
  ends : exists bound, (system vet nthreads).Ends (initial tam nthreads)
    bound fun s => s.main = MainPc.returned
  walks : forall tr s, (system vet nthreads).Run (initial tam nthreads) tr s ->
    AccessLog.Walks (fun j : Fin nthreads => (dta tam nthreads j).begin_)
      s.next (log vet nthreads tr)
  inside : forall tr s, (system vet nthreads).Run (initial tam nthreads) tr s ->
    forall j k, (j, k) ∈ log vet nthreads tr -> k < tam
  complete : forall tr s, (system vet nthreads).Run (initial tam nthreads) tr s ->
    exists tr' s', (system vet nthreads).Run (initial tam nthreads)
        (tr ++ tr') s' ∧
      (system vet nthreads).Stuck s'
  once : forall tr s, (system vet nthreads).Run (initial tam nthreads) tr s ->
    (system vet nthreads).Stuck s ->
      ReadOnce tam nthreads (log vet nthreads tr)

theorem ends_returned (vet : Vector int tam) (nthreads : Nat) :
    exists bound, (system vet nthreads).Ends (initial tam nthreads) bound
      fun s => s.main = MainPc.returned :=
  ⟨_, (ends vet nthreads).bounded, fun hrun hstuck =>
    (reachable_inv ⟨_, _, rfl, hrun⟩).returned_of_stuck hstuck⟩

theorem readsSegments (vet : Vector int tam) (nthreads : Nat) :
    ReadsSegments vet nthreads where
  only := fun _ _ _ h => step_congr h
  adds := fun hstep hreads => adds_of_reads hstep hreads
  ends := ends_returned vet nthreads
  walks := fun _ _ hrun => walks_run hrun
  inside := fun _ _ hrun _ _ hk => reads_inside hrun hk
  complete := fun _ _ hrun => (ends vet nthreads).complete hrun
  once := fun _ _ hrun hstuck => readOnce hrun hstuck

end Ex1b

/-!
## The bounds in `int` arithmetic
-/

/-- The bounds of thread `i` as `main` computes them. -/
def dtaInt (tam nthreads i : CInt) : CInt × CInt :=
  (i * tam.sdiv nthreads, (i + 1) * tam.sdiv nthreads)

/-- The products fit in an `int`, and the computed bounds are the exact
ones. -/
structure ExactBounds (tam nthreads i : CInt) : Prop where
  fits_begin : Fits (i.toInt * tam.toInt.tdiv nthreads.toInt)
  fits_end : Fits ((i.toInt + 1) * tam.toInt.tdiv nthreads.toInt)
  begin_eq : (dtaInt tam nthreads i).fst.toInt =
    (dta tam.toNat nthreads.toNat i.toNat).begin_
  end_eq : (dtaInt tam nthreads i).snd.toInt =
    (dta tam.toNat nthreads.toNat i.toNat).end_

theorem tdiv_eq {tam nthreads : CInt} (htam : 0 ≤ tam.toInt)
    (hn : 0 ≤ nthreads.toInt) :
    tam.toInt.tdiv nthreads.toInt =
      ((tam.toNat / nthreads.toNat : Nat) : Int) := by
  rw [← natCast_toNat htam, ← natCast_toNat hn]
  exact (Int.ofNat_tdiv _ _).symm

theorem sdiv_toInt {tam nthreads : CInt} (htam : 0 ≤ tam.toInt)
    (hn : 0 ≤ nthreads.toInt) :
    (tam.sdiv nthreads).toInt = tam.toInt.tdiv nthreads.toInt := by
  apply toInt_sdiv_of_fits
  rw [tdiv_eq htam hn]
  apply fits_natCast (v := tam)
  rw [← natCast_toNat htam]
  exact Int.ofNat_le.mpr (Nat.div_le_self _ _)

theorem succ_toInt {i nthreads : CInt} (hi : 0 ≤ i.toInt)
    (hlt : i.toInt < nthreads.toInt) : (i + 1).toInt = i.toInt + 1 := by
  have hone : (1 : CInt).toInt = 1 := by decide
  have hmax := fits_toInt nthreads
  have hfits : Fits (i.toInt + (1 : CInt).toInt) := by
    unfold Fits at hmax ⊢
    lia
  rw [toInt_add_of_fits hfits, hone]

theorem exactBounds {tam nthreads i : CInt} (htam : 0 ≤ tam.toInt)
    (hi : 0 ≤ i.toInt) (hlt : i.toInt < nthreads.toInt) :
    ExactBounds tam nthreads i := by
  have hn : 0 ≤ nthreads.toInt := by lia
  have hi' := natCast_toNat hi
  have htam' := natCast_toNat htam
  have hn' := natCast_toNat hn
  have hend : (dta tam.toNat nthreads.toNat i.toNat).end_ ≤ tam.toNat :=
    end_le_tam (by lia)
  have hbegin := begin_le_end tam.toNat nthreads.toNat i.toNat
  have hb : i.toInt * tam.toInt.tdiv nthreads.toInt =
      (dta tam.toNat nthreads.toNat i.toNat).begin_ := by
    rw [tdiv_eq htam hn, ← hi']
    exact (Int.natCast_mul _ _).symm
  have he : (i.toInt + 1) * tam.toInt.tdiv nthreads.toInt =
      (dta tam.toNat nthreads.toNat i.toNat).end_ := by
    rw [tdiv_eq htam hn, ← hi']
    exact (Int.natCast_mul (i.toNat + 1) _).symm
  have hfitsb : Fits (i.toInt * tam.toInt.tdiv nthreads.toInt) := by
    rw [hb]
    exact fits_natCast (v := tam) (by lia)
  have hfitse : Fits ((i.toInt + 1) * tam.toInt.tdiv nthreads.toInt) := by
    rw [he]
    exact fits_natCast (v := tam) (by lia)
  have hquot := sdiv_toInt htam hn
  have hsucc := succ_toInt hi hlt
  constructor
  · exact hfitsb
  · exact hfitse
  · unfold dtaInt
    rw [toInt_mul_of_fits (by rw [hquot]; exact hfitsb), hquot, hb]
  · unfold dtaInt
    rw [toInt_mul_of_fits (by rw [hquot, hsucc]; exact hfitse), hquot, hsucc,
      he]

/-!
## The segments of both programs
-/

/-- The computed bounds are exact, they divide the vector, and in the runs of
both programs each thread reads its segment and nothing else. -/
theorem segments_read {int : Type u} [AddCommMonoid int]
    {tam nthreads : CInt} (htam : 0 ≤ tam.toInt)
    (vet : Vector int tam.toNat) :
    (forall i : CInt, 0 ≤ i.toInt -> i.toInt < nthreads.toInt ->
        ExactBounds tam nthreads i) ∧
      Tiling tam.toNat nthreads.toNat ∧
      Ex1a.ReadsSegments vet nthreads.toNat ∧
      Ex1b.ReadsSegments vet nthreads.toNat := by
  refine ⟨?_, tiling tam.toNat nthreads.toNat,
    Ex1a.readsSegments vet nthreads.toNat,
    Ex1b.readsSegments vet nthreads.toNat⟩
  intro i hi hlt
  exact exactBounds htam hi hlt

theorem segments_read_seven_threads :
    (forall i : CInt, 0 ≤ i.toInt -> i.toInt < (7 : CInt).toInt ->
        ExactBounds 104 7 i) ∧
      Tiling (104 : CInt).toNat (7 : CInt).toNat ∧
      Ex1a.ReadsSegments (fill (104 : CInt).toNat) (7 : CInt).toNat ∧
      Ex1b.ReadsSegments (fill (104 : CInt).toNat) (7 : CInt).toNat :=
  segments_read (by decide) (fill (104 : CInt).toNat)

end Soma
end PThreads
end IPPD
