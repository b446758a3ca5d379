import IPPD.Foundation.System

/-!
# Pools of tasks

A task runs on a private frame, may create tasks, may wait for the tasks that
it created itself, and ends by handing a value to the frame of its creator.
A pool holds all tasks ever created in the order of their creation, so a task
is named by its place in the list and lies behind its creator.

The scheduler picks the task that moves.  It also decides at each creation
whether the new task is deferred or runs at once, which suspends its creator
until the new task has completed.

The program of the tasks is a parameter.  The module provides the inversion of
a step, the tree of creators, the shape of the states in which nothing can
move, and a ranking rule.
-/

namespace IPPD
namespace Foundation
namespace TaskPool

variable {frame : Type u} {value : Type v}

/-- What a task does next. -/
inductive Next (frame : Type u) (value : Type v) where
  | go (f : frame)
  /-- Create a task with frame `child` and go on with `f`. -/
  | spawn (f child : frame)
  /-- Go on when all tasks created by this one have completed. -/
  | taskwait (f : frame)
  /-- Complete with value `v`, which `store` puts into the creator's frame. -/
  | finish (v : value) (store : frame -> frame)
  | undefined

structure Task (frame : Type u) where
  /-- `none` for the first task. -/
  parent : Option Nat
  frame : frame
  completed : Bool
  /-- A task created to run at once. -/
  waitsFor : Option Nat

structure State (frame : Type u) (value : Type v) where
  tasks : List (Task frame)
  /-- The value of the first task. -/
  result : Option value

structure Action where
  task : Nat
  /-- If a task is created in this step, it runs at once. -/
  atOnce : Bool

def newTask (parent : Option Nat) (f : frame) : Task frame where
  parent := parent
  frame := f
  completed := false
  waitsFor := none

def completedAt (tasks : List (Task frame)) (c : Nat) : Bool :=
  match tasks[c]? with
  | some u => u.completed
  | none => false

def suspended (tasks : List (Task frame)) (t : Task frame) : Bool :=
  match t.waitsFor with
  | some c => !completedAt tasks c
  | none => false

def childrenCompleted (tasks : List (Task frame)) (i : Nat) : Bool :=
  tasks.all fun u => !decide (u.parent = some i) || u.completed

def State.put (s : State frame value) (i : Nat) (t : Task frame) :
    State frame value :=
  { s with tasks := s.tasks.set i t }

def State.push (s : State frame value) (t : Task frame) :
    State frame value :=
  { s with tasks := s.tasks ++ [t] }

/-- Hand the value of a task to its creator. -/
def State.deliver (s : State frame value) (parent : Option Nat) (v : value)
    (store : frame -> frame) : State frame value :=
  match parent with
  | some p =>
      { s with
        tasks := s.tasks.modify p fun u => { u with frame := store u.frame } }
  | none => { s with result := some v }

def step (next : frame -> Next frame value) (s : State frame value)
    (a : Action) : Option (State frame value) :=
  match s.tasks[a.task]? with
  | none => none
  | some t =>
      if t.completed || suspended s.tasks t then none
      else
        match next t.frame with
        | Next.go f => some (s.put a.task { t with frame := f })
        | Next.spawn f child =>
            some
              ((s.push (newTask (some a.task) child)).put a.task
                { t with
                  frame := f
                  waitsFor :=
                    if a.atOnce then some s.tasks.length else none })
        | Next.taskwait f =>
            if childrenCompleted s.tasks a.task then
              some (s.put a.task { t with frame := f })
            else none
        | Next.finish v store =>
            some
              ((s.deliver t.parent v store).put a.task
                { t with completed := true })
        | Next.undefined => none

def system (next : frame -> Next frame value) (first : frame) :
    System (State frame value) Action where
  Init s := s = { tasks := [newTask none first], result := none }
  step := step next

/-!
## What a step does
-/

variable {next : frame -> Next frame value}

/-- A task goes on with frame `f'`. -/
inductive Advances (next : frame -> Next frame value) (f : frame) :
    frame -> Prop where
  | go {f' : frame} : next f = Next.go f' -> Advances next f f'
  | spawn {f' child : frame} :
      next f = Next.spawn f' child -> Advances next f f'
  | taskwait {f' : frame} : next f = Next.taskwait f' -> Advances next f f'

/-- What a step of task `i`, found as `t`, can do. -/
inductive Moves (next : frame -> Next frame value) (s : State frame value)
    (i : Nat) (t : Task frame) : State frame value -> Prop where
  | advance {f : frame} :
      Advances next t.frame f ->
      (forall f' c, next t.frame ≠ Next.spawn f' c) ->
      (next t.frame = Next.taskwait f -> childrenCompleted s.tasks i = true) ->
        Moves next s i t (s.put i { t with frame := f })
  | spawn {f child : frame} {w : Option Nat} :
      next t.frame = Next.spawn f child ->
      (forall c, w = some c -> c = s.tasks.length) ->
        Moves next s i t
          ((s.push (newTask (some i) child)).put i
            { t with frame := f, waitsFor := w })
  | finish {v : value} {store : frame -> frame} :
      next t.frame = Next.finish v store ->
        Moves next s i t
          ((s.deliver t.parent v store).put i { t with completed := true })

theorem moves_of_step {s s' : State frame value} {a : Action}
    (h : step next s a = some s') :
    exists t, s.tasks[a.task]? = some t ∧ t.completed = false ∧
      Moves next s a.task t s' := by
  unfold step at h
  cases ht : s.tasks[a.task]? with
  | none =>
      rw [ht] at h
      cases h
  | some t =>
      rw [ht] at h
      dsimp only at h
      split at h
      · cases h
      · rename_i hlive
        rw [Bool.or_eq_true, not_or, Bool.not_eq_true] at hlive
        refine ⟨t, rfl, hlive.left, ?_⟩
        split at h
        · rename_i f hnext
          cases h
          refine Moves.advance (Advances.go hnext) ?_ ?_
          · intro f' c hspawn
            rw [hnext] at hspawn
            cases hspawn
          · intro hwait
            rw [hnext] at hwait
            cases hwait
        · rename_i f child hnext
          cases h
          apply Moves.spawn hnext
          intro c hc
          split at hc
          · cases hc
            rfl
          · cases hc
        · rename_i f hnext
          split at h
          · rename_i hall
            cases h
            refine Moves.advance (Advances.taskwait hnext) ?_ (fun _ => hall)
            intro f' c hspawn
            rw [hnext] at hspawn
            cases hspawn
          · cases h
        · rename_i v store hnext
          cases h
          exact Moves.finish hnext
        · cases h

/-!
## Finding tasks

Each of the three operations on a pool is described by the tasks found after
it.
-/

section Find

variable {s : State frame value} {i j : Nat} {t t' u u' : Task frame}

theorem find_lt (h : s.tasks[i]? = some t) : i < s.tasks.length :=
  (List.getElem?_eq_some_iff.mp h).1

theorem put_find (ht : s.tasks[i]? = some t) :
    (s.put i t').tasks[j]? = some u <->
      (j = i ∧ u = t') ∨ (j ≠ i ∧ s.tasks[j]? = some u) := by
  unfold State.put
  by_cases hj : j = i
  · subst hj
    rw [List.getElem?_set_self (find_lt ht)]
    simp [eq_comm]
  · rw [List.getElem?_set_ne (Ne.symm hj)]
    simp [hj]

theorem push_find :
    (s.push t).tasks[j]? = some u <->
      (j = s.tasks.length ∧ u = t) ∨ s.tasks[j]? = some u := by
  unfold State.push
  rcases Nat.lt_trichotomy j s.tasks.length with hj | hj | hj
  · rw [List.getElem?_append_left hj]
    simp [Nat.ne_of_lt hj]
  · subst hj
    rw [List.getElem?_concat_length, List.getElem?_eq_none (Nat.le_refl _)]
    simp [eq_comm]
  · rw [List.getElem?_append_right (Nat.le_of_lt hj),
      List.getElem?_eq_none (Nat.le_of_lt hj),
      List.getElem?_eq_none (by simp; lia)]
    simp [Nat.ne_of_gt hj]

theorem push_put (hi : i < s.tasks.length) :
    (s.push t').put i t = (s.put i t).push t' := by
  unfold State.push State.put
  dsimp only
  rw [List.set_append_left i t hi]

theorem deliver_find {parent : Option Nat} {v : value}
    {store : frame -> frame} :
    (s.deliver parent v store).tasks[j]? = some u' <->
      exists u, s.tasks[j]? = some u ∧
        u' = if parent = some j then { u with frame := store u.frame }
          else u := by
  cases parent with
  | none => simp [State.deliver]
  | some p =>
      unfold State.deliver
      dsimp only
      rw [List.getElem?_modify, Option.map_eq_map, Option.map_eq_some_iff]
      simp only [Option.some_inj, eq_comm]

end Find

/-!
## The tree of creators
-/

structure Tree (s : State frame value) : Prop where
  parent_lt : forall {c p : Nat} {u : Task frame},
    s.tasks[c]? = some u -> u.parent = some p -> p < c
  waits : forall {i c : Nat} {t : Task frame},
    s.tasks[i]? = some t -> t.waitsFor = some c ->
      exists u, s.tasks[c]? = some u ∧ u.parent = some i
  first : exists t, s.tasks[0]? = some t ∧ t.parent = none
  /-- The value of the first task is there when it has completed. -/
  answered : forall {i : Nat} {t : Task frame},
    s.tasks[i]? = some t -> t.parent = none -> t.completed = true ->
      exists v, s.result = some v

namespace Tree

variable {s : State frame value} {i : Nat} {t t' : Task frame}

theorem put_parent_lt (hs : Tree s) (ht : s.tasks[i]? = some t)
    (hparent : t'.parent = t.parent) {c p : Nat} {u : Task frame}
    (hu : (s.put i t').tasks[c]? = some u) (hp : u.parent = some p) :
    p < c := by
  rcases (put_find ht).mp hu with ⟨hc, hut⟩ | ⟨_, hold⟩
  · subst hut
    exact hc ▸ hs.parent_lt ht (hparent ▸ hp)
  · exact hs.parent_lt hold hp

theorem put (hs : Tree s) (ht : s.tasks[i]? = some t)
    (hparent : t'.parent = t.parent)
    (hwaits : forall {c}, t'.waitsFor = some c ->
      exists u, s.tasks[c]? = some u ∧ u.parent = some i)
    (hanswered : t'.parent = none -> t'.completed = true ->
      exists v, s.result = some v) :
    Tree (s.put i t') where
  parent_lt := hs.put_parent_lt ht hparent
  waits := by
    have hstays : forall {c k : Nat} {u : Task frame},
        s.tasks[c]? = some u -> u.parent = some k ->
          exists u', (s.put i t').tasks[c]? = some u' ∧
            u'.parent = some k := by
      intro c k u hu hk
      by_cases hc : c = i
      · subst hc
        rw [ht] at hu
        cases hu
        exact ⟨t', (put_find ht).mpr (Or.inl ⟨rfl, rfl⟩), hparent.trans hk⟩
      · exact ⟨u, (put_find ht).mpr (Or.inr ⟨hc, hu⟩), hk⟩
    intro k c u hu hc
    rcases (put_find ht).mp hu with ⟨hk, hut⟩ | ⟨_, hu⟩
    · subst hut
      subst hk
      rcases hwaits hc with ⟨w, hw, hwp⟩
      exact hstays hw hwp
    · rcases hs.waits hu hc with ⟨w, hw, hwp⟩
      exact hstays hw hwp
  first := by
    rcases hs.first with ⟨t0, ht0, hnone⟩
    by_cases hi : 0 = i
    · subst hi
      rw [ht] at ht0
      cases ht0
      exact ⟨t', (put_find ht).mpr (Or.inl ⟨rfl, rfl⟩), hparent.trans hnone⟩
    · exact ⟨t0, (put_find ht).mpr (Or.inr ⟨hi, ht0⟩), hnone⟩
  answered := by
    intro k u hu hnone hdone
    rcases (put_find ht).mp hu with ⟨_, hut⟩ | ⟨_, hu⟩
    · subst hut
      exact hanswered hnone hdone
    · exact hs.answered hu hnone hdone

theorem push (hs : Tree s) (ht : s.tasks[i]? = some t) (child : frame) :
    Tree (s.push (newTask (some i) child)) where
  parent_lt := by
    intro c p u hu hp
    rcases push_find.mp hu with ⟨hc, hut⟩ | hu
    · subst hut
      cases hp
      exact hc ▸ find_lt ht
    · exact hs.parent_lt hu hp
  waits := by
    intro k c u hu hc
    rcases push_find.mp hu with ⟨_, hut⟩ | hu
    · subst hut
      cases hc
    · rcases hs.waits hu hc with ⟨w, hw, hwp⟩
      exact ⟨w, push_find.mpr (Or.inr hw), hwp⟩
  first := by
    rcases hs.first with ⟨t0, ht0, hnone⟩
    exact ⟨t0, push_find.mpr (Or.inr ht0), hnone⟩
  answered := by
    intro k u hu hnone hdone
    rcases push_find.mp hu with ⟨_, hut⟩ | hu
    · subst hut
      cases hdone
    · exact hs.answered hu hnone hdone

theorem deliver (hs : Tree s) (parent : Option Nat) (v : value)
    (store : frame -> frame) : Tree (s.deliver parent v store) := by
  have hback : forall {j : Nat} {u' : Task frame},
      (s.deliver parent v store).tasks[j]? = some u' ->
        exists u, s.tasks[j]? = some u ∧ u'.parent = u.parent ∧
          u'.waitsFor = u.waitsFor ∧ u'.completed = u.completed := by
    intro j u' hu'
    rcases deliver_find.mp hu' with ⟨u, hu, heq⟩
    refine ⟨u, hu, ?_⟩
    subst heq
    split <;> exact ⟨rfl, rfl, rfl⟩
  have hforth : forall {j : Nat} {u : Task frame}, s.tasks[j]? = some u ->
      exists u', (s.deliver parent v store).tasks[j]? = some u' ∧
        u'.parent = u.parent := by
    intro j u hu
    refine ⟨_, deliver_find.mpr ⟨u, hu, rfl⟩, ?_⟩
    split <;> rfl
  constructor
  · intro c p u' hu' hp
    rcases hback hu' with ⟨u, hu, hparent, _⟩
    exact hs.parent_lt hu (hparent ▸ hp)
  · intro k c u' hu' hc
    rcases hback hu' with ⟨u, hu, _, hwaits, _⟩
    rcases hs.waits hu (hwaits ▸ hc) with ⟨w, hw, hwp⟩
    rcases hforth hw with ⟨w', hw', hwp'⟩
    exact ⟨w', hw', hwp'.trans hwp⟩
  · rcases hs.first with ⟨t0, ht0, hnone⟩
    rcases hforth ht0 with ⟨t0', ht0', hparent⟩
    exact ⟨t0', ht0', hparent.trans hnone⟩
  · intro k u' hu' hnone hdone
    rcases hback hu' with ⟨u, hu, hparent, _, hcompleted⟩
    have hv := hs.answered hu (hparent ▸ hnone) (hcompleted ▸ hdone)
    cases parent with
    | none => exact ⟨v, rfl⟩
    | some p => exact hv

theorem deliver_self (hs : Tree s) (ht : s.tasks[i]? = some t) (v : value)
    (store : frame -> frame) :
    (s.deliver t.parent v store).tasks[i]? = some t := by
  refine deliver_find.mpr ⟨t, ht, ?_⟩
  have hne : t.parent ≠ some i := by
    intro hp
    exact Nat.lt_irrefl i (hs.parent_lt ht hp)
  rw [if_neg hne]

theorem step {s' : State frame value} {a : Action} (hs : Tree s)
    (hstep : step next s a = some s') : Tree s' := by
  rcases moves_of_step hstep with ⟨t, ht, hlive, hmoves⟩
  cases hmoves with
  | advance hadv _ hall =>
      refine hs.put ht rfl (fun hc => hs.waits ht hc) ?_
      intro hnone hdone
      exact hs.answered ht hnone hdone
  | spawn hnext hw =>
      rename_i f child w
      have ht' := (push_find (t := newTask (some a.task) child)).mpr
        (Or.inr ht)
      refine (hs.push ht child).put ht' rfl ?_ ?_
      · intro c hc
        refine ⟨newTask (some a.task) child, ?_, rfl⟩
        exact push_find.mpr (Or.inl ⟨hw c hc, rfl⟩)
      · intro hnone hdone
        exact hs.answered ht hnone hdone
  | finish hnext =>
      rename_i v store
      have hs' := hs.deliver t.parent v store
      have ht' := hs.deliver_self ht v store
      refine hs'.put ht' rfl (fun hc => hs'.waits ht' hc) ?_
      intro hnone _
      rw [show t.parent = none from hnone]
      exact ⟨v, rfl⟩

theorem reachable {first : frame} (h : (system next first).Reachable s) :
    Tree s := by
  refine System.reachable_invariant ?_ (fun _ hs hstep => hs.step hstep) h
  intro s0 hinit
  subst hinit
  constructor
  · intro c p u hu hp
    cases c with
    | zero =>
        cases hu
        cases hp
    | succ c => cases hu
  · intro k c u hu hc
    cases k with
    | zero =>
        cases hu
        cases hc
    | succ k => cases hu
  · exact ⟨_, rfl, rfl⟩
  · intro k u hu hnone hdone
    cases k with
    | zero =>
        cases hu
        cases hdone
    | succ k => cases hu

end Tree

/-!
## States in which nothing can move
-/

/-- When no task runs into undefined behaviour, a pool in which nothing can
move has completed: the last live task has no live children to wait for. -/
theorem completed_of_stuck {s : State frame value} {first : frame}
    (hs : Tree s) (hstuck : (system next first).Stuck s)
    (hdefined : forall {i : Nat} {t : Task frame}, s.tasks[i]? = some t ->
      t.completed = false -> next t.frame ≠ Next.undefined)
    {i : Nat} {t : Task frame} (ht : s.tasks[i]? = some t) :
    t.completed = true := by
  induction hk : s.tasks.length - i using Nat.strongRecOn generalizing i t with
  | _ k ih =>
      have hlater : forall {j : Nat} {u : Task frame}, i < j ->
          s.tasks[j]? = some u -> u.completed = true := by
        intro j u hij hu
        have hi := find_lt ht
        have hj := find_lt hu
        exact ih (s.tasks.length - j) (by lia) hu rfl
      by_contra hlive
      rw [Bool.not_eq_true] at hlive
      have hfree : suspended s.tasks t = false := by
        unfold suspended
        split
        · rename_i c hc
          rcases hs.waits ht hc with ⟨u, hu, hparent⟩
          have hdone := hlater (hs.parent_lt hu hparent) hu
          simp [completedAt, hu, hdone]
        · rfl
      have hall : childrenCompleted s.tasks i = true := by
        unfold childrenCompleted
        rw [List.all_eq_true]
        intro u hmem
        rcases List.mem_iff_getElem?.mp hmem with ⟨j, hu⟩
        by_cases hparent : u.parent = some i
        · rw [hlater (hs.parent_lt hu hparent) hu]
          simp
        · simp [hparent]
      have hnone := hstuck ⟨i, false⟩
      simp only [system, TaskPool.step, ht, hlive, hfree, hall,
        Bool.or_self, if_true] at hnone
      cases hnext : next t.frame with
      | go f => simp [hnext] at hnone
      | spawn f child => simp [hnext] at hnone
      | taskwait f => simp [hnext] at hnone
      | finish v store => simp [hnext] at hnone
      | undefined => exact hdefined ht hlive hnext

/-!
## Termination

A weight that pays for the frames created along the way bounds every run.
-/

section Weight

variable {weight : frame -> Nat}

/-- A live task has its weight and one unit more for its completion. -/
def cost (weight : frame -> Nat) (t : Task frame) : Nat :=
  if t.completed then 0 else weight t.frame + 1

def totalCost (weight : frame -> Nat) : List (Task frame) -> Nat
  | [] => 0
  | t :: rest => cost weight t + totalCost weight rest

def rank (weight : frame -> Nat) (s : State frame value) : Nat :=
  totalCost weight s.tasks

variable {s : State frame value} {i : Nat} {t : Task frame}

theorem rank_put (weight : frame -> Nat) (ht : s.tasks[i]? = some t)
    (t' : Task frame) :
    rank weight (s.put i t') + cost weight t =
      rank weight s + cost weight t' := by
  unfold rank State.put
  dsimp only
  generalize s.tasks = tasks at ht
  induction tasks generalizing i with
  | nil => cases ht
  | cons u rest ih =>
      cases i with
      | zero =>
          cases ht
          simp only [List.set_cons_zero, totalCost]
          lia
      | succ i =>
          have hrest := ih (i := i) (by simpa using ht)
          simp only [List.set_cons_succ, totalCost]
          lia

theorem rank_push : rank weight (s.push t) = rank weight s + cost weight t := by
  unfold rank State.push
  dsimp only
  induction s.tasks with
  | nil => simp [totalCost]
  | cons u rest ih =>
      rw [List.cons_append, totalCost, totalCost, ih]
      lia

theorem rank_deliver {parent : Option Nat} {v : value}
    {store : frame -> frame}
    (hstore : forall f, weight (store f) = weight f) :
    rank weight (s.deliver parent v store) = rank weight s := by
  cases parent with
  | none => rfl
  | some p =>
      unfold rank State.deliver
      dsimp only
      induction s.tasks generalizing p with
      | nil => simp [totalCost]
      | cons u rest ih =>
          cases p with
          | zero => simp [totalCost, cost, hstore]
          | succ p =>
              rw [List.modify_succ_cons, totalCost, totalCost, ih p]

theorem ranked
    (hgo : forall {f f'}, (next f = Next.go f' ∨ next f = Next.taskwait f') ->
      weight f' < weight f)
    (hspawn : forall {f f' c}, next f = Next.spawn f' c ->
      weight f' + weight c + 1 < weight f)
    (hstore : forall {u v st}, next u = Next.finish v st ->
      forall f, weight (st f) = weight f)
    (first : frame) :
    System.Ranked (system next first) Tree (rank weight) := by
  intro s a s' htree hstep
  rcases moves_of_step hstep with ⟨t, ht, hlive, hmoves⟩
  have hcost : cost weight t = weight t.frame + 1 := by
    simp [cost, hlive]
  cases hmoves with
  | advance hadv hne hall =>
      rename_i f
      have hput := rank_put weight ht { t with frame := f }
      have hcost' : cost weight { t with frame := f } = weight f + 1 := by
        simp [cost, hlive]
      have hdrop : weight f < weight t.frame := by
        cases hadv with
        | go hnext => exact hgo (Or.inl hnext)
        | spawn hnext => exact absurd hnext (hne _ _)
        | taskwait hnext => exact hgo (Or.inr hnext)
      lia
  | spawn hnext hw =>
      rename_i f c w
      have hpush := (push_find (t := newTask (some a.task) c)).mpr
        (Or.inr ht)
      have hput := rank_put weight hpush
        { t with frame := f, waitsFor := w }
      have hnew : rank weight (s.push (newTask (some a.task) c)) =
          rank weight s + (weight c + 1) := rank_push
      have hcost' : cost weight { t with frame := f, waitsFor := w } =
          weight f + 1 := by
        simp [cost, hlive]
      have hdrop := hspawn hnext
      lia
  | finish hnext =>
      rename_i v store
      have hput := rank_put weight
        (htree.deliver_self ht v store) { t with completed := true }
      have hcost' : cost weight { t with completed := true } = 0 := rfl
      have hdeliver : rank weight (s.deliver t.parent v store) =
          rank weight s := rank_deliver (hstore hnext)
      lia

end Weight

end TaskPool
end Foundation
end IPPD
