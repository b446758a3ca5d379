import IPPD.Foundation.TaskPool

/-!
# Contracts of task programs

Two rules for pools of tasks.  The first derives invariants that relate a frame
to the frames of the tasks created from it, the second the existence of these
tasks.  Their conditions are about the program of the tasks, one execution step
at a time, and not about pools.
-/

namespace IPPD
namespace Foundation
namespace TaskPool

variable {frame : Type u} {value : Type v}
variable {next : frame -> Next frame value}

/-!
## Contracts between creators and created tasks

A contract says what holds of each frame, of a frame and the frame of each task
created from it, and of the result.  Its conditions are about the program of
the tasks only.
-/

structure Contract (next : frame -> Next frame value) (first : frame) where
  /-- The flag says that the task has completed. -/
  Ok : frame -> Bool -> Prop
  /-- Creator, created task, and whether the latter has completed. -/
  Link : frame -> frame -> Bool -> Prop
  First : frame -> Prop
  Result : value -> Prop
  ok_first : Ok first false
  ok_advance : forall {f f'}, Ok f false -> Advances next f f' -> Ok f' false
  ok_child : forall {f f' c},
    Ok f false -> next f = Next.spawn f' c -> Ok c false
  ok_finish : forall {f v st},
    Ok f false -> next f = Next.finish v st -> Ok f true
  ok_store : forall {f b u v st}, Ok f b -> Ok u false -> Link f u false ->
    next u = Next.finish v st -> Ok (st f) b
  link_child : forall {f f' c},
    Ok f false -> next f = Next.spawn f' c -> Link f' c false
  link_creator : forall {f f' u b}, Ok f false -> Link f u b ->
    Advances next f f' -> (next f = Next.taskwait f' -> b = true) ->
      Link f' u b
  link_created : forall {f u u'}, Ok u false -> Link f u false ->
    Advances next u u' -> Link f u' false
  link_store_self : forall {f u v st}, Link f u false ->
    next u = Next.finish v st -> Link (st f) u true
  link_store_sibling : forall {f w b u v st}, Link f w b -> Link f u false ->
    next u = Next.finish v st -> Link (st f) w b
  link_store_creator : forall {g f b u v st}, Link g f b ->
    next u = Next.finish v st -> Link g (st f) b
  first_first : First first
  first_advance : forall {f f'}, First f -> Advances next f f' -> First f'
  first_store : forall {f u v st},
    First f -> next u = Next.finish v st -> First (st f)
  result : forall {f v st},
    First f -> Ok f false -> next f = Next.finish v st -> Result v

namespace Contract

variable {first : frame} {s s' : State frame value}

structure Holds (C : Contract next first) (s : State frame value) :
    Prop where
  ok : forall {i : Nat} {t : Task frame},
    s.tasks[i]? = some t -> C.Ok t.frame t.completed
  link : forall {c p : Nat} {u t : Task frame},
    s.tasks[c]? = some u -> u.parent = some p -> s.tasks[p]? = some t ->
      C.Link t.frame u.frame u.completed
  first : forall {i : Nat} {t : Task frame},
    s.tasks[i]? = some t -> t.parent = none -> C.First t.frame
  result : forall {v : value}, s.result = some v -> C.Result v

variable {C : Contract next first} {i : Nat} {t : Task frame}

theorem holds_advance (hs : C.Holds s) (htree : Tree s)
    (ht : s.tasks[i]? = some t) (hlive : t.completed = false) {f : frame}
    {w : Option Nat} (hadv : Advances next t.frame f)
    (hall : next t.frame = Next.taskwait f ->
      childrenCompleted s.tasks i = true) :
    C.Holds (s.put i { t with frame := f, waitsFor := w }) where
  ok := by
    intro j u hu
    rcases (put_find ht).mp hu with ⟨_, hut⟩ | ⟨_, hold⟩
    · subst hut
      dsimp only
      rw [hlive]
      exact C.ok_advance (hlive ▸ hs.ok ht) hadv
    · exact hs.ok hold
  link := by
    intro c p u t0 hu hp ht0
    rcases (put_find ht).mp hu with ⟨_, hut⟩ | ⟨_, huold⟩
    · subst hut
      have hpi : p < i := htree.parent_lt ht hp
      rcases (put_find ht).mp ht0 with ⟨hpe, _⟩ | ⟨_, htold⟩
      · lia
      · have hlink := hs.link ht hp htold
        dsimp only
        rw [hlive] at hlink ⊢
        exact C.link_created (hlive ▸ hs.ok ht) hlink hadv
    · rcases (put_find ht).mp ht0 with ⟨hpe, htt⟩ | ⟨_, htold⟩
      · subst htt
        rw [hpe] at hp
        refine C.link_creator (hlive ▸ hs.ok ht)
          (hs.link huold hp ht) hadv ?_
        intro hwait
        have hdone := List.all_eq_true.mp (hall hwait) u
          (List.mem_of_getElem? huold)
        simpa [hp] using hdone
      · exact hs.link huold hp htold
  first := by
    intro j u hu hnone
    rcases (put_find ht).mp hu with ⟨_, hut⟩ | ⟨_, hold⟩
    · subst hut
      exact C.first_advance (hs.first ht hnone) hadv
    · exact hs.first hold hnone
  result := hs.result

theorem holds_push (hs : C.Holds s)
    (hlt : forall {c p : Nat} {u : Task frame},
      s.tasks[c]? = some u -> u.parent = some p -> p < c)
    (ht : s.tasks[i]? = some t) {c : frame} (hok : C.Ok c false)
    (hlink : C.Link t.frame c false) :
    C.Holds (s.push (newTask (some i) c)) where
  ok := by
    intro j u hu
    rcases push_find.mp hu with ⟨_, hut⟩ | hold
    · subst hut
      exact hok
    · exact hs.ok hold
  link := by
    intro k p u t0 hu hp ht0
    rcases push_find.mp hu with ⟨hk, hut⟩ | huold
    · subst hut
      cases hp
      rcases push_find.mp ht0 with ⟨hi, _⟩ | htold
      · have hi' := find_lt ht
        lia
      · rw [ht] at htold
        cases htold
        exact hlink
    · rcases push_find.mp ht0 with ⟨hpe, _⟩ | htold
      · have hpk := hlt huold hp
        have hk := find_lt huold
        lia
      · exact hs.link huold hp htold
  first := by
    intro j u hu hnone
    rcases push_find.mp hu with ⟨_, hut⟩ | hold
    · subst hut
      cases hnone
    · exact hs.first hold hnone
  result := hs.result

theorem holds_finish (hs : C.Holds s) (htree : Tree s)
    (ht : s.tasks[i]? = some t) (hlive : t.completed = false)
    {v : value} {store : frame -> frame}
    (hnext : next t.frame = Next.finish v store) :
    C.Holds ((s.deliver t.parent v store).put i
      { t with completed := true }) := by
  have hok : C.Ok t.frame false := hlive ▸ hs.ok ht
  have hself := htree.deliver_self ht v store
  -- The frame of the creator is the only one that has changed.
  have hback : forall {j : Nat} {u' : Task frame},
      (s.deliver t.parent v store).tasks[j]? = some u' ->
        exists u, s.tasks[j]? = some u ∧ u'.parent = u.parent ∧
          u'.completed = u.completed ∧
          ((t.parent = some j ∧ u'.frame = store u.frame) ∨
            (t.parent ≠ some j ∧ u'.frame = u.frame)) := by
    intro j u' hu'
    rcases deliver_find.mp hu' with ⟨u, hu, heq⟩
    refine ⟨u, hu, ?_⟩
    subst heq
    split
    · rename_i hp
      exact ⟨rfl, rfl, Or.inl ⟨hp, rfl⟩⟩
    · rename_i hp
      exact ⟨rfl, rfl, Or.inr ⟨hp, rfl⟩⟩
  constructor
  · intro j u' hu'
    rcases (put_find hself).mp hu' with ⟨_, hut⟩ | ⟨_, hold⟩
    · subst hut
      exact C.ok_finish hok hnext
    · rcases hback hold with ⟨u, hu, _, hdone, ⟨hp, hf⟩ | ⟨_, hf⟩⟩
      · have hlink := hs.link ht hp hu
        rw [hlive] at hlink
        rw [hf, hdone]
        exact C.ok_store (hs.ok hu) hok hlink hnext
      · rw [hf, hdone]
        exact hs.ok hu
  · intro c p u' t' hu' hp ht'
    rcases (put_find hself).mp ht' with ⟨hpi, htt⟩ | ⟨_, htold⟩
    · -- The completing task as creator.
      subst htt
      rcases (put_find hself).mp hu' with ⟨hc, hut⟩ | ⟨_, huold⟩
      · subst hut
        have hlt := htree.parent_lt ht hp
        lia
      · rcases hback huold with ⟨u, hu, hup, hdone, ⟨htp, hf⟩ | ⟨_, hf⟩⟩
        · have hci := htree.parent_lt ht htp
          have hpc := htree.parent_lt hu (hup ▸ hp)
          lia
        · rw [hf, hdone]
          subst hpi
          have hlink := hs.link hu (hup ▸ hp) ht
          exact hlink
    · rcases hback htold with ⟨t0, ht0, _, _, hstored⟩
      rcases (put_find hself).mp hu' with ⟨_, hut⟩ | ⟨_, huold⟩
      · -- The completing task and its creator.
        subst hut
        rcases hstored with ⟨_, hf⟩ | ⟨hne, _⟩
        · have hlink := hs.link ht hp ht0
          rw [hlive] at hlink
          rw [hf]
          exact C.link_store_self hlink hnext
        · exact absurd hp hne
      · rcases hback huold with ⟨u, hu, hup, hdone, hustored⟩
        have hlink := hs.link hu (hup ▸ hp) ht0
        rcases hstored with ⟨htp, hf⟩ | ⟨_, hf⟩
        · -- Another task of the same creator.
          have hmine := hs.link ht htp ht0
          rw [hlive] at hmine
          rcases hustored with ⟨htc, _⟩ | ⟨_, hfu⟩
          · rw [htp] at htc
            cases htc
            have hlt := htree.parent_lt hu (hup ▸ hp)
            lia
          · rw [hf, hfu, hdone]
            exact C.link_store_sibling hlink hmine hnext
        · rcases hustored with ⟨_, hfu⟩ | ⟨_, hfu⟩
          · rw [hf, hfu, hdone]
            exact C.link_store_creator hlink hnext
          · rw [hf, hfu, hdone]
            exact hlink
  · intro j u' hu' hnone
    rcases (put_find hself).mp hu' with ⟨_, hut⟩ | ⟨_, hold⟩
    · subst hut
      have hfirst := hs.first ht hnone
      exact hfirst
    · rcases hback hold with ⟨u, hu, hup, _, ⟨_, hf⟩ | ⟨_, hf⟩⟩
      · rw [hf]
        exact C.first_store (hs.first hu (hup ▸ hnone)) hnext
      · rw [hf]
        exact hs.first hu (hup ▸ hnone)
  · intro w hw
    cases hparent : t.parent with
    | none =>
        rw [hparent] at hw
        cases hw
        exact C.result (hs.first ht hparent) hok hnext
    | some p =>
        rw [hparent] at hw
        exact hs.result hw

theorem holds_step {a : Action} (hs : C.Holds s) (htree : Tree s)
    (hstep : TaskPool.step next s a = some s') : C.Holds s' := by
  rcases moves_of_step hstep with ⟨t, ht, hlive, hmoves⟩
  cases hmoves with
  | advance hadv _ hall => exact holds_advance hs htree ht hlive hadv hall
  | spawn hnext _ =>
      rename_i f c w hw
      rw [push_put (find_lt ht)]
      have hadv := Advances.spawn hnext
      have hparent :
          ({ t with frame := f, waitsFor := w } : Task frame).parent =
            t.parent := rfl
      refine holds_push (holds_advance hs htree ht hlive hadv ?_)
        (htree.put_parent_lt ht hparent) ((put_find ht).mpr (Or.inl ⟨rfl, rfl⟩))
        (C.ok_child (hlive ▸ hs.ok ht) hnext)
        (C.link_child (hlive ▸ hs.ok ht) hnext)
      intro hwait
      rw [hnext] at hwait
      cases hwait
  | finish hnext => exact holds_finish hs htree ht hlive hnext

/-- The rule: a contract holds in every reachable pool. -/
theorem reachable (C : Contract next first)
    (h : (system next first).Reachable s) : C.Holds s := by
  refine System.reachable_invariant ?_
    (fun hreach hs hstep => holds_step hs (Tree.reachable hreach) hstep) h
  intro s0 hinit
  subst hinit
  have honly : forall {i : Nat} {t : Task frame},
      [newTask none first][i]? = some t -> t = newTask none first := by
    intro i t ht
    cases i with
    | zero =>
        cases ht
        rfl
    | succ i => cases ht
  constructor
  · intro i t ht
    rw [honly ht]
    exact C.ok_first
  · intro c p u t hu hp _
    rw [honly hu] at hp
    cases hp
  · intro i t ht _
    rw [honly ht]
    exact C.first_first
  · intro v hv
    cases hv

end Contract

/-!
## Existence of the created tasks

A frame on which `Created` holds has created a task of the given kind.  Tasks
do not go away and keep their kind.
-/

section Existence

variable {Created Kind : frame -> Prop}

/-- Every task is still there, with its creator and its kind. -/
def Keeps (Kind : frame -> Prop) (s s' : State frame value) : Prop :=
  forall (j : Nat) (u : Task frame), s.tasks[j]? = some u ->
    exists u', s'.tasks[j]? = some u' ∧ u'.parent = u.parent ∧
      (Kind u.frame -> Kind u'.frame)

variable {s s' : State frame value} {i : Nat} {t : Task frame}

theorem keeps_put (ht : s.tasks[i]? = some t) (t' : Task frame)
    (hparent : t'.parent = t.parent)
    (hkind : Kind t.frame -> Kind t'.frame) : Keeps Kind s (s.put i t') := by
  intro j u hu
  by_cases hj : j = i
  · subst hj
    rw [ht] at hu
    cases hu
    exact ⟨t', (put_find ht).mpr (Or.inl ⟨rfl, rfl⟩), hparent, hkind⟩
  · exact ⟨u, (put_find ht).mpr (Or.inr ⟨hj, hu⟩), rfl, fun h => h⟩

theorem keeps_push : Keeps Kind s (s.push t) := by
  intro j u hu
  exact ⟨u, push_find.mpr (Or.inr hu), rfl, fun h => h⟩

theorem keeps_deliver {parent : Option Nat} {v : value}
    {store : frame -> frame} (hstore : forall {f}, Kind f -> Kind (store f)) :
    Keeps Kind s (s.deliver parent v store) := by
  intro j u hu
  refine ⟨_, deliver_find.mpr ⟨u, hu, rfl⟩, ?_, ?_⟩
  · split <;> rfl
  · intro hk
    split
    · exact hstore hk
    · exact hk

theorem Keeps.trans {s'' : State frame value} (h : Keeps Kind s s')
    (h' : Keeps Kind s' s'') : Keeps Kind s s'' := by
  intro j u hu
  rcases h j u hu with ⟨u', hu', hparent, hkind⟩
  rcases h' j u' hu' with ⟨u'', hu'', hparent', hkind'⟩
  exact ⟨u'', hu'', hparent'.trans hparent, fun hk => hkind' (hkind hk)⟩

theorem keeps_step {a : Action}
    (hgo : forall {f f'}, Kind f -> Advances next f f' -> Kind f')
    (hstore : forall {f u v st}, Kind f -> next u = Next.finish v st ->
      Kind (st f))
    (htree : Tree s) (hstep : step next s a = some s') :
    Keeps Kind s s' := by
  rcases moves_of_step hstep with ⟨t, ht, _, hmoves⟩
  cases hmoves with
  | advance hadv _ _ =>
      exact keeps_put ht _ rfl (fun hk => hgo hk hadv)
  | spawn hnext hw =>
      rename_i f c w
      have hpush := (push_find (t := newTask (some a.task) c)).mpr
        (Or.inr ht)
      refine keeps_push.trans (keeps_put hpush _ rfl ?_)
      exact fun hk => hgo hk (Advances.spawn hnext)
  | finish hnext =>
      rename_i v store
      have hdeliver : Keeps Kind s (s.deliver t.parent v store) :=
        keeps_deliver (fun hk => hstore hk hnext)
      have hself := htree.deliver_self ht v store
      exact hdeliver.trans (keeps_put hself _ rfl (fun hk => hk))

/-- The rule for a property `Created` of frames that only a task creation can
make true, and a kind of frame that no step takes away. -/
theorem exists_child {first : frame} (Created Kind : frame -> Prop)
    (hfirst : ¬ Created first)
    (hchild : forall {f f' c}, next f = Next.spawn f' c -> ¬ Created c)
    (hgo : forall {f f'}, Advances next f f' -> Created f' ->
      Created f ∨ exists c, next f = Next.spawn f' c ∧ Kind c)
    (hstore : forall {f u v st}, next u = Next.finish v st ->
      Created (st f) -> Created f)
    (hkindGo : forall {f f'}, Kind f -> Advances next f f' -> Kind f')
    (hkindStore : forall {f u v st}, Kind f -> next u = Next.finish v st ->
      Kind (st f))
    (h : (system next first).Reachable s) (ht : s.tasks[i]? = some t)
    (hcreated : Created t.frame) :
    exists (c : Nat) (u : Task frame),
      s.tasks[c]? = some u ∧ u.parent = some i ∧ Kind u.frame := by
  refine System.reachable_invariant
    (P := fun s => forall i t, s.tasks[i]? = some t -> Created t.frame ->
      exists (c : Nat) (u : Task frame),
        s.tasks[c]? = some u ∧ u.parent = some i ∧ Kind u.frame)
    ?_ ?_ h i t ht hcreated
  · intro s0 hinit i t ht hcreated
    subst hinit
    cases i with
    | zero =>
        cases ht
        exact absurd hcreated hfirst
    | succ i => cases ht
  · intro s a s' hreach hs hstep j t' ht' hcreated
    have htree := Tree.reachable hreach
    have hkeep : Keeps Kind s s' :=
      keeps_step hkindGo hkindStore htree hstep
    -- The task found before the step is still there.
    have hold : forall {u : Task frame}, s.tasks[j]? = some u ->
        Created u.frame -> exists (c : Nat) (u : Task frame),
          s'.tasks[c]? = some u ∧ u.parent = some j ∧ Kind u.frame := by
      intro u hu hcr
      rcases hs j u hu hcr with ⟨c, w, hw, hparent, hk⟩
      rcases hkeep c w hw with ⟨w', hw', hparent', hk'⟩
      exact ⟨c, w', hw', hparent'.trans hparent, hk' hk⟩
    rcases moves_of_step hstep with ⟨t, ht, _, hmoves⟩
    cases hmoves with
    | advance hadv hne _ =>
        rcases (put_find ht).mp ht' with ⟨hj, htt⟩ | ⟨_, hu⟩
        · subst htt
          subst hj
          rcases hgo hadv hcreated with hcr | ⟨c, hspawn, _⟩
          · exact hold ht hcr
          · exact absurd hspawn (hne _ c)
        · exact hold hu hcreated
    | spawn hnext hw =>
        rename_i f c w
        have hpush := (push_find (t := newTask (some a.task) c)).mpr
          (Or.inr ht)
        rcases (put_find hpush).mp ht' with ⟨hj, htt⟩ | ⟨_, hu⟩
        · subst htt
          subst hj
          rcases hgo (Advances.spawn hnext) hcreated with
            hcr | ⟨c', hspawn, hk⟩
          · exact hold ht hcr
          · rw [hnext] at hspawn
            cases hspawn
            refine ⟨s.tasks.length, newTask (some a.task) c, ?_, rfl, hk⟩
            refine (put_find hpush).mpr (Or.inr ⟨?_, ?_⟩)
            · exact Nat.ne_of_gt (find_lt ht)
            · exact push_find.mpr (Or.inl ⟨rfl, rfl⟩)
        · rcases push_find.mp hu with ⟨_, hut⟩ | hu
          · subst hut
            exact absurd hcreated (hchild hnext)
          · exact hold hu hcreated
    | finish hnext =>
        rename_i v store
        have hself := htree.deliver_self ht v store
        rcases (put_find hself).mp ht' with ⟨hj, htt⟩ | ⟨_, hu⟩
        · subst htt
          subst hj
          exact hold ht hcreated
        · rcases deliver_find.mp hu with ⟨u0, hu0, heq⟩
          refine hold hu0 ?_
          subst heq
          split at hcreated
          · exact hstore hnext hcreated
          · exact hcreated

end Existence

end TaskPool
end Foundation
end IPPD
