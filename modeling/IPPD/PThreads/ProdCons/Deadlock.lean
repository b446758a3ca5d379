import IPPD.PThreads.ProdCons.WakeUp

/-!
# Deadlock

A schedule deadlocks exactly when at some step the last active consumer leaves
its loop while items remain and another consumer is blocked.  From then on
every push finds the queue non-empty and sends no signal.
-/

namespace IPPD
namespace PThreads
namespace ProdCons

open Foundation

variable {nprod ncons : Nat} {N : Int}

/-- Every thread has left its loop and `main` has joined them all. -/
def Finished (s : State nprod ncons) : Prop :=
  AllProdsLeft s ∧ AllConssLeft s ∧ s.main = MainPc.returned

/-- The next pop of `j` makes it leave, leaves items in the queue, and leaves
no consumer active although one is blocked. -/
def Strands (s : State nprod ncons) (j : Fin ncons) : Prop :=
  s.shared.nctotal ≤ 1 ∧ 2 ≤ s.shared.b.size ∧
    (exists k, (s.conss k).isBlocked = true) ∧
    forall k, k ≠ j -> (s.conss k).isActive = false

instance (s : State nprod ncons) (j : Fin ncons) : Decidable (Strands s j) :=
  inferInstanceAs (Decidable (_ ∧ _ ∧ _ ∧ _))

/-- The step is not a stranding pop. -/
def NoStranding (s : State nprod ncons) : Action nprod ncons -> Prop
  | Action.cons j => ¬ Strands s j
  | _ => True

instance (s : State nprod ncons) (a : Action nprod ncons) :
    Decidable (NoStranding s a) :=
  match a with
  | Action.cons j => inferInstanceAs (Decidable (¬ Strands s j))
  | Action.main | Action.prod _ _ _ | Action.spurious _ =>
      inferInstanceAs (Decidable True)

/-!
## Runs that strand nobody
-/

/-- Items in the queue mean an active consumer, unless all have left. -/
def Awake (s : State nprod ncons) : Prop :=
  s.shared.b ≠ [] -> (exists j, (s.conss j).isActive = true) ∨
    AllConssLeft s

theorem awake_step {s t : State nprod ncons} {a : Action nprod ncons}
    (hallowed : NoStranding s a) (hawake : Awake s)
    (hstep : step false s a = some t) : Awake t := by
  cases moves_of_step hstep with
  | main _ => exact hawake
  | push _ _ hsignal => exact fun _ => signalled_active hsignal hawake
  | wait _ _ hb => exact fun hne => absurd hb hne
  | wake hspurious _ => cases hspurious
  | @pop j it rest _ hactive hb =>
      intro hne
      by_cases hfim : s.shared.nctotal - 1 ≤ 0
      · -- `j` leaves: the guard provides another active consumer, or nobody
        -- is blocked and the others have left already.
        by_cases hother :
            exists k, k ≠ j ∧ (s.conss k).isActive = true
        · rcases hother with ⟨k, hk, hkactive⟩
          refine Or.inl ⟨k, ?_⟩
          simpa only [afterPop, Function.update_of_ne hk] using hkactive
        · right
          intro k
          by_cases hk : k = j
          · subst hk
            simp [afterPop, hfim, ConsThread.hasLeft]
          · have hidle : forall m, m ≠ j -> (s.conss m).isActive = false := by
              intro m hm
              apply Bool.eq_false_of_not_eq_true
              intro hmactive
              exact hother ⟨m, hm, hmactive⟩
            have hsize : 2 ≤ s.shared.b.size := by
              have hrest := List.length_pos_of_ne_nil hne
              simp only [afterPop, Thread.popped] at hrest
              rw [hb, Queue.size, List.length_cons]
              lia
            have hfree : (s.conss k).isBlocked = false := by
              apply Bool.eq_false_of_not_eq_true
              intro hblocked
              exact hallowed ⟨by lia, hsize, ⟨k, hblocked⟩, hidle⟩
            simpa only [afterPop, Function.update_of_ne hk] using
              ConsThread.hasLeft_of_idle (hidle k hk) hfree
      · refine Or.inl ⟨j, ?_⟩
        simp [afterPop, hfim, ConsThread.isActive]

theorem awake_of_noStranding {tr : List (Action nprod ncons)}
    {s : State nprod ncons}
    (hrun : ((system false N nprod ncons).restrict NoStranding).Run
      (initial N nprod ncons) tr s) : Awake s := by
  refine System.run_preserves (P := Awake) ?_ hrun ?_
  · intro s a t hs hstep
    rcases System.restrict_step_eq_some.mp hstep with ⟨hallowed, hst⟩
    exact awake_step hallowed hs hst
  · intro hb
    exact absurd rfl hb

/-!
## After a stranding pop
-/

/-- Items in the queue, a blocked consumer and nobody to pop or to signal. -/
def Doomed (s : State nprod ncons) (k : Fin ncons) : Prop :=
  s.shared.b ≠ [] ∧ (s.conss k).isBlocked = true ∧
    forall j, (s.conss j).isActive = false

theorem doomed_step {s t : State nprod ncons} {a : Action nprod ncons}
    {k : Fin ncons} (hdoomed : Doomed s k)
    (hstep : step false s a = some t) : Doomed t k := by
  rcases hdoomed with ⟨hb, hblocked, hidle⟩
  cases moves_of_step hstep with
  | main _ => exact ⟨hb, hblocked, hidle⟩
  | push _ _ hsignal =>
      cases hsignal with
      | silent _ =>
          refine ⟨?_, hblocked, hidle⟩
          simp [afterPush, prodSection, Queue.push]
      | wakes hempty _ => exact absurd hempty hb
      | nobody hempty _ => exact absurd hempty hb
  | @wait j _ hactive _ =>
      rw [hidle j] at hactive
      cases hactive
  | @pop j it rest _ hactive _ =>
      rw [hidle j] at hactive
      cases hactive
  | wake hspurious _ => cases hspurious

theorem doomed_of_strands {s t : State nprod ncons} {j : Fin ncons}
    (hstrands : Strands s j)
    (hstep : step false s (Action.cons j) = some t) :
    exists k, Doomed t k := by
  rcases hstrands with ⟨htotal, hsize, ⟨k, hblocked⟩, hidle⟩
  cases moves_of_step hstep with
  | wait _ _ hb =>
      rw [hb] at hsize
      cases hsize
  | @pop it rest _ _ hactive hb =>
      have hfim : s.shared.nctotal - 1 ≤ 0 := by lia
      have hkj : k ≠ j := by
        intro heq
        rw [heq, (ConsThread.isActive_iff.mp hactive).right] at hblocked
        cases hblocked
      refine ⟨k, ?_, ?_, ?_⟩
      · intro hrest
        simp only [afterPop, Thread.popped] at hrest
        rw [hb, hrest] at hsize
        simp [Queue.size] at hsize
      · simpa only [afterPop, Function.update_of_ne hkj] using hblocked
      · intro m
        by_cases hm : m = j
        · subst hm
          simp [afterPop, hfim, ConsThread.isActive]
        · simpa only [afterPop, Function.update_of_ne hm] using hidle m hm

/-!
## Exact characterisation of deadlock
-/

theorem reachable_of_run {tr : List (Action nprod ncons)}
    {s : State nprod ncons}
    (hrun : (system false N nprod ncons).Run (initial N nprod ncons) tr s) :
    (system false N nprod ncons).Reachable s :=
  ⟨initial N nprod ncons, tr, rfl, hrun⟩

theorem finished_of_awake {s : State nprod nprod} (hN : 1 ≤ N)
    (hpos : 0 < nprod) (hs : (system false N nprod nprod).Reachable s)
    (hstuck : (system false N nprod nprod).Stuck s) (hawake : Awake s) :
    Finished s := by
  have hmain := mainStep_of_step_none (hstuck Action.main)
  have hstarted := started_of_mainStep_none hmain
  have hprods : AllProdsLeft s :=
    allProdsLeft_of_quiet hstarted.left
      (fun i it woken => hstuck (Action.prod i it woken))
  have hidle := not_isActive_of_quiet hstarted.right
    (fun j => hstuck (Action.cons j))
  have hconss : AllConssLeft s := by
    intro j
    by_contra hj
    have hj' := Bool.eq_false_of_not_eq_true hj
    have hsupply := length_buffer_eq_demand hN hpos hs hprods
    have hdemand := demand_pos_of_not_left hj'
    have hb : s.shared.b ≠ [] := by
      intro hnil
      rw [hnil] at hsupply
      simp only [List.length_nil] at hsupply
      lia
    rcases hawake hb with ⟨k, hk⟩ | hall
    · rw [hidle k] at hk
      cases hk
    · exact hj (hall j)
  exact ⟨hprods, hconss, returned_of_mainStep_none hmain hprods hconss⟩

/-- A run that can go no further has joined all threads if and only if it
never took a stranding pop. -/
theorem stuck_finished_iff (hN : 100 ≤ N) (hnprod : 2 ≤ nprod)
    {tr : List (Action nprod nprod)} {s : State nprod nprod}
    (hrun : (system false N nprod nprod).Run (initial N nprod nprod) tr s)
    (hstuck : (system false N nprod nprod).Stuck s) :
    Finished s <->
      ((system false N nprod nprod).restrict NoStranding).Run
        (initial N nprod nprod) tr s := by
  constructor
  · intro hfinished
    rcases System.run_restrict_or_violates NoStranding hrun with
      hgood | ⟨front, u, a, v, back, _, hbad, hstep, hback⟩
    · exact hgood
    · exfalso
      cases a with
      | cons j =>
          have hstrands : Strands u j := not_not.mp hbad
          rcases doomed_of_strands hstrands hstep with ⟨k, hdoomed⟩
          have hend : Doomed s k :=
            System.run_preserves (P := fun x => Doomed x k)
              doomed_step hback hdoomed
          have hleft := hfinished.right.left k
          rw [ConsThread.not_hasLeft_of_blocked hend.right.left] at hleft
          cases hleft
      | main => exact hbad trivial
      | prod i it woken => exact hbad trivial
      | spurious j => exact hbad trivial
  · intro hgood
    exact finished_of_awake (by lia) (by lia) (reachable_of_run hrun) hstuck
      (awake_of_noStranding hgood)

/-!
## A schedule that deadlocks

For every admitted input: first all consumers block on the empty queue, then
the producers run to the end, which wakes one consumer only.
-/

/-- The phase in which the producers do not move. -/
def notProd (_ : State nprod ncons) : Action nprod ncons -> Prop
  | Action.prod _ _ _ => False
  | _ => True

instance (s : State nprod ncons) (a : Action nprod ncons) :
    Decidable (notProd s a) :=
  match a with
  | Action.prod _ _ _ => inferInstanceAs (Decidable False)
  | Action.main | Action.cons _ | Action.spurious _ =>
      inferInstanceAs (Decidable True)

/-- The phase in which only the producers move. -/
def onlyProd (_ : State nprod ncons) : Action nprod ncons -> Prop
  | Action.prod _ _ _ => True
  | _ => False

instance (s : State nprod ncons) (a : Action nprod ncons) :
    Decidable (onlyProd s a) :=
  match a with
  | Action.prod _ _ _ => inferInstanceAs (Decidable True)
  | Action.main | Action.cons _ | Action.spurious _ =>
      inferInstanceAs (Decidable False)

/-- All threads are created and every consumer is blocked on an empty
queue. -/
theorem exists_allBlocked (nprod ncons : Nat) (hN : 1 ≤ N) :
    exists s, (system false N nprod ncons).Reachable s ∧
      s.shared.b = [] ∧ mainStep s = none ∧
      forall j, (s.conss j).isBlocked = true := by
  have hinit : (system false N nprod ncons).Reachable
      (initial N nprod ncons) :=
    System.reachable_init rfl
  have hkeep : forall {s a t}, (system false N nprod ncons).Reachable s ->
      s.pushed = [] -> notProd s a ->
      (system false N nprod ncons).step s a = some t -> t.pushed = [] := by
    intro s a t _ hpushed hallowed hstep
    cases moves_of_step hstep with
    | push _ _ _ => exact hallowed.elim
    | main _ => exact hpushed
    | wait _ _ _ => exact hpushed
    | pop _ _ _ => exact hpushed
    | wake _ _ => exact hpushed
  rcases System.exists_phase notProd (ranked hN) hkeep hinit rfl with
    ⟨s, hs, hpushed, hquiet⟩
  have hconserved := pushed_eq hs
  rw [hpushed] at hconserved
  rcases List.append_eq_nil_iff.mp hconserved.symm with ⟨hpopped, hb⟩
  have hmain := mainStep_of_step_none (hquiet Action.main trivial)
  have hidle := not_isActive_of_quiet (started_of_mainStep_none hmain).right
    (fun k => hquiet (Action.cons k) trivial)
  refine ⟨s, hs, hb, hmain, ?_⟩
  intro j
  have hstay : (s.conss j).hasLeft = false := by
    apply not_hasLeft_of_nctotal_pos hN hs
    rw [nctotal_eq hN hs, hpopped, List.length_nil]
    lia
  by_contra hfree
  have hactive := ConsThread.isActive_iff.mpr
    ⟨hstay, Bool.eq_false_of_not_eq_true hfree⟩
  rw [hidle j] at hactive
  cases hactive

/-- All consumers but at most one are blocked, and all are if the queue is
empty. -/
def MostlyBlocked (s : State nprod ncons) : Prop :=
  ncons ≤ census ConsThread.isBlocked s.conss +
    if s.shared.b = [] then 0 else 1

theorem mostlyBlocked_push {s : State nprod ncons} {i : Fin nprod} {it : Int}
    {woken : Option (Fin ncons)} {conss : Fin ncons -> ConsThread}
    (hmost : MostlyBlocked s)
    (hsignal : Signalled s.conss s.shared.b woken conss) :
    MostlyBlocked (afterPush s i it (prodSection s.shared it) conss) := by
  have hb :
      (afterPush s i it (prodSection s.shared it) conss).shared.b ≠ [] := by
    simp [afterPush, prodSection, Queue.push]
  unfold MostlyBlocked at hmost ⊢
  rw [if_neg hb]
  cases hsignal with
  | silent hne =>
      rw [if_neg hne] at hmost
      exact hmost
  | nobody hempty _ =>
      rw [if_pos hempty] at hmost
      exact Nat.le_succ_of_le hmost
  | @wakes j hempty hblocked =>
      rw [if_pos hempty] at hmost
      have hcount := census_update ConsThread.isBlocked s.conss j
        { s.conss j with pc := ConsPc.woken }
      rw [hblocked] at hcount
      change ncons ≤ census ConsThread.isBlocked
        (Function.update s.conss j _) + 1
      simp [ConsThread.isBlocked] at hcount ⊢
      lia

theorem exists_blocked_allProdsLeft (nprod : Nat) (hN : 1 ≤ N)
    (hncons : 2 ≤ ncons) :
    exists s, (system false N nprod ncons).Reachable s ∧ AllProdsLeft s ∧
      exists k, (s.conss k).isBlocked = true := by
  rcases exists_allBlocked nprod ncons hN with
    ⟨s, hs, hb, hmain, hblocked⟩
  have hstart := (started_of_mainStep_none hmain).left
  have hmost : MostlyBlocked s := by
    have hall := census_eq_card_iff.mpr hblocked
    rw [Fintype.card_fin] at hall
    unfold MostlyBlocked
    rw [hall]
    exact Nat.le_add_right _ _
  have hkeep : forall {s a t}, (system false N nprod ncons).Reachable s ->
      ((forall i, s.main.startedProd i = true) ∧ MostlyBlocked s) ->
      onlyProd s a -> (system false N nprod ncons).step s a = some t ->
      (forall i, t.main.startedProd i = true) ∧ MostlyBlocked t := by
    intro s a t _ hI hallowed hstep
    cases moves_of_step hstep with
    | push _ _ hsignal => exact ⟨hI.left, mostlyBlocked_push hI.right hsignal⟩
    | main _ => exact hallowed.elim
    | wait _ _ _ => exact hallowed.elim
    | pop _ _ _ => exact hallowed.elim
    | wake _ _ => exact hallowed.elim
  rcases System.exists_phase onlyProd (ranked hN) hkeep hs ⟨hstart, hmost⟩ with
    ⟨t, ht, htI, hquiet⟩
  have hleft : AllProdsLeft t :=
    allProdsLeft_of_quiet htI.left
      (fun i it woken => hquiet (Action.prod i it woken) trivial)
  have hpos : 0 < census ConsThread.isBlocked t.conss := by
    have hmost' := htI.right
    unfold MostlyBlocked at hmost'
    split at hmost' <;> lia
  exact ⟨t, ht, hleft, census_pos_iff.mp hpos⟩

/-- Every admitted input has a schedule that ends with a consumer blocked for
ever although the queue is not empty. -/
theorem exists_deadlock {N : Int} {nprod : Nat} (hN : 1 ≤ N)
    (hnprod : 2 ≤ nprod) :
    exists s, (system false N nprod nprod).Reachable s ∧
      (system false N nprod nprod).Stuck s ∧ s.shared.b ≠ [] ∧
      exists k, (s.conss k).isBlocked = true := by
  rcases exists_blocked_allProdsLeft nprod hN hnprod with
    ⟨s, hs, hleft, hblocked⟩
  have hkeep : forall {s a t}, (system false N nprod nprod).Reachable s ->
      (AllProdsLeft s ∧ exists k, (s.conss k).isBlocked = true) -> True ->
      (system false N nprod nprod).step s a = some t ->
      AllProdsLeft t ∧ exists k, (t.conss k).isBlocked = true := by
    intro s a t _ hI _ hstep
    rcases hI with ⟨hleft, k, hk⟩
    have hother : forall j, (s.conss j).isActive = true -> k ≠ j := by
      intro j hj heq
      rw [← heq, ConsThread.isActive_iff, hk] at hj
      cases hj.right
    cases moves_of_step hstep with
    | main _ => exact ⟨hleft, k, hk⟩
    | @push i _ _ _ _ hloop _ =>
        have hi := hleft i
        rw [ProdThread.not_hasLeft_of_loop hloop] at hi
        cases hi
    | @wait j _ hactive _ =>
        refine ⟨hleft, k, ?_⟩
        simpa only [afterWait, Function.update_of_ne (hother j hactive)]
          using hk
    | @pop j _ _ _ hactive _ =>
        refine ⟨hleft, k, ?_⟩
        simpa only [afterPop, Function.update_of_ne (hother j hactive)]
          using hk
    | wake hspurious _ => cases hspurious
  rcases System.exists_phase (fun _ _ => True) (ranked hN) hkeep hs
      ⟨hleft, hblocked⟩ with
    ⟨t, ht, ⟨hprods, k, hk⟩, hquiet⟩
  refine ⟨t, ht, fun a => hquiet a trivial, ?_, k, hk⟩
  have hsupply := length_buffer_eq_demand hN (by lia) ht hprods
  have hdemand := demand_pos_of_not_left
    (ConsThread.not_hasLeft_of_blocked hk)
  intro hb
  rw [hb] at hsupply
  simp only [List.length_nil] at hsupply
  lia

theorem stuck_finished_iff_hundred_two :
    exists tr s, (system false 100 2 2).Run (initial 100 2 2) tr s ∧
      (system false 100 2 2).Stuck s ∧
      (Finished s <->
        ((system false 100 2 2).restrict NoStranding).Run
          (initial 100 2 2) tr s) := by
  rcases exists_deadlock (N := 100) (by decide) (Nat.le_refl 2) with
    ⟨s, ⟨s0, tr, hinit, hrun⟩, hstuck, _⟩
  cases hinit
  exact ⟨tr, s, hrun, hstuck,
    stuck_finished_iff (by decide) (by decide) hrun hstuck⟩

theorem deadlock_hundred_two :
    ¬ forall s, (system false 100 2 2).Reachable s ->
      (system false 100 2 2).Stuck s -> AllProdsLeft s ∧ AllConssLeft s := by
  intro h
  rcases exists_deadlock (N := 100) (by decide) (Nat.le_refl 2) with
    ⟨s, hs, hstuck, _, k, hk⟩
  have hleft := (h s hs hstuck).right k
  rw [ConsThread.not_hasLeft_of_blocked hk] at hleft
  cases hleft

end ProdCons
end PThreads
end IPPD
