import IPPD.OpenMP.FiboFor.Program

/-!
# The race between the iterations

With two threads some iteration can run before the one in front of it, and then
it reads an element that nobody has written.  Two schedules that differ only in
when the late iteration runs carry the error of that read to the last element
with two consecutive Fibonacci numbers as factors.  They cannot both vanish
modulo `2^32`.
-/

namespace IPPD
namespace OpenMP
namespace FiboFor

open Foundation

variable {thread : Type u} [DecidableEq thread]
variable {n : Nat} {owner : Nat -> thread} {junk : Nat -> CInt}

/-!
## Running a segment of iterations
-/

/-- The state after the iterations from `a` below `b`, in order. -/
structure Segment (a b : Nat) (s t : State) : Prop where
  size : t.f.size = s.f.size
  returned : t.returned = s.returned
  executed : forall i,
    t.executed i = (s.executed i || decide (a ≤ i ∧ i < b))
  cell_in : forall i, a ≤ i + 2 -> i + 2 < b ->
    t.f.cell (i + 2) = t.f.cell (i + 1) + t.f.cell i
  cell_out : forall i, (i < a ∨ b ≤ i) -> t.f.cell i = s.f.cell i

theorem run_segment (junk : Nat -> CInt) {s : State} {a b : Nat}
    (ha : 2 ≤ a) (hab : a ≤ b) (hb : b ≤ n) (hsize : s.f.size = n)
    (hfresh : forall i, a ≤ i -> i < b -> s.executed i = false)
    (hbefore : forall i, a ≤ i -> i < b ->
      forall j, j < a -> 2 ≤ j -> owner j = owner i -> s.executed j = true) :
    exists tr t, (system n owner junk).Run s tr t ∧ Segment a b s t := by
  induction b, hab using Nat.le_induction with
  | base =>
      refine ⟨[], s, System.Run.nil s, rfl, rfl, ?_, ?_, fun _ _ => rfl⟩
      · intro i
        have hempty : ¬ (a ≤ i ∧ i < a) := by lia
        simp [hempty]
      · intro i hi hlt
        lia
  | succ b hab ih =>
      rcases ih (by lia) (fun i hi hlt => hfresh i hi (by lia))
        (fun i hi hlt => hbefore i hi (by lia)) with ⟨tr, t, hrun, hseg⟩
      rcases Nat.exists_eq_add_of_le' (show 2 ≤ b by lia) with ⟨k, hk⟩
      subst hk
      have henabled : Enabled n owner t (k + 2) := by
        refine ⟨by lia, by lia, ?_, ?_⟩
        · rw [hseg.executed, hfresh (k + 2) hab (by lia)]
          simp
        · intro j hj hj2 howner
          rw [hseg.executed]
          by_cases hja : j < a
          · rw [hbefore (k + 2) hab (by lia) j hja hj2 howner]
            rfl
          · simp
            lia
      have hstep : (system n owner junk).step t (Action.iteration (k + 2)) =
          some
            { t with
              f := t.f.put (k + 2) (t.f.cell (k + 1) + t.f.cell k)
              executed := Function.update t.executed (k + 2) true } := by
        have hlt : k + 2 < t.f.size := by
          rw [hseg.size]
          lia
        exact (if_pos henabled).trans (iterate_eq hlt)
      refine ⟨_, _, System.run_append hrun (System.run_single hstep), ?_⟩
      constructor
      · exact hseg.size
      · exact hseg.returned
      · intro i
        dsimp only
        by_cases hi : i = k + 2
        · subst hi
          simp
          lia
        · rw [Function.update_of_ne hi, hseg.executed]
          congr 2
          apply propext
          lia
      · intro i hi hlt
        dsimp only
        rw [CArray.put_cell_ne (j := i + 1) (by lia),
          CArray.put_cell_ne (j := i) (by lia)]
        by_cases hik : i = k
        · subst hik
          rw [CArray.put_cell_self]
        · rw [CArray.put_cell_ne (by lia)]
          exact hseg.cell_in i hi (by lia)
      · intro i hi
        dsimp only
        rw [CArray.put_cell_ne (by lia)]
        exact hseg.cell_out i (by lia)

theorem reachable_segment {s : State} {a b : Nat} {done : Nat -> Prop}
    [DecidablePred done] (hn : 2 ≤ n)
    (hs : (system n owner junk).Reachable s)
    (hdone : forall i, s.executed i = decide (done i)) (ha : 2 ≤ a)
    (hab : a ≤ b) (hb : b ≤ n) (hfresh : forall i, a ≤ i -> i < b -> ¬ done i)
    (hbefore : forall i, a ≤ i -> i < b ->
      forall j, j < a -> 2 ≤ j -> owner j = owner i -> done j) :
    exists t, (system n owner junk).Reachable t ∧ Segment a b s t ∧
      forall i, t.executed i = decide (done i ∨ (a ≤ i ∧ i < b)) := by
  have hsize := (reachable_inv hn hs).size
  rcases run_segment junk ha hab hb hsize
    (fun i hi hib => by rw [hdone, decide_eq_false (hfresh i hi hib)])
    (fun i hi hib j hj hj2 howner => by
      rw [hdone, decide_eq_true (hbefore i hi hib j hj hj2 howner)]) with
    ⟨tr, t, hrun, hseg⟩
  refine ⟨t, System.reachable_run hs hrun, hseg, ?_⟩
  intro i
  rw [hseg.executed, hdone, Bool.decide_or]

/-!
## Fibonacci sequences with an error
-/

theorem right_sequence {c : Nat -> CInt} {m : Nat} (h0 : c 0 = 1)
    (h1 : c 1 = 1)
    (hrec : forall i, i + 2 < m -> c (i + 2) = c (i + 1) + c i) {k : Nat}
    (hk : k < m ∨ k < 2) : c k = fibInt (k + 1) := by
  induction k using Nat.strongRecOn with
  | _ k ih =>
      match k with
      | 0 => exact h0
      | 1 => exact h1
      | k + 2 =>
          rw [hrec k (by lia), ih (k + 1) (by lia) (by lia),
            ih k (by lia) (by lia)]
          exact (fibInt_add_two (k + 1)).symm

/-- One wrong element, one too large, spoils the sequence. -/
theorem wrong_sequence {c : Nat -> CInt} {m b : Nat}
    (h0 : c m = fibInt (m + 1)) (h1 : c (m + 1) = fibInt (m + 2) + 1)
    (hrec : forall i, m ≤ i -> i + 2 < b -> c (i + 2) = c (i + 1) + c i)
    {k : Nat} (hk : m + k < b ∨ k < 2) :
    c (m + k) = fibInt (m + k + 1) + fibInt k := by
  induction k using Nat.strongRecOn with
  | _ k ih =>
      match k with
      | 0 =>
          rw [fibInt_zero]
          simpa using h0
      | 1 => exact h1
      | k + 2 =>
          have hstep := hrec (m + k) (by lia) (by lia)
          have ih1 := ih (k + 1) (by lia) (by lia)
          have ih0 := ih k (by lia) (by lia)
          rw [show m + (k + 2) = m + k + 2 from rfl, hstep,
            show m + k + 1 = m + (k + 1) from rfl, ih1, ih0,
            show m + (k + 1) + 1 = m + k + 2 from rfl,
            fibInt_add_two (m + k + 1), fibInt_add_two k]
          ac_rfl

theorem fibInt_ne_zero (k : Nat) :
    ¬ (fibInt k = 0 ∧ fibInt (k + 1) = 0) := by
  intro h
  have heven : forall {i}, fibInt i = 0 -> 2 ∣ Nat.fib i := by
    intro i hi
    have hmod := congrArg BitVec.toNat hi
    rw [fibInt, BitVec.toNat_ofNat] at hmod
    exact Nat.dvd_trans (by decide) (Nat.dvd_of_mod_eq_zero hmod)
  have hdvd := Nat.dvd_gcd (heven h.left) (heven h.right)
  rw [Nat.fib_coprime_fib_succ k] at hdvd
  exact absurd hdvd (by decide)

/-!
## The two schedules
-/

/-- Some run returns `v`. -/
def Reaches (n : Nat) (owner : Nat -> thread) (junk : Nat -> CInt)
    (v : CInt) : Prop :=
  exists s, (system n owner junk).Reachable s ∧ s.returned = some v

theorem reaches_of_finished {s : State} (hn : 2 ≤ n)
    (hs : (system n owner junk).Reachable s) (hfinished : Finished n s)
    (hnone : s.returned = none) :
    Reaches n owner junk (s.f.cell (n - 1)) := by
  have hsize := (reachable_inv hn hs).size
  have hstep : (system n owner junk).step s Action.return =
      some { s with returned := some (s.f.cell (n - 1)) } :=
    (if_pos ⟨hfinished, hnone⟩).trans (finish_eq (by lia) hsize)
  exact ⟨_, System.reachable_step hs hstep, rfl⟩

/-- All iterations in front of `m` have been executed, in order. -/
structure InFront (m : Nat) (junk : Nat -> CInt) (s : State) : Prop where
  returned : s.returned = none
  executed : forall i, s.executed i = decide (2 ≤ i ∧ i < m)
  right : forall i, i < m -> s.f.cell i = fibInt (i + 1)
  indeterminate : forall i, m ≤ i -> s.f.cell i = junk i

theorem reaches_inFront (owner : Nat -> thread) (junk : Nat -> CInt)
    {m : Nat} (hm : 2 ≤ m) (hmn : m ≤ n) :
    exists s, (system n owner junk).Reachable s ∧ InFront m junk s := by
  let f0 : CArray CInt :=
    (CArray.put { size := n, cell := junk } 1 1).put 0 1
  let s0 : State :=
    { f := f0, executed := fun _ => false, returned := none }
  have hn : 2 ≤ n := by lia
  have hinit : (system n owner junk).Init s0 :=
    ⟨f0, Fibonacci.firstTwo_eq hn, rfl⟩
  have hinv := inv_init hn hinit
  rcases reachable_segment hn
    (System.reachable_init hinit) (fun _ => rfl) (Nat.le_refl 2) hm hmn
    (fun _ _ _ => id) (by lia) with ⟨t, ht, hseg, hdone⟩
  refine ⟨t, ht, hseg.returned, ?_, ?_, ?_⟩
  · intro i
    rw [hdone]
    simp
  · intro i hi
    refine right_sequence (m := m) ?_ ?_ ?_ (Or.inl hi)
    · rw [hseg.cell_out 0 (by lia)]
      exact hinv.cell_zero
    · rw [hseg.cell_out 1 (by lia)]
      exact hinv.cell_one
    · intro k hk
      exact hseg.cell_in k (by lia) hk
  · intro i hi
    rw [hseg.cell_out i (by lia)]
    show f0.cell i = junk i
    rw [CArray.put_cell_ne (by lia), CArray.put_cell_ne (by lia)]

/-- The thread of iteration `p + 3` has all later iterations, but not the one
in front of it. -/
structure LastChange (n p : Nat) (owner : Nat -> thread) : Prop where
  lt : p + 3 < n
  ne : owner (p + 2) ≠ owner (p + 3)
  same : forall i, p + 3 ≤ i -> i < n -> owner i = owner (p + 3)

section LastChange

variable {p : Nat}

/-- Iteration `p + 2` runs right after iteration `p + 3`. -/
theorem reaches_early (hp : LastChange n p owner)
    (hjunk : junk (p + 2) = fibInt (p + 3) + 1) :
    Reaches n owner junk (fibInt n + fibInt (n - (p + 3))) := by
  have hlt := hp.lt
  have hn : 2 ≤ n := by lia
  rcases reaches_inFront (n := n) owner junk (m := p + 2)
    (by lia) (by lia) with ⟨s, hs, hfront⟩
  -- Iteration `p + 3` reads the indeterminate element.
  rcases reachable_segment (a := p + 3) (b := p + 4) hn hs hfront.executed
    (by lia) (by lia) (by lia) (by lia)
    (by
      intro i hi hi4 j hj hj2 howner
      have hjp : j ≠ p + 2 := by
        intro h
        rw [h, show i = p + 3 by lia] at howner
        exact hp.ne howner
      lia) with ⟨s1, hs1, hseg1, hdone1⟩
  rcases reachable_segment (a := p + 2) (b := p + 3) hn hs1 hdone1
    (by lia) (by lia) (by lia) (by lia) (by lia) with
    ⟨s2, hs2, hseg2, hdone2⟩
  rcases reachable_segment (a := p + 4) (b := n) hn hs2 hdone2
    (by lia) (by lia) (by lia) (by lia) (by lia) with
    ⟨s3, hs3, hseg3, hdone3⟩
  have hcell2 : s3.f.cell (p + 2) = fibInt (p + 2 + 1) := by
    rw [hseg3.cell_out (p + 2) (by lia), hseg2.cell_in p (by lia) (by lia),
      hseg2.cell_out (p + 1) (by lia), hseg2.cell_out p (by lia),
      hseg1.cell_out (p + 1) (by lia), hseg1.cell_out p (by lia),
      hfront.right (p + 1) (by lia), hfront.right p (by lia)]
    exact (fibInt_add_two (p + 1)).symm
  have hcell3 : s3.f.cell (p + 2 + 1) = fibInt (p + 2 + 2) + 1 := by
    rw [hseg3.cell_out (p + 3) (by lia), hseg2.cell_out (p + 3) (by lia),
      hseg1.cell_in (p + 1) (by lia) (by lia),
      hseg1.cell_out (p + 2) (by lia), hseg1.cell_out (p + 1) (by lia),
      hfront.indeterminate (p + 2) (by lia), hjunk,
      hfront.right (p + 1) (by lia), fibInt_add_two (p + 2)]
    exact add_right_comm (fibInt (p + 3)) 1 (fibInt (p + 2))
  have hvalue := wrong_sequence (c := s3.f.cell) (b := n)
    (k := n - (p + 3)) hcell2 hcell3
    (fun i hi hin => hseg3.cell_in i (by lia) hin) (by lia)
  rw [show p + 2 + (n - (p + 3)) = n - 1 by lia,
    Nat.sub_add_cancel (by lia)] at hvalue
  rw [← hvalue]
  refine reaches_of_finished hn hs3 ?_ ?_
  · intro i hin hi
    rw [hdone3]
    exact decide_eq_true (by lia)
  · rw [hseg3.returned, hseg2.returned, hseg1.returned]
    exact hfront.returned

theorem reaches_late (hp : LastChange n p owner)
    (hjunk : junk (p + 2) = fibInt (p + 3) + 1) :
    Reaches n owner junk (fibInt n + fibInt (n - (p + 3) + 1)) := by
  have hlt := hp.lt
  have hn : 2 ≤ n := by lia
  rcases reaches_inFront (n := n) owner junk (m := p + 2)
    (by lia) (by lia) with ⟨s, hs, hfront⟩
  rcases reachable_segment (a := p + 3) (b := n) hn hs hfront.executed
    (by lia) (by lia) (by lia) (by lia)
    (by
      intro i hi hin j hj hj2 howner
      have hjp : j ≠ p + 2 := by
        intro h
        rw [h, hp.same i hi hin] at howner
        exact hp.ne howner
      lia) with ⟨s1, hs1, hseg1, hdone1⟩
  rcases reachable_segment (a := p + 2) (b := p + 3) hn hs1 hdone1
    (by lia) (by lia) (by lia) (by lia) (by lia) with
    ⟨s2, hs2, hseg2, hdone2⟩
  have hcell1 : s1.f.cell (p + 1) = fibInt (p + 1 + 1) := by
    rw [hseg1.cell_out (p + 1) (by lia), hfront.right (p + 1) (by lia)]
  have hcell2 : s1.f.cell (p + 1 + 1) = fibInt (p + 1 + 2) + 1 := by
    rw [hseg1.cell_out (p + 2) (by lia),
      hfront.indeterminate (p + 2) (by lia), hjunk]
  have hvalue := wrong_sequence (c := s1.f.cell) (b := n)
    (k := n - (p + 3) + 1) hcell1 hcell2
    (fun i hi hin => hseg1.cell_in i (by lia) hin) (by lia)
  rw [show p + 1 + (n - (p + 3) + 1) = n - 1 by lia,
    Nat.sub_add_cancel (by lia), ← hseg2.cell_out (n - 1) (by lia)] at hvalue
  rw [← hvalue]
  refine reaches_of_finished hn hs2 ?_ ?_
  · intro i hin hi
    rw [hdone2]
    exact decide_eq_true (by lia)
  · rw [hseg2.returned, hseg1.returned]
    exact hfront.returned

end LastChange

/-!
## Which divisions agree
-/

/-- When the iterations have several owners, there is a last change. -/
theorem oneThread_or_lastChange (owner : Nat -> thread) (n : Nat) :
    OneThread n owner ∨ exists p, LastChange n p owner := by
  induction n with
  | zero => exact Or.inl (fun i j _ hi => absurd hi (by lia))
  | succ n ih =>
      by_cases hn : n < 3
      · apply Or.inl
        intro i j hi hin hj hjn
        rw [show i = j by lia]
      · rcases Nat.exists_eq_add_of_le' (show 3 ≤ n by lia) with ⟨k, hk⟩
        subst hk
        by_cases hlast : owner (k + 2) = owner (k + 3)
        · rcases ih with hone | ⟨p, hp⟩
          · apply Or.inl
            have hall : forall i, 2 ≤ i -> i < k + 3 + 1 ->
                owner i = owner (k + 2) := by
              intro i hi hin
              by_cases hik : i = k + 3
              · rw [hik, hlast]
              · exact hone i (k + 2) hi (by lia) (by lia) (by lia)
            intro i j hi hin hj hjn
            rw [hall i hi hin, hall j hj hjn]
          · have hlt := hp.lt
            refine Or.inr ⟨p, by lia, hp.ne, ?_⟩
            intro i hi hin
            by_cases hik : i = k + 3
            · rw [hik, ← hlast]
              exact hp.same (k + 2) (by lia) (by lia)
            · exact hp.same i hi (by lia)
        · refine Or.inr ⟨k, by lia, hlast, ?_⟩
          intro i hi hin
          rw [show i = k + 3 by lia]

theorem returned_eq_of_agrees {v : CInt} (hn : 2 ≤ n)
    (hagrees : Agrees n owner) (hv : Reaches n owner junk v) :
    v = fibInt n := by
  rcases hv with ⟨s, hs, hv⟩
  have hstuck : (system n owner junk).Stuck s :=
    stuck_of_returned (reachable_inv hn hs) hv
  rcases hagrees junk junk s hs hstuck with ⟨w, hw, hseq⟩
  have hright := Fibonacci.fiboArray_wrapping (n := (n : Int)) (by lia) junk
  rw [hv] at hw
  cases hw
  rw [Fibonacci.fiboSequencial, hright] at hseq
  cases hseq
  rfl

/-- The parallel loop agrees with the sequential one exactly when one thread
executes all of its iterations. -/
theorem agrees_iff_oneThread (hn : 2 ≤ n) :
    Agrees n owner <-> OneThread n owner := by
  constructor
  · intro hagrees
    rcases oneThread_or_lastChange owner n with hone | ⟨p, hp⟩
    · exact hone
    · exfalso
      have hzero : forall {k}, Reaches n owner
          (fun _ => fibInt (p + 3) + 1) (fibInt n + fibInt k) ->
          fibInt k = 0 := by
        intro k hk
        have heq := returned_eq_of_agrees hn hagrees hk
        simpa using heq
      exact fibInt_ne_zero (n - (p + 3))
        ⟨hzero (reaches_early hp rfl), hzero (reaches_late hp rfl)⟩
  · exact agrees_of_oneThread hn

/-- Another thread of the team has no iteration. -/
theorem agrees_one_of_two : Agrees 6 (fun _ => (0 : Fin 2)) := by
  apply (agrees_iff_oneThread (by decide)).mpr
  intro i j _ _ _ _
  rfl

/-- Two threads share the iterations 2 and 3, and iteration 3 runs first. -/
theorem not_agrees_four : ¬ Agrees 4 (fun i => decide (i < 3)) := by
  intro hagrees
  have hreaches : Reaches 4 (fun i => decide (i < 3)) (fun _ => 0) 1 := by
    refine ⟨_, ⟨_, [Action.iteration 3, Action.iteration 2, Action.return],
      ⟨_, rfl, rfl⟩, System.run_iff_exec.mpr
        (show System.exec _ _ _ = some _ from rfl)⟩, rfl⟩
  have heq := returned_eq_of_agrees (by decide) hagrees hreaches
  exact absurd heq (by decide)

end FiboFor
end OpenMP
end IPPD
