import IPPD.PThreads.ProdCons.Totals

/-!
# Wake-ups and deadlock

A producer signals only when its push makes the queue non-empty.  While
`nctotal` is positive this is enough: some consumer is always awake when there
is work.  Once consumers start to leave it is not: the last active consumer may
leave items behind for consumers that nobody will wake any more.
-/

namespace IPPD
namespace PThreads
namespace ProdCons

open Foundation

variable {nprod ncons : Nat} {N : Int} {spurious : Bool}

/-!
## No lost wake-up while work remains
-/

theorem isActive_woken (c : ConsThread) :
    ConsThread.isActive { c with pc := ConsPc.woken } = true := by
  simp [ConsThread.isActive]

/-- After a push some consumer is active, unless all of them have left. -/
theorem signalled_active {conss conss' : Fin ncons -> ConsThread}
    {b : Queue} {woken : Option (Fin ncons)}
    (h : Signalled conss b woken conss')
    (hawake : b ≠ [] -> (exists j, (conss j).isActive = true) ∨
      forall j, (conss j).hasLeft = true) :
    (exists j, (conss' j).isActive = true) ∨
      forall j, (conss' j).hasLeft = true := by
  cases h with
  | silent hb => exact hawake hb
  | @wakes j _ _ =>
      refine Or.inl ⟨j, ?_⟩
      rw [Function.update_self]
      exact isActive_woken _
  | nobody _ hnone =>
      by_cases hactive : exists j, (conss j).isActive = true
      · exact Or.inl hactive
      · right
        intro j
        apply ConsThread.hasLeft_of_idle _ (hnone j)
        apply Bool.eq_false_of_not_eq_true
        intro hj
        exact hactive ⟨j, hj⟩

theorem not_hasLeft_of_nctotal_pos (hN : 1 ≤ N) {s : State nprod ncons}
    (h : (system spurious N nprod ncons).Reachable s)
    (hpos : 0 < s.shared.nctotal) (j : Fin ncons) :
    (s.conss j).hasLeft = false := by
  rcases exists_consCountdown hN h with ⟨c, htotal, _, hcensus⟩
  have hzero : c.left = 0 := c.total_pos_iff.mp (htotal ▸ hpos)
  exact census_eq_zero_iff.mp (hcensus.trans hzero) j

theorem not_hasLeft_of_nptotal_pos (hN : 1 ≤ N) {s : State nprod ncons}
    (h : (system spurious N nprod ncons).Reachable s)
    (hpos : 0 < s.shared.nptotal) (i : Fin nprod) :
    (s.prods i).hasLeft = false := by
  rcases exists_prodCountdown hN h with ⟨c, htotal, _, hcensus⟩
  have hzero : c.left = 0 := c.total_pos_iff.mp (htotal ▸ hpos)
  exact census_eq_zero_iff.mp (hcensus.trans hzero) i

theorem exists_active (hN : 1 ≤ N) (hncons : 0 < ncons)
    {s : State nprod ncons}
    (h : (system spurious N nprod ncons).Reachable s) :
    s.shared.b ≠ [] -> 0 < s.shared.nctotal ->
      exists j, (s.conss j).isActive = true := by
  refine System.reachable_invariant
    (P := fun s => s.shared.b ≠ [] -> 0 < s.shared.nctotal ->
      exists j, (s.conss j).isActive = true) ?_ ?_ h
  · intro s hs hb
    cases hs
    exact absurd rfl hb
  · intro s a t hs hinv hstep
    cases moves_of_step hstep with
    | main _ => exact hinv
    | push _ _ hsignal =>
        intro _ hpos
        have hstay := not_hasLeft_of_nctotal_pos hN
          (System.reachable_step hs hstep) hpos ⟨0, hncons⟩
        rcases signalled_active hsignal
            (fun hb => Or.inl (hinv hb hpos)) with hactive | hleft
        · exact hactive
        · have hgone := hleft ⟨0, hncons⟩
          simp only [afterPush] at hstay
          rw [hstay] at hgone
          cases hgone
    | wait _ _ hb =>
        intro hne
        exact absurd hb hne
    | @pop j it rest _ _ _ =>
        intro _ hpos
        refine ⟨j, ?_⟩
        have hfim : ¬ s.shared.nctotal - 1 ≤ 0 := by
          simp only [afterPop, Thread.popped] at hpos
          lia
        simp [afterPop, hfim, ConsThread.isActive]
    | @wake j _ _ =>
        intro _ _
        refine ⟨j, ?_⟩
        simp only [afterSpurious, Function.update_self]
        exact isActive_woken _

/-- Signalling on the empty-to-one transition is enough while work remains. -/
theorem no_lost_wakeup (hN : 100 ≤ N) (hncons : 2 ≤ ncons)
    {s : State nprod ncons}
    (h : (system spurious N nprod ncons).Reachable s) :
    (s.shared.b ≠ [] -> 0 < s.shared.nctotal ->
      exists j, (s.conss j).hasLeft = false ∧
        (s.conss j).isBlocked = false) ∧
      (s.shared.b = [] -> 0 < s.shared.nctotal ->
        forall i, (s.prods i).hasLeft = false) := by
  constructor
  · intro hb hpos
    rcases exists_active (by lia) (by lia) h hb hpos with ⟨j, hj⟩
    exact ⟨j, ConsThread.isActive_iff.mp hj⟩
  · intro hb hpos
    apply not_hasLeft_of_nptotal_pos (by lia) h
    have hlength := congrArg List.length (pushed_eq h)
    rw [hb, List.append_nil] at hlength
    rw [nptotal_eq (by lia) h, hlength, ← nctotal_eq (by lia) h]
    exact hpos

theorem no_lost_wakeup_shortTrace :
    exists s, (system false 100 2 2).Run (initial 100 2 2) shortTrace s ∧
      s.shared.b ≠ [] ∧ 0 < s.shared.nctotal ∧
      exists j, (s.conss j).hasLeft = false ∧
        (s.conss j).isBlocked = false := by
  have hrun := System.run_iff_exec.mpr
    (show (system false 100 2 2).exec (initial 100 2 2) shortTrace = some _
      from rfl)
  have hwake := no_lost_wakeup (by decide) (by decide)
    ⟨_, shortTrace, rfl, hrun⟩
  exact ⟨_, hrun, List.cons_ne_nil _ _, by decide,
    hwake.left (List.cons_ne_nil _ _) (by decide)⟩

end ProdCons
end PThreads
end IPPD
