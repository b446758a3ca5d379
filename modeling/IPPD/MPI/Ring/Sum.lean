import IPPD.MPI.Ring.Token
import Mathlib.Tactic.FinCases

/-!
# The ring computes the sum of the ranks

The ring is simulated by its token, step for step in both directions.  What is
in flight, what each rank has done and what rank 0 prints are then read off the
position of the token.
-/

namespace IPPD
namespace MPI
namespace Ring

open Foundation
open MessagePassing

variable {n : Nat}

/-!
## The simulation
-/

theorem state_nodes (tok : Token n) (q : Fin n) :
    tok.state.nodes q = (tok.stage q).node q := rfl

theorem state_flight (tok : Token n) : tok.state.flight = tok.flight := rfl

theorem held_stage (r : Fin n) :
    (Token.held r).stage r = Stage.holding := by
  simp [Token.stage]

theorem home_stage {q : Fin n} (hq : q.val = 0) :
    (Token.home : Token n).stage q = Stage.back := by
  simp [Token.stage, hq]

theorem tokenStep_of_moves (hn : 2 ≤ n) {tok : Token n} {a : Action n}
    {s' : State CInt n} (h : Moves tok.state a s') :
    exists b tok', tokenStep tok b = some tok' ∧ s' = tok'.state := by
  cases h with
  | @send r q sync dest tag v after hfree hcode hrank =>
      rw [state_nodes] at hcode
      have hholding := eq_holding_of_send hcode
      have htok := eq_held_of_stage hholding
      subst htok
      rcases holding_send hn r with ⟨_, after', hsend, hpassed⟩
      rw [hholding, hsend] at hcode
      injection hcode with hdest htag hv hafter
      rw [← hdest, rankOf?_val] at hrank
      cases hrank
      refine ⟨some sync, Token.flying r sync, rfl, ?_⟩
      rw [← htag, ← hv, ← hafter, state_nodes, hholding]
      exact state_after_send r sync _ (hpassed sync)
  | @recv r k source tag after m hfree hcode hflight hmatch =>
      cases tok with
      | flying r' sync =>
          rw [state_flight, Token.flight, List.getElem?_singleton] at hflight
          split at hflight
          · rename_i hk
            cases hflight
            have hr : next r' = r := by
              simp only [Message.matches, Bool.and_eq_true,
                decide_eq_true_eq] at hmatch
              exact hmatch.left.left
            subst hr hk
            rcases receiver_recv hn r' sync with
              ⟨_, after', hrecv, harrived⟩
            rw [state_nodes, hrecv] at hcode
            injection hcode with _ _ hafter
            refine ⟨none, arrive r', rfl, ?_⟩
            rw [← hafter]
            exact state_after_recv hn r' sync _ harrived
          · cases hflight
      | held _ | home | printed =>
          rw [state_flight] at hflight
          cases hflight
  | @print r v after hfree hcode =>
      rw [state_nodes] at hcode
      have hback := eq_back_of_print hcode
      rcases eq_home_of_stage hback with ⟨htok, hr⟩
      subst htok
      rw [hback] at hcode
      cases hcode
      refine ⟨none, Token.printed, rfl, ?_⟩
      rw [state_nodes, hback]
      exact state_after_print r hr

theorem moves_of_tokenStep (hn : 2 ≤ n) {tok tok' : Token n}
    {b : Option Bool} (h : tokenStep tok b = some tok') :
    exists a, Moves tok.state a tok'.state := by
  unfold tokenStep at h
  split at h
  · rename_i r sync
    cases h
    rcases holding_send hn r with ⟨hfree, after, hsend, hpassed⟩
    have hnode : (Token.held r).state.nodes r = Stage.holding.node r := by
      rw [state_nodes, held_stage]
    refine ⟨Action.send r sync, ?_⟩
    rw [← state_after_send r sync _ (hpassed sync), ← hnode]
    exact Moves.send (hnode ▸ hfree) (hnode ▸ hsend) (rankOf?_val (next r))
  · rename_i r sync
    cases h
    rcases receiver_recv hn r sync with ⟨hfree, after, hrecv, harrived⟩
    refine ⟨Action.recv (next r) 0, ?_⟩
    rw [← state_after_recv hn r sync _ harrived]
    apply Moves.recv (m := tokenMessage r sync) hfree hrecv rfl
    simp [Message.matches, tokenMessage]
  · cases h
    have hpos : 0 < n := by lia
    have hnode : (Token.home : Token n).state.nodes ⟨0, hpos⟩ =
        Stage.back.node ⟨0, hpos⟩ := by
      rw [state_nodes, home_stage rfl]
    refine ⟨Action.print ⟨0, hpos⟩, ?_⟩
    rw [← state_after_print ⟨0, hpos⟩ rfl]
    have hcode : ((Token.home : Token n).state.nodes ⟨0, hpos⟩).code =
        Process.print (sumBelow n + ofRank 0) Process.done := by
      rw [hnode]
      rfl
    have hmove := Moves.print (hnode ▸ rfl) hcode
    rw [hnode] at hmove
    exact hmove
  · cases h

def simulation (hn : 2 ≤ n) :
    System.Simulation (ring n) (tokenSystem n) where
  Rel s tok := s = tok.state
  init := by
    intro s hs
    have hpos : 0 < n := by lia
    exact ⟨Token.held ⟨0, hpos⟩, ⟨hpos, rfl⟩,
      hs.trans (state_held_zero hpos)⟩
  step := by
    intro s a s' tok _ _ hrel hstep
    subst hrel
    rcases tokenStep_of_moves hn (moves_of_step hstep) with
      ⟨b, tok', htok, hs'⟩
    exact ⟨[b], tok', System.run_single htok, hs'⟩

theorem exists_token (hn : 2 ≤ n) {s : State CInt n}
    (hs : (ring n).Reachable s) : exists tok : Token n, s = tok.state := by
  rcases (simulation hn).reachable hs with ⟨tok, _, hrel⟩
  exact ⟨tok, hrel⟩

/-!
## Messages in flight
-/

theorem flight_length_le_one (tok : Token n) : tok.flight.length ≤ 1 := by
  cases tok <;> simp [Token.flight]

/-- What a message carries depends only on where it goes. -/
def carried (q : Fin n) : CInt :=
  if q.val = 0 then sumBelow n else sumBelow q.val

theorem flight_carries {tok : Token n} {m : Message CInt n}
    (hm : m ∈ tok.flight) : m.v = carried m.dest := by
  cases tok with
  | flying r sync =>
      have hlt := r.isLt
      rw [Token.flight, List.mem_singleton] at hm
      subst hm
      simp only [tokenMessage, carried, next_val]
      split
      · simp
      · have hlast : r.val + 1 = n := by lia
        rw [if_pos rfl, hlast]
  | held _ | home | printed => cases hm

/-!
## Final states
-/

theorem eq_printed_of_finished (hn : 2 ≤ n) {tok : Token n}
    (h : forall r, (tok.state.nodes r).Finished) : tok = Token.printed := by
  have hpos : 0 < n := by lia
  cases tok with
  | printed => rfl
  | held r =>
      have hdone := (h r).left
      rw [state_nodes, held_stage] at hdone
      rcases holding_send hn r with ⟨_, after, hsend, _⟩
      rw [hsend] at hdone
      cases hdone
  | flying r sync =>
      have hdone := (h (next r)).left
      rw [state_nodes] at hdone
      rcases receiver_recv hn r sync with ⟨_, after, hrecv, _⟩
      rw [hrecv] at hdone
      cases hdone
  | home =>
      have hdone := (h ⟨0, hpos⟩).left
      rw [state_nodes, home_stage rfl] at hdone
      cases hdone

theorem stuck_eq_printed (hn : 2 ≤ n) {tok : Token n}
    (h : (ring n).Stuck tok.state) : tok = Token.printed := by
  have hnone : forall b, tokenStep tok b = none := by
    intro b
    cases hb : tokenStep tok b with
    | none => rfl
    | some tok' =>
        rcases moves_of_tokenStep hn hb with ⟨a, hmove⟩
        have hstep : (ring n).step tok.state a = some tok'.state :=
          step_of_moves hmove
        rw [h a] at hstep
        cases hstep
  cases tok with
  | printed => rfl
  | held r => cases hnone (some false)
  | flying _ _ | home => cases hnone none

theorem sumBelow_total (n : Nat) :
    sumBelow n + ofRank 0 = BitVec.ofNat 32 (n * (n - 1) / 2) := by
  rw [sumBelow_eq]
  simp [ofRank]

theorem printed_node (q : Fin n) :
    ((Token.printed : Token n).state.nodes q).Finished ∧
      ((Token.printed : Token n).state.nodes q).sent = 1 ∧
      ((Token.printed : Token n).state.nodes q).received = 1 ∧
      ((Token.printed : Token n).state.nodes q).printed =
        if q.val = 0 then [BitVec.ofNat 32 (n * (n - 1) / 2)] else [] := by
  rw [state_nodes]
  by_cases hq : q.val = 0
  · simp [Token.stage, Stage.node, hq, Node.Finished, sumBelow_total]
  · simp [Token.stage, Stage.node, hq, Node.Finished]

/-!
## The ring sum

In every reachable state at most one message is in flight and it carries the
sum of the ranks before its destination, no state is stuck before all ranks
have finished, and then every rank has sent and received once and rank 0 has
printed the sum of all ranks.
-/

theorem ring_sum (hn : 2 ≤ n) {s : State CInt n}
    (hs : (ring n).Reachable s) :
    s.flight.length ≤ 1 ∧
    (forall m, m ∈ s.flight -> m.v = carried m.dest) ∧
    ((ring n).Stuck s -> forall r, (s.nodes r).Finished) ∧
    ((forall r, (s.nodes r).Finished) ->
      s.flight = [] ∧
      forall r, (s.nodes r).sent = 1 ∧ (s.nodes r).received = 1 ∧
        (s.nodes r).printed =
          if r.val = 0 then [BitVec.ofNat 32 (n * (n - 1) / 2)] else []) := by
  rcases exists_token hn hs with ⟨tok, htok⟩
  subst htok
  refine ⟨flight_length_le_one tok, ?_, ?_, ?_⟩
  · intro m hm
    exact flight_carries hm
  · intro hstuck r
    rw [stuck_eq_printed hn hstuck]
    exact (printed_node r).left
  · intro hfinished
    rw [eq_printed_of_finished hn hfinished]
    exact ⟨rfl, fun r => (printed_node r).right⟩

/-- Three ranks, with blocking and buffered sends. -/
def threeRanks : List (Action 3) :=
  [Action.send 0 true, Action.recv 1 0, Action.send 1 false,
    Action.recv 2 0, Action.send 2 true, Action.recv 0 0, Action.print 0]

theorem ring_sum_threeRanks :
    exists s, (ring 3).exec (initial fun r => emParalelo r 3) threeRanks =
        some s ∧
      (s.nodes 0).printed = [BitVec.ofNat 32 3] ∧ s.flight.length ≤ 1 := by
  have hexec : exists s,
      (ring 3).exec (initial fun r => emParalelo r 3) threeRanks = some s ∧
        forall r, (s.nodes r).Finished := by
    refine ⟨_, rfl, ?_⟩
    intro r
    fin_cases r <;> exact ⟨rfl, rfl⟩
  rcases hexec with ⟨s, hexec, hfinished⟩
  have hs : (ring 3).Reachable s :=
    ⟨_, threeRanks, rfl, System.run_iff_exec.mpr hexec⟩
  have hsum := ring_sum (by decide) hs
  rcases hsum with ⟨hflight, _, _, hfinal⟩
  exact ⟨s, hexec, ((hfinal hfinished).right 0).right.right, hflight⟩

end Ring
end MPI
end IPPD
