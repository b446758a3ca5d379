import IPPD.Foundation.Channel
import IPPD.Foundation.Countdown
import IPPD.PThreads.ProdCons.Steps

/-!
# Accounting for pushes and pops

Seen from the producers the program is a shared countdown on `nptotal`, seen
from the consumers it is a shared countdown on `nctotal`, and seen from the
items it is a first-in first-out channel.  Each view is a forward simulation;
the conservation laws and the balance of supply and demand are read off the
three abstract states.
-/

namespace IPPD
namespace PThreads
namespace ProdCons

open Foundation

variable {nprod ncons : Nat} {N : Int} {spurious : Bool}

/-!
## Effect of a signal

A signal moves one consumer from blocked to woken; what the consumer has done
so far is unchanged.
-/

theorem signalled_census_hasLeft {conss conss' : Fin ncons -> ConsThread}
    {b : Queue} {woken : Option (Fin ncons)}
    (h : Signalled conss b woken conss') :
    census ConsThread.hasLeft conss' = census ConsThread.hasLeft conss := by
  cases h with
  | silent _ => rfl
  | nobody _ _ => rfl
  | wakes _ hj =>
      apply tally_update_of_eq
      rw [ConsThread.not_hasLeft_of_blocked hj]
      rfl

theorem tally_cont_update (conss : Fin ncons -> ConsThread) (j : Fin ncons)
    (pc : ConsPc) :
    tally ConsThread.cont
        (Function.update conss j { conss j with pc := pc }) =
      tally ConsThread.cont conss :=
  tally_update_of_eq rfl

theorem signalled_tally_cont {conss conss' : Fin ncons -> ConsThread}
    {b : Queue} {woken : Option (Fin ncons)}
    (h : Signalled conss b woken conss') :
    tally ConsThread.cont conss' = tally ConsThread.cont conss := by
  cases h with
  | silent _ => rfl
  | nobody _ _ => rfl
  | wakes _ _ => exact tally_cont_update _ _ _

/-!
## The producers as a countdown
-/

theorem census_prods_afterPush {s : State nprod ncons} {i : Fin nprod}
    {it : Int} {conss : Fin ncons -> ConsThread}
    (hloop : (s.prods i).pc = ProdPc.loop) :
    census ProdThread.hasLeft
        (afterPush s i it (prodSection s.shared it) conss).prods =
      if s.shared.nptotal - 1 ≤ 0 then
        census ProdThread.hasLeft s.prods + 1
      else census ProdThread.hasLeft s.prods := by
  have hcount := census_update ProdThread.hasLeft s.prods i
    { cont := (s.prods i).cont + 1
      pc := if (prodSection s.shared it).fim then ProdPc.left
        else ProdPc.loop }
  rw [ProdThread.not_hasLeft_of_loop hloop] at hcount
  change census ProdThread.hasLeft (Function.update s.prods i _) = _
  by_cases hfim : s.shared.nptotal - 1 ≤ 0
  · simpa [prodSection, ProdThread.hasLeft, hfim] using hcount
  · simpa [prodSection, ProdThread.hasLeft, hfim] using hcount

def prodCountdown (hN : 1 ≤ N) :
    System.Simulation (system spurious N nprod ncons)
      (Countdown.system N nprod hN) where
  Rel s c :=
    s.shared.nptotal = c.total ∧ s.pushed.length = c.turns ∧
      census ProdThread.hasLeft s.prods = c.left
  init := by
    intro s hs
    cases hs
    refine ⟨Countdown.start hN, rfl, ?_, rfl, ?_⟩
    · rw [Countdown.total_start]
      rfl
    · exact census_eq_zero_iff.mpr (fun _ => rfl)
  step := by
    intro s a s' c _ _ hrel hstep
    rcases hrel with ⟨htotal, hturns, hleft⟩
    cases moves_of_step hstep with
    | main _ => exact ⟨[], c, System.Run.nil c, htotal, hturns, hleft⟩
    | wait _ _ _ => exact ⟨[], c, System.Run.nil c, htotal, hturns, hleft⟩
    | pop _ _ _ => exact ⟨[], c, System.Run.nil c, htotal, hturns, hleft⟩
    | wake _ _ => exact ⟨[], c, System.Run.nil c, htotal, hturns, hleft⟩
    | push _ hloop _ =>
        have hlt : c.left < nprod := by
          have hcard := census_lt_card (ProdThread.not_hasLeft_of_loop hloop)
          rw [hleft, Fintype.card_fin] at hcard
          exact hcard
        refine ⟨[()], c.turn hlt,
          System.run_single (Countdown.step_turn hlt), ?_, ?_, ?_⟩
        · rw [Countdown.total_turn, ← htotal]
          rfl
        · simpa [afterPush, Countdown.turn] using hturns
        · rw [census_prods_afterPush hloop, htotal, hleft]
          rfl

theorem exists_prodCountdown (hN : 1 ≤ N) {s : State nprod ncons}
    (h : (system spurious N nprod ncons).Reachable s) :
    exists c : Countdown N nprod,
      s.shared.nptotal = c.total ∧ s.pushed.length = c.turns ∧
        census ProdThread.hasLeft s.prods = c.left := by
  rcases (prodCountdown hN).reachable h with ⟨c, _, hrel⟩
  exact ⟨c, hrel⟩

/-!
## The consumers as a countdown
-/

theorem census_conss_afterPop {s : State nprod ncons} {j : Fin ncons}
    {it : Int} {rest : Queue} (hactive : (s.conss j).isActive = true) :
    census ConsThread.hasLeft
        (afterPop s j (s.shared.popped rest) it
          (decide (s.shared.nctotal - 1 ≤ 0))).conss =
      if s.shared.nctotal - 1 ≤ 0 then
        census ConsThread.hasLeft s.conss + 1
      else census ConsThread.hasLeft s.conss := by
  have hcount := census_update ConsThread.hasLeft s.conss j
    { cont := (s.conss j).cont + 1
      pc := if decide (s.shared.nctotal - 1 ≤ 0) then ConsPc.left
        else ConsPc.lock }
  rw [ConsThread.not_hasLeft_of_active hactive] at hcount
  change census ConsThread.hasLeft (Function.update s.conss j _) = _
  by_cases hfim : s.shared.nctotal - 1 ≤ 0
  · simpa [ConsThread.hasLeft, hfim] using hcount
  · simpa [ConsThread.hasLeft, hfim] using hcount

theorem census_conss_afterWait {s : State nprod ncons} {j : Fin ncons}
    (hactive : (s.conss j).isActive = true) :
    census ConsThread.hasLeft (afterWait s j).conss =
      census ConsThread.hasLeft s.conss := by
  apply tally_update_of_eq
  rw [ConsThread.not_hasLeft_of_active hactive]
  rfl

theorem census_conss_afterSpurious {s : State nprod ncons} {j : Fin ncons}
    (hblocked : (s.conss j).isBlocked = true) :
    census ConsThread.hasLeft (afterSpurious s j).conss =
      census ConsThread.hasLeft s.conss := by
  apply tally_update_of_eq
  rw [ConsThread.not_hasLeft_of_blocked hblocked]
  rfl

def consCountdown (hN : 1 ≤ N) :
    System.Simulation (system spurious N nprod ncons)
      (Countdown.system N ncons hN) where
  Rel s c :=
    s.shared.nctotal = c.total ∧ s.popped.length = c.turns ∧
      census ConsThread.hasLeft s.conss = c.left
  init := by
    intro s hs
    cases hs
    refine ⟨Countdown.start hN, rfl, ?_, rfl, ?_⟩
    · rw [Countdown.total_start]
      rfl
    · exact census_eq_zero_iff.mpr (fun _ => rfl)
  step := by
    intro s a s' c _ _ hrel hstep
    rcases hrel with ⟨htotal, hturns, hleft⟩
    cases moves_of_step hstep with
    | main _ => exact ⟨[], c, System.Run.nil c, htotal, hturns, hleft⟩
    | push _ _ hsignal =>
        exact ⟨[], c, System.Run.nil c, htotal, hturns,
          (signalled_census_hasLeft hsignal).trans hleft⟩
    | wait _ hactive _ =>
        exact ⟨[], c, System.Run.nil c, htotal, hturns,
          (census_conss_afterWait hactive).trans hleft⟩
    | wake _ hblocked =>
        exact ⟨[], c, System.Run.nil c, htotal, hturns,
          (census_conss_afterSpurious hblocked).trans hleft⟩
    | pop _ hactive _ =>
        have hlt : c.left < ncons := by
          have hcard :=
            census_lt_card (ConsThread.not_hasLeft_of_active hactive)
          rw [hleft, Fintype.card_fin] at hcard
          exact hcard
        refine ⟨[()], c.turn hlt,
          System.run_single (Countdown.step_turn hlt), ?_, ?_, ?_⟩
        · rw [Countdown.total_turn, ← htotal]
          rfl
        · simpa [afterPop, Countdown.turn] using hturns
        · rw [census_conss_afterPop hactive, htotal, hleft]
          rfl

theorem exists_consCountdown (hN : 1 ≤ N) {s : State nprod ncons}
    (h : (system spurious N nprod ncons).Reachable s) :
    exists c : Countdown N ncons,
      s.shared.nctotal = c.total ∧ s.popped.length = c.turns ∧
        census ConsThread.hasLeft s.conss = c.left := by
  rcases (consCountdown hN).reachable h with ⟨c, _, hrel⟩
  exact ⟨c, hrel⟩

/-!
## The buffer as a channel
-/

def bufferChannel :
    System.Simulation (system spurious N nprod ncons)
      (Channel.system Int) where
  Rel s c :=
    c.sent = s.pushed ∧ c.received = s.popped ∧ c.pending = s.shared.b
  init := by
    intro s hs
    cases hs
    exact ⟨Channel.empty, rfl, rfl, rfl, rfl⟩
  step := by
    intro s a s' c _ _ hrel hstep
    rcases hrel with ⟨hsent, hreceived, hpending⟩
    cases moves_of_step hstep with
    | main _ => exact ⟨[], c, System.Run.nil c, hsent, hreceived, hpending⟩
    | wait _ _ _ =>
        exact ⟨[], c, System.Run.nil c, hsent, hreceived, hpending⟩
    | wake _ _ =>
        exact ⟨[], c, System.Run.nil c, hsent, hreceived, hpending⟩
    | @push _ it _ _ _ _ _ =>
        refine ⟨[Channel.Event.send it], c.send it,
          System.run_single rfl, ?_, hreceived, ?_⟩
        · exact congrArg (fun items => items ++ [it]) hsent
        · exact congrArg (fun items => items ++ [it]) hpending
    | pop _ _ hb =>
        rcases Channel.receive?_of_pending (hpending.trans hb) with
          ⟨d, hd, hdsent, hdreceived, hdpending⟩
        refine ⟨[Channel.Event.receive], d,
          System.run_single hd, hdsent.trans hsent, ?_, hdpending⟩
        rw [hdreceived, hreceived]
        rfl

theorem pushed_eq {s : State nprod ncons}
    (h : (system spurious N nprod ncons).Reachable s) :
    s.pushed = s.popped ++ s.shared.b := by
  rcases bufferChannel.reachable h with
    ⟨c, _, hsent, hreceived, hpending⟩
  rw [← hsent, ← hreceived, ← hpending]
  exact c.conserved

end ProdCons
end PThreads
end IPPD
