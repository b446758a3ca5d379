import IPPD.PThreads.ProdCons.Program

/-!
# Steps of the producer/consumer program

An inversion of the step function: `Moves` lists what a step can do, with the
guards it checks.  Every later invariant is a case split on it.
-/

namespace IPPD
namespace PThreads
namespace ProdCons

open Foundation

variable {nprod ncons : Nat}

/-!
## The critical sections
-/

theorem prodSection_signal (shared : Thread) (it : Int) :
    (prodSection shared it).signal = true <-> shared.b = [] := by
  simp [prodSection, Queue.size, Queue.push]

theorem consSection_nil {shared : Thread} (h : shared.b = []) :
    consSection shared = ConsResult.wait := by
  simp [consSection, Queue.size, h]

theorem consSection_cons {shared : Thread} {it : Int} {rest : Queue}
    (h : shared.b = it :: rest) :
    consSection shared =
      ConsResult.pop
        { shared with b := rest, nctotal := shared.nctotal - 1 } it
        (decide (shared.nctotal - 1 ≤ 0)) := by
  simp [consSection, Queue.size, Queue.front?, Queue.pop?, h]

/-- The test of `size()` protects the calls of `front` and `pop`. -/
theorem consSection_ne_undefined (shared : Thread) :
    consSection shared ≠ ConsResult.undefined := by
  cases hb : shared.b with
  | nil =>
      rw [consSection_nil hb]
      exact ConsResult.noConfusion
  | cons it rest =>
      rw [consSection_cons hb]
      exact ConsResult.noConfusion

/-!
## Consumer states
-/

namespace ConsThread

theorem isActive_iff {c : ConsThread} :
    c.isActive = true <-> c.hasLeft = false ∧ c.isBlocked = false := by
  rcases c with ⟨cont, pc⟩
  cases pc <;> simp [isActive, hasLeft, isBlocked]

theorem hasLeft_of_idle {c : ConsThread} (hactive : c.isActive = false)
    (hblocked : c.isBlocked = false) : c.hasLeft = true := by
  rcases c with ⟨cont, pc⟩
  cases pc with
  | lock => cases hactive
  | blocked => cases hblocked
  | woken => cases hactive
  | left => rfl

theorem not_hasLeft_of_blocked {c : ConsThread} (h : c.isBlocked = true) :
    c.hasLeft = false := by
  rcases c with ⟨cont, pc⟩
  cases pc with
  | blocked => rfl
  | _ => cases h

theorem not_hasLeft_of_active {c : ConsThread} (h : c.isActive = true) :
    c.hasLeft = false :=
  (isActive_iff.mp h).left

end ConsThread

theorem ProdThread.loop_of_not_hasLeft {p : ProdThread}
    (h : p.hasLeft = false) : p.pc = ProdPc.loop := by
  rcases p with ⟨cont, pc⟩
  cases pc with
  | loop => rfl
  | left => cases h

theorem ProdThread.not_hasLeft_of_loop {p : ProdThread}
    (h : p.pc = ProdPc.loop) : p.hasLeft = false := by
  rw [ProdThread.hasLeft, h]
  rfl

/-!
## Inversion
-/

/-- What a push does to the consumers: it signals only when the queue was
empty. -/
inductive Signalled (conss : Fin ncons -> ConsThread) (b : Queue) :
    Option (Fin ncons) -> (Fin ncons -> ConsThread) -> Prop where
  | silent : b ≠ [] -> Signalled conss b none conss
  | wakes {j : Fin ncons} : b = [] -> (conss j).isBlocked = true ->
      Signalled conss b (some j)
        (Function.update conss j { conss j with pc := ConsPc.woken })
  | nobody : b = [] -> (forall j, (conss j).isBlocked = false) ->
      Signalled conss b none conss

/-- The shared record after a pop that leaves `rest` in the queue. -/
def Thread.popped (shared : Thread) (rest : Queue) : Thread :=
  { shared with b := rest, nctotal := shared.nctotal - 1 }

inductive Moves (spurious : Bool) (s : State nprod ncons) :
    Action nprod ncons -> State nprod ncons -> Prop where
  | main {pc : MainPc} : mainStep s = some pc ->
      Moves spurious s Action.main { s with main := pc }
  | push {i : Fin nprod} {it : Int} {woken : Option (Fin ncons)}
      {conss : Fin ncons -> ConsThread} :
      s.main.startedProd i = true -> (s.prods i).pc = ProdPc.loop ->
      Signalled s.conss s.shared.b woken conss ->
      Moves spurious s (Action.prod i it woken)
        (afterPush s i it (prodSection s.shared it) conss)
  | wait {j : Fin ncons} :
      s.main.startedCons j = true -> (s.conss j).isActive = true ->
      s.shared.b = [] -> Moves spurious s (Action.cons j) (afterWait s j)
  | pop {j : Fin ncons} {it : Int} {rest : Queue} :
      s.main.startedCons j = true -> (s.conss j).isActive = true ->
      s.shared.b = it :: rest ->
      Moves spurious s (Action.cons j)
        (afterPop s j (s.shared.popped rest) it
          (decide (s.shared.nctotal - 1 ≤ 0)))
  | wake {j : Fin ncons} : spurious = true -> (s.conss j).isBlocked = true ->
      Moves spurious s (Action.spurious j) (afterSpurious s j)

theorem moves_of_step {spurious : Bool} {s t : State nprod ncons}
    {a : Action nprod ncons} (h : step spurious s a = some t) :
    Moves spurious s a t := by
  cases a with
  | main =>
      simp only [step] at h
      cases hmain : mainStep s with
      | none =>
          rw [hmain] at h
          cases h
      | some pc =>
          rw [hmain] at h
          cases h
          exact Moves.main hmain
  | prod i it woken =>
      simp only [step, prodSection_signal] at h
      split at h
      · rename_i hguard
        split at h
        · rename_i hempty
          cases woken with
          | none =>
              by_cases hnone : forall j, (s.conss j).isBlocked = false
              · simp only [condSignal, if_pos hnone, Option.some.injEq] at h
                rw [← h]
                exact Moves.push hguard.left hguard.right
                  (Signalled.nobody hempty hnone)
              · simp only [condSignal, if_neg hnone] at h
                cases h
          | some j =>
              by_cases hj : (s.conss j).isBlocked = true
              · simp only [condSignal, if_pos hj, Option.some.injEq] at h
                rw [← h]
                exact Moves.push hguard.left hguard.right
                  (Signalled.wakes hempty hj)
              · simp only [condSignal, if_neg hj] at h
                cases h
        · rename_i hnonempty
          split at h
          · rename_i hwoken
            cases h
            cases hwoken
            exact Moves.push hguard.left hguard.right
              (Signalled.silent hnonempty)
          · cases h
      · cases h
  | cons j =>
      simp only [step] at h
      split at h
      · rename_i hguard
        cases hb : s.shared.b with
        | nil =>
            rw [consSection_nil hb] at h
            cases h
            exact Moves.wait hguard.left hguard.right hb
        | cons it rest =>
            rw [consSection_cons hb] at h
            cases h
            exact Moves.pop hguard.left hguard.right hb
      · cases h
  | spurious j =>
      simp only [step] at h
      split at h
      · rename_i hguard
        cases h
        exact Moves.wake hguard.left hguard.right
      · cases h

theorem step_of_moves {spurious : Bool} {s t : State nprod ncons}
    {a : Action nprod ncons} (h : Moves spurious s a t) :
    step spurious s a = some t := by
  cases h with
  | main hmain =>
      simp only [step, hmain]
  | push hstart hloop hsignal =>
      cases hsignal with
      | silent hb =>
          simp [step, hstart, hloop, prodSection_signal, hb]
      | wakes hb hj =>
          simp [step, hstart, hloop, prodSection_signal, hb, condSignal, hj]
      | nobody hb hnone =>
          simp [step, hstart, hloop, prodSection_signal, hb, condSignal, hnone]
  | wait hstart hactive hb =>
      simp only [step, hstart, hactive, and_self, if_true, consSection_nil hb]
  | pop hstart hactive hb =>
      simp only [step, hstart, hactive, and_self, if_true,
        consSection_cons hb]
      rfl
  | wake hspurious hj =>
      simp [step, hspurious, hj]

theorem step_of_step_false (spurious : Bool) {s t : State nprod ncons}
    {a : Action nprod ncons} (h : step false s a = some t) :
    step spurious s a = some t := by
  apply step_of_moves
  cases moves_of_step h with
  | main hmain => exact Moves.main hmain
  | push hstart hloop hsignal => exact Moves.push hstart hloop hsignal
  | wait hstart hactive hb => exact Moves.wait hstart hactive hb
  | pop hstart hactive hb => exact Moves.pop hstart hactive hb
  | wake hspurious _ => cases hspurious

theorem reachable_of_reachable_false (spurious : Bool) {N : Int}
    {s : State nprod ncons} (h : (system false N nprod ncons).Reachable s) :
    (system spurious N nprod ncons).Reachable s :=
  System.reachable_invariant (M := system false N nprod ncons)
    (P := (system spurious N nprod ncons).Reachable)
    (fun hinit => System.reachable_init hinit)
    (fun _ hs hstep =>
      System.reachable_step hs (step_of_step_false spurious hstep)) h

end ProdCons
end PThreads
end IPPD
