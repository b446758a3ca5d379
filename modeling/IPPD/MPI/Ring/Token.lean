import IPPD.Foundation.SumBelow
import IPPD.MPI.Ring.Program
import Mathlib.Tactic.SplitIfs

/-!
# The ring as a token

Only one rank can move at a time: the partial sum is a token that goes round
the ring once.  The position of the token determines the whole state, so the
program is simulated by the token alone.
-/

namespace IPPD
namespace MPI
namespace Ring

open Foundation
open MessagePassing

/-!
## Partial sums
-/

theorem ofRank_natCast (r : Nat) : ofRank r = BitVec.ofNat 32 r := by
  simp [ofRank]

theorem sumBelow_add_ofRank (r : Nat) :
    sumBelow r + ofRank r = sumBelow (r + 1) := by
  rw [ofRank_natCast, sumBelow_succ]

/-!
## Token positions
-/

inductive Token (n : Nat) where
  /-- Rank `r` is about to send. -/
  | held (r : Fin n)
  /-- The message of rank `r` is in flight; `sync` when `r` waits for its
  receive. -/
  | flying (r : Fin n) (sync : Bool)
  /-- Rank 0 has received the total and not yet printed it. -/
  | home
  | printed

/-- The rank that receives from `r`. -/
def next {n : Nat} (r : Fin n) : Fin n :=
  if h : r.val + 1 < n then ⟨r.val + 1, h⟩ else ⟨0, r.pos⟩

/-- How far a rank has come. -/
inductive Stage where
  | fresh
  | holding
  | passed (blocked : Bool)
  | back
  | finished

def Token.stage {n : Nat} (tok : Token n) (q : Fin n) : Stage :=
  match tok with
  | held r =>
      if q.val < r.val then Stage.passed false
      else if q = r then Stage.holding
      else Stage.fresh
  | flying r sync =>
      if q.val < r.val then Stage.passed false
      else if q = r then Stage.passed sync
      else Stage.fresh
  | home => if q.val = 0 then Stage.back else Stage.passed false
  | printed => if q.val = 0 then Stage.finished else Stage.passed false

/-- The local state of rank `q` at each stage. -/
def Stage.node {n : Nat} (q : Fin n) : Stage -> Node CInt
  | fresh => Node.start (emParalelo q n)
  | holding =>
      if q.val = 0 then Node.start (emParalelo q n)
      else
        { code := Process.send (next q).val 0 (sumBelow (q + 1)) Process.done
          blocked := false
          sent := 0
          received := 1
          printed := [] }
  | passed blocked =>
      if q.val = 0 then
        { code := Process.recv (n - 1) none fun aux =>
            Process.print (aux + ofRank 0) Process.done
          blocked := blocked
          sent := 1
          received := 0
          printed := [] }
      else
        { code := Process.done
          blocked := blocked
          sent := 1
          received := 1
          printed := [] }
  | back =>
      { code := Process.print (sumBelow n + ofRank 0) Process.done
        blocked := false
        sent := 1
        received := 1
        printed := [] }
  | finished =>
      { code := Process.done
        blocked := false
        sent := 1
        received := 1
        printed := [sumBelow n + ofRank 0] }

def tokenMessage {n : Nat} (r : Fin n) (sync : Bool) : Message CInt n where
  source := r
  dest := next r
  tag := 0
  v := sumBelow (r + 1)
  sync := sync

def Token.flight {n : Nat} : Token n -> List (Message CInt n)
  | flying r sync => [tokenMessage r sync]
  | _ => []

def Token.state {n : Nat} (tok : Token n) : State CInt n where
  nodes := fun q => (tok.stage q).node q
  flight := tok.flight

/-!
## The program of each rank
-/

theorem emParalelo_zero {n : Nat} {q : Fin n} (hq : q.val = 0) :
    emParalelo q n =
      Process.send 1 0 (sumBelow 1)
        (Process.recv (n - 1) none fun aux =>
          Process.print (aux + ofRank 0) Process.done) := by
  simp [emParalelo, hq, sumBelow, ofRank]

theorem emParalelo_pos {n : Nat} {q : Fin n} (hq : q.val ≠ 0) :
    emParalelo q n =
      Process.recv (q.val - 1) none fun aux =>
        Process.send (next q).val 0 (aux + ofRank q.val) Process.done := by
  have hlt := q.isLt
  have hdest : (if (q.val : Int) = n - 1 then (0 : Int) else q.val + 1) =
      ((next q).val : Int) := by
    unfold next
    split_ifs <;> simp <;> lia
  simp [emParalelo, hq, hdest]

/-!
## Stages
-/

theorem next_val {n : Nat} (r : Fin n) :
    (next r).val = if r.val + 1 < n then r.val + 1 else 0 := by
  unfold next
  split <;> rfl

theorem eq_held_of_stage {n : Nat} {tok : Token n} {q : Fin n}
    (h : tok.stage q = Stage.holding) : tok = Token.held q := by
  cases tok with
  | held r =>
      simp only [Token.stage] at h
      split_ifs at h with hlt heq
      rw [heq]
  | flying _ _ | home | printed =>
      simp only [Token.stage] at h
      split_ifs at h

theorem ne_zero_of_stage_fresh {n : Nat} {tok : Token n} {q : Fin n}
    (h : tok.stage q = Stage.fresh) : q.val ≠ 0 := by
  cases tok with
  | held r | flying r sync =>
      simp only [Token.stage] at h
      split_ifs at h with hlt heq
      intro hzero
      apply heq
      apply Fin.ext
      lia
  | home | printed =>
      simp only [Token.stage] at h
      split_ifs at h

theorem eq_home_of_stage {n : Nat} {tok : Token n} {q : Fin n}
    (h : tok.stage q = Stage.back) : tok = Token.home ∧ q.val = 0 := by
  cases tok with
  | home =>
      simp only [Token.stage] at h
      split_ifs at h with hq
      exact ⟨rfl, hq⟩
  | held _ | flying _ _ | printed =>
      simp only [Token.stage] at h
      split_ifs at h

/-- A rank that holds the token is about to send it to the next rank, and has
passed it on afterwards. -/
theorem holding_send {n : Nat} (hn : 2 ≤ n) (q : Fin n) :
    (Stage.holding.node q).blocked = false ∧
    exists after, (Stage.holding.node q).code =
        Process.send (next q).val 0 (sumBelow (q + 1)) after ∧
      forall sync,
        { Stage.holding.node q with
          code := after
          blocked := sync
          sent := (Stage.holding.node q).sent + 1 } =
        (Stage.passed sync).node q := by
  by_cases hq : q.val = 0
  · have hnext : (next q).val = 1 := by
      rw [next_val, if_pos (by lia)]
      lia
    simp only [Stage.node, hq, if_true, Node.start, hnext]
    exact ⟨trivial, _, rfl, fun _ => rfl⟩
  · simp only [Stage.node, hq, if_false]
    exact ⟨trivial, _, rfl, fun _ => rfl⟩

theorem eq_holding_of_send {n : Nat} {tok : Token n} {q : Fin n}
    {dest tag : Int} {v : CInt} {after : Process CInt}
    (h : ((tok.stage q).node q).code = Process.send dest tag v after) :
    tok.stage q = Stage.holding := by
  cases hstage : tok.stage q with
  | holding => rfl
  | fresh =>
      have hq := ne_zero_of_stage_fresh hstage
      rw [hstage, Stage.node, Node.start, emParalelo_pos hq] at h
      cases h
  | passed blocked =>
      rw [hstage, Stage.node] at h
      split_ifs at h
  | back | finished =>
      rw [hstage] at h
      cases h

theorem eq_back_of_print {n : Nat} {tok : Token n} {q : Fin n}
    {v : CInt} {after : Process CInt}
    (h : ((tok.stage q).node q).code = Process.print v after) :
    tok.stage q = Stage.back := by
  cases hstage : tok.stage q with
  | back => rfl
  | fresh =>
      have hq := ne_zero_of_stage_fresh hstage
      rw [hstage, Stage.node, Node.start, emParalelo_pos hq] at h
      cases h
  | holding =>
      rw [hstage, Stage.node] at h
      split_ifs at h with hq
      rw [Node.start, emParalelo_zero hq] at h
      cases h
  | passed blocked =>
      rw [hstage, Stage.node] at h
      split_ifs at h
  | finished =>
      rw [hstage] at h
      cases h

/-!
## One step of the ring is one step of the token
-/

/-- The token position after the message of `r` has been received. -/
def arrive {n : Nat} (r : Fin n) : Token n :=
  if (next r).val = 0 then Token.home else Token.held (next r)

def tokenStep {n : Nat} : Token n -> Option Bool -> Option (Token n)
  | Token.held r, some sync => some (Token.flying r sync)
  | Token.flying r _, none => some (arrive r)
  | Token.home, none => some Token.printed
  | _, _ => none

def tokenSystem (n : Nat) : System (Token n) (Option Bool) where
  Init tok := exists h : 0 < n, tok = Token.held ⟨0, h⟩
  step := tokenStep

theorem state_held_zero {n : Nat} (h : 0 < n) :
    initial (fun r : Fin n => emParalelo r n) =
      (Token.held ⟨0, h⟩).state := by
  unfold initial Token.state
  congr
  funext q
  by_cases hq : q.val = 0
  · have hq' : q = ⟨0, h⟩ := Fin.ext hq
    simp [Token.stage, Stage.node, hq']
  · have hq' : q ≠ ⟨0, h⟩ := fun heq => hq (congrArg Fin.val heq)
    simp [Token.stage, Stage.node, hq']

theorem stage_flying_of_ne {n : Nat} {q r : Fin n} (h : q ≠ r)
    (sync : Bool) :
    (Token.flying r sync).stage q = (Token.held r).stage q := by
  simp [Token.stage, h]

theorem state_after_send {n : Nat} (r : Fin n) (sync : Bool) (nd : Node CInt)
    (hnd : nd = (Stage.passed sync).node r) :
    ({ nodes := Function.update (Token.held r).state.nodes r nd
       flight := (Token.held r).state.flight ++ [tokenMessage r sync] } :
      State CInt n) = (Token.flying r sync).state := by
  unfold Token.state
  congr
  funext q
  by_cases hq : q = r
  · subst hq
    rw [Function.update_self, hnd]
    simp [Token.stage]
  · rw [Function.update_of_ne hq, stage_flying_of_ne hq]

theorem state_after_print {n : Nat} (q : Fin n) (hq : q.val = 0) :
    ({ nodes := Function.update (Token.home : Token n).state.nodes q
        (Stage.finished.node q)
       flight := (Token.home : Token n).state.flight } : State CInt n) =
      Token.printed.state := by
  unfold Token.state
  congr
  funext x
  by_cases hx : x = q
  · subst hx
    rw [Function.update_self]
    simp [Token.stage, hq]
  · have hx' : x.val ≠ 0 := fun heq => hx (Fin.ext (heq.trans hq.symm))
    rw [Function.update_of_ne hx]
    simp [Token.stage, hx']

/-!
## Receiving
-/

theorem release_apply {n : Nat} (nodes : Fin n -> Node CInt)
    (m : Message CInt n) (x : Fin n) :
    release nodes m x =
      if m.sync = true ∧ x = m.source then { nodes x with blocked := false }
      else nodes x := by
  unfold release
  by_cases hsync : m.sync = true
  · by_cases hx : x = m.source
    · subst hx
      simp [hsync]
    · simp [hsync, hx]
  · simp [hsync]

theorem passed_unblocked {n : Nat} (q : Fin n) (sync : Bool) :
    { (Stage.passed sync).node q with blocked := false } =
      (Stage.passed false).node q := by
  unfold Stage.node
  dsimp only
  split_ifs <;> rfl

theorem next_ne {n : Nat} (hn : 2 ≤ n) (r : Fin n) : next r ≠ r := by
  intro h
  have hval := congrArg Fin.val h
  rw [next_val] at hval
  split at hval <;> lia

theorem stage_arrive_of_ne {n : Nat} {r x : Fin n} (hr : x ≠ r)
    (hnext : x ≠ next r) (sync : Bool) :
    (arrive r).stage x = (Token.flying r sync).stage x := by
  have hxr : x.val ≠ r.val := fun heq => hr (Fin.ext heq)
  have hxn : x.val ≠ (next r).val := fun heq => hnext (Fin.ext heq)
  have hlt := x.isLt
  rw [next_val] at hxn
  unfold arrive
  split
  · rename_i hzero
    rw [next_val] at hzero
    split at hzero
    · lia
    · have hxlt : x.val < r.val := by lia
      have hx0 : x.val ≠ 0 := by lia
      simp [Token.stage, hxlt, hx0]
  · rename_i hpos
    rw [next_val] at hpos
    split at hpos
    · rename_i hsucc
      rw [if_pos hsucc] at hxn
      simp only [Token.stage, next_val, if_pos hsucc, hr, hnext, if_false]
      split_ifs <;> first | rfl | lia
    · lia

theorem stage_arrive_sender {n : Nat} (hn : 2 ≤ n) (r : Fin n) :
    (arrive r).stage r = Stage.passed false := by
  unfold arrive
  split
  · rename_i hzero
    rw [next_val] at hzero
    have hr : r.val ≠ 0 := by
      split at hzero <;> lia
    simp [Token.stage, hr]
  · rename_i hpos
    rw [next_val] at hpos
    split at hpos
    · rename_i hsucc
      simp [Token.stage, next_val, hsucc]
    · lia

/-- The receiver of the message of `r` takes its value and is then at the
stage of the arrived token. -/
theorem receiver_recv {n : Nat} (hn : 2 ≤ n) (r : Fin n) (sync : Bool) :
    (((Token.flying r sync).stage (next r)).node (next r)).blocked = false ∧
    exists after,
      (((Token.flying r sync).stage (next r)).node (next r)).code =
          Process.recv r.val none after ∧
        { ((Token.flying r sync).stage (next r)).node (next r) with
          code := after (sumBelow (r + 1))
          received :=
            (((Token.flying r sync).stage (next r)).node (next r)).received +
              1 } =
          ((arrive r).stage (next r)).node (next r) := by
  by_cases hsucc : r.val + 1 < n
  · have hval : (next r).val = r.val + 1 := by
      rw [next_val, if_pos hsucc]
    have hpos : (next r).val ≠ 0 := by lia
    have hfresh : (Token.flying r sync).stage (next r) = Stage.fresh := by
      simp [Token.stage, hval, next_ne hn r]
    have hholding : (arrive r).stage (next r) = Stage.holding := by
      simp [arrive, hpos, Token.stage]
    have hvalue :
        sumBelow (r + 1) + ofRank (next r).val =
          sumBelow ((next r).val + 1) := by
      rw [hval]
      exact sumBelow_add_ofRank (r.val + 1)
    rw [hfresh, hholding]
    simp only [Stage.node, hpos, if_false, Node.start, emParalelo_pos hpos]
    refine ⟨trivial, fun aux =>
      Process.send (next (next r)).val 0 (aux + ofRank (next r).val)
        Process.done, ?_, ?_⟩
    · rw [hval]
      simp
    · dsimp only
      rw [hvalue]
  · have hval : (next r).val = 0 := by
      rw [next_val, if_neg hsucc]
    have hlast : r.val + 1 = n := by
      have := r.isLt
      lia
    have hr : 0 < r.val := by lia
    have hpassed :
        (Token.flying r sync).stage (next r) = Stage.passed false := by
      simp [Token.stage, hval, hr]
    have hback : (arrive r).stage (next r) = Stage.back := by
      simp [arrive, hval, Token.stage]
    have hsource : (n : Int) - 1 = r.val := by lia
    rw [hpassed, hback]
    simp only [Stage.node, hval, if_true, hsource, hlast]
    exact ⟨trivial, _, rfl, rfl⟩

theorem state_after_recv {n : Nat} (hn : 2 ≤ n) (r : Fin n) (sync : Bool)
    (nd : Node CInt)
    (hnd : nd = ((arrive r).stage (next r)).node (next r)) :
    ({ nodes := release
        (Function.update (Token.flying r sync).state.nodes (next r) nd)
        (tokenMessage r sync)
       flight := [] } : State CInt n) = (arrive r).state := by
  have hflight : (arrive r).flight = [] := by
    unfold arrive
    split <;> rfl
  unfold Token.state
  rw [hflight]
  congr
  funext x
  rw [release_apply]
  by_cases hx : x = next r
  · have hxr : x ≠ r := hx ▸ next_ne hn r
    subst hx
    simp [tokenMessage, hxr, hnd]
  · by_cases hxr : x = r
    · subst hxr
      have hstage : (Token.flying x sync).stage x = Stage.passed sync := by
        simp [Token.stage]
      rw [stage_arrive_sender hn, Function.update_of_ne hx]
      dsimp only
      rw [hstage]
      cases sync with
      | false => simp [tokenMessage]
      | true => simp [tokenMessage, passed_unblocked]
    · rw [stage_arrive_of_ne hxr hx sync, Function.update_of_ne hx]
      simp [tokenMessage, hxr]

end Ring
end MPI
end IPPD
