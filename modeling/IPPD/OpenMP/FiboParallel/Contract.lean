import IPPD.Foundation.FibInt
import IPPD.Foundation.TaskContract
import IPPD.OpenMP.FiboParallel.Program

/-!
# The contract of the Fibonacci tasks

An invocation relates to each task it has created by the argument of the task,
by the variable that the task writes, and by the `taskwait` that it cannot pass
before the task has completed.
-/

namespace IPPD
namespace OpenMP
namespace FiboParallel

open Foundation
open Foundation.TaskPool (Next Advances Contract)

/-!
## The contract of an invocation
-/

structure FrameOk (f : Frame) (completed : Bool) : Prop where
  nonneg : 0 ≤ f.n
  /-- Only an invocation with `n` at least two gets to its tasks. -/
  start_or_returned : f.n < 2 ->
    f.pc = Pc.start ∨ exists v, f.pc = Pc.returned v
  r1_eq : forall {v}, f.r1 = some v -> v = fibInt (f.n - 1).toNat
  r2_eq : forall {v}, f.r2 = some v -> v = fibInt (f.n - 2).toNat
  returned_eq : forall {v}, f.pc = Pc.returned v -> v = fibInt f.n.toNat
  completed_returned : completed = true -> exists v, f.pc = Pc.returned v

/-- The variable of frame `f` that `dest` names. -/
def Frame.read (f : Frame) : Dest -> Option CInt
  | Dest.r => none
  | Dest.r1 => f.r1
  | Dest.r2 => f.r2

/-- Past the `taskwait`. -/
def Pc.joined : Pc -> Bool
  | Pc.add => true
  | Pc.returned _ => true
  | _ => false

/-- An invocation `f`, the invocation `u` of a task it has created, and whether
that task has completed. -/
structure LinkOk (f u : Frame) (completed : Bool) : Prop where
  started : f.pc ≠ Pc.start
  args : (u.dest = Dest.r1 ∧ u.n = f.n - 1) ∨
    (u.dest = Dest.r2 ∧ u.n = f.n - 2)
  written : completed = true -> exists v, f.read u.dest = some v
  joined : f.pc.joined = true -> completed = true

theorem frameOk_call {n : Int} (hn : 0 ≤ n) (dest : Dest) :
    FrameOk (call n dest) false where
  nonneg := hn
  start_or_returned := fun _ => Or.inl rfl
  r1_eq := by
    intro v hv
    cases hv
  r2_eq := by
    intro v hv
    cases hv
  returned_eq := by
    intro v hv
    cases hv
  completed_returned := by
    intro h
    cases h

theorem FrameOk.two_le {f : Frame} {b : Bool} (hf : FrameOk f b)
    (hstart : f.pc ≠ Pc.start) (hreturned : forall v, f.pc ≠ Pc.returned v) :
    2 ≤ f.n := by
  by_contra hn
  rcases hf.start_or_returned (by lia) with hpc | ⟨v, hpc⟩
  · exact hstart hpc
  · exact hreturned v hpc

theorem FrameOk.moveTo {f : Frame} (hf : FrameOk f false) {pc : Pc}
    (hn : 2 ≤ f.n) (hpc : forall v, pc ≠ Pc.returned v) :
    FrameOk { f with pc := pc } false :=
  { hf with
    start_or_returned := by
      intro hlt
      dsimp only at hlt
      lia
    returned_eq := by
      intro v hv
      exact absurd hv (hpc v)
    completed_returned := by
      intro h
      cases h }

theorem FrameOk.return {f : Frame} (hf : FrameOk f false) {v : CInt}
    (hv : v = fibInt f.n.toNat) :
    FrameOk { f with pc := Pc.returned v } false :=
  { hf with
    start_or_returned := fun _ => Or.inr ⟨v, rfl⟩
    returned_eq := by
      intro w hw
      cases hw
      exact hv
    completed_returned := by
      intro h
      cases h }

theorem FrameOk.moves {f f' : Frame} (hf : FrameOk f false)
    (h : Moves f f') : FrameOk f' false := by
  cases h with
  | base hpc hn => exact hf.return (ofInt_eq_fibInt hf.nonneg hn)
  | recurse hpc hn => exact hf.moveTo hn (by simp)
  | task1 hpc =>
      exact hf.moveTo (hf.two_le (by simp [hpc]) (by simp [hpc])) (by simp)
  | task2 hpc =>
      exact hf.moveTo (hf.two_le (by simp [hpc]) (by simp [hpc])) (by simp)
  | taskwait hpc =>
      exact hf.moveTo (hf.two_le (by simp [hpc]) (by simp [hpc])) (by simp)
  | add hpc h1 h2 =>
      have hn := hf.two_le (by simp [hpc]) (by simp [hpc])
      apply hf.return
      rw [hf.r1_eq h1, hf.r2_eq h2]
      exact add_eq_fibInt hn

theorem FrameOk.store {f u : Frame} {b : Bool} (hf : FrameOk f b)
    (hu : FrameOk u false) (hlink : LinkOk f u false) {v : CInt}
    (hpc : u.pc = Pc.returned v) : FrameOk (assign u.dest v f) b := by
  have hv := hu.returned_eq hpc
  rcases hlink.args with ⟨hdest, hn⟩ | ⟨hdest, hn⟩
  · rw [hdest]
    exact
      { hf with
        r1_eq := by
          intro w hw
          cases hw
          rw [hv, hn, assign_n] }
  · rw [hdest]
    exact
      { hf with
        r2_eq := by
          intro w hw
          cases hw
          rw [hv, hn, assign_n] }

theorem LinkOk.creator {f f' u : Frame} {b : Bool} (hlink : LinkOk f u b)
    (h : Moves f f') (hjoin : f'.pc = Pc.add -> b = true) :
    LinkOk f' u b := by
  have hstart := hlink.started
  cases h with
  | base hpc _ => exact absurd hpc hstart
  | recurse hpc _ => exact absurd hpc hstart
  | task1 hpc =>
      exact
        { hlink with
          started := by simp
          joined := by simp [Pc.joined] }
  | task2 hpc =>
      exact
        { hlink with
          started := by simp
          joined := by simp [Pc.joined] }
  | taskwait hpc =>
      exact
        { hlink with
          started := by simp
          joined := fun _ => hjoin rfl }
  | add hpc _ _ =>
      exact
        { hlink with
          started := by simp
          joined := fun _ => hlink.joined (by simp [hpc, Pc.joined]) }

theorem LinkOk.created {f u u' : Frame} (hlink : LinkOk f u false)
    (h : Moves u u') : LinkOk f u' false := by
  have hsame : u'.n = u.n ∧ u'.dest = u.dest := by
    cases h <;> exact ⟨rfl, rfl⟩
  rcases hsame with ⟨hn, hdest⟩
  constructor
  · exact hlink.started
  · rw [hn, hdest]
    exact hlink.args
  · intro h
    cases h
  · exact hlink.joined

theorem read_assign {f : Frame} {dest : Dest} {v : CInt}
    (hdest : dest ≠ Dest.r) : (assign dest v f).read dest = some v := by
  cases dest with
  | r => exact absurd rfl hdest
  | r1 => rfl
  | r2 => rfl

theorem read_assign_isSome {f : Frame} {dest dest' : Dest} {v w : CInt}
    (h : f.read dest' = some w) :
    exists w', (assign dest v f).read dest' = some w' := by
  cases dest with
  | r => exact ⟨w, h⟩
  | r1 =>
      cases dest' with
      | r => cases h
      | r1 => exact ⟨v, rfl⟩
      | r2 => exact ⟨w, h⟩
  | r2 =>
      cases dest' with
      | r => cases h
      | r1 => exact ⟨w, h⟩
      | r2 => exact ⟨v, rfl⟩

/-- The store of the task's value, with which the task completes. -/
theorem LinkOk.store {f u : Frame} {v : CInt} (hlink : LinkOk f u false) :
    LinkOk (assign u.dest v f) u true where
  started := by
    rw [assign_pc]
    exact hlink.started
  args := by
    rw [assign_n]
    exact hlink.args
  written := by
    intro _
    refine ⟨v, read_assign ?_⟩
    rcases hlink.args with ⟨hdest, _⟩ | ⟨hdest, _⟩ <;> simp [hdest]
  joined := fun _ => rfl

theorem LinkOk.sibling {f w : Frame} {b : Bool} (hlink : LinkOk f w b)
    (dest : Dest) (v : CInt) : LinkOk (assign dest v f) w b where
  started := by
    rw [assign_pc]
    exact hlink.started
  args := by
    rw [assign_n]
    exact hlink.args
  written := by
    intro hb
    rcases hlink.written hb with ⟨x, hx⟩
    exact read_assign_isSome hx
  joined := by
    rw [assign_pc]
    exact hlink.joined

/-- A store into the created task's own frame. -/
theorem LinkOk.below {g f : Frame} {b : Bool} (hlink : LinkOk g f b)
    (dest : Dest) (v : CInt) : LinkOk g (assign dest v f) b where
  started := hlink.started
  args := by
    rw [assign_n, assign_dest]
    exact hlink.args
  written := by
    rw [assign_dest]
    exact hlink.written
  joined := hlink.joined

def contract (n : Nat) : Contract fiboParalelo (call n Dest.r) where
  Ok := FrameOk
  Link := LinkOk
  First := fun f => f.n = n
  Result := fun v => v = fibInt n
  ok_first := frameOk_call (Int.natCast_nonneg n) Dest.r
  ok_advance := fun hf h => hf.moves (moves_of_advances h)
  ok_child := by
    intro f f' c hf h
    rcases spawn_cases h with ⟨hpc, _, hc⟩ | ⟨hpc, _, hc⟩
    · have hn := hf.two_le (by simp [hpc]) (by simp [hpc])
      rw [hc]
      exact frameOk_call (by lia) Dest.r1
    · have hn := hf.two_le (by simp [hpc]) (by simp [hpc])
      rw [hc]
      exact frameOk_call (by lia) Dest.r2
  ok_finish := by
    intro f v st hf h
    exact { hf with completed_returned := fun _ => ⟨v, (finish_cases h).left⟩ }
  ok_store := by
    intro f b u v st hf hu hlink h
    rcases finish_cases h with ⟨hpc, hst⟩
    rw [hst]
    exact hf.store hu hlink hpc
  link_child := by
    intro f f' c hf h
    rcases spawn_cases h with ⟨hpc, hf', hc⟩ | ⟨hpc, hf', hc⟩
    · subst hf' hc
      constructor
      · simp
      · exact Or.inl ⟨rfl, rfl⟩
      · simp
      · simp [Pc.joined]
    · subst hf' hc
      constructor
      · simp
      · exact Or.inr ⟨rfl, rfl⟩
      · simp
      · simp [Pc.joined]
  link_creator := by
    intro f f' u b _ hlink h hjoin
    exact hlink.creator (moves_of_advances h)
      (fun hadd => hjoin (waits_of_add h hadd))
  link_created := fun _ hlink h => hlink.created (moves_of_advances h)
  link_store_self := by
    intro f u v st hlink h
    rw [(finish_cases h).right]
    exact hlink.store
  link_store_sibling := by
    intro f w b u v st hlink _ h
    rw [(finish_cases h).right]
    exact hlink.sibling u.dest v
  link_store_creator := by
    intro g f b u v st hlink h
    rw [(finish_cases h).right]
    exact hlink.below u.dest v
  first_first := rfl
  first_advance := by
    intro f f' hf h
    cases moves_of_advances h <;> exact hf
  first_store := by
    intro f u v st hf h
    rw [(finish_cases h).right, assign_n]
    exact hf
  result := by
    intro f v st hfirst hf h
    rw [hf.returned_eq (finish_cases h).left, hfirst]
    rfl

end FiboParallel
end OpenMP
end IPPD
