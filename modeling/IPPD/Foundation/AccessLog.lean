import IPPD.Foundation.System
import Mathlib.Data.List.Nodup
import Mathlib.Data.List.Range

/-!
# Access logs

A log records, in order, which thread accesses which index of an array.  A
thread that walks through a segment accesses consecutive indices, so its part
of the log is a range, whatever the other threads do in between.
-/

namespace IPPD
namespace Foundation

abbrev AccessLog (thread : Type u) := List (thread × Nat)

namespace AccessLog

variable {thread : Type u} [DecidableEq thread]

/-- The indices that thread `t` accesses. -/
def indicesOf (log : AccessLog thread) (t : thread) : List Nat :=
  (log.filter fun r => decide (r.fst = t)).map Prod.snd

theorem indicesOf_append_self (log : AccessLog thread) (t : thread)
    (k : Nat) : indicesOf (log ++ [(t, k)]) t = log.indicesOf t ++ [k] := by
  simp [indicesOf]

theorem indicesOf_append_of_ne (log : AccessLog thread) {t u : thread}
    (h : t ≠ u) (k : Nat) :
    indicesOf (log ++ [(t, k)]) u = log.indicesOf u := by
  simp [indicesOf, h]

theorem mem_indicesOf {log : AccessLog thread} {t : thread} {k : Nat} :
    k ∈ log.indicesOf t <-> (t, k) ∈ log := by
  simp [indicesOf]

theorem count_indicesOf (log : AccessLog thread) (t : thread) (k : Nat) :
    (log.indicesOf t).count k = log.count (t, k) := by
  induction log with
  | nil => rfl
  | cons r log ih =>
      rcases r with ⟨u, m⟩
      unfold indicesOf at ih ⊢
      by_cases hut : u = t
      · subst hut
        simp [List.count_cons, ih]
      · simp [hut, ih]

/-- Each thread has accessed the indices from `first` up to `next`, in
increasing order and each of them once. -/
structure Walks (first next : thread -> Nat) (log : AccessLog thread) :
    Prop where
  le : forall t, first t ≤ next t
  indices : forall t,
    log.indicesOf t = List.range' (first t) (next t - first t)

variable {first next : thread -> Nat} {log : AccessLog thread}

theorem walks_nil (first : thread -> Nat) : Walks first first [] where
  le := fun _ => Nat.le_refl _
  indices := by
    intro t
    simp [indicesOf]

/-- What one step may do: access the next index of one thread, or nothing. -/
inductive Advances (next : thread -> Nat) :
    Option (thread × Nat) -> (thread -> Nat) -> Prop where
  | still : Advances next none next
  | access (t : thread) :
      Advances next (some (t, next t))
        (Function.update next t (next t + 1))

theorem advances_thread {t : thread} {r : Option Nat} {k : Nat}
    (hr : (r = some (next t) ∧ k = next t + 1) ∨ (r = none ∧ k = next t)) :
    Advances next (r.map fun m => (t, m)) (Function.update next t k) := by
  rcases hr with ⟨hr, hk⟩ | ⟨hr, hk⟩
  · subst hr hk
    exact Advances.access t
  · subst hr hk
    rw [Function.update_eq_self]
    exact Advances.still

theorem Walks.access (h : Walks first next log) (t : thread) :
    Walks first (Function.update next t (next t + 1))
      (log ++ [(t, next t)]) where
  le := by
    intro u
    by_cases hut : u = t
    · subst hut
      rw [Function.update_self]
      exact Nat.le_succ_of_le (h.le u)
    · rw [Function.update_of_ne hut]
      exact h.le u
  indices := by
    intro u
    by_cases hut : u = t
    · subst hut
      have hle := h.le u
      have hcount : next u + 1 - first u = (next u - first u) + 1 := by lia
      have hlast : first u + (next u - first u) = next u := by lia
      rw [Function.update_self, indicesOf_append_self, h.indices, hcount,
        List.range'_1_concat, hlast]
    · rw [Function.update_of_ne hut,
        indicesOf_append_of_ne log (fun heq => hut heq.symm), h.indices]

theorem Walks.advance {next' : thread -> Nat} {r : Option (thread × Nat)}
    (h : Walks first next log) (hr : Advances next r next') :
    Walks first next' (log ++ r.toList) := by
  cases hr with
  | still => simpa using h
  | access t => exact h.access t

theorem walks_run {state : Type v} {action : Type w}
    {M : System state action} {obs : state -> action -> Option (thread × Nat)}
    (next : state -> thread -> Nat)
    (hstep : forall {s a t}, M.step s a = some t ->
      Advances (next s) (obs s a) (next t))
    {s t : state} {tr : List action} (hrun : M.Run s tr t) :
    Walks (next s) (next t) (M.observe obs s tr) :=
  System.run_observe (l := [])
    (P := fun t log => Walks (next s) (next t) log)
    (fun h hst => h.advance (hstep hst)) hrun (walks_nil (next s))

theorem Walks.mem_iff (h : Walks first next log) {t : thread} {k : Nat} :
    (t, k) ∈ log <-> first t ≤ k ∧ k < next t := by
  have hle := h.le t
  rw [← mem_indicesOf, h.indices, List.mem_range'_1]
  constructor <;> intro hk <;> exact ⟨hk.left, by lia⟩

theorem Walks.nodup (h : Walks first next log) : log.Nodup := by
  rw [List.nodup_iff_count_le_one]
  intro r
  rw [← count_indicesOf, h.indices]
  exact List.nodup_iff_count_le_one.mp List.nodup_range' r.snd

end AccessLog

end Foundation
end IPPD
