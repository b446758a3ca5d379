import Mathlib.Data.Fintype.Card
import Mathlib.Data.Fintype.EquivFin
import Mathlib.Logic.Function.Basic

/-!
# Heap cells and their owners

A heap maps addresses to cells.  A cell is allocated without a value and gets
its first value from a store.  Each operation is undefined where C leaves it
undefined: at an address that is not allocated, and for a load also at a cell
that was never written.

Threads own cells.  `Owned` says that the heap consists of exactly the owned
cells, each with one owner and with the value its owner expects, so that no
thread can disturb the cell of another.
-/

namespace IPPD
namespace Foundation

/-- No entry at an address that is not allocated, `some none` at a cell
without a value. -/
abbrev Heap (value : Type u) := Nat -> Option (Option value)

namespace Heap

variable {value : Type u}

/-- Allocate the cell `a`, which must not be allocated yet. -/
def malloc (h : Heap value) (a : Nat) : Option (Heap value) :=
  match h a with
  | none => some (Function.update h a (some none))
  | some _ => none

def load (h : Heap value) (a : Nat) : Option value := (h a).join

def store (h : Heap value) (a : Nat) (v : value) : Option (Heap value) :=
  match h a with
  | some _ => some (Function.update h a (some (some v)))
  | none => none

def free (h : Heap value) (a : Nat) : Option (Heap value) :=
  match h a with
  | some _ => some (Function.update h a none)
  | none => none

/-!
### Mapping the values
-/

section Map

variable {value' : Type v} (φ : value -> value')

def map (h : Heap value) : Heap value' :=
  fun a => (h a).map (Option.map φ)

theorem map_update (h : Heap value) (a : Nat) (e : Option (Option value)) :
    map φ (Function.update h a e) =
      Function.update (map φ h) a (e.map (Option.map φ)) := by
  funext b
  by_cases hb : b = a
  · subst hb
    simp [map]
  · simp [map, hb]

theorem malloc_map (h : Heap value) (a : Nat) :
    (map φ h).malloc a = (h.malloc a).map (map φ) := by
  unfold malloc
  cases ha : h a <;> simp [map, ha, map_update]

theorem load_map (h : Heap value) (a : Nat) :
    (map φ h).load a = (h.load a).map φ := by
  unfold load map
  rcases h a with _ | _ | v <;> rfl

theorem store_map (h : Heap value) (a : Nat) (v : value) :
    (map φ h).store a (φ v) = (h.store a v).map (map φ) := by
  unfold store
  cases ha : h a <;> simp [map, ha, map_update]

theorem free_map (h : Heap value) (a : Nat) :
    (map φ h).free a = (h.free a).map (map φ) := by
  unfold free
  cases ha : h a <;> simp [map, ha, map_update]

end Map

end Heap

variable {value : Type u} {thread : Type v}

/-- The cell of each thread, with its address and its value. -/
abbrev Owner (thread : Type v) (value : Type u) :=
  thread -> Option (Nat × Option value)

structure Owned (h : Heap value) (own : Owner thread value) : Prop where
  /-- An owned cell is allocated and has the expected value. -/
  holds : forall {j a v}, own j = some (a, v) -> h a = some v
  unique : forall {j j' a v v'},
    own j = some (a, v) -> own j' = some (a, v') -> j = j'
  /-- There are no other cells. -/
  live : forall {a c}, h a = some c -> exists j, own j = some (a, c)

namespace Owned

variable {h h' : Heap value} {own : Owner thread value} {j : thread}
variable {a : Nat} {c : Option value} {v : value}

theorem empty : Owned (fun _ => none : Heap value)
    (fun _ : thread => none) where
  holds := by
    intro j a v hj
    cases hj
  unique := by
    intro j j' a v v' hj
    cases hj
  live := by
    intro a c ha
    cases ha

theorem load (hown : Owned h own) (hj : own j = some (a, some v)) :
    h.load a = some v := by
  rw [Heap.load, hown.holds hj]
  rfl

/-- Give the address `a` the entry `e` and hand it to `j`, whose only cell was
at `a` and who alone could own it. -/
theorem replace [DecidableEq thread] (hown : Owned h own)
    (halone : forall {i w}, own i = some (a, w) -> i = j)
    (hmine : forall {b w}, own j = some (b, w) -> b = a)
    (e : Option (Option value)) :
    Owned (Function.update h a e)
      (Function.update own j (e.map fun w => (a, w))) := by
  have hother : forall {i b w}, i ≠ j -> own i = some (b, w) -> b ≠ a := by
    intro i b w hij hi hb
    rw [hb] at hi
    exact hij (halone hi)
  have hnew : forall {b w},
      Function.update own j (e.map fun w => (a, w)) j = some (b, w) ->
        b = a ∧ e = some w := by
    intro b w hj
    rw [Function.update_self] at hj
    rcases Option.map_eq_some_iff.mp hj with ⟨w', he, hw⟩
    cases hw
    exact ⟨rfl, he⟩
  constructor
  · intro i b w hi
    by_cases hij : i = j
    · subst hij
      rcases hnew hi with ⟨hb, he⟩
      rw [hb, Function.update_self, he]
    · rw [Function.update_of_ne hij] at hi
      rw [Function.update_of_ne (hother hij hi)]
      exact hown.holds hi
  · intro i i' b w w' hi hi'
    by_cases hij : i = j
    · by_cases hij' : i' = j
      · rw [hij, hij']
      · subst hij
        rw [Function.update_of_ne hij'] at hi'
        exact absurd (hnew hi).left (hother hij' hi')
    · rw [Function.update_of_ne hij] at hi
      by_cases hij' : i' = j
      · subst hij'
        exact absurd (hnew hi').left (hother hij hi)
      · rw [Function.update_of_ne hij'] at hi'
        exact hown.unique hi hi'
  · intro b w hb
    by_cases hba : b = a
    · subst hba
      rw [Function.update_self] at hb
      refine ⟨j, ?_⟩
      rw [Function.update_self, hb]
      rfl
    · rw [Function.update_of_ne hba] at hb
      rcases hown.live hb with ⟨i, hi⟩
      have hij : i ≠ j := by
        intro heq
        rw [heq] at hi
        exact hba (hmine hi)
      refine ⟨i, ?_⟩
      rw [Function.update_of_ne hij, hi]

theorem malloc [DecidableEq thread] (hown : Owned h own)
    (hj : own j = none) (hmalloc : h.malloc a = some h') :
    Owned h' (Function.update own j (some (a, none))) := by
  unfold Heap.malloc at hmalloc
  split at hmalloc
  · rename_i hfresh
    cases hmalloc
    refine hown.replace ?_ ?_ (some none)
    · intro i w hi
      have hheld := hown.holds hi
      rw [hfresh] at hheld
      cases hheld
    · intro b w hb
      rw [hj] at hb
      cases hb
  · cases hmalloc

theorem replace_own [DecidableEq thread] (hown : Owned h own)
    (hj : own j = some (a, c)) (e : Option (Option value)) :
    Owned (Function.update h a e)
      (Function.update own j (e.map fun w => (a, w))) := by
  refine hown.replace ?_ ?_ e
  · intro i w hi
    exact hown.unique hi hj
  · intro b w hb
    rw [hj] at hb
    cases hb
    rfl

theorem store [DecidableEq thread] (hown : Owned h own)
    (hj : own j = some (a, c)) (hstore : h.store a v = some h') :
    Owned h' (Function.update own j (some (a, some v))) := by
  rw [Heap.store, hown.holds hj] at hstore
  cases hstore
  exact hown.replace_own hj (some (some v))

theorem free [DecidableEq thread] (hown : Owned h own)
    (hj : own j = some (a, c)) (hfree : h.free a = some h') :
    Owned h' (Function.update own j none) := by
  rw [Heap.free, hown.holds hj] at hfree
  cases hfree
  exact hown.replace_own hj none

theorem store_isSome (hown : Owned h own) (hj : own j = some (a, c))
    (v : value) : exists h', h.store a v = some h' := by
  rw [Heap.store, hown.holds hj]
  exact ⟨_, rfl⟩

theorem free_isSome (hown : Owned h own) (hj : own j = some (a, c)) :
    exists h', h.free a = some h' := by
  rw [Heap.free, hown.holds hj]
  exact ⟨_, rfl⟩

theorem malloc_isSome [Fintype thread] (hown : Owned h own) :
    exists a h', h.malloc a = some h' := by
  classical
  rcases Infinite.exists_notMem_finset
      (Finset.univ.image fun j : thread => ((own j).map Prod.fst).getD 0) with
    ⟨a, ha⟩
  refine ⟨a, ?_⟩
  cases hcell : h a with
  | none => simp [Heap.malloc, hcell]
  | some c =>
      rcases hown.live hcell with ⟨j, hj⟩
      refine absurd (Finset.mem_image.mpr ⟨j, Finset.mem_univ j, ?_⟩) ha
      rw [hj]
      rfl

theorem heap_eq_empty (hown : Owned h own) (hnone : forall j, own j = none) :
    h = fun _ => none := by
  funext a
  cases hcell : h a with
  | none => rfl
  | some c =>
      rcases hown.live hcell with ⟨j, hj⟩
      rw [hnone j] at hj
      cases hj

end Owned

end Foundation
end IPPD
