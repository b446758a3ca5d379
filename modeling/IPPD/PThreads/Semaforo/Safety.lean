import IPPD.PThreads.Semaforo.Program

/-!
# Safety of the semaphore program

A slot of the buffer is in exactly one place: free in `s1`, filled in `s`, or
in the hands of a thread that has done its `p` and not yet its `v`.  Such a
thread is pending before it touches the buffer and settled afterwards; the
number of elements is the number of filled slots plus the settled producers
plus the pending consumers.
-/

namespace IPPD
namespace PThreads
namespace Semaforo

open Foundation

/-!
## Program points
-/

/-- Between `lock(m)` and `unlock(m)`. -/
def Pc.inside : Pc -> Bool
  | elem | count | unlock => true
  | _ => false

/-- Between `p` and `v`. -/
def Pc.holding : Pc -> Bool
  | lock | elem | count | unlock | v => true
  | _ => false

/-- Holds a token and has not yet touched the buffer. -/
def Pc.pending : Pc -> Bool
  | lock | elem => true
  | _ => false

/-- Holds a token and has touched the buffer. -/
def Pc.settled : Pc -> Bool
  | count | unlock | v => true
  | _ => false

def Pc.atCount : Pc -> Bool
  | count => true
  | _ => false

theorem census_holding (f : Fin n -> Pc) :
    census Pc.holding f = census Pc.pending f + census Pc.settled f := by
  unfold census
  rw [← tally_add]
  congr
  funext pc
  cases pc <;> rfl

theorem census_update_pc (p : Pc -> Bool) (f : Fin n -> Pc) {i : Fin n}
    {a : Pc} (ha : f i = a) (b : Pc) :
    census p (Function.update f i b) + (p a).toNat =
      census p f + (p b).toNat := by
  rw [← ha]
  exact census_update p f i b

/-!
## What a thread can do
-/

inductive Ut.Moves {buff : Type u} (ut : Ut buff) (sh : Shared buff) :
    Pc -> Shared buff -> Pc -> Prop where
  | enter : sh.notEnd = true -> Moves ut sh Pc.test sh Pc.p
  | leave : sh.notEnd = false -> Moves ut sh Pc.test sh Pc.fim
  | p {sh' : Shared buff} : ut.p sh = some sh' -> Moves ut sh Pc.p sh' Pc.lock
  | lock : sh.m = false -> Moves ut sh Pc.lock { sh with m := true } Pc.elem
  | elem : Moves ut sh Pc.elem (ut.elem sh) Pc.count
  | count : Moves ut sh Pc.count (ut.count sh) Pc.unlock
  | unlock : Moves ut sh Pc.unlock { sh with m := false } Pc.v
  | v : Moves ut sh Pc.v (ut.v sh) Pc.test

theorem Ut.moves_of_step {buff : Type u} {ut : Ut buff}
    {sh sh' : Shared buff} {a b : Pc} (h : ut.step sh a = some (sh', b)) :
    ut.Moves sh a sh' b := by
  cases a with
  | test =>
      simp only [Ut.step] at h
      split at h
      · rename_i hnotEnd
        cases h
        exact Moves.enter hnotEnd
      · rename_i hend
        cases h
        exact Moves.leave (Bool.eq_false_of_not_eq_true hend)
  | p =>
      simp only [Ut.step] at h
      split at h
      · rename_i sh'' hp
        cases h
        exact Moves.p hp
      · cases h
  | lock =>
      simp only [Ut.step] at h
      split at h
      · cases h
      · rename_i hm
        cases h
        exact Moves.lock (Bool.eq_false_of_not_eq_true hm)
  | elem =>
      cases h
      exact Moves.elem
  | count =>
      cases h
      exact Moves.count
  | unlock =>
      cases h
      exact Moves.unlock
  | v =>
      cases h
      exact Moves.v
  | fim => cases h

theorem semP_eq_some {n k : Nat} (h : semP n = some k) : n = k + 1 := by
  cases n with
  | zero => cases h
  | succ n =>
      cases h
      rfl

section Program

variable {TAM : Nat} {buff : Type u} {B : Buffer TAM buff}
variable {nprod ncons : Nat}

theorem Produtora_p {sh sh' : Shared buff}
    (h : (Produtora B).p sh = some sh') :
    exists s1, sh.s1 = s1 + 1 ∧ sh' = { sh with s1 := s1 } := by
  simp only [Produtora] at h
  split at h
  · rename_i s1 hp
    cases h
    exact ⟨s1, semP_eq_some hp, rfl⟩
  · cases h

theorem Consumidora_p {sh sh' : Shared buff}
    (h : (Consumidora B).p sh = some sh') :
    exists s, sh.s = s + 1 ∧ sh' = { sh with s := s } := by
  simp only [Consumidora] at h
  split at h
  · rename_i s hp
    cases h
    exact ⟨s, semP_eq_some hp, rfl⟩
  · cases h

inductive Moves (B : Buffer TAM buff) (st : State buff nprod ncons) :
    Action nprod ncons -> State buff nprod ncons -> Prop where
  | prod {i : Fin nprod} {a b : Pc} {sh : Shared buff} : st.prods i = a ->
      (Produtora B).Moves st.shared a sh b ->
      Moves B st (Action.prod i)
        { st with shared := sh, prods := Function.update st.prods i b }
  | cons {j : Fin ncons} {a b : Pc} {sh : Shared buff} : st.conss j = a ->
      (Consumidora B).Moves st.shared a sh b ->
      Moves B st (Action.cons j)
        { st with shared := sh, conss := Function.update st.conss j b }
  | encerra : Moves B st Action.encerra
      { st with shared := { st.shared with notEnd := false } }

theorem moves_of_step {st st' : State buff nprod ncons}
    {a : Action nprod ncons} (h : step B st a = some st') :
    Moves B st a st' := by
  cases a with
  | prod i =>
      simp only [step] at h
      split at h
      · rename_i sh pc hut
        cases h
        exact Moves.prod rfl (Ut.moves_of_step hut)
      · cases h
  | cons j =>
      simp only [step] at h
      split at h
      · rename_i sh pc hut
        cases h
        exact Moves.cons rfl (Ut.moves_of_step hut)
      · cases h
  | encerra =>
      cases h
      exact Moves.encerra

/-!
## The invariant
-/

structure Inv (B : Buffer TAM buff) (st : State buff nprod ncons) : Prop where
  mutex : census Pc.inside st.prods + census Pc.inside st.conss =
    st.shared.m.toNat
  tokens : st.shared.s + st.shared.s1 +
    (census Pc.pending st.prods + census Pc.settled st.prods) +
    (census Pc.pending st.conss + census Pc.settled st.conss) = TAM
  items : B.nelem st.shared.buff =
    st.shared.s + census Pc.settled st.prods + census Pc.pending st.conss
  counter : st.shared.nbelem + census Pc.atCount st.prods =
    B.nelem st.shared.buff + census Pc.atCount st.conss

theorem Inv.room {st : State buff nprod ncons} (h : Inv B st)
    {i : Fin nprod} (hi : st.prods i = Pc.elem) :
    B.nelem st.shared.buff < TAM := by
  have hpos : 0 < census Pc.pending st.prods :=
    census_pos_iff.mpr ⟨i, by rw [hi]; rfl⟩
  have htokens := h.tokens
  have hitems := h.items
  lia

theorem Inv.item {st : State buff nprod ncons} (h : Inv B st)
    {j : Fin ncons} (hj : st.conss j = Pc.elem) :
    0 < B.nelem st.shared.buff := by
  have hpos : 0 < census Pc.pending st.conss :=
    census_pos_iff.mpr ⟨j, by rw [hj]; rfl⟩
  have hitems := h.items
  lia

theorem Inv.locked {st : State buff nprod ncons} (h : Inv B st)
    (hpos : 0 < census Pc.inside st.prods + census Pc.inside st.conss) :
    st.shared.m = true := by
  have hmutex := h.mutex
  cases hm : st.shared.m with
  | true => rfl
  | false =>
      rw [hm, Bool.toNat_false] at hmutex
      lia

theorem inv_initial (notEnd : Bool) :
    Inv B (initial B nprod ncons notEnd) where
  mutex := by simp [initial, census_const, Pc.inside]
  tokens := by simp [initial, census_const, Pc.pending, Pc.settled]
  items := by
    simp [initial, census_const, Pc.pending, Pc.settled, B.nelem_empty]
  counter := by simp [initial, census_const, Pc.atCount, B.nelem_empty]

/-!
## What a step changes

A step of a thread from `a` to `b` changes each balance of the invariant by the
difference between what `a` and `b` count for.  The two kinds of thread differ
in the points that count as an element (`q`) and in the sign of the counter.
-/

structure Effect (B : Buffer TAM buff) (q : Pc -> Bool) (sign : Int)
    (sh : Shared buff) (a : Pc) (sh' : Shared buff) (b : Pc) : Prop where
  mutex : sh'.m.toNat + a.inside.toNat = sh.m.toNat + b.inside.toNat
  tokens : sh'.s + sh'.s1 + (b.pending.toNat + b.settled.toNat) =
    sh.s + sh.s1 + (a.pending.toNat + a.settled.toNat)
  items : B.nelem sh'.buff + sh.s + (q a).toNat =
    B.nelem sh.buff + sh'.s + (q b).toNat
  counter : sh'.nbelem - B.nelem sh'.buff + sign * b.atCount.toNat =
    sh.nbelem - B.nelem sh.buff + sign * a.atCount.toNat

theorem Produtora_effect {sh sh' : Shared buff} {a b : Pc}
    (hlocked : a.inside = true -> sh.m = true)
    (hroom : a = Pc.elem -> B.nelem sh.buff < TAM)
    (h : (Produtora B).Moves sh a sh' b) :
    Effect B Pc.settled 1 sh a sh' b := by
  cases h with
  | enter _ | leave _ => constructor <;> rfl
  | p hp =>
      rcases Produtora_p hp with ⟨s1, hs1, rfl⟩
      constructor <;>
        simp [Pc.inside, Pc.pending, Pc.settled, Pc.atCount, hs1]
      lia
  | lock hm =>
      constructor <;>
        simp [Pc.inside, Pc.pending, Pc.settled, Pc.atCount, hm]
  | elem =>
      have hnelem := B.nelem_insereElem sh.buff (hroom rfl)
      constructor <;>
        simp [Produtora, Pc.inside, Pc.pending, Pc.settled, Pc.atCount,
          hnelem]
      all_goals lia
  | count =>
      constructor <;>
        simp [Produtora, Pc.inside, Pc.pending, Pc.settled, Pc.atCount]
      lia
  | unlock =>
      have hm := hlocked rfl
      constructor <;>
        simp [Pc.inside, Pc.pending, Pc.settled, Pc.atCount, hm]
  | v =>
      constructor <;>
        simp [Produtora, semV, Pc.inside, Pc.pending, Pc.settled, Pc.atCount]
      all_goals lia

theorem Consumidora_effect {sh sh' : Shared buff} {a b : Pc}
    (hlocked : a.inside = true -> sh.m = true)
    (hitem : a = Pc.elem -> 0 < B.nelem sh.buff)
    (h : (Consumidora B).Moves sh a sh' b) :
    Effect B Pc.pending (-1) sh a sh' b := by
  cases h with
  | enter _ | leave _ => constructor <;> rfl
  | p hp =>
      rcases Consumidora_p hp with ⟨s, hs, rfl⟩
      constructor <;>
        simp [Pc.inside, Pc.pending, Pc.settled, Pc.atCount, hs]
      all_goals lia
  | lock hm =>
      constructor <;>
        simp [Pc.inside, Pc.pending, Pc.settled, Pc.atCount, hm]
  | elem =>
      have hnelem := B.nelem_retiraElem sh.buff (hitem rfl)
      constructor <;>
        simp [Consumidora, Pc.inside, Pc.pending, Pc.settled, Pc.atCount]
      all_goals lia
  | count =>
      constructor <;>
        simp [Consumidora, Pc.inside, Pc.pending, Pc.settled, Pc.atCount]
      lia
  | unlock =>
      have hm := hlocked rfl
      constructor <;>
        simp [Pc.inside, Pc.pending, Pc.settled, Pc.atCount, hm]
  | v =>
      constructor <;>
        simp [Consumidora, semV, Pc.inside, Pc.pending, Pc.settled,
          Pc.atCount]
      all_goals lia

theorem inv_prod {st : State buff nprod ncons} (h : Inv B st)
    {i : Fin nprod} {a b : Pc} {sh : Shared buff} (ha : st.prods i = a)
    (hmove : (Produtora B).Moves st.shared a sh b) :
    Inv B { st with shared := sh, prods := Function.update st.prods i b } := by
  have hlocked : a.inside = true -> st.shared.m = true := by
    intro hin
    have hpos := census_pos_iff.mpr ⟨i, ha ▸ hin⟩
    exact h.locked (Nat.add_pos_left hpos _)
  have heffect := Produtora_effect hlocked (fun heq => h.room (ha.trans heq))
    hmove
  have hinside := census_update_pc Pc.inside st.prods ha b
  have hpending := census_update_pc Pc.pending st.prods ha b
  have hsettled := census_update_pc Pc.settled st.prods ha b
  have hcount := census_update_pc Pc.atCount st.prods ha b
  rcases h with ⟨hmutex, htokens, hitems, hcounter⟩
  rcases heffect with ⟨hmutex', htokens', hitems', hcounter'⟩
  constructor <;> dsimp only <;> lia

theorem inv_cons {st : State buff nprod ncons} (h : Inv B st)
    {j : Fin ncons} {a b : Pc} {sh : Shared buff} (ha : st.conss j = a)
    (hmove : (Consumidora B).Moves st.shared a sh b) :
    Inv B { st with shared := sh, conss := Function.update st.conss j b } := by
  have hlocked : a.inside = true -> st.shared.m = true := by
    intro hin
    have hpos := census_pos_iff.mpr ⟨j, ha ▸ hin⟩
    exact h.locked (Nat.add_pos_right _ hpos)
  have heffect := Consumidora_effect hlocked (fun heq => h.item (ha.trans heq))
    hmove
  have hinside := census_update_pc Pc.inside st.conss ha b
  have hpending := census_update_pc Pc.pending st.conss ha b
  have hsettled := census_update_pc Pc.settled st.conss ha b
  have hcount := census_update_pc Pc.atCount st.conss ha b
  rcases h with ⟨hmutex, htokens, hitems, hcounter⟩
  rcases heffect with ⟨hmutex', htokens', hitems', hcounter'⟩
  constructor <;> dsimp only <;> lia

theorem inv_reachable {st : State buff nprod ncons}
    (h : (system B nprod ncons).Reachable st) : Inv B st := by
  refine System.reachable_invariant (P := Inv B) ?_ ?_ h
  · intro st hinit
    rcases hinit with ⟨notEnd, rfl⟩
    exact inv_initial notEnd
  · intro st a st' _ hinv hstep
    cases moves_of_step hstep with
    | prod ha hmove => exact inv_prod hinv ha hmove
    | cons ha hmove => exact inv_cons hinv ha hmove
    | encerra =>
        exact ⟨hinv.mutex, hinv.tokens, hinv.items, hinv.counter⟩

/-!
## Bounded-buffer safety
-/

/-- Program point of a thread of either kind. -/
def State.pc (st : State buff nprod ncons) : Fin nprod ⊕ Fin ncons -> Pc
  | Sum.inl i => st.prods i
  | Sum.inr j => st.conss j

theorem inside_unique {st : State buff nprod ncons} (h : Inv B st)
    {t t' : Fin nprod ⊕ Fin ncons} (ht : (st.pc t).inside = true)
    (ht' : (st.pc t').inside = true) : t = t' := by
  have hone := Bool.toNat_le st.shared.m
  have hmutex := h.mutex
  have hprods : forall i, (st.prods i).inside = true ->
      0 < census Pc.inside st.prods :=
    fun i hi => census_pos_iff.mpr ⟨i, hi⟩
  have hconss : forall j, (st.conss j).inside = true ->
      0 < census Pc.inside st.conss :=
    fun j hj => census_pos_iff.mpr ⟨j, hj⟩
  cases t with
  | inl i =>
      cases t' with
      | inl i' =>
          exact congrArg Sum.inl (census_le_one_unique (by lia) ht ht')
      | inr j' =>
          have hi := hprods i ht
          have hj := hconss j' ht'
          lia
  | inr j =>
      cases t' with
      | inl i' =>
          have hi := hprods i' ht'
          have hj := hconss j ht
          lia
      | inr j' =>
          exact congrArg Sum.inr (census_le_one_unique (by lia) ht ht')

theorem nbelem_eq_of_free {st : State buff nprod ncons} (h : Inv B st)
    (hm : st.shared.m = false) :
    st.shared.nbelem = B.nelem st.shared.buff := by
  have hmutex := h.mutex
  rw [hm, Bool.toNat_false, Nat.add_eq_zero_iff] at hmutex
  have hfree : forall {n : Nat} {f : Fin n -> Pc},
      census Pc.inside f = 0 -> census Pc.atCount f = 0 := by
    intro n f hf
    rw [census_eq_zero_iff] at hf ⊢
    intro i
    have hi := hf i
    cases hpc : f i <;> first | rfl | (rw [hpc] at hi; cases hi)
  have hcounter := h.counter
  rw [hfree hmutex.left, hfree hmutex.right] at hcounter
  lia

/-- At most one thread is in the critical section, no token is lost, the
element counter is right whenever the mutex is free, and the buffer is never
overfilled nor read when empty. -/
theorem bounded_buffer_safety {st : State buff nprod ncons}
    (h : (system B nprod ncons).Reachable st) :
    (forall t t', (st.pc t).inside = true -> (st.pc t').inside = true ->
        t = t') ∧
      st.shared.s + st.shared.s1 + census Pc.holding st.prods +
        census Pc.holding st.conss = TAM ∧
      (st.shared.m = false ->
        st.shared.nbelem = B.nelem st.shared.buff) ∧
      (forall i, st.prods i = Pc.elem -> B.nelem st.shared.buff < TAM) ∧
      (forall j, st.conss j = Pc.elem -> 0 < B.nelem st.shared.buff) := by
  have hinv := inv_reachable h
  refine ⟨fun t t' => inside_unique hinv, ?_, nbelem_eq_of_free hinv,
    fun i => hinv.room, fun j => hinv.item⟩
  rw [census_holding, census_holding]
  have htokens := hinv.tokens
  lia

/-- A buffer with two places: the producer has stored one element and holds the
token of the second place, and the consumer is about to take the first. -/
theorem bounded_buffer_safety_arrayBuffer :
    exists st, (system (arrayBuffer 2) 2 1).Run
        (initial (arrayBuffer 2) 2 1 true)
        (List.replicate 9 (Action.prod 0) ++ List.replicate 3 (Action.cons 0))
        st ∧
      st.conss 0 = Pc.elem ∧ 0 < (arrayBuffer 2).nelem st.shared.buff ∧
      st.shared.s + st.shared.s1 + census Pc.holding st.prods +
        census Pc.holding st.conss = 2 := by
  have hrun := System.run_iff_exec.mpr
    (show (system (arrayBuffer 2) 2 1).exec
        (initial (arrayBuffer 2) 2 1 true)
        (List.replicate 9 (Action.prod 0) ++ List.replicate 3 (Action.cons 0))
        = some _ from rfl)
  have hsafe := bounded_buffer_safety
    ⟨initial (arrayBuffer 2) 2 1 true, _, ⟨true, rfl⟩, hrun⟩
  exact ⟨_, hrun, rfl, hsafe.right.right.right.right 0 rfl, hsafe.right.left⟩

end Program

end Semaforo
end PThreads
end IPPD
