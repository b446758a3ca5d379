import IPPD.Foundation.Schedule

/-!
# Handing over messages

On the schedule without buffering a message goes from its sender to its
receiver in one turn, and between two turns nothing is under way.  So the
schedule is a relation on the programs of the ranks alone.  The module has its
rules: one message, a round of messages between disjoint pairs, a tree along
which a value spreads, and the sequence of two programs.
-/

namespace IPPD
namespace Foundation
namespace Communicator

open MessagePassing

variable {value : Type u} {result : Type v} {result' : Type w} {n : Nat}

/-- Messages that are handed over take the ranks from some programs to others. -/
def Sync (code code' : Fin n -> Program value result) : Prop :=
  exists m, Rendezvous (quiet code) m (quiet code')

theorem Sync.refl (code : Fin n -> Program value result) : Sync code code :=
  ⟨0, Rendezvous.nil _⟩

theorem Sync.trans {code code' code'' : Fin n -> Program value result}
    (h : Sync code code') (h' : Sync code' code'') : Sync code code'' := by
  rcases h with ⟨l, hl⟩
  rcases h' with ⟨m, hm⟩
  exact ⟨l + m, hl.append hm⟩

theorem Sync.delivers {code : Fin n -> Program value result}
    {res : Fin n -> result} (h : Sync code fun r => Program.ret (res r)) :
    Delivers code res := by
  rcases h with ⟨m, hm⟩
  exact hm.delivers

/-!
## One message
-/

theorem rankOf?_cast (q : Fin n) : rankOf? n (q : Int) = some q := by
  simp [rankOf?]

/-- A program that receives a message, after some tests for it perhaps. -/
inductive Accepts (source : Int) :
    Program value result -> (value -> Program value result) -> Prop where
  | recv (next : value -> Program value result) :
      Accepts source (Program.recv source next) next
  | test {p : Program value result} {next : value -> Program value result} :
      Accepts source p next -> Accepts source (Program.test source p) next

theorem Accepts.unique {source source' : Int} {p : Program value result}
    {next next' : value -> Program value result} (h : Accepts source p next)
    (h' : Accepts source' p next') : source = source' := by
  cases h <;> cases h' <;> rfl

theorem Accepts.ne_send {source : Int} {p : Program value result}
    {next : value -> Program value result} (h : Accepts source p next)
    (dest : Int) (v : value) (p' : Program value result) :
    p ≠ Program.send dest v p' := by
  cases h <;> intro h' <;> cases h'

theorem Accepts.rendezvous {s : State value result n} {r q : Fin n}
    {next : value -> Program value result} {v : value} {l : List value}
    (hchan : s.chan (r, q) = v :: l) {p : Program value result}
    (hp : s.code q = p) (h : Accepts (r : Int) p next) :
    exists m, Rendezvous s m
      ⟨Function.update s.code q (next v), s.pending,
        Function.update s.chan (r, q) l⟩ := by
  induction h generalizing s with
  | recv next =>
      have he : effect s (Action.recv q) =
          some ⟨next v, s.pending q, Change.pop r q⟩ := by
        simp [effect, hp, rankOf?_cast, hchan]
      refine ⟨1, Rendezvous.cons rfl he ?_⟩
      simp only [Effect.apply, Change.apply, Action.rank, hchan, List.tail_cons,
        Function.update_eq_self]
      exact Rendezvous.nil _
  | test h ih =>
      rename_i p next
      have he : effect s (Action.test q) =
          some ⟨p, s.pending q, Change.none⟩ := by
        simp [effect, hp, rankOf?_cast, hchan]
      have hnext := ih
        (s := Effect.apply ⟨p, s.pending q, Change.none⟩ q s) hchan
        (Function.update_self _ _ _)
      rcases hnext with ⟨m, hm⟩
      refine ⟨m + 1, Rendezvous.cons rfl he ?_⟩
      simpa [Effect.apply, Change.apply, Action.rank] using hm

theorem Sync.handover {code : Fin n -> Program value result} {r q : Fin n}
    {v : value} {p : Program value result} {next : value -> Program value result}
    (hsend : code r = Program.send q v p)
    (haccept : Accepts (r : Int) (code q) next) :
    Sync code (Function.update (Function.update code r p) q (next v)) := by
  have hrq : r ≠ q := by
    intro h
    exact haccept.ne_send q v p (h ▸ hsend)
  have hqr : q ≠ r := fun h => hrq h.symm
  let e : Effect value result n := ⟨Program.wait p, some q, Change.push r q v⟩
  have he : effect (quiet code) (Action.send r true) = some e := by
    simp [effect, quiet, hsend, rankOf?_cast, e]
  have hchan : (e.apply r (quiet code)).chan (r, q) = [v] := by
    simp [Effect.apply, e, Change.apply, quiet]
  have hcode : (e.apply r (quiet code)).code q = code q :=
    Function.update_of_ne hqr _ _
  rcases haccept.rendezvous hchan hcode with ⟨m, hm⟩
  generalize hmid : State.mk _ _ _ = t at hm
  have hwait : effect t (Action.wait r) = some (goOn p) := by
    simp [← hmid, effect, goOn, Effect.apply, e, hrq]
  refine ⟨m + 1 + 1, Rendezvous.cons rfl he (hm.append ?_)⟩
  refine Rendezvous.cons rfl hwait ?_
  have hend : (goOn p).apply r t =
      quiet (Function.update (Function.update code r p) q (next v)) := by
    simp only [← hmid, Effect.apply, goOn, e, quiet, Change.apply]
    simp [Function.update_comm hrq]
  rw [Action.rank, hend]
  exact Rendezvous.nil _

/-!
## Rounds
-/

/-- Two ranks together go on from two programs to two others. -/
def Meet (r q : Fin n) (a b a' b' : Program value result) : Prop :=
  forall code : Fin n -> Program value result, code r = a -> code q = b ->
    Sync code (Function.update (Function.update code r a') q b')

theorem Meet.send {r q : Fin n} {v : value} {p b : Program value result}
    {next : value -> Program value result} (h : Accepts (r : Int) b next) :
    Meet r q (Program.send q v p) b p (next v) := by
  intro code hr hq
  exact Sync.handover hr (hq ▸ h)

theorem Meet.recv {r q : Fin n} {v : value} {a p : Program value result}
    {next : value -> Program value result} (h : Accepts (q : Int) a next) :
    Meet r q a (Program.send r v p) (next v) p := by
  intro code hr hq
  have hrq : r ≠ q := by
    rintro rfl
    exact h.ne_send r v p (hr.symm.trans hq)
  rw [Function.update_comm hrq]
  exact Sync.handover hq (hr ▸ h)

/-- Both ranks start a send to the other, receive and wait for their send. -/
theorem Meet.exchange {r q : Fin n} (hrq : r ≠ q) {v w : value}
    {next next' : value -> Program value result} :
    Meet r q
      (Program.isend q v (Program.recv q fun x => Program.wait (next x)))
      (Program.isend r w (Program.recv r fun x => Program.wait (next' x)))
      (next w) (next' v) := by
  intro code hr hq
  have hqr : q ≠ r := fun h => hrq h.symm
  let e : Effect value result n :=
    ⟨Program.recv q fun x => Program.wait (next x), some q, Change.push r q v⟩
  let f : Effect value result n :=
    ⟨Program.recv r fun x => Program.wait (next' x), some r, Change.push q r w⟩
  have he : effect (quiet code) (Action.isend r true) = some e := by
    simp [effect, quiet, hr, rankOf?_cast, e]
  have hf : effect (e.apply r (quiet code)) (Action.isend q true) = some f := by
    simp [effect, Effect.apply, quiet, hqr, hq, rankOf?_cast, f]
  let g : Effect value result n :=
    ⟨Program.wait (next' v), some r, Change.pop r q⟩
  let h : Effect value result n :=
    ⟨Program.wait (next w), some q, Change.pop q r⟩
  let s := f.apply q (e.apply r (quiet code))
  have hg : effect s (Action.recv q) = some g := by
    simp [effect, s, Effect.apply, Change.apply, quiet, hrq, rankOf?_cast, e, f, g]
  have hh : effect (g.apply q s) (Action.recv r) = some h := by
    simp [effect, s, Effect.apply, Change.apply, quiet, hrq, hqr, rankOf?_cast,
      e, f, g, h]
  let t := h.apply r (g.apply q s)
  have hwr : effect t (Action.wait r) = some (goOn (next w)) := by
    simp [effect, t, s, Effect.apply, Change.apply, quiet, hrq, e, f, g, h, goOn]
  have hwq : effect ((goOn (next w)).apply r t) (Action.wait q) =
      some (goOn (next' v)) := by
    simp [effect, t, s, Effect.apply, Change.apply, quiet, hrq, hqr, e, f, g, h,
      goOn]
  have hend : (goOn (next' v)).apply q ((goOn (next w)).apply r t) =
      quiet (Function.update (Function.update code r (next w)) q (next' v)) := by
    simp only [t, s, Effect.apply, goOn, e, f, g, h, Change.apply, quiet,
      State.mk.injEq]
    refine ⟨?_, ?_, ?_⟩
    · funext x
      by_cases hxq : x = q
      · simp [hxq]
      · by_cases hxr : x = r
        · simp [hxr, hrq]
        · simp [hxq, hxr]
    · funext x
      by_cases hxq : x = q
      · simp [hxq]
      · by_cases hxr : x = r
        · simp [hxr, hrq]
        · simp [hxq, hxr]
    · funext x
      by_cases hxq : x = (q, r)
      · simp [hxq, hrq]
      · by_cases hxr : x = (r, q)
        · simp [hxr, hrq]
        · simp [hxq, hxr]
  have hnil : Rendezvous ((goOn (next' v)).apply q ((goOn (next w)).apply r t))
      0 (quiet (Function.update (Function.update code r (next w)) q
        (next' v))) := by
    rw [hend]
    exact Rendezvous.nil _
  exact ⟨_, Rendezvous.cons rfl he (Rendezvous.cons rfl hf
    (Rendezvous.cons rfl hg (Rendezvous.cons rfl hh (Rendezvous.cons rfl hwr
      (Rendezvous.cons rfl hwq hnil)))))⟩

/-- A round: the leaders meet their partners, and all other ranks stay as they
are. -/
theorem Sync.round {code code' : Fin n -> Program value result}
    (leaders : Finset (Fin n)) (partner : Fin n -> Fin n)
    (hapart : forall r x, r ∈ leaders -> x ∈ leaders -> r ≠ partner x)
    (hinj : forall r x, r ∈ leaders -> x ∈ leaders -> partner r = partner x ->
      r = x)
    (hmeet : forall r, r ∈ leaders -> Meet r (partner r) (code r)
      (code (partner r)) (code' r) (code' (partner r)))
    (hidle : forall q, q ∉ leaders -> (forall r, r ∈ leaders -> q ≠ partner r) ->
      code' q = code q) : Sync code code' := by
  induction leaders using Finset.induction generalizing code with
  | empty =>
      have hsame : code' = code := by
        funext q
        exact hidle q (Finset.notMem_empty q) fun r hr =>
          absurd hr (Finset.notMem_empty r)
      rw [hsame]
      exact Sync.refl code
  | insert r leaders hr ih =>
      have hself := Finset.mem_insert_self r leaders
      have hmem : forall x, x ∈ leaders -> x ∈ insert r leaders :=
        fun x hx => Finset.mem_insert_of_mem hx
      refine (hmeet r hself code rfl rfl).trans ?_
      apply ih
      · exact fun x y hx hy => hapart x y (hmem x hx) (hmem y hy)
      · exact fun x y hx hy => hinj x y (hmem x hx) (hmem y hy)
      · intro x hx
        have hxr : x ≠ r := fun h => hr (h ▸ hx)
        have hxp : x ≠ partner r := hapart x r (hmem x hx) hself
        have hpr : partner x ≠ r := fun h =>
          hapart r x hself (hmem x hx) h.symm
        have hpp : partner x ≠ partner r := fun h =>
          hxr (hinj x r (hmem x hx) hself h)
        rw [Function.update_of_ne hxp, Function.update_of_ne hxr,
          Function.update_of_ne hpp, Function.update_of_ne hpr]
        exact hmeet x (hmem x hx)
      · intro q hq hother
        by_cases hqp : q = partner r
        · rw [hqp, Function.update_self]
        · rw [Function.update_of_ne hqp]
          by_cases hqr : q = r
          · rw [hqr, Function.update_self]
          · rw [Function.update_of_ne hqr]
            apply hidle q
            · intro h
              exact (Finset.mem_insert.mp h).elim hqr hq
            · intro x hx
              rcases Finset.mem_insert.mp hx with hxr | hxs
              · rw [hxr]
                exact hqp
              · exact hother x hxs

/-!
## Trees
-/

/-- Send a message to several ranks, one after the other. -/
def sendAll (v : value) (next : Program value result) :
    List (Fin n) -> Program value result
  | [] => next
  | q :: rest => Program.send q v (sendAll v next rest)

/-- A value spreads along a tree: every rank but the root first waits for the
value of its parent, and every rank then sends it to its children. -/
structure Tree (root : Fin n) (children : Fin n -> List (Fin n))
    (fin : Fin n -> value -> Program value result)
    (start : Fin n -> Program value result) : Prop where
  nodup : forall r, (children r).Nodup
  accepts : forall r c, c ∈ children r -> c ≠ root ∧
    Accepts (r : Int) (start c) fun v => sendAll v (fin c v) (children c)
  /-- The ranks have parents, and no rank is its own ancestor. -/
  parent : exists depth : Fin n -> Nat, forall c, c ≠ root ->
    exists r, c ∈ children r ∧ depth r < depth c

namespace Tree

variable {root : Fin n} {children : Fin n -> List (Fin n)}
variable {fin : Fin n -> value -> Program value result}
variable {start : Fin n -> Program value result}

/-- The programs when some ranks have the value and still have to send it to
some of their children. -/
def code (fin : Fin n -> value -> Program value result)
    (start : Fin n -> Program value result) (v : value)
    (todo : Fin n -> Option (List (Fin n))) (r : Fin n) :
    Program value result :=
  match todo r with
  | none => start r
  | some l => sendAll v (fin r v) l

/-- The ranks without the value are those that some parent still has to send it
to, and their descendants. -/
structure Front (root : Fin n) (children : Fin n -> List (Fin n))
    (todo : Fin n -> Option (List (Fin n))) : Prop where
  root : exists l, todo root = some l
  nodup : forall r l, todo r = some l -> l.Nodup
  sends : forall r l c, todo r = some l -> c ∈ l ->
    c ∈ children r ∧ todo c = none
  waits : forall r l c, todo r = some l -> c ∈ children r -> todo c = none ->
    c ∈ l
  above : forall r c, c ∈ children r -> todo r = none -> todo c = none

/-- The messages that are still to be sent. -/
def left (children : Fin n -> List (Fin n))
    (todo : Fin n -> Option (List (Fin n))) : Nat :=
  ∑ r, ((todo r).getD (children r)).length

theorem all_informed (h : Tree root children fin start)
    {todo : Fin n -> Option (List (Fin n))} (hf : Front root children todo)
    (hnone : forall r l, todo r = some l -> l = []) (r : Fin n) :
    todo r = some [] := by
  rcases h.parent with ⟨depth, hparent⟩
  induction hd : depth r using Nat.strongRecOn generalizing r with
  | _ d ih =>
      cases hr : todo r with
      | some l => rw [hnone r l hr]
      | none =>
          have hroot : r ≠ root := by
            rintro rfl
            rcases hf.root with ⟨l, hl⟩
            cases hr.symm.trans hl
          rcases hparent r hroot with ⟨p, hp, hdepth⟩
          have hsent := hf.waits p [] r (ih _ (hd ▸ hdepth) p rfl) hp hr
          cases hsent

/-- After the next message of `r`. -/
def send (children : Fin n -> List (Fin n))
    (todo : Fin n -> Option (List (Fin n))) (r c : Fin n)
    (rest : List (Fin n)) : Fin n -> Option (List (Fin n)) :=
  Function.update (Function.update todo r (some rest)) c (some (children c))

theorem send_self (children : Fin n -> List (Fin n))
    (todo : Fin n -> Option (List (Fin n))) (r c : Fin n)
    (rest : List (Fin n)) :
    send children todo r c rest c = some (children c) :=
  Function.update_self _ _ _

theorem send_sender (children : Fin n -> List (Fin n))
    (todo : Fin n -> Option (List (Fin n))) {r c : Fin n} (hrc : r ≠ c)
    (rest : List (Fin n)) : send children todo r c rest r = some rest :=
  (Function.update_of_ne hrc _ _).trans (Function.update_self _ _ _)

theorem send_other (children : Fin n -> List (Fin n))
    (todo : Fin n -> Option (List (Fin n))) {r c x : Fin n} (hxr : x ≠ r)
    (hxc : x ≠ c) (rest : List (Fin n)) :
    send children todo r c rest x = todo x :=
  (Function.update_of_ne hxc _ _).trans (Function.update_of_ne hxr _ _)

theorem send_eq_none_iff {todo : Fin n -> Option (List (Fin n))} {r c : Fin n}
    {l rest : List (Fin n)} (hrc : r ≠ c) (hr : todo r = some l) {x : Fin n} :
    send children todo r c rest x = none <-> x ≠ c ∧ todo x = none := by
  by_cases hxc : x = c
  · simp [hxc, send_self]
  · by_cases hxr : x = r
    · simp [hxr, send_sender children todo hrc rest, hr]
    · simp [send_other children todo hxr hxc, hxc]

theorem parent_unique (h : Tree root children fin start) {r r' c : Fin n}
    (hr : c ∈ children r) (hr' : c ∈ children r') : r = r' := by
  have hsource := (h.accepts r c hr).right.unique (h.accepts r' c hr').right
  exact Fin.ext (by lia)

theorem front_send (h : Tree root children fin start)
    {todo : Fin n -> Option (List (Fin n))} (hf : Front root children todo)
    {r c : Fin n} {rest : List (Fin n)} (hr : todo r = some (c :: rest)) :
    Front root children (send children todo r c rest) := by
  rcases hf.sends r _ c hr List.mem_cons_self with ⟨hchild, hc⟩
  have hrc : r ≠ c := by
    rintro rfl
    cases hr.symm.trans hc
  have hnone : forall x, send children todo r c rest x = none <->
      x ≠ c ∧ todo x = none := fun x => send_eq_none_iff hrc hr
  have hparent : forall x, c ∈ children x -> x = r :=
    fun x hx => h.parent_unique hx hchild
  have hnodup := List.nodup_cons.mp (hf.nodup r _ hr)
  constructor
  case root =>
    apply Option.ne_none_iff_exists'.mp
    intro hroot
    rcases hf.root with ⟨l, hl⟩
    cases hl.symm.trans ((hnone root).mp hroot).right
  case nodup =>
    intro x l hx
    by_cases hxc : x = c
    · rw [hxc, send_self] at hx
      cases hx
      exact h.nodup c
    · by_cases hxr : x = r
      · rw [hxr, send_sender children todo hrc] at hx
        cases hx
        exact hnodup.right
      · rw [send_other children todo hxr hxc] at hx
        exact hf.nodup x l hx
  case sends =>
    intro x l y hx hy
    rw [hnone]
    by_cases hxc : x = c
    · rw [hxc, send_self] at hx
      cases hx
      have hyc : y ≠ c := by
        rintro rfl
        exact hrc (hparent y hy).symm
      exact ⟨hxc ▸ hy, hyc, hf.above c y hy hc⟩
    · by_cases hxr : x = r
      · rw [hxr, send_sender children todo hrc] at hx
        cases hx
        rcases hf.sends r _ y hr (List.mem_cons_of_mem c hy) with ⟨hyr, hnone'⟩
        have hyc : y ≠ c := fun h => hnodup.left (h ▸ hy)
        exact ⟨hxr ▸ hyr, hyc, hnone'⟩
      · rw [send_other children todo hxr hxc] at hx
        rcases hf.sends x l y hx hy with ⟨hyx, hnone'⟩
        have hyc : y ≠ c := fun h => hxr (hparent x (h ▸ hyx))
        exact ⟨hyx, hyc, hnone'⟩
  case waits =>
    intro x l y hx hy hyn
    rcases (hnone y).mp hyn with ⟨hyc, hyn'⟩
    by_cases hxc : x = c
    · rw [hxc, send_self] at hx
      cases hx
      exact hxc ▸ hy
    · by_cases hxr : x = r
      · rw [hxr, send_sender children todo hrc] at hx
        cases hx
        exact (List.mem_cons.mp (hf.waits r _ y hr (hxr ▸ hy) hyn')).resolve_left
          hyc
      · rw [send_other children todo hxr hxc] at hx
        exact hf.waits x l y hx hy hyn'
  case above =>
    intro x y hy hx
    rcases (hnone x).mp hx with ⟨_, hxn⟩
    have hyc : y ≠ c := by
      rintro rfl
      cases (hparent x hy ▸ hr).symm.trans hxn
    exact (hnone y).mpr ⟨hyc, hf.above x y hy hxn⟩

theorem left_send {todo : Fin n -> Option (List (Fin n))}
    {r c : Fin n} {rest : List (Fin n)} (hr : todo r = some (c :: rest))
    (hc : todo c = none) :
    left children (send children todo r c rest) + 1 = left children todo := by
  have hrc : r ≠ c := by
    rintro rfl
    cases hr.symm.trans hc
  have hlen : forall x, ((todo x).getD (children x)).length =
      ((send children todo r c rest x).getD (children x)).length +
        if x = r then 1 else 0 := by
    intro x
    by_cases hxc : x = c
    · subst hxc
      simp [send_self, hc, Ne.symm hrc]
    · by_cases hxr : x = r
      · subst hxr
        simp [send_sender children todo hrc, hr]
      · simp [send_other children todo hxr hxc, hxr]
  simp only [left]
  rw [Finset.sum_congr rfl fun x _ => hlen x, Finset.sum_add_distrib]
  simp

theorem sync_code (h : Tree root children fin start) (v : value)
    {todo : Fin n -> Option (List (Fin n))} (hf : Front root children todo) :
    Sync (code fin start v todo) fun r => fin r v := by
  induction hm : left children todo using Nat.strongRecOn generalizing todo with
  | _ m ih =>
      by_cases hend : forall r l, todo r = some l -> l = []
      · have hsame : code fin start v todo = fun r => fin r v := by
          funext r
          simp [code, h.all_informed hf hend r, sendAll]
        rw [hsame]
        exact Sync.refl _
      · push Not at hend
        rcases hend with ⟨r, l, hr, hl⟩
        cases l with
        | nil => exact absurd rfl hl
        | cons c rest =>
            rcases hf.sends r _ c hr List.mem_cons_self with ⟨hchild, hc⟩
            have hrc : r ≠ c := by
              rintro rfl
              cases hr.symm.trans hc
            have hsend : code fin start v todo r =
                Program.send c v (sendAll v (fin r v) rest) := by
              simp [code, hr, sendAll]
            have haccept : Accepts (r : Int) (code fin start v todo c)
                fun v => sendAll v (fin c v) (children c) := by
              simp only [code, hc]
              exact (h.accepts r c hchild).right
            have hnext := ih _ (by rw [← hm, ← left_send hr hc]; lia)
              (h.front_send hf hr) rfl
            refine (Sync.handover hsend haccept).trans ?_
            convert hnext using 1
            funext x
            by_cases hxc : x = c
            · subst hxc
              simp [code, send_self]
            · by_cases hxr : x = r
              · subst hxr
                simp [code, send_sender children todo hrc, hxc]
              · simp [code, send_other children todo hxr hxc, hxc, hxr]

end Tree

/-- The value of the root gets to all ranks of a tree. -/
theorem Sync.tree {root : Fin n} {children : Fin n -> List (Fin n)}
    {fin : Fin n -> value -> Program value result}
    {start : Fin n -> Program value result}
    (h : Tree root children fin start) {v : value}
    (hroot : start root = sendAll v (fin root v) (children root)) :
    Sync start fun r => fin r v := by
  let todo : Fin n -> Option (List (Fin n)) := fun r =>
    if r = root then some (children root) else none
  have hchild : forall r c, c ∈ children r -> todo c = none :=
    fun r c hc => if_neg (h.accepts r c hc).left
  have hsome : forall r l, todo r = some l -> r = root ∧ l = children root := by
    intro r l hr
    by_cases hroot' : r = root
    · simp only [todo, hroot', if_true] at hr
      exact ⟨hroot', (Option.some_inj.mp hr).symm⟩
    · simp [todo, hroot'] at hr
  have hfront : Tree.Front root children todo := by
    constructor
    case root => exact ⟨children root, if_pos rfl⟩
    case nodup =>
      intro r l hr
      rcases hsome r l hr with ⟨_, rfl⟩
      exact h.nodup root
    case sends =>
      intro r l c hr hc
      rcases hsome r l hr with ⟨rfl, rfl⟩
      exact ⟨hc, hchild r c hc⟩
    case waits =>
      intro r l c hr hc _
      rcases hsome r l hr with ⟨rfl, rfl⟩
      exact hc
    case above =>
      intro r c hc _
      exact hchild r c hc
  convert h.sync_code v hfront using 1
  funext r
  by_cases hr : r = root
  · subst hr
    simp [Tree.code, todo, hroot]
  · simp [Tree.code, todo, hr]

/-!
## One program after the other
-/

/-- Go on with `next` when the programs have returned. -/
def State.bind (s : State value result n)
    (next : Fin n -> result -> Program value result') :
    State value result' n where
  code := fun r => (s.code r).bind (next r)
  pending := s.pending
  chan := s.chan

def Effect.bind (e : Effect value result n)
    (next : result -> Program value result') : Effect value result' n :=
  ⟨e.code.bind next, e.pending, e.change⟩

theorem effect_bind {s : State value result n} {a : Action n}
    {e : Effect value result n} (h : effect s a = some e)
    (next : Fin n -> result -> Program value result') :
    effect (s.bind next) a = some (e.bind (next a.rank)) := by
  cases a with
  | send r sync =>
      simp only [effect] at h
      split at h
      · rename_i hcode hpending
        rcases Option.map_eq_some_iff.mp h with ⟨q, hq, rfl⟩
        cases sync <;>
          simp [effect, State.bind, hcode, hpending, Program.bind, hq,
            Effect.bind, Action.rank]
      · cases h
  | isend r sync =>
      simp only [effect] at h
      split at h
      · rename_i hcode hpending
        rcases Option.map_eq_some_iff.mp h with ⟨q, hq, rfl⟩
        simp [effect, State.bind, hcode, hpending, Program.bind, hq,
          Effect.bind, Action.rank]
      · cases h
  | wait r =>
      simp only [effect] at h
      split at h
      · rename_i hcode hpending
        cases h
        simp [effect, State.bind, hcode, hpending, Program.bind, Effect.bind,
          Action.rank]
      · rename_i hcode hpending
        split at h
        · rename_i hchan
          cases h
          simp [effect, State.bind, hcode, hpending, hchan, Program.bind,
            Effect.bind, Action.rank]
        · cases h
      · cases h
  | recv r =>
      simp only [effect] at h
      split at h
      · rename_i hcode
        rcases Option.bind_eq_some_iff.mp h with ⟨q, hq, h'⟩
        split at h'
        · rename_i hchan
          cases h'
          simp [effect, State.bind, hcode, hq, hchan, Program.bind, Effect.bind,
            Action.rank]
        · cases h'
      · cases h
  | test r =>
      simp only [effect] at h
      split at h
      · rename_i hcode
        rcases Option.bind_eq_some_iff.mp h with ⟨q, hq, h'⟩
        split at h'
        · rename_i hchan
          cases h'
          simp [effect, State.bind, hcode, hq, hchan, Program.bind, Effect.bind,
            Action.rank]
        · cases h'
      · cases h
  | miss r => cases h

theorem Rendezvous.bind {s t : State value result n} {m : Nat}
    (h : Rendezvous s m t) (next : Fin n -> result -> Program value result') :
    Rendezvous (s.bind next) m (t.bind next) := by
  induction h with
  | nil s => exact Rendezvous.nil _
  | cons hw he hrest ih =>
      rename_i s t a m e
      refine Rendezvous.cons hw (effect_bind he next) ?_
      have happly : (e.bind (next a.rank)).apply a.rank (s.bind next) =
          (e.apply a.rank s).bind next := by
        simp only [Effect.apply, Effect.bind, State.bind, State.mk.injEq,
          and_true]
        funext r
        by_cases hr : r = a.rank
        · subst hr
          simp
        · simp [Function.update_of_ne hr]
      rw [happly]
      exact ih

theorem Sync.bind {code : Fin n -> Program value result}
    {res : Fin n -> result} (h : Sync code fun r => Program.ret (res r))
    (next : Fin n -> result -> Program value result') :
    Sync (fun r => (code r).bind (next r)) fun r => next r (res r) := by
  rcases h with ⟨m, hm⟩
  exact ⟨m, hm.bind next⟩

end Communicator
end Foundation
end IPPD
