import IPPD.HPL.Reduce
import Mathlib.Data.Prod.Lex

/-!
# The pivot row

`HPL_pdmxswp` finds the row of the process column with the greatest entry in the
current column of the panel, and sends it to all processes together with the
current row, with which it is to change places.  The processes up to the
greatest power of two exchange what they have over a hypercube; the others hand
theirs in before and get the result afterwards.

The entries are those of any linear order, so that they are no NaN.  The panel
has at least one column, and the MPI calls succeed.
-/

namespace IPPD
namespace HPL

open Foundation
open Foundation.Communicator (Sync Delivers Meet Accepts)

universe u v

variable {α : Type u} {n : Nat}

/-!
## The workspace
-/

/-- What `HPL_dlocmax` finds: `WORK[0:3]`.  All but the first are integers. -/
structure LocMax (α : Type u) where
  gmax : α
  ilindx : Nat
  igindx : Int
  owner : Int

/-- The first part of the workspace, with the row `Wmx` behind the entries of
`HPL_dlocmax`. -/
structure MaxRow (α : Type u) extends LocMax α where
  wmx : List α

/-- The workspace, with the current row `A0` at the end. -/
structure Work (α : Type u) where
  max : MaxRow α
  a0 : List α

/-- What is sent of the workspace: `cnt_` entries are the first part, `n0` entries
are the current row and `cnt0` entries are both. -/
structure Message (α : Type u) where
  max : Option (MaxRow α)
  a0 : Option (List α)

section Order

variable [LinearOrder α] [Zero α] [Neg α]

def mabs (a : α) : α := if a < 0 then -a else a

/-- Between rows with maxima of the same size the one of the process that comes
first wins. -/
def combine (work wwork : MaxRow α) : MaxRow α :=
  let tmp1 := mabs wwork.gmax
  let gmax := mabs work.gmax
  if tmp1 > gmax ∨ tmp1 = gmax ∧ wwork.owner < work.owner then wwork else work

namespace Work

def receiveMax (work : Work α) (wwork : Message α) : Work α :=
  { work with max := wwork.max.elim work.max (combine work.max) }

end Work

end Order

def Work.receiveRow (work : Work α) (wwork : Message α) : Work α :=
  { work with a0 := wwork.a0.getD work.a0 }

/-- The result takes the place of the first part. -/
def Work.replaceMax (work : Work α) (m : Message α) : Work α :=
  { work with max := m.max.getD work.max }

/-!
## The program
-/

/-- `HPL_sdrv` posts a receive, sends and waits for the receive; which of the two
messages goes first is left open. -/
def sdrv {result : Type v} (partner : Int) (sbuf : Message α)
    (next : Message α -> Program (Message α) result) :
    Program (Message α) result :=
  Program.isend partner sbuf
    (Program.recv partner fun rbuf => Program.wait (next rbuf))

section Programs

variable [LinearOrder α] [Zero α] [Neg α]
variable (icurrow nprow : Int) (mydist ip2 : Nat)

/-- The processes that are not part of the hypercube hand in their rows.  The
first of them gets the current row in return. -/
def mxswpFold (work : Work α) : Program (Message α) (Work α) :=
  let partner := mydist ^^^ ip2
  if nprow - ip2 ≠ 0 ∧ partner < nprow then
    let dest := mModAdd partner icurrow nprow
    if mydist &&& ip2 ≠ 0 then
      if mydist = ip2 then
        sdrv dest ⟨some work.max, none⟩ fun m => Program.ret (work.receiveRow m)
      else Program.send dest ⟨some work.max, none⟩ (Program.ret work)
    else
      if mydist = 0 then
        sdrv dest ⟨none, some work.a0⟩ fun m => Program.ret (work.receiveMax m)
      else Program.recv dest fun m => Program.ret (work.receiveMax m)
  else Program.ret work

/-- `scnt` entries. -/
def exchangeSend (k : Nat) (work : Work α) : Message α :=
  if mydist >>> (k + 1) = 0 ∧ mydist >>> k = 0 then
    ⟨some work.max, some work.a0⟩
  else ⟨some work.max, none⟩

/-- `rcnt` entries.  The current row is taken along, whosever maximum wins. -/
def exchangeReceive (k : Nat) (work : Work α) (wwork : Message α) : Work α :=
  if mydist >>> (k + 1) = 0 ∧ mydist >>> k ≠ 0 then
    (work.receiveMax wwork).receiveRow wwork
  else work.receiveMax wwork

/-- The loop `while( k < hdim )`, with `hdim - k` rounds left. -/
def mxswpExchange : Nat -> Nat -> Nat -> Work α ->
    Program (Message α) (Work α)
  | 0, _, _, work => Program.ret work
  | left + 1, k, ipow, work =>
      let partner := mydist ^^^ ipow
      sdrv (mModAdd partner icurrow nprow) (exchangeSend mydist k work)
        fun m =>
          mxswpExchange left (k + 1) (ipow <<< 1)
            (exchangeReceive mydist k work m)

/-- The first process that is not part of the hypercube broadcasts the current
row to those behind it. -/
def mxswpRow (myrow : Int) (work : Work α) : Program (Message α) (Work α) :=
  let size := nprow - ip2
  if size > 1 then
    let masks := halving (size - 1).toNat 1 1
    let root := mModAdd icurrow ip2 nprow
    let mydis := (mModSub myrow root nprow).toNat
    (broadcastLoop root nprow size mydis masks.1 masks.2
      ⟨none, some work.a0⟩).bind fun m => Program.ret (work.receiveRow m)
  else Program.ret work

/-- The processes that are not part of the hypercube get the result. -/
def mxswpFanOut (work : Work α) : Program (Message α) (Work α) :=
  let partner := mydist ^^^ ip2
  if nprow - ip2 ≠ 0 ∧ partner < nprow then
    let dest := mModAdd partner icurrow nprow
    if mydist &&& ip2 ≠ 0 then
      Program.recv dest fun m => Program.ret (work.replaceMax m)
    else Program.send dest ⟨some work.max, none⟩ (Program.ret work)
  else Program.ret work

end Programs

/-- The messages of `HPL_pdmxswp`.  `row_ip2` and `row_hdim` of the grid are those
of `HPL_grid_init`. -/
def mxswp [LinearOrder α] [Zero α] [Neg α] (icurrow nprow myrow : Int)
    (work : Work α) : Program (Message α) (Work α) :=
  let ip2 := (halving nprow.toNat 1 1).1
  let hdim := rounds nprow.toNat 0
  let mydist := (mModSub myrow icurrow nprow).toNat
  (mxswpFold icurrow nprow mydist ip2 work).bind fun work =>
    (if mydist < ip2 then mxswpExchange icurrow nprow mydist hdim 0 1 work
    else mxswpRow icurrow nprow ip2 myrow work).bind fun work =>
      mxswpFanOut icurrow nprow mydist ip2 work

/-!
## The best of some rows
-/

section Best

variable [LinearOrder α] [Zero α] [Neg α]

/-- Rows are compared by the size of their maximum, and then by their owner. -/
def MaxRow.key (w : MaxRow α) : α ×ₗ Intᵒᵈ :=
  toLex (mabs w.gmax, OrderDual.toDual w.owner)

theorem combine_eq (w v : MaxRow α) :
    combine w v = if w.key < v.key then v else w := by
  have hkey : w.key < v.key <->
      mabs v.gmax > mabs w.gmax ∨
        mabs v.gmax = mabs w.gmax ∧ v.owner < w.owner := by
    rw [MaxRow.key, MaxRow.key, Prod.Lex.toLex_lt_toLex]
    simp only [OrderDual.toDual_lt_toDual]
    exact or_congr_right (and_congr_left fun _ => eq_comm)
  simp only [combine, hkey]

/-- The row is one of the rows of `S`, and there is none above it. -/
def Best (row : Fin n -> MaxRow α) (S : Fin n -> Prop) (w : MaxRow α) : Prop :=
  (exists r, S r ∧ row r = w) ∧ forall r, S r -> (row r).key ≤ w.key

variable {row : Fin n -> MaxRow α}

theorem Best.combine {S T : Fin n -> Prop} {w v : MaxRow α}
    (hw : Best row S w) (hv : Best row T v) :
    Best row (fun r => S r ∨ T r) (combine w v) := by
  rcases hw with ⟨⟨q, hq, rfl⟩, hw⟩
  rcases hv with ⟨⟨x, hx, rfl⟩, hv⟩
  rw [combine_eq]
  split
  case isTrue hlt =>
      refine ⟨⟨x, Or.inr hx, rfl⟩, ?_⟩
      rintro r (hr | hr)
      · exact (hw r hr).trans hlt.le
      · exact hv r hr
  case isFalse hle =>
      refine ⟨⟨q, Or.inl hq, rfl⟩, ?_⟩
      rintro r (hr | hr)
      · exact hw r hr
      · exact (hv r hr).trans (not_lt.mp hle)

theorem Best.congr {S T : Fin n -> Prop} {w : MaxRow α} (hw : Best row S w)
    (h : forall r, S r <-> T r) : Best row T w := by
  have hST : S = T := funext fun r => propext (h r)
  exact hST ▸ hw

theorem best_self (r : Fin n) : Best row (fun q => q = r) (row r) :=
  ⟨⟨r, rfl, rfl⟩, fun _ hq => hq ▸ le_rfl⟩

/-- Rows with the same key are the same row, as rows of the same owner are. -/
def Separated (row : Fin n -> MaxRow α) : Prop :=
  forall r q, (row r).key = (row q).key -> row r = row q

theorem Best.unique (hrow : Separated row) {S : Fin n -> Prop} {w v : MaxRow α}
    (hw : Best row S w) (hv : Best row S v) : w = v := by
  rcases hw with ⟨⟨q, hq, rfl⟩, hw⟩
  rcases hv with ⟨⟨x, hx, rfl⟩, hv⟩
  exact hrow q x (le_antisymm (hv q hq) (hw x hx))

end Best

/-!
## Handing in the rows
-/

theorem exchangeSend_max (d k : Nat) (work : Work α) :
    (exchangeSend d k work).max = some work.max := by
  unfold exchangeSend
  split <;> rfl

section Phases

variable [LinearOrder α] [Zero α] [Neg α]
variable (root : Fin n) (dim : Nat)

/-- The rows that a process of the hypercube stands for when the rounds below `k`
are done. -/
def covered (k : Nat) (r q : Fin n) : Prop :=
  distance root q % 2 ^ dim / 2 ^ k = distance root r / 2 ^ k

/-- The workspaces after the rows have been handed in. -/
def folded (work : Fin n -> Work α) (r : Fin n) : Work α :=
  if distance root r + 2 ^ dim < n then
    (work r).receiveMax ⟨some (work (across root dim r)).max, none⟩
  else if distance root r = 2 ^ dim then
    (work r).receiveRow ⟨none, some (work root).a0⟩
  else work r

variable {root dim}

theorem not_testBit_of_lt {d : Nat} (h : d < 2 ^ dim) :
    d.testBit dim = false :=
  Nat.testBit_lt_two_pow h

theorem opposite_of_room (hlast : n < 2 ^ (dim + 1)) {r q : Fin n}
    (h : distance root r + 2 ^ dim < n)
    (hq : distance root q = distance root r + 2 ^ dim) :
    Opposite root dim r q := by
  refine ⟨not_testBit_of_lt ?_, hq⟩
  rw [Nat.pow_succ] at hlast
  lia

theorem sync_fold (hfirst : 2 ^ dim ≤ n) (hlast : n < 2 ^ (dim + 1))
    (work : Fin n -> Work α) :
    Sync
      (fun r => mxswpFold root n (distance root r) (2 ^ dim) (work r))
      fun r => Program.ret (folded root dim work r) := by
  have hpow : 2 ^ (dim + 1) = 2 ^ dim + 2 ^ dim := by
    rw [Nat.pow_succ]
    lia
  apply sync_across root dim (fun d => d + 2 ^ dim < n)
  · intro d hd
    exact ⟨not_testBit_of_lt (by lia), hd⟩
  · intro r q hr hq
    have h := opposite_of_room hlast hr hq
    have hsize : ((n : Int) - (2 ^ dim : Nat) ≠ 0) := by lia
    have hup : ((distance root r ^^^ 2 ^ dim : Nat) : Int) < n := by
      rw [Hypercube.xor_across h.bit]
      exact_mod_cast hr
    have hdown : ((distance root q ^^^ 2 ^ dim : Nat) : Int) < n := by
      rw [hq, Hypercube.xor_back h.bit]
      exact_mod_cast distance_lt root r
    have hacross : across root dim r = q := by
      apply distance_injective root
      rw [distance_across hr, hq]
    have hroom : ¬ distance root q + 2 ^ dim < n := by lia
    have hzero : distance root q = 2 ^ dim <-> distance root r = 0 := by lia
    simp only [mxswpFold, folded, h.up, h.down, h.land_low, h.land_high, hsize,
      hup, hdown, hacross, hr, hroom, hzero, ne_eq, not_true_eq_false,
      not_false_eq_true, and_self, if_true, if_false]
    by_cases hstart : distance root r = 0
    · have hwork : work root = work r := by rw [distance_eq_zero.mp hstart]
      simp only [hstart, if_true, hwork, sdrv]
      exact Meet.exchange h.ne
    · simp only [hstart, if_false]
      exact Meet.recv (Accepts.recv _)
  · intro q hq hother
    have hnone : ¬ ((n : Int) - (2 ^ dim : Nat) ≠ 0 ∧
        ((distance root q ^^^ 2 ^ dim : Nat) : Int) < n) := by
      rintro ⟨hsize, hpartner⟩
      by_cases hlow : distance root q < 2 ^ dim
      · rw [Hypercube.xor_across (not_testBit_of_lt hlow)] at hpartner
        exact hq (by exact_mod_cast hpartner)
      · have hlt := distance_lt root q
        exact hother (distance root q - 2 ^ dim) (by lia) (by lia)
    have hstart : distance root q ≠ 2 ^ dim := by
      intro h
      have hlt := distance_lt root q
      exact hother 0 (by lia) (by lia)
    simp only [mxswpFold, folded, hnone, hq, hstart, if_false]

theorem best_folded (hlast : n < 2 ^ (dim + 1)) (work : Fin n -> Work α)
    {r : Fin n} (hr : distance root r < 2 ^ dim) :
    Best (fun q => (work q).max) (covered root dim 0 r)
      (folded root dim work r).max := by
  have hmod : forall q, distance root q % 2 ^ dim =
      if distance root q < 2 ^ dim then distance root q
      else distance root q - 2 ^ dim := by
    intro q
    have hq := distance_lt root q
    rw [Nat.pow_succ] at hlast
    exact mod_of_lt_two_mul (by lia)
  unfold folded covered
  simp only [Nat.pow_zero, Nat.div_one, hmod]
  by_cases hroom : distance root r + 2 ^ dim < n
  · rw [if_pos hroom]
    refine ((best_self r).combine (best_self (across root dim r))).congr ?_
    intro q
    rw [← (distance_injective root).eq_iff, ← (distance_injective root).eq_iff,
      distance_across hroom]
    split <;> lia
  · rw [if_neg hroom, if_neg hr.ne]
    refine (best_self r).congr ?_
    intro q
    have hq := distance_lt root q
    rw [← (distance_injective root).eq_iff]
    split <;> lia

/-!
## Exchanging the rows
-/

/-- The programs when the rounds below `k` are done.  The other processes have
something else to do. -/
def exchangeCode (root : Fin n) (dim : Nat)
    (other : Fin n -> Program (Message α) (Work α)) (k : Nat)
    (state : Fin n -> Work α) (r : Fin n) : Program (Message α) (Work α) :=
  if distance root r < 2 ^ dim then
    mxswpExchange root n (distance root r) (dim - k) k (2 ^ k) (state r)
  else other r

/-- The neighbour across dimension `k`, on either side. -/
def neighbour (root : Fin n) (k : Nat) (r : Fin n) : Fin n :=
  if (distance root r).testBit k then
    atDistance root ⟨distance root r - 2 ^ k,
      (Nat.sub_le _ _).trans_lt (distance_lt root r)⟩
  else across root k r

/-- The workspaces after the round across dimension `k`. -/
def exchanged (root : Fin n) (dim k : Nat) (state : Fin n -> Work α)
    (r : Fin n) : Work α :=
  if distance root r < 2 ^ dim then
    exchangeReceive (distance root r) k (state r)
      (exchangeSend (distance root (neighbour root k r)) k
        (state (neighbour root k r)))
  else state r

theorem lt_two_pow_across {d k : Nat} (hk : k < dim) (hd : d < 2 ^ dim)
    (hbit : d.testBit k = false) : d + 2 ^ k < 2 ^ dim := by
  rw [← Hypercube.xor_across hbit]
  exact Nat.xor_lt_two_pow hd (Nat.pow_lt_pow_right (by lia) hk)

theorem Opposite.neighbour_low {k : Nat} {r q : Fin n}
    (h : Opposite root k r q) : neighbour root k r = q := by
  have hroom : distance root r + 2 ^ k < n := h.next ▸ distance_lt root q
  apply distance_injective root
  rw [neighbour, h.bit, if_neg Bool.false_ne_true, distance_across hroom, h.next]

theorem Opposite.neighbour_high {k : Nat} {r q : Fin n}
    (h : Opposite root k r q) : neighbour root k q = r := by
  have hbit : (distance root q).testBit k = true := by
    rw [h.next, Nat.add_comm, Nat.testBit_two_pow_add_eq, h.bit]
    rfl
  have hback : distance root q - 2 ^ k = distance root r := by
    rw [h.next, Nat.add_sub_cancel]
  apply distance_injective root
  rw [neighbour, if_pos hbit, distance_atDistance]
  exact hback

theorem exists_below {k : Nat} {q : Fin n}
    (hbit : (distance root q).testBit k = true) :
    exists r, Opposite root k r q := by
  have hback : (distance root q ^^^ 2 ^ k).testBit k = false := by
    rw [Nat.testBit_xor, hbit, Nat.testBit_two_pow_self]
    rfl
  have hsum := Hypercube.xor_across hback
  rw [Nat.xor_assoc, Nat.xor_self, Nat.xor_zero] at hsum
  have hlt : distance root q ^^^ 2 ^ k < n := by
    have hq := distance_lt root q
    lia
  have hr : distance root (atDistance root ⟨distance root q ^^^ 2 ^ k, hlt⟩) =
      distance root q ^^^ 2 ^ k := distance_atDistance root _
  exact ⟨_, by rw [hr]; exact hback, by rw [hr]; exact hsum⟩

theorem sync_exchange_round {k : Nat} (hk : k < dim) (hfirst : 2 ^ dim ≤ n)
    (other : Fin n -> Program (Message α) (Work α)) (state : Fin n -> Work α) :
    Sync (exchangeCode root dim other k state)
      (exchangeCode root dim other (k + 1) (exchanged root dim k state)) := by
  apply sync_across root k fun d => d < 2 ^ dim ∧ d.testBit k = false
  · intro d hd
    exact ⟨hd.right, (lt_two_pow_across hk hd.left hd.right).trans_le hfirst⟩
  · intro r q hr hq
    have h : Opposite root k r q := ⟨hr.right, hq⟩
    have hq' : distance root q < 2 ^ dim :=
      hq ▸ lt_two_pow_across hk hr.left hr.right
    have hleft : dim - k = dim - (k + 1) + 1 := by lia
    simp only [exchangeCode, exchanged, hr.left, hq', if_true, hleft,
      mxswpExchange, h.up, h.down, h.neighbour_low, h.neighbour_high, sdrv,
      Hypercube.two_pow_shiftLeft]
    exact Meet.exchange h.ne
  · intro q hq hother
    have hout : ¬ distance root q < 2 ^ dim := by
      intro hlt
      have hbit : (distance root q).testBit k = true := by
        simpa [hlt] using hq
      rcases exists_below hbit with ⟨r, hr⟩
      have hnext := hr.next
      exact hother _ ⟨by lia, hr.bit⟩ hnext
    simp only [exchangeCode, hout, if_false]

/-- Before the round across dimension `k` a process has the best of the rows it
stands for, and the first `2 ^ k` processes have the current row `a0`. -/
structure Merged (root : Fin n) (dim : Nat) (work : Fin n -> Work α) (k : Nat)
    (state : Fin n -> Work α) : Prop where
  best : forall r, distance root r < 2 ^ dim ->
    Best (fun q => (work q).max) (covered root dim k r) (state r).max
  row : forall r, distance root r < 2 ^ k -> (state r).a0 = (work root).a0

theorem exchangeReceive_max (d k : Nat) (work : Work α) (m : Message α) :
    (exchangeReceive d k work m).max = (work.receiveMax m).max := by
  unfold exchangeReceive
  split <;> rfl

theorem Opposite.covered_or {k : Nat} {r q : Fin n} (h : Opposite root k r q)
    (x : Fin n) :
    (covered root dim k r x ∨ covered root dim k q x <->
      covered root dim (k + 1) r x) ∧
    (covered root dim k q x ∨ covered root dim k r x <->
      covered root dim (k + 1) q x) := by
  have heven := Hypercube.even_of_testBit h.bit
  unfold covered
  rw [h.next, Nat.pow_succ, ← Nat.div_div_eq_div_mul, ← Nat.div_div_eq_div_mul,
    ← Nat.div_div_eq_div_mul, Nat.add_div_right _ (Nat.two_pow_pos k)]
  lia

theorem Merged.next {work state : Fin n -> Work α} {k : Nat}
    (h : Merged root dim work k state) (hk : k < dim) (hfirst : 2 ^ dim ≤ n) :
    Merged root dim work (k + 1) (exchanged root dim k state) := by
  have hacross : forall r, distance root r < 2 ^ dim ->
      (distance root r).testBit k = false ->
        Opposite root k r (across root k r) ∧
          distance root (across root k r) < 2 ^ dim := by
    intro r hr hbit
    have hlt := lt_two_pow_across hk hr hbit
    have hnext := distance_across (hlt.trans_le hfirst)
    exact ⟨⟨hbit, hnext⟩, hnext ▸ hlt⟩
  have hmax : forall r q, distance root r < 2 ^ dim -> neighbour root k r = q ->
      (exchanged root dim k state r).max =
        combine (state r).max (state q).max := by
    intro r q hr hq
    rw [exchanged, if_pos hr, exchangeReceive_max, hq, Work.receiveMax,
      exchangeSend_max]
    rfl
  constructor
  case best =>
    intro r hr
    cases hbit : (distance root r).testBit k with
    | false =>
        rcases hacross r hr hbit with ⟨hop, hq⟩
        rw [hmax r _ hr hop.neighbour_low]
        exact ((h.best r hr).combine (h.best _ hq)).congr fun x =>
          (hop.covered_or x).left
    | true =>
        rcases exists_below hbit with ⟨q, hop⟩
        have hq : distance root q < 2 ^ dim := by
          have hnext := hop.next
          lia
        rw [hmax r q hr hop.neighbour_high]
        exact ((h.best r hr).combine (h.best q hq)).congr fun x =>
          (hop.covered_or x).right
  case row =>
    intro r hr
    have hdim : distance root r < 2 ^ dim :=
      hr.trans_le (Nat.pow_le_pow_right (by lia) hk)
    rw [Nat.pow_succ] at hr
    cases hbit : (distance root r).testBit k with
    | false =>
        have heven := Hypercube.even_of_testBit hbit
        have hquot : distance root r / 2 ^ k < 2 :=
          Nat.div_lt_of_lt_mul (by lia)
        have hzero : distance root r >>> k = 0 := by
          rw [Nat.shiftRight_eq_div_pow]
          lia
        have hlow : distance root r < 2 ^ k := by
          rw [Nat.shiftRight_eq_div_pow] at hzero
          exact Nat.lt_of_div_eq_zero (Nat.two_pow_pos k) hzero
        rw [exchanged, if_pos hdim, exchangeReceive, hzero,
          if_neg fun hreceives => hreceives.right rfl]
        exact h.row r hlow
    | true =>
        rcases exists_below hbit with ⟨q, hop⟩
        have hnext := hop.next
        have hq : distance root q < 2 ^ k := by lia
        have hsends : distance root q >>> (k + 1) = 0 ∧
            distance root q >>> k = 0 := by
          rw [Nat.shiftRight_eq_div_pow, Nat.shiftRight_eq_div_pow,
            Nat.div_eq_of_lt hq, Nat.div_eq_of_lt (by rw [Nat.pow_succ]; lia)]
          exact ⟨rfl, rfl⟩
        have hreceives : distance root r >>> (k + 1) = 0 ∧
            distance root r >>> k ≠ 0 := by
          rw [Nat.shiftRight_eq_div_pow, Nat.shiftRight_eq_div_pow,
            Nat.div_eq_of_lt (by rw [Nat.pow_succ]; lia), hnext,
            Nat.add_div_right _ (Nat.two_pow_pos k)]
          exact ⟨rfl, Nat.succ_ne_zero _⟩
        rw [exchanged, if_pos hdim, exchangeReceive, if_pos hreceives,
          hop.neighbour_high, exchangeSend, if_pos hsends]
        exact h.row q hq

theorem sync_exchange (hfirst : 2 ^ dim ≤ n)
    (other : Fin n -> Program (Message α) (Work α)) {work : Fin n -> Work α}
    {k : Nat} (hk : k ≤ dim) {state : Fin n -> Work α}
    (h : Merged root dim work 0 state) :
    exists state', Merged root dim work k state' ∧
      (forall r, 2 ^ dim ≤ distance root r -> state' r = state r) ∧
      Sync (exchangeCode root dim other 0 state)
        (exchangeCode root dim other k state') := by
  induction k with
  | zero => exact ⟨state, h, fun _ _ => rfl, Sync.refl _⟩
  | succ k ih =>
      rcases ih (Nat.le_of_succ_le hk) with ⟨state', h', hsame, hsync⟩
      refine ⟨exchanged root dim k state', h'.next hk hfirst, ?_,
        hsync.trans (sync_exchange_round hk hfirst other state')⟩
      intro r hr
      rw [exchanged, if_neg (Nat.not_lt.mpr hr), hsame r hr]

end Phases

/-!
## The other processes
-/

section Others

variable {root : Fin n} {dim : Nat}

theorem sync_row (root : Fin n) (hroom : 2 ^ dim < n)
    (other : Fin n -> Program (Message α) (Work α)) (state : Fin n -> Work α) :
    Sync
      (fun r =>
        if distance root r < 2 ^ dim then other r
        else mxswpRow root n (2 ^ dim) r (state r))
      fun r =>
        if distance root r < 2 ^ dim then other r
        else Program.ret
          { state r with a0 := (state (atDistance root ⟨2 ^ dim, hroom⟩)).a0 } := by
  generalize hfirst : atDistance root ⟨2 ^ dim, hroom⟩ = first
  have hdist : forall r, distance root r < 2 ^ dim <->
      ¬ distance first r < n - 2 ^ dim := by
    intro r
    have hr := distance_lt root r
    rw [← hfirst, distance_atDistance_root]
    split <;> lia
  have hself : ¬ distance root first < 2 ^ dim := by
    rw [← hfirst, distance_atDistance]
    exact lt_irrefl _
  have hloop := (sync_broadcastLoop first (Nat.sub_le n (2 ^ dim))
    fun r => (⟨none, some (state r).a0⟩ : Message α)).bind fun r m =>
      if distance root r < 2 ^ dim then other r
      else Program.ret ((state r).receiveRow m)
  convert hloop using 1
  · funext r
    by_cases hr : distance root r < 2 ^ dim
    · rw [if_pos hr, if_neg ((hdist r).mp hr), Program.bind, if_pos hr]
    · have hroot := mModAdd_eq_atDistance root ⟨2 ^ dim, hroom⟩
      rw [hfirst] at hroot
      have hsize : (n : Int) - (2 ^ dim : Nat) = (n - 2 ^ dim : Nat) := by lia
      have hpred : (((n - 2 ^ dim : Nat) : Int) - 1).toNat = n - 2 ^ dim - 1 := by
        lia
      rw [if_neg hr, if_pos (not_not.mp (mt (hdist r).mpr hr)), mxswpRow]
      simp only [hsize, hpred, hroot, mModSub_eq_distance, Int.toNat_natCast, hr,
        if_false]
      split
      case isTrue _ => rfl
      case isFalse hone =>
        -- the broadcast has one process only, and no message
        have hlast : r = first := by
          have hr' := not_not.mp (mt (hdist r).mpr hr)
          exact distance_eq_zero.mp (by lia)
        have hzero : n - 2 ^ dim - 1 = 0 := by lia
        have hone' : ¬ 1 < n - 2 ^ dim := by lia
        rw [hlast, distance_self, hzero, halving, if_neg (by lia), broadcastLoop]
        simp [hone', Program.bind, Work.receiveRow]
  · funext r
    by_cases hr : distance root r < 2 ^ dim
    · rw [if_pos hr, if_pos hr]
    · rw [if_neg hr, if_neg hr, if_pos (not_not.mp (mt (hdist r).mpr hr))]
      rfl

theorem sync_fanOut (hlast : n < 2 ^ (dim + 1)) {state : Fin n -> Work α}
    {result : Work α}
    (hhead : forall r, distance root r < 2 ^ dim -> state r = result)
    (hrow : forall r, (state r).a0 = result.a0) :
    Sync
      (fun r => mxswpFanOut root n (distance root r) (2 ^ dim) (state r))
      fun _ => Program.ret result := by
  apply sync_across root dim (fun d => d + 2 ^ dim < n)
  · intro d hd
    rw [Nat.pow_succ] at hlast
    exact ⟨not_testBit_of_lt (by lia), hd⟩
  · intro r q hr hq
    have h := opposite_of_room hlast hr hq
    have hsize : ((n : Int) - (2 ^ dim : Nat) ≠ 0) := by lia
    have hup : ((distance root r ^^^ 2 ^ dim : Nat) : Int) < n := by
      rw [Hypercube.xor_across h.bit]
      exact_mod_cast hr
    have hdown : ((distance root q ^^^ 2 ^ dim : Nat) : Int) < n := by
      rw [hq, Hypercube.xor_back h.bit]
      exact_mod_cast distance_lt root r
    have hlow : distance root r < 2 ^ dim := by
      rw [Nat.pow_succ] at hlast
      lia
    have hresult : (state q).replaceMax ⟨some result.max, none⟩ = result := by
      rw [Work.replaceMax, hrow q]
      rfl
    simp only [mxswpFanOut, h.up, h.down, h.land_low, h.land_high, hsize, hup,
      hdown, ne_eq, not_true_eq_false, not_false_eq_true, and_self, if_true,
      if_false, hhead r hlow]
    have hmeet : Meet r q _ _ _ _ := Meet.send (v := ⟨some result.max, none⟩)
      (p := Program.ret result)
      (Accepts.recv fun m => Program.ret ((state q).replaceMax m))
    rw [hresult] at hmeet
    exact hmeet
  · intro q hq hother
    have hlow : distance root q < 2 ^ dim := by
      by_contra hhigh
      have hlt := distance_lt root q
      exact hother (distance root q - 2 ^ dim) (by lia) (by lia)
    have hnone : ¬ ((n : Int) - (2 ^ dim : Nat) ≠ 0 ∧
        ((distance root q ^^^ 2 ^ dim : Nat) : Int) < n) := by
      rintro ⟨_, hpartner⟩
      rw [Hypercube.xor_across (not_testBit_of_lt hlow)] at hpartner
      exact hq (by exact_mod_cast hpartner)
    simp only [mxswpFanOut, hnone, if_false, hhead q hlow]

end Others

/-!
## The whole exchange
-/

section Whole

variable [LinearOrder α] [Zero α] [Neg α]

theorem mxswp_eq (root r : Fin n) (work : Work α) :
    mxswp root n r work =
      (mxswpFold root n (distance root r) (2 ^ Nat.log2 n) work).bind
        fun work =>
          (if distance root r < 2 ^ Nat.log2 n then
            mxswpExchange root n (distance root r) (Nat.log2 n) 0 1 work
          else mxswpRow root n (2 ^ Nat.log2 n) r work).bind fun work =>
            mxswpFanOut root n (distance root r) (2 ^ Nat.log2 n) work := by
  have hmasks : (halving n 1 1).1 = 2 ^ Nat.log2 n := by
    simpa using congrArg Prod.fst (halving_eq n 0)
  have hrounds : rounds n 0 = Nat.log2 n := by rw [rounds_eq, Nat.zero_add]
  simp only [mxswp, Int.toNat_natCast, hmasks, hrounds, mModSub_eq_distance]

/-- All processes get the best of the rows and the current row of the root. -/
theorem sync_mxswp (root : Fin n) {work : Fin n -> Work α}
    (hwork : Separated fun r => (work r).max) :
    exists best, Best (fun r => (work r).max) (fun _ => True) best ∧
      Sync (fun r : Fin n => mxswp root n r (work r))
        fun _ => Program.ret ⟨best, (work root).a0⟩ := by
  have hn : n ≠ 0 := root.pos.ne'
  generalize hdim : Nat.log2 n = dim
  have hfirst : 2 ^ dim ≤ n := hdim ▸ Nat.log2_self_le hn
  have hlast : n < 2 ^ (dim + 1) := hdim ▸ Nat.lt_log2_self
  let state := folded root dim work
  have hroot : (state root).a0 = (work root).a0 := by
    have hpos := Nat.two_pow_pos dim
    simp only [state, folded, distance_self, hpos.ne, if_false]
    split <;> rfl
  have hstart : Merged root dim work 0 state := by
    refine ⟨fun r hr => best_folded hlast work hr, ?_⟩
    intro r hr
    have hr' : r = root := distance_eq_zero.mp (Nat.lt_one_iff.mp hr)
    rw [hr']
    exact hroot
  rcases sync_exchange hfirst (fun r => mxswpRow root n (2 ^ dim) r (state r))
    le_rfl hstart with ⟨state', hmerged, hsame, hexchange⟩
  -- all processes of the hypercube stand for all rows now
  have hall : forall r, distance root r < 2 ^ dim ->
      Best (fun q => (work q).max) (fun _ => True) (state' r).max := by
    intro r hr
    refine (hmerged.best r hr).congr ?_
    intro q
    rw [covered, Nat.div_eq_of_lt hr,
      Nat.div_eq_of_lt (Nat.mod_lt _ (Nat.two_pow_pos dim))]
    exact iff_true_intro rfl
  have hzero : distance root root < 2 ^ dim := by
    rw [distance_self]
    exact Nat.two_pow_pos dim
  refine ⟨(state' root).max, hall root hzero, ?_⟩
  let state'' : Fin n -> Work α := fun r =>
    if distance root r < 2 ^ dim then state' r
    else { state' r with a0 := (work root).a0 }
  have hmiddle : Sync
      (fun r =>
        if distance root r < 2 ^ dim then
          mxswpExchange root n (distance root r) dim 0 1 (state r)
        else mxswpRow root n (2 ^ dim) r (state r))
      fun r => Program.ret (state'' r) := by
    refine hexchange.trans ?_
    have hcode : exchangeCode root dim
        (fun r => mxswpRow root n (2 ^ dim) r (state r)) dim state' = fun r =>
          if distance root r < 2 ^ dim then Program.ret (state' r)
          else mxswpRow root n (2 ^ dim) r (state' r) := by
      funext r
      unfold exchangeCode
      split
      case isTrue _ =>
        rw [Nat.sub_self]
        rfl
      case isFalse hr => rw [hsame r (Nat.not_lt.mp hr)]
    rw [hcode]
    by_cases hroom : 2 ^ dim < n
    · have hentry : (state' (atDistance root ⟨2 ^ dim, hroom⟩)).a0 =
          (work root).a0 := by
        have hat : distance root (atDistance root ⟨2 ^ dim, hroom⟩) = 2 ^ dim :=
          distance_atDistance root _
        rw [hsame _ hat.ge]
        simp only [state, folded, hat, if_true]
        rw [if_neg (by rw [Nat.pow_succ] at hlast; lia)]
        rfl
      have hrow := sync_row root hroom (fun r => Program.ret (state' r)) state'
      rw [hentry] at hrow
      convert hrow using 1
      funext r
      simp only [state'']
      split <;> rfl
    · have hend : (fun r =>
          if distance root r < 2 ^ dim then Program.ret (state' r)
          else mxswpRow root n (2 ^ dim) r (state' r)) =
            fun r => Program.ret (state'' r) := by
        funext r
        have hr : distance root r < 2 ^ dim :=
          (distance_lt root r).trans_le (Nat.not_lt.mp hroom)
        simp only [state'', hr, if_true]
      rw [hend]
      exact Sync.refl _
  have hfan : Sync
      (fun r => mxswpFanOut root n (distance root r) (2 ^ dim) (state'' r))
      fun _ => Program.ret ⟨(state' root).max, (work root).a0⟩ := by
    apply sync_fanOut hlast
    · intro r hr
      have hmax := (hall r hr).unique hwork (hall root hzero)
      have hrow := hmerged.row r hr
      simp only [state'', hr, if_true]
      rw [← hmax, ← hrow]
    · intro r
      simp only [state'']
      split
      case isTrue hr => exact hmerged.row r hr
      case isFalse _ => rfl
  simp only [mxswp_eq, hdim]
  exact ((sync_fold hfirst hlast work).bind _).trans ((hmiddle.bind _).trans hfan)

end Whole

end HPL
end IPPD
