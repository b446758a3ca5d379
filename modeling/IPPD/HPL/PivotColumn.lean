import IPPD.Foundation.Elimination
import IPPD.HPL.Panel

/-!
# One column of a panel

The processes of one column together look for the greatest entry of the current
column, interchange two rows and scale the column.  Between rows with entries of
the same size the row of the first process is taken, so that the pivots are not
always those of a program without processes.
-/

namespace IPPD
namespace HPL

open Foundation
open Foundation.Communicator (Sync Delivers Meet Accepts)

universe u

variable {α : Type u} {n : Nat}

section Keys

variable [LinearOrder α] [Zero α] [Neg α]

theorem owner_of_key {w v : MaxRow α} (h : w.key = v.key) : w.owner = v.owner := by
  have hkey : toLex (mabs w.gmax, OrderDual.toDual w.owner) =
      toLex (mabs v.gmax, OrderDual.toDual v.owner) := h
  exact OrderDual.toDual.injective (Prod.ext_iff.mp (toLex_inj.mp hkey)).right

theorem key_le {w v : MaxRow α} (h : w.key ≤ v.key) :
    mabs w.gmax < mabs v.gmax ∨
      mabs w.gmax = mabs v.gmax ∧ v.owner ≤ w.owner := by
  rw [MaxRow.key, MaxRow.key, Prod.Lex.toLex_le_toLex] at h
  exact h

end Keys

/-!
## The rows of all processes
-/

/-- A panel on the processes of one column, of which the columns from `b` to
`e - 1` are factored.  In the process row `prow` its rows start with row `b`,
which is the current row of column `b`. -/
structure Layout (n : Nat) where
  prow : Fin n
  jb : Nat
  nb : Int
  ia : Int
  ii : Fin n -> Int
  b : Nat
  e : Nat
  /-- The end of the rows of a process. -/
  stop : Fin n -> Nat
  start : 0 ≤ ia
  columns : b < e
  width : e ≤ jb
  enough : e ≤ stop prow

namespace Layout

variable (L : Layout n)

def info (r : Fin n) : PanelInfo where
  nprow := n
  myrow := r
  prow := L.prow
  nb := L.nb
  jb := L.jb
  ia := L.ia
  ii := L.ii r

/-- The first row that a process uses in column `s`. -/
def first (s : Nat) (r : Fin n) : Nat := if r = L.prow then s else 0

/-- The rows of the elimination. -/
def sub : Elimination.Rows (Fin n × Nat) L.b L.e where
  inside := fun x => L.first L.b x.1 ≤ x.2 ∧ x.2 < L.stop x.1
  level := fun x => if x.1 = L.prow then x.2 else L.jb
  current := fun k => (L.prow, k)
  inside_current := by
    intro k hb he
    simp only [first, if_true]
    exact ⟨hb, he.trans_le L.enough⟩
  level_current := fun k _ _ => if_pos rfl
  current_level := by
    rintro ⟨r, i⟩ _ hlt
    have hwidth := L.width
    by_cases hr : r = L.prow
    · simp [hr]
    · simp only [hr, if_false] at hlt
      exact absurd hwidth (Nat.not_le.mpr hlt)
  le_level := by
    rintro ⟨r, i⟩ ⟨hfirst, _⟩
    simp only [first] at hfirst
    have hcolumns := L.columns
    have hwidth := L.width
    split
    case isTrue hr =>
      rw [if_pos (show r = L.prow from hr)] at hfirst
      exact hfirst
    case isFalse _ => exact hcolumns.le.trans hwidth

theorem active_iff {s : Nat} (hb : L.b ≤ s) (he : s ≤ L.e) (x : Fin n × Nat) :
    L.sub.Active s x <-> L.first s x.1 ≤ x.2 ∧ x.2 < L.stop x.1 := by
  have hwidth := L.width
  unfold Elimination.Rows.Active
  simp only [sub, first]
  split <;> lia

/-- Some of the columns. -/
def block {s m : Nat} (_hs : L.b ≤ s) (hsm : s < m) (hm : m ≤ L.e) : Layout n :=
  { L with
    b := s
    e := m
    columns := hsm
    width := hm.trans L.width
    enough := hm.trans L.enough }

theorem sub_block {s m : Nat} (hs : L.b ≤ s) (hsm : s < m) (hm : m ≤ L.e) :
    (L.block hs hsm hm).sub = L.sub.block hs hm := by
  apply Elimination.Rows.ext
  · funext x
    exact propext (L.active_iff hs (hsm.le.trans hm) x).symm
  · rfl
  · rfl

theorem info_myrow_eq (r : Fin n) :
    (L.info r).myrow = (L.info r).prow <-> r = L.prow := by
  simp only [info, Nat.cast_inj, Fin.val_inj]

/-- The number of a row in the whole matrix. -/
def globalRow (x : Fin n × Nat) : Int :=
  mindxl2g (L.ii x.1 + x.2) L.nb L.nb (x.1 : Nat) 0 n

section Values

variable [Zero α]

/-- The entries of all processes in the columns of the panel.  The first `s` rows
are those of the upper factor, which all processes have. -/
def matrix (s : Nat) (panel : Fin n -> Panel α) (x : Fin n × Nat) (j : Nat) : α :=
  if j < L.jb then
    if x.1 = L.prow ∧ x.2 < s then (panel x.1).l1 x.2 j else (panel x.1).a x.2 j
  else 0

theorem matrix_of_le {s : Nat} (panel : Fin n -> Panel α) (x : Fin n × Nat)
    {j : Nat} (hj : j < L.jb) (hx : L.first s x.1 ≤ x.2) :
    L.matrix s panel x j = (panel x.1).a x.2 j := by
  rw [matrix, if_pos hj, if_neg]
  rintro ⟨hprow, hlt⟩
  rw [first, if_pos hprow] at hx
  exact absurd hx (Nat.not_le.mpr hlt)

theorem matrix_of_lt {s : Nat} (panel : Fin n -> Panel α) {k j : Nat}
    (hj : j < L.jb) (hk : k < s) :
    L.matrix s panel (L.prow, k) j = (panel L.prow).l1 k j := by
  rw [matrix, if_pos hj, if_pos ⟨rfl, hk⟩]

/-- A row as it is sent when it has the greatest entry of its process. -/
def maxRow (panel : Fin n -> Panel α) (s : Nat) (x : Fin n × Nat) : MaxRow α where
  gmax := (panel x.1).a x.2 s
  ilindx := x.2 - L.first s x.1
  igindx := L.globalRow x
  owner := (x.1 : Nat)
  wmx := rowOf L.jb (panel x.1).a x.2

variable [LinearOrder α] [Neg α]

/-- What `HPL_dlocmax` has left in the workspace before column `s`. -/
def Located (s : Nat) (panel : Fin n -> Panel α) (work : Fin n -> Work α) :
    Prop :=
  forall r, (work r).max.toLocMax =
    dlocmax (L.info r) (panel r).a (L.stop r - L.first s r) (L.first s r) s

/-- The workspace of a process before the messages of column `s`. -/
def packed (s : Nat) (panel : Fin n -> Panel α) (work : Fin n -> Work α)
    (r : Fin n) : Work α :=
  packRows (L.info r) (panel r).a (L.stop r - L.first s r) (L.first s r) (work r)

variable {s : Nat} {panel : Fin n -> Panel α} {work : Fin n -> Work α}

theorem packed_none (hwork : L.Located s panel work) {r : Fin n}
    (hr : ¬ L.first s r < L.stop r) :
    (L.packed s panel work r).max =
      { gmax := 0, ilindx := 0, igindx := 0, owner := n,
        wmx := List.replicate L.jb 0 } := by
  have hm : ¬ 0 < L.stop r - L.first s r := by lia
  have hloc := hwork r
  rw [dlocmax, if_neg hm] at hloc
  simp only [packed, packRows, if_neg hm, hloc, info]

theorem packed_max (hneg : forall a : α, a < 0 -> 0 ≤ -a)
    (hwork : L.Located s panel work) {r : Fin n}
    (hr : L.first s r < L.stop r) :
    exists x : Fin n × Nat, x.1 = r ∧ L.first s r ≤ x.2 ∧ x.2 < L.stop r ∧
      (forall i, L.first s r ≤ i -> i < L.stop r ->
        mabs ((panel r).a i s) ≤ mabs ((panel r).a x.2 s)) ∧
      (L.packed s panel work r).max = L.maxRow panel s x := by
  have hm : 0 < L.stop r - L.first s r := Nat.sub_pos_of_lt hr
  let entry := fun i => (panel r).a (L.first s r + i) s
  have hlt := idamax_lt entry hm
  refine ⟨(r, L.first s r + (idamax entry (L.stop r - L.first s r)).1), rfl,
    Nat.le_add_right _ _, by lia, ?_, ?_⟩
  · intro i hi hi'
    have hle := le_idamax hneg entry (m := L.stop r - L.first s r)
      (i := i - L.first s r) (by lia)
    simp only [entry, Nat.add_sub_cancel' hi] at hle
    exact hle
  · have hloc := hwork r
    rw [dlocmax, if_pos hm] at hloc
    simp only [packed, packRows, if_pos hm, hloc, maxRow, globalRow, info, entry,
      Nat.add_sub_cancel_left, Nat.cast_add, Int.add_assoc]

/-!
## The pivot of a column
-/

theorem separated_packed (hneg : forall a : α, a < 0 -> 0 ≤ -a)
    (hwork : L.Located s panel work) :
    Separated fun r => (L.packed s panel work r).max := by
  intro r q hkey
  have howner : (L.packed s panel work r).max.owner =
      (L.packed s panel work q).max.owner := owner_of_key hkey
  change (L.packed s panel work r).max = (L.packed s panel work q).max
  by_cases hr : L.first s r < L.stop r
  · rcases L.packed_max hneg hwork hr with ⟨x, rfl, _, _, _, hx⟩
    by_cases hq : L.first s q < L.stop q
    · rcases L.packed_max hneg hwork hq with ⟨y, rfl, _, _, _, hy⟩
      rw [hx, hy] at howner
      have hsame : x.1 = y.1 := Fin.ext (Int.ofNat_inj.mp howner)
      rw [hsame]
    · rw [hx, L.packed_none hwork hq] at howner
      have hlt := x.1.isLt
      simp only [maxRow] at howner
      omega
  · by_cases hq : L.first s q < L.stop q
    · rcases L.packed_max hneg hwork hq with ⟨y, rfl, _, _, _, hy⟩
      rw [hy, L.packed_none hwork hr] at howner
      have hlt := y.1.isLt
      simp only [maxRow] at howner
      omega
    · rw [L.packed_none hwork hr, L.packed_none hwork hq]

/-- The best row is a row of the panel: the process of the current row has one,
and a process without rows loses against it. -/
theorem exists_pivot (hneg : forall a : α, a < 0 -> 0 ≤ -a) (hb : L.b ≤ s)
    (he : s < L.e) (hwork : L.Located s panel work)
    {best : MaxRow α}
    (hbest : Best (fun r => (L.packed s panel work r).max) (fun _ => True) best) :
    exists p, L.sub.Active s p ∧
      (forall x, L.sub.Active s x ->
        mabs ((panel x.1).a x.2 s) ≤ mabs ((panel p.1).a p.2 s)) ∧
      best = L.maxRow panel s p := by
  rcases hbest with ⟨⟨r, _, rfl⟩, hle⟩
  have hactive := L.active_iff hb he.le
  have hcurrent : L.first s L.prow < L.stop L.prow := by
    rw [first, if_pos rfl]
    exact he.trans_le L.enough
  have hr : L.first s r < L.stop r := by
    by_contra hnone
    rcases L.packed_max hneg hwork hcurrent with ⟨x, hx, _, _, _, hmax⟩
    have hkey := key_le (hle L.prow trivial)
    simp only [hmax, L.packed_none hwork hnone, maxRow, mabs_zero] at hkey
    rcases hkey with hbelow | ⟨_, howner⟩
    · exact absurd hbelow (not_lt.mpr (mabs_nonneg hneg _))
    · have hlt := x.1.isLt
      omega
  rcases L.packed_max hneg hwork hr with ⟨p, rfl, hfirst, hstop, _, hmax⟩
  refine ⟨p, (hactive p).mpr ⟨hfirst, hstop⟩, ?_, hmax⟩
  intro x hx
  rcases (hactive x).mp hx with ⟨hxfirst, hxstop⟩
  rcases L.packed_max hneg hwork (hxfirst.trans_lt hxstop) with
    ⟨y, hy, _, _, hgreatest, hymax⟩
  have hxy := hgreatest x.2 hxfirst hxstop
  have hkey := key_le (hle x.1 trivial)
  simp only [hmax, hymax, maxRow, hy] at hkey
  exact hxy.trans (hkey.elim le_of_lt fun h => h.left.le)

/-- The workspace of all processes after the messages of a column. -/
def received (panel : Fin n -> Panel α) (s : Nat) (p : Fin n × Nat) : Work α where
  max := L.maxRow panel s p
  a0 := rowOf L.jb (panel L.prow).a s

/-- A panel with the pivot of a column. -/
def chosen (panel : Fin n -> Panel α) (s : Nat) (p : Fin n × Nat) (r : Fin n) :
    Panel α :=
  { panel r with dpiv := Function.update (panel r).dpiv s (L.globalRow p) }

/-- A row with the greatest entry of column `s`. -/
def Greatest (panel : Fin n -> Panel α) (s : Nat) (p : Fin n × Nat) : Prop :=
  L.sub.Active s p ∧ forall x, L.sub.Active s x ->
    mabs ((panel x.1).a x.2 s) ≤ mabs ((panel p.1).a p.2 s)

theorem sync_pdmxswp (hneg : forall a : α, a < 0 -> 0 ≤ -a) (hb : L.b ≤ s) (he : s < L.e)
    (hwork : L.Located s panel work) :
    exists p, L.Greatest panel s p ∧
      Sync
        (fun r => pdmxswp (L.info r) (L.stop r - L.first s r) (L.first s r) s
          (panel r) (work r))
        fun r => Program.ret (L.chosen panel s p r, L.received panel s p) := by
  rcases sync_mxswp L.prow (L.separated_packed hneg hwork) with ⟨best, hbest, hsync⟩
  rcases L.exists_pivot hneg hb he hwork hbest with ⟨p, hp, hgreatest, rfl⟩
  refine ⟨p, ⟨hp, hgreatest⟩, ?_⟩
  have hrow : (L.packed s panel work L.prow).a0 =
      rowOf L.jb (panel L.prow).a s := by
    have hfirst : L.first s L.prow = s := if_pos rfl
    have hm : 0 < L.stop L.prow - s := Nat.sub_pos_of_lt (he.trans_le L.enough)
    rw [packed, hfirst, packRows, if_pos hm]
    exact if_pos ((L.info_myrow_eq L.prow).mpr rfl)
  rw [hrow] at hsync
  exact hsync.bind fun r (work : Work α) =>
    Program.ret ({ panel r with
      dpiv := Function.update (panel r).dpiv s work.max.igindx }, work)

end Values

/-!
## The interchange
-/

section Interchange

/-- The local rows after the interchange of the current row and row `q`. -/
def interchanged (panel : Fin n -> Panel α) (s : Nat) (q : Fin n × Nat)
    (r : Fin n) (i j : Nat) : α :=
  if j < L.jb then
    let x := Equiv.swap (L.prow, s) q (r, i)
    (panel x.1).a x.2 j
  else (panel r).a i j

theorem interchanged_eq (panel : Fin n -> Panel α) (s : Nat) (q : Fin n × Nat)
    (r : Fin n) (i j : Nat) :
    L.interchanged panel s q r i j =
      if (r, i) = (L.prow, s) ∧ j < L.jb then (panel q.1).a q.2 j
      else if (r, i) = q ∧ j < L.jb then (panel L.prow).a s j
      else (panel r).a i j := by
  unfold interchanged
  rw [Equiv.swap_apply_def]
  by_cases hj : j < L.jb
  · simp only [hj, if_true, and_true]
    split
    case isTrue _ => rfl
    case isFalse _ =>
      split <;> rfl
  · simp only [hj, if_false, and_false]

theorem interchanged_self (panel : Fin n -> Panel α) (s : Nat) (r : Fin n) :
    L.interchanged panel s (L.prow, s) r = (panel r).a := by
  funext i j
  rw [interchanged, Equiv.swap_self]
  split <;> rfl

variable [Field α] [LinearOrder α]

/-- The row that changes places with the current one: with a zero pivot nothing
is interchanged. -/
def pivot (panel : Fin n -> Panel α) (s : Nat) (p : Fin n × Nat) : Fin n × Nat :=
  if (panel p.1).a p.2 s ≠ 0 then p else (L.prow, s)

/-- The panel of a process after the interchange. -/
def swapped (panel : Fin n -> Panel α) (s : Nat) (p : Fin n × Nat) (r : Fin n) :
    Panel α where
  a := L.interchanged panel s (L.pivot panel s p) r
  l1 := copyRow (panel r).l1 s
    (rowOf L.jb (panel (L.pivot panel s p).1).a (L.pivot panel s p).2)
  dpiv := Function.update (panel r).dpiv s (L.globalRow p)
  dinfo :=
    if (panel p.1).a p.2 s = 0 ∧ (panel r).dinfo = 0 then L.ia + s + 1
    else (panel r).dinfo

theorem dlocswpN_eq (panel : Fin n -> Panel α) {s : Nat} {p : Fin n × Nat}
    (hp : L.first s p.1 ≤ p.2) (r : Fin n) :
    dlocswpN (L.info r) (L.first s r) s (L.chosen panel s p r)
        (L.received panel s p) =
      (L.swapped panel s p r, L.received panel s p) := by
  have howner : (L.info r).myrow = (p.1 : Nat) <-> r = p.1 := by
    simp only [info, Nat.cast_inj, Fin.val_inj]
  simp only [dlocswpN, received, chosen, maxRow, set_rowOf, howner,
    L.info_myrow_eq, swapped, pivot]
  by_cases hzero : (panel p.1).a p.2 s = 0
  · simp only [hzero, ne_eq, not_true_eq_false, if_false, interchanged_self,
      true_and, info]
    rfl
  · simp only [hzero, ne_eq, not_false_eq_true, if_true, false_and, if_false]
    by_cases hr : r = L.prow
    · have hfirst : L.first s r = s := if_pos hr
      rw [if_pos hr, hfirst]
      by_cases hpr : r = p.1
      · rw [if_pos hpr]
        by_cases hself : p.2 - L.first s p.1 = 0
        · have hp' : p = (L.prow, s) := by
            rw [← hpr, hfirst] at hself hp
            exact Prod.ext (hpr.symm.trans hr) (by lia)
          have hrows : Function.update (panel r).a s
              (Function.update ((panel r).a s) s ((panel p.1).a p.2 s)) =
                L.interchanged panel s p r := by
            rw [hp', interchanged_self, ← hr, Function.update_eq_self,
              Function.update_eq_self]
          rw [if_neg (not_not.mpr hself), hrows]
        · have hplace : s + (p.2 - L.first s p.1) = p.2 := by
            rw [← hpr, hfirst] at hp ⊢
            lia
          have hrows : copyRow
              (copyRow (panel r).a s (rowOf L.jb (panel p.1).a p.2)) p.2
                (rowOf L.jb (panel L.prow).a s) = L.interchanged panel s p r := by
            funext i j
            rw [← hpr, hfirst] at hself hp
            rw [copyRow_rowOf, copyRow_rowOf, interchanged_eq]
            simp only [Prod.ext_iff]
            grind
          rw [if_pos hself, hplace, hrows]
      · have hrows : copyRow (panel r).a s (rowOf L.jb (panel p.1).a p.2) =
            L.interchanged panel s p r := by
          funext i j
          rw [copyRow_rowOf, interchanged_eq]
          simp only [Prod.ext_iff]
          grind
        rw [if_neg hpr, hrows]
    · have hfirst : L.first s r = 0 := if_neg hr
      rw [if_neg hr, hfirst]
      by_cases hpr : r = p.1
      · have hplace : 0 + (p.2 - L.first s p.1) = p.2 := by
          rw [← hpr, hfirst]
          lia
        have hrows : copyRow (panel r).a p.2 (rowOf L.jb (panel L.prow).a s) =
            L.interchanged panel s p r := by
          funext i j
          rw [copyRow_rowOf, interchanged_eq]
          simp only [Prod.ext_iff]
          grind
        rw [if_pos hpr, hplace, hrows]
      · have hrows : (panel r).a = L.interchanged panel s p r := by
          funext i j
          rw [interchanged_eq]
          simp only [Prod.ext_iff]
          grind
        rw [if_neg hpr, ← hrows]

end Interchange


/-!
## The elimination of the column
-/

section Scale

variable [Field α] [LinearOrder α]

/-- The panels when column `s` is eliminated and nothing behind it has been
updated. -/
def scaled (panel : Fin n -> Panel α) (s : Nat) (p : Fin n × Nat) (r : Fin n) :
    Panel α :=
  scaleColumn (L.stop r - L.first (s + 1) r) (L.first (s + 1) r) s
    (L.swapped panel s p r) (L.received panel s p)

variable {s : Nat}

theorem first_add_sub (he : s ≤ L.e) (r : Fin n) :
    L.first s r + (L.stop r - L.first s r) = L.stop r := by
  apply Nat.add_sub_cancel'
  have henough := L.enough
  unfold first
  split
  case isTrue hr =>
    rw [hr]
    exact he.trans henough
  case isFalse _ => exact Nat.zero_le _

/-- The multiplier of a row. -/
def factor (panel : Fin n -> Panel α) (s : Nat) (p : Fin n × Nat) (r : Fin n)
    (i : Nat) : α :=
  let x := L.interchanged panel s (L.pivot panel s p) r i s
  let gmax := (panel p.1).a p.2 s
  if gmax ≠ 0 then x * (1 / gmax) else x

theorem scaled_a (he : s < L.e) (panel : Fin n -> Panel α) (p : Fin n × Nat)
    (r : Fin n) (i j : Nat) :
    (L.scaled panel s p r).a i j =
      if (L.first (s + 1) r ≤ i ∧ i < L.stop r) ∧ j = s then
        L.factor panel s p r i
      else L.interchanged panel s (L.pivot panel s p) r i j := by
  rw [scaled, scaleColumn_a, L.first_add_sub he]
  rfl

theorem scaled_eq (panel : Fin n -> Panel α) (p : Fin n × Nat) (r : Fin n) :
    L.scaled panel s p r =
      { L.swapped panel s p r with a := (L.scaled panel s p r).a } :=
  scaleColumn_eq _ _ _ _ _

theorem scaled_l1 (panel : Fin n -> Panel α) (p : Fin n × Nat) (r : Fin n)
    (k j : Nat) :
    (L.scaled panel s p r).l1 k j =
      if k = s ∧ j < L.jb then
        (panel (L.pivot panel s p).1).a (L.pivot panel s p).2 j
      else (panel r).l1 k j := by
  rw [scaled_eq]
  exact copyRow_rowOf _ _ _ _ _ _ _

variable [IsStrictOrderedRing α] {panel : Fin n -> Panel α}

theorem Greatest.pivot {p : Fin n × Nat} (hb : L.b ≤ s) (he : s < L.e)
    (h : L.Greatest panel s p) : L.Greatest panel s (L.pivot panel s p) := by
  unfold Layout.pivot
  split
  case isTrue _ => exact h
  case isFalse hzero =>
    refine ⟨Elimination.Rows.active_current hb he le_rfl, ?_⟩
    intro x hx
    have hle := h.right x hx
    rw [not_not.mp hzero, mabs_zero] at hle
    exact hle.trans (mabs_nonneg neg_nonneg_of_neg _)

omit [IsStrictOrderedRing α] in
theorem Greatest.first_le {p : Fin n × Nat} (hb : L.b ≤ s) (he : s < L.e)
    (h : L.Greatest panel s p) : L.first s p.1 ≤ p.2 :=
  ((L.active_iff hb he.le p).mp h.left).left

theorem active_not_upper (hb : L.b ≤ s) (he : s ≤ L.e) {x : Fin n × Nat}
    (hx : L.sub.Active s x) : ¬ (x.1 = L.prow ∧ x.2 < s) := by
  rintro ⟨hprow, hlt⟩
  have hfirst := ((L.active_iff hb he x).mp hx).left
  rw [first, if_pos hprow] at hfirst
  exact absurd hfirst (Nat.not_le.mpr hlt)

omit [LinearOrder α] [IsStrictOrderedRing α] in
theorem interchanged_matrix (hb : L.b ≤ s) (he : s < L.e) {q x : Fin n × Nat}
    (hq : L.sub.Active s q) (hx : ¬ (x.1 = L.prow ∧ x.2 < s)) {j : Nat}
    (hj : j < L.jb) :
    L.interchanged panel s q x.1 x.2 j =
      L.matrix s panel (Equiv.swap (L.sub.current s) q x) j := by
  have hy : ¬ ((Equiv.swap (L.sub.current s) q x).1 = L.prow ∧
      (Equiv.swap (L.sub.current s) q x).2 < s) := by
    rw [Equiv.swap_apply_def]
    split
    case isTrue _ => exact L.active_not_upper hb he.le hq
    case isFalse _ =>
      split
      case isTrue _ => exact fun h => absurd h.right (lt_irrefl s)
      case isFalse _ => exact hx
  rw [interchanged, if_pos hj, matrix, if_pos hj, if_neg hy]
  rfl

theorem matrix_scaled_active (hb : L.b ≤ s) (he : s < L.e) {p x : Fin n × Nat}
    (hp : L.Greatest panel s p) (hx : L.sub.Active (s + 1) x) (j : Nat) :
    L.matrix (s + 1) (L.scaled panel s p) x j =
      if j = s then L.factor panel s p x.1 x.2
      else L.matrix s panel
        (Equiv.swap (L.sub.current s) (L.pivot panel s p) x) j := by
  have hs : s < L.jb := he.trans_le L.width
  have hrow := (L.active_iff (Nat.le_succ_of_le hb) he x).mp hx
  have hupper := L.active_not_upper (Nat.le_succ_of_le hb) he hx
  by_cases hj : j < L.jb
  · rw [matrix, if_pos hj, if_neg hupper, L.scaled_a he]
    by_cases hjs : j = s
    · rw [if_pos ⟨hrow, hjs⟩, if_pos hjs]
    · rw [if_neg fun h => hjs h.right, if_neg hjs]
      exact L.interchanged_matrix hb he (hp.pivot L hb he).left
        (fun h => hupper ⟨h.left, h.right.trans (Nat.lt_succ_self s)⟩) hj
  · rw [matrix, if_neg hj, if_neg fun h : j = s => hj (h ▸ hs), matrix,
      if_neg hj]

theorem matrix_scaled_rest (hb : L.b ≤ s) (he : s < L.e) {p x : Fin n × Nat}
    (hp : L.Greatest panel s p) (hx : ¬ L.sub.Active s x) :
    L.matrix (s + 1) (L.scaled panel s p) x = L.matrix s panel x := by
  have hcurrent : x ≠ L.sub.current s := by
    rintro rfl
    exact hx (Elimination.Rows.active_current hb he le_rfl)
  have hpivot : x ≠ L.pivot panel s p := by
    rintro rfl
    exact hx (hp.pivot L hb he).left
  funext j
  by_cases hj : j < L.jb
  · rw [matrix, if_pos hj]
    by_cases hupper : x.1 = L.prow ∧ x.2 < s
    · rw [if_pos ⟨hupper.left, hupper.right.trans (Nat.lt_succ_self s)⟩,
        scaled_l1, if_neg fun h => absurd h.left hupper.right.ne, matrix,
        if_pos hj, if_pos hupper]
    · have hupper' : ¬ (x.1 = L.prow ∧ x.2 < s + 1) := by
        rintro ⟨hprow, hlt⟩
        rcases Nat.lt_succ_iff_lt_or_eq.mp hlt with hlt | heq
        · exact hupper ⟨hprow, hlt⟩
        · exact hcurrent (Prod.ext hprow heq)
      have hrow : ¬ (L.first (s + 1) x.1 ≤ x.2 ∧ x.2 < L.stop x.1) := fun h =>
        hx (((L.active_iff (Nat.le_succ_of_le hb) he x).mpr h).mono
          (Nat.le_succ s))
      rw [if_neg hupper', L.scaled_a he, if_neg fun h => hrow h.left,
        L.interchanged_matrix hb he (hp.pivot L hb he).left hupper hj,
        Equiv.swap_apply_of_ne_of_ne hcurrent hpivot]
  · rw [matrix, if_neg hj, matrix, if_neg hj]

theorem abs_interchanged_le (hb : L.b ≤ s) (he : s < L.e) {p x : Fin n × Nat}
    (h : L.Greatest panel s p) (hx : L.sub.Active (s + 1) x) :
    |L.interchanged panel s (L.pivot panel s p) x.1 x.2 s| ≤
      |(panel p.1).a p.2 s| := by
  have hs : s < L.jb := he.trans_le L.width
  have hpivot := h.pivot L hb he
  have hx' := hx.mono (Nat.le_succ s)
  have hactive := (Elimination.active_swap hpivot.left hb he x).mpr hx'
  rw [L.interchanged_matrix hb he hpivot.left
    (L.active_not_upper hb he.le hx') hs,
    L.matrix_of_le panel _ hs ((L.active_iff hb he.le _).mp hactive).left,
    ← mabs_eq_abs, ← mabs_eq_abs]
  exact h.right _ hactive

/-- The messages, the interchange and the scaling of a column together eliminate
it. -/
theorem step_scaled {p : Fin n × Nat} (hb : L.b ≤ s) (he : s < L.e)
    (h : L.Greatest panel s p) :
    Elimination.Step L.sub s (L.pivot panel s p) (L.matrix s panel)
      (L.matrix (s + 1) (L.scaled panel s p)) := by
  have hs : s < L.jb := he.trans_le L.width
  have hpivot := h.pivot L hb he
  have hfirst := hpivot.first_le L hb he
  constructor
  case active => exact hpivot.left
  case pivot =>
    funext j
    by_cases hj : j < L.jb
    · rw [L.matrix_of_le panel _ hj hfirst]
      exact (L.matrix_of_lt _ hj (Nat.lt_succ_self s)).trans
        ((L.scaled_l1 _ _ _ _ _).trans (if_pos ⟨rfl, hj⟩))
    · rw [matrix, if_neg hj, matrix, if_neg hj]
  case factor =>
    intro x hx
    have hle := L.abs_interchanged_le hb he h hx
    have heq : L.interchanged panel s (L.pivot panel s p) x.1 x.2 s =
        L.matrix s panel
          (Equiv.swap (L.sub.current s) (L.pivot panel s p) x) s :=
      L.interchanged_matrix hb he hpivot.left
        (L.active_not_upper hb he.le (hx.mono (Nat.le_succ s))) hs
    rw [L.matrix_scaled_active hb he h hx, if_pos rfl,
      L.matrix_of_le panel _ hs hfirst, factor]
    by_cases hzero : (panel p.1).a p.2 s = 0
    · rw [hzero, abs_zero] at hle
      have hsame := abs_nonpos_iff.mp hle
      rw [if_neg (not_not.mpr hzero), ← heq, hsame, zero_mul]
    · have hp : L.pivot panel s p = p := if_pos hzero
      rw [if_pos hzero, ← heq, hp, mul_assoc, one_div_mul_cancel hzero, mul_one]
  case bounded =>
    intro x hx
    have hle := L.abs_interchanged_le hb he h hx
    rw [L.matrix_scaled_active hb he h hx, if_pos rfl, factor]
    by_cases hzero : (panel p.1).a p.2 s = 0
    · rw [hzero, abs_zero] at hle
      rw [if_neg (not_not.mpr hzero)]
      exact hle.trans zero_le_one
    · rw [if_pos hzero, mul_one_div, abs_div]
      exact div_le_one_of_le₀ hle (abs_nonneg _)
  case kept =>
    intro x j hx hj
    rw [L.matrix_scaled_active hb he h hx, if_neg hj]
  case rest => exact fun x hx => L.matrix_scaled_rest hb he h hx

theorem scaled_mul (hb : L.b ≤ s) (he : s < L.e) {p : Fin n × Nat}
    (h : L.Greatest panel s p) {r : Fin n} {i j : Nat}
    (hi : L.first (s + 1) r ≤ i ∧ i < L.stop r) (hj : j < L.jb) :
    (L.scaled panel s p r).a i s * (panel p.1).a p.2 j =
      (L.scaled panel s p r).a i s * (L.scaled panel s p r).l1 s j := by
  have hx := (L.active_iff (Nat.le_succ_of_le hb) he (r, i)).mpr hi
  have hle := L.abs_interchanged_le hb he h hx
  rw [L.scaled_a he, if_pos ⟨hi, rfl⟩, scaled_l1, if_pos ⟨rfl, hj⟩, factor]
  by_cases hzero : (panel p.1).a p.2 s = 0
  · rw [hzero, abs_zero] at hle
    rw [if_neg (not_not.mpr hzero), abs_nonpos_iff.mp hle, zero_mul, zero_mul]
  · have hp : L.pivot panel s p = p := if_pos hzero
    rw [hp]

end Scale

end Layout

end HPL
end IPPD
