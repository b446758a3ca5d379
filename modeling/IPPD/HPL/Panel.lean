import IPPD.HPL.Blas
import IPPD.HPL.Indices
import IPPD.HPL.Pivot
import Mathlib.Algebra.Order.Field.Basic

/-!
# Factoring a panel of columns

`HPL_pdpanrlN`, `HPL_pdpancrN` and `HPL_pdpanllN` factor some columns of a panel
whose rows are distributed over the processes of one column, by elimination with
partial pivoting.  All processes of the column call one of them together.  The
current row is always on the process row `prow`; the others use all their rows
in every step.

The programs are for entries of any type that is ordered and has the arithmetic;
the calls are those of a build without `HPL_CALL_VSIPL`.  The search for the pivot
compares and negates entries only.  The factors that the programs find are those
of exact arithmetic, with entries in a linearly ordered field: in `double` the
multipliers and the updates are rounded, and the reciprocal of a tiny pivot
overflows.
-/

namespace IPPD
namespace HPL

open Foundation
open Foundation.Communicator (Sync Delivers Meet Accepts)

universe u

variable {α : Type u} {n : Nat}

/-!
## The data of a panel
-/

/-- What the factorization uses of the panel and of its grid and does not
change. -/
structure PanelInfo where
  nprow : Int
  myrow : Int
  prow : Int
  nb : Int
  jb : Nat
  ia : Int
  ii : Int

/-- What it changes: the local rows, the upper factor and the pivots that all
processes have, and the column of the first zero pivot, if there is one. -/
structure Panel (α : Type u) where
  a : Nat -> Nat -> α
  l1 : Nat -> Nat -> α
  dpiv : Nat -> Int
  dinfo : Int

/-- The variants of the factorization. -/
inductive Fact where
  | leftLooking
  | crout
  | rightLooking

/-- The first `n0` entries of a row. -/
def rowOf (n0 : Nat) (a : Nat -> Nat -> α) (i : Nat) : List α :=
  (List.range n0).map (a i)

def copyRow (a : Nat -> Nat -> α) (i : Nat) (row : List α) : Nat -> Nat -> α :=
  Function.update a i fun j => row.getD j (a i j)

/-!
## The program
-/

section Search

variable [LinearOrder α] [Zero α] [Neg α]

/-- The index and the size of the greatest of the first entries. -/
def idamax (x : Nat -> α) : Nat -> Nat × α
  | 0 => (0, 0)
  | i + 1 =>
      let (imax, smax) := idamax x i
      if mabs (x i) > smax then (i, mabs (x i)) else (imax, smax)

/-- A process without rows names a process that does not exist. -/
def dlocmax (info : PanelInfo) (a : Nat -> Nat -> α) (m ii jj : Nat) : LocMax α :=
  if 0 < m then
    let ilindx := (idamax (fun i => a (ii + i) jj) m).1
    let kk := info.ii + ii + ilindx
    { gmax := a (ii + ilindx) jj
      ilindx := ilindx
      igindx := mindxl2g kk info.nb info.nb info.myrow 0 info.nprow
      owner := info.myrow }
  else { gmax := 0, ilindx := 0, igindx := 0, owner := info.nprow }

/-- The rows that a process takes part with. -/
def packRows (info : PanelInfo) (a : Nat -> Nat -> α) (m ii : Nat)
    (work : Work α) : Work α :=
  if 0 < m then
    { max := { work.max with wmx := rowOf info.jb a (ii + work.max.ilindx) }
      a0 := if info.myrow = info.prow then rowOf info.jb a ii else work.a0 }
  else { work with max := { work.max with wmx := List.replicate info.jb 0 } }

def pdmxswp (info : PanelInfo) (m ii jj : Nat) (panel : Panel α)
    (work : Work α) : Program (Message α) (Panel α × Work α) :=
  (mxswp info.prow info.nprow info.myrow
    (packRows info panel.a m ii work)).bind fun work =>
      Program.ret
        ({ panel with dpiv := Function.update panel.dpiv jj work.max.igindx },
          work)

end Search

section Programs

variable [Add α] [Sub α] [Neg α] [Mul α] [Div α] [Zero α] [One α]
variable [LinearOrder α]

/-- The interchange of the two rows.  When the pivot is zero nothing is
interchanged. -/
def dlocswpN (info : PanelInfo) (ii jj : Nat) (panel : Panel α)
    (work : Work α) : Panel α × Work α :=
  let gmax := work.max.gmax
  let wmx := work.max.wmx.set jj gmax
  let wr0 := work.a0
  let work := { work with max := { work.max with wmx := wmx } }
  let ilindx := work.max.ilindx
  let a := panel.a
  if gmax ≠ 0 then
    let l1 := copyRow panel.l1 jj wmx
    if info.myrow = info.prow then
      if info.myrow = work.max.owner then
        if ilindx ≠ 0 then
          ({ panel with
              a := copyRow (copyRow a ii wmx) (ii + ilindx) wr0
              l1 := l1 }, work)
        else
          ({ panel with
              a := Function.update a ii (Function.update (a ii) jj gmax)
              l1 := l1 }, work)
      else ({ panel with a := copyRow a ii wmx, l1 := l1 }, work)
    else
      if info.myrow = work.max.owner then
        ({ panel with a := copyRow a (ii + ilindx) wr0, l1 := l1 }, work)
      else ({ panel with l1 := l1 }, work)
  else
    ({ panel with
        l1 := copyRow panel.l1 jj wr0
        dinfo := if panel.dinfo = 0 then info.ia + jj + 1 else panel.dinfo },
      work)

/-- The current column is scaled by its greatest entry. -/
def scaleColumn (mm1 iip1 jj : Nat) (panel : Panel α) (work : Work α) :
    Panel α :=
  if work.max.gmax ≠ 0 then
    { panel with a := dscal mm1 (1 / work.max.gmax) iip1 jj panel.a }
  else panel

/-- What a process does in a round of the loop of `HPL_pdpanrlN` after the
messages.  `HPL_dlocmax` looks for the next pivot before the columns behind the
next one are updated. -/
def pdpanrlColumn (info : PanelInfo) (nm1 ii iip1 mm1 jj : Nat)
    (panel : Panel α) (work : Work α) : Panel α × Work α :=
  let (panel, work) := dlocswpN info ii jj panel work
  let panel := scaleColumn mm1 iip1 jj panel work
  let wmx := fun j => work.max.wmx.getD j 0
  let a := daxpy mm1 (-wmx (jj + 1)) iip1 jj (jj + 1) panel.a
  let loc := dlocmax info a mm1 iip1 (jj + 1)
  let a :=
    if nm1 > 1 then
      dger mm1 (nm1 - 1) (-1) iip1 jj (fun j => wmx (jj + 2 + j)) (jj + 2) a
    else a
  ({ panel with a := a },
    { work with max := { work.max with toLocMax := loc } })

/-- The row of the upper factor in a round of `HPL_pdpancrN`. -/
def pdpancrRow (info : PanelInfo) (icoff nm1 ii jj : Nat) (panel : Panel α) :
    Panel α :=
  let kk := jj - icoff
  if kk > 0 then
    let l1 := dgemvT kk nm1 (-1) panel.l1 icoff (jj + 1) panel.l1 jj icoff
      panel.l1 jj (jj + 1)
    let a :=
      if info.myrow = info.prow then
        dlacpy 1 nm1 l1 jj (jj + 1) panel.a ii (jj + 1)
      else panel.a
    { panel with a := a, l1 := l1 }
  else panel

/-- The round of `HPL_pdpancrN`.  The row of the upper factor and the next column
are updated with all columns before them. -/
def pdpancrColumn (info : PanelInfo) (icoff nm1 ii iip1 mm1 jj : Nat)
    (panel : Panel α) (work : Work α) : Panel α × Work α :=
  let (panel, work) := dlocswpN info ii jj panel work
  let kk := jj - icoff
  let panel := pdpancrRow info icoff nm1 ii jj panel
  let panel := scaleColumn mm1 iip1 jj panel work
  let a := dgemvN mm1 (kk + 1) (-1) panel.a iip1 icoff panel.l1 icoff (jj + 1)
    panel.a iip1 (jj + 1)
  let loc := dlocmax info a mm1 iip1 (jj + 1)
  ({ panel with a := a },
    { work with max := { work.max with toLocMax := loc } })

/-- The round of `HPL_pdpanllN`.  The next column is updated with all columns
before it. -/
def pdpanllColumn (info : PanelInfo) (icoff ii iip1 mm1 jj : Nat)
    (panel : Panel α) (work : Work α) : Panel α × Work α :=
  let (panel, work) := dlocswpN info ii jj panel work
  let kk := jj + 1 - icoff
  let l1 := dtrsv kk panel.l1 icoff icoff panel.l1 icoff (jj + 1)
  let panel := scaleColumn mm1 iip1 jj { panel with l1 := l1 } work
  let a := dgemvN mm1 kk (-1) panel.a iip1 icoff l1 icoff (jj + 1)
    panel.a iip1 (jj + 1)
  let loc := dlocmax info a mm1 iip1 (jj + 1)
  let a :=
    if info.myrow = info.prow then
      dlacpy kk 1 l1 icoff (jj + 1) a icoff (jj + 1)
    else a
  ({ panel with a := a },
    { work with max := { work.max with toLocMax := loc } })

/-- The loop over the columns, with `nm1` of them behind the current one, and the
last column behind the loop.  The three functions differ in the round
`column`. -/
def pdpanLoop (info : PanelInfo)
    (column : Nat -> Nat -> Nat -> Nat -> Nat -> Panel α -> Work α ->
      Panel α × Work α) :
    Nat -> Nat -> Nat -> Nat -> Nat -> Nat -> Panel α -> Work α ->
      Program (Message α) (Panel α × Work α)
  | 0, ii, iip1, m, mm1, jj, panel, work =>
      (pdmxswp info m ii jj panel work).bind fun (panel, work) =>
        let (panel, work) := dlocswpN info ii jj panel work
        Program.ret (scaleColumn mm1 iip1 jj panel work, work)
  | nm1 + 1, ii, iip1, m, mm1, jj, panel, work =>
      (pdmxswp info m ii jj panel work).bind fun (panel, work) =>
        let (panel, work) := column (nm1 + 1) ii iip1 mm1 jj panel work
        if info.myrow = info.prow then
          pdpanLoop info column nm1 iip1 (iip1 + 1) mm1 (mm1 - 1) (jj + 1)
            panel work
        else pdpanLoop info column nm1 ii iip1 m mm1 (jj + 1) panel work

/-- The columns from `icoff` on, `nn` of them, in the `m` rows that a process has
from its current row on. -/
def pdpanN (info : PanelInfo)
    (column : Nat -> Nat -> Nat -> Nat -> Nat -> Panel α -> Work α ->
      Panel α × Work α) (m nn icoff : Nat) (panel : Panel α) (work : Work α) :
    Program (Message α) (Panel α × Work α) :=
  let curr := info.myrow = info.prow
  let ii := if curr then icoff else 0
  let iip1 := if curr then ii + 1 else ii
  let mm1 := if curr then m - 1 else m
  let loc := dlocmax info panel.a m ii icoff
  let work := { work with max := { work.max with toLocMax := loc } }
  pdpanLoop info column (nn - 1) ii iip1 m mm1 icoff panel work

def pdpanrlN (info : PanelInfo) (m nn icoff : Nat) :
    Panel α -> Work α -> Program (Message α) (Panel α × Work α) :=
  pdpanN info (pdpanrlColumn info) m nn icoff

def pdpancrN (info : PanelInfo) (m nn icoff : Nat) :
    Panel α -> Work α -> Program (Message α) (Panel α × Work α) :=
  pdpanN info (pdpancrColumn info icoff) m nn icoff

def pdpanllN (info : PanelInfo) (m nn icoff : Nat) :
    Panel α -> Work α -> Program (Message α) (Panel α × Work α) :=
  pdpanN info (fun _ => pdpanllColumn info icoff) m nn icoff

/-- The function that the variant stands for. -/
def pffun : Fact -> PanelInfo -> Nat -> Nat -> Nat -> Panel α -> Work α ->
    Program (Message α) (Panel α × Work α)
  | Fact.leftLooking => pdpanllN
  | Fact.crout => pdpancrN
  | Fact.rightLooking => pdpanrlN

end Programs

/-!
## Rows that are copied
-/

theorem length_rowOf (n0 : Nat) (a : Nat -> Nat -> α) (i : Nat) :
    (rowOf n0 a i).length = n0 := by
  simp [rowOf]

theorem getD_rowOf {n0 : Nat} (a : Nat -> Nat -> α) (i : Nat) {j : Nat}
    (hj : j < n0) (d : α) : (rowOf n0 a i).getD j d = a i j := by
  simp [rowOf, List.getElem?_range hj]

theorem copyRow_rowOf (n0 : Nat) (a b : Nat -> Nat -> α) (i k i' j : Nat) :
    copyRow a i (rowOf n0 b k) i' j =
      if i' = i ∧ j < n0 then b k j else a i' j := by
  by_cases hi : i' = i
  · rw [hi, copyRow, Function.update_self]
    by_cases hj : j < n0
    · rw [if_pos ⟨rfl, hj⟩, getD_rowOf b k hj]
    · rw [if_neg fun h => hj h.right,
        List.getD_eq_default _ _ (by rw [length_rowOf]; lia)]
  · rw [if_neg fun h => hi h.left, copyRow, Function.update_of_ne hi]

theorem set_rowOf {n0 : Nat} (a : Nat -> Nat -> α) (i : Nat) {j : Nat} :
    (rowOf n0 a i).set j (a i j) = rowOf n0 a i := by
  apply List.ext_getElem?
  intro k
  rw [List.getElem?_set]
  split
  case isTrue hk =>
    subst hk
    split
    case isTrue hlt =>
      rw [length_rowOf] at hlt
      simp [rowOf, List.getElem?_range hlt]
    case isFalse hlt =>
      rw [length_rowOf] at hlt
      simp [rowOf, Nat.not_lt.mp hlt]
  case isFalse _ => rfl

/-!
## The local maximum
-/

section Maximum

variable [LinearOrder α] [Zero α] [Neg α]

theorem mabs_zero : mabs (0 : α) = 0 :=
  if_neg (lt_irrefl 0)

theorem mabs_nonneg (hneg : forall a : α, a < 0 -> 0 ≤ -a) (a : α) :
    0 ≤ mabs a := by
  unfold mabs
  split
  case isTrue h => exact hneg a h
  case isFalse h => exact not_lt.mp h

theorem idamax_spec (x : Nat -> α) (m : Nat) :
    ((idamax x m).1 < m ∧ (idamax x m).2 = mabs (x (idamax x m).1) ∨
      (idamax x m).1 = 0 ∧ (idamax x m).2 = 0) ∧
    forall i, i < m -> mabs (x i) ≤ (idamax x m).2 := by
  induction m with
  | zero => exact ⟨Or.inr ⟨rfl, rfl⟩, fun i hi => absurd hi (Nat.not_lt_zero i)⟩
  | succ m ih =>
      rcases ih with ⟨hplace, hle⟩
      simp only [idamax, gt_iff_lt]
      split
      case isTrue hlt =>
        refine ⟨Or.inl ⟨Nat.lt_succ_self m, rfl⟩, ?_⟩
        intro i hi
        rcases Nat.lt_succ_iff_lt_or_eq.mp hi with him | rfl
        · exact (hle i him).trans hlt.le
        · exact le_rfl
      case isFalse hge =>
        refine ⟨hplace.imp_left fun h => ⟨h.left.trans (Nat.lt_succ_self m),
          h.right⟩, ?_⟩
        intro i hi
        rcases Nat.lt_succ_iff_lt_or_eq.mp hi with him | rfl
        · exact hle i him
        · exact not_lt.mp hge

theorem idamax_lt (x : Nat -> α) {m : Nat} (hm : 0 < m) : (idamax x m).1 < m := by
  rcases (idamax_spec x m).left with ⟨hlt, _⟩ | ⟨hzero, _⟩
  · exact hlt
  · rw [hzero]
    exact hm

theorem le_idamax (hneg : forall a : α, a < 0 -> 0 ≤ -a) (x : Nat -> α)
    {m i : Nat} (hi : i < m) : mabs (x i) ≤ mabs (x (idamax x m).1) := by
  rcases idamax_spec x m with ⟨⟨_, hmax⟩ | ⟨hzero, hmax⟩, hle⟩
  · rw [← hmax]
    exact hle i hi
  · have hxi := hle i hi
    rw [hmax] at hxi
    exact hxi.trans (mabs_nonneg hneg _)

theorem idamax_congr {x y : Nat -> α} {m : Nat}
    (h : forall i, i < m -> x i = y i) : idamax x m = idamax y m := by
  induction m with
  | zero => rfl
  | succ m ih =>
      rw [idamax, idamax, ih fun i hi => h i (hi.trans (Nat.lt_succ_self m)),
        h m (Nat.lt_succ_self m)]

theorem dlocmax_congr (info : PanelInfo) {a a' : Nat -> Nat -> α} {m ii jj : Nat}
    (h : forall i, i < m -> a (ii + i) jj = a' (ii + i) jj) :
    dlocmax info a m ii jj = dlocmax info a' m ii jj := by
  unfold dlocmax
  split
  case isTrue hm =>
    have hlt := idamax_lt (fun i => a' (ii + i) jj) hm
    rw [idamax_congr h]
    simp only [h _ hlt]
  case isFalse _ => rfl

end Maximum

section Absolute

variable [Field α] [LinearOrder α] [IsStrictOrderedRing α]

theorem neg_nonneg_of_neg (a : α) (ha : a < 0) : 0 ≤ -a :=
  neg_nonneg.mpr ha.le

theorem mabs_eq_abs (a : α) : mabs a = |a| := by
  unfold mabs
  split
  case isTrue h => exact (abs_of_neg h).symm
  case isFalse h => exact (abs_of_nonneg (not_lt.mp h)).symm

end Absolute

/-!
## The update of local rows
-/

section Update

variable [Field α]

/-- The calls of the loop on the rows below, when there are columns left. -/
def updateRows (nm1 m i0 jj : Nat) (wmx : Nat -> α) (a : Nat -> Nat -> α) :
    Nat -> Nat -> α :=
  let a := daxpy m (-wmx (jj + 1)) i0 jj (jj + 1) a
  if nm1 + 1 > 1 then
    dger m nm1 (-1) i0 jj (fun j => wmx (jj + 2 + j)) (jj + 2) a
  else a

theorem updateRows_eq (nm1 m i0 jj : Nat) (wmx : Nat -> α)
    (a : Nat -> Nat -> α) :
    updateRows nm1 m i0 jj wmx a =
      dger m nm1 (-1) i0 jj (fun j => wmx (jj + 2 + j)) (jj + 2)
        (daxpy m (-wmx (jj + 1)) i0 jj (jj + 1) a) := by
  cases nm1 with
  | zero =>
      rw [dger_zero]
      rfl
  | succ nm1 => rw [updateRows, if_pos (Nat.succ_lt_succ (Nat.succ_pos nm1))]

/-- The next column is ready before the ones behind it. -/
theorem updateRows_next (nm1 m i0 jj : Nat) (wmx : Nat -> α)
    (a : Nat -> Nat -> α) (i : Nat) :
    daxpy m (-wmx (jj + 1)) i0 jj (jj + 1) a i (jj + 1) =
      updateRows nm1 m i0 jj wmx a i (jj + 1) := by
  rw [updateRows_eq]
  exact (if_neg fun h => by lia).symm

theorem updateRows_apply (nm1 m i0 jj : Nat) (wmx : Nat -> α)
    (a : Nat -> Nat -> α) (i j : Nat) :
    updateRows nm1 m i0 jj wmx a i j =
      if (i0 ≤ i ∧ i < i0 + m) ∧ jj < j ∧ j < jj + 2 + nm1 then
        a i j - a i jj * wmx j
      else a i j := by
  rw [updateRows_eq]
  by_cases hrow : i0 ≤ i ∧ i < i0 + m
  · have hjj : jj ≠ jj + 1 := (Nat.lt_succ_self jj).ne
    simp only [dger, daxpy, hrow, hjj, and_self, true_and, if_false]
    rcases Nat.lt_trichotomy j (jj + 1) with hlt | rfl | hgt
    · rw [if_neg (by lia), if_neg (by lia), if_neg (by lia)]
    · rw [if_neg (by lia), if_pos rfl, if_pos (by lia)]
      exact (sub_eq_add_neg _ _).trans (by rw [neg_mul, mul_comm (wmx _)]) |>.symm
    · have hback : jj + 2 + (j - (jj + 2)) = j := by lia
      rw [if_neg hgt.ne', hback]
      by_cases hin : j < jj + 2 + nm1
      · rw [if_pos ⟨hgt, hin⟩, if_pos ⟨by lia, hin⟩, neg_one_mul, mul_neg,
          sub_eq_add_neg]
      · rw [if_neg fun h => hin h.right, if_neg fun h => hin h.right]
  · simp only [dger, daxpy, hrow, false_and, if_false]

variable [LinearOrder α]

theorem scaleColumn_a (m i0 jj : Nat) (panel : Panel α) (work : Work α)
    (i j : Nat) :
    (scaleColumn m i0 jj panel work).a i j =
      if (i0 ≤ i ∧ i < i0 + m) ∧ j = jj then
        if work.max.gmax ≠ 0 then panel.a i jj * (1 / work.max.gmax)
        else panel.a i jj
      else panel.a i j := by
  unfold scaleColumn
  by_cases hg : work.max.gmax = 0
  · simp only [hg, ne_eq, not_true_eq_false, if_false]
    split
    case isTrue h => rw [h.right]
    case isFalse _ => rfl
  · simp only [hg, ne_eq, not_false_eq_true, if_true, dscal]
    split
    case isTrue h => rw [h.right]
    case isFalse _ => rfl

theorem scaleColumn_eq (m i0 jj : Nat) (panel : Panel α) (work : Work α) :
    scaleColumn m i0 jj panel work =
      { panel with a := (scaleColumn m i0 jj panel work).a } := by
  unfold scaleColumn
  split <;> rfl

end Update

end HPL
end IPPD
