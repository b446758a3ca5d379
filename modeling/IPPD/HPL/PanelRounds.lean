import IPPD.HPL.Factorization
import Mathlib.Algebra.Order.Ring.Rat
import Mathlib.Algebra.Field.Rat

/-!
# The three ways to factor a panel

`HPL_pdpanrlN` updates all columns behind the eliminated one at once.
`HPL_pdpancrN` and `HPL_pdpanllN` update the next column with all columns before
it; the former also updates the row of the upper factor.
-/

namespace IPPD
namespace HPL

open Foundation
open Foundation.Communicator (Sync Delivers)

universe u

variable {α : Type u} {n : Nat}

namespace Layout

variable (L : Layout n)

section Work

variable [Field α] [LinearOrder α]

/-- The workspace after `HPL_dlocmax` has searched column `s + 1`. -/
def nextWork (s : Nat) (received : Work α) (panel : Fin n -> Panel α)
    (r : Fin n) : Work α :=
  let loc := dlocmax (L.info r) (panel r).a
    (L.stop r - L.first (s + 1) r) (L.first (s + 1) r) (s + 1)
  { received with max := { received.max with toLocMax := loc } }

theorem located_next (s : Nat) (received : Work α) (panel : Fin n -> Panel α) :
    L.Located (s + 1) panel (L.nextWork s received panel) :=
  fun _ => rfl

end Work

/-!
## All columns at once
-/

section Right

variable [Field α] [LinearOrder α]

def rightPanel (s : Nat) (panel : Fin n -> Panel α) (r : Fin n) : Panel α :=
  { panel r with
    a := fun i j =>
      if (L.first (s + 1) r ≤ i ∧ i < L.stop r) ∧ s < j ∧ j < L.e then
        (panel r).a i j - (panel r).a i s * (panel r).l1 s j
      else (panel r).a i j }

variable [IsStrictOrderedRing α] {L} {s : Nat} {panel start : Fin n -> Panel α}
  {p : Fin n × Nat} {pivot : Nat -> Fin n × Nat}

theorem pdpanrlColumn_eq {left : Nat} (hb : L.b ≤ s) (he : L.e = s + 2 + left)
    (hp : L.Greatest panel s p) (r : Fin n) :
    pdpanrlColumn (L.info r) (left + 1) (L.first s r) (L.first (s + 1) r)
        (L.stop r - L.first (s + 1) r) s (L.chosen panel s p r)
        (L.received panel s p) =
      (L.rightPanel s (L.scaled panel s p) r,
        L.nextWork s (L.received panel s p)
          (L.rightPanel s (L.scaled panel s p)) r) := by
  have hwidth := L.width
  have hs : s < L.e := by lia
  let wmx := fun j => (L.received panel s p).max.wmx.getD j 0
  have hrows : updateRows left (L.stop r - L.first (s + 1) r)
      (L.first (s + 1) r) s wmx (L.scaled panel s p r).a =
        (L.rightPanel s (L.scaled panel s p) r).a := by
    funext i j
    rw [updateRows_apply, L.first_add_sub hs, ← he]
    simp only [rightPanel]
    split
    case isTrue h =>
      have hj : j < L.jb := h.right.right.trans_le hwidth
      rw [← L.scaled_mul hb hs hp h.left hj]
      exact congrArg _ (congrArg _ (getD_rowOf _ _ hj 0))
    case isFalse _ => rfl
  have hnext := fun i => updateRows_next left
    (L.stop r - L.first (s + 1) r) (L.first (s + 1) r) s wmx
    (L.scaled panel s p r).a i
  rw [hrows] at hnext
  rw [updateRows] at hrows
  have hfirst := hp.first_le L hb hs
  simp only [pdpanrlColumn, L.dlocswpN_eq panel hfirst r, Nat.add_sub_cancel]
  refine Prod.ext
    (congrArg (fun a => { L.scaled panel s p r with a := a }) hrows) ?_
  exact congrArg
    (fun loc => { L.received panel s p with
      max := { (L.received panel s p).max with toLocMax := loc } })
    (dlocmax_congr (L.info r) fun i _ => hnext _)

theorem rounds_right :
    L.Rounds (α := α) (fun r => pdpanrlColumn (L.info r))
      fun s x _ => L.sub.done s x := by
  constructor
  case start => exact fun x _ hx => min_eq_left (L.sub.le_level x hx)
  case ready => exact fun _ _ _ => rfl
  case uniform =>
    intro s x y _ hx hy _
    exact (Elimination.Rows.done_of_active hx).trans
      (Elimination.Rows.done_of_active hy).symm
  case round =>
    intro s left start panel p pivot hb he hp h hcopied
    have hs : s < L.e := by lia
    have hb' : L.b ≤ s + 1 := Nat.le_succ_of_le hb
    refine ⟨L.rightPanel s (L.scaled panel s p),
      L.nextWork s (L.received panel s p) (L.rightPanel s (L.scaled panel s p)),
      pdpanrlColumn_eq hb he hp, L.located_next _ _ _, ?_, ?_, ?_⟩
    · refine h.update hb' hs ?_ ?_ ?_ ?_
      · constructor
        case a =>
          intro r i j hout
          exact Or.inl (if_neg fun hin => hout hin)
        case l1 => exact fun _ _ _ _ => rfl
        case dpiv => exact fun _ => rfl
        case dinfo => exact fun _ => rfl
      · constructor
        case low => exact fun x _ hx _ _ => Elimination.Rows.le_done hb hx
        case le => exact fun x _ _ _ _ => min_le_min_right _ (Nat.le_succ s)
        case done => exact fun _ _ _ _ _ => le_rfl
        case ready =>
          intro x j k hx _ _ _ hk
          have hks : k < s := hk.trans_le (Elimination.Rows.done_le s x)
          rw [done_upper hks.le, done_upper (hks.le.trans (Nat.le_succ s))]
      · intro r i j hfirst hstop hsj hje
        have hx := (L.active_iff hb' hs (r, i)).mpr ⟨hfirst, hstop⟩
        rw [Elimination.Rows.done_of_active hx,
          Elimination.Rows.done_of_active (hx.mono (Nat.le_succ s)),
          Nat.Ico_succ_singleton, Finset.sum_singleton]
        exact if_pos ⟨⟨hfirst, hstop⟩, hsj, hje⟩
      · intro r k j _ hk _ _
        rw [done_upper (Nat.le_of_lt_succ hk), done_upper hk.le, Finset.Ico_self,
          Finset.sum_empty, sub_zero]
        rfl
    · intro k j hbk hk hj _
      refine Eq.trans (if_neg ?_) (hcopied k j hbk hk hj trivial)
      rintro ⟨⟨hfirst, _⟩, _⟩
      rw [first, if_pos rfl] at hfirst
      lia
    · intro k j hk
      refine if_neg ?_
      rintro ⟨⟨hfirst, _⟩, _⟩
      rw [first, if_pos rfl] at hfirst
      lia

end Right

/-!
## The next column
-/

section Left

variable [Field α] [LinearOrder α]

def leftPanel (s : Nat) (panel : Fin n -> Panel α) (r : Fin n) : Panel α :=
  let l1 := dtrsv (s + 1 - L.b) (panel r).l1 L.b L.b (panel r).l1 L.b (s + 1)
  { panel r with
    a := fun i j =>
      if j = s + 1 then
        if L.first (s + 1) r ≤ i ∧ i < L.stop r then
          (panel r).a i j -
            ∑ k ∈ Finset.Ico L.b (s + 1), (panel r).a i k * l1 k j
        else if r = L.prow ∧ L.b ≤ i ∧ i < s + 1 then l1 i j
        else (panel r).a i j
      else (panel r).a i j
    l1 := l1 }

omit [LinearOrder α] in
theorem leftPanel_l1 {s : Nat} (hb : L.b ≤ s + 1) (panel : Fin n -> Panel α)
    (r : Fin n) (k j : Nat) :
    (L.leftPanel s panel r).l1 k j =
      if (L.b ≤ k ∧ k < s + 1) ∧ j = s + 1 then
        (panel r).l1 k j - ∑ l ∈ Finset.Ico L.b k,
          (panel r).l1 k l * (L.leftPanel s panel r).l1 l j
      else (panel r).l1 k j := by
  have hcount : L.b + (s + 1 - L.b) = s + 1 := Nat.add_sub_cancel' hb
  have hsolve := dtrsv_apply (s + 1 - L.b) (panel r).l1 L.b (panel r).l1 (s + 1)
    k j
  rw [hcount] at hsolve
  exact hsolve

variable {L} {s : Nat} {panel start : Fin n -> Panel α}
  {p : Fin n × Nat} {pivot : Nat -> Fin n × Nat}

theorem scaleColumn_l1 (m i0 jj : Nat) (panel : Panel α) (work : Work α)
    (l1 : Nat -> Nat -> α) :
    scaleColumn m i0 jj { panel with l1 := l1 } work =
      { scaleColumn m i0 jj panel work with l1 := l1 } := by
  unfold scaleColumn
  split <;> rfl

theorem scaled_l1_eq (panel : Fin n -> Panel α) (s : Nat) (p : Fin n × Nat)
    (r : Fin n) : (L.scaled panel s p r).l1 = (L.swapped panel s p r).l1 := by
  rw [scaled_eq]

theorem pdpanllColumn_eq (hb : L.b ≤ s) (hs : s + 1 < L.e)
    (hp : L.Greatest panel s p) (r : Fin n) :
    pdpanllColumn (L.info r) L.b (L.first s r) (L.first (s + 1) r)
        (L.stop r - L.first (s + 1) r) s (L.chosen panel s p r)
        (L.received panel s p) =
      (L.leftPanel s (L.scaled panel s p) r,
        L.nextWork s (L.received panel s p)
          (L.leftPanel s (L.scaled panel s p)) r) := by
  have hfirst := hp.first_le L hb (by lia)
  have hcount : L.b + (s + 1 - L.b) = s + 1 :=
    Nat.add_sub_cancel' (Nat.le_succ_of_le hb)
  let l1 := (L.leftPanel s (L.scaled panel s p) r).l1
  let a := dgemvN (L.stop r - L.first (s + 1) r) (s + 1 - L.b) (-1)
    (L.scaled panel s p r).a (L.first (s + 1) r) L.b l1 L.b (s + 1)
    (L.scaled panel s p r).a (L.first (s + 1) r) (s + 1)
  have hrows : (if (L.info r).myrow = (L.info r).prow then
      dlacpy (s + 1 - L.b) 1 l1 L.b (s + 1) a L.b (s + 1) else a) =
        (L.leftPanel s (L.scaled panel s p) r).a := by
    funext i j
    have ha : a i j = _ := dgemvN_apply _ _ _ _ _ _ _ _ _ _
    have hcopy := dlacpy_apply (s + 1 - L.b) 1 l1 L.b (s + 1) a i j
    have hleft : (L.leftPanel s (L.scaled panel s p) r).a i j =
        if j = s + 1 then
          if L.first (s + 1) r ≤ i ∧ i < L.stop r then
            (L.scaled panel s p r).a i j - ∑ k ∈ Finset.Ico L.b (s + 1),
              (L.scaled panel s p r).a i k * l1 k j
          else if r = L.prow ∧ L.b ≤ i ∧ i < s + 1 then l1 i j
          else (L.scaled panel s p r).a i j
        else (L.scaled panel s p r).a i j := rfl
    rw [L.first_add_sub hs.le, hcount] at ha
    rw [hcount, ha] at hcopy
    rw [hleft]
    clear hleft
    simp only [L.info_myrow_eq]
    generalize ∑ k ∈ Finset.Ico L.b (s + 1),
      (L.scaled panel s p r).a i k * l1 k j = y at ha hcopy ⊢
    split
    case isTrue hr =>
      have hfirst' : L.first (s + 1) r = s + 1 := if_pos hr
      rw [hcopy, hfirst']
      clear ha hcopy
      grind
    case isFalse hr =>
      rw [ha]
      clear ha hcopy
      grind
  have hnext : forall i, a (L.first (s + 1) r + i) (s + 1) =
      (L.leftPanel s (L.scaled panel s p) r).a (L.first (s + 1) r + i)
        (s + 1) := by
    intro i
    rw [← hrows]
    simp only [L.info_myrow_eq]
    split
    case isTrue hr =>
      rw [dlacpy_apply, if_neg]
      rintro ⟨⟨_, hlt⟩, _⟩
      rw [hcount, first, if_pos hr] at hlt
      lia
    case isFalse _ => rfl
  simp only [pdpanllColumn, L.dlocswpN_eq panel hfirst r, scaleColumn_l1,
    ← scaled_l1_eq]
  refine Prod.ext
    (congrArg (fun a => { L.scaled panel s p r with a := a, l1 := l1 }) hrows) ?_
  exact congrArg
    (fun loc => { L.received panel s p with
      max := { (L.received panel s p).max with toLocMax := loc } })
    (dlocmax_congr (L.info r) fun i _ => hnext i)

theorem rounds_left :
    L.Rounds (α := α) (fun r _ => pdpanllColumn (L.info r) L.b)
      fun s x j => if j = s then L.sub.done s x else L.b := by
  constructor
  case start =>
    intro x j hx
    rw [Elimination.Rows.done, min_eq_left (L.sub.le_level x hx), ite_self]
  case ready => exact fun s x _ => if_pos rfl
  case uniform =>
    intro s x y j _ _ hj
    rw [if_neg hj.ne', if_neg hj.ne']
  case round =>
    intro s left start panel p pivot hb he hp h hcopied
    have hs : s + 1 < L.e := by lia
    have hb' : L.b ≤ s + 1 := Nat.le_succ_of_le hb
    have hwidth := L.width
    have hl1 := L.leftPanel_l1 hb' (L.scaled panel s p)
    refine ⟨L.leftPanel s (L.scaled panel s p),
      L.nextWork s (L.received panel s p) (L.leftPanel s (L.scaled panel s p)),
      pdpanllColumn_eq hb hs hp, L.located_next _ _ _, ?_, ?_, ?_⟩
    · refine h.update hb' hs.le ?_ ?_ ?_ ?_
      · constructor
        case a =>
          intro r i j hout
          by_cases hj : j = s + 1
          · have hrow : ¬ (L.first (s + 1) r ≤ i ∧ i < L.stop r) := fun hrow =>
              hout ⟨hrow, hj.ge, hj ▸ hs⟩
            by_cases hupper : r = L.prow ∧ L.b ≤ i ∧ i < s + 1
            · refine Or.inr ⟨⟨hupper.left, hupper.right.right, by lia⟩, ?_⟩
              exact (if_pos hj).trans ((if_neg hrow).trans (if_pos hupper))
            · exact Or.inl ((if_pos hj).trans
                ((if_neg hrow).trans (if_neg hupper)))
          · exact Or.inl (if_neg hj)
        case l1 =>
          intro r k j hout
          rw [hl1, if_neg]
          rintro ⟨hrow, hj⟩
          exact hout ⟨hrow, hj.ge, hj ▸ hs⟩
        case dpiv => exact fun _ => rfl
        case dinfo => exact fun _ => rfl
      · have hbefore : forall j, s + 1 ≤ j -> j ≠ s := fun j hj => by lia
        constructor
        case low =>
          intro x j _ hj _
          rw [if_neg (hbefore j hj)]
        case le =>
          intro x j hx hj _
          rw [if_neg (hbefore j hj)]
          exact Elimination.Rows.le_ite_done _ hb' hx
        case done =>
          exact fun _ _ hx _ _ => Elimination.Rows.ite_done_le _ hb' hx
        case ready =>
          intro x j k _ hj _ hbk hk
          rw [if_neg (hbefore j hj)] at hk
          exact absurd hbk (Nat.not_le.mpr hk)
      · intro r i j hfirst hstop hj _
        have hx := (L.active_iff hb' hs.le (r, i)).mpr ⟨hfirst, hstop⟩
        rw [if_neg (by lia : ¬ j = s), Elimination.Rows.done_of_active hx]
        by_cases hj' : j = s + 1
        · rw [if_pos hj']
          exact (if_pos hj').trans (if_pos ⟨hfirst, hstop⟩)
        · rw [if_neg hj', Finset.Ico_self, Finset.sum_empty, sub_zero]
          exact if_neg hj'
      · intro r k j hbk hk hj _
        rw [hl1, if_neg (by lia : ¬ j = s), done_upper hk.le]
        by_cases hj' : j = s + 1
        · rw [if_pos ⟨⟨hbk, hk⟩, hj'⟩, if_pos hj']
        · rw [if_neg fun h => hj' h.right, if_neg hj', Finset.Ico_self,
            Finset.sum_empty, sub_zero]
    · intro k j hbk hk hj _
      have hrow : ¬ (L.first (s + 1) L.prow ≤ k ∧ k < L.stop L.prow) := by
        rintro ⟨hfirst, _⟩
        rw [first, if_pos rfl] at hfirst
        lia
      by_cases hj' : j = s + 1
      · exact (if_pos hj').trans ((if_neg hrow).trans (if_pos ⟨rfl, hbk, hk⟩))
      · rw [hl1, if_neg fun h => hj' h.right, ← hcopied k j hbk hk hj trivial]
        exact if_neg hj'
    · intro k j hk
      have hrow : ¬ (L.first (s + 1) L.prow ≤ k ∧ k < L.stop L.prow) := by
        rintro ⟨hfirst, _⟩
        rw [first, if_pos rfl] at hfirst
        lia
      by_cases hj' : j = s + 1
      · exact (if_pos hj').trans ((if_neg hrow).trans (if_neg (by lia)))
      · exact if_neg hj'

end Left

/-!
## The next column and the next row
-/

section Crout

variable [Field α] [LinearOrder α]

/-- Row `s` of the upper factor, and the others as they are. -/
def croutUpper (s : Nat) (panel : Panel α) (k j : Nat) : α :=
  if k = s ∧ s < j ∧ j < L.e then
    panel.l1 s j - ∑ l ∈ Finset.Ico L.b s, panel.l1 s l * panel.l1 l j
  else panel.l1 k j

def croutPanel (s : Nat) (panel : Fin n -> Panel α) (r : Fin n) : Panel α :=
  { panel r with
    a := fun i j =>
      if (L.first (s + 1) r ≤ i ∧ i < L.stop r) ∧ j = s + 1 then
        (panel r).a i j - ∑ k ∈ Finset.Ico L.b (s + 1),
          (panel r).a i k * L.croutUpper s (panel r) k j
      else if (r = L.prow ∧ i = s) ∧ s < j ∧ j < L.e then
        L.croutUpper s (panel r) i j
      else (panel r).a i j
    l1 := L.croutUpper s (panel r) }

variable {L} {s : Nat} {panel start : Fin n -> Panel α}
  {p : Fin n × Nat} {pivot : Nat -> Fin n × Nat}

omit [LinearOrder α] in
theorem pdpancrRow_l1 {left : Nat} (hb : L.b ≤ s) (he : L.e = s + 2 + left)
    (r : Fin n) (ii : Nat) (panel : Panel α) :
    (pdpancrRow (L.info r) L.b (left + 1) ii s panel).l1 =
      L.croutUpper s panel := by
  have hcount : L.b + (s - L.b) = s := Nat.add_sub_cancel' hb
  have hend : s + 1 + (left + 1) = L.e := by lia
  funext k j
  unfold pdpancrRow croutUpper
  by_cases hkk : s - L.b > 0
  · rw [if_pos hkk]
    have hrow := dgemvT_apply (s - L.b) (left + 1) panel.l1 L.b (s + 1) panel.l1 s
      panel.l1 s k j
    rw [hcount, hend] at hrow
    refine hrow.trans ?_
    split
    case isTrue hin => rw [if_pos (show k = s ∧ s < j ∧ j < L.e from hin), hin.left]
    case isFalse hin => rw [if_neg (show ¬ (k = s ∧ s < j ∧ j < L.e) from hin)]
  · have hsb : L.b = s := by lia
    rw [if_neg hkk, hsb, Finset.Ico_self, Finset.sum_empty, sub_zero]
    split
    case isTrue hin => rw [hin.left]
    case isFalse _ => rfl

omit [LinearOrder α] in
theorem pdpancrRow_a {left : Nat} (hb : L.b ≤ s) (he : L.e = s + 2 + left)
    (r : Fin n) (panel : Panel α)
    (hrow : r = L.prow -> forall j, s < j -> j < L.e ->
      panel.a s j = panel.l1 s j) (i j : Nat) :
    (pdpancrRow (L.info r) L.b (left + 1) (L.first s r) s panel).a i j =
      if (r = L.prow ∧ i = s) ∧ s < j ∧ j < L.e then L.croutUpper s panel i j
      else panel.a i j := by
  have hl1 := pdpancrRow_l1 hb he r (L.first s r) panel
  have hend : s + 1 + (left + 1) = L.e := by lia
  by_cases hkk : s - L.b > 0
  · have hupper : dgemvT (s - L.b) (left + 1) (-1) panel.l1 L.b (s + 1) panel.l1 s
        L.b panel.l1 s (s + 1) = L.croutUpper s panel := by
      rw [← hl1, pdpancrRow, if_pos hkk]
    rw [pdpancrRow, if_pos hkk]
    simp only [hupper, L.info_myrow_eq]
    by_cases hr : r = L.prow
    · have hfirst : L.first s r = s := if_pos hr
      have hone : (s ≤ i ∧ i < s + 1) <-> i = s := by lia
      have hcopy := dlacpy_apply 1 (left + 1) (L.croutUpper s panel) s (s + 1)
        panel.a i j
      rw [hend] at hcopy
      rw [if_pos hr, hfirst, hcopy]
      simp only [hone, hr, true_and, Nat.succ_le_iff]
    · simp only [hr, if_false, false_and]
  · have hsb : L.b = s := by lia
    rw [pdpancrRow, if_neg hkk]
    split
    case isTrue hin =>
      rw [croutUpper, if_pos ⟨hin.left.right, hin.right⟩, hsb, Finset.Ico_self,
        Finset.sum_empty, sub_zero, hin.left.right]
      exact hrow hin.left.left j hin.right.left hin.right.right
    case isFalse _ => rfl

omit [LinearOrder α] in
theorem pdpancrRow_eq {left : Nat} (hb : L.b ≤ s) (he : L.e = s + 2 + left)
    (r : Fin n) (panel : Panel α)
    (hrow : r = L.prow -> forall j, s < j -> j < L.e ->
      panel.a s j = panel.l1 s j) :
    pdpancrRow (L.info r) L.b (left + 1) (L.first s r) s panel =
      { panel with
        a := fun i j =>
          if (r = L.prow ∧ i = s) ∧ s < j ∧ j < L.e then
            L.croutUpper s panel i j
          else panel.a i j
        l1 := L.croutUpper s panel } := by
  have heq : pdpancrRow (L.info r) L.b (left + 1) (L.first s r) s panel =
      { panel with
        a := (pdpancrRow (L.info r) L.b (left + 1) (L.first s r) s panel).a
        l1 :=
          (pdpancrRow (L.info r) L.b (left + 1) (L.first s r) s panel).l1 } := by
    by_cases hkk : s - L.b > 0
    · simp only [pdpancrRow, hkk, if_true]
    · simp only [pdpancrRow, hkk, if_false]
  rw [heq, pdpancrRow_l1 hb he]
  exact congrArg (fun a => { panel with a := a, l1 := L.croutUpper s panel })
    (funext fun i => funext fun j => pdpancrRow_a hb he r panel hrow i j)

theorem croutUpper_scaled (panel : Fin n -> Panel α) (s : Nat) (p : Fin n × Nat)
    (r : Fin n) : L.croutUpper s (L.scaled panel s p r) =
      L.croutUpper s (L.swapped panel s p r) := by
  funext k j
  rw [croutUpper, croutUpper, scaled_l1_eq]

variable [IsStrictOrderedRing α]

/-- The row of the upper factor is updated before the column is scaled, but it
could be done afterwards. -/
theorem crout_scaled {left : Nat} (hb : L.b ≤ s) (he : L.e = s + 2 + left)
    (hp : L.Greatest panel s p) (r : Fin n) :
    scaleColumn (L.stop r - L.first (s + 1) r) (L.first (s + 1) r) s
        (pdpancrRow (L.info r) L.b (left + 1) (L.first s r) s
          (L.swapped panel s p r)) (L.received panel s p) =
      { L.scaled panel s p r with
        a := fun i j =>
          if (r = L.prow ∧ i = s) ∧ s < j ∧ j < L.e then
            L.croutUpper s (L.scaled panel s p r) i j
          else (L.scaled panel s p r).a i j
        l1 := L.croutUpper s (L.scaled panel s p r) } := by
  have hs : s < L.e := by lia
  have hwidth := L.width
  have hrow : r = L.prow -> forall j, s < j -> j < L.e ->
      (L.swapped panel s p r).a s j = (L.swapped panel s p r).l1 s j := by
    intro hr j hsj hje
    have hj : j < L.jb := hje.trans_le hwidth
    have hcopied := (hp.factorization hb hs).copied s j le_rfl
      (Nat.lt_succ_self s) hj
    change (L.scaled panel s p L.prow).a s j = _ at hcopied
    rw [L.scaled_a hs, if_neg fun h => hsj.ne' h.right] at hcopied
    rw [hr, ← scaled_l1_eq]
    exact hcopied
  have ha : forall i j, (L.scaled panel s p r).a i j = _ := fun i j =>
    scaleColumn_a (L.stop r - L.first (s + 1) r) (L.first (s + 1) r) s
      (L.swapped panel s p r) (L.received panel s p) i j
  rw [pdpancrRow_eq hb he r _ hrow, croutUpper_scaled, scaleColumn_eq, scaled_eq]
  refine congrArg (fun a => { L.swapped panel s p r with
    a := a, l1 := L.croutUpper s (L.swapped panel s p r) }) ?_
  funext i j
  rw [scaleColumn_a]
  simp only [ha, lt_self_iff_false, false_and, and_false, if_false]
  by_cases hj : j = s
  · simp only [hj, lt_self_iff_false, false_and, and_false, if_false]
  · simp only [hj, and_false, if_false]

theorem pdpancrColumn_eq {left : Nat} (hb : L.b ≤ s) (he : L.e = s + 2 + left)
    (hp : L.Greatest panel s p) (r : Fin n) :
    pdpancrColumn (L.info r) L.b (left + 1) (L.first s r) (L.first (s + 1) r)
        (L.stop r - L.first (s + 1) r) s (L.chosen panel s p r)
        (L.received panel s p) =
      (L.croutPanel s (L.scaled panel s p) r,
        L.nextWork s (L.received panel s p)
          (L.croutPanel s (L.scaled panel s p)) r) := by
  have hs : s + 1 < L.e := by lia
  have hfirst := hp.first_le L hb (by lia)
  have hcount : L.b + (s - L.b + 1) = s + 1 := by lia
  let a := fun i j =>
    if (r = L.prow ∧ i = s) ∧ s < j ∧ j < L.e then
      L.croutUpper s (L.scaled panel s p r) i j
    else (L.scaled panel s p r).a i j
  let l1 := L.croutUpper s (L.scaled panel s p r)
  have hrows : dgemvN (L.stop r - L.first (s + 1) r) (s - L.b + 1) (-1) a
      (L.first (s + 1) r) L.b l1 L.b (s + 1) a (L.first (s + 1) r) (s + 1) =
        (L.croutPanel s (L.scaled panel s p) r).a := by
    funext i j
    rw [dgemvN_apply, L.first_add_sub hs.le, hcount]
    simp only [croutPanel]
    split
    case isTrue hin =>
      -- the row of the upper factor is above these rows
      have hrow : ¬ (r = L.prow ∧ i = s) := by
        rintro ⟨hr, hi⟩
        have hle := hin.left.left
        rw [first, if_pos hr] at hle
        lia
      have hai : forall l, a i l = (L.scaled panel s p r).a i l := fun l =>
        if_neg fun h => hrow h.left
      simp only [hai]
      rfl
    case isFalse _ => rfl
  simp only [pdpancrColumn, L.dlocswpN_eq panel hfirst r, crout_scaled hb he hp r]
  refine Prod.ext
    (congrArg (fun a => { L.scaled panel s p r with a := a, l1 := l1 }) hrows) ?_
  exact congrArg
    (fun a => { L.received panel s p with
      max := { (L.received panel s p).max with
        toLocMax := dlocmax (L.info r) a (L.stop r - L.first (s + 1) r)
          (L.first (s + 1) r) (s + 1) } }) hrows

theorem rounds_crout :
    L.Rounds (α := α) (fun r => pdpancrColumn (L.info r) L.b)
      fun s x j => if L.sub.level x < s ∨ j = s then L.sub.done s x else L.b := by
  constructor
  case start =>
    intro x j hx
    rw [Elimination.Rows.done, min_eq_left (L.sub.le_level x hx), ite_self]
  case ready => exact fun s x _ => if_pos (Or.inr rfl)
  case uniform =>
    intro s x y j hx hy hj
    rw [if_neg (by have := hx.right; lia), if_neg (by have := hy.right; lia)]
  case round =>
    intro s left start panel p pivot hb he hp h hcopied
    have hs : s + 1 < L.e := by lia
    have hb' : L.b ≤ s + 1 := Nat.le_succ_of_le hb
    have hbefore : forall j, s + 1 ≤ j -> j ≠ s := fun j hj => by lia
    refine ⟨L.croutPanel s (L.scaled panel s p),
      L.nextWork s (L.received panel s p) (L.croutPanel s (L.scaled panel s p)),
      pdpancrColumn_eq hb he hp, L.located_next _ _ _, ?_, ?_, ?_⟩
    · refine h.update hb' hs.le ?_ ?_ ?_ ?_
      · constructor
        case a =>
          intro r i j hout
          have hcolumn : ¬ ((L.first (s + 1) r ≤ i ∧ i < L.stop r) ∧ j = s + 1) :=
            fun hin => hout ⟨hin.left, hin.right.ge, hin.right ▸ hs⟩
          by_cases hupper : (r = L.prow ∧ i = s) ∧ s < j ∧ j < L.e
          · have hi : i < s + 1 := by lia
            refine Or.inr ⟨⟨hupper.left.left, hi,
              hupper.right.right.trans_le L.width⟩, ?_⟩
            exact (if_neg hcolumn).trans (if_pos hupper)
          · exact Or.inl ((if_neg hcolumn).trans (if_neg hupper))
        case l1 =>
          intro r k j hout
          refine if_neg ?_
          rintro ⟨hk, hsj, hje⟩
          exact hout ⟨by lia, hsj, hje⟩
        case dpiv => exact fun _ => rfl
        case dinfo => exact fun _ => rfl
      · constructor
        case low =>
          exact fun _ _ hx _ _ => Elimination.Rows.le_ite_done _ hb hx
        case le =>
          intro x j hx hj _
          by_cases hupper : L.sub.level x < s
          · rw [if_pos (Or.inl hupper), if_pos (Or.inl (Nat.lt_succ_of_lt hupper))]
            exact min_le_min_right _ (Nat.le_succ s)
          · rw [if_neg (not_or.mpr ⟨hupper, hbefore j hj⟩)]
            exact Elimination.Rows.le_ite_done _ hb' hx
        case done =>
          exact fun _ _ hx _ _ => Elimination.Rows.ite_done_le _ hb' hx
        case ready =>
          intro x j k _ hj _ hbk hk
          by_cases hupper : L.sub.level x < s
          · rw [if_pos (Or.inl hupper)] at hk
            have hks : k < s := hk.trans_le (Elimination.Rows.done_le s x)
            rw [level_upper, if_pos (Or.inl hks), if_pos (Or.inl (Nat.lt_succ_of_lt hks)),
              done_upper hks.le, done_upper (hks.le.trans (Nat.le_succ s))]
          · rw [if_neg (not_or.mpr ⟨hupper, hbefore j hj⟩)] at hk
            exact absurd hbk (Nat.not_le.mpr hk)
      · intro r i j hfirst hstop hj _
        have hx := (L.active_iff hb' hs.le (r, i)).mpr ⟨hfirst, hstop⟩
        have hlow : ¬ L.sub.level (r, i) < s + 1 := Nat.not_lt.mpr hx.right
        have hlow' : ¬ L.sub.level (r, i) < s := fun h =>
          hlow (Nat.lt_succ_of_lt h)
        rw [if_neg (not_or.mpr ⟨hlow', hbefore j hj⟩),
          Elimination.Rows.done_of_active hx]
        by_cases hj' : j = s + 1
        · rw [if_pos (Or.inr hj')]
          exact if_pos ⟨⟨hfirst, hstop⟩, hj'⟩
        · rw [if_neg (not_or.mpr ⟨hlow, hj'⟩), Finset.Ico_self, Finset.sum_empty,
            sub_zero]
          refine (if_neg fun h => hj' h.right).trans (if_neg ?_)
          rintro ⟨⟨hr, hi⟩, _⟩
          rw [first, if_pos hr] at hfirst
          lia
      · intro r k j hbk hk hj hje
        rw [level_upper, if_pos (Or.inl hk), done_upper hk.le]
        by_cases hks : k = s
        · rw [hks, if_neg (not_or.mpr ⟨lt_irrefl s, hbefore j hj⟩)]
          refine (if_pos ⟨rfl, hj, hje⟩).trans ?_
          congr 1
          apply Finset.sum_congr rfl
          intro l hl
          have hls := (Finset.mem_Ico.mp hl).right
          exact congrArg _ (if_neg fun h => hls.ne h.left).symm
        · have hks' : k < s := by lia
          rw [if_pos (Or.inl hks'), done_upper hks'.le, Finset.Ico_self,
            Finset.sum_empty, sub_zero]
          exact if_neg fun h => hks h.left
    · intro k j hbk hk hj _
      have hrow : ¬ ((L.first (s + 1) L.prow ≤ k ∧ k < L.stop L.prow) ∧
          j = s + 1) := by
        rintro ⟨⟨hfirst, _⟩, _⟩
        rw [first, if_pos rfl] at hfirst
        lia
      by_cases hupper : k = s ∧ s < j ∧ j < L.e
      · exact (if_neg hrow).trans (if_pos ⟨⟨rfl, hupper.left⟩, hupper.right⟩)
      · refine (if_neg hrow).trans ((if_neg fun h =>
          hupper ⟨h.left.right, h.right⟩).trans ?_)
        exact (hcopied k j hbk hk hj trivial).trans (if_neg hupper).symm
    · intro k j hk
      refine (if_neg ?_).trans (if_neg (by lia))
      rintro ⟨⟨hfirst, _⟩, _⟩
      rw [first, if_pos rfl] at hfirst
      lia

end Crout

end Layout

section Variants

variable [Field α] [LinearOrder α] [IsStrictOrderedRing α]

theorem factors_pffun (fact : Fact) : FactorsOnly (α := α) (pffun fact) := by
  cases fact with
  | leftLooking =>
      exact factors_pdpanN fun _ _ => ⟨_, Layout.rounds_left⟩
  | crout =>
      exact factors_pdpanN fun _ _ => ⟨_, Layout.rounds_crout⟩
  | rightLooking =>
      exact factors_pdpanN fun _ _ => ⟨_, Layout.rounds_right⟩

end Variants

namespace Layout

section Runs

variable [Field α] [LinearOrder α] [IsStrictOrderedRing α]

end Runs

/-- All processes get a row with the greatest entry of the column, its number and
the current row.  The search compares and negates entries and does nothing else
with them. -/
theorem pdmxswp_delivers [LinearOrder α] [Zero α] [Neg α]
    (hneg : forall a : α, a < 0 -> 0 ≤ -a) (L : Layout n) {s : Nat}
    {panel : Fin n -> Panel α} {work : Fin n -> Work α} (hb : L.b ≤ s)
    (he : s < L.e) (hwork : L.Located s panel work) :
    exists p, L.Greatest panel s p ∧
      Delivers
        (fun r => pdmxswp (L.info r) (L.stop r - L.first s r) (L.first s r) s
          (panel r) (work r))
        fun r => (L.chosen panel s p r, L.received panel s p) := by
  rcases L.sync_pdmxswp hneg hb he hwork with ⟨p, hp, hsync⟩
  exact ⟨p, hp, hsync.delivers⟩

/-- Two process rows with two rows of the matrix each. -/
def twoRows : Layout 2 where
  prow := ⟨0, Nat.two_pos⟩
  jb := 2
  nb := 2
  ia := 0
  ii := fun _ => 0
  b := 0
  e := 2
  stop := fun _ => 2
  start := le_rfl
  columns := Nat.two_pos
  width := le_rfl
  enough := le_rfl

theorem pdmxswp_delivers_twoRows :
    let panel : Fin 2 -> Panel ℚ := fun r =>
      { a := fun i j => (2 * r + i) * (j + 1) + j
        l1 := fun _ _ => 0
        dpiv := fun _ => 0
        dinfo := 0 }
    let work : Fin 2 -> Work ℚ := fun r =>
      let loc := dlocmax (twoRows.info r) (panel r).a
        (twoRows.stop r - twoRows.first 0 r) (twoRows.first 0 r) 0
      { max := { loc with wmx := [] }, a0 := [] }
    exists p, twoRows.Greatest panel 0 p ∧
      Delivers
        (fun r => pdmxswp (twoRows.info r)
          (twoRows.stop r - twoRows.first 0 r) (twoRows.first 0 r) 0 (panel r)
          (work r))
        fun r => (twoRows.chosen panel 0 p r, twoRows.received panel 0 p) :=
  pdmxswp_delivers neg_nonneg_of_neg twoRows (Nat.le_refl 0)
    Nat.two_pos fun _ => rfl

end Layout

end HPL
end IPPD
