import IPPD.HPL.RecursivePanel

/-!
# The three ways to update the blocks

`HPL_pdrpanrlN` updates all columns behind a block.  `HPL_pdrpanllN` and
`HPL_pdrpancrN` update a block with all columns before it; the latter also
updates the rows of the upper factor behind the block.
-/

namespace IPPD
namespace HPL

open Foundation
open Foundation.Communicator (Delivers)

universe u

variable {α : Type u} {n : Nat}

namespace Layout

section Ways

variable [Field α] (L : Layout n) {s m : Nat}

variable {L} in
theorem updated_same {depth depth' : Fin n × Nat -> Nat -> Nat}
    (panel : Fin n -> Panel α)
    (hlow : forall x j, L.sub.inside x -> s ≤ j -> L.b ≤ depth x j)
    (hdone : forall x j, L.sub.inside x -> s ≤ j ->
      depth x j ≤ L.sub.done s x)
    (h : forall x j, s ≤ j -> depth' x j = depth x j) :
    L.Updated s depth depth' panel panel := by
  constructor
  case keeps =>
    constructor
    case a => exact fun _ _ _ _ => Or.inl rfl
    case l1 => exact fun _ _ _ _ => rfl
    case dpiv => exact fun _ => rfl
    case dinfo => exact fun _ => rfl
  case deepens =>
    constructor
    case low => exact fun x j hx hj _ => hlow x j hx hj
    case le => exact fun x j _ hj _ => (h x j hj).ge
    case done => exact fun x j hx hj _ => (h x j hj).trans_le (hdone x j hx hj)
    case ready => exact fun x j k _ hj _ _ _ => h _ j hj
  case rows =>
    intro r i j _ _ hj _
    rw [h _ j hj, Finset.Ico_self, Finset.sum_empty, sub_zero]
  case upper =>
    intro r k j _ _ hj _
    rw [h _ j hj, Finset.Ico_self, Finset.sum_empty, sub_zero]

/-!
## All columns behind
-/

/-- `HPL_pdrpanrlN` behind a block. -/
def rightAfter (s m : Nat) (panel : Fin n -> Panel α) (r : Fin n) : Panel α :=
  rightUpdates.after L.b s (m - s) (L.e - m) (L.stop r - L.first m r)
    (L.first m r) (panel r)

theorem rightAfter_l1 (hsm : s ≤ m) (hm : m ≤ L.e) (panel : Fin n -> Panel α)
    (r : Fin n) (k j : Nat) :
    (L.rightAfter s m panel r).l1 k j =
      if (s ≤ k ∧ k < m) ∧ m ≤ j ∧ j < L.e then
        (panel r).l1 k j - ∑ l ∈ Finset.Ico s k,
          (panel r).l1 k l * (L.rightAfter s m panel r).l1 l j
      else (panel r).l1 k j := by
  have hblock : s + (m - s) = m := Nat.add_sub_cancel' hsm
  have hend : m + (L.e - m) = L.e := Nat.add_sub_cancel' hm
  have hsolve := dtrsm_apply (m - s) (L.e - m) (panel r).l1 s (panel r).l1
    (s + (m - s)) k j
  rw [hblock, hend] at hsolve
  simp only [rightAfter, rightUpdates, hblock]
  exact hsolve

theorem rightAfter_a (hsm : s ≤ m) (hm : m ≤ L.e) (panel : Fin n -> Panel α)
    (r : Fin n) (i j : Nat) :
    (L.rightAfter s m panel r).a i j =
      if (L.first m r ≤ i ∧ i < L.stop r) ∧ m ≤ j ∧ j < L.e then
        (panel r).a i j - ∑ k ∈ Finset.Ico s m,
          (panel r).a i k * (L.rightAfter s m panel r).l1 k j
      else (panel r).a i j := by
  have hblock : s + (m - s) = m := Nat.add_sub_cancel' hsm
  have hend : m + (L.e - m) = L.e := Nat.add_sub_cancel' hm
  have hproduct := dgemm_apply (L.stop r - L.first m r) (L.e - m) (m - s)
    (panel r).a (L.first m r) s (L.rightAfter s m panel r).l1 (s + (m - s))
    (panel r).a i j
  rw [L.first_add_sub hm, hblock, hend] at hproduct
  refine Eq.trans ?_ hproduct
  simp only [rightAfter, rightUpdates, hblock]

theorem updated_rightAfter (hb : L.b ≤ s) (hsm : s < m) (hm : m ≤ L.e)
    (panel : Fin n -> Panel α) :
    L.Updated m (fun x _ => L.sub.done s x) (fun x _ => L.sub.done m x) panel
      (L.rightAfter s m panel) := by
  have hl1 := L.rightAfter_l1 hsm.le hm panel
  have ha := L.rightAfter_a hsm.le hm panel
  have hbm : L.b ≤ m := hb.trans hsm.le
  constructor
  case keeps =>
    constructor
    case a => exact fun r i j hout => Or.inl ((ha r i j).trans (if_neg hout))
    case l1 =>
      intro r k j hout
      rw [hl1, if_neg]
      exact fun hin => hout ⟨⟨hb.trans hin.left.left, hin.left.right⟩, hin.right⟩
    case dpiv => exact fun _ => rfl
    case dinfo => exact fun _ => rfl
  case deepens =>
    constructor
    case low => exact fun x _ hx _ _ => Elimination.Rows.le_done hb hx
    case le => exact fun x _ _ _ _ => min_le_min_right _ hsm.le
    case done => exact fun _ _ _ _ _ => le_rfl
    case ready =>
      intro x j k hx _ _ _ hk
      have hks : k < s := hk.trans_le (Elimination.Rows.done_le s x)
      rw [done_upper hks.le, done_upper (hks.le.trans hsm.le)]
  case rows =>
    intro r i j hfirst hstop hj hje
    have hx := (L.active_iff hbm hm (r, i)).mpr ⟨hfirst, hstop⟩
    rw [Elimination.Rows.done_of_active hx,
      Elimination.Rows.done_of_active (hx.mono hsm.le), ha,
      if_pos ⟨⟨hfirst, hstop⟩, hj, hje⟩]
  case upper =>
    intro r k j _ hkm hj hje
    rw [done_upper hkm.le]
    rcases Nat.lt_or_ge k s with hks | hsk
    · rw [done_upper hks.le, Finset.Ico_self, Finset.sum_empty, sub_zero, hl1,
        if_neg (by lia)]
    · rw [done_below hsk, hl1, if_pos ⟨⟨hsk, hkm⟩, hj, hje⟩]

theorem blocks_right :
    L.Blocks (α := α) rightUpdates (fun s x _ => L.sub.done s x)
      fun s _ x _ => L.sub.done s x := by
  constructor
  case start => exact fun x _ hx => min_eq_left (L.sub.le_level x hx)
  case before =>
    intro s m panel hb _ _
    refine updated_same panel ?_ ?_ ?_
    · exact fun _ _ hx _ => Elimination.Rows.le_done hb hx
    · exact fun _ _ _ _ => le_rfl
    · exact fun _ _ _ => rfl
  case done => exact fun _ _ _ _ _ _ _ => rfl
  case uniform =>
    intro s m x y _ hx hy _
    exact (Elimination.Rows.done_of_active hx).trans
      (Elimination.Rows.done_of_active hy).symm
  case after =>
    exact fun _ _ panel hb hsm hm => L.updated_rightAfter hb hsm hm panel

/-!
## The block
-/

/-- `HPL_pdrpanllN` before the factorization of a block. -/
def leftBefore (s m : Nat) (panel : Fin n -> Panel α) (r : Fin n) : Panel α :=
  leftUpdates.before L.b s (m - s) (L.stop r - L.first s r) (L.first s r) (panel r)

theorem leftBefore_l1 (hb : L.b ≤ s) (hsm : s ≤ m) (panel : Fin n -> Panel α)
    (r : Fin n) (k j : Nat) :
    (L.leftBefore s m panel r).l1 k j =
      if (L.b ≤ k ∧ k < s) ∧ s ≤ j ∧ j < m then
        (panel r).l1 k j - ∑ l ∈ Finset.Ico L.b k,
          (panel r).l1 k l * (L.leftBefore s m panel r).l1 l j
      else (panel r).l1 k j := by
  have hblock : s + (m - s) = m := Nat.add_sub_cancel' hsm
  have hdone : L.b + (s - L.b) = s := Nat.add_sub_cancel' hb
  have hsolve := dtrsm_apply (s - L.b) (m - s) (panel r).l1 L.b (panel r).l1 s k j
  rw [hblock, hdone] at hsolve
  exact hsolve

theorem leftBefore_a (hb : L.b ≤ s) (hsm : s ≤ m) (hm : m ≤ L.e)
    (panel : Fin n -> Panel α) (r : Fin n) (i j : Nat) :
    (L.leftBefore s m panel r).a i j =
      if (L.first s r ≤ i ∧ i < L.stop r) ∧ s ≤ j ∧ j < m then
        (panel r).a i j - ∑ k ∈ Finset.Ico L.b s,
          (panel r).a i k * (L.leftBefore s m panel r).l1 k j
      else (panel r).a i j := by
  have hblock : s + (m - s) = m := Nat.add_sub_cancel' hsm
  have hdone : L.b + (s - L.b) = s := Nat.add_sub_cancel' hb
  have hproduct := dgemm_apply (L.stop r - L.first s r) (m - s) (s - L.b)
    (panel r).a (L.first s r) L.b (L.leftBefore s m panel r).l1 s (panel r).a i j
  rw [L.first_add_sub (hsm.trans hm), hblock, hdone] at hproduct
  exact hproduct

theorem updated_leftBefore (hb : L.b ≤ s) (hsm : s < m) (hm : m ≤ L.e)
    (panel : Fin n -> Panel α) :
    L.Updated s (fun _ _ => L.b)
      (fun x j => if j < m then L.sub.done s x else L.b) panel
      (L.leftBefore s m panel) := by
  have hl1 := L.leftBefore_l1 hb hsm.le panel
  have ha := L.leftBefore_a hb hsm.le hm panel
  constructor
  case keeps =>
    constructor
    case a =>
      intro r i j hout
      exact Or.inl ((ha r i j).trans (if_neg fun hin =>
        hout ⟨hin.left, hin.right.left, hin.right.right.trans_le hm⟩))
    case l1 =>
      intro r k j hout
      exact (hl1 r k j).trans (if_neg fun hin =>
        hout ⟨hin.left, hin.right.left, hin.right.right.trans_le hm⟩)
    case dpiv => exact fun _ => rfl
    case dinfo => exact fun _ => rfl
  case deepens =>
    constructor
    case low => exact fun _ _ _ _ _ => le_rfl
    case le =>
      exact fun _ _ hx _ _ => Elimination.Rows.le_ite_done _ hb hx
    case done =>
      exact fun _ _ hx _ _ => Elimination.Rows.ite_done_le _ hb hx
    case ready => exact fun _ _ _ _ _ _ hbk hk => absurd hbk (Nat.not_le.mpr hk)
  case rows =>
    intro r i j hfirst hstop hj _
    have hx := (L.active_iff hb (hsm.le.trans hm) (r, i)).mpr ⟨hfirst, hstop⟩
    rw [Elimination.Rows.done_of_active hx, ha]
    by_cases hjm : j < m
    · rw [if_pos ⟨⟨hfirst, hstop⟩, hj, hjm⟩, if_pos hjm]
    · rw [if_neg fun hin => hjm hin.right.right, if_neg hjm, Finset.Ico_self,
        Finset.sum_empty, sub_zero]
  case upper =>
    intro r k j hbk hks hj _
    rw [done_upper hks.le, hl1]
    by_cases hjm : j < m
    · rw [if_pos ⟨⟨hbk, hks⟩, hj, hjm⟩, if_pos hjm]
    · rw [if_neg fun hin => hjm hin.right.right, if_neg hjm, Finset.Ico_self,
        Finset.sum_empty, sub_zero]

theorem blocks_left :
    L.Blocks (α := α) leftUpdates (fun _ _ _ => L.b)
      fun s m x j => if j < m then L.sub.done s x else L.b := by
  constructor
  case start => exact fun _ _ _ => rfl
  case before =>
    exact fun _ _ panel hb hsm hm => L.updated_leftBefore hb hsm hm panel
  case done => exact fun _ _ _ _ _ _ hj => if_pos hj
  case uniform =>
    intro s m x y j _ _ hj
    rw [if_neg (Nat.not_lt.mpr hj), if_neg (Nat.not_lt.mpr hj)]
  case after =>
    intro s m panel hb hsm _
    refine updated_same panel ?_ ?_ ?_
    · intro x j _ hj
      rw [if_neg (Nat.not_lt.mpr hj)]
    · intro x j hx hj
      rw [if_neg (Nat.not_lt.mpr hj)]
      exact Elimination.Rows.le_done (hb.trans hsm.le) hx
    · exact fun _ _ hj => (if_neg (Nat.not_lt.mpr hj)).symm

/-!
## The block and its rows
-/

/-- `HPL_pdrpancrN` before the factorization of a block. -/
def croutBefore (s m : Nat) (panel : Fin n -> Panel α) (r : Fin n) : Panel α :=
  croutUpdates.before L.b s (m - s) (L.stop r - L.first s r) (L.first s r)
    (panel r)

theorem croutBefore_a (hb : L.b ≤ s) (hsm : s ≤ m) (hm : m ≤ L.e)
    (panel : Fin n -> Panel α) (r : Fin n) (i j : Nat) :
    (L.croutBefore s m panel r).a i j =
      if (L.first s r ≤ i ∧ i < L.stop r) ∧ s ≤ j ∧ j < m then
        (panel r).a i j - ∑ k ∈ Finset.Ico L.b s,
          (panel r).a i k * (panel r).l1 k j
      else (panel r).a i j := by
  have hblock : s + (m - s) = m := Nat.add_sub_cancel' hsm
  have hdone : L.b + (s - L.b) = s := Nat.add_sub_cancel' hb
  have hproduct := dgemm_apply (L.stop r - L.first s r) (m - s) (s - L.b)
    (panel r).a (L.first s r) L.b (panel r).l1 s (panel r).a i j
  rw [L.first_add_sub (hsm.trans hm), hblock, hdone] at hproduct
  exact hproduct

/-- `HPL_pdrpancrN` behind a block. -/
def croutAfter (s m : Nat) (panel : Fin n -> Panel α) (r : Fin n) : Panel α :=
  croutUpdates.after L.b s (m - s) (L.e - m) (L.stop r - L.first m r)
    (L.first m r) (panel r)

theorem croutAfter_eq (panel : Fin n -> Panel α) (r : Fin n) :
    L.croutAfter s m panel r =
      { panel r with l1 := (L.croutAfter s m panel r).l1 } := by
  simp only [croutAfter, croutUpdates]
  split <;> rfl

/-- The product is with the columns before the block, the solution with the rows of
the block above. -/
theorem croutAfter_l1 (hb : L.b ≤ s) (hsm : s ≤ m) (hm : m ≤ L.e)
    (panel : Fin n -> Panel α) (r : Fin n) (k j : Nat) :
    (L.croutAfter s m panel r).l1 k j =
      if (s ≤ k ∧ k < m) ∧ m ≤ j ∧ j < L.e then
        (panel r).l1 k j - ∑ l ∈ Finset.Ico L.b k,
          (panel r).l1 k l * (L.croutAfter s m panel r).l1 l j
      else (panel r).l1 k j := by
  have hblock : s + (m - s) = m := Nat.add_sub_cancel' hsm
  have hdone : L.b + (s - L.b) = s := Nat.add_sub_cancel' hb
  have hend : m + (L.e - m) = L.e := Nat.add_sub_cancel' hm
  by_cases hn : L.e - m > 0
  · let l1 := dgemm (m - s) (L.e - m) (s - L.b) (-1) (panel r).l1 s L.b
      (panel r).l1 L.b m (panel r).l1 s m
    have hl1 : (L.croutAfter s m panel r).l1 =
        dtrsm (m - s) (L.e - m) l1 s s l1 s m := by
      simp only [croutAfter, croutUpdates, hn, if_true, hblock, l1]
    have hproduct : forall k j, l1 k j = _ := fun k j =>
      dgemm_apply (m - s) (L.e - m) (s - L.b) (panel r).l1 s L.b (panel r).l1 m
        (panel r).l1 k j
    have hsolve : forall k j, (L.croutAfter s m panel r).l1 k j = _ := fun k j =>
      (congrFun (congrFun hl1 k) j).trans
        (dtrsm_apply (m - s) (L.e - m) l1 s l1 m k j)
    rw [← hl1] at hsolve
    simp only [hblock, hdone, hend] at hproduct hsolve
    rw [hsolve]
    split
    case isTrue hin =>
      rw [hproduct, if_pos hin, sub_sub,
        ← Finset.sum_Ico_consecutive _ hb hin.left.left]
      congr 2
      · apply Finset.sum_congr rfl
        intro l hl
        have hls := (Finset.mem_Ico.mp hl).right
        rw [hsolve, if_neg (by lia), hproduct, if_neg (by lia)]
      · apply Finset.sum_congr rfl
        intro l hl
        have hlk := (Finset.mem_Ico.mp hl).right
        rw [hproduct k l, if_neg (by lia)]
    case isFalse hout => rw [hproduct, if_neg hout]
  · have hl1 : (L.croutAfter s m panel r).l1 = (panel r).l1 := by
      simp only [croutAfter, croutUpdates, hn, if_false]
    rw [hl1, if_neg (by lia)]

theorem updated_croutBefore (hb : L.b ≤ s) (hsm : s < m) (hm : m ≤ L.e)
    (panel : Fin n -> Panel α) :
    L.Updated s (fun x _ => if L.sub.level x < s then L.sub.done s x else L.b)
      (fun x j =>
        if L.sub.level x < s ∨ j < m then L.sub.done s x else L.b) panel
      (L.croutBefore s m panel) := by
  have ha := L.croutBefore_a hb hsm.le hm panel
  constructor
  case keeps =>
    constructor
    case a =>
      intro r i j hout
      exact Or.inl ((ha r i j).trans (if_neg fun hin =>
        hout ⟨hin.left, hin.right.left, hin.right.right.trans_le hm⟩))
    case l1 => exact fun _ _ _ _ => rfl
    case dpiv => exact fun _ => rfl
    case dinfo => exact fun _ => rfl
  case deepens =>
    constructor
    case low =>
      exact fun _ _ hx _ _ => Elimination.Rows.le_ite_done _ hb hx
    case le =>
      intro x j hx _ _
      by_cases hupper : L.sub.level x < s
      · rw [if_pos hupper, if_pos (Or.inl hupper)]
      · rw [if_neg hupper]
        exact Elimination.Rows.le_ite_done _ hb hx
    case done =>
      exact fun _ _ hx _ _ => Elimination.Rows.ite_done_le _ hb hx
    case ready =>
      intro x j k _ _ _ hbk hk
      have hks : k < s := by
        by_cases hupper : L.sub.level x < s
        · rw [if_pos hupper] at hk
          exact hk.trans_le (Elimination.Rows.done_le s x)
        · rw [if_neg hupper] at hk
          exact absurd hbk (Nat.not_le.mpr hk)
      rw [level_upper, if_pos (Or.inl hks), if_pos hks]
  case rows =>
    intro r i j hfirst hstop hj _
    have hx := (L.active_iff hb (hsm.le.trans hm) (r, i)).mpr ⟨hfirst, hstop⟩
    have hlow : ¬ L.sub.level (r, i) < s := Nat.not_lt.mpr hx.right
    rw [Elimination.Rows.done_of_active hx, ha, if_neg hlow]
    by_cases hjm : j < m
    · rw [if_pos ⟨⟨hfirst, hstop⟩, hj, hjm⟩, if_pos (Or.inr hjm)]
      rfl
    · rw [if_neg fun hin => hjm hin.right.right, if_neg (not_or.mpr ⟨hlow, hjm⟩),
        Finset.Ico_self, Finset.sum_empty, sub_zero]
  case upper =>
    intro r k j _ hks _ _
    rw [level_upper, if_pos hks, if_pos (Or.inl hks), Finset.Ico_self,
      Finset.sum_empty, sub_zero]
    rfl

theorem updated_croutAfter (hb : L.b ≤ s) (hsm : s < m) (hm : m ≤ L.e)
    (panel : Fin n -> Panel α) :
    L.Updated m
      (fun x j => if L.sub.level x < s ∨ j < m then L.sub.done s x else L.b)
      (fun x _ => if L.sub.level x < m then L.sub.done m x else L.b) panel
      (L.croutAfter s m panel) := by
  have hbm : L.b ≤ m := hb.trans hsm.le
  have hl1 := L.croutAfter_l1 hb hsm.le hm panel
  have hbefore : forall x j, m ≤ j ->
      (if L.sub.level x < s ∨ j < m then L.sub.done s x else L.b) =
        if L.sub.level x < s then L.sub.done s x else L.b := by
    intro x j hj
    simp only [Nat.not_lt.mpr hj, or_false]
  constructor
  case keeps =>
    constructor
    case a =>
      intro r i j _
      rw [croutAfter_eq]
      exact Or.inl rfl
    case l1 =>
      intro r k j hout
      exact (hl1 r k j).trans (if_neg fun hin =>
        hout ⟨⟨hb.trans hin.left.left, hin.left.right⟩, hin.right⟩)
    case dpiv =>
      intro r
      rw [croutAfter_eq]
    case dinfo =>
      intro r
      rw [croutAfter_eq]
  case deepens =>
    constructor
    case low =>
      exact fun _ _ hx _ _ => Elimination.Rows.le_ite_done _ hb hx
    case le =>
      intro x j hx hj _
      rw [hbefore x j hj]
      by_cases hupper : L.sub.level x < s
      · rw [if_pos hupper, if_pos (hupper.trans hsm)]
        exact min_le_min_right _ hsm.le
      · rw [if_neg hupper]
        exact Elimination.Rows.le_ite_done _ hbm hx
    case done =>
      exact fun _ _ hx _ _ => Elimination.Rows.ite_done_le _ hbm hx
    case ready =>
      intro x j k _ hj _ hbk hk
      rw [hbefore x j hj] at hk
      have hks : k < s := by
        by_cases hupper : L.sub.level x < s
        · rw [if_pos hupper] at hk
          exact hk.trans_le (Elimination.Rows.done_le s x)
        · rw [if_neg hupper] at hk
          exact absurd hbk (Nat.not_le.mpr hk)
      have hkm : k < m := hks.trans hsm
      rw [level_upper, if_pos hkm, if_pos (Or.inl hks), done_upper hkm.le,
        done_upper hks.le]
  case rows =>
    intro r i j hfirst hstop hj _
    have hx := (L.active_iff hbm hm (r, i)).mpr ⟨hfirst, hstop⟩
    have hlow : ¬ L.sub.level (r, i) < m := Nat.not_lt.mpr hx.right
    rw [hbefore _ j hj, if_neg hlow, if_neg fun h => hlow (h.trans hsm),
      Finset.Ico_self, Finset.sum_empty, sub_zero, croutAfter_eq]
  case upper =>
    intro r k j _ hkm hj hje
    rw [hbefore _ j hj, level_upper, if_pos hkm, done_upper hkm.le]
    rcases Nat.lt_or_ge k s with hks | hsk
    · rw [if_pos hks, done_upper hks.le, Finset.Ico_self, Finset.sum_empty,
        sub_zero, hl1, if_neg (by lia)]
    · rw [if_neg (Nat.not_lt.mpr hsk), hl1, if_pos ⟨⟨hsk, hkm⟩, hj, hje⟩]

theorem blocks_crout :
    L.Blocks (α := α) croutUpdates
      (fun s x _ => if L.sub.level x < s then L.sub.done s x else L.b)
      fun s m x j =>
        if L.sub.level x < s ∨ j < m then L.sub.done s x else L.b := by
  constructor
  case start =>
    intro x _ hx
    rw [Elimination.Rows.done, min_eq_left (L.sub.le_level x hx), ite_self]
  case before =>
    exact fun _ _ panel hb hsm hm => L.updated_croutBefore hb hsm hm panel
  case done => exact fun _ _ _ _ _ _ hj => if_pos (Or.inr hj)
  case uniform =>
    intro s m x y j hx hy hj
    have hx' : ¬ (L.sub.level x < s ∨ j < m) :=
      not_or.mpr ⟨Nat.not_lt.mpr hx.right, Nat.not_lt.mpr hj⟩
    have hy' : ¬ (L.sub.level y < s ∨ j < m) :=
      not_or.mpr ⟨Nat.not_lt.mpr hy.right, Nat.not_lt.mpr hj⟩
    rw [if_neg hx', if_neg hy']
  case after =>
    exact fun _ _ panel hb hsm hm => L.updated_croutAfter hb hsm hm panel

end Ways

/-!
## Every run
-/

section Runs

variable [Field α] [LinearOrder α] [IsStrictOrderedRing α]

end Runs

/-- Blocks of single columns, in halves. -/
def halves : Algo where
  pfact := Fact.leftLooking
  nbmin := 1
  nbdiv := 2
  one_le_nbmin := Nat.le_refl 1
  two_le_nbdiv := Nat.le_refl 2

end Layout

end HPL
end IPPD
