import IPPD.HPL.PanelRounds

/-!
# The recursive factorization of a panel

`HPL_pdrpanrlN`, `HPL_pdrpancrN` and `HPL_pdrpanllN` divide the columns into blocks
and call themselves for each block.  A block of few columns is factored column by
column.  The three functions differ in what they do with the block before it is
factored, and with the columns behind it afterwards.

The calls are those of a build without `HPL_CALL_VSIPL`.
-/

namespace IPPD
namespace HPL

open Foundation
open Foundation.Communicator (Sync Delivers)

universe u

variable {α : Type u} {n : Nat}

/-!
## The program
-/

/-- What the recursion uses of the parameters.  The driver refuses other values of
`nbmin` and `nbdiv`. -/
structure Algo where
  pfact : Fact
  nbmin : Nat
  nbdiv : Nat
  one_le_nbmin : 1 ≤ nbmin
  two_le_nbdiv : 2 ≤ nbdiv

namespace Algo

variable (algo : Algo)

/-- The width of the blocks of `n` columns. -/
def nb (n : Nat) : Nat :=
  ((n + algo.nbmin - 1) / algo.nbmin + algo.nbdiv - 1) / algo.nbdiv * algo.nbmin

theorem nb_pos {n : Nat} (h : algo.nbmin < n) : 0 < algo.nb n := by
  have hnbmin := algo.one_le_nbmin
  have hnbdiv := algo.two_le_nbdiv
  apply Nat.mul_pos _ hnbmin
  apply Nat.div_pos _ (by lia)
  have hblocks : 1 ≤ (n + algo.nbmin - 1) / algo.nbmin :=
    Nat.div_pos (by lia) hnbmin
  lia

theorem nb_lt {n : Nat} (h : algo.nbmin < n) : algo.nb n < n := by
  have hnbmin := algo.one_le_nbmin
  have hnbdiv := algo.two_le_nbdiv
  let q := (n + algo.nbmin - 1) / algo.nbmin
  have hq : 2 ≤ q := (Nat.le_div_iff_mul_le hnbmin).mpr (by lia)
  have hlast : q * algo.nbmin ≤ n + algo.nbmin - 1 := Nat.div_mul_le_self _ _
  have hc : (q + algo.nbdiv - 1) / algo.nbdiv ≤ q - 1 := by
    apply Nat.le_of_lt_succ
    apply (Nat.div_lt_iff_lt_mul (by lia)).mpr
    have hprod : q * 2 ≤ q * algo.nbdiv := Nat.mul_le_mul_left q hnbdiv
    have hsum : q + algo.nbdiv - 1 < q * algo.nbdiv := by
      rcases Nat.exists_eq_add_of_le hq with ⟨x, hx⟩
      rcases Nat.exists_eq_add_of_le hnbdiv with ⟨y, hy⟩
      rw [hx, hy]
      ring_nf
      lia
    rwa [Nat.succ_eq_add_one, Nat.sub_add_cancel (by lia)]
  have hwidth := Nat.mul_le_mul_right algo.nbmin hc
  rw [Nat.sub_mul, one_mul] at hwidth
  change (q + algo.nbdiv - 1) / algo.nbdiv * algo.nbmin < n
  lia

end Algo

/-- The updates around the factorization of the block of `jb` columns from `ioff`
on, where `icoff` is the first column of all and `n` columns are behind the block.
The rows of a process that are used start with row `ii`. -/
structure BlockUpdates (α : Type u) where
  before (icoff ioff jb m ii : Nat) : Panel α -> Panel α
  after (icoff ioff jb n m ii : Nat) : Panel α -> Panel α

section Programs

variable [Add α] [Sub α] [Neg α] [Mul α] [Div α] [Zero α] [One α]

/-- `HPL_pdrpanrlN`: the columns behind the block are updated with the block. -/
def rightUpdates : BlockUpdates α where
  before := fun _ _ _ _ _ panel => panel
  after := fun _ ioff jb n m ii panel =>
    let l1 := dtrsm jb n panel.l1 ioff ioff panel.l1 ioff (ioff + jb)
    let a := dgemm m n jb (-1) panel.a ii ioff l1 ioff (ioff + jb) panel.a ii
      (ioff + jb)
    { panel with a := a, l1 := l1 }

/-- `HPL_pdrpancrN`: the block is updated with the columns before it, and its rows
of the upper factor also behind it. -/
def croutUpdates : BlockUpdates α where
  before := fun icoff ioff jb m ii panel =>
    let a := dgemm m jb (ioff - icoff) (-1) panel.a ii icoff panel.l1 icoff ioff
      panel.a ii ioff
    { panel with a := a }
  after := fun icoff ioff jb n _ _ panel =>
    if n > 0 then
      let l1 := dgemm jb n (ioff - icoff) (-1) panel.l1 ioff icoff panel.l1 icoff
        (ioff + jb) panel.l1 ioff (ioff + jb)
      let l1 := dtrsm jb n l1 ioff ioff l1 ioff (ioff + jb)
      { panel with l1 := l1 }
    else panel

/-- `HPL_pdrpanllN`: the block is updated with the columns before it. -/
def leftUpdates : BlockUpdates α where
  before := fun icoff ioff jb m ii panel =>
    let l1 := dtrsm (ioff - icoff) jb panel.l1 icoff icoff panel.l1 icoff ioff
    let a := dgemm m jb (ioff - icoff) (-1) panel.a ii icoff l1 icoff ioff
      panel.a ii ioff
    { panel with a := a, l1 := l1 }
  after := fun _ _ _ _ _ _ panel => panel

/-- The rows of the upper factor above the block are copied back, also those of
columns before `icoff`. -/
def copyBack (info : PanelInfo) (ioff jb : Nat) (panel : Panel α) : Panel α :=
  if info.myrow = info.prow then
    { panel with a := dlacpy ioff jb panel.l1 0 ioff panel.a 0 ioff }
  else panel

variable [LinearOrder α]

mutual

/-- The columns from `icoff` on, `n` of them. -/
def pdrpanN (info : PanelInfo) (algo : Algo) (updates : BlockUpdates α)
    (m n icoff : Nat) (panel : Panel α) (work : Work α) :
    Program (Message α) (Panel α × Work α) :=
  if h : n ≤ algo.nbmin then pffun algo.pfact info m n icoff panel work
  else
    let ii := if info.myrow = info.prow then icoff else 0
    pdrpanLoop info algo updates icoff (algo.nb n)
      (algo.nb_pos (Nat.lt_of_not_le h)) icoff n m ii panel work
termination_by (n, 0)
decreasing_by
  exact Prod.Lex.left _ _ (algo.nb_lt (Nat.lt_of_not_le h))

/-- The loop over the blocks; `n` columns are left. -/
def pdrpanLoop (info : PanelInfo) (algo : Algo) (updates : BlockUpdates α)
    (icoff nb : Nat) (hnb : 0 < nb) (ioff n m ii : Nat) (panel : Panel α)
    (work : Work α) : Program (Message α) (Panel α × Work α) :=
  if n = 0 then Program.ret (panel, work)
  else
    let jb := min n nb
    let panel := updates.before icoff ioff jb m ii panel
    (pdrpanN info algo updates m jb ioff panel work).bind fun (panel, work) =>
      let curr := info.myrow = info.prow
      let ii := if curr then ii + jb else ii
      let m := if curr then m - jb else m
      let panel := updates.after icoff ioff jb (n - jb) m ii panel
      let panel := copyBack info ioff jb panel
      pdrpanLoop info algo updates icoff nb hnb (ioff + jb) (n - jb) m ii panel
        work
termination_by (nb, n + 1)
decreasing_by
  · rcases Nat.lt_or_ge (min n nb) nb with hlt | hge
    · exact Prod.Lex.left _ _ hlt
    · rw [le_antisymm (min_le_right n nb) hge]
      exact Prod.Lex.right _ (Nat.succ_pos n)
  · apply Prod.Lex.right
    lia

end

/-- The function that the variant stands for. -/
def rffun (rfact : Fact) (algo : Algo) (info : PanelInfo) :
    Nat -> Nat -> Nat -> Panel α -> Work α ->
      Program (Message α) (Panel α × Work α) :=
  match rfact with
  | Fact.leftLooking => pdrpanN info algo leftUpdates
  | Fact.crout => pdrpanN info algo croutUpdates
  | Fact.rightLooking => pdrpanN info algo rightUpdates

end Programs

/-!
## The loop over the blocks
-/

namespace Layout

section Loop

variable [Field α] {L : Layout n} {s m : Nat}
  {depth depth' : Fin n × Nat -> Nat -> Nat} {panel panel' : Fin n -> Panel α}

variable (L) in
/-- What an update does with the columns that are not eliminated. -/
structure Updated (s : Nat) (depth depth' : Fin n × Nat -> Nat -> Nat)
    (panel panel' : Fin n -> Panel α) : Prop where
  keeps : L.Keeps s panel panel'
  deepens : L.Deepens s depth depth'
  rows : forall r i j, L.first s r ≤ i -> i < L.stop r -> s ≤ j -> j < L.e ->
    (panel' r).a i j = (panel r).a i j -
      ∑ k ∈ Finset.Ico (depth (r, i) j) (depth' (r, i) j),
        (panel r).a i k * (panel' r).l1 k j
  upper : forall r k j, L.b ≤ k -> k < s -> s ≤ j -> j < L.e ->
    (panel' r).l1 k j = (panel r).l1 k j -
      ∑ l ∈ Finset.Ico (depth (L.prow, k) j) (depth' (L.prow, k) j),
        (panel r).l1 k l * (panel' r).l1 l j

omit [Field α] in
theorem copyBack_a (r : Fin n) (ioff jb : Nat) (panel : Panel α) (i j : Nat) :
    (copyBack (L.info r) ioff jb panel).a i j =
      if (r = L.prow ∧ i < ioff) ∧ ioff ≤ j ∧ j < ioff + jb then panel.l1 i j
      else panel.a i j := by
  unfold copyBack
  simp only [L.info_myrow_eq]
  by_cases hr : r = L.prow
  · have hrows : 0 ≤ i ∧ i < 0 + ioff <-> i < ioff := by lia
    have hcopy := dlacpy_apply ioff jb panel.l1 0 ioff panel.a i j
    rw [if_pos hr]
    refine hcopy.trans ?_
    simp only [hrows, hr, true_and]
  · simp only [hr, if_false, false_and]

omit [Field α] in
theorem copyBack_eq (r : Fin n) (ioff jb : Nat) (panel : Panel α) :
    copyBack (L.info r) ioff jb panel =
      { panel with a := (copyBack (L.info r) ioff jb panel).a } := by
  unfold copyBack
  split <;> rfl

omit [Field α] in
theorem copyBack_l1 (r : Fin n) (ioff jb : Nat) (panel : Panel α) :
    (copyBack (L.info r) ioff jb panel).l1 = panel.l1 := by
  rw [copyBack_eq]

/-- The rows that are copied back are not used any more. -/
theorem Updated.copyBack (hsm : s ≤ m) (hm : m ≤ L.e)
    (h : L.Updated m depth depth' panel panel') :
    L.Updated m depth depth' panel
      fun r => copyBack (L.info r) s (m - s) (panel' r) := by
  have hwidth := L.width
  have hend : s + (m - s) = m := Nat.add_sub_cancel' hsm
  constructor
  case keeps =>
    constructor
    case a =>
      intro r i j hout
      rw [copyBack_a, hend, copyBack_l1]
      split
      case isTrue hin =>
        refine Or.inr ⟨⟨hin.left.left, hin.left.right.trans_le hsm, ?_⟩, rfl⟩
        exact hin.right.right.trans_le (hm.trans hwidth)
      case isFalse _ => exact h.keeps.a r i j hout
    case l1 =>
      intro r k j hout
      rw [copyBack_l1]
      exact h.keeps.l1 r k j hout
    case dpiv =>
      intro r
      rw [copyBack_eq]
      exact h.keeps.dpiv r
    case dinfo =>
      intro r
      rw [copyBack_eq]
      exact h.keeps.dinfo r
  case deepens => exact h.deepens
  case rows =>
    intro r i j hfirst hstop hmj hje
    rw [copyBack_a, hend, if_neg (by lia), copyBack_l1]
    exact h.rows r i j hfirst hstop hmj hje
  case upper =>
    intro r k j hbk hkm hmj hje
    simp only [copyBack_l1]
    exact h.upper r k j hbk hkm hmj hje

omit [Field α] in
theorem Keeps.copied {places : Nat -> Nat -> Prop} (h : L.Keeps s panel panel')
    (hcopied : L.Copied s places panel) :
    L.Copied s (fun k j => places k j ∧ ¬ (s ≤ j ∧ j < L.e)) panel' := by
  intro k j hbk hk hj hplace
  have hrow : ¬ ((L.first s L.prow ≤ k ∧ k < L.stop L.prow) ∧
      s ≤ j ∧ j < L.e) := fun hin => hplace.right hin.right
  have hl1 := h.l1 L.prow k j fun hin => hplace.right hin.right
  rcases h.a L.prow k j hrow with heq | ⟨_, heq⟩
  · exact heq.trans ((hcopied k j hbk hk hj hplace.left).trans hl1.symm)
  · exact heq

omit [Field α] in
/-- With what is copied back, all rows above column `m` are copies in the columns
before it. -/
theorem Copied.copyBack (hsm : s ≤ m)
    (h : L.Copied m
      (fun k j => (s ≤ k ∨ j < s ∨ L.e ≤ j) ∧ ¬ (m ≤ j ∧ j < L.e))
      fun r => copyBack (L.info r) s (m - s) (panel r)) :
    L.Copied m (fun _ j => j < m ∨ L.e ≤ j)
      fun r => copyBack (L.info r) s (m - s) (panel r) := by
  intro k j hbk hkm hj hplace
  by_cases hback : k < s ∧ s ≤ j ∧ j < m
  · rw [copyBack_a, Nat.add_sub_cancel' hsm,
      if_pos ⟨⟨rfl, hback.left⟩, hback.right⟩, copyBack_l1]
  · exact h k j hbk hkm hj (by lia)

/-- What the updates around the blocks have to do: before the block that starts with
column `s` the depths are `depth s`, and when it ends before column `m` they are
`ready s m` while it is factored. -/
structure Blocks (L : Layout n) (updates : BlockUpdates α)
    (depth : Nat -> Fin n × Nat -> Nat -> Nat)
    (ready : Nat -> Nat -> Fin n × Nat -> Nat -> Nat) : Prop where
  start : forall x j, L.sub.inside x -> depth L.b x j = L.b
  before : forall (s m : Nat) (panel : Fin n -> Panel α), L.b ≤ s -> s < m ->
    m ≤ L.e -> L.Updated s (depth s) (ready s m) panel fun r =>
      updates.before L.b s (m - s) (L.stop r - L.first s r) (L.first s r) (panel r)
  done : forall s m x j, L.sub.inside x -> s ≤ j -> j < m ->
    ready s m x j = L.sub.done s x
  uniform : forall s m x y j, L.sub.Active s x -> L.sub.Active s y -> m ≤ j ->
    ready s m x j = ready s m y j
  after : forall (s m : Nat) (panel : Fin n -> Panel α), L.b ≤ s -> s < m ->
    m ≤ L.e -> L.Updated m (ready s m) (depth m) panel fun r =>
      updates.after L.b s (m - s) (L.e - m) (L.stop r - L.first m r)
        (L.first m r) (panel r)

variable [LinearOrder α]

/-- The programs before the block that starts with column `s`. -/
def blockCode (L : Layout n) (algo : Algo) (updates : BlockUpdates α) (nb : Nat)
    (hnb : 0 < nb) (s left : Nat) (panel : Fin n -> Panel α)
    (work : Fin n -> Work α) (r : Fin n) :
    Program (Message α) (Panel α × Work α) :=
  pdrpanLoop (L.info r) algo updates L.b nb hnb s left (L.stop r - L.first s r)
    (L.first s r) (panel r) (work r)

/-- The function factors the columns of the layout. -/
def Factored (L : Layout n) (algo : Algo) (updates : BlockUpdates α) : Prop :=
  forall (panel : Fin n -> Panel α) (work : Fin n -> Work α),
    exists (pivot : Nat -> Fin n × Nat) (res : Fin n -> Panel α × Work α),
      L.Factorization panel pivot (fun r => (res r).1) ∧
      Sync
        (fun r => pdrpanN (L.info r) algo updates (L.stop r - L.first L.b r)
          (L.e - L.b) L.b (panel r) (work r))
        fun r => Program.ret (res r)

variable {algo : Algo} {updates : BlockUpdates α} {nb : Nat} {hnb : 0 < nb}
  {work : Fin n -> Work α} {res : Fin n -> Panel α × Work α}

theorem sync_block {left : Nat} (hleft : left ≠ 0)
    (hblock : Sync
      (fun r => pdrpanN (L.info r) algo updates (L.stop r - L.first s r)
        (min left nb) s
        (updates.before L.b s (min left nb) (L.stop r - L.first s r)
          (L.first s r) (panel r)) (work r))
      fun r => Program.ret (res r)) :
    Sync (L.blockCode algo updates nb hnb s left panel work)
      (L.blockCode algo updates nb hnb (s + min left nb) (left - min left nb)
        (fun r => copyBack (L.info r) s (min left nb)
          (updates.after L.b s (min left nb) (left - min left nb)
            (L.stop r - L.first (s + min left nb) r)
            (L.first (s + min left nb) r) (res r).1))
        fun r => (res r).2) := by
  let round := fun (r : Fin n) (x : Panel α × Work α) =>
    let curr := (L.info r).myrow = (L.info r).prow
    let ii := if curr then L.first s r + min left nb else L.first s r
    let m := if curr then L.stop r - L.first s r - min left nb
      else L.stop r - L.first s r
    let panel := updates.after L.b s (min left nb) (left - min left nb) m ii x.1
    let panel := copyBack (L.info r) s (min left nb) panel
    pdrpanLoop (L.info r) algo updates L.b nb hnb (s + min left nb)
      (left - min left nb) m ii panel x.2
  have hstart : L.blockCode algo updates nb hnb s left panel work = fun r =>
      (pdrpanN (L.info r) algo updates (L.stop r - L.first s r) (min left nb) s
        (updates.before L.b s (min left nb) (L.stop r - L.first s r)
          (L.first s r) (panel r)) (work r)).bind (round r) := by
    funext r
    rw [blockCode, pdrpanLoop, if_neg hleft]
  have hend : (fun r => round r (res r)) =
      L.blockCode algo updates nb hnb (s + min left nb) (left - min left nb)
        (fun r => copyBack (L.info r) s (min left nb)
          (updates.after L.b s (min left nb) (left - min left nb)
            (L.stop r - L.first (s + min left nb) r)
            (L.first (s + min left nb) r) (res r).1))
        fun r => (res r).2 := by
    funext r
    simp only [round, L.info_myrow_eq, blockCode]
    by_cases hr : r = L.prow
    · simp only [hr, if_true, first, Nat.sub_sub]
    · simp only [hr, if_false, first]
  rw [hstart, ← hend]
  exact hblock.bind round

variable {start : Fin n -> Panel α} {pivot : Nat -> Fin n × Nat}

theorem Blocks.sync {depth : Nat -> Fin n × Nat -> Nat -> Nat}
    {ready : Nat -> Nat -> Fin n × Nat -> Nat -> Nat} {left : Nat}
    (hblocks : L.Blocks updates depth ready) (hnb : 0 < nb)
    (work : Fin n -> Work α)
    (hrec : forall (s m : Nat) (hs : L.b ≤ s) (hsm : s < m) (hm : m ≤ L.e),
      m - s ≤ nb -> (L.block hs hsm hm).Factored algo updates)
    (hb : L.b ≤ s) (he : L.e = s + left)
    (h : L.Progress start s (depth s) pivot panel)
    (hcopied : L.Copied s (fun _ j => j < s ∨ L.e ≤ j) panel) :
    exists (pivot' : Nat -> Fin n × Nat) (res : Fin n -> Panel α × Work α),
      L.Factorization start pivot' (fun r => (res r).1) ∧
      Sync (L.blockCode algo updates nb hnb s left panel work)
        fun r => Program.ret (res r) := by
  induction left using Nat.strong_induction_on generalizing s panel work pivot with
  | _ left ih =>
      by_cases hleft : left = 0
      · have hend : s = L.e := by lia
        rw [hend] at h hcopied
        refine ⟨pivot, fun r => (panel r, work r), h.factorization ?_, ?_⟩
        · exact hcopied.mono fun k j _ _ => Nat.lt_or_ge j L.e
        · have hcode : L.blockCode algo updates nb hnb s left panel work =
              fun r => Program.ret (panel r, work r) := by
            funext r
            rw [blockCode, pdrpanLoop, if_pos hleft]
          rw [hcode]
          exact Sync.refl _
      · let jb := min left nb
        let m := s + jb
        have hjb : 0 < jb := lt_min (Nat.pos_of_ne_zero hleft) hnb
        have hjbnb : jb ≤ nb := min_le_right left nb
        have hjbleft : jb ≤ left := min_le_left left nb
        have hsm : s < m := Nat.lt_add_of_pos_right hjb
        have hm : m ≤ L.e := by lia
        have hwidth : m - s = jb := Nat.add_sub_cancel_left s jb
        have hrest : L.e - m = left - jb := by lia
        have hbefore := hblocks.before s m panel hb hsm hm
        have h1 := h.update hb (hsm.le.trans hm) hbefore.keeps hbefore.deepens
          hbefore.rows hbefore.upper
        have hcopied1 := (hbefore.keeps.copied hcopied).mono
          fun k j _ (hj : j < s ∨ L.e ≤ j) => ⟨hj, by lia⟩
        rcases hrec s m hb hsm hm (hwidth ▸ hjbnb) _ work with
          ⟨pivot', res, hres, hsync⟩
        have h2 := h1.block hb hsm hm (hblocks.done s m) (hblocks.uniform s m)
          hres
        have hcopied2 := hcopied1.block hb hsm hm hres
        have hafter := (hblocks.after s m (fun r => (res r).1) hb hsm hm).copyBack
          hsm.le hm
        have h3 := h2.update (hb.trans hsm.le) hm hafter.keeps hafter.deepens
          hafter.rows hafter.upper
        have hcopied3 := (hafter.keeps.copied hcopied2).copyBack hsm.le
        rw [hwidth, hrest] at h3 hcopied3
        rcases ih (left - jb) (by lia) (fun r => (res r).2) (hb.trans hsm.le)
          (by lia) h3 hcopied3 with
          ⟨pivot'', res', hres', hsync'⟩
        have hblock : Sync
            (fun r => pdrpanN (L.info r) algo updates (L.stop r - L.first s r)
              (m - s) s
              (updates.before L.b s (m - s) (L.stop r - L.first s r)
                (L.first s r) (panel r)) (work r))
            fun r => Program.ret (res r) := hsync
        rw [hwidth] at hblock
        exact ⟨pivot'', res', hres', (sync_block hleft hblock).trans hsync'⟩

variable [IsStrictOrderedRing α]

/-- By induction on the number of columns. -/
theorem Blocks.factored (algo : Algo) {updates : BlockUpdates α}
    (hblocks : forall L : Layout n, exists depth ready,
      L.Blocks updates depth ready) (L : Layout n) : L.Factored algo updates := by
  generalize hsize : L.e - L.b = size
  induction size using Nat.strong_induction_on generalizing L with
  | _ size ih =>
      intro panel work
      have hcolumns := L.columns
      rcases Nat.lt_or_ge algo.nbmin size with hlarge | hsmall
      · rcases hblocks L with ⟨depth, ready, hL⟩
        have hrec : forall (s m : Nat) (hs : L.b ≤ s) (hsm : s < m) (hm : m ≤ L.e),
            m - s ≤ algo.nb size ->
              (L.block hs hsm hm).Factored algo updates := by
          intro s m hs hsm hm hnb
          exact ih (m - s) (hnb.trans_lt (algo.nb_lt hlarge)) _ rfl
        have he : L.e = L.b + size := by lia
        rcases hL.sync (algo.nb_pos hlarge) work hrec le_rfl he
          (progress_start panel (fun k => (L.prow, k)) hL.start)
          (copied_start _ panel) with ⟨pivot, res, hres, hsync⟩
        refine ⟨pivot, res, hres, ?_⟩
        have hcode : (fun r => pdrpanN (L.info r) algo updates
            (L.stop r - L.first L.b r) (L.e - L.b) L.b (panel r) (work r)) =
              L.blockCode algo updates (algo.nb size) (algo.nb_pos hlarge) L.b
                size panel work := by
          funext r
          simp only [hsize]
          rw [pdrpanN, dif_neg (Nat.not_le.mpr hlarge)]
          simp only [L.info_myrow_eq]
          rfl
        rw [hcode]
        exact hsync
      · rcases (factors_pffun algo.pfact).factors n L panel work with
          ⟨pivot, res, hres, hsync⟩
        refine ⟨pivot, res, hres, ?_⟩
        have hcode : (fun r => pdrpanN (L.info r) algo updates
            (L.stop r - L.first L.b r) (L.e - L.b) L.b (panel r) (work r)) =
              fun r => pffun algo.pfact (L.info r) (L.stop r - L.first L.b r)
                (L.e - L.b) L.b (panel r) (work r) := by
          funext r
          rw [pdrpanN, dif_pos (hsize ▸ hsmall)]
        rw [hcode]
        exact hsync

end Loop

end Layout

end HPL
end IPPD
