import IPPD.HPL.PivotColumn

/-!
# The factors of a panel

What the processes of a column have when some columns of their panel are
factored, how the factors of blocks of columns are put together, and what an
update of the columns behind them has to do.
-/

namespace IPPD
namespace HPL

open Foundation
open Foundation.Communicator (Sync Delivers)

universe u

variable {α : Type u} {n : Nat}

namespace Layout

variable (L : Layout n)

section Records

variable [Field α] [LinearOrder α]

/-- The interchanges of the columns below `s`. -/
def interchanges (pivot : Nat -> Fin n × Nat) (s : Nat) :
    Equiv.Perm (Fin n × Nat) :=
  Elimination.interchanges L.sub.current pivot L.b (s - L.b)

/-- What is recorded of the columns below `s`, and what has not changed.  Row
`pivot k` has changed places with row `k` of the process row `prow`; its number
is in `dpiv`, unless the pivot is zero and no rows were interchanged. -/
structure Recorded (start : Fin n -> Panel α) (s : Nat)
    (pivot : Nat -> Fin n × Nat) (panel : Fin n -> Panel α) : Prop where
  same : forall r k j, L.b ≤ k -> k < s -> j < L.jb ->
    (panel r).l1 k j = (panel L.prow).l1 k j
  pivots : forall r k, L.b ≤ k -> k < s ->
    if (panel L.prow).l1 k k = 0 then pivot k = (L.prow, k)
    else (panel r).dpiv k = L.globalRow (pivot k)
  singular : forall r, (panel r).dinfo = 0 <-> (start r).dinfo = 0 ∧
    forall k, L.b ≤ k -> k < s -> (panel L.prow).l1 k k ≠ 0
  upper : forall r k j, k < L.b ∨ s ≤ k ∨ L.jb ≤ j ->
    (panel r).l1 k j = (start r).l1 k j
  others : forall r k, k < L.b ∨ s ≤ k -> (panel r).dpiv k = (start r).dpiv k
  behind : forall r i j, L.jb ≤ j -> (panel r).a i j = (start r).a i j
  /-- Rows of the upper factor of columns further left may be copied. -/
  above : forall k j, k < L.b -> (panel L.prow).a k j = (start L.prow).a k j ∨
    (panel L.prow).a k j = (panel L.prow).l1 k j

/-- When the columns below `s` are eliminated. -/
structure Progress (start : Fin n -> Panel α) (s : Nat)
    (depth : Fin n × Nat -> Nat -> Nat) (pivot : Nat -> Fin n × Nat)
    (panel : Fin n -> Panel α) : Prop extends L.Recorded start s pivot panel where
  reduced : Elimination.Reduced L.sub s depth (L.interchanges pivot s)
    (L.matrix L.b start) (L.matrix s panel)

/-- When all columns are eliminated: the upper factor is in all processes and in
the rows of the process row `prow`. -/
structure Factorization (start : Fin n -> Panel α)
    (pivot : Nat -> Fin n × Nat) (panel : Fin n -> Panel α) : Prop
    extends L.Recorded start L.e pivot panel where
  factored : Elimination.Factored L.sub L.e (L.interchanges pivot L.e)
    (L.matrix L.b start) (L.matrix L.e panel)
  copied : forall k j, L.b ≤ k -> k < L.e -> j < L.jb ->
    (panel L.prow).a k j = (panel L.prow).l1 k j

variable {L} {start panel panel' : Fin n -> Panel α} {s m : Nat}
  {depth depth' : Fin n × Nat -> Nat -> Nat} {pivot pivot' : Nat -> Fin n × Nat}

theorem progress_start (panel : Fin n -> Panel α) (pivot : Nat -> Fin n × Nat)
    (h : forall x j, L.sub.inside x -> depth x j = L.b) :
    L.Progress panel L.b depth pivot panel := by
  constructor
  case toRecorded =>
    constructor
    case same => exact fun r k j hb hk => absurd hb (Nat.not_le.mpr hk)
    case pivots => exact fun r k hb hk => absurd hb (Nat.not_le.mpr hk)
    case singular =>
      intro r
      refine ⟨fun h => ⟨h, fun k hb hk => absurd hb (Nat.not_le.mpr hk)⟩, ?_⟩
      exact fun h => h.left
    case upper => exact fun _ _ _ _ => rfl
    case others => exact fun _ _ _ => rfl
    case behind => exact fun _ _ _ _ => rfl
    case above => exact fun _ _ _ => Or.inl rfl
  case reduced =>
    have hnone : L.interchanges pivot L.b = 1 := by
      rw [interchanges, Nat.sub_self]
      rfl
    rw [hnone]
    exact Elimination.reduced_start _ h

/-!
## Blocks of columns
-/

theorem interchanges_block (hb : L.b ≤ s) (hsm : s < m) (hm : m ≤ L.e)
    (pivot pivot' : Nat -> Fin n × Nat) :
    L.interchanges (fun k => if k < s then pivot k else pivot' k) m =
      L.interchanges pivot s * (L.block hb hsm hm).interchanges pivot' m := by
  have hcount : m - L.b = (s - L.b) + (m - s) := by lia
  have hplace : L.b + (s - L.b) = s := Nat.add_sub_cancel' hb
  rw [interchanges, hcount, Elimination.interchanges_add, hplace]
  congr 1
  · apply Elimination.interchanges_congr
    intro k _ hk
    rw [hplace] at hk
    exact if_pos hk
  · apply Elimination.interchanges_congr
    intro k hk _
    exact if_neg (Nat.not_lt.mpr hk)

/-- When the columns of a block have been updated, they can be factored on their
own. -/
theorem Progress.block (hb : L.b ≤ s) (hsm : s < m) (hm : m ≤ L.e)
    (h : L.Progress start s depth pivot panel)
    (hready : forall x j, L.sub.inside x -> s ≤ j -> j < m ->
      depth x j = L.sub.done s x)
    (huniform : forall x y j, L.sub.Active s x -> L.sub.Active s y -> m ≤ j ->
      depth x j = depth y j)
    (h' : (L.block hb hsm hm).Factorization panel pivot' panel') :
    L.Progress start m depth (fun k => if k < s then pivot k else pivot' k)
      panel' := by
  have hold : forall r k j, k < s -> (panel' r).l1 k j = (panel r).l1 k j :=
    fun r k j hk => h'.upper r k j (Or.inl hk)
  constructor
  case toRecorded =>
    constructor
    case same =>
      intro r k j hbk hkm hj
      rcases Nat.lt_or_ge k s with hks | hsk
      · rw [hold r k j hks, hold _ k j hks]
        exact h.same r k j hbk hks hj
      · exact h'.same r k j hsk hkm hj
    case pivots =>
      intro r k hbk hkm
      rcases Nat.lt_or_ge k s with hks | hsk
      · rw [hold _ k k hks, if_pos hks, h'.others r k (Or.inl hks)]
        exact h.pivots r k hbk hks
      · rw [if_neg (Nat.not_lt.mpr hsk)]
        exact h'.pivots r k hsk hkm
    case singular =>
      intro r
      rw [h'.singular r, h.singular r]
      constructor
      · rintro ⟨⟨hstart, hbelow⟩, hblock⟩
        refine ⟨hstart, fun k hbk hkm => ?_⟩
        rcases Nat.lt_or_ge k s with hks | hsk
        · rw [hold _ k k hks]
          exact hbelow k hbk hks
        · exact hblock k hsk hkm
      · rintro ⟨hstart, hall⟩
        refine ⟨⟨hstart, fun k hbk hks => ?_⟩,
          fun k hsk hkm => hall k (hb.trans hsk) hkm⟩
        rw [← hold _ k k hks]
        exact hall k hbk (hks.trans hsm)
    case upper =>
      intro r k j hk
      have hblock : k < s ∨ m ≤ k ∨ L.jb ≤ j := by lia
      have hall : k < L.b ∨ s ≤ k ∨ L.jb ≤ j := by lia
      exact (h'.upper r k j hblock).trans (h.upper r k j hall)
    case others =>
      intro r k hk
      have hblock : k < s ∨ m ≤ k := by lia
      have hall : k < L.b ∨ s ≤ k := by lia
      exact (h'.others r k hblock).trans (h.others r k hall)
    case behind =>
      exact fun r i j hj => (h'.behind r i j hj).trans (h.behind r i j hj)
    case above =>
      intro k j hk
      have hks : k < s := hk.trans_le hb
      rcases h'.above k j hks with heq | heq
      · rcases h.above k j hk with heq' | heq'
        · exact Or.inl (heq.trans heq')
        · exact Or.inr (heq.trans (heq'.trans (hold _ k j hks).symm))
      · exact Or.inr heq
  case reduced =>
    have hfactored : Elimination.Factored (L.sub.block hb hm) m
        ((L.block hb hsm hm).interchanges pivot' m) (L.matrix s panel)
        (L.matrix m panel') := by
      rw [← L.sub_block hb hsm hm]
      exact h'.factored
    rw [L.interchanges_block hb hsm hm]
    exact h.reduced.block hb hsm.le hm hready huniform hfactored

/-!
## Updates
-/

variable (L) in
/-- Only entries behind the first `s` columns change, and rows of the upper factor
may be copied. -/
structure Keeps (s : Nat) (panel panel' : Fin n -> Panel α) : Prop where
  a : forall r i j,
    ¬ ((L.first s r ≤ i ∧ i < L.stop r) ∧ s ≤ j ∧ j < L.e) ->
      (panel' r).a i j = (panel r).a i j ∨
        (r = L.prow ∧ i < s ∧ j < L.jb) ∧ (panel' r).a i j = (panel' r).l1 i j
  l1 : forall r k j, ¬ ((L.b ≤ k ∧ k < s) ∧ s ≤ j ∧ j < L.e) ->
    (panel' r).l1 k j = (panel r).l1 k j
  dpiv : forall r, (panel' r).dpiv = (panel r).dpiv
  dinfo : forall r, (panel' r).dinfo = (panel r).dinfo

omit [Field α] [LinearOrder α] in
theorem first_le_of_not_upper {x : Fin n × Nat}
    (hx : ¬ (x.1 = L.prow ∧ x.2 < s)) : L.first s x.1 ≤ x.2 := by
  unfold first
  split
  case isTrue hprow => exact Nat.not_lt.mp fun hlt => hx ⟨hprow, hlt⟩
  case isFalse _ => exact Nat.zero_le _

omit [Field α] [LinearOrder α] in
theorem inside_upper (hs : s ≤ L.e) {k : Nat} (hb : L.b ≤ k) (hk : k < s) :
    L.sub.inside (L.prow, k) :=
  L.sub.inside_current k hb (hk.trans_le hs)

omit [Field α] [LinearOrder α] in
theorem done_upper {k : Nat} (hk : k ≤ s) : L.sub.done s (L.prow, k) = k := by
  rw [Elimination.Rows.done]
  simp only [sub, if_true]
  exact min_eq_right hk

omit [Field α] [LinearOrder α] in
theorem done_below {k : Nat} (hk : s ≤ k) : L.sub.done s (L.prow, k) = s := by
  rw [Elimination.Rows.done]
  simp only [sub, if_true]
  exact min_eq_left hk

omit [Field α] [LinearOrder α] in
theorem level_upper (k : Nat) : L.sub.level (L.prow, k) = k := if_pos rfl

omit [LinearOrder α] in
theorem Keeps.matrix (hb : L.b ≤ s) (hs : s ≤ L.e) (h : L.Keeps s panel panel')
    {x : Fin n × Nat} {j : Nat} (hx : ¬ (L.sub.inside x ∧ s ≤ j ∧ j < L.e)) :
    L.matrix s panel' x j = L.matrix s panel x j := by
  by_cases hj : j < L.jb
  · rw [Layout.matrix, Layout.matrix, if_pos hj, if_pos hj]
    split
    case isTrue hupper =>
      apply h.l1
      rintro ⟨⟨hbk, hks⟩, hcolumn⟩
      have hinside := inside_upper hs hbk hks
      rw [← hupper.left] at hinside
      exact hx ⟨hinside, hcolumn⟩
    case isFalse hupper =>
      have hrow : ¬ ((L.first s x.1 ≤ x.2 ∧ x.2 < L.stop x.1) ∧
          s ≤ j ∧ j < L.e) := fun hrow =>
        hx ⟨((L.active_iff hb hs x).mpr hrow.left).left, hrow.right⟩
      rcases h.a x.1 x.2 j hrow with heq | ⟨⟨hprow, hlt, _⟩, _⟩
      · exact heq
      · exact absurd ⟨hprow, hlt⟩ hupper
  · rw [Layout.matrix, Layout.matrix, if_neg hj, if_neg hj]

variable (L) in
/-- An update with some more of the first `s` columns: the rows of the upper
factor that it needs are complete. -/
structure Deepens (s : Nat) (depth depth' : Fin n × Nat -> Nat -> Nat) : Prop where
  low : forall x j, L.sub.inside x -> s ≤ j -> j < L.e -> L.b ≤ depth x j
  le : forall x j, L.sub.inside x -> s ≤ j -> j < L.e -> depth x j ≤ depth' x j
  done : forall x j, L.sub.inside x -> s ≤ j -> j < L.e ->
    depth' x j ≤ L.sub.done s x
  ready : forall x j k, L.sub.inside x -> s ≤ j -> j < L.e -> L.b ≤ k ->
    k < depth x j -> depth' (L.prow, k) j = depth (L.prow, k) j

theorem Progress.same_update (hs : s ≤ L.e)
    (h : L.Progress start s depth pivot panel) (hkeeps : L.Keeps s panel panel')
    (hdepth : L.Deepens s depth depth')
    (hupper : forall r k j, L.b ≤ k -> k < s -> s ≤ j -> j < L.e ->
      (panel' r).l1 k j = (panel r).l1 k j -
        ∑ l ∈ Finset.Ico (depth (L.prow, k) j) (depth' (L.prow, k) j),
          (panel r).l1 k l * (panel' r).l1 l j) :
    forall r k j, L.b ≤ k -> k < s -> j < L.jb ->
      (panel' r).l1 k j = (panel' L.prow).l1 k j := by
  intro r k j hbk hks hj
  by_cases hcolumn : s ≤ j ∧ j < L.e
  · rcases hcolumn with ⟨hsj, hje⟩
    -- induction on the row: a row is updated with the rows above it
    induction k using Nat.strong_induction_on with
    | _ k ih =>
        have hinside := inside_upper hs hbk hks
        have hdone := hdepth.done _ j hinside hsj hje
        have hlow := hdepth.low _ j hinside hsj hje
        rw [done_upper hks.le] at hdone
        rw [hupper r k j hbk hks hsj hje, hupper L.prow k j hbk hks hsj hje,
          h.same r k j hbk hks hj]
        congr 1
        apply Finset.sum_congr rfl
        intro l hl
        rcases Finset.mem_Ico.mp hl with ⟨hfirst, hlast⟩
        have hlk : l < k := hlast.trans_le hdone
        have hlj : l < L.jb := (hlk.trans (hks.trans_le hsj)).trans hj
        rw [h.same r k l hbk hks hlj,
          ih l hlk (hlow.trans hfirst) (hlk.trans hks)]
  · have hout : forall r, (panel' r).l1 k j = (panel r).l1 k j := fun r =>
      hkeeps.l1 r k j fun hin => hcolumn hin.right
    rw [hout, hout]
    exact h.same r k j hbk hks hj

theorem Progress.update (hb : L.b ≤ s) (hs : s ≤ L.e)
    (h : L.Progress start s depth pivot panel) (hkeeps : L.Keeps s panel panel')
    (hdepth : L.Deepens s depth depth')
    (hrows : forall r i j, L.first s r ≤ i -> i < L.stop r -> s ≤ j -> j < L.e ->
      (panel' r).a i j = (panel r).a i j -
        ∑ k ∈ Finset.Ico (depth (r, i) j) (depth' (r, i) j),
          (panel r).a i k * (panel' r).l1 k j)
    (hupper : forall r k j, L.b ≤ k -> k < s -> s ≤ j -> j < L.e ->
      (panel' r).l1 k j = (panel r).l1 k j -
        ∑ l ∈ Finset.Ico (depth (L.prow, k) j) (depth' (L.prow, k) j),
          (panel r).l1 k l * (panel' r).l1 l j) :
    L.Progress start s depth' pivot panel' := by
  have hwidth := L.width
  have hsame := h.same_update hs hkeeps hdepth hupper
  have hdiagonal : forall k, k < s ->
      (panel' L.prow).l1 k k = (panel L.prow).l1 k k := fun k hk =>
    hkeeps.l1 _ k k fun hin => absurd hk (Nat.not_lt.mpr hin.right.left)
  constructor
  case toRecorded =>
    constructor
    case same => exact hsame
    case pivots =>
      intro r k hbk hks
      rw [hdiagonal k hks, hkeeps.dpiv r]
      exact h.pivots r k hbk hks
    case singular =>
      intro r
      rw [hkeeps.dinfo r, h.singular r]
      refine and_congr_right fun _ => ?_
      refine forall_congr' fun k => forall_congr' fun _ => ?_
      refine forall_congr' fun hks => ?_
      rw [hdiagonal k hks]
    case upper =>
      intro r k j hk
      rw [hkeeps.l1 r k j (by lia)]
      exact h.upper r k j hk
    case others =>
      intro r k hk
      rw [hkeeps.dpiv r]
      exact h.others r k hk
    case behind =>
      intro r i j hj
      rcases hkeeps.a r i j (by lia) with heq | ⟨⟨_, _, hlt⟩, _⟩
      · exact heq.trans (h.behind r i j hj)
      · exact absurd hj (Nat.not_le.mpr hlt)
    case above =>
      intro k j hk
      have hrow : ¬ ((L.first s L.prow ≤ k ∧ k < L.stop L.prow) ∧
          s ≤ j ∧ j < L.e) := by
        rw [first, if_pos rfl]
        lia
      rcases hkeeps.a L.prow k j hrow with heq | ⟨_, heq⟩
      · rw [heq, hkeeps.l1 L.prow k j (by lia)]
        exact h.above k j hk
      · exact Or.inr heq
  case reduced =>
    refine h.reduced.update hb hs hdepth.low ?_
    constructor
    case le => exact hdepth.le
    case depth_le => exact hdepth.done
    case ready => exact hdepth.ready
    case update =>
      intro x j hx hsj hje
      have hj : j < L.jb := hje.trans_le hwidth
      have hdone := hdepth.done x j hx hsj hje
      have hlow := hdepth.low x j hx hsj hje
      by_cases hx' : x.1 = L.prow ∧ x.2 < s
      · rcases x with ⟨r, k⟩
        rcases hx' with ⟨rfl, hks⟩
        have hbk : L.b ≤ k := by
          have hfirst := hx.left
          simp only [first, if_true] at hfirst
          exact hfirst
        rw [L.matrix_of_lt _ hj hks, L.matrix_of_lt _ hj hks,
          hupper _ k j hbk hks hsj hje]
        congr 1
        apply Finset.sum_congr rfl
        intro l hl
        rcases Finset.mem_Ico.mp hl with ⟨_, hlast⟩
        have hls : l < s :=
          (hlast.trans_le hdone).trans_le (Elimination.Rows.done_le s _)
        rw [L.matrix_of_lt _ (hls.trans_le (hs.trans hwidth)) hks]
        exact congrArg _ (L.matrix_of_lt _ hj hls).symm
      · have hfirst := first_le_of_not_upper hx'
        rw [L.matrix_of_le _ _ hj hfirst, L.matrix_of_le _ _ hj hfirst,
          hrows x.1 x.2 j hfirst hx.right hsj hje]
        congr 1
        apply Finset.sum_congr rfl
        intro k hk
        rcases Finset.mem_Ico.mp hk with ⟨hbelow, hlast⟩
        have hks : k < s :=
          (hlast.trans_le hdone).trans_le (Elimination.Rows.done_le s _)
        rw [L.matrix_of_le _ _ (hks.trans_le (hs.trans hwidth)) hfirst,
          hsame x.1 k j (hlow.trans hbelow) hks hj]
        exact congrArg _ (L.matrix_of_lt _ hj hks).symm
    case kept =>
      exact fun x j _ hj => hkeeps.matrix hb hs (by lia)
    case rest =>
      intro x hx
      funext j
      exact hkeeps.matrix hb hs fun hin => hx hin.left

/-!
## Copies of the upper factor
-/

variable (L) in
/-- The process row `prow` has the first `s` rows of the upper factor in its rows
too, in some of the places. -/
def Copied (s : Nat) (places : Nat -> Nat -> Prop) (panel : Fin n -> Panel α) :
    Prop :=
  forall k j, L.b ≤ k -> k < s -> j < L.jb -> places k j ->
    (panel L.prow).a k j = (panel L.prow).l1 k j

omit [Field α] [LinearOrder α] in
theorem copied_start (places : Nat -> Nat -> Prop) (panel : Fin n -> Panel α) :
    L.Copied L.b places panel :=
  fun _ _ hb hk => absurd hb (Nat.not_le.mpr hk)

omit [Field α] [LinearOrder α] in
theorem Copied.mono {places places' : Nat -> Nat -> Prop}
    (h : L.Copied s places panel)
    (hplaces : forall k j, k < s -> places' k j -> places k j) :
    L.Copied s places' panel :=
  fun k j hb hk hj hplace => h k j hb hk hj (hplaces k j hk hplace)

theorem Copied.block {places : Nat -> Nat -> Prop} (hb : L.b ≤ s) (hsm : s < m)
    (hm : m ≤ L.e) (h : L.Copied s places panel)
    (h' : (L.block hb hsm hm).Factorization panel pivot' panel') :
    L.Copied m (fun k j => s ≤ k ∨ places k j) panel' := by
  intro k j hbk hkm hj hplace
  rcases Nat.lt_or_ge k s with hks | hsk
  · have hplace' := hplace.resolve_left (Nat.not_le.mpr hks)
    rcases h'.above k j hks with heq | heq
    · have hupper := h'.upper L.prow k j (Or.inl hks)
      exact heq.trans ((h k j hbk hks hj hplace').trans hupper.symm)
    · exact heq
  · exact h'.copied k j hsk hkm hj

theorem Progress.factorization (h : L.Progress start L.e depth pivot panel)
    (hcopied : L.Copied L.e (fun _ _ => True) panel) :
    L.Factorization start pivot panel := by
  refine ⟨h.toRecorded, h.reduced.toFactored, ?_⟩
  exact fun k j hb hk hj => hcopied k j hb hk hj trivial

/-!
## One column
-/

variable [IsStrictOrderedRing α]

theorem Greatest.scaled_above {p : Fin n × Nat} (hb : L.b ≤ s) (he : s < L.e)
    (h : L.Greatest panel s p) {k : Nat} (hk : k < s) (j : Nat) :
    (L.scaled panel s p L.prow).a k j = (panel L.prow).a k j := by
  have hcurrent : (L.prow, k) ≠ (L.prow, s) := by
    intro heq
    exact hk.ne (Prod.ext_iff.mp heq).right
  have hother : (L.prow, k) ≠ L.pivot panel s p := by
    intro heq
    have hfirst := (h.pivot L hb he).first_le L hb he
    rw [← heq, first, if_pos rfl] at hfirst
    exact absurd hfirst (Nat.not_le.mpr hk)
  rw [L.scaled_a he, if_neg, interchanged_eq,
    if_neg fun h => hcurrent h.left, if_neg fun h => hother h.left]
  rintro ⟨⟨hfirst, _⟩, _⟩
  rw [first, if_pos rfl] at hfirst
  lia

/-- The elimination of a column is a factorization of a block. -/
theorem Greatest.factorization {p : Fin n × Nat} (hb : L.b ≤ s) (he : s < L.e)
    (h : L.Greatest panel s p) :
    (L.block hb (Nat.lt_succ_self s) he).Factorization panel
      (fun _ => L.pivot panel s p) (L.scaled panel s p) := by
  have hs : s < L.jb := he.trans_le L.width
  have hpivot := h.pivot L hb he
  have hrow : forall r j, j < L.jb -> (L.scaled panel s p r).l1 s j =
      (panel (L.pivot panel s p).1).a (L.pivot panel s p).2 j := fun r j hj =>
    (L.scaled_l1 panel p r s j).trans (if_pos ⟨rfl, hj⟩)
  have hzero : (L.scaled panel s p L.prow).l1 s s = 0 <->
      (panel p.1).a p.2 s = 0 := by
    rw [hrow _ s hs]
    by_cases hg : (panel p.1).a p.2 s = 0
    · have hle := h.right _ hpivot.left
      rw [hg, mabs_zero, mabs_eq_abs] at hle
      exact iff_of_true (abs_nonpos_iff.mp hle) hg
    · have hsame : L.pivot panel s p = p := if_pos hg
      rw [hsame]
  have hone : forall k, s ≤ k -> k < s + 1 -> k = s := fun k hsk hk => by lia
  constructor
  case toRecorded =>
    constructor
    case same =>
      intro r k j hsk hk hj
      rw [hone k hsk hk]
      exact (hrow r j hj).trans (hrow _ j hj).symm
    case pivots =>
      intro r k hsk hk
      rw [hone k hsk hk]
      split
      case isTrue hz => exact if_neg (not_not.mpr (hzero.mp hz))
      case isFalse hz =>
        have hsame : L.pivot panel s p = p := if_pos (mt hzero.mpr hz)
        rw [hsame, scaled_eq]
        exact Function.update_self _ _ _
    case singular =>
      intro r
      have hia := L.start
      have hinfo : (L.scaled panel s p r).dinfo = 0 <->
          (panel r).dinfo = 0 ∧ (panel p.1).a p.2 s ≠ 0 := by
        rw [scaled_eq]
        simp only [swapped]
        split <;> grind
      rw [hinfo]
      refine and_congr_right fun _ => ?_
      refine ⟨fun hne k hsk hk => ?_, fun hall => ?_⟩
      · rw [hone k hsk hk]
        exact mt hzero.mp hne
      · exact mt hzero.mpr (hall s le_rfl (Nat.lt_succ_self s))
    case upper =>
      intro r k j hk
      refine (L.scaled_l1 panel p r k j).trans (if_neg ?_)
      rintro ⟨rfl, hj⟩
      change k < k ∨ k + 1 ≤ k ∨ L.jb ≤ j at hk
      lia
    case others =>
      intro r k hk
      rw [scaled_eq]
      refine Function.update_of_ne ?_ _ _
      rintro rfl
      change k < k ∨ k + 1 ≤ k at hk
      lia
    case behind =>
      intro r i j hj
      have hj' : L.jb ≤ j := hj
      rw [L.scaled_a he, if_neg (by lia), interchanged, if_neg (by lia)]
    case above => exact fun k j hk => Or.inl (h.scaled_above hb he hk j)
  case factored =>
    have hswap : (L.block hb (Nat.lt_succ_self s) he).interchanges
        (fun _ => L.pivot panel s p) (s + 1) =
          Equiv.swap (L.sub.current s) (L.pivot panel s p) := by
      have hcount : s + 1 - s = 1 := Nat.add_sub_cancel_left s 1
      change Elimination.interchanges _ _ s (s + 1 - s) = _
      rw [hcount]
      exact one_mul _
    have hstep := (L.step_scaled hb he h).factored hb he
    rw [← L.sub_block hb (Nat.lt_succ_self s) he, ← hswap] at hstep
    exact hstep
  case copied =>
    intro k j hsk hk hj
    rw [hone k hsk hk]
    have hj' : j < L.jb := hj
    refine Eq.trans ?_ (hrow L.prow j hj).symm
    have hout : ¬ ((L.first (s + 1) L.prow ≤ s ∧ s < L.stop L.prow) ∧ j = s) := by
      rintro ⟨⟨hfirst, _⟩, _⟩
      rw [first, if_pos rfl] at hfirst
      lia
    exact (L.scaled_a he _ _ _ _ _).trans ((if_neg hout).trans
      ((L.interchanged_eq _ _ _ _ _ _).trans (if_pos ⟨rfl, hj'⟩)))

/-!
## All columns

The three functions that factor a panel column by column differ in what they do
in a round behind the elimination of a column.
-/

/-- The programs before column `s`, with `left` columns behind it. -/
def columnCode (L : Layout n)
    (column : Fin n -> Nat -> Nat -> Nat -> Nat -> Nat -> Panel α -> Work α ->
      Panel α × Work α) (s left : Nat) (panel : Fin n -> Panel α)
    (work : Fin n -> Work α) (r : Fin n) :
    Program (Message α) (Panel α × Work α) :=
  pdpanLoop (L.info r) (column r) left (L.first s r) (L.first (s + 1) r)
    (L.stop r - L.first s r) (L.stop r - L.first (s + 1) r) s (panel r) (work r)

/-- What the rounds have to do: before column `s` the depths are `depth s`. -/
structure Rounds (L : Layout n)
    (column : Fin n -> Nat -> Nat -> Nat -> Nat -> Nat -> Panel α -> Work α ->
      Panel α × Work α) (depth : Nat -> Fin n × Nat -> Nat -> Nat) : Prop where
  start : forall x j, L.sub.inside x -> depth L.b x j = L.b
  ready : forall s x, L.sub.inside x -> depth s x s = L.sub.done s x
  uniform : forall s x y j, L.sub.Active s x -> L.sub.Active s y -> s < j ->
    depth s x j = depth s y j
  round : forall (s left : Nat) (start panel : Fin n -> Panel α)
      (p : Fin n × Nat) (pivot : Nat -> Fin n × Nat),
    L.b ≤ s -> L.e = s + 2 + left -> L.Greatest panel s p ->
    L.Progress start (s + 1) (depth s) pivot (L.scaled panel s p) ->
    L.Copied (s + 1) (fun _ _ => True) (L.scaled panel s p) ->
    exists (panel' : Fin n -> Panel α) (work' : Fin n -> Work α),
      (forall r, column r (left + 1) (L.first s r) (L.first (s + 1) r)
          (L.stop r - L.first (s + 1) r) s (L.chosen panel s p r)
          (L.received panel s p) = (panel' r, work' r)) ∧
        L.Located (s + 1) panel' work' ∧
        L.Progress start (s + 1) (depth (s + 1)) pivot panel' ∧
        L.Copied (s + 1) (fun _ _ => True) panel' ∧
        forall k j, k < L.b ->
          (panel' L.prow).a k j = (L.scaled panel s p L.prow).a k j

variable {column : Fin n -> Nat -> Nat -> Nat -> Nat -> Nat -> Panel α ->
  Work α -> Panel α × Work α} {work : Fin n -> Work α}

theorem sync_lastColumn (hb : L.b ≤ s) (he : L.e = s + 1)
    (hwork : L.Located s panel work) :
    exists p, L.Greatest panel s p ∧
      Sync (L.columnCode column s 0 panel work)
        fun r => Program.ret (L.scaled panel s p r, L.received panel s p) := by
  rcases L.sync_pdmxswp neg_nonneg_of_neg hb (by lia) hwork with ⟨p, hp, hsync⟩
  have hfirst := hp.first_le L hb (by lia)
  refine ⟨p, hp, ?_⟩
  let round := fun (r : Fin n) (x : Panel α × Work α) =>
    let y := dlocswpN (L.info r) (L.first s r) s x.1 x.2
    (Program.ret (scaleColumn (L.stop r - L.first (s + 1) r) (L.first (s + 1) r) s
      y.1 y.2, y.2) : Program (Message α) (Panel α × Work α))
  have hstart : L.columnCode column s 0 panel work = fun r =>
      (pdmxswp (L.info r) (L.stop r - L.first s r) (L.first s r) s (panel r)
        (work r)).bind (round r) := by
    funext r
    rfl
  have hend : (fun r => round r (L.chosen panel s p r, L.received panel s p)) =
      fun r => Program.ret (L.scaled panel s p r, L.received panel s p) := by
    funext r
    simp only [round, L.dlocswpN_eq panel hfirst]
    rfl
  rw [hstart, ← hend]
  exact hsync.bind round

theorem sync_column {left : Nat} (hb : L.b ≤ s) (he : L.e = s + 2 + left)
    (hwork : L.Located s panel work) :
    exists p, L.Greatest panel s p ∧
      forall (panel' : Fin n -> Panel α) (work' : Fin n -> Work α),
        (forall r, column r (left + 1) (L.first s r) (L.first (s + 1) r)
          (L.stop r - L.first (s + 1) r) s (L.chosen panel s p r)
          (L.received panel s p) = (panel' r, work' r)) ->
        Sync (L.columnCode column s (left + 1) panel work)
          (L.columnCode column (s + 1) left panel' work') := by
  rcases L.sync_pdmxswp neg_nonneg_of_neg hb (by lia) hwork with ⟨p, hp, hsync⟩
  refine ⟨p, hp, ?_⟩
  intro panel' work' hcolumn
  let round := fun (r : Fin n) (x : Panel α × Work α) =>
    let y := column r (left + 1) (L.first s r) (L.first (s + 1) r)
      (L.stop r - L.first (s + 1) r) s x.1 x.2
    if (L.info r).myrow = (L.info r).prow then
      pdpanLoop (L.info r) (column r) left (L.first (s + 1) r)
        (L.first (s + 1) r + 1) (L.stop r - L.first (s + 1) r)
        (L.stop r - L.first (s + 1) r - 1) (s + 1) y.1 y.2
    else
      pdpanLoop (L.info r) (column r) left (L.first s r) (L.first (s + 1) r)
        (L.stop r - L.first s r) (L.stop r - L.first (s + 1) r) (s + 1) y.1 y.2
  have hstart : L.columnCode column s (left + 1) panel work = fun r =>
      (pdmxswp (L.info r) (L.stop r - L.first s r) (L.first s r) s (panel r)
        (work r)).bind (round r) := by
    funext r
    rfl
  have hend : (fun r => round r (L.chosen panel s p r, L.received panel s p)) =
      L.columnCode column (s + 1) left panel' work' := by
    funext r
    simp only [round, hcolumn r, L.info_myrow_eq]
    by_cases hr : r = L.prow
    · simp only [hr, if_true, columnCode, first, Nat.sub_sub]
    · simp only [hr, if_false, columnCode, first]
  rw [hstart, ← hend]
  exact hsync.bind round

theorem Rounds.eliminate {depth : Nat -> Fin n × Nat -> Nat -> Nat}
    (hrounds : L.Rounds column depth) {p : Fin n × Nat} (hb : L.b ≤ s)
    (he : s < L.e) (h : L.Progress start s (depth s) pivot panel)
    (hcopied : L.Copied s (fun _ _ => True) panel) (hp : L.Greatest panel s p) :
    L.Progress start (s + 1) (depth s)
        (fun k => if k < s then pivot k else L.pivot panel s p)
        (L.scaled panel s p) ∧
      L.Copied (s + 1) (fun _ _ => True) (L.scaled panel s p) := by
  have hblock := hp.factorization hb he
  refine ⟨h.block hb (Nat.lt_succ_self s) he ?_ (hrounds.uniform s) hblock,
    (hcopied.block hb (Nat.lt_succ_self s) he hblock).mono ?_⟩
  · intro x j hx hsj hj
    have hj' : j = s := by lia
    rw [hj']
    exact hrounds.ready s x hx
  · exact fun _ _ _ _ => Or.inr trivial

theorem Rounds.sync {depth : Nat -> Fin n × Nat -> Nat -> Nat} {left : Nat}
    (hrounds : L.Rounds column depth) (hb : L.b ≤ s) (he : L.e = s + 1 + left)
    (hwork : L.Located s panel work)
    (h : L.Progress start s (depth s) pivot panel)
    (hcopied : L.Copied s (fun _ _ => True) panel) :
    exists (pivot' : Nat -> Fin n × Nat) (res : Fin n -> Panel α × Work α),
      L.Factorization start pivot' (fun r => (res r).1) ∧
      (forall k j, k < L.b -> (res L.prow).1.a k j = (panel L.prow).a k j) ∧
      Sync (L.columnCode column s left panel work)
        fun r => Program.ret (res r) := by
  induction left generalizing s panel work pivot with
  | zero =>
      rcases sync_lastColumn hb he hwork with ⟨p, hp, hsync⟩
      rcases hrounds.eliminate hb (by lia) h hcopied hp with ⟨hnext, hrows⟩
      have he' : s + 1 = L.e := he.symm
      rw [he'] at hnext hrows
      exact ⟨_, fun r => (L.scaled panel s p r, L.received panel s p),
        hnext.factorization hrows,
        fun k j hk => hp.scaled_above hb (by lia) (hk.trans_le hb) j, hsync⟩
  | succ left ih =>
      have he' : L.e = s + 2 + left := by lia
      rcases sync_column hb he' hwork with ⟨p, hp, hsync⟩
      rcases hrounds.eliminate hb (by lia) h hcopied hp with ⟨hnext, hrows⟩
      rcases hrounds.round s left start panel p _ hb he' hp hnext hrows with
        ⟨panel', work', hcolumn, hwork', hnext', hrows', habove⟩
      rcases ih (Nat.le_succ_of_le hb) (by lia) hwork' hnext' hrows' with
        ⟨pivot', res, hres, habove', hrest⟩
      refine ⟨pivot', res, hres, ?_, (hsync panel' work' hcolumn).trans hrest⟩
      intro k j hk
      rw [habove' k j hk, habove k j hk]
      exact hp.scaled_above hb (by lia) (hk.trans_le hb) j

end Records

end Layout

section Contract

variable [Field α] [LinearOrder α]

/-- The function factors the columns of every panel, in every run. -/
def Factors (pffun : PanelInfo -> Nat -> Nat -> Nat -> Panel α -> Work α ->
    Program (Message α) (Panel α × Work α)) : Prop :=
  forall (n : Nat) (L : Layout n) (panel : Fin n -> Panel α)
      (work : Fin n -> Work α),
    exists (pivot : Nat -> Fin n × Nat) (res : Fin n -> Panel α × Work α),
      L.Factorization panel pivot (fun r => (res r).1) ∧
      Sync
        (fun r => pffun (L.info r) (L.stop r - L.first L.b r) (L.e - L.b) L.b
          (panel r) (work r))
        fun r => Program.ret (res r)

/-- And it does not write in the rows above. -/
def FactorsOnly (pffun : PanelInfo -> Nat -> Nat -> Nat -> Panel α -> Work α ->
    Program (Message α) (Panel α × Work α)) : Prop :=
  forall (n : Nat) (L : Layout n) (panel : Fin n -> Panel α)
      (work : Fin n -> Work α),
    exists (pivot : Nat -> Fin n × Nat) (res : Fin n -> Panel α × Work α),
      L.Factorization panel pivot (fun r => (res r).1) ∧
      (forall k j, k < L.b -> (res L.prow).1.a k j = (panel L.prow).a k j) ∧
      Sync
        (fun r => pffun (L.info r) (L.stop r - L.first L.b r) (L.e - L.b) L.b
          (panel r) (work r))
        fun r => Program.ret (res r)

theorem FactorsOnly.factors {pffun : PanelInfo -> Nat -> Nat -> Nat -> Panel α ->
    Work α -> Program (Message α) (Panel α × Work α)} (h : FactorsOnly pffun) :
    Factors pffun := by
  intro n L panel work
  rcases h n L panel work with ⟨pivot, res, hres, _, hsync⟩
  exact ⟨pivot, res, hres, hsync⟩

variable [IsStrictOrderedRing α]

theorem factors_pdpanN
    {column : PanelInfo -> Nat -> Nat -> Nat -> Nat -> Nat -> Nat -> Panel α ->
      Work α -> Panel α × Work α}
    (h : forall (n : Nat) (L : Layout n), exists depth,
      L.Rounds (fun r => column (L.info r) L.b) depth) :
    FactorsOnly fun info m nn icoff =>
      pdpanN info (column info icoff) m nn icoff := by
  intro n L panel work
  rcases h n L with ⟨depth, hrounds⟩
  let work' := fun r =>
    let loc := dlocmax (L.info r) (panel r).a (L.stop r - L.first L.b r)
      (L.first L.b r) L.b
    { work r with max := { (work r).max with toLocMax := loc } }
  have hcolumns := L.columns
  have hleft : L.e = L.b + 1 + (L.e - L.b - 1) := by lia
  have hwork : L.Located L.b panel work' := fun _ => rfl
  rcases hrounds.sync le_rfl hleft hwork
    (Layout.progress_start panel (fun k => (L.prow, k)) hrounds.start)
    (Layout.copied_start _ panel) with ⟨pivot, res, hres, habove, hsync⟩
  have hcode : (fun r => pdpanN (L.info r) (column (L.info r) L.b)
      (L.stop r - L.first L.b r) (L.e - L.b) L.b (panel r) (work r)) =
        L.columnCode (fun r => column (L.info r) L.b) L.b (L.e - L.b - 1) panel
          work' := by
    funext r
    unfold pdpanN Layout.columnCode
    simp only [L.info_myrow_eq]
    by_cases hr : r = L.prow
    · simp only [hr, if_true, Layout.first, work', Nat.sub_sub]
    · simp only [hr, if_false, Layout.first, work']
  refine ⟨pivot, res, hres, habove, ?_⟩
  rw [hcode]
  exact hsync

end Contract

end HPL
end IPPD
