import Mathlib.Algebra.BigOperators.Intervals
import Mathlib.Algebra.Group.End
import Mathlib.Algebra.Order.Group.Abs
import Mathlib.Tactic.Ring

/-!
# Elimination with row interchanges

The columns `b` to `e - 1` of a matrix are eliminated from the left to the
right.  The multipliers stay where the entries were.  A row has a level: row
`current k` has level `k` and becomes row `k` of the upper factor, and a row
takes part in the elimination of the columns up to its level.

The methods differ in when they update the entries behind the columns that are
eliminated.  An entry has a depth: it has been updated with the columns below
its depth.
-/

namespace IPPD
namespace Foundation
namespace Elimination

variable {ι : Type u} {α : Type v}

/-- The rows of a matrix that the elimination may change and their levels. -/
@[ext]
structure Rows (ι : Type u) (b e : Nat) where
  inside : ι -> Prop
  level : ι -> Nat
  /-- The rows that become the rows of the upper factor. -/
  current : Nat -> ι
  inside_current : forall k, b ≤ k -> k < e -> inside (current k)
  level_current : forall k, b ≤ k -> k < e -> level (current k) = k
  current_level : forall x, inside x -> level x < e -> current (level x) = x
  le_level : forall x, inside x -> b ≤ level x

namespace Rows

variable {b e : Nat} (rows : Rows ι b e)

/-- The rows that are still to be eliminated in column `s`, and the row that is
the next one of the upper factor. -/
def Active (s : Nat) (x : ι) : Prop :=
  rows.inside x ∧ s ≤ rows.level x

/-- The number of columns that are eliminated in a row when those below `s`
are. -/
def done (s : Nat) (x : ι) : Nat := min s (rows.level x)

/-- The elimination of the columns `s` to `m - 1` when those below `s` are
eliminated. -/
def block {s m : Nat} (hs : b ≤ s) (hm : m ≤ e) : Rows ι s m where
  inside := rows.Active s
  level := rows.level
  current := rows.current
  inside_current := fun k hk hkm =>
    ⟨rows.inside_current k (hs.trans hk) (hkm.trans_le hm),
      (rows.level_current k (hs.trans hk) (hkm.trans_le hm)).symm ▸ hk⟩
  level_current := fun k hk hkm =>
    rows.level_current k (hs.trans hk) (hkm.trans_le hm)
  current_level := fun x hx hlt => rows.current_level x hx.left (hlt.trans_le hm)
  le_level := fun _ hx => hx.right

variable {rows}

theorem active_current {s k : Nat} (hb : b ≤ k) (he : k < e) (hs : s ≤ k) :
    rows.Active s (rows.current k) :=
  ⟨rows.inside_current k hb he, (rows.level_current k hb he).symm ▸ hs⟩

theorem not_active_current {s k : Nat} (hb : b ≤ k) (he : k < e) (hs : k < s) :
    ¬ rows.Active s (rows.current k) := by
  rintro ⟨_, hlevel⟩
  rw [rows.level_current k hb he] at hlevel
  lia

theorem done_of_active {s : Nat} {x : ι} (hx : rows.Active s x) :
    rows.done s x = s :=
  min_eq_left hx.right

theorem Active.mono {s m : Nat} (hsm : s ≤ m) {x : ι} (hx : rows.Active m x) :
    rows.Active s x :=
  ⟨hx.left, hsm.trans hx.right⟩

theorem le_done {s : Nat} (hs : b ≤ s) {x : ι} (hx : rows.inside x) :
    b ≤ rows.done s x :=
  le_min hs (rows.le_level x hx)

theorem done_le (s : Nat) (x : ι) : rows.done s x ≤ s := min_le_left _ _

theorem le_ite_done (c : Prop) [Decidable c] {s : Nat} (hs : b ≤ s) {x : ι}
    (hx : rows.inside x) : b ≤ if c then rows.done s x else b := by
  split
  case isTrue _ => exact le_done hs hx
  case isFalse _ => exact le_rfl

theorem ite_done_le (c : Prop) [Decidable c] {s : Nat} (hs : b ≤ s) {x : ι}
    (hx : rows.inside x) : (if c then rows.done s x else b) ≤ rows.done s x := by
  split
  case isTrue _ => exact le_rfl
  case isFalse _ => exact le_done hs hx

theorem done_of_not_active {s m : Nat} (hsm : s ≤ m) {x : ι}
    (hx : rows.inside x) (hactive : ¬ rows.Active s x) :
    rows.done m x = rows.done s x := by
  have hlt : rows.level x < s := Nat.not_le.mp fun hle => hactive ⟨hx, hle⟩
  rw [done, done, min_eq_right hlt.le, min_eq_right (hlt.le.trans hsm)]

theorem active_cases {s : Nat} (he : s < e) {x : ι} (hx : rows.Active s x) :
    x = rows.current s ∨ rows.Active (s + 1) x := by
  rcases Nat.eq_or_lt_of_le hx.right with heq | hlt
  · left
    rw [heq]
    exact (rows.current_level x hx.left (heq ▸ he)).symm
  · exact Or.inr ⟨hx.left, hlt⟩

end Rows

section Factors

variable [CommRing α] {b e : Nat} (rows : Rows ι b e)

/-- An entry of the product of the first `d` columns of the lower and the first
`d` rows of the upper factor. -/
def Rows.product (d : Nat) (G : ι -> Nat -> α) (x : ι) (j : Nat) : α :=
  ∑ k ∈ Finset.Ico b d, G x k * G (rows.current k) j

/-- An entry of the product of the factors, when `d` columns are eliminated in its
row.  The unit diagonal of the lower factor is not stored. -/
def Rows.entry (d : Nat) (G : ι -> Nat -> α) (x : ι) (j : Nat) : α :=
  rows.product (min d (j + 1)) G x j + if d ≤ j then G x j else 0

theorem Rows.entry_of_le {d j : Nat} (h : d ≤ j) (G : ι -> Nat -> α) (x : ι) :
    rows.entry d G x j = rows.product d G x j + G x j := by
  rw [entry, if_pos h, min_eq_left (h.trans (Nat.le_succ j))]

theorem Rows.entry_of_lt {d j : Nat} (h : j < d) (G : ι -> Nat -> α) (x : ι) :
    rows.entry d G x j = rows.product (j + 1) G x j := by
  rw [entry, if_neg (Nat.not_le.mpr h), min_eq_right h, add_zero]

theorem Rows.product_congr {d : Nat} {G G' : ι -> Nat -> α} {x y : ι} {j : Nat}
    (hx : forall k, b ≤ k -> k < d -> G' x k = G y k)
    (hcurrent : forall k, b ≤ k -> k < d ->
      G' (rows.current k) j = G (rows.current k) j) :
    rows.product d G' x j = rows.product d G y j := by
  apply Finset.sum_congr rfl
  intro k hk
  rcases Finset.mem_Ico.mp hk with ⟨hb, hd⟩
  rw [hx k hb hd, hcurrent k hb hd]

end Factors

section Order

variable [CommRing α] [LinearOrder α] {b e : Nat} (rows : Rows ι b e)

/-- When the columns below `s` are eliminated: row `π x` of the matrix `orig` is
row `x` of the product of the factors in these columns, the multipliers are
small, and outside the columns `b` to `e - 1` the rows have only changed
places. -/
structure Factored (s : Nat) (π : Equiv.Perm ι) (orig G : ι -> Nat -> α) :
    Prop where
  product : forall x j, rows.inside x -> b ≤ j -> j < s ->
    orig (π x) j = rows.entry (rows.done s x) G x j
  bounded : forall x k, rows.inside x -> b ≤ k -> k < rows.done s x ->
    |G x k| ≤ 1
  outside : forall x j, rows.inside x -> j < b ∨ e ≤ j -> orig (π x) j = G x j
  inside : forall x, rows.inside (π x) <-> rows.inside x
  rest : forall x, ¬ rows.inside x -> π x = x ∧ G x = orig x

/-- The same, with the depths of the entries in the other columns. -/
structure Reduced (s : Nat) (depth : ι -> Nat -> Nat) (π : Equiv.Perm ι)
    (orig G : ι -> Nat -> α) : Prop extends Factored rows s π orig G where
  depth_le : forall x j, rows.inside x -> s ≤ j -> j < e ->
    depth x j ≤ rows.done s x
  remaining : forall x j, rows.inside x -> s ≤ j -> j < e ->
    orig (π x) j = rows.product (depth x j) G x j + G x j

variable {rows}

theorem reduced_start {depth : ι -> Nat -> Nat} (G : ι -> Nat -> α)
    (h : forall x j, rows.inside x -> depth x j = b) :
    Reduced rows b depth 1 G G := by
  constructor
  case toFactored =>
    constructor
    case product => exact fun x j _ hb hj => absurd hb (Nat.not_le.mpr hj)
    case bounded =>
      intro x k _ hb hk
      exact absurd (hk.trans_le (Rows.done_le b x)) (Nat.not_lt.mpr hb)
    case outside => exact fun x j _ _ => rfl
    case inside => exact fun x => Iff.rfl
    case rest => exact fun x _ => ⟨rfl, rfl⟩
  case depth_le =>
    intro x j hx _ _
    rw [h x j hx]
    exact Rows.le_done le_rfl hx
  case remaining =>
    intro x j hx _ _
    rw [h x j hx, Rows.product, Finset.Ico_self, Finset.sum_empty, zero_add]
    rfl

theorem Reduced.congr {s : Nat} {depth depth' : ι -> Nat -> Nat}
    {π : Equiv.Perm ι} {orig G : ι -> Nat -> α}
    (h : Reduced rows s depth π orig G)
    (hdepth : forall x j, rows.inside x -> s ≤ j -> j < e ->
      depth' x j = depth x j) : Reduced rows s depth' π orig G := by
  refine ⟨h.toFactored, ?_, ?_⟩
  · intro x j hx hs he
    rw [hdepth x j hx hs he]
    exact h.depth_le x j hx hs he
  · intro x j hx hs he
    rw [hdepth x j hx hs he]
    exact h.remaining x j hx hs he

/-!
## Updates
-/

variable (rows) in
/-- Entries behind the first `s` columns are updated with some more of these. -/
structure Update (s : Nat) (depth depth' : ι -> Nat -> Nat)
    (G G' : ι -> Nat -> α) : Prop where
  le : forall x j, rows.inside x -> s ≤ j -> j < e -> depth x j ≤ depth' x j
  depth_le : forall x j, rows.inside x -> s ≤ j -> j < e ->
    depth' x j ≤ rows.done s x
  /-- A row of the upper factor is complete before it is used. -/
  ready : forall x j k, rows.inside x -> s ≤ j -> j < e -> b ≤ k ->
    k < depth x j -> depth' (rows.current k) j = depth (rows.current k) j
  update : forall x j, rows.inside x -> s ≤ j -> j < e ->
    G' x j = G x j -
      ∑ k ∈ Finset.Ico (depth x j) (depth' x j), G x k * G' (rows.current k) j
  kept : forall x j, rows.inside x -> j < s ∨ e ≤ j -> G' x j = G x j
  rest : forall x, ¬ rows.inside x -> G' x = G x

theorem Reduced.update {s : Nat} {depth depth' : ι -> Nat -> Nat}
    {π : Equiv.Perm ι} {orig G G' : ι -> Nat -> α} (hb : b ≤ s) (hs : s ≤ e)
    (hdepth : forall x j, rows.inside x -> s ≤ j -> j < e -> b ≤ depth x j)
    (h : Reduced rows s depth π orig G) (hG : Update rows s depth depth' G G') :
    Reduced rows s depth' π orig G' := by
  have hmultiplier : forall x k, rows.inside x -> k < rows.done s x ->
      G' x k = G x k := fun x k hx hk =>
    hG.kept x k hx (Or.inl (hk.trans_le (Rows.done_le s x)))
  constructor
  case toFactored =>
    constructor
    case product =>
      intro x j hx hbj hj
      have hcurrent : forall k, b ≤ k -> k < e ->
          G' (rows.current k) j = G (rows.current k) j := fun k hbk hk =>
        hG.kept _ j (rows.inside_current k hbk hk) (Or.inl hj)
      have hrow : forall k, k < j + 1 -> G' x k = G x k := fun k hk =>
        hG.kept x k hx (Or.inl (by lia))
      rw [h.product x j hx hbj hj, Rows.entry, Rows.entry, hrow j (by lia)]
      congr 1
      exact Rows.product_congr rows
        (fun k _ hk => (hrow k (lt_min_iff.mp hk).right).symm)
        (fun k hbk hk => (hcurrent k hbk
          ((lt_min_iff.mp hk).right.trans_le (by lia))).symm)
    case bounded =>
      intro x k hx hbk hk
      rw [hmultiplier x k hx hk]
      exact h.bounded x k hx hbk hk
    case outside =>
      intro x j hx hj
      rw [hG.kept x j hx (hj.imp_left fun hj => hj.trans_le hb)]
      exact h.outside x j hx hj
    case inside => exact h.inside
    case rest =>
      intro x hx
      rw [hG.rest x hx]
      exact h.rest x hx
  case depth_le => exact hG.depth_le
  case remaining =>
    intro x j hx hsj hje
    have hle := hG.depth_le x j hx hsj hje
    have hsame : rows.product (depth x j) G' x j =
        rows.product (depth x j) G x j := by
      apply Rows.product_congr
      · intro k _ hk
        exact hmultiplier x k hx
          (hk.trans_le ((hG.le x j hx hsj hje).trans hle))
      · intro k hbk hk
        have hks : k < s := hk.trans_le
          (((hG.le x j hx hsj hje).trans hle).trans (Rows.done_le s x))
        rw [hG.update _ j (rows.inside_current k hbk (hks.trans_le hs)) hsj hje,
          hG.ready x j k hx hsj hje hbk hk, Finset.Ico_self, Finset.sum_empty,
          sub_zero]
    have hmore : ∑ k ∈ Finset.Ico (depth x j) (depth' x j),
        G x k * G' (rows.current k) j =
          ∑ k ∈ Finset.Ico (depth x j) (depth' x j),
            G' x k * G' (rows.current k) j := by
      apply Finset.sum_congr rfl
      intro k hk
      rw [hmultiplier x k hx ((Finset.mem_Ico.mp hk).right.trans_le hle)]
    have hsplit : rows.product (depth' x j) G' x j =
        rows.product (depth x j) G' x j +
          ∑ k ∈ Finset.Ico (depth x j) (depth' x j),
            G' x k * G' (rows.current k) j :=
      (Finset.sum_Ico_consecutive _ (hdepth x j hx hsj hje)
        (hG.le x j hx hsj hje)).symm
    rw [h.remaining x j hx hsj hje, hG.update x j hx hsj hje, hsplit, hsame,
      hmore]
    ring

/-!
## Blocks of columns
-/

/-- When the columns behind the first `s` have been updated, they can be factored
on their own. -/
theorem Reduced.block {s m : Nat} {depth : ι -> Nat -> Nat}
    {π π' : Equiv.Perm ι} {orig G G' : ι -> Nat -> α} (hb : b ≤ s) (hsm : s ≤ m)
    (he : m ≤ e) (h : Reduced rows s depth π orig G)
    (hready : forall x j, rows.inside x -> s ≤ j -> j < m ->
      depth x j = rows.done s x)
    (huniform : forall x y j, rows.Active s x -> rows.Active s y -> m ≤ j ->
      depth x j = depth y j)
    (h' : Factored (rows.block hb he) m π' G G') :
    Reduced rows m depth (π * π') orig G' := by
  -- the rows that take part keep taking part, and the others stay
  have hactive : forall x, rows.Active s (π' x) <-> rows.Active s x := h'.inside
  have hrest : forall x, ¬ rows.Active s x -> π' x = x ∧ G' x = G x := h'.rest
  have houtside : forall x j, rows.Active s x -> j < s ∨ m ≤ j ->
      G' x j = G (π' x) j := fun x j hx hj => (h'.outside x j hx hj).symm
  have hinside : forall x, rows.inside (π' x) <-> rows.inside x := by
    intro x
    by_cases hx : rows.Active s x
    · exact iff_of_true ((hactive x).mpr hx).left hx.left
    · rw [(hrest x hx).left]
  have hcurrent : forall k j, b ≤ k -> k < s ->
      G' (rows.current k) j = G (rows.current k) j := fun k j hbk hk =>
    congrFun (hrest _ (Rows.not_active_current hbk (by lia) hk)).right j
  have hproduct : forall x d j, rows.Active s x -> d ≤ s ->
      rows.product d G (π' x) j = rows.product d G' x j := fun x d j hx hd =>
    (Rows.product_congr rows
      (fun k _ hk => houtside x k hx (Or.inl (hk.trans_le hd)))
      (fun k hbk hk => hcurrent k j hbk (hk.trans_le hd))).symm
  have hkept : forall x d j, ¬ rows.Active s x -> d ≤ s ->
      rows.product d G (π' x) j = rows.product d G' x j := by
    intro x d j hx hd
    rw [(hrest x hx).left]
    exact (Rows.product_congr rows
      (fun k _ _ => congrFun (hrest x hx).right k)
      (fun k hbk hk => hcurrent k j hbk (hk.trans_le hd))).symm
  constructor
  case toFactored =>
    constructor
    case product =>
      intro x j hx hbj hjm
      rw [Equiv.Perm.mul_apply]
      have hy := (hinside x).mpr hx
      rcases Nat.lt_or_ge j s with hjs | hsj
      · -- a column that has been eliminated before
        rw [h.product _ j hy hbj hjs]
        by_cases hx' : rows.Active s x
        · have hdone : j < rows.done m x := by
            rw [Rows.done, lt_min_iff]
            exact ⟨hjm, hjs.trans_le hx'.right⟩
          rw [Rows.done_of_active ((hactive x).mpr hx'), Rows.entry_of_lt _ hjs,
            Rows.entry_of_lt _ hdone, hproduct x _ j hx' (by lia)]
        · have hdone := Rows.done_of_not_active hsm hx hx'
          rw [Rows.entry, Rows.entry, hdone, hkept x _ j hx' (by lia),
            (hrest x hx').left, (hrest x hx').right]
      · have hje : j < e := hjm.trans_le he
        rw [h.remaining _ j hy hsj hje, hready _ j hy hsj hjm]
        by_cases hx' : rows.Active s x
        · -- the block has been updated with the columns before it
          have hentry : G (π' x) j =
              (rows.block hb he).entry (rows.done m x) G' x j :=
            h'.product x j hx' hsj hjm
          have hle : s ≤ min (rows.done m x) (j + 1) :=
            le_min (le_min hsm hx'.right) (by lia)
          have hsplit : rows.product (min (rows.done m x) (j + 1)) G' x j =
              rows.product s G' x j +
                (rows.block hb he).product (min (rows.done m x) (j + 1)) G' x j :=
            (Finset.sum_Ico_consecutive _ hb hle).symm
          rw [Rows.done_of_active ((hactive x).mpr hx'), hentry, Rows.entry,
            Rows.entry, hsplit, hproduct x s j hx' le_rfl, add_assoc]
        · have hdone := Rows.done_of_not_active hsm hx hx'
          have hle : rows.done m x ≤ j :=
            hdone ▸ (Rows.done_le s x).trans hsj
          rw [Rows.entry_of_le _ hle, hkept x _ j hx' (Rows.done_le s _),
            (hrest x hx').left, (hrest x hx').right, hdone]
    case bounded =>
      intro x k hx hbk hk
      by_cases hx' : rows.Active s x
      · rcases Nat.lt_or_ge k s with hks | hsk
        · rw [houtside x k hx' (Or.inl hks)]
          apply h.bounded _ k ((hinside x).mpr hx) hbk
          rw [Rows.done_of_active ((hactive x).mpr hx')]
          exact hks
        · exact h'.bounded x k hx' hsk hk
      · rw [Rows.done_of_not_active hsm hx hx'] at hk
        rw [(hrest x hx').right]
        exact h.bounded x k hx hbk hk
    case outside =>
      intro x j hx hj
      rw [Equiv.Perm.mul_apply, h.outside _ j ((hinside x).mpr hx) hj]
      by_cases hx' : rows.Active s x
      · exact (houtside x j hx' (by lia)).symm
      · rw [(hrest x hx').left, (hrest x hx').right]
    case inside =>
      intro x
      rw [Equiv.Perm.mul_apply, h.inside, hinside]
    case rest =>
      intro x hx
      have hx' : ¬ rows.Active s x := fun hactive => hx hactive.left
      rw [Equiv.Perm.mul_apply, (hrest x hx').left, (hrest x hx').right]
      exact h.rest x hx
  case depth_le =>
    intro x j hx hmj hje
    have hle := h.depth_le x j hx (hsm.trans hmj) hje
    exact hle.trans (min_le_min_right _ hsm)
  case remaining =>
    intro x j hx hmj hje
    have hy := (hinside x).mpr hx
    have hle := h.depth_le x j hx (hsm.trans hmj) hje
    rw [Equiv.Perm.mul_apply, h.remaining _ j hy (hsm.trans hmj) hje]
    by_cases hx' : rows.Active s x
    · rw [huniform _ x j ((hactive x).mpr hx') hx' hmj,
        hproduct x _ j hx' (hle.trans (Rows.done_le s x)),
        houtside x j hx' (Or.inr hmj)]
    · rw [hkept x _ j hx' ((h.depth_le _ j hy (hsm.trans hmj) hje).trans
        (Rows.done_le s _)), (hrest x hx').left, (hrest x hx').right]

/-!
## One column
-/

section Interchanges

variable [DecidableEq ι]

variable (rows) in
/-- Column `s` is eliminated, with row `p` as the pivot. -/
structure Step (s : Nat) (p : ι) (G G' : ι -> Nat -> α) : Prop where
  active : rows.Active s p
  pivot : G' (rows.current s) = G p
  factor : forall x, rows.Active (s + 1) x ->
    G' x s * G p s = G (Equiv.swap (rows.current s) p x) s
  bounded : forall x, rows.Active (s + 1) x -> |G' x s| ≤ 1
  kept : forall x j, rows.Active (s + 1) x -> j ≠ s ->
    G' x j = G (Equiv.swap (rows.current s) p x) j
  rest : forall x, ¬ rows.Active s x -> G' x = G x

theorem active_swap {s : Nat} {p : ι} (hp : rows.Active s p) (hb : b ≤ s)
    (he : s < e) (x : ι) :
    rows.Active s (Equiv.swap (rows.current s) p x) <-> rows.Active s x := by
  have hcurrent : rows.Active s (rows.current s) :=
    Rows.active_current hb he le_rfl
  rw [Equiv.swap_apply_def]
  split
  case isTrue hx => exact iff_of_true hp (hx ▸ hcurrent)
  case isFalse hx =>
    split
    case isTrue hxp => exact iff_of_true hcurrent (hxp ▸ hp)
    case isFalse _ => exact Iff.rfl

theorem Step.factored {s : Nat} {p : ι} {G G' : ι -> Nat -> α}
    (h : Step rows s p G G') (hb : b ≤ s) (he : s < e) :
    Factored (rows.block hb he) (s + 1) (Equiv.swap (rows.current s) p) G G' := by
  have hswap : Equiv.swap (rows.current s) p (rows.current s) = p :=
    Equiv.swap_apply_left _ _
  constructor
  case product =>
    intro x j hx hsj hj
    have hj' : j = s := by lia
    subst hj'
    rcases Rows.active_cases he hx with rfl | hx'
    · have hdone : (rows.block hb he).done (j + 1) (rows.current j) = j := by
        rw [Rows.done]
        exact (congrArg _ (rows.level_current j hb he)).trans
          (min_eq_right (Nat.le_succ j))
      rw [hdone, Rows.entry_of_le _ le_rfl, Rows.product, Finset.Ico_self,
        Finset.sum_empty, zero_add, hswap, h.pivot]
    · have hdone : (rows.block hb he).done (j + 1) x = j + 1 :=
        min_eq_left hx'.right
      rw [hdone, Rows.entry_of_lt _ (Nat.lt_succ_self j), Rows.product,
        Nat.Ico_succ_singleton, Finset.sum_singleton, ← h.factor x hx']
      exact congrArg _ (congrFun h.pivot j).symm
  case bounded =>
    intro x k hx hsk hk
    have hk' : k = s := by
      have hlt := hk.trans_le (Rows.done_le _ x)
      lia
    subst hk'
    apply h.bounded x
    exact ⟨hx.left, (lt_min_iff.mp hk).right⟩
  case outside =>
    intro x j hx hj
    rcases Rows.active_cases he hx with rfl | hx'
    · rw [hswap, h.pivot]
    · exact (h.kept x j hx' (by lia)).symm
  case inside => exact active_swap h.active hb he
  case rest =>
    intro x hx
    refine ⟨Equiv.swap_apply_of_ne_of_ne ?_ ?_, h.rest x hx⟩
    · rintro rfl
      exact hx (Rows.active_current hb he le_rfl)
    · rintro rfl
      exact hx h.active

/-- The interchanges of `k` columns from `b` on, the first one last. -/
def interchanges (current pivot : Nat -> ι) (b : Nat) : Nat -> Equiv.Perm ι
  | 0 => 1
  | k + 1 =>
      interchanges current pivot b k * Equiv.swap (current (b + k)) (pivot (b + k))

theorem interchanges_congr {current pivot pivot' : Nat -> ι} {b k : Nat}
    (h : forall i, b ≤ i -> i < b + k -> pivot i = pivot' i) :
    interchanges current pivot b k = interchanges current pivot' b k := by
  induction k with
  | zero => rfl
  | succ k ih =>
      rw [interchanges, interchanges, ih fun i hi hk => h i hi (by lia),
        h (b + k) (by lia) (by lia)]

theorem interchanges_add (current pivot : Nat -> ι) (b k l : Nat) :
    interchanges current pivot b (k + l) =
      interchanges current pivot b k * interchanges current pivot (b + k) l := by
  induction l with
  | zero => exact (mul_one _).symm
  | succ l ih =>
      rw [← Nat.add_assoc, interchanges, ih, interchanges, mul_assoc,
        Nat.add_assoc]

end Interchanges

end Order

end Elimination
end Foundation
end IPPD
