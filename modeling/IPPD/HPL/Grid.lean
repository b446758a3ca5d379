import IPPD.Foundation.Rounds
import IPPD.Foundation.Hypercube

/-!
# Process grids

The arithmetic on the coordinates of a process row or column: adding and
subtracting modulo the number of processes, the distance of a process from a
root, and the power of two below the number of processes.
-/

namespace IPPD
namespace HPL

open Foundation

def mModAdd (i1 i2 d : Int) : Int :=
  if i1 + i2 < d then i1 + i2 else i1 + i2 - d

def mModAdd1 (i d : Int) : Int :=
  if i ≠ d - 1 then i + 1 else 0

def mModSub (i1 i2 d : Int) : Int :=
  if i1 < i2 then d + i1 - i2 else i1 - i2

def mModSub1 (i d : Int) : Int :=
  if i ≠ 0 then i - 1 else d - 1

theorem mModAdd_comm (i1 i2 d : Int) : mModAdd i1 i2 d = mModAdd i2 i1 d := by
  unfold mModAdd
  rw [Int.add_comm]

variable {n : Nat}

/-- How far a process is after the root. -/
def distance (root r : Fin n) : Nat :=
  (mModSub r root n).toNat

theorem distance_lt (root r : Fin n) : distance root r < n := by
  have hroot := root.isLt
  have hr := r.isLt
  unfold distance mModSub
  split <;> lia

theorem mModSub_eq_distance (root r : Fin n) :
    mModSub r root n = distance root r := by
  have hroot := root.isLt
  have hr := r.isLt
  unfold distance mModSub
  split <;> lia

theorem mModAdd_distance (root r : Fin n) :
    mModAdd root (distance root r) n = r := by
  have hroot := root.isLt
  have hr := r.isLt
  unfold distance mModSub mModAdd
  split <;> split <;> lia

/-- The process at a distance from the root. -/
def atDistance (root : Fin n) (d : Fin n) : Fin n :=
  ⟨(mModAdd root d n).toNat, by
    have hroot := root.isLt
    have hd := d.isLt
    unfold mModAdd
    split <;> lia⟩

theorem mModAdd_eq_atDistance (root d : Fin n) :
    mModAdd root d n = atDistance root d := by
  have hroot := root.isLt
  have hd := d.isLt
  simp only [atDistance, mModAdd]
  split <;> lia

@[simp]
theorem distance_atDistance (root d : Fin n) :
    distance root (atDistance root d) = d := by
  have hroot := root.isLt
  have hd := d.isLt
  have hat := mModAdd_eq_atDistance root d
  unfold mModAdd at hat
  unfold distance mModSub
  split <;> split at hat <;> lia

theorem distance_injective (root : Fin n) :
    Function.Injective (distance root) := by
  intro r r' h
  have hr := mModAdd_distance root r
  rw [h, mModAdd_distance root r'] at hr
  exact Fin.ext (by lia)

theorem atDistance_eq {root d r : Fin n} (h : d.val = distance root r) :
    atDistance root d = r := by
  apply distance_injective root
  rw [distance_atDistance, h]

@[simp]
theorem distance_self (root : Fin n) : distance root root = 0 := by
  simp [distance, mModSub]

theorem distance_eq_zero {root r : Fin n} : distance root r = 0 <-> r = root := by
  rw [← distance_self root]
  exact (distance_injective root).eq_iff

theorem coe_eq_iff (root : Fin n) {r q : Fin n} :
    ((r : Nat) : Int) = (q : Nat) <-> distance root r = distance root q := by
  rw [(distance_injective root).eq_iff, Nat.cast_inj, Fin.val_inj]

/-- Seen from another root, the processes before it come last. -/
theorem distance_atDistance_root (root d r : Fin n) :
    distance (atDistance root d) r =
      if d ≤ distance root r then distance root r - d
      else distance root r + n - d := by
  have hat := mModAdd_eq_atDistance root d
  have hd := d.isLt
  have hroot := root.isLt
  have hr := r.isLt
  have hnew := (atDistance root d).isLt
  unfold mModAdd at hat
  unfold distance mModSub
  split at hat <;> split <;> split <;> split <;> omega

/-!
## Neighbours
-/

/-- The process after `r`, back to the root after the last one. -/
def after (root r : Fin n) : Fin n :=
  atDistance root ⟨(distance root r + 1) % n, Nat.mod_lt _ r.pos⟩

def before (root r : Fin n) : Fin n :=
  atDistance root ⟨(distance root r + (n - 1)) % n, Nat.mod_lt _ r.pos⟩

theorem distance_after (root r : Fin n) :
    distance root (after root r) = (distance root r + 1) % n :=
  distance_atDistance root _

theorem distance_before (root r : Fin n) :
    distance root (before root r) = (distance root r + (n - 1)) % n :=
  distance_atDistance root _

theorem distance_add (root r : Fin n) :
    distance root r + root = if r < root then r + n else r := by
  have hr := mModSub_eq_distance root r
  have hlt := r.isLt
  unfold mModSub at hr
  by_cases h : r < root
  · rw [if_pos h]
    rw [if_pos (by exact_mod_cast h)] at hr
    omega
  · rw [if_neg h]
    rw [if_neg (by exact_mod_cast h)] at hr
    omega

theorem mod_of_lt_two_mul {a b : Nat} (h : a < 2 * b) :
    a % b = if a < b then a else a - b := by
  by_cases hab : a < b
  · rw [if_pos hab, Nat.mod_eq_of_lt hab]
  · rw [if_neg hab, Nat.mod_eq_sub_mod (by lia), Nat.mod_eq_of_lt (by lia)]

theorem mModAdd_eq_mod {a b d : Nat} (ha : a < d) (hb : b ≤ d) :
    mModAdd a b d = ((a + b) % d : Nat) := by
  rw [mod_of_lt_two_mul (by lia)]
  unfold mModAdd
  split <;> split <;> omega

theorem mModSub_eq_mod {a b d : Nat} (ha : a < d) (hb : b ≤ d) :
    mModSub a b d = ((a + d - b) % d : Nat) := by
  by_cases hb0 : b = 0
  · rw [hb0, Nat.sub_zero, Nat.add_mod_right, Nat.mod_eq_of_lt ha]
    unfold mModSub
    split <;> omega
  · rw [mod_of_lt_two_mul (by lia)]
    unfold mModSub
    split <;> split <;> omega

theorem mModAdd1_eq_after (root r : Fin n) :
    mModAdd1 r n = after root r := by
  have hr := distance_add root r
  have hafter := distance_add root (after root r)
  have hlt := distance_lt root r
  rw [distance_after, mod_of_lt_two_mul (by lia)] at hafter
  have hrlt := r.isLt
  have halt := (after root r).isLt
  have hrootlt := root.isLt
  unfold mModAdd1
  split at hr <;> split at hafter <;> split at hafter <;> split <;> omega

theorem mModSub1_eq_before (root r : Fin n) :
    mModSub1 r n = before root r := by
  have hr := distance_add root r
  have hbefore := distance_add root (before root r)
  have hlt := distance_lt root r
  rw [distance_before, mod_of_lt_two_mul (by lia)] at hbefore
  have hrlt := r.isLt
  have halt := (before root r).isLt
  have hrootlt := root.isLt
  unfold mModSub1
  split at hr <;> split at hbefore <;> split at hbefore <;> split <;> omega

theorem distance_after_eq (root r : Fin n) :
    distance root (after root r) =
      if distance root r + 1 < n then distance root r + 1 else 0 := by
  have hlt := distance_lt root r
  rw [distance_after, mod_of_lt_two_mul (by lia)]
  split <;> lia

theorem distance_before_eq (root r : Fin n) :
    distance root (before root r) =
      if distance root r = 0 then n - 1 else distance root r - 1 := by
  have hlt := distance_lt root r
  rw [distance_before, mod_of_lt_two_mul (by lia)]
  split <;> split <;> lia

@[simp]
theorem before_after (root r : Fin n) : before root (after root r) = r := by
  apply distance_injective root
  have hlt := distance_lt root r
  rw [distance_before_eq, distance_after_eq]
  split <;> split <;> lia

@[simp]
theorem after_before (root r : Fin n) : after root (before root r) = r := by
  apply distance_injective root
  have hlt := distance_lt root r
  rw [distance_after_eq, distance_before_eq]
  split <;> split <;> lia

theorem before_eq_of_next {root r q : Fin n}
    (h : distance root q = distance root r + 1) : before root q = r := by
  apply distance_injective root
  rw [distance_before_eq, h, if_neg (Nat.succ_ne_zero _), Nat.add_sub_cancel]

/-!
## Rounds across a dimension
-/

/-- The process further on by `2 ^ k`. -/
def across (root : Fin n) (k : Nat) (r : Fin n) : Fin n :=
  atDistance root ⟨(distance root r + 2 ^ k) % n, Nat.mod_lt _ r.pos⟩

theorem distance_across {root r : Fin n} {k : Nat}
    (h : distance root r + 2 ^ k < n) :
    distance root (across root k r) = distance root r + 2 ^ k := by
  rw [across, distance_atDistance]
  exact Nat.mod_eq_of_lt h

theorem sync_across {value : Type u} {result : Type v}
    {code code' : Fin n -> Program value result} (root : Fin n) (k : Nat)
    (P : Nat -> Prop) [DecidablePred P]
    (hP : forall d, P d -> d.testBit k = false ∧ d + 2 ^ k < n)
    (hmeet : forall r q, P (distance root r) ->
      distance root q = distance root r + 2 ^ k ->
        Communicator.Meet r q (code r) (code q) (code' r) (code' q))
    (hidle : forall q, ¬ P (distance root q) ->
      (forall d, P d -> distance root q ≠ d + 2 ^ k) -> code' q = code q) :
    Communicator.Sync code code' := by
  have hbit : forall d, P d -> (d + 2 ^ k).testBit k = true := by
    intro d hd
    rw [Nat.add_comm, Nat.testBit_two_pow_add_eq, (hP d hd).left]
    rfl
  have hacross : forall r, P (distance root r) ->
      distance root (across root k r) = distance root r + 2 ^ k :=
    fun r hr => distance_across (hP _ hr).right
  apply Communicator.Sync.round
    (Finset.univ.filter fun r => P (distance root r)) (across root k)
  · intro r x hr hx heq
    have hr' := (Finset.mem_filter.mp hr).right
    have hx' := (Finset.mem_filter.mp hx).right
    have hfalse := (hP _ hr').left
    rw [heq, hacross x hx', hbit _ hx'] at hfalse
    cases hfalse
  · intro r x hr hx heq
    have hr' := hacross r (Finset.mem_filter.mp hr).right
    have hx' := hacross x (Finset.mem_filter.mp hx).right
    rw [heq, hx'] at hr'
    exact distance_injective root (Nat.add_right_cancel hr').symm
  · intro r hr
    have hr' := (Finset.mem_filter.mp hr).right
    exact hmeet r _ hr' (hacross r hr')
  · intro q hq hother
    apply hidle q
    · intro h
      exact hq (Finset.mem_filter.mpr ⟨Finset.mem_univ q, h⟩)
    · intro d hd hqd
      let r := atDistance root ⟨d, by have := (hP d hd).right; lia⟩
      have hr : distance root r = d := distance_atDistance root _
      have hr' : P (distance root r) := hr ▸ hd
      apply hother r (Finset.mem_filter.mpr ⟨Finset.mem_univ r, hr'⟩)
      apply distance_injective root
      rw [hacross r hr', hr, hqd]

/-- Two neighbours across dimension `k`, seen from the root: the coordinates
below `k` are zero, and the first process has coordinate `k` zero too. -/
structure Corners (root : Fin n) (k : Nat) (r q : Fin n) : Prop where
  low : distance root r % 2 ^ (k + 1) = 0
  next : distance root q = distance root r + 2 ^ k

namespace Corners

variable {root r q : Fin n} {k : Nat}

theorem high (h : Corners root k r q) :
    distance root q % 2 ^ (k + 1) = 2 ^ k := by
  rw [h.next]
  exact Hypercube.upper_mod h.low

theorem low_zero (h : Corners root k r q) : distance root r % 2 ^ k = 0 :=
  Hypercube.mod_two_pow_of_succ h.low

theorem high_zero (h : Corners root k r q) : distance root q % 2 ^ k = 0 := by
  rw [h.next, Nat.add_mod_right]
  exact h.low_zero

theorem up (h : Corners root k r q) :
    mModAdd root ((distance root r ^^^ 2 ^ k : Nat) : Int) n = q := by
  rw [Hypercube.xor_lower h.low, ← h.next]
  exact mModAdd_distance root q

theorem down (h : Corners root k r q) :
    mModAdd root ((distance root q ^^^ 2 ^ k : Nat) : Int) n = r := by
  rw [Hypercube.xor_upper h.high, h.next, Nat.add_sub_cancel]
  exact mModAdd_distance root r

theorem partner_lt (h : Corners root k r q) :
    ((distance root r ^^^ 2 ^ k : Nat) : Int) < n := by
  rw [Hypercube.xor_lower h.low, ← h.next]
  exact_mod_cast distance_lt root q

end Corners

/-- Two neighbours across dimension `k`, whatever their other coordinates. -/
structure Opposite (root : Fin n) (k : Nat) (r q : Fin n) : Prop where
  bit : (distance root r).testBit k = false
  next : distance root q = distance root r + 2 ^ k

namespace Opposite

variable {root r q : Fin n} {k : Nat}

theorem up (h : Opposite root k r q) :
    mModAdd ((distance root r ^^^ 2 ^ k : Nat) : Int) root n = q := by
  rw [Hypercube.xor_across h.bit, ← h.next, mModAdd_comm]
  exact mModAdd_distance root q

theorem down (h : Opposite root k r q) :
    mModAdd ((distance root q ^^^ 2 ^ k : Nat) : Int) root n = r := by
  rw [h.next, Hypercube.xor_back h.bit, mModAdd_comm]
  exact mModAdd_distance root r

theorem land_low (h : Opposite root k r q) : distance root r &&& 2 ^ k = 0 := by
  rw [Nat.and_two_pow, h.bit, Bool.toNat_false, Nat.zero_mul]

theorem land_high (h : Opposite root k r q) : distance root q &&& 2 ^ k ≠ 0 := by
  rw [Nat.and_two_pow, h.next, Nat.add_comm, Nat.testBit_two_pow_add_eq, h.bit,
    Bool.not_false, Bool.toNat_true, Nat.one_mul]
  exact (Nat.two_pow_pos k).ne'

theorem ne (h : Opposite root k r q) : r ≠ q := by
  rintro rfl
  have hpos := Nat.two_pow_pos k
  have hnext := h.next
  lia

end Opposite

theorem sync_corners_below {value : Type u} {result : Type v}
    {code code' : Fin n -> Program value result} (root : Fin n) {size : Nat}
    (hsize : size ≤ n) (k : Nat)
    (hmeet : forall r q, Corners root k r q -> distance root q < size ->
      Communicator.Meet r q (code r) (code q) (code' r) (code' q))
    (hlast : forall q, distance root q % 2 ^ (k + 1) = 0 ->
      size ≤ distance root q + 2 ^ k -> code' q = code q)
    (hinner : forall q, distance root q % 2 ^ k ≠ 0 -> code' q = code q)
    (hout : forall q, size ≤ distance root q -> code' q = code q) :
    Communicator.Sync code code' := by
  apply sync_across root k (fun d => d % 2 ^ (k + 1) = 0 ∧ d + 2 ^ k < size)
  · intro d hd
    refine ⟨?_, hd.right.trans_le hsize⟩
    rw [Hypercube.testBit_of_mod hd.left, Nat.zero_testBit]
  · intro r q hr hq
    exact hmeet r q ⟨hr.left, hq⟩ (hq ▸ hr.right)
  · intro q hq hother
    by_cases hk : distance root q % 2 ^ k = 0
    · rcases Hypercube.mod_two_pow_succ hk with hlow | hhigh
      · exact hlast q hlow (Nat.le_of_not_lt fun h => hq ⟨hlow, h⟩)
      · -- the neighbour below is there
        rcases Hypercube.lower_mod hhigh with ⟨hle, hlow⟩
        apply hout q (Nat.le_of_not_lt fun h => ?_)
        refine hother _ ⟨hlow, ?_⟩ (Nat.sub_add_cancel hle).symm
        rw [Nat.sub_add_cancel hle]
        exact h
    · exact hinner q hk

/-- A round in which all corners that have a neighbour across dimension `k`
meet it. -/
theorem sync_corners {value : Type u} {result : Type v}
    {code code' : Fin n -> Program value result} (root : Fin n) (k : Nat)
    (hmeet : forall r q, Corners root k r q ->
      Communicator.Meet r q (code r) (code q) (code' r) (code' q))
    (hlast : forall q, distance root q % 2 ^ (k + 1) = 0 ->
      n ≤ distance root q + 2 ^ k -> code' q = code q)
    (hinner : forall q, distance root q % 2 ^ k ≠ 0 -> code' q = code q) :
    Communicator.Sync code code' :=
  sync_corners_below root le_rfl k (fun r q h _ => hmeet r q h) hlast hinner
    fun q hq => absurd (distance_lt root q) (Nat.not_lt.mpr hq)

end HPL
end IPPD
