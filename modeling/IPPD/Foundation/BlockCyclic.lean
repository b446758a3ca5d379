import Mathlib.Algebra.BigOperators.Group.Finset.Piecewise
import Mathlib.Data.Nat.ModEq
import Mathlib.Data.Nat.Nth
import Mathlib.Tactic.Ring
import Mathlib.Tactic.SplitIfs

/-!
# Block-cyclic distributions

The indices 0, 1, 2, ... are cut into blocks, the first of a length of its own
and all others of one length, and the blocks are dealt to the processes in
turn.  The owner of an index is read off its block; everything else about the
distribution is counting: the local index of an index is the number of smaller
indices with the same owner.
-/

namespace IPPD
namespace Foundation

structure BlockCyclic where
  /-- The length of block 0. -/
  first : Nat
  /-- The length of every other block. -/
  block : Nat
  procs : Nat
  /-- The process that owns block 0. -/
  source : Nat
  first_pos : 0 < first
  block_pos : 0 < block
  source_lt : source < procs

namespace BlockCyclic

/-!
## Blocks
-/

def blockOf (D : BlockCyclic) (g : Nat) : Nat :=
  if g < D.first then 0 else (g - D.first) / D.block + 1

/-- The first index of a block. -/
def start (D : BlockCyclic) (b : Nat) : Nat :=
  if b = 0 then 0 else D.first + (b - 1) * D.block

def size (D : BlockCyclic) (b : Nat) : Nat :=
  if b = 0 then D.first else D.block

def owner (D : BlockCyclic) (g : Nat) : Nat :=
  (D.source + D.blockOf g) % D.procs

def Owns (D : BlockCyclic) (p g : Nat) : Prop :=
  D.owner g = p

instance (D : BlockCyclic) (p : Nat) : DecidablePred (D.Owns p) :=
  fun g => inferInstanceAs (Decidable (D.owner g = p))

/-- How many of the indices below `n` process `p` owns. -/
def below (D : BlockCyclic) (p n : Nat) : Nat :=
  Nat.count (D.Owns p) n

/-- How many processes block 0 is dealt before `p` gets its first block. -/
def dist (D : BlockCyclic) (p : Nat) : Nat :=
  if p < D.source then p + D.procs - D.source else p - D.source

variable (D : BlockCyclic)

theorem procs_pos : 0 < D.procs :=
  Nat.zero_lt_of_lt D.source_lt

@[simp]
theorem start_zero : D.start 0 = 0 :=
  rfl

@[simp]
theorem size_zero : D.size 0 = D.first :=
  rfl

@[simp]
theorem size_succ (b : Nat) : D.size (b + 1) = D.block :=
  rfl

theorem start_succ (b : Nat) : D.start (b + 1) = D.start b + D.size b := by
  cases b with
  | zero => simp [start, size]
  | succ b =>
      simp only [start, size, Nat.add_one_ne_zero, if_false]
      rw [Nat.add_sub_cancel, Nat.add_sub_cancel, Nat.succ_mul, Nat.add_assoc]

theorem blockOf_start_add {b x : Nat} (hx : x < D.size b) :
    D.blockOf (D.start b + x) = b := by
  cases b with
  | zero =>
      have hfirst : x < D.first := by simpa [size] using hx
      simp [blockOf, start, hfirst]
  | succ b =>
      have hblock : x < D.block := by simpa [size] using hx
      have hquot : (b * D.block + x) / D.block = b := by
        rw [Nat.mul_comm, Nat.mul_add_div D.block_pos,
          Nat.div_eq_of_lt hblock, Nat.add_zero]
      have hlow : ¬ D.first + b * D.block + x < D.first := by lia
      simp only [blockOf, start, Nat.add_one_ne_zero, if_false,
        Nat.add_sub_cancel, hlow]
      rw [Nat.add_assoc, Nat.add_sub_cancel_left, hquot]

theorem exists_block (g : Nat) :
    exists b x, x < D.size b ∧ g = D.start b + x := by
  by_cases hg : g < D.first
  · exact ⟨0, g, by simpa [size] using hg, by simp [start]⟩
  · have hmod := Nat.mod_lt (g - D.first) D.block_pos
    have hdiv := Nat.div_add_mod (g - D.first) D.block
    refine ⟨(g - D.first) / D.block + 1, (g - D.first) % D.block,
      by simpa [size] using hmod, ?_⟩
    simp only [start, Nat.add_one_ne_zero, if_false, Nat.add_sub_cancel]
    rw [Nat.mul_comm] at hdiv
    lia

theorem owner_start_add {b x : Nat} (hx : x < D.size b) :
    D.owner (D.start b + x) = (D.source + b) % D.procs := by
  rw [owner, D.blockOf_start_add hx]

theorem owner_lt (g : Nat) : D.owner g < D.procs :=
  Nat.mod_lt _ D.procs_pos

theorem dist_lt {p : Nat} (hp : p < D.procs) : D.dist p < D.procs := by
  have hsource := D.source_lt
  unfold dist
  split <;> lia

theorem source_add_dist {p : Nat} (hp : p < D.procs) :
    (D.source + D.dist p) % D.procs = p := by
  have hsource := D.source_lt
  unfold dist
  split
  · have hsum : D.source + (p + D.procs - D.source) = p + D.procs := by lia
    rw [hsum, Nat.add_mod_right, Nat.mod_eq_of_lt hp]
  · have hsum : D.source + (p - D.source) = p := by lia
    rw [hsum, Nat.mod_eq_of_lt hp]

/-- Process `p` owns the blocks whose number is its distance from the source,
up to rounds. -/
theorem owns_start_add_iff {p b x : Nat} (hp : p < D.procs)
    (hx : x < D.size b) :
    D.Owns p (D.start b + x) <-> b % D.procs = D.dist p := by
  have hdist := D.dist_lt hp
  rw [Owns, D.owner_start_add hx]
  constructor
  · intro h
    have hcong : Nat.ModEq D.procs (D.source + b) (D.source + D.dist p) := by
      rw [Nat.ModEq, h, D.source_add_dist hp]
    have hb := Nat.ModEq.add_left_cancel' D.source hcong
    rw [Nat.ModEq, Nat.mod_eq_of_lt hdist] at hb
    exact hb
  · intro h
    rw [Nat.add_mod, h, Nat.mod_eq_of_lt D.source_lt]
    exact D.source_add_dist hp

/-!
## Counting the indices of a process
-/

theorem div_mod_succ (n : Nat) {d : Nat} (hd : 0 < d) :
    (n % d + 1 = d ∧ (n + 1) / d = n / d + 1 ∧ (n + 1) % d = 0) ∨
      (n % d + 1 < d ∧ (n + 1) / d = n / d ∧ (n + 1) % d = n % d + 1) := by
  have hdiv := Nat.div_add_mod n d
  rcases Nat.lt_or_eq_of_le (Nat.mod_lt n hd) with hlt | heq
  · have h : (n + 1) / d = n / d ∧ (n + 1) % d = n % d + 1 :=
      (Nat.div_mod_unique hd).mpr ⟨by lia, hlt⟩
    exact Or.inr ⟨hlt, h.left, h.right⟩
  · have h : (n + 1) / d = n / d + 1 ∧ (n + 1) % d = 0 :=
      (Nat.div_mod_unique hd).mpr ⟨by rw [Nat.mul_add]; lia, hd⟩
    exact Or.inl ⟨heq, h.left, h.right⟩

theorem below_succ (p n : Nat) :
    D.below p (n + 1) = D.below p n + if D.Owns p n then 1 else 0 :=
  Nat.count_succ _ n

theorem below_start_add {p b x : Nat} (hp : p < D.procs) (hx : x ≤ D.size b) :
    D.below p (D.start b + x) =
      D.below p (D.start b) + if b % D.procs = D.dist p then x else 0 := by
  induction x with
  | zero => simp
  | succ x ih =>
      have howns := D.owns_start_add_iff hp (Nat.lt_of_succ_le hx)
      rw [← Nat.add_assoc, below_succ, ih (Nat.le_of_succ_le hx)]
      by_cases hb : b % D.procs = D.dist p
      · rw [if_pos hb, if_pos (howns.mpr hb), if_pos hb, Nat.add_assoc]
      · rw [if_neg hb, if_neg (fun h => hb (howns.mp h)), if_neg hb]

/-- The length of the blocks of `p` among the first `b` blocks: one for every
round, one more when the last round has passed `p`, and the first block has its
own length. -/
theorem below_start {p : Nat} (hp : p < D.procs) (b : Nat) :
    (D.below p (D.start b) : Int) =
      ((b / D.procs : Nat) + if D.dist p < b % D.procs then 1 else 0) * D.block
        + if D.dist p = 0 ∧ 0 < b then (D.first : Int) - D.block else 0 := by
  induction b with
  | zero => simp [start, below]
  | succ b ih =>
      have hdist := D.dist_lt hp
      rw [start_succ, D.below_start_add hp (Nat.le_refl _), Nat.cast_add, ih]
      have hzero : b = 0 -> b % D.procs = 0 := fun h => by simp [h]
      -- A new round gives `p` another block at its distance; within a round
      -- the block just dealt belongs to `p` exactly at that distance.
      rcases div_mod_succ b D.procs_pos with
        ⟨hround, hdiv, hmod⟩ | ⟨hround, hdiv, hmod⟩
      all_goals
        rw [hdiv, hmod]
        generalize b / D.procs = q at *
        generalize b % D.procs = r at *
        unfold size
        split_ifs <;> push_cast <;> grind

theorem below_eq {p b x : Nat} (hp : p < D.procs) (hx : x ≤ D.size b) :
    (D.below p (D.start b + x) : Int) =
      ((b / D.procs : Nat) + if D.dist p < b % D.procs then 1 else 0) * D.block
        + (if D.dist p = 0 ∧ 0 < b then (D.first : Int) - D.block else 0)
        + if b % D.procs = D.dist p then (x : Int) else 0 := by
  rw [D.below_start_add hp hx, Nat.cast_add, D.below_start hp]
  split_ifs <;> simp

theorem sum_below (n : Nat) :
    ∑ p ∈ Finset.range D.procs, D.below p n = n := by
  induction n with
  | zero => simp [below]
  | succ n ih =>
      have howner : ∑ p ∈ Finset.range D.procs,
          (if D.Owns p n then 1 else 0) = 1 := by
        rw [Finset.sum_eq_single (D.owner n)]
        · exact if_pos rfl
        · intro p _ hp
          exact if_neg (fun h => hp h.symm)
        · intro h
          exact absurd (Finset.mem_range.mpr (D.owner_lt n)) h
      simp only [below_succ]
      rw [Finset.sum_add_distrib, ih, howner]

/-!
## The indices from some index on

What is left of a distribution after its first indices is a distribution again:
its first block is the rest of the block it starts in.
-/

theorem start_blockOf_le (i : Nat) : D.start (D.blockOf i) ≤ i := by
  rcases D.exists_block i with ⟨b, x, hx, rfl⟩
  rw [D.blockOf_start_add hx]
  exact Nat.le_add_right _ _

theorem lt_start_blockOf_succ (i : Nat) : i < D.start (D.blockOf i + 1) := by
  rcases D.exists_block i with ⟨b, x, hx, rfl⟩
  rw [D.blockOf_start_add hx, start_succ]
  exact Nat.add_lt_add_left hx _

def dropped (D : BlockCyclic) (i : Nat) : BlockCyclic where
  first := D.start (D.blockOf i + 1) - i
  block := D.block
  procs := D.procs
  source := D.owner i
  first_pos := Nat.sub_pos_of_lt (D.lt_start_blockOf_succ i)
  block_pos := D.block_pos
  source_lt := D.owner_lt i

theorem start_dropped_succ (i b : Nat) :
    i + (D.dropped i).start (b + 1) = D.start (D.blockOf i + (b + 1)) := by
  have hlt := D.lt_start_blockOf_succ i
  induction b with
  | zero =>
      rw [start_succ, start_zero, size_zero, Nat.zero_add]
      exact Nat.add_sub_cancel' (Nat.le_of_lt hlt)
  | succ b ih =>
      rw [start_succ, ← Nat.add_assoc, ih, ← Nat.add_assoc _ (b + 1),
        D.start_succ]
      rfl

theorem owner_dropped (i g : Nat) :
    (D.dropped i).owner g = D.owner (i + g) := by
  rcases (D.dropped i).exists_block g with ⟨b, x, hx, rfl⟩
  rw [owner_start_add _ hx, ← Nat.add_assoc]
  have hle := D.start_blockOf_le i
  have hlt := D.lt_start_blockOf_succ i
  cases b with
  | zero =>
      -- The same block as `i`.
      have hplace : i + (D.dropped i).start 0 + x =
          D.start (D.blockOf i) + (i - D.start (D.blockOf i) + x) := by
        rw [start_zero]
        lia
      have hsize : i - D.start (D.blockOf i) + x < D.size (D.blockOf i) := by
        rw [size_zero] at hx
        change x < D.start (D.blockOf i + 1) - i at hx
        rw [start_succ] at hx
        lia
      rw [hplace, D.owner_start_add hsize]
      exact Nat.mod_mod _ _
  | succ b =>
      rw [size_succ] at hx
      rw [D.start_dropped_succ, D.owner_start_add hx]
      change (D.owner i + (b + 1)) % D.procs = _
      rw [owner, Nat.mod_add_mod, Nat.add_assoc]

theorem below_dropped (p i n : Nat) :
    (D.dropped i).below p n + D.below p i = D.below p (i + n) := by
  induction n with
  | zero => simp [below]
  | succ n ih =>
      have howns : (D.dropped i).Owns p n <-> D.Owns p (i + n) := by
        rw [Owns, owner_dropped, Owns]
      rw [← Nat.add_assoc, below_succ, below_succ, ← ih]
      simp only [howns]
      lia

theorem below_of_procs_eq_one (hprocs : D.procs = 1) (n : Nat) :
    D.below 0 n = n := by
  have hall : forall g, D.Owns 0 g := by
    intro g
    have hlt := D.owner_lt g
    rw [Owns]
    lia
  induction n with
  | zero => rfl
  | succ n ih => rw [below_succ, ih, if_pos (hall n)]

/-!
## Global indices from local ones
-/

/-- The index with local index `l` on process `p`. -/
noncomputable def globalOf (D : BlockCyclic) (p l : Nat) : Nat :=
  Nat.nth (D.Owns p) l

theorem globalOf_below {p g : Nat} (h : D.Owns p g) :
    D.globalOf p (D.below p g) = g :=
  Nat.nth_count h

theorem below_lt_below_iff {p g n : Nat} (h : D.Owns p g) :
    D.below p g < D.below p n <-> g < n := by
  constructor
  · intro hlt
    by_contra hle
    exact Nat.not_lt_of_le (Nat.count_monotone _ (Nat.le_of_not_lt hle)) hlt
  · intro hlt
    exact Nat.count_strict_mono h hlt

end BlockCyclic
end Foundation
end IPPD
