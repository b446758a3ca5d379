import IPPD.Foundation.BlockCyclic
import IPPD.HPL.Indices
import Mathlib.Algebra.BigOperators.Fin
import Mathlib.Tactic.LinearCombination
import Mathlib.Tactic.Positivity

/-!
# The index functions count

The closed formulas of the index functions are the counts and the translations
of the block-cyclic distribution with their parameters.
-/

namespace IPPD
namespace HPL

open Foundation

variable (D : BlockCyclic)

/-!
## Block numbers
-/

theorem natCast_tdiv (a b : Nat) : (a : Int).tdiv b = (a / b : Nat) := by
  simp

theorem natCast_start_succ (b : Nat) :
    (D.start (b + 1) : Int) = D.first + D.block * b := by
  simp [BlockCyclic.start]
  ring

theorem tdiv_block {b x : Nat} (hx : x < D.block) :
    ((D.start (b + 1) + x : Nat) - D.first : Int).tdiv D.block = b := by
  have hsub : ((D.start (b + 1) + x : Nat) - D.first : Int) =
      (D.block * b + x : Nat) := by
    push_cast
    rw [natCast_start_succ]
    ring
  rw [hsub, natCast_tdiv, Nat.mul_add_div D.block_pos, Nat.div_eq_of_lt hx,
    Nat.add_zero]

theorem mPosMod_natCast (a b : Nat) : mPosMod a b = (a % b : Nat) := by
  have hdiv : (b : Int) * (a / b : Nat) + (a % b : Nat) = a := by
    exact_mod_cast Nat.div_add_mod a b
  rw [mPosMod, natCast_tdiv]
  linear_combination -hdiv

theorem first_or_later (g : Nat) :
    g < D.first ∨
      exists b x, x < D.block ∧ g = D.start (b + 1) + x := by
  rcases D.exists_block g with ⟨b, x, hx, rfl⟩
  cases b with
  | zero => exact Or.inl (by simpa using hx)
  | succ b => exact Or.inr ⟨b, x, hx, rfl⟩

theorem not_lt_first (b x : Nat) :
    ¬ ((D.start (b + 1) + x : Nat) : Int) < D.first := by
  push_cast
  rw [natCast_start_succ]
  have hblocks : (0 : Int) ≤ D.block * b := by positivity
  lia

theorem owner_of_lt {g : Nat} (hg : g < D.first) : D.owner g = D.source := by
  have hown := D.owner_start_add (b := 0) (x := g) hg
  rw [D.start_zero, Nat.zero_add] at hown
  rw [hown, Nat.add_zero, Nat.mod_eq_of_lt D.source_lt]

theorem below_of_le {p n : Nat} (hp : p < D.procs) (hn : n ≤ D.first) :
    D.below p n = if p = D.source then n else 0 := by
  have hsource := D.source_lt
  have hcount := D.below_start_add (b := 0) hp hn
  rw [D.start_zero, Nat.zero_add] at hcount
  rw [hcount]
  have hdist : 0 = D.dist p <-> p = D.source := by
    unfold BlockCyclic.dist
    split <;> lia
  simp [BlockCyclic.below, hdist]

theorem source_of_procs_eq_one (hprocs : D.procs = 1) : D.source = 0 := by
  have hlt := D.source_lt
  lia

/-!
## Owners and local indices
-/

theorem indxg2p_eq (g : Nat) :
    indxg2p g D.first D.block D.source D.procs = D.owner g := by
  rcases first_or_later D g with hg | ⟨b, x, hx, rfl⟩
  · rw [owner_of_lt D hg, indxg2p, if_pos (Or.inl (by exact_mod_cast hg))]
  · rw [D.owner_start_add hx]
    unfold indxg2p
    split
    · rename_i hcase
      have hone : D.procs = 1 := by
        rcases hcase with hlt | hsrc | hone
        · exact absurd hlt (not_lt_first D b x)
        · lia
        · exact_mod_cast hone
      rw [source_of_procs_eq_one D hone, hone, Nat.mod_one]
    · rw [tdiv_block D hx]
      have hcast : (D.source + 1 + b : Int) = (D.source + (b + 1) : Nat) := by
        push_cast
        ring
      simp only [hcast, mPosMod_natCast]

theorem below_later {p b x : Nat} (hp : p < D.procs) (hx : x ≤ D.block) :
    (D.below p (D.start (b + 1) + x) : Int) =
      (((b + 1) / D.procs : Nat) +
          if D.dist p < (b + 1) % D.procs then 1 else 0) * D.block
        + (if D.dist p = 0 then (D.first : Int) - D.block else 0)
        + if (b + 1) % D.procs = D.dist p then (x : Int) else 0 := by
  rw [D.below_eq hp (by simpa using hx)]
  simp

theorem indxg2l_eq (g : Nat) :
    indxg2l g D.first D.block D.source D.procs = D.below (D.owner g) g := by
  have howner := D.owner_lt g
  rcases first_or_later D g with hg | ⟨b, x, hx, rfl⟩
  · rw [below_of_le D howner (Nat.le_of_lt hg), owner_of_lt D hg, if_pos rfl,
      indxg2l, if_pos (Or.inl (by exact_mod_cast hg))]
  · unfold indxg2l
    split
    · rename_i hcase
      have hone : D.procs = 1 := by
        rcases hcase with hlt | hsrc | hone
        · exact absurd hlt (not_lt_first D b x)
        · lia
        · exact_mod_cast hone
      have hzero : D.owner (D.start (b + 1) + x) = 0 := by lia
      rw [hzero, D.below_of_procs_eq_one hone]
    · have hown := (D.owns_start_add_iff howner hx).mp rfl
      have hb : (D.procs : Int) * (b / D.procs : Nat) + (b % D.procs : Nat) =
          b := by
        exact_mod_cast Nat.div_add_mod b D.procs
      rw [below_later D howner (Nat.le_of_lt hx), if_pos hown, ← hown,
        tdiv_block D hx]
      simp only [natCast_tdiv]
      rcases BlockCyclic.div_mod_succ b D.procs_pos with
        ⟨hround, hdiv, hmod⟩ | ⟨hround, hdiv, hmod⟩
      all_goals
        rw [hdiv, hmod]
        generalize b / D.procs = q at *
        generalize b % D.procs = r at *
        push_cast
        rw [natCast_start_succ]
      -- Block `b + 1` starts a round: it belongs to the source.
      · have hcond : (b + 1 - (q + 1) * D.procs : Int) = 0 := by
          have hround' : (r : Int) + 1 = D.procs := by exact_mod_cast hround
          linear_combination hround' - hb
        rw [if_neg (not_not.mpr hcond)]
        simp
        ring
      · have hcond : (b + 1 - (q + 1) * D.procs : Int) ≠ 0 := by
          have hround' : (r : Int) + 1 < D.procs := by exact_mod_cast hround
          lia
        rw [if_pos hcond]
        simp
        ring

theorem indxg2lp_eq_pair (ig inb nb srcproc nprocs : Int) :
    indxg2lp ig inb nb srcproc nprocs =
      (indxg2l ig inb nb srcproc nprocs, indxg2p ig inb nb srcproc nprocs) := by
  unfold indxg2lp indxg2l indxg2p
  split <;> rfl

theorem mindxg2p_eq_indxg2p {ig inb nb src nprocs : Int} (hsrc : 0 ≤ src)
    (hprocs : 0 < nprocs) :
    mindxg2p ig inb nb src nprocs = indxg2p ig inb nb src nprocs := by
  unfold mindxg2p indxg2p
  by_cases hcase : inb ≤ ig ∧ 0 ≤ src ∧ 1 < nprocs
  · rw [if_pos hcase, if_neg (by lia)]
    rfl
  · rw [if_neg hcase, if_pos (by lia)]

theorem mindxg2p_eq (g : Nat) :
    mindxg2p g D.first D.block D.source D.procs = D.owner g := by
  rw [mindxg2p_eq_indxg2p (Int.natCast_nonneg _)
    (by exact_mod_cast D.procs_pos), indxg2p_eq]

/-!
## Global indices
-/

theorem dist_eq_zero_iff (p : Nat) : D.dist p = 0 <-> p = D.source := by
  have hsource := D.source_lt
  unfold BlockCyclic.dist
  split <;> lia

/-- Place `x` of the block that is number `q` among the blocks of `p`, when `p`
is not the source. -/
theorem place_other {p q x : Nat} (hp : p < D.procs) (hne : p ≠ D.source)
    (hx : x < D.block) :
    exists g : Nat,
      (g : Int) = D.block * (D.procs * q + D.dist p - 1) + D.first + x ∧
        D.Owns p g ∧ D.below p g = q * D.block + x := by
  have hdist := D.dist_lt hp
  have hzero : D.dist p ≠ 0 := fun h => hne ((dist_eq_zero_iff D p).mp h)
  rcases Nat.exists_eq_succ_of_ne_zero hzero with ⟨d, hd⟩
  have hblock : D.procs * q + d + 1 = D.procs * q + D.dist p := by lia
  have hmod : (D.procs * q + d + 1) % D.procs = D.dist p := by
    rw [hblock, Nat.mul_add_mod, Nat.mod_eq_of_lt hdist]
  have hdiv : (D.procs * q + d + 1) / D.procs = q := by
    rw [hblock, Nat.mul_add_div D.procs_pos, Nat.div_eq_of_lt hdist,
      Nat.add_zero]
  refine ⟨D.start (D.procs * q + d + 1) + x, ?_, ?_, ?_⟩
  · push_cast
    rw [natCast_start_succ, hd]
    push_cast
    ring
  · exact (D.owns_start_add_iff hp hx).mpr hmod
  · have hcount := below_later D (b := D.procs * q + d) hp (Nat.le_of_lt hx)
    rw [hdiv, hmod, if_neg (Nat.lt_irrefl _), if_neg hzero, if_pos rfl] at hcount
    have hcast : (D.below p (D.start (D.procs * q + d + 1) + x) : Int) =
        (q * D.block + x : Nat) := by
      rw [hcount]
      push_cast
      ring
    exact_mod_cast hcast

theorem place_source {q x : Nat} (hx : x < D.block) :
    exists g : Nat,
      (g : Int) = D.block * (D.procs * (q + 1) - 1) + D.first + x ∧
        D.Owns D.source g ∧
          D.below D.source g = D.first + q * D.block + x := by
  have hp := D.source_lt
  have hzero := (dist_eq_zero_iff D D.source).mpr rfl
  have hpos : 0 < D.procs * (q + 1) := Nat.mul_pos D.procs_pos (Nat.succ_pos q)
  rcases Nat.exists_eq_succ_of_ne_zero (Nat.ne_of_gt hpos) with ⟨d, hd⟩
  have hmod : (d + 1) % D.procs = D.dist D.source := by
    rw [hzero, ← Nat.succ_eq_add_one, ← hd, Nat.mul_mod_right]
  have hdiv : (d + 1) / D.procs = q + 1 := by
    rw [← Nat.succ_eq_add_one, ← hd, Nat.mul_div_cancel_left _ D.procs_pos]
  have hd' : (D.procs * (q + 1) : Int) = d + 1 := by exact_mod_cast hd
  refine ⟨D.start (d + 1) + x, ?_, ?_, ?_⟩
  · push_cast
    rw [natCast_start_succ, hd']
    ring
  · exact (D.owns_start_add_iff hp hx).mpr hmod
  · have hcount := below_later D (b := d) hp (Nat.le_of_lt hx)
    rw [hdiv, hmod, if_neg (Nat.lt_irrefl _), if_pos hzero, if_pos rfl] at hcount
    have hcast : (D.below D.source (D.start (d + 1) + x) : Int) =
        (D.first + q * D.block + x : Nat) := by
      rw [hcount]
      push_cast
      ring
    exact_mod_cast hcast

theorem indxl2g_place {p : Nat} (hp : p < D.procs) (l : Nat) :
    exists g : Nat,
      indxl2g l D.first D.block p D.source D.procs = g ∧ D.Owns p g ∧
        D.below p g = l := by
  have hsource := D.source_lt
  unfold indxl2g
  split
  · rename_i hcase
    have hone : D.procs = 1 := by lia
    have hzero : p = 0 := by lia
    have howner := D.owner_lt l
    refine ⟨l, rfl, ?_, ?_⟩
    · rw [BlockCyclic.Owns]
      lia
    · rw [hzero, D.below_of_procs_eq_one hone]
  · by_cases hsrc : p = D.source
    · rw [if_pos (by exact_mod_cast hsrc)]
      subst p
      by_cases hl : l < D.first
      · rw [if_pos (by exact_mod_cast hl)]
        exact ⟨l, rfl, owner_of_lt D hl, by
          rw [below_of_le D hp (Nat.le_of_lt hl), if_pos rfl]⟩
      · rw [if_neg (by exact_mod_cast hl)]
        have hdiv := Nat.div_add_mod (l - D.first) D.block
        have hquot : ((l : Int) - D.first).tdiv D.block =
            ((l - D.first) / D.block : Nat) := by
          rw [← natCast_tdiv, Nat.cast_sub (Nat.le_of_not_lt hl)]
        rw [hquot]
        rcases place_source D (q := (l - D.first) / D.block)
          (Nat.mod_lt (l - D.first) D.block_pos) with ⟨g, hg, hown, hcount⟩
        have hl' : D.first + (l - D.first) / D.block * D.block +
            (l - D.first) % D.block = l := by
          rw [Nat.mul_comm]
          lia
        refine ⟨g, ?_, hown, by rw [hcount, hl']⟩
        have hcast : (l : Int) = D.first +
            ((l - D.first) / D.block : Nat) * D.block +
            ((l - D.first) % D.block : Nat) := by
          exact_mod_cast hl'.symm
        rw [hg]
        linear_combination hcast
    · rw [if_neg (by exact_mod_cast hsrc)]
      have hdiv : (D.block : Int) * (l / D.block : Nat) + (l % D.block : Nat) =
          l := by
        exact_mod_cast Nat.div_add_mod l D.block
      have hl : l / D.block * D.block + l % D.block = l := by
        rw [Nat.mul_comm]
        exact Nat.div_add_mod l D.block
      rcases place_other D (q := l / D.block) hp hsrc
        (Nat.mod_lt l D.block_pos) with ⟨g, hg, hown, hcount⟩
      refine ⟨g, ?_, hown, by rw [hcount, hl]⟩
      rw [hg, natCast_tdiv]
      unfold BlockCyclic.dist
      by_cases hlt : p < D.source
      · have hcast : ((p + D.procs - D.source : Nat) : Int) =
            p + D.procs - D.source := by lia
        rw [if_pos (by exact_mod_cast hlt), if_pos hlt, hcast]
        linear_combination -hdiv
      · have hcast : ((p - D.source : Nat) : Int) = p - D.source := by lia
        rw [if_neg (by exact_mod_cast hlt), if_neg hlt, hcast]
        linear_combination -hdiv

theorem indxl2g_eq {p : Nat} (hp : p < D.procs) (l : Nat) :
    indxl2g l D.first D.block p D.source D.procs = D.globalOf p l := by
  rcases indxl2g_place D hp l with ⟨g, hg, hown, hcount⟩
  rw [hg, ← hcount, D.globalOf_below hown]

theorem mindxl2g_eq_indxl2g {il inb nb proc src nprocs : Int} (hsrc : 0 ≤ src)
    (hprocs : 0 < nprocs) :
    mindxl2g il inb nb proc src nprocs = indxl2g il inb nb proc src nprocs := by
  unfold mindxl2g indxl2g
  by_cases hcase : 0 ≤ src ∧ 1 < nprocs
  · have hboth : ¬ (src = -1 ∨ nprocs = 1) := by lia
    rw [if_pos hcase, if_neg hboth]
    split
    · split
      · rfl
      · ring
    · split <;> ring
  · rw [if_neg hcase, if_pos (by lia)]

/-!
## Numbers of local indices
-/

/-- The size of the first block and its process, for the indices from `i` on. -/
theorem restart_eq (i : Nat) :
    restart i D.first D.block D.source D.procs =
      (((D.dropped i).source : Int), ((D.dropped i).first : Int)) := by
  have hfirst : ((D.dropped i).first : Int) =
      D.start (D.blockOf i + 1) - i :=
    Nat.cast_sub (Nat.le_of_lt (D.lt_start_blockOf_succ i))
  have hsource : (D.dropped i).source = D.owner i := rfl
  rw [hfirst, hsource]
  unfold restart
  rcases first_or_later D i with hi | ⟨b, x, hx, rfl⟩
  · have hblock : D.blockOf i = 0 := by simp [BlockCyclic.blockOf, hi]
    have hpos : ¬ ((D.first : Int) - i ≤ 0) := by lia
    rw [if_neg hpos, owner_of_lt D hi, hblock, natCast_start_succ]
    simp
  · have hnonpos : (D.first : Int) - (D.start (b + 1) + x : Nat) ≤ 0 := by
      have hlow := not_lt_first D b x
      lia
    have hblock : D.blockOf (D.start (b + 1) + x) = b + 1 :=
      D.blockOf_start_add hx
    have hproc : (D.source + (b + 1) : Int) = (D.source + (b + 1) : Nat) := by
      push_cast
      rfl
    rw [if_pos hnonpos, neg_sub, tdiv_block D hx, hblock, D.owner_start_add hx]
    apply Prod.ext
    · have hmod := mPosMod_natCast (D.source + (b + 1)) D.procs
      simpa [mPosMod] using hmod
    · push_cast
      rw [natCast_start_succ, natCast_start_succ]
      push_cast
      ring

theorem restart_zero :
    restart 0 D.first D.block D.source D.procs =
      ((D.source : Int), (D.first : Int)) := by
  have hpos : ¬ ((D.first : Int) - 0 ≤ 0) := by
    have hfirst := D.first_pos
    lia
  unfold restart
  rw [if_neg hpos, sub_zero]

theorem numrocI_dropped (n i proc : Int) (k : Nat) (hi : i = k) :
    numrocI n i D.first D.block proc D.source D.procs =
      numrocI n 0 (D.dropped k).first (D.dropped k).block proc
        (D.dropped k).source (D.dropped k).procs := by
  have hprocs : (D.dropped k).procs = D.procs := rfl
  have hblock : (D.dropped k).block = D.block := rfl
  unfold numrocI
  rw [hi, restart_eq, restart_zero, hprocs, hblock]
  by_cases hone : (D.procs : Int) = 1
  · rw [if_pos (Or.inr hone), if_pos (Or.inr hone)]
  · rw [if_neg (by lia), if_neg (by lia)]

theorem mnumrocI_dropped (n i proc : Int) (k : Nat) (hi : i = k) :
    mnumrocI n i D.first D.block proc D.source D.procs =
      mnumrocI n 0 (D.dropped k).first (D.dropped k).block proc
        (D.dropped k).source (D.dropped k).procs := by
  have hprocs : (D.dropped k).procs = D.procs := rfl
  have hblock : (D.dropped k).block = D.block := rfl
  unfold mnumrocI
  rw [hi, restart_eq, restart_zero, hprocs, hblock]
  by_cases hone : (1 : Int) < D.procs
  · rw [if_pos (by lia), if_pos (by lia)]
  · rw [if_neg (by lia), if_neg (by lia)]

/-- Where the indices below `n` end. -/
structure Cut (D : BlockCyclic) (n b x q r : Nat) : Prop where
  lt : x < D.block
  eq : n = D.start (b + 1) + x
  round : (D.procs : Int) * q + r = b + 1
  rest : r < D.procs

theorem exists_cut {n : Nat} (hn : D.first ≤ n) :
    exists b x q r, Cut D n b x q r := by
  rcases first_or_later D n with hlt | ⟨b, x, hx, rfl⟩
  · exact absurd hn (Nat.not_le_of_lt hlt)
  · exact ⟨b, x, (b + 1) / D.procs, (b + 1) % D.procs, hx, rfl,
      by exact_mod_cast Nat.div_add_mod (b + 1) D.procs,
      Nat.mod_lt _ D.procs_pos⟩

theorem quot_eq_zero {q r : Nat}
    (hfew : (D.procs * q + r : Int) < D.procs) : q = 0 := by
  by_contra hq
  have hone : (D.procs : Int) * 1 ≤ D.procs * q :=
    mul_le_mul_of_nonneg_left (by lia) (by lia)
  lia

namespace Cut

variable {D} {n b x q r : Nat}

theorem sub_first (c : Cut D n b x q r) :
    (n : Int) - D.first = D.block * b + x := by
  rw [c.eq]
  push_cast
  rw [natCast_start_succ]
  ring

theorem tdiv (c : Cut D n b x q r) :
    ((n : Int) - D.first).tdiv D.block + 1 = D.procs * q + r := by
  rw [c.eq, tdiv_block D c.lt, c.round]

theorem quot (c : Cut D n b x q r) :
    (D.procs * q + r : Int).tdiv D.procs = q := by
  have hcast : (D.procs * q + r : Int) = (D.procs * q + r : Nat) := by
    push_cast
    rfl
  rw [hcast, natCast_tdiv, Nat.mul_add_div D.procs_pos,
    Nat.div_eq_of_lt c.rest, Nat.add_zero]

theorem below (c : Cut D n b x q r) {p : Nat} (hp : p < D.procs) :
    (D.below p n : Int) =
      (q + if D.dist p < r then 1 else 0) * D.block
        + (if D.dist p = 0 then (D.first : Int) - D.block else 0)
        + if r = D.dist p then (x : Int) else 0 := by
  have hround : D.procs * q + r = b + 1 := by exact_mod_cast c.round
  rw [c.eq, below_later D hp (Nat.le_of_lt c.lt), ← hround,
    Nat.mul_add_div D.procs_pos, Nat.div_eq_of_lt c.rest, Nat.mul_add_mod,
    Nat.mod_eq_of_lt c.rest, Nat.add_zero]

end Cut

theorem dist_eq (p : Nat) :
    (if (p : Int) - D.source < 0 then (p : Int) - D.source + D.procs
      else p - D.source) = D.dist p := by
  have hsource := D.source_lt
  unfold BlockCyclic.dist
  split <;> split <;> lia

theorem numrocI_zero {p : Nat} (hp : p < D.procs) (n : Nat) :
    numrocI n 0 D.first D.block p D.source D.procs = D.below p n := by
  unfold numrocI
  split
  · rename_i hcase
    have hone : D.procs = 1 := by lia
    have hzero : p = 0 := by lia
    rw [hzero, D.below_of_procs_eq_one hone]
  · rw [restart_zero]
    by_cases hn : n ≤ D.first
    · have hn' : (n : Int) ≤ D.first := by exact_mod_cast hn
      rw [below_of_le D hp hn]
      by_cases hsrc : p = D.source
      · simp [hsrc, hn']
      · have hsrc' : (p : Int) ≠ D.source := by exact_mod_cast hsrc
        simp [hsrc, hsrc', hn']
    · have hn' : ¬ (n : Int) ≤ D.first := by exact_mod_cast hn
      rcases exists_cut D (Nat.le_of_not_le hn) with ⟨b, x, q, r, c⟩
      rw [c.below hp]
      simp only [if_neg hn', c.tdiv, c.quot, dist_eq]
      have hsub := c.sub_first
      have hround := c.round
      have hdist := D.dist_lt hp
      by_cases hsrc : p = D.source
      · have hzero := (dist_eq_zero_iff D p).mpr hsrc
        rw [if_pos (by exact_mod_cast hsrc), hzero, if_pos rfl]
        by_cases hr : r = 0
        · -- The last block is the source's own.
          subst r
          have hmany : ¬ (D.procs * q + (0 : Nat) : Int) < D.procs := by
            intro hfew
            rw [quot_eq_zero D hfew] at hround
            simp at hround
            lia
          have hfull : ¬ (D.procs * q + (0 : Nat) - q * D.procs : Int) ≠ 0 := by
            push_cast
            rw [not_not]
            ring
          rw [if_neg hmany, if_neg hfull, if_neg (Nat.lt_irrefl 0), if_pos rfl]
          linear_combination hsub - (D.block : Int) * hround
        · have hpos : 0 < r := Nat.pos_of_ne_zero hr
          rw [if_pos hpos, if_neg hr]
          by_cases hfew : (D.procs * q + r : Int) < D.procs
          · rw [if_pos hfew, quot_eq_zero D hfew]
            push_cast
            ring
          · have hpart : (D.procs * q + r - q * D.procs : Int) ≠ 0 := by
              have hring : (D.procs * q + r - q * D.procs : Int) = r := by ring
              rw [hring]
              lia
            rw [if_neg hfew, if_pos hpart]
            ring
      · have hzero := fun h => hsrc ((dist_eq_zero_iff D p).mp h)
        have hring : (D.dist p - (D.procs * q + r - q * D.procs) : Int) =
            D.dist p - r := by
          ring
        rw [if_neg (by exact_mod_cast hsrc), if_neg hzero, hring]
        by_cases hfew : (D.procs * q + r : Int) < D.procs
        · have hq := quot_eq_zero D hfew
          subst q
          have hround' : (r : Int) = b + 1 := by simpa using hround
          rw [if_pos hfew]
          rcases lt_trichotomy (D.dist p) r with hlt | heq | hgt
          · rw [if_pos (by push_cast; lia), if_pos hlt, if_neg (by lia)]
            push_cast
            ring
          · rw [if_neg (by push_cast; lia), if_neg (by push_cast; lia),
              if_neg (by lia), if_pos heq.symm]
            push_cast
            linear_combination hsub - (D.block : Int) * hround'
          · rw [if_neg (by push_cast; lia), if_pos (by push_cast; lia),
              if_neg (by lia), if_neg (by lia)]
            simp
        · rw [if_neg hfew]
          rcases lt_trichotomy (D.dist p) r with hlt | heq | hgt
          · rw [if_pos (by lia), if_pos hlt, if_neg (by lia)]
            ring
          · rw [if_neg (by lia), if_neg (by lia), if_neg (by lia),
              if_pos heq.symm]
            linear_combination hsub - (D.block : Int) * hround
          · rw [if_neg (by lia), if_pos (by lia), if_neg (by lia),
              if_neg (by lia)]
            simp

theorem numrocI_eq {p : Nat} (hp : p < D.procs) (n i : Nat) :
    numrocI n i D.first D.block p D.source D.procs =
      (D.dropped i).below p n := by
  rw [numrocI_dropped D n i p i rfl]
  exact numrocI_zero (D.dropped i) hp n

theorem mnumrocI_zero {p : Nat} (hp : p < D.procs) (n : Nat) :
    mnumrocI n 0 D.first D.block p D.source D.procs = D.below p n := by
  unfold mnumrocI
  split
  · rw [restart_zero]
    by_cases hn : n ≤ D.first
    · have hn' : (n : Int) - D.first ≤ 0 := by lia
      rw [below_of_le D hp hn]
      by_cases hsrc : p = D.source
      · simp [hsrc, hn']
      · have hsrc' : (p : Int) ≠ D.source := by exact_mod_cast hsrc
        simp [hsrc, hsrc', hn']
    · have hn' : ¬ (n : Int) - D.first ≤ 0 := by lia
      rcases exists_cut D (Nat.le_of_not_le hn) with ⟨b, x, q, r, c⟩
      rw [c.below hp]
      simp only [if_neg hn', c.tdiv, c.quot, dist_eq]
      have hsub := c.sub_first
      have hround := c.round
      have hring : (D.dist p - (D.procs * q + r - q * D.procs) : Int) =
          D.dist p - r := by
        ring
      rw [hring]
      by_cases hsrc : p = D.source
      · have hzero := (dist_eq_zero_iff D p).mpr hsrc
        have hsrc' : ¬ (p : Int) ≠ D.source := by
          rw [not_not]
          exact_mod_cast hsrc
        rw [if_neg hsrc', if_neg hsrc', hzero, if_pos rfl]
        by_cases hr : r = 0
        · subst r
          simp
          linear_combination hsub - (D.block : Int) * hround
        · rw [if_pos (by lia), if_pos (Nat.pos_of_ne_zero hr), if_neg hr]
          ring
      · have hzero := fun h => hsrc ((dist_eq_zero_iff D p).mp h)
        have hsrc' : (p : Int) ≠ D.source := by exact_mod_cast hsrc
        rw [if_pos hsrc', if_pos hsrc', if_neg hzero]
        rcases lt_trichotomy (D.dist p) r with hlt | heq | hgt
        · rw [if_pos (by lia), if_pos hlt, if_neg (by lia)]
          ring
        · rw [if_neg (by lia), if_neg (by lia), if_neg (by lia),
            if_pos heq.symm]
          linear_combination hsub - (D.block : Int) * hround
        · rw [if_neg (by lia), if_pos (by lia), if_neg (by lia),
            if_neg (by lia)]
          ring
  · rename_i hcase
    have hone : D.procs = 1 := by
      have hpos := D.procs_pos
      lia
    have hzero : p = 0 := by lia
    rw [hzero, D.below_of_procs_eq_one hone]

theorem mnumrocI_eq {p : Nat} (hp : p < D.procs) (n i : Nat) :
    mnumrocI n i D.first D.block p D.source D.procs =
      (D.dropped i).below p n := by
  rw [mnumrocI_dropped D n i p i rfl]
  exact mnumrocI_zero (D.dropped i) hp n

/-!
## Submatrices
-/

theorem owner_of_cut {n b x q r : Nat} (c : Cut D n b x q r) :
    (D.source + r) % D.procs = D.owner n := by
  have hround : D.procs * q + r = b + 1 := by exact_mod_cast c.round
  rw [c.eq, D.owner_start_add c.lt, ← hround, ← Nat.add_assoc,
    Nat.add_right_comm, Nat.add_mul_mod_self_left]

theorem eq_owner_iff {n b x q r p : Nat} (c : Cut D n b x q r)
    (hp : p < D.procs) : (p : Int) = D.owner n <-> r = D.dist p := by
  have hround : D.procs * q + r = b + 1 := by exact_mod_cast c.round
  have howns := D.owns_start_add_iff (b := b + 1) hp c.lt
  rw [← c.eq, ← hround, Nat.mul_add_mod, Nat.mod_eq_of_lt c.rest,
    BlockCyclic.Owns] at howns
  rw [← howns]
  exact_mod_cast eq_comm

/-- One dimension of `HPL_infog2l`: the number of smaller indices of the process
and the owner. -/
theorem infog2lDim_eq {p : Nat} (hp : p < D.procs) (i : Nat) :
    infog2lDim i D.first D.block D.source p D.procs =
      ((D.below p i : Int), (D.owner i : Int)) := by
  unfold infog2lDim
  split
  · rename_i hcase
    have hone : D.procs = 1 := by lia
    have hzero : p = 0 := by lia
    have howner := D.owner_lt i
    have hsource := D.source_lt
    rw [hzero, D.below_of_procs_eq_one hone]
    apply Prod.ext
    · rfl
    · change (D.source : Int) = D.owner i
      lia
  · by_cases hi : i < D.first
    · rw [if_pos (by exact_mod_cast hi), below_of_le D hp (Nat.le_of_lt hi),
        owner_of_lt D hi]
      have hsrc : (p : Int) = D.source <-> p = D.source := by
        exact_mod_cast Iff.rfl
      simp only [hsrc]
      push_cast
      rfl
    · rw [if_neg (by exact_mod_cast hi)]
      rcases exists_cut D (Nat.le_of_not_lt hi) with ⟨b, x, q, r, c⟩
      have hsub := c.sub_first
      have hround := c.round
      have hmod : (D.source + (D.procs * q + r) -
          (D.source + (D.procs * q + r) : Int).tdiv D.procs * D.procs) =
            D.owner i := by
        have hpos := mPosMod_natCast (D.source + (D.procs * q + r)) D.procs
        rw [← Nat.add_assoc, Nat.add_right_comm, Nat.add_mul_mod_self_left,
          owner_of_cut D c, mPosMod] at hpos
        push_cast at hpos
        rw [← hpos]
        ring_nf
      rw [c.below hp]
      simp only [c.tdiv, c.quot, dist_eq, hmod, eq_owner_iff D c hp]
      by_cases hsrc : p = D.source
      · have hzero := (dist_eq_zero_iff D p).mpr hsrc
        rw [if_pos (by exact_mod_cast hsrc), hzero, if_pos rfl]
        by_cases hr : r = 0
        · subst r
          have hmany : ¬ (D.procs * q + (0 : Nat) : Int) < D.procs := by
            intro hfew
            rw [quot_eq_zero D hfew] at hround
            simp at hround
            lia
          have hfull : (D.procs * q + (0 : Nat) : Int) ≤ q * D.procs := by
            push_cast
            rw [add_zero, mul_comm]
          rw [if_neg hmany, if_pos hfull, if_pos rfl, if_pos rfl,
            if_neg (Nat.lt_irrefl 0)]
          congr 1
          linear_combination hsub - (D.block : Int) * hround
        · rw [if_pos (Nat.pos_of_ne_zero hr)]
          simp only [if_neg hr]
          by_cases hfew : (D.procs * q + r : Int) < D.procs
          · rw [if_pos hfew, quot_eq_zero D hfew]
            congr 1
            push_cast
            ring
          · have hpart : ¬ (D.procs * q + r : Int) ≤ q * D.procs := by
              rw [mul_comm (q : Int)]
              lia
            rw [if_neg hfew, if_neg hpart]
            congr 1
            ring
      · have hzero := fun h => hsrc ((dist_eq_zero_iff D p).mp h)
        have hring : (D.dist p - (D.procs * q + r - q * D.procs) : Int) =
            D.dist p - r := by
          ring
        rw [if_neg (by exact_mod_cast hsrc), if_neg hzero, hring]
        by_cases hfew : (D.procs * q + r : Int) < D.procs
        · have hq := quot_eq_zero D hfew
          subst q
          have hround' : (r : Int) = b + 1 := by simpa using hround
          rw [if_pos hfew]
          congr 1
          rcases lt_trichotomy (D.dist p) r with hlt | heq | hgt
          · rw [if_pos (by push_cast; lia), if_pos hlt, if_neg (by lia)]
            push_cast
            ring
          · rw [if_neg (by push_cast; lia), if_pos heq.symm, if_neg (by lia),
              if_pos heq.symm]
            push_cast
            linear_combination hsub - (D.block : Int) * hround'
          · rw [if_neg (by push_cast; lia), if_neg (by lia), if_neg (by lia),
              if_neg (by lia)]
            simp
        · rw [if_neg hfew]
          congr 1
          rcases lt_trichotomy (D.dist p) r with hlt | heq | hgt
          · rw [if_pos (by lia), if_pos hlt, if_neg (by lia)]
            ring
          · rw [if_neg (by lia), if_pos heq.symm, if_neg (by lia),
              if_pos heq.symm]
            linear_combination hsub - (D.block : Int) * hround
          · rw [if_neg (by lia), if_neg (by lia), if_neg (by lia),
              if_neg (by lia)]
            ring

/-!
## The distribution of a dimension
-/

theorem numroc_eq {p : Nat} (hp : p < D.procs) (n : Nat) :
    numroc n D.first D.block p D.source D.procs = D.below p n :=
  numrocI_zero D hp n

/-- The counting functions and the counting macros count, for any range of
indices, those that `HPL_indxg2p` gives to the process, and the counts of all
processes add up to the range. -/
theorem numrocI_counts (n i : Nat) :
    (forall p : Fin D.procs,
      numrocI n i D.first D.block p D.source D.procs =
          ((Finset.range n).filter fun k =>
            indxg2p (i + k : Nat) D.first D.block D.source D.procs =
              p).card ∧
        mnumrocI n i D.first D.block p D.source D.procs =
          numrocI n i D.first D.block p D.source D.procs) ∧
      ∑ p : Fin D.procs, numrocI n i D.first D.block p D.source D.procs =
        n := by
  constructor
  · intro p
    rw [mnumrocI_eq D p.isLt, numrocI_eq D p.isLt, BlockCyclic.below,
      Nat.count_eq_card_filter_range]
    refine ⟨?_, rfl⟩
    congr 2
    apply Finset.filter_congr
    intro k _
    rw [indxg2p_eq, BlockCyclic.Owns, D.owner_dropped]
    exact_mod_cast Iff.rfl
  · have hsum := (D.dropped i).sum_below n
    have hcast : forall p : Fin D.procs,
        numrocI n i D.first D.block p D.source D.procs =
          ((D.dropped i).below p n : Int) :=
      fun p => numrocI_eq D p.isLt n i
    rw [Finset.sum_congr rfl fun p _ => hcast p,
      Fin.sum_univ_eq_sum_range
        (fun p => ((D.dropped i).below p n : Int)) D.procs]
    exact_mod_cast hsum

/-- Process and local index of a global index. -/
def toLocal (g : Int) : Int × Int :=
  (indxg2p g D.first D.block D.source D.procs,
    indxg2l g D.first D.block D.source D.procs)

def toGlobal (pl : Int × Int) : Int :=
  indxl2g pl.2 D.first D.block pl.1 D.source D.procs

def globalIndices (n : Int) : Set Int :=
  {g | 0 ≤ g ∧ g < n}

/-- The processes with the local indices they have of `n` global ones. -/
def localIndices (n : Int) : Set (Int × Int) :=
  {pl | 0 ≤ pl.1 ∧ pl.1 < D.procs ∧ 0 ≤ pl.2 ∧
    pl.2 < numroc n D.first D.block pl.1 D.source D.procs}

theorem toLocal_natCast (g : Nat) :
    toLocal D g = ((D.owner g : Int), (D.below (D.owner g) g : Int)) := by
  rw [toLocal, indxg2p_eq, indxg2l_eq]

theorem toLocal_mapsTo (n : Nat) :
    Set.MapsTo (toLocal D) (globalIndices n) (localIndices D n) := by
  rintro g ⟨hg, hgn⟩
  lift g to Nat using hg
  have hlt : g < n := by exact_mod_cast hgn
  have howner := D.owner_lt g
  have hcount := (D.below_lt_below_iff (p := D.owner g) rfl).mpr hlt
  rw [toLocal_natCast]
  refine ⟨Int.natCast_nonneg _, Int.ofNat_lt.mpr howner,
    Int.natCast_nonneg _, ?_⟩
  rw [numroc_eq D howner]
  exact Int.ofNat_lt.mpr hcount

theorem toGlobal_place {n : Nat} {pl : Int × Int}
    (hpl : pl ∈ localIndices D n) :
    exists g : Nat, g < n ∧ toGlobal D pl = g ∧ toLocal D g = pl := by
  rcases pl with ⟨p, l⟩
  rcases hpl with ⟨hp, hprocs, hl, hln⟩
  simp only at hp hprocs hl hln
  lift p to Nat using hp
  lift l to Nat using hl
  have hprocs' : p < D.procs := by exact_mod_cast hprocs
  rw [numroc_eq D hprocs'] at hln
  rcases indxl2g_place D hprocs' l with ⟨g, hg, hown, hcount⟩
  have hlt : D.below p g < D.below p n := by
    rw [hcount]
    exact_mod_cast hln
  refine ⟨g, (D.below_lt_below_iff hown).mp hlt, hg, ?_⟩
  rw [toLocal_natCast, hown, hcount]

/-- Process and local index together rename the indices below `n`: every pair
of a process and a local index that the process has belongs to one index, which
`HPL_indxl2g` finds. -/
theorem toLocal_bijOn (n : Nat) :
    Set.BijOn (toLocal D) (globalIndices n) (localIndices D n) ∧
      Set.InvOn (toGlobal D) (toLocal D) (globalIndices n)
        (localIndices D n) := by
  have hinv : Set.InvOn (toGlobal D) (toLocal D) (globalIndices n)
      (localIndices D n) := by
    constructor
    · rintro g ⟨hg, _⟩
      lift g to Nat using hg
      rw [toLocal_natCast, toGlobal, indxl2g_eq D (D.owner_lt g),
        D.globalOf_below rfl]
    · intro pl hpl
      rcases toGlobal_place D hpl with ⟨g, _, hg, hloc⟩
      rw [hg, hloc]
  have hback : Set.MapsTo (toGlobal D) (localIndices D n)
      (globalIndices n) := by
    intro pl hpl
    rcases toGlobal_place D hpl with ⟨g, hlt, hg, _⟩
    rw [hg]
    exact ⟨Int.natCast_nonneg g, by exact_mod_cast hlt⟩
  exact ⟨hinv.bijOn (toLocal_mapsTo D n) hback, hinv⟩

theorem numroc_add_numrocI {p : Nat} (hp : p < D.procs) (i m : Nat) :
    numroc i D.first D.block p D.source D.procs +
        numrocI m i D.first D.block p D.source D.procs =
      numroc (i + m : Nat) D.first D.block p D.source D.procs := by
  rw [numroc_eq D hp, numroc_eq D hp, numrocI_eq D hp, ← D.below_dropped p i m]
  push_cast
  ring

/-- `HPL_infog2l` finds, for the rows and for the columns, the process that owns
the first index of the submatrix and the first local index behind those of the
indices before it; the indices of the submatrix take as many places from there
as `HPL_numrocI` counts. -/
theorem infog2l_locates (R C : BlockCyclic) (i j : Nat)
    (myrow : Fin R.procs) (mycol : Fin C.procs) :
    infog2l i j R.first R.block C.first C.block R.source C.source myrow mycol
          R.procs C.procs =
        ((numroc i R.first R.block myrow R.source R.procs,
            indxg2p i R.first R.block R.source R.procs),
          (numroc j C.first C.block mycol C.source C.procs,
            indxg2p j C.first C.block C.source C.procs)) ∧
      (forall m : Nat,
        numroc i R.first R.block myrow R.source R.procs +
            numrocI m i R.first R.block myrow R.source R.procs =
          numroc (i + m : Nat) R.first R.block myrow R.source R.procs) ∧
      forall n : Nat,
        numroc j C.first C.block mycol C.source C.procs +
            numrocI n j C.first C.block mycol C.source C.procs =
          numroc (j + n : Nat) C.first C.block mycol C.source C.procs := by
  refine ⟨?_, numroc_add_numrocI R myrow.isLt i,
    numroc_add_numrocI C mycol.isLt j⟩
  rw [infog2l, infog2lDim_eq R myrow.isLt, infog2lDim_eq C mycol.isLt,
    numroc_eq R myrow.isLt, numroc_eq C mycol.isLt, indxg2p_eq, indxg2p_eq]

end HPL
end IPPD
