import IPPD.HPL.Distribution
import IPPD.HPL.Rand

/-!
# The test matrix

`HPL_dmatgen` fills a matrix column by column with the numbers of the
generator.  `HPL_pdmatgen` fills the blocks of one process of a grid; it jumps
over the numbers that belong to other processes.
-/

namespace IPPD
namespace HPL

open Foundation

/-- The first number and the coefficients of one step. -/
def mult0 : Pair := (1284865837, 1481765933)

def iadd0 : Pair := (1, 0)

/-!
## Writing through a pointer
-/

/-- The memory, the pointer `A` and the generator. -/
structure Fill (α : Type u) where
  mem : Int -> α
  A : Int
  ran : Ran

variable {α : Type u}

/-- `for( ...; A++ ) *A = HPL_rand()`.  What the number is as a `double` is a
function of the state of the generator. -/
def fill (toDouble : Pair -> α) : Nat -> Fill α -> Fill α
  | 0, s => s
  | n + 1, s =>
      let s := fill toDouble n s
      let (j, ran) := setran 3 s.ran.irand s.ran
      { mem := Function.update s.mem s.A (toDouble j)
        A := s.A + 1
        ran := ran }

/-!
## The whole matrix
-/

def dmatgenColumns (toDouble : Pair -> α) (M LDA : Int) :
    Nat -> Fill α -> Fill α
  | 0, s => s
  | j + 1, s =>
      let s := dmatgenColumns toDouble M LDA j s
      let s := fill toDouble M.toNat s
      { s with A := s.A + (LDA - M) }

/-- `HPL_dmatgen`; `junk` are the contents of arrays that are not set yet. -/
def dmatgen (toDouble : Pair -> α) (M N LDA : Int) (ISEED : CInt) (junk : Pair)
    (s : Fill α) : Fill α :=
  if M ≤ 0 ∨ N ≤ 0 then s
  else
    let (iran1, ia1, ic1) := xjumpm 1 mult0 iadd0 (ISEED, 0) junk junk
    let ran := (setran 0 iran1 s.ran).2
    let ran := (setran 1 ia1 ran).2
    let ran := (setran 2 ic1 ran).2
    dmatgenColumns toDouble M LDA N.toNat { s with ran := ran }

/-!
## The blocks of one process
-/

/-- The coefficients of the jumps to the next block of rows, column and block of
columns. -/
structure Jumps where
  ia2 : Pair
  ic2 : Pair
  ia3 : Pair
  ic3 : Pair
  ia4 : Pair
  ic4 : Pair

/-- The sizes of the local blocks. -/
structure Sizes where
  mp : Int
  mblks : Int
  lmb : Int
  nblks : Int
  lnb : Int
  NB : Int
  LDA : Int

/-- The loop over `iblk`, with `ib1`. -/
def pdmatgenRows (toDouble : Pair -> α) (J : Jumps) (Z : Sizes) :
    Nat -> Fill α × Pair -> Fill α × Pair
  | 0, s => s
  | iblk + 1, s =>
      let (s, ib1) := pdmatgenRows toDouble J Z iblk s
      let ib := if (iblk : Int) = Z.mblks - 1 then Z.lmb else Z.NB
      let s := fill toDouble ib.toNat s
      let (iran2, ran) := jumpit J.ia2 J.ic2 ib1 s.ran
      ({ s with ran := ran }, iran2)

/-- The loop over `jk`, with `ib1` and `ib2`. -/
def pdmatgenColumns (toDouble : Pair -> α) (J : Jumps) (Z : Sizes) :
    Nat -> Fill α × Pair × Pair -> Fill α × Pair × Pair
  | 0, s => s
  | jk + 1, s =>
      let (s, ib1, ib2) := pdmatgenColumns toDouble J Z jk s
      let (s, _) := pdmatgenRows toDouble J Z Z.mblks.toNat (s, ib1)
      let s := { s with A := s.A + (Z.LDA - Z.mp) }
      let (iran3, ran) := jumpit J.ia3 J.ic3 ib2 s.ran
      ({ s with ran := ran }, iran3, iran3)

/-- The loop over `jblk`, with `ib1`, `ib2` and `ib3`. -/
def pdmatgenBlocks (toDouble : Pair -> α) (J : Jumps) (Z : Sizes) :
    Nat -> Fill α × Pair × Pair × Pair -> Fill α × Pair × Pair × Pair
  | 0, s => s
  | jblk + 1, s =>
      let (s, ib1, ib2, ib3) := pdmatgenBlocks toDouble J Z jblk s
      let jb := if (jblk : Int) = Z.nblks - 1 then Z.lnb else Z.NB
      let (s, _, _) := pdmatgenColumns toDouble J Z jb.toNat (s, ib1, ib2)
      let (iran4, ran) := jumpit J.ia4 J.ic4 ib3 s.ran
      ({ s with ran := ran }, iran4, iran4, iran4)

/-- `HPL_pdmatgen` on the process of coordinates `myrow` and `mycol`. -/
def pdmatgen (toDouble : Pair -> α) (nprow npcol myrow mycol : Int)
    (M N NB LDA : Int) (ISEED : CInt) (junk : Pair) (s : Fill α) : Fill α :=
  let mp := mnumroc M NB NB myrow 0 nprow
  let nq := mnumroc N NB NB mycol 0 npcol
  if mp ≤ 0 ∨ nq ≤ 0 then s
  else
    let mblks := (mp + NB - 1).tdiv NB
    let lmb := mp - (mp - 1).tdiv NB * NB
    let nblks := (nq + NB - 1).tdiv NB
    let lnb := nq - (nq - 1).tdiv NB * NB
    let jump2 := nprow * NB
    let jump3 := M
    let jump4 := npcol * NB
    let jump5 := NB
    let jump6 := mycol
    let jump7 := myrow * NB
    let (iran1, ia1, ic1) := xjumpm 1 mult0 iadd0 (ISEED, 0) junk junk
    let (_, ia2, ic2) := xjumpm jump2 mult0 iadd0 iran1 junk junk
    let (_, ia3, ic3) := xjumpm jump3 mult0 iadd0 iran1 junk junk
    let (_, ia4, ic4) := xjumpm jump4 ia3 ic3 iran1 junk junk
    let (itmp1, ia5, ic5) := xjumpm jump5 ia3 ic3 iran1 junk junk
    let (itmp3, itmp1, itmp2) := xjumpm jump6 ia5 ic5 iran1 itmp1 junk
    let (iran1, _, _) := xjumpm jump7 mult0 iadd0 itmp3 itmp1 itmp2
    let ran := (setran 0 iran1 s.ran).2
    let ran := (setran 1 ia1 ran).2
    let ran := (setran 2 ic1 ran).2
    let J : Jumps :=
      { ia2 := ia2, ic2 := ic2, ia3 := ia3, ic3 := ic3, ia4 := ia4, ic4 := ic4 }
    let Z : Sizes :=
      { mp := mp, mblks := mblks, lmb := lmb, nblks := nblks, lnb := lnb,
        NB := NB, LDA := LDA }
    (pdmatgenBlocks toDouble J Z nblks.toNat
      ({ s with ran := ran }, iran1, iran1, iran1)).1

/-!
## What has been written

A matrix of `m` rows and `n` columns at `A`, with leading dimension `LDA`.
-/

structure Written (old mem : Int -> α) (A LDA : Int) (m n : Nat)
    (entry : Nat -> Nat -> α) : Prop where
  entries : forall i j, i < m -> j < n -> mem (A + i + j * LDA) = entry i j
  frame : forall q, (forall i j : Nat, i < m -> j < n -> q ≠ A + i + j * LDA) ->
    mem q = old q

theorem Written.none {mem : Int -> α} {A LDA : Int} {m n : Nat}
    {entry : Nat -> Nat -> α} (h : m = 0 ∨ n = 0) :
    Written mem mem A LDA m n entry where
  entries i j hi hj := by lia
  frame _ _ := rfl

theorem Written.append {old mid mem : Int -> α} {A LDA : Int} {m n k : Nat}
    {entry : Nat -> Nat -> α} (hm : (m : Int) ≤ LDA)
    (hold : Written old mid A LDA m n entry)
    (hnew : Written mid mem (A + n * LDA) LDA m k fun i j => entry i (n + j)) :
    Written old mem A LDA m (n + k) entry where
  entries i j hi hj := by
    by_cases hjn : j < n
    · rw [hnew.frame, hold.entries i j hi hjn]
      intro i' j' hi' hj' heq
      -- A column further to the right starts behind this one.
      have hcols : ((j : Int) + 1) * LDA ≤ ((n : Int) + j') * LDA :=
        Int.mul_le_mul_of_nonneg_right (by lia) (by lia)
      rw [Int.add_mul, Int.add_mul] at hcols
      lia
    · have hshift := hnew.entries i (j - n) hi (by lia)
      have hsub : n + (j - n) = j := by lia
      have hcast : ((j - n : Nat) : Int) = j - n := by lia
      rw [hsub, hcast, Int.sub_mul] at hshift
      rw [← hshift]
      congr 1
      ring
  frame q hq := by
    rw [hnew.frame, hold.frame]
    · intro i j hi hj
      exact hq i j hi (by lia)
    · intro i j hi hj heq
      apply hq i (n + j) hi (by lia)
      rw [heq]
      push_cast
      ring

theorem Written.below {old mid mem : Int -> α} {A LDA : Int} {m k : Nat}
    {entry : Nat -> Nat -> α}
    (hold : Written old mid A LDA m 1 entry)
    (hnew : Written mid mem (A + m) LDA k 1 fun i j => entry (m + i) j) :
    Written old mem A LDA (m + k) 1 entry where
  entries i j hi hj := by
    have hj0 : j = 0 := by lia
    subst hj0
    by_cases him : i < m
    · rw [hnew.frame, hold.entries i 0 him hj]
      intro i' j' hi' hj' heq
      have hj0' : j' = 0 := by lia
      subst hj0'
      simp only [Nat.cast_zero, Int.zero_mul] at heq
      lia
    · have hshift := hnew.entries (i - m) 0 (by lia) hj
      have hsub : m + (i - m) = i := by lia
      have hcast : ((i - m : Nat) : Int) = i - m := by lia
      rw [hsub, hcast] at hshift
      rw [← hshift]
      congr 1
      simp
  frame q hq := by
    rw [hnew.frame, hold.frame]
    · intro i j hi hj
      exact hq i j (by lia) hj
    · intro i j hi hj heq
      have hj0 : j = 0 := by lia
      subst hj0
      apply hq (m + i) 0 (by lia) hj
      rw [heq]
      push_cast
      ring

/-!
## Filling one column
-/

/-- The generator makes steps of the given coefficients. -/
def Ran.Steps (r : Ran) (mult iadd : Pair) : Prop :=
  r.ias = mult ∧ r.ics = iadd

section Loops

variable (toDouble : Pair -> α) {mult iadd : Pair}

theorem fill_eq (n : Nat) {s : Fill α} (hs : s.ran.Steps mult iadd) :
    (fill toDouble n s).A = s.A + n ∧
      (fill toDouble n s).ran.Steps mult iadd ∧
        (fill toDouble n s).ran.irand = (next mult iadd)^[n] s.ran.irand ∧
          forall LDA, Written s.mem (fill toDouble n s).mem s.A LDA n 1
            fun i _ => toDouble ((next mult iadd)^[i] s.ran.irand) := by
  induction n with
  | zero =>
      refine ⟨?_, hs, rfl, fun LDA => Written.none (Or.inl rfl)⟩
      simp [fill]
  | succ n ih =>
      rcases ih with ⟨hA, hsteps, hrand, hmem⟩
      rw [fill]
      generalize fill toDouble n s = t at *
      refine ⟨?_, hsteps, ?_, ?_⟩
      · change t.A + 1 = s.A + (n + 1 : Nat)
        rw [hA]
        push_cast
        ring
      · rw [Function.iterate_succ_apply', ← hrand, next, ← hsteps.left,
          ← hsteps.right]
        rfl
      · intro LDA
        have hone : Written t.mem
            (Function.update t.mem t.A (toDouble t.ran.irand)) (s.A + n) LDA 1 1
            fun i _ => toDouble ((next mult iadd)^[n + i] s.ran.irand) := by
          constructor
          · intro i j hi hj
            have hi0 : i = 0 := by lia
            have hj0 : j = 0 := by lia
            subst hi0 hj0
            rw [hA, hrand]
            simp
          · intro q hq
            apply Function.update_of_ne
            rw [hA]
            simpa using hq 0 0 Nat.one_pos Nat.one_pos
        exact (hmem LDA).below hone

theorem dmatgenColumns_eq {M : Nat} {LDA : Int} (hM : (M : Int) ≤ LDA) (n : Nat)
    {s : Fill α} (hs : s.ran.Steps mult iadd) :
    (dmatgenColumns toDouble M LDA n s).A = s.A + n * LDA ∧
      (dmatgenColumns toDouble M LDA n s).ran.Steps mult iadd ∧
        (dmatgenColumns toDouble M LDA n s).ran.irand =
          (next mult iadd)^[n * M] s.ran.irand ∧
          Written s.mem (dmatgenColumns toDouble M LDA n s).mem s.A LDA M n
            fun i j => toDouble ((next mult iadd)^[j * M + i] s.ran.irand) := by
  induction n with
  | zero =>
      refine ⟨?_, hs, ?_, Written.none (Or.inr rfl)⟩
      · simp [dmatgenColumns]
      · rw [Nat.zero_mul]
        rfl
  | succ n ih =>
      rcases ih with ⟨hA, hsteps, hrand, hmem⟩
      rw [dmatgenColumns]
      generalize dmatgenColumns toDouble M LDA n s = t at *
      rcases fill_eq toDouble M hsteps with
        ⟨hA', hsteps', hrand', hmem'⟩
      rw [Int.toNat_natCast]
      refine ⟨?_, hsteps', ?_, ?_⟩
      · simp only [hA', hA]
        push_cast
        ring
      · change (fill toDouble M t).ran.irand = _
        rw [hrand', hrand, ← Function.iterate_add_apply, Nat.succ_mul,
          Nat.add_comm]
      · have hcol := hmem' LDA
        rw [hA] at hcol
        refine hmem.append hM ?_
        refine ⟨?_, hcol.frame⟩
        intro i j hi hj
        rw [hcol.entries i j hi hj, hrand, ← Function.iterate_add_apply]
        have hj0 : j = 0 := by lia
        subst hj0
        congr 2
        ring

/-!
## Filling the blocks of one process

The local rows and columns are cut into blocks of one size, the last of them
possibly shorter.
-/

structure Split (total nb blocks last : Nat) : Prop where
  blocks_pos : 0 < blocks
  last_pos : 0 < last
  last_le : last ≤ nb
  total_eq : total + nb = blocks * nb + last

/-- How many rows or columns the first blocks have. -/
def upto (total nb n : Nat) : Nat :=
  min (n * nb) total

namespace Split

variable {total nb blocks last : Nat}

theorem upto_of_lt (h : Split total nb blocks last) {n : Nat}
    (hn : n < blocks) : upto total nb n = n * nb := by
  have htotal := h.total_eq
  have hlast := h.last_pos
  have hmul : (n + 1) * nb ≤ blocks * nb := Nat.mul_le_mul_right nb hn
  rw [Nat.succ_mul] at hmul
  unfold upto
  lia

theorem upto_blocks (h : Split total nb blocks last) :
    upto total nb blocks = total := by
  have htotal := h.total_eq
  have hlast := h.last_le
  unfold upto
  lia

theorem upto_succ (h : Split total nb blocks last) {n : Nat}
    (hn : n < blocks) :
    upto total nb (n + 1) =
      n * nb + (if (n : Int) = blocks - 1 then (last : Int) else nb).toNat := by
  have htotal := h.total_eq
  have hlast := h.last_pos
  by_cases hend : n + 1 = blocks
  · rw [hend, h.upto_blocks, if_pos (by lia), Int.toNat_natCast]
    rw [← hend, Nat.succ_mul] at htotal
    lia
  · rw [h.upto_of_lt (by lia), if_neg (by lia), Int.toNat_natCast, Nat.succ_mul]

theorem width_le (h : Split total nb blocks last) (n : Nat) :
    (if (n : Int) = blocks - 1 then (last : Int) else nb).toNat ≤ nb := by
  have hlast := h.last_le
  split <;> lia

end Split

theorem split_of_pos {total nb : Nat} (htotal : 0 < total) (hnb : 0 < nb) :
    Split total nb ((total + nb - 1) / nb) (total - (total - 1) / nb * nb) := by
  have hdiv := Nat.div_add_mod (total - 1) nb
  have hmod := Nat.mod_lt (total - 1) hnb
  have hblocks : (total + nb - 1) / nb = (total - 1) / nb + 1 := by
    have hshift : total + nb - 1 = total - 1 + nb := by lia
    rw [hshift, Nat.add_div_right _ hnb]
  rw [Nat.mul_comm] at hdiv
  rw [hblocks]
  generalize (total - 1) / nb = q at *
  exact ⟨Nat.succ_pos q, by lia, by lia, by rw [Nat.succ_mul]; lia⟩

/-- Where row `i` of the process is, when its blocks lie `stride` apart. -/
def offset (nb stride i : Nat) : Nat :=
  i / nb * stride + i % nb

theorem offset_add {nb stride n i : Nat} (hi : i < nb) :
    offset nb stride (n * nb + i) = n * stride + i := by
  have hnb : 0 < nb := Nat.zero_lt_of_lt hi
  rw [offset, Nat.mul_comm n nb, Nat.mul_add_div hnb, Nat.div_eq_of_lt hi,
    Nat.mul_add_mod, Nat.mod_eq_of_lt hi, Nat.add_zero]

theorem jumpit_eq (m c x : Pair) (r : Ran) :
    jumpit m c x r = (next m c x, { r with irand := next m c x }) :=
  rfl

/-- The sizes as natural numbers. -/
structure Sizes.Of (Z : Sizes) (nb mp mblks lmb nblks lnb : Nat) : Prop where
  NB : Z.NB = nb
  mp : Z.mp = mp
  mblks : Z.mblks = mblks
  lmb : Z.lmb = lmb
  nblks : Z.nblks = nblks
  lnb : Z.lnb = lnb

section Blocks

variable {J : Jumps} {Z : Sizes} {nb mp mblks lmb nblks lnb : Nat}

theorem pdmatgenRows_eq {R : Nat} (hZ : Z.Of nb mp mblks lmb nblks lnb)
    (hsplit : Split mp nb mblks lmb)
    (hjump : next J.ia2 J.ic2 = (next mult iadd)^[R]) {n : Nat}
    (hn : n ≤ mblks) {s : Fill α} (hs : s.ran.Steps mult iadd) {x : Pair}
    (hx : s.ran.irand = x) :
    exists t ib1, pdmatgenRows toDouble J Z n (s, x) = (t, ib1) ∧
      t.A = s.A + upto mp nb n ∧ t.ran.Steps mult iadd ∧ t.ran.irand = ib1 ∧
        ib1 = (next mult iadd)^[n * R] x ∧
          forall LDA, Written s.mem t.mem s.A LDA (upto mp nb n) 1
            fun i _ => toDouble ((next mult iadd)^[offset nb R i] x) := by
  induction n with
  | zero =>
      refine ⟨s, x, rfl, ?_, hs, hx, ?_, ?_⟩
      · simp [upto]
      · rw [Nat.zero_mul]
        rfl
      · intro LDA
        exact Written.none (Or.inl (by simp [upto]))
  | succ n ih =>
      rcases ih (Nat.le_of_succ_le hn) with
        ⟨t, ib1, hrun, hA, hsteps, hrand, hib1, hmem⟩
      have hlt : n < mblks := hn
      have hwidth := hsplit.width_le n
      have hupto := hsplit.upto_succ hlt
      have hold := hsplit.upto_of_lt hlt
      rw [pdmatgenRows, hrun]
      simp only [hZ.mblks, hZ.lmb, hZ.NB, jumpit_eq]
      generalize (if (n : Int) = mblks - 1 then (lmb : Int) else nb).toNat = ib
        at *
      rcases fill_eq toDouble ib hsteps with
        ⟨hA', hsteps', -, hmem'⟩
      refine ⟨_, _, rfl, ?_, hsteps', rfl, ?_, ?_⟩
      · simp only [hA', hA, hold, hupto]
        push_cast
        ring
      · rw [hjump, hib1, ← Function.iterate_add_apply, Nat.succ_mul,
          Nat.add_comm]
      · intro LDA
        rw [hupto, ← hold]
        refine (hmem LDA).below ?_
        have hblock := hmem' LDA
        rw [hA] at hblock
        refine ⟨?_, hblock.frame⟩
        intro i j hi hj
        rw [hblock.entries i j hi hj, hrand, hib1,
          ← Function.iterate_add_apply, hold,
          offset_add (Nat.lt_of_lt_of_le hi hwidth), Nat.add_comm]

theorem pdmatgenColumns_eq {R M : Nat} (hZ : Z.Of nb mp mblks lmb nblks lnb)
    (hsplit : Split mp nb mblks lmb) (hLDA : (mp : Int) ≤ Z.LDA)
    (hjump2 : next J.ia2 J.ic2 = (next mult iadd)^[R])
    (hjump3 : next J.ia3 J.ic3 = (next mult iadd)^[M]) (n : Nat)
    {s : Fill α} (hs : s.ran.Steps mult iadd) {x : Pair}
    (hx : s.ran.irand = x) :
    exists t ib, pdmatgenColumns toDouble J Z n (s, x, x) = (t, ib, ib) ∧
      t.A = s.A + n * Z.LDA ∧ t.ran.Steps mult iadd ∧ t.ran.irand = ib ∧
        ib = (next mult iadd)^[n * M] x ∧
          Written s.mem t.mem s.A Z.LDA mp n fun i j =>
            toDouble ((next mult iadd)^[j * M + offset nb R i] x) := by
  induction n with
  | zero =>
      refine ⟨s, x, rfl, ?_, hs, hx, ?_, Written.none (Or.inr rfl)⟩
      · simp
      · rw [Nat.zero_mul]
        rfl
  | succ n ih =>
      rcases ih with ⟨t, ib, hrun, hA, hsteps, hrand, hib, hmem⟩
      rcases pdmatgenRows_eq toDouble hZ hsplit hjump2
        (Nat.le_refl mblks) hsteps hrand with
        ⟨u, ib1, hrows, hA', hsteps', -, -, hmem'⟩
      rw [pdmatgenColumns, hrun]
      simp only [hZ.mblks, hZ.mp, Int.toNat_natCast, hrows, jumpit_eq]
      rw [hsplit.upto_blocks] at hA' hmem'
      refine ⟨_, _, rfl, ?_, hsteps', rfl, ?_, ?_⟩
      · simp only [hA', hA]
        push_cast
        ring
      · rw [hjump3, hib, ← Function.iterate_add_apply, Nat.succ_mul,
          Nat.add_comm]
      · have hcol := hmem' Z.LDA
        rw [hA] at hcol
        refine hmem.append hLDA ⟨?_, hcol.frame⟩
        intro i j hi hj
        rw [hcol.entries i j hi hj, hib, ← Function.iterate_add_apply]
        have hj0 : j = 0 := by lia
        subst hj0
        congr 2
        ring

theorem pdmatgenBlocks_eq {R M C : Nat} (hZ : Z.Of nb mp mblks lmb nblks lnb)
    {nq : Nat} (hsplit : Split mp nb mblks lmb) (hsplit' : Split nq nb nblks lnb)
    (hLDA : (mp : Int) ≤ Z.LDA)
    (hjump2 : next J.ia2 J.ic2 = (next mult iadd)^[R])
    (hjump3 : next J.ia3 J.ic3 = (next mult iadd)^[M])
    (hjump4 : next J.ia4 J.ic4 = (next mult iadd)^[M * C]) {n : Nat}
    (hn : n ≤ nblks) {s : Fill α} (hs : s.ran.Steps mult iadd) {x : Pair}
    (hx : s.ran.irand = x) :
    exists t ib, pdmatgenBlocks toDouble J Z n (s, x, x, x) = (t, ib, ib, ib) ∧
      t.A = s.A + upto nq nb n * Z.LDA ∧ t.ran.Steps mult iadd ∧
        t.ran.irand = ib ∧ ib = (next mult iadd)^[n * (M * C)] x ∧
          Written s.mem t.mem s.A Z.LDA mp (upto nq nb n) fun i j =>
            toDouble ((next mult iadd)^[offset nb C j * M + offset nb R i] x) := by
  induction n with
  | zero =>
      refine ⟨s, x, rfl, ?_, hs, hx, ?_, Written.none (Or.inr ?_)⟩
      · simp [upto]
      · rw [Nat.zero_mul]
        rfl
      · simp [upto]
  | succ n ih =>
      rcases ih (Nat.le_of_succ_le hn) with
        ⟨t, ib, hrun, hA, hsteps, hrand, hib, hmem⟩
      have hlt : n < nblks := hn
      have hwidth := hsplit'.width_le n
      have hupto := hsplit'.upto_succ hlt
      have hold := hsplit'.upto_of_lt hlt
      rw [pdmatgenBlocks, hrun]
      simp only [hZ.nblks, hZ.lnb, hZ.NB, jumpit_eq]
      generalize (if (n : Int) = nblks - 1 then (lnb : Int) else nb).toNat = jb
        at *
      rcases pdmatgenColumns_eq toDouble hZ hsplit hLDA hjump2
        hjump3 jb hsteps hrand with ⟨u, ib', hcols, hA', hsteps', -, -, hmem'⟩
      simp only [hcols]
      refine ⟨_, _, rfl, ?_, hsteps', rfl, ?_, ?_⟩
      · simp only [hA', hA, hold, hupto]
        push_cast
        ring
      · rw [hjump4, hib, ← Function.iterate_add_apply, Nat.succ_mul,
          Nat.add_comm]
      · rw [hA] at hmem'
        rw [hupto, ← hold]
        refine hmem.append hLDA ⟨?_, hmem'.frame⟩
        intro i j hi hj
        rw [hmem'.entries i j hi hj, hib, ← Function.iterate_add_apply, hold,
          offset_add (Nat.lt_of_lt_of_le hj hwidth)]
        congr 2
        ring

end Blocks

end Loops

/-!
## The distributed matrix is the matrix
-/

/-- The numbers of the generator for a seed, in order. -/
def number (ISEED : CInt) (k : Nat) : Pair :=
  (next mult0 iadd0)^[k] (next mult0 iadd0 (ISEED, 0))

theorem xjumpm_one (mult iadd irann iam icm : Pair) :
    xjumpm 1 mult iadd irann iam icm = (next mult iadd irann, mult, iadd) :=
  rfl

theorem setran_all (x a c : Pair) (r : Ran) :
    (setran 2 c (setran 1 a (setran 0 x r).2).2).2 =
      { ias := a, ics := c, irand := x } :=
  rfl

theorem dmatgen_written (toDouble : Pair -> α) (M N : Nat) {LDA : Int}
    (hLDA : (M : Int) ≤ LDA) (ISEED : CInt) (junk : Pair) (s : Fill α) :
    Written s.mem (dmatgen toDouble M N LDA ISEED junk s).mem s.A LDA M N
      fun i j => toDouble (number ISEED (j * M + i)) := by
  unfold dmatgen
  by_cases hempty : (M : Int) ≤ 0 ∨ (N : Int) ≤ 0
  · rw [if_pos hempty]
    exact Written.none (by lia)
  · rw [if_neg hempty, Int.toNat_natCast, xjumpm_one]
    simp only [setran_all]
    generalize hstart : (⟨s.mem, s.A, _⟩ : Fill α) = start
    have hsteps : start.ran.Steps mult0 iadd0 := by
      rw [← hstart]
      exact ⟨rfl, rfl⟩
    have hmem := (dmatgenColumns_eq toDouble hLDA N hsteps).right.right.right
    rw [← hstart] at hmem ⊢
    exact hmem

theorem indxl2g_offset {nb nprocs p : Nat} (hnb : 0 < nb) (hp : p < nprocs)
    (l : Nat) :
    indxl2g l nb nb p 0 nprocs = (p * nb + offset nb (nprocs * nb) l : Nat) := by
  have hdiv : (nb : Int) * (l / nb : Nat) + (l % nb : Nat) = l := by
    exact_mod_cast Nat.div_add_mod l nb
  unfold indxl2g offset
  split
  · have hone : nprocs = 1 := by lia
    have hzero : p = 0 := by lia
    subst hone hzero
    push_cast at *
    linear_combination -hdiv
  · by_cases hzero : p = 0
    · subst hzero
      rw [Nat.cast_zero, if_pos rfl]
      by_cases hl : l < nb
      · rw [if_pos (by exact_mod_cast hl), Nat.div_eq_of_lt hl,
          Nat.mod_eq_of_lt hl]
        simp
      · have hquot : ((l : Int) - nb).tdiv nb + 1 = (l / nb : Nat) := by
          have hsub : (l : Int) - nb = (l - nb : Nat) := by lia
          have hcount := Nat.div_eq_sub_div hnb (Nat.le_of_not_lt hl)
          rw [hsub, natCast_tdiv, hcount]
          push_cast
          rfl
        rw [if_neg (by exact_mod_cast hl), hquot]
        push_cast at *
        linear_combination -hdiv
    · rw [if_neg (by exact_mod_cast hzero), if_neg (by lia), natCast_tdiv]
      push_cast at *
      linear_combination -hdiv

/-- One dimension of the grid: all blocks have one length and process 0 has the
first. -/
def gridDim {nb nprocs : Nat} (hnb : 0 < nb) (hprocs : 0 < nprocs) :
    BlockCyclic where
  first := nb
  block := nb
  procs := nprocs
  source := 0
  first_pos := hnb
  block_pos := hnb
  source_lt := hprocs

theorem mnumroc_gridDim {nb nprocs p : Nat} (hnb : 0 < nb) (hp : p < nprocs)
    (n : Nat) :
    mnumroc n nb nb p 0 nprocs =
        (gridDim hnb (Nat.zero_lt_of_lt hp)).below p n ∧
      numroc n nb nb p 0 nprocs =
        (gridDim hnb (Nat.zero_lt_of_lt hp)).below p n :=
  ⟨mnumrocI_zero (gridDim hnb (Nat.zero_lt_of_lt hp)) hp n,
    numrocI_zero (gridDim hnb (Nat.zero_lt_of_lt hp)) hp n⟩

theorem offset_lt {nb nprocs p : Nat} (hnb : 0 < nb) (hp : p < nprocs)
    {l n : Nat} (hl : l < (gridDim hnb (Nat.zero_lt_of_lt hp)).below p n) :
    p * nb + offset nb (nprocs * nb) l < n := by
  rcases indxl2g_place (gridDim hnb (Nat.zero_lt_of_lt hp)) hp l with
    ⟨g, hg, hown, hcount⟩
  have hplace := indxl2g_offset hnb hp l
  have heq : (p * nb + offset nb (nprocs * nb) l : Nat) = g := by
    exact_mod_cast hplace.symm.trans hg
  rw [heq]
  rw [← hcount] at hl
  exact (BlockCyclic.below_lt_below_iff _ hown).mp hl

theorem split_tdiv {total : Nat} (nb : Nat) (htotal : 0 < total) :
    ((total : Int) + nb - 1).tdiv nb = ((total + nb - 1) / nb : Nat) ∧
      (total : Int) - ((total : Int) - 1).tdiv nb * nb =
        (total - (total - 1) / nb * nb : Nat) := by
  have hup : (total : Int) + nb - 1 = (total + nb - 1 : Nat) := by lia
  have hdown : (total : Int) - 1 = (total - 1 : Nat) := by lia
  have hle := Nat.div_mul_le_self (total - 1) nb
  rw [hup, hdown, natCast_tdiv, natCast_tdiv]
  refine ⟨rfl, ?_⟩
  rw [Nat.cast_sub (by lia)]
  push_cast
  rfl

theorem pdmatgen_written (toDouble : Pair -> α) {nb nprow npcol myrow mycol : Nat}
    (hnb : 0 < nb) (hrow : myrow < nprow) (hcol : mycol < npcol) (M N : Nat)
    {lda : Int} {mp nq : Nat} (hmp : mnumroc M nb nb myrow 0 nprow = mp)
    (hnq : mnumroc N nb nb mycol 0 npcol = nq) (hlda : (mp : Int) ≤ lda)
    (ISEED : CInt) (junk : Pair) (s : Fill α) :
    Written s.mem
      (pdmatgen toDouble nprow npcol myrow mycol M N nb lda ISEED junk s).mem
      s.A lda mp nq fun i j =>
        toDouble (number ISEED
          ((mycol * nb + offset nb (npcol * nb) j) * M +
            (myrow * nb + offset nb (nprow * nb) i))) := by
  unfold pdmatgen
  simp only [hmp, hnq]
  by_cases hempty : (mp : Int) ≤ 0 ∨ (nq : Int) ≤ 0
  · rw [if_pos hempty]
    exact Written.none (by lia)
  · have hM : 0 < M := by
      by_contra hM
      have hM0 : M = 0 := by lia
      rw [hM0, (mnumroc_gridDim hnb hrow 0).left, BlockCyclic.below,
        Nat.count_zero] at hmp
      lia
    have hmp' : 0 < mp := by lia
    have hnq' : 0 < nq := by lia
    rcases split_tdiv nb hmp' with ⟨hmblks, hlmb⟩
    rcases split_tdiv nb hnq' with ⟨hnblks, hlnb⟩
    have hrows : 0 < nprow * nb := Nat.mul_pos (Nat.zero_lt_of_lt hrow) hnb
    have hcols : 0 < npcol * nb := Nat.mul_pos (Nat.zero_lt_of_lt hcol) hnb
    generalize hfirst : next mult0 iadd0 (ISEED, 0) = iran1
    rcases xjumpm_eq hrows mult0 iadd0 iran1 junk junk with
      ⟨ia2, ic2, hjump2, hsteps2⟩
    rcases xjumpm_eq hM mult0 iadd0 iran1 junk junk with
      ⟨ia3, ic3, hjump3, hsteps3⟩
    rcases xjumpm_eq hcols ia3 ic3 iran1 junk junk with
      ⟨ia4, ic4, hjump4, hsteps4⟩
    rcases xjumpm_eq hnb ia3 ic3 iran1 junk junk with
      ⟨ia5, ic5, hjump5, hsteps5⟩
    push_cast at hjump2 hjump4
    rw [if_neg hempty, xjumpm_one, hfirst]
    simp only [hjump2, hjump3, hjump4, hjump5, hmblks, hlmb, hnblks, hlnb,
      setran_all, Int.toNat_natCast]
    have hstart : forall a b c d,
        (xjumpm ((myrow : Int) * nb) mult0 iadd0
          (xjumpm mycol ia5 ic5 iran1 a b).1 c d).1 =
            (next mult0 iadd0)^[mycol * nb * M + myrow * nb] iran1 := by
      intro a b c d
      have hdown := xjumpm_fst (myrow * nb) mult0 iadd0
        (xjumpm mycol ia5 ic5 iran1 a b).1 c d
      push_cast at hdown
      rw [hdown, xjumpm_fst, hsteps5, hsteps3, ← Function.iterate_mul,
        ← Function.iterate_mul, ← Function.iterate_add_apply]
      congr 1
      ring
    simp only [hstart]
    have hsteps4' : next ia4 ic4 = (next mult0 iadd0)^[M * (npcol * nb)] := by
      rw [hsteps4, hsteps3, ← Function.iterate_mul]
    have hsplit := split_of_pos hmp' hnb
    have hsplit' := split_of_pos hnq' hnb
    generalize (mp + nb - 1) / nb = mblks at *
    generalize mp - (mp - 1) / nb * nb = lmb at *
    generalize (nq + nb - 1) / nb = nblks at *
    generalize nq - (nq - 1) / nb * nb = lnb at *
    generalize hx : (next mult0 iadd0)^[mycol * nb * M + myrow * nb] iran1 = x
    generalize hJ : (⟨ia2, ic2, ia3, ic3, ia4, ic4⟩ : Jumps) = J
    generalize hZ : (⟨_, _, _, _, _, _, lda⟩ : Sizes) = Z
    generalize ht : (⟨s.mem, s.A, _⟩ : Fill α) = t
    have hsizes : Z.Of nb mp mblks lmb nblks lnb := by
      rw [← hZ]
      exact ⟨rfl, rfl, rfl, rfl, rfl, rfl⟩
    rcases pdmatgenBlocks_eq toDouble (J := J) (Z := Z) (s := t) (x := x)
      hsizes hsplit hsplit' (by rw [← hZ]; exact hlda)
      (by rw [← hJ]; exact hsteps2) (by rw [← hJ]; exact hsteps3)
      (by rw [← hJ]; exact hsteps4') (Nat.le_refl _)
      (by rw [← ht]; exact ⟨rfl, rfl⟩) (by rw [← ht]) with
      ⟨u, ib, hrun, -, -, -, -, hmem⟩
    rw [hrun, ← show t.mem = s.mem by rw [← ht],
      ← show t.A = s.A by rw [← ht], ← show Z.LDA = lda by rw [← hZ]]
    rw [hsplit'.upto_blocks] at hmem
    refine ⟨?_, hmem.frame⟩
    intro i j hi hj
    rw [hmem.entries i j hi hj, ← hx, ← Function.iterate_add_apply, number,
      hfirst]
    congr 2
    ring

/-- Nothing written and no generator set. -/
def emptyFill : Fill Nat where
  mem := fun _ => 0
  A := 0
  ran := { ias := 0, ics := 0, irand := 0 }

end HPL
end IPPD
