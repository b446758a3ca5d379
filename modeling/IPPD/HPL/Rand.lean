import IPPD.Foundation.Affine
import IPPD.Foundation.CInt
import Mathlib.Algebra.BigOperators.Group.Finset.Basic

/-!
# The generator of the test matrices

`testing/matgen`: 64-bit integers as pairs of `int`, low word first, and the
linear congruential generator on them.  The state of the generator is static in
`HPL_setran.c`.
-/

namespace IPPD
namespace HPL

open Foundation

/-- An `int[2]`. -/
abbrev Pair := CInt × CInt

/-!
## 64-bit addition and multiplication
-/

def ladd (j k : Pair) : Pair :=
  let ktmp0 := k.1 &&& 65535
  let ktmp1 := k.1 >>> 16
  let ktmp2 := k.2 &&& 65535
  let ktmp3 := k.2 >>> 16
  let jtmp0 := j.1 &&& 65535
  let jtmp1 := j.1 >>> 16
  let jtmp2 := j.2 &&& 65535
  let jtmp3 := j.2 >>> 16
  let itmp0 := ktmp0 + jtmp0
  let itmp1 := itmp0 >>> 16
  let i0 := itmp0 - (itmp1 <<< 16)
  let itmp1 := itmp1 + (ktmp1 + jtmp1)
  let i0 := i0 ||| ((itmp1 &&& 65535) <<< 16)
  let itmp0 := (itmp1 >>> 16) + ktmp2 + jtmp2
  let i1 := itmp0 - ((itmp0 >>> 16) <<< 16)
  let itmp1 := (itmp0 >>> 16) + ktmp3 + jtmp3
  let i1 := i1 ||| ((itmp1 &&& 65535) <<< 16)
  (i0, i1)

/-- The array `kk` of 16-bit digits. -/
def digit (k : Pair) : Nat -> CInt
  | 0 => k.1 &&& 65535
  | 1 => (k.1 >>> 16) &&& 65535
  | 2 => k.2 &&& 65535
  | _ => (k.2 >>> 16) &&& 65535

/-- The loop over `r`, after some of its iterations. -/
def lmulRow (kk jj : Nat -> CInt) (c : Nat) :
    Nat -> (Nat -> CInt) -> Nat -> CInt
  | 0, res => res
  | r + 1, res =>
      let res := lmulRow kk jj c r res
      let res := Function.update res c (kk r * jj (c - r) + (res c &&& 65535))
      Function.update res (c + 1)
        (res (c + 1) + ((res c >>> 16) &&& 65535))

/-- The loop over `c`; the array `res` starts with the given contents. -/
def lmulRows (kk jj : Nat -> CInt) : Nat -> (Nat -> CInt) -> Nat -> CInt
  | 0, res => res
  | c + 1, res =>
      let res := lmulRows kk jj c res
      let res := Function.update res (c + 1) ((res c >>> 16) &&& 65535)
      let res := Function.update res c (res c &&& 65535)
      lmulRow kk jj c (c + 1) res

/-- Only `res[0]` is set before the loops. -/
def lmul (k j : Pair) : Pair :=
  let res := lmulRows (digit k) (digit j) 4 fun _ => 0
  let word (c : Nat) :=
    ((res (2 * c + 1) &&& 65535) <<< 16) ||| (res (2 * c) &&& 65535)
  (word 0, word 1)

/-!
## What the digits stand for
-/

/-- The unsigned 64-bit number of a pair. -/
def value (k : Pair) : Nat :=
  k.1.toNat + 2 ^ 32 * k.2.toNat

/-- The pair as one word. -/
def word (k : Pair) : BitVec 64 :=
  BitVec.ofNat 64 (value k)

theorem toNat_and_65535 (x : CInt) : (x &&& 65535).toNat = x.toNat % 65536 := by
  rw [BitVec.toNat_and]
  exact Nat.and_two_pow_sub_one_eq_mod x.toNat 16

theorem toNat_shiftRight (x : CInt) : (x >>> 16).toNat = x.toNat / 65536 := by
  rw [BitVec.toNat_ushiftRight, Nat.shiftRight_eq_div_pow]

theorem toNat_join {lo hi : CInt} (hlo : lo.toNat < 65536) :
    (((hi &&& 65535) <<< 16) ||| lo).toNat =
      lo.toNat + 65536 * (hi.toNat % 65536) := by
  have hhi := Nat.mod_lt hi.toNat (show 0 < 65536 by decide)
  rw [BitVec.toNat_or, BitVec.toNat_shiftLeft, toNat_and_65535,
    Nat.shiftLeft_eq, Nat.mod_eq_of_lt (by lia), Nat.mul_comm]
  rw [show (65536 : Nat) = 2 ^ 16 from rfl] at *
  rw [Nat.mul_comm, ← Nat.shiftLeft_eq, ← Nat.shiftLeft_add_eq_or_of_lt hlo,
    Nat.shiftLeft_eq]
  lia

theorem toNat_sub_high (x : CInt) :
    (x - ((x >>> 16) <<< 16)).toNat = x.toNat % 65536 := by
  have hx := x.isLt
  rw [BitVec.toNat_sub, BitVec.toNat_shiftLeft, toNat_shiftRight,
    Nat.shiftLeft_eq]
  lia

theorem value_eq_digits (k : Pair) :
    value k = (digit k 0).toNat + 2 ^ 16 * (digit k 1).toNat +
      2 ^ 32 * (digit k 2).toNat + 2 ^ 48 * (digit k 3).toNat := by
  have h1 := k.1.isLt
  have h2 := k.2.isLt
  simp only [digit, value, toNat_and_65535, toNat_shiftRight]
  lia

theorem digit_lt (k : Pair) (i : Nat) : (digit k i).toNat < 65536 := by
  unfold digit
  split <;> rw [toNat_and_65535] <;> exact Nat.mod_lt _ (by decide)

theorem toNat_sub_or (x hi : CInt) :
    ((x - ((x >>> 16) <<< 16)) ||| ((hi &&& 65535) <<< 16)).toNat =
      x.toNat % 65536 + 65536 * (hi.toNat % 65536) := by
  have hlow := toNat_sub_high x
  rw [BitVec.or_comm, toNat_join, hlow]
  rw [hlow]
  exact Nat.mod_lt _ (by decide)

theorem toNat_digits (x : CInt) :
    exists lo hi, x.toNat = lo + 65536 * hi ∧ lo < 65536 ∧ hi < 65536 ∧
      x.toNat % 65536 = lo ∧ x.toNat / 65536 = hi := by
  have hx := x.isLt
  exact ⟨x.toNat % 65536, x.toNat / 65536, by lia, by lia, by lia, rfl, rfl⟩

theorem value_ladd (j k : Pair) :
    value (ladd j k) = (value j + value k) % 2 ^ 64 := by
  simp only [ladd, value, toNat_sub_or, BitVec.toNat_add, toNat_shiftRight,
    toNat_and_65535]
  rcases toNat_digits j.1 with ⟨j0, j1, hj, hj0, hj1, hj0', hj1'⟩
  rcases toNat_digits j.2 with ⟨j2, j3, hjh, hj2, hj3, hj2', hj3'⟩
  rcases toNat_digits k.1 with ⟨k0, k1, hk, hk0, hk1, hk0', hk1'⟩
  rcases toNat_digits k.2 with ⟨k2, k3, hkh, hk2, hk3, hk2', hk3'⟩
  rw [hj0', hj1', hj2', hj3', hk0', hk1', hk2', hk3', hj, hjh, hk, hkh]
  -- No sum of digits and a carry leaves 32 bits.
  simp (disch := lia) only [Nat.mod_eq_of_lt (b := 2 ^ 32)]
  lia

/-!
## The product

A column of the product is collected in two entries of `res`: the digit at its
place and the carry at the next one.
-/

/-- The digits of a product at one place, the first `r` of them. -/
def rowSum (kk jj : Nat -> CInt) (c r : Nat) : Nat :=
  ∑ i ∈ Finset.range r, (kk i).toNat * (jj (c - i)).toNat

theorem lmulRow_other {kk jj : Nat -> CInt} {c r d : Nat} {res : Nat -> CInt}
    (hd : d ≠ c) (hd' : d ≠ c + 1) : lmulRow kk jj c r res d = res d := by
  induction r with
  | zero => rfl
  | succ r ih =>
      rw [lmulRow, Function.update_of_ne hd', Function.update_of_ne hd, ih]

theorem toNat_step {x y : CInt} (lo : CInt) (hx : x.toNat < 65536)
    (hy : y.toNat < 65536) :
    (x * y + (lo &&& 65535)).toNat = x.toNat * y.toNat + lo.toNat % 65536 := by
  have hprod : x.toNat * y.toNat ≤ 65535 * 65535 :=
    Nat.mul_le_mul (Nat.le_of_lt_succ hx) (Nat.le_of_lt_succ hy)
  have hlo := Nat.mod_lt lo.toNat (show 0 < 65536 by decide)
  rw [BitVec.toNat_add, BitVec.toNat_mul, toNat_and_65535]
  lia

/-- What one row collects: the sum stands in the two entries, and the carry
stays small. -/
theorem lmulRow_value {kk jj : Nat -> CInt} {c r : Nat} (res : Nat -> CInt)
    (hkk : forall i, (kk i).toNat < 65536) (hjj : forall i, (jj i).toNat < 65536)
    (hres : (res c).toNat < 65536) (hcarry : (res (c + 1)).toNat < 65536)
    (hr : r ≤ 4) :
    (lmulRow kk jj c r res c).toNat % 65536 +
        65536 * (lmulRow kk jj c r res (c + 1)).toNat =
      (res c).toNat + 65536 * (res (c + 1)).toNat + rowSum kk jj c r ∧
    (lmulRow kk jj c r res (c + 1)).toNat < 65536 * (r + 1) := by
  induction r with
  | zero =>
      simp only [lmulRow, rowSum, Finset.range_zero, Finset.sum_empty]
      lia
  | succ r ih =>
      rcases ih (Nat.le_of_succ_le hr) with ⟨hsum, hbound⟩
      have hstep := toNat_step (lmulRow kk jj c r res c) (hkk r) (hjj (c - r))
      have hne : c + 1 ≠ c := Nat.succ_ne_self c
      have hne' : c ≠ c + 1 := Nat.ne_of_lt (Nat.lt_succ_self c)
      have hsplit : rowSum kk jj c (r + 1) =
          rowSum kk jj c r + (kk r).toNat * (jj (c - r)).toNat :=
        Finset.sum_range_succ _ r
      simp only [lmulRow, Function.update_self, Function.update_of_ne hne,
        Function.update_of_ne hne', BitVec.toNat_add, toNat_and_65535,
        toNat_shiftRight]
      have hprod : (kk r).toNat * (jj (c - r)).toNat ≤ 65535 * 65535 :=
        Nat.mul_le_mul (Nat.le_of_lt_succ (hkk r))
          (Nat.le_of_lt_succ (hjj (c - r)))
      simp only [BitVec.toNat_add, toNat_and_65535] at hstep
      rw [hsplit, hstep]
      generalize (kk r).toNat * (jj (c - r)).toNat = z at *
      generalize (lmulRow kk jj c r res c).toNat = lo at *
      generalize (lmulRow kk jj c r res (c + 1)).toNat = carry at *
      lia

theorem lmulRows_value {kk jj : Nat -> CInt} {c : Nat}
    (hkk : forall i, (kk i).toNat < 65536) (hjj : forall i, (jj i).toNat < 65536)
    (hc : c ≤ 4) :
    ∑ i ∈ Finset.range c,
          65536 ^ i * ((lmulRows kk jj c (fun _ => 0) i).toNat % 65536) +
        65536 ^ c * (lmulRows kk jj c (fun _ => 0) c).toNat =
      ∑ i ∈ Finset.range c, 65536 ^ i * rowSum kk jj i (i + 1) ∧
    (lmulRows kk jj c (fun _ => 0) c).toNat < 65536 * (c + 1) := by
  induction c with
  | zero => simp [lmulRows]
  | succ c ih =>
      rcases ih (Nat.le_of_succ_le hc) with ⟨hsum, hbound⟩
      rw [lmulRows]
      generalize lmulRows kk jj c (fun _ => 0) = res at *
      -- The row starts with the two digits of the carry.
      generalize hstart : Function.update
        (Function.update res (c + 1) ((res c >>> 16) &&& 65535)) c _ = start
      have hne : c + 1 ≠ c := Nat.succ_ne_self c
      have hlow : (start c).toNat = (res c).toNat % 65536 := by
        rw [← hstart, Function.update_self,
          Function.update_of_ne (Nat.succ_ne_self c).symm, toNat_and_65535]
      have hhigh : (start (c + 1)).toNat = (res c).toNat / 65536 := by
        rw [← hstart, Function.update_of_ne hne, Function.update_self,
          toNat_and_65535, toNat_shiftRight]
        lia
      have hother : forall i, i < c -> start i = res i := by
        intro i hi
        rw [← hstart, Function.update_of_ne (Nat.ne_of_lt hi),
          Function.update_of_ne (by lia)]
      rcases lmulRow_value (c := c) (r := c + 1) start hkk hjj
        (by lia) (by lia) hc with ⟨hrow, hcarry⟩
      refine ⟨?_, by lia⟩
      have hkeep : forall i, i ∈ Finset.range c ->
          65536 ^ i * ((lmulRow kk jj c (c + 1) start i).toNat % 65536) =
            65536 ^ i * ((res i).toNat % 65536) := by
        intro i hi
        have hic := Finset.mem_range.mp hi
        rw [lmulRow_other (Nat.ne_of_lt hic) (by lia), hother i hic]
      rw [Finset.sum_range_succ, Finset.sum_range_succ, ← hsum,
        Finset.sum_congr rfl hkeep, pow_succ, add_assoc, add_assoc, mul_assoc,
        ← Nat.mul_add, hrow, ← Nat.mul_add, hlow, hhigh]
      congr 2
      lia

theorem value_lmul (k j : Pair) :
    value (lmul k j) = value k * value j % 2 ^ 64 := by
  rcases lmulRows_value (c := 4) (digit_lt k) (digit_lt j) (Nat.le_refl 4) with
    ⟨hsum, -⟩
  have hmod : forall x : CInt, (x &&& 65535).toNat < 65536 := by
    intro x
    rw [toNat_and_65535]
    exact Nat.mod_lt _ (by decide)
  simp only [lmul, value, toNat_join (hmod _), toNat_and_65535, Nat.mul_zero,
    Nat.zero_add, Nat.mul_one]
  change _ = value k * value j % 2 ^ 64
  rw [value_eq_digits k, value_eq_digits j]
  simp only [Finset.sum_range_succ, Finset.range_zero, Finset.sum_empty,
    rowSum] at hsum
  norm_num at hsum
  -- The columns that are left out are multiples of 2 ^ 64.
  generalize lmulRows (digit k) (digit j) 4 (fun _ => 0) = res at *
  generalize (digit k 0).toNat = k0 at *
  generalize (digit k 1).toNat = k1 at *
  generalize (digit k 2).toNat = k2 at *
  generalize (digit k 3).toNat = k3 at *
  generalize (digit j 0).toNat = j0 at *
  generalize (digit j 1).toNat = j1 at *
  generalize (digit j 2).toNat = j2 at *
  generalize (digit j 3).toNat = j3 at *
  have hprod :
      (k0 + 2 ^ 16 * k1 + 2 ^ 32 * k2 + 2 ^ 48 * k3) *
          (j0 + 2 ^ 16 * j1 + 2 ^ 32 * j2 + 2 ^ 48 * j3) =
        (k0 * j0 + 65536 * (k0 * j1 + k1 * j0) +
            4294967296 * (k0 * j2 + k1 * j1 + k2 * j0) +
            281474976710656 * (k0 * j3 + k1 * j2 + k2 * j1 + k3 * j0)) +
          2 ^ 64 * (k1 * j3 + k2 * j2 + k3 * j1 +
            65536 * (k2 * j3 + k3 * j2) + 4294967296 * (k3 * j3)) := by
    ring
  rw [hprod, ← hsum, Nat.add_mul_mod_self_left]
  lia

theorem value_lt (k : Pair) : value k < 2 ^ 64 := by
  have h1 := k.1.isLt
  have h2 := k.2.isLt
  unfold value
  lia

theorem word_ladd (j k : Pair) : word (ladd j k) = word j + word k := by
  apply BitVec.eq_of_toNat_eq
  simp only [word, BitVec.toNat_add, BitVec.toNat_ofNat, value_ladd]
  lia

theorem word_lmul (k j : Pair) : word (lmul k j) = word k * word j := by
  apply BitVec.eq_of_toNat_eq
  simp only [word, BitVec.toNat_mul, BitVec.toNat_ofNat, value_lmul,
    Nat.mod_mod, ← Nat.mul_mod]

theorem word_injective : Function.Injective word := by
  intro k j h
  have hval : value k = value j := by
    have htoNat := congrArg BitVec.toNat h
    rw [word, word, BitVec.toNat_ofNat, BitVec.toNat_ofNat,
      Nat.mod_eq_of_lt (value_lt k), Nat.mod_eq_of_lt (value_lt j)] at htoNat
    exact htoNat
  have hk := k.1.isLt
  have hj := j.1.isLt
  unfold value at hval
  apply Prod.ext
  · apply BitVec.eq_of_toNat_eq
    lia
  · apply BitVec.eq_of_toNat_eq
    lia

/-- The arithmetic of the generator is that of 64-bit words. -/
theorem arithmetic_mod_two_pow (j k : Pair) :
    word (ladd j k) = word j + word k ∧ word (lmul j k) = word j * word k :=
  ⟨word_ladd j k, word_lmul j k⟩

/-!
## The generator
-/

/-- The static variables of `HPL_setran.c`. -/
structure Ran where
  ias : Pair
  ics : Pair
  irand : Pair

/-- `HPL_setran`: the argument array afterwards and the static variables. -/
def setran (option : Int) (iran : Pair) (s : Ran) : Pair × Ran :=
  if option = 3 then
    (s.irand, { s with irand := ladd (lmul s.irand s.ias) s.ics })
  else if option = 0 then (iran, { s with irand := iran })
  else if option = 1 then (iran, { s with ias := iran })
  else if option = 2 then (iran, { s with ics := iran })
  else (iran, s)

/-- The loop of `HPL_xjumpm` on `IAM` and `ICM`, after some iterations. -/
def xjumpmLoop (mult iadd : Pair) : Nat -> Pair × Pair
  | 0 => (mult, iadd)
  | k + 1 =>
      let (iam, icm) := xjumpmLoop mult iadd k
      (lmul iam mult, ladd iadd (lmul icm mult))

/-- `HPL_xjumpm`: `IRANM`, `IAM` and `ICM` afterwards. -/
def xjumpm (jumpm : Int) (mult iadd irann iam icm : Pair) :
    Pair × Pair × Pair :=
  if 0 < jumpm then
    let (iam, icm) := xjumpmLoop mult iadd (jumpm - 1).toNat
    (ladd (lmul irann iam) icm, iam, icm)
  else (irann, iam, icm)

/-- `HPL_jumpit`: `IRANM` afterwards and the static variables. -/
def jumpit (mult iadd irann : Pair) (s : Ran) : Pair × Ran :=
  setran 0 (ladd (lmul irann mult) iadd) s

/-- One step with multiplier and addend. -/
def next (mult iadd x : Pair) : Pair :=
  ladd (lmul x mult) iadd

/-- The coefficients as words. -/
def coeffs (mult iadd : Pair) : BitVec 64 × BitVec 64 :=
  (word mult, word iadd)

theorem word_next (mult iadd x : Pair) :
    word (next mult iadd x) = Affine.map (coeffs mult iadd) (word x) := by
  rw [next, word_ladd, word_lmul, Affine.map, coeffs, BitVec.mul_comm]

theorem word_iterate_next (mult iadd x : Pair) (n : Nat) :
    word ((next mult iadd)^[n] x) =
      (Affine.map (coeffs mult iadd))^[n] (word x) := by
  induction n with
  | zero => rfl
  | succ n ih =>
      rw [Function.iterate_succ_apply', Function.iterate_succ_apply',
        word_next, ih]

theorem coeffs_xjumpmLoop (mult iadd : Pair) (k : Nat) :
    coeffs (xjumpmLoop mult iadd k).1 (xjumpmLoop mult iadd k).2 =
      Affine.jump (coeffs mult iadd) (k + 1) := by
  induction k with
  | zero => simp [xjumpmLoop, Affine.jump]
  | succ k ih =>
      rw [Affine.jump, ← ih]
      simp [xjumpmLoop, coeffs, word_ladd, word_lmul]

theorem next_of_coeffs {mult iadd iam icm : Pair} {n : Nat}
    (h : coeffs iam icm = Affine.jump (coeffs mult iadd) n) :
    next iam icm = (next mult iadd)^[n] := by
  funext x
  apply word_injective
  rw [word_next, h, Affine.map_jump, word_iterate_next]

/-- `HPL_xjumpm` makes `JUMPM` steps at once, and leaves the coefficients of
that many steps. -/
theorem xjumpm_eq {n : Nat} (hn : 0 < n) (mult iadd irann iam icm : Pair) :
    exists iam' icm',
      xjumpm n mult iadd irann iam icm =
          ((next mult iadd)^[n] irann, iam', icm') ∧
        next iam' icm' = (next mult iadd)^[n] := by
  have hpos : (0 : Int) < n := by exact_mod_cast hn
  have hcount : ((n : Int) - 1).toNat + 1 = n := by lia
  have hsteps := next_of_coeffs (coeffs_xjumpmLoop mult iadd ((n : Int) - 1).toNat)
  rw [hcount] at hsteps
  refine ⟨_, _, ?_, hsteps⟩
  rw [xjumpm, if_pos hpos, ← hsteps]
  rfl

/-- Also for no step at all, when the coefficients are left alone. -/
theorem xjumpm_fst (n : Nat) (mult iadd irann iam icm : Pair) :
    (xjumpm n mult iadd irann iam icm).1 = (next mult iadd)^[n] irann := by
  rcases Nat.eq_zero_or_pos n with hzero | hpos
  · subst hzero
    rfl
  · rcases xjumpm_eq hpos mult iadd irann iam icm with ⟨_, _, hjump, -⟩
    rw [hjump]


/-- The static variables after `n` calls of `HPL_rand`. -/
def calls (n : Nat) (s : Ran) : Ran :=
  (fun r => (setran 3 r.irand r).2)^[n] s

theorem calls_eq (n : Nat) (s : Ran) :
    calls n s = { s with irand := (next s.ias s.ics)^[n] s.irand } := by
  induction n with
  | zero => rfl
  | succ n ih =>
      rw [calls, Function.iterate_succ_apply', Function.iterate_succ_apply']
      change (setran 3 (calls n s).irand (calls n s)).2 = _
      rw [ih]
      rfl

/-- A jump of `HPL_xjumpm` lands where as many calls of `HPL_rand` would, and so
does, from any state, `HPL_jumpit` with the coefficients it leaves. -/
theorem xjumpm_skips_calls (n : Nat) (s : Ran) (iam icm : Pair) :
    (xjumpm (n + 1 : Nat) s.ias s.ics s.irand iam icm).1 =
        (calls (n + 1) s).irand ∧
      forall x,
        (jumpit (xjumpm (n + 1 : Nat) s.ias s.ics s.irand iam icm).2.1
            (xjumpm (n + 1 : Nat) s.ias s.ics s.irand iam icm).2.2 x s).2 =
          calls (n + 1) { s with irand := x } := by
  rcases xjumpm_eq (Nat.succ_pos n) s.ias s.ics s.irand iam icm with
    ⟨iam', icm', hjump, hsteps⟩
  rw [hjump, calls_eq]
  refine ⟨rfl, ?_⟩
  intro x
  rw [calls_eq, ← hsteps]
  rfl

end HPL
end IPPD
