import IPPD.Foundation.CArray

/-!
# Fibonacci numbers in an array

Two functions of the repository fill an array `f` from the front, starting with
`f[0] = f[1] = 1`, and return `f[n-1]`: `fiboSequencial` of `fibo.c` and the
service `fibonacci_1_svc`.  Both are the function below.  Neither tests `n`.
-/

namespace IPPD
namespace Fibonacci

open Foundation

variable {int : Type u}

/-- `f[i] = f[i-1] + f[i-2]` -/
def body (A : Arith int) (f : CArray int) (i : Nat) :
    Except Fault (CArray int) := do
  let x <- f.get ((i : Int) - 1)
  let y <- f.get ((i : Int) - 2)
  let v <- A.add x y
  f.set (i : Int) v

/-- `steps` iterations of the loop, from iteration `i` on. -/
def fill (A : Arith int) :
    Nat -> Nat -> CArray int -> Except Fault (CArray int)
  | 0, _, f => Except.ok f
  | steps + 1, i, f => do
      let f' <- body A f i
      fill A steps (i + 1) f'

/-- The declaration of `f` and `f[0] = f[1] = 1`. -/
def firstTwo (A : Arith int) (junk : Nat -> int) (n : Int) :
    Except Fault (CArray int) := do
  let f <- CArray.declare n junk
  let f1 <- f.set 1 A.one
  f1.set 0 A.one

def fiboArray (A : Arith int) (junk : Nat -> int) (n : Int) :
    Except Fault int := do
  let f <- firstTwo A junk n
  let g <- fill A (n - 2).toNat 2 f
  g.get (n - 1)

/-- `fiboSequencial` of `fibo.c`. -/
def fiboSequencial (A : Arith int) (junk : Nat -> int) (n : Int) :
    Except Fault int :=
  fiboArray A junk n

/-!
## The filled prefix
-/

/-- The first `i` elements have the values `val`. -/
structure Filled (val : Nat -> int) (n i : Nat) (f : CArray int) : Prop where
  size : f.size = n
  cell : forall {j}, j < i -> f.cell j = val j

variable {A : Arith int} {val junk : Nat -> int}

theorem Filled.put {n i : Nat} {f : CArray int} (hf : Filled val n i f) :
    Filled val n (i + 1) (f.put i (val i)) where
  size := hf.size
  cell := by
    intro j hj
    by_cases hji : j = i
    · rw [hji, CArray.put_cell_self]
    · rw [CArray.put_cell_ne hji]
      exact hf.cell (by lia)

/-- The reads and the store of an iteration are inside the array. -/
theorem body_eq {i : Nat} {f : CArray int} (hi : i + 2 < f.size) :
    body A f (i + 2) =
      (A.add (f.cell (i + 1)) (f.cell i)).bind
        fun v => Except.ok (f.put (i + 2) v) := by
  rw [body, CArray.get_eq_ok (k := i + 1) (by lia) (by lia),
    CArray.get_eq_ok (k := i) (by lia) (by lia)]
  show Except.bind (A.add (f.cell (i + 1)) (f.cell i)) _ = _
  congr 1
  funext v
  exact CArray.set_eq_ok (k := i + 2) (by lia) rfl

theorem fill_succ {n i steps : Nat} {f : CArray int}
    (hf : Filled val n (i + 2) f) (hi : i + 2 < n) :
    fill A (steps + 1) (i + 2) f =
      (A.add (val (i + 1)) (val i)).bind
        fun v => fill A steps (i + 3) (f.put (i + 2) v) := by
  have hsize := hf.size
  rw [fill, body_eq (by lia), hf.cell (by lia), hf.cell (by lia)]
  cases A.add (val (i + 1)) (val i) with
  | error e => rfl
  | ok v => rfl

theorem fill_eq_ok {n i steps : Nat} {f : CArray int}
    (hadd : forall k, k + 2 < n ->
      A.add (val (k + 1)) (val k) = Except.ok (val (k + 2)))
    (hf : Filled val n (i + 2) f) (hn : i + 2 + steps ≤ n) :
    exists g, fill A steps (i + 2) f = Except.ok g ∧
      Filled val n (i + 2 + steps) g := by
  induction steps generalizing i f with
  | zero => exact ⟨f, rfl, hf⟩
  | succ steps ih =>
      rw [fill_succ hf (by lia), hadd i (by lia)]
      rcases ih (i := i + 1) hf.put (by lia) with ⟨g, hg, hfilled⟩
      refine ⟨g, hg, ?_⟩
      rw [show i + 2 + (steps + 1) = i + 1 + 2 + steps by lia]
      exact hfilled

/-- The loop stops at the first sum that is undefined. -/
theorem fill_eq_error {n i gap steps : Nat} {f : CArray int} {e : Fault}
    (hadd : forall k, k < i + gap ->
      A.add (val (k + 1)) (val k) = Except.ok (val (k + 2)))
    (hbad : A.add (val (i + gap + 1)) (val (i + gap)) = Except.error e)
    (hf : Filled val n (i + 2) f) (hn : i + gap + 2 < n) :
    fill A (gap + (steps + 1)) (i + 2) f = Except.error e := by
  induction gap generalizing i f with
  | zero =>
      rw [show 0 + (steps + 1) = steps + 1 by lia, fill_succ hf (by lia)]
      rw [show i + 0 = i from rfl] at hbad
      rw [hbad]
      rfl
  | succ gap ih =>
      rw [show gap + 1 + (steps + 1) = gap + (steps + 1) + 1 by lia,
        fill_succ hf (by lia), hadd i (by lia)]
      have hshift : i + 1 + gap = i + (gap + 1) := by lia
      refine ih (i := i + 1) ?_ ?_ hf.put (by lia)
      · rw [hshift]
        exact hadd
      · rw [hshift]
        exact hbad

/-!
## The whole function
-/

theorem firstTwo_eq {n : Nat} (hn : 2 ≤ n) :
    firstTwo A junk n =
      Except.ok ((CArray.put { size := n, cell := junk } 1 A.one).put 0
        A.one) := by
  have hpos : (0 : Int) < n := by lia
  let f0 : CArray int := { size := n, cell := junk }
  have hone : f0.set 1 A.one = Except.ok (f0.put 1 A.one) :=
    CArray.set_eq_ok (show 1 < n by lia) rfl
  have hzero : (f0.put 1 A.one).set 0 A.one =
      Except.ok ((f0.put 1 A.one).put 0 A.one) :=
    CArray.set_eq_ok (show 0 < n by lia) rfl
  unfold firstTwo CArray.declare
  rw [if_pos hpos, Int.toNat_natCast]
  show Except.bind (f0.set 1 A.one) _ = _
  rw [hone]
  exact hzero

theorem firstTwo_eq_ok (val junk : Nat -> int) {n : Nat} (hn : 2 ≤ n)
    (h0 : val 0 = A.one) (h1 : val 1 = A.one) :
    exists f, firstTwo A junk n = Except.ok f ∧ Filled val n 2 f := by
  refine ⟨_, firstTwo_eq hn, rfl, ?_⟩
  intro j hj
  have hcases : j = 0 ∨ j = 1 := by lia
  rcases hcases with hj0 | hj1
  · rw [hj0, h0, CArray.put_cell_self]
  · rw [hj1, h1, CArray.put_cell_ne (by lia), CArray.put_cell_self]

theorem fiboArray_eq_ok (val junk : Nat -> int) {n : Nat} (hn : 2 ≤ n)
    (h0 : val 0 = A.one) (h1 : val 1 = A.one)
    (hadd : forall k, k + 2 < n ->
      A.add (val (k + 1)) (val k) = Except.ok (val (k + 2))) :
    fiboArray A junk n = Except.ok (val (n - 1)) := by
  rcases firstTwo_eq_ok val junk hn h0 h1 with ⟨f, hfirst, hf⟩
  have hsteps : ((n : Int) - 2).toNat = n - 2 := by lia
  have hlast : 0 + 2 + (n - 2) ≤ n := by lia
  rcases fill_eq_ok hadd hf hlast with ⟨g, hg, hfilled⟩
  unfold fiboArray
  rw [hfirst, hsteps]
  show (Except.bind (fill A (n - 2) 2 f) _) = _
  rw [hg]
  show CArray.get _ _ = _
  rw [CArray.get_eq_ok (k := n - 1) (by rw [hfilled.size]; lia) (by lia),
    hfilled.cell (by lia)]

theorem fiboArray_eq_error (val junk : Nat -> int) {n m : Nat} {e : Fault}
    (hm : m + 2 < n) (h0 : val 0 = A.one) (h1 : val 1 = A.one)
    (hadd : forall k, k < m ->
      A.add (val (k + 1)) (val k) = Except.ok (val (k + 2)))
    (hbad : A.add (val (m + 1)) (val m) = Except.error e) :
    fiboArray A junk n = Except.error e := by
  rcases firstTwo_eq_ok val junk (by lia : 2 ≤ n) h0 h1 with
    ⟨f, hfirst, hf⟩
  have hsteps : ((n : Int) - 2).toNat = m + (n - m - 3 + 1) := by lia
  have hfill : fill A (m + (n - m - 3 + 1)) (0 + 2) f = Except.error e := by
    refine fill_eq_error ?_ ?_ hf (by lia)
    · rw [Nat.zero_add]
      exact hadd
    · rw [Nat.zero_add]
      exact hbad
  unfold fiboArray
  rw [hfirst, hsteps]
  show (Except.bind (fill A _ 2 f) _) = _
  rw [hfill]
  rfl

theorem fiboArray_size {n : Int} (hn : n ≤ 0) :
    fiboArray A junk n = Except.error Fault.size := by
  have hneg : ¬ 0 < n := by lia
  unfold fiboArray firstTwo CArray.declare
  rw [if_neg hneg]
  rfl

theorem fiboArray_one : fiboArray A junk 1 = Except.error Fault.bounds := by
  let f0 : CArray int := { size := 1, cell := junk }
  have hset : f0.set 1 A.one = Except.error Fault.bounds :=
    CArray.set_eq_error (Or.inr (Int.le_refl 1))
  have hfirst : firstTwo A junk 1 = Except.error Fault.bounds := by
    unfold firstTwo CArray.declare
    rw [if_pos (by lia)]
    show Except.bind (f0.set 1 A.one) (fun f1 => f1.set 0 A.one) = _
    rw [hset]
    rfl
  unfold fiboArray
  rw [hfirst]
  rfl

end Fibonacci
end IPPD
