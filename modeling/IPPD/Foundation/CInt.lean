import Mathlib.Algebra.BigOperators.Group.Finset.Basic
import Mathlib.Data.BitVec

/-!
# C integers

The programs compute with 32-bit `int`.  Where the wrapped value matters the
development uses `CInt`; where a value provably stays small it uses `Int`.
-/

namespace IPPD
namespace Foundation

abbrev CInt := BitVec 32

/-!
## Range
-/

/-- The integers that an `int` can hold. -/
def Fits (x : Int) : Prop := -2 ^ 31 ≤ x ∧ x ≤ 2 ^ 31 - 1

instance (x : Int) : Decidable (Fits x) :=
  inferInstanceAs (Decidable (_ ∧ _))

theorem bmod_eq {x : Int} (h : Fits x) : x.bmod (2 ^ 32) = x := by
  unfold Fits at h
  rw [Int.bmod_eq_of_le] <;> lia

theorem toInt_ofInt {x : Int} (h : Fits x) :
    (BitVec.ofInt 32 x : CInt).toInt = x := by
  rw [BitVec.toInt_ofInt, bmod_eq h]

theorem fits_toInt (v : CInt) : Fits v.toInt := by
  have hlow := BitVec.le_toInt v
  have hhigh := BitVec.toInt_lt (x := v)
  unfold Fits
  lia

/-!
## Wrapping

A sum computed with `int` is the wrapped exact sum, and the exact sum itself
when that fits.
-/

/-- The `int` that an integer wraps to. -/
def wrap : Int →+ CInt where
  toFun := BitVec.ofInt 32
  map_zero' := rfl
  map_add' := fun _ _ => BitVec.ofInt_add _ _

theorem wrap_toInt (v : CInt) : wrap v.toInt = v :=
  BitVec.ofInt_toInt

theorem wrap_natCast (k : Nat) : wrap (k : Int) = BitVec.ofNat 32 k :=
  BitVec.ofInt_natCast 32 k

theorem toInt_wrap {x : Int} (h : Fits x) : (wrap x).toInt = x :=
  toInt_ofInt h

theorem toInt_sum {index : Type u} {s : Finset index} {g : index -> CInt}
    (h : Fits (∑ i ∈ s, (g i).toInt)) :
    (∑ i ∈ s, g i).toInt = ∑ i ∈ s, (g i).toInt := by
  have hwrap : wrap (∑ i ∈ s, (g i).toInt) = ∑ i ∈ s, g i := by
    rw [map_sum]
    exact Finset.sum_congr rfl (fun i _ => wrap_toInt (g i))
  rw [← hwrap]
  exact toInt_wrap h

/-!
## Arithmetic that does not wrap
-/

theorem toInt_add_of_fits {a b : CInt} (h : Fits (a.toInt + b.toInt)) :
    (a + b).toInt = a.toInt + b.toInt := by
  rw [BitVec.toInt_add, bmod_eq h]

theorem toInt_mul_of_fits {a b : CInt} (h : Fits (a.toInt * b.toInt)) :
    (a * b).toInt = a.toInt * b.toInt := by
  rw [BitVec.toInt_mul, bmod_eq h]

theorem toInt_sdiv_of_fits {a b : CInt}
    (h : Fits (a.toInt.tdiv b.toInt)) :
    (a.sdiv b).toInt = a.toInt.tdiv b.toInt := by
  rw [BitVec.toInt_sdiv, bmod_eq h]

theorem fits_natCast {k : Nat} {v : CInt} (h : (k : Int) ≤ v.toInt) :
    Fits k := by
  have hfits := fits_toInt v
  unfold Fits at hfits ⊢
  lia

theorem natCast_toNat {v : CInt} (h : 0 ≤ v.toInt) :
    (v.toNat : Int) = v.toInt := by
  have hlt := v.isLt
  rw [BitVec.toInt_eq_toNat_cond] at h ⊢
  split at h
  · rename_i hsmall
    rw [if_pos hsmall]
  · lia

/-!
## Reading numbers from the command line

`atoi` is `strtol` converted to an `int`.  This skips leading white space, reads
an optional sign and then the longest run of decimal digits; without digits it
returns zero, and a number that is no `long` becomes the nearest one.
-/

def isSpace (c : Char) : Bool :=
  c == ' ' || (9 ≤ c.toNat && c.toNat ≤ 13)

def readDigits (cs : List Char) : Nat :=
  (cs.takeWhile Char.isDigit).foldl
    (fun acc c => 10 * acc + (c.toNat - '0'.toNat)) 0

def readInt (s : String) : Int :=
  match s.toList.dropWhile isSpace with
  | '-' :: cs => - (readDigits cs : Int)
  | '+' :: cs => readDigits cs
  | cs => readDigits cs

def strtol (s : String) : Int :=
  max (-2 ^ 63) (min (2 ^ 63 - 1) (readInt s))

def atoi (s : String) : CInt :=
  BitVec.ofInt 32 (strtol s)

example : (atoi " -42x").toInt = -42 ∧ (atoi "4294967396").toInt = 100 := by
  decide

/-- A number read from the command line, or the message printed when it is
below `least`. -/
def atoiFrom (least : Nat) (message s : String) :
    Except String { m : Nat // least ≤ m } :=
  if h : (atoi s).toInt < least then Except.error message
  else Except.ok ⟨(atoi s).toInt.toNat, by lia⟩

theorem atoiFrom_eq_ok_iff {least : Nat} {message s : String}
    {m : { m : Nat // least ≤ m }} :
    atoiFrom least message s = Except.ok m <-> (atoi s).toInt = m.val := by
  have hleast := m.property
  unfold atoiFrom
  constructor
  · intro h
    split at h
    · cases h
    · cases h
      lia
  · intro h
    have hge : ¬ (atoi s).toInt < least := by lia
    rw [dif_neg hge]
    congr
    lia

theorem checks_eq_ok_iff {α : Type u} {β : Type v} {x : Except String α}
    {f : α -> Except String β} {b : β} :
    x.bind f = Except.ok b <->
      exists a, x = Except.ok a ∧ f a = Except.ok b := by
  cases x with
  | error message => simp [Except.bind]
  | ok a => simp [Except.bind]

end Foundation
end IPPD
