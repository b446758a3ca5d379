import IPPD.Foundation.Bracketing
import IPPD.HPL.Broadcast
import Mathlib.Data.Finset.Fold
import Mathlib.Order.Bounds.Basic

/-!
# Reduction

`HPL_reduce` combines the buffers of all processes in the root, over the same
hypercube as the broadcast and in the opposite order, and `HPL_all_reduce`
broadcasts the result.
-/

namespace IPPD
namespace HPL

open Foundation
open Foundation.Communicator (Sync Delivers Meet Accepts)

variable {value : Type u} {n : Nat}

/-!
## The programs
-/

/-- The number of rounds after the loop `while( i > 1 ) { i >>= 1; d++; }`. -/
def rounds (i d : Nat) : Nat :=
  if 1 < i then rounds (i >>> 1) (d + 1) else d
termination_by i
decreasing_by
  rw [Nat.shiftRight_one]
  lia

section Programs

variable (op : value -> value -> value) (root size : Int)

/-- The loop of the process that accumulates.  It receives in every round; the
number of rounds is at least one. -/
def reduceRoot : Nat -> Nat -> value -> Program value value
  | 0, _, buffer => Program.ret buffer
  | d + 1, ip2, buffer =>
      Program.recv (mModAdd root ip2 size) fun received =>
        reduceRoot d (ip2 <<< 1) (op received buffer)

/-- The loop of the other processes. -/
def reduceOther (mydist : Nat) : Nat -> Nat -> Nat -> value ->
    Program value value
  | 0, _, _, buffer => Program.ret buffer
  | d + 1, ip2, mask, buffer =>
      let next := reduceOther mydist d (ip2 <<< 1) (mask ^^^ ip2)
      if mydist &&& mask = 0 then
        let partner := mydist ^^^ ip2
        if mydist &&& ip2 ≠ 0 then
          Program.send (mModAdd root partner size) buffer (next buffer)
        else if partner < size then
          Program.recv (mModAdd root partner size) fun received =>
            next (op received buffer)
        else next buffer
      else next buffer

def reduce (buffer : value) (count rank : Int) : Program value value :=
  if count ≤ 0 then Program.ret buffer
  else if size = 1 then Program.ret buffer
  else
    let d := rounds (size - 1).toNat 1
    let mydist := mModSub rank root size
    if mydist = 0 then reduceRoot op root size d 1 buffer
    else reduceOther op root size mydist.toNat d 1 0 buffer

end Programs

def allReduce (op : value -> value -> value) (buffer : value)
    (count size rank : Int) : Program value value :=
  (reduce op 0 size buffer count rank).bind fun buffer =>
    broadcast buffer count 0 size rank

/-!
## The rounds
-/

theorem rounds_eq (i d : Nat) : rounds i d = d + Nat.log2 i := by
  induction i using Nat.strongRecOn generalizing d with
  | _ i ih =>
      by_cases hi : 1 < i
      · rw [rounds, if_pos hi, ih _ (Hypercube.halved_lt hi),
          ← Hypercube.log2_halved hi]
        lia
      · rw [rounds, if_neg hi, Hypercube.log2_of_le_one hi]
        rfl

/-- The root needs no test of its partner: in all its rounds there is one. -/
theorem reduceRoot_eq (op : value -> value -> value) (root : Int) {n : Nat}
    (d : Nat) {k : Nat} (h : d = 0 ∨ 2 ^ (k + d - 1) < n) (buffer : value) :
    reduceRoot op root n d (2 ^ k) buffer =
      reduceOther op root n 0 d (2 ^ k) (2 ^ k - 1) buffer := by
  induction d generalizing k buffer with
  | zero => rfl
  | succ d ih =>
      have hroom : 2 ^ (k + d) < n := by
        simpa using h
      have hle : 2 ^ k ≤ 2 ^ (k + d) := Nat.pow_le_pow_right (by lia) (by lia)
      have hpartner : ((2 ^ k : Nat) : Int) < n := by
        exact_mod_cast hle.trans_lt hroom
      have hrest : d = 0 ∨ 2 ^ (k + 1 + d - 1) < n := by
        right
        rw [show k + 1 + d - 1 = k + d by lia]
        exact hroom
      rw [reduceRoot, reduceOther]
      simp only [Nat.zero_and, Nat.zero_xor, if_true, ne_eq, not_true_eq_false,
        if_false, hpartner, Hypercube.two_pow_shiftLeft, Hypercube.mask_xor_succ,
        ih hrest]

/-- What is in the buffer of a process before the round across dimension `k`. -/
def combined (op : value -> value -> value) (root : Fin n)
    (buffer : Fin n -> value) : Nat -> Fin n -> value
  | 0, r => buffer r
  | k + 1, r =>
      if distance root r % 2 ^ (k + 1) = 0 ∧ distance root r + 2 ^ k < n then
        op (combined op root buffer k (across root k r))
          (combined op root buffer k r)
      else combined op root buffer k r

theorem reduceOther_succ (op : value -> value -> value) (root size : Int)
    (mydist j k : Nat) (buffer : value) :
    reduceOther op root size mydist (j + 1) (2 ^ k) (2 ^ k - 1) buffer =
      if mydist % 2 ^ k = 0 then
        if mydist &&& 2 ^ k ≠ 0 then
          Program.send (mModAdd root ((mydist ^^^ 2 ^ k : Nat) : Int) size) buffer
            (reduceOther op root size mydist j (2 ^ (k + 1)) (2 ^ (k + 1) - 1)
              buffer)
        else if ((mydist ^^^ 2 ^ k : Nat) : Int) < size then
          Program.recv (mModAdd root ((mydist ^^^ 2 ^ k : Nat) : Int) size)
            fun received =>
              reduceOther op root size mydist j (2 ^ (k + 1)) (2 ^ (k + 1) - 1)
                (op received buffer)
        else reduceOther op root size mydist j (2 ^ (k + 1)) (2 ^ (k + 1) - 1)
          buffer
      else reduceOther op root size mydist j (2 ^ (k + 1)) (2 ^ (k + 1) - 1)
        buffer := by
  rw [reduceOther]
  simp only [Hypercube.mask_xor_succ, Hypercube.two_pow_shiftLeft,
    Nat.and_two_pow_sub_one_eq_mod]

theorem sync_reduce_round (op : value -> value -> value) (root : Fin n)
    (buffer : Fin n -> value) (j k : Nat) :
    Sync
      (fun r => reduceOther op root n (distance root r) (j + 1) (2 ^ k)
        (2 ^ k - 1) (combined op root buffer k r))
      fun r => reduceOther op root n (distance root r) j (2 ^ (k + 1))
        (2 ^ (k + 1) - 1) (combined op root buffer (k + 1) r) := by
  apply sync_corners root k
  · intro r q h
    have hr : combined op root buffer (k + 1) r =
        op (combined op root buffer k q) (combined op root buffer k r) := by
      have hlt : distance root r + 2 ^ k < n := h.next ▸ distance_lt root q
      have hq : across root k r = q := by
        apply distance_injective root
        rw [distance_across hlt, h.next]
      rw [combined, if_pos ⟨h.low, hlt⟩, hq]
    have hq : combined op root buffer (k + 1) q = combined op root buffer k q := by
      rw [combined, if_neg]
      intro hcorner
      exact (Nat.two_pow_pos k).ne' (h.high.symm.trans hcorner.left)
    rw [reduceOther_succ, reduceOther_succ, h.up, h.down,
      if_pos h.partner_lt, if_pos h.low_zero, if_pos h.high_zero,
      if_neg (not_not.mpr (Hypercube.land_eq_zero h.low)),
      if_pos (Hypercube.land_ne_zero h.high), hr, hq]
    exact Meet.recv (Accepts.recv _)
  · intro q hlow hlast
    have hroom : ¬ ((distance root q ^^^ 2 ^ k : Nat) : Int) < n := by
      rw [Hypercube.xor_lower hlow]
      exact_mod_cast Nat.not_lt.mpr hlast
    rw [reduceOther_succ, if_pos (Hypercube.mod_two_pow_of_succ hlow),
      if_neg (not_not.mpr (Hypercube.land_eq_zero hlow)), if_neg hroom,
      combined, if_neg fun h => absurd h.right (Nat.not_lt.mpr hlast)]
  · intro q hinner
    rw [reduceOther_succ, if_neg hinner, combined,
      if_neg fun h => hinner (Hypercube.mod_two_pow_of_succ h.left)]

theorem sync_reduce_rounds (op : value -> value -> value) (root : Fin n)
    (buffer : Fin n -> value) (j k : Nat) :
    Sync
      (fun r => reduceOther op root n (distance root r) j (2 ^ k) (2 ^ k - 1)
        (combined op root buffer k r))
      fun r => Program.ret (combined op root buffer (k + j) r) := by
  induction j generalizing k with
  | zero => exact Sync.refl _
  | succ j ih =>
      have h := ih (k + 1)
      rw [Nat.add_right_comm] at h
      exact (sync_reduce_round op root buffer j k).trans h

/-!
## The order of the operations

Who combines with whom depends on the ranks alone, so every operation combines
the buffers in the brackets of one tree.
-/

theorem combined_map {value' : Type w} {op : value -> value -> value}
    {op' : value' -> value' -> value'} {f : value -> value'}
    (hf : forall a b, f (op a b) = op' (f a) (f b)) (root : Fin n)
    (buffer : Fin n -> value) (k : Nat) (r : Fin n) :
    f (combined op root buffer k r) =
      combined op' root (fun r => f (buffer r)) k r := by
  induction k generalizing r with
  | zero => rfl
  | succ k ih =>
      rw [combined, combined, apply_ite f, hf, ih, ih]

/-- The processes in the order in which their buffers are combined in `r`. -/
theorem combined_append (root : Fin n) {k : Nat} {r : Fin n}
    (hr : distance root r % 2 ^ k = 0) :
    (combined (fun received buffer => buffer ++ received) root (fun r => [r]) k
        r).map (distance root) =
      List.range' (distance root r) (min (2 ^ k) (n - distance root r)) := by
  induction k generalizing r with
  | zero =>
      have hlt := distance_lt root r
      have hone : min (2 ^ 0) (n - distance root r) = 1 := by
        rw [Nat.pow_zero]
        lia
      rw [hone]
      rfl
  | succ k ih =>
      have hpow : 2 ^ (k + 1) = 2 ^ k + 2 ^ k := by
        rw [Nat.pow_succ]
        lia
      have hr' := Hypercube.mod_two_pow_of_succ hr
      by_cases hroom : distance root r + 2 ^ k < n
      · have hq : Corners root k r (across root k r) :=
          ⟨hr, distance_across hroom⟩
        have hfull : min (2 ^ k) (n - distance root r) = 2 ^ k := by lia
        have hsplit : min (2 ^ (k + 1)) (n - distance root r) =
            2 ^ k + min (2 ^ k) (n - (distance root r + 2 ^ k)) := by lia
        rw [combined, if_pos ⟨hr, hroom⟩, List.map_append, ih hr',
          ih hq.high_zero, hq.next, hfull, hsplit, List.range'_append_1]
      · have hsame : min (2 ^ (k + 1)) (n - distance root r) =
            min (2 ^ k) (n - distance root r) := by lia
        rw [combined, if_neg fun h => hroom h.right, ih hr', hsame]

/-!
## What the root gets
-/

/-- The processes whose buffers are combined in `r` before the round across
dimension `k`. -/
def block (root : Fin n) (k : Nat) (r : Fin n) : Finset (Fin n) :=
  Finset.univ.filter fun q =>
    distance root r ≤ distance root q ∧ distance root q < distance root r + 2 ^ k

theorem mem_block {root r q : Fin n} {k : Nat} :
    q ∈ block root k r <->
      distance root r ≤ distance root q ∧
        distance root q < distance root r + 2 ^ k := by
  simp [block]

section Fold

variable (op : value -> value -> value)
variable [Std.Commutative op] [Std.Associative op]

theorem fold_op_left (a b : value) (f : Fin n -> value) (s : Finset (Fin n)) :
    s.fold op (op a b) f = op a (s.fold op b f) := by
  have hassoc : forall x y z, op (op x y) z = op x (op y z) :=
    Std.Associative.assoc
  have hcomm : forall x y, op x y = op y x := Std.Commutative.comm
  induction s using Finset.induction with
  | empty => rfl
  | insert x s hx ih =>
      rw [Finset.fold_insert hx, Finset.fold_insert hx, ih, ← hassoc, ← hassoc,
        hcomm (f x) a]

theorem block_succ {root r q : Fin n} {k : Nat} (h : Corners root k r q) :
    exists hdisj,
      (block root (k + 1) r).erase r =
        insert q (((block root k q).erase q).disjUnion
          ((block root k r).erase r) hdisj) := by
  have hnext := h.next
  have hpow : 2 ^ (k + 1) = 2 ^ k + 2 ^ k := by
    rw [Nat.pow_succ]
    lia
  have hdisj : Disjoint ((block root k q).erase q)
      ((block root k r).erase r) := by
    rw [Finset.disjoint_left]
    intro x hx hx'
    have hlo := mem_block.mp (Finset.mem_of_mem_erase hx)
    have hhi := mem_block.mp (Finset.mem_of_mem_erase hx')
    lia
  refine ⟨hdisj, ?_⟩
  ext x
  have hrq : r ≠ q := by
    rintro rfl
    have hpos := Nat.two_pow_pos k
    lia
  by_cases hxq : x = q
  · subst hxq
    have hpos := Nat.two_pow_pos k
    simp [mem_block, hrq.symm, hnext, hpow, hpos]
  · have hne : x ≠ q := hxq
    simp only [Finset.mem_erase, Finset.mem_insert, Finset.mem_disjUnion,
      mem_block, hxq, false_or, hpow, hnext]
    constructor
    · intro hx
      by_cases hsplit : distance root x < distance root r + 2 ^ k
      · exact Or.inr ⟨hx.left, hx.right.left, hsplit⟩
      · exact Or.inl ⟨hne, Nat.le_of_not_lt hsplit, by lia⟩
    · intro hx
      rcases hx with hx | hx
      · have hxr : x ≠ r := by
          rintro rfl
          have hpos := Nat.two_pow_pos k
          lia
        exact ⟨hxr, by lia, by lia⟩
      · exact ⟨hx.left, hx.right.left, by lia⟩

theorem combined_eq_fold (root : Fin n) (buffer : Fin n -> value) {k : Nat}
    {r : Fin n} (hr : distance root r % 2 ^ k = 0) :
    combined op root buffer k r =
      ((block root k r).erase r).fold op (buffer r) buffer := by
  induction k generalizing r with
  | zero =>
      have hself : (block root 0 r).erase r = ∅ := by
        ext x
        simp only [Finset.mem_erase, mem_block, Finset.notMem_empty, iff_false]
        intro h
        exact h.left (distance_injective root (by lia))
      rw [hself]
      rfl
  | succ k ih =>
      have hr' := Hypercube.mod_two_pow_of_succ hr
      by_cases hroom : distance root r + 2 ^ k < n
      · have hq : Corners root k r (across root k r) :=
          ⟨hr, distance_across hroom⟩
        rcases block_succ hq with ⟨hdisj, hblock⟩
        have hnot : across root k r ∉ ((block root k (across root k r)).erase
            (across root k r)).disjUnion ((block root k r).erase r) hdisj := by
          have hnext := hq.next
          simp [mem_block, hnext]
        have hunion : (Finset.disjUnion _ _ hdisj).fold op
            (op (buffer (across root k r)) (buffer r)) buffer =
              op _ _ := Finset.fold_disjUnion hdisj
        rw [combined, if_pos ⟨hr, hroom⟩, ih hr', ih hq.high_zero, hblock,
          Finset.fold_insert hnot, ← hunion, fold_op_left]
      · have hsame : block root (k + 1) r = block root k r := by
          ext x
          have hx := distance_lt root x
          have hpow : 2 ^ (k + 1) = 2 ^ k + 2 ^ k := by
            rw [Nat.pow_succ]
            lia
          rw [mem_block, mem_block]
          lia
        rw [combined, if_neg fun h => hroom h.right, ih hr', hsame]

end Fold

/-!
## Every run
-/

/-- The number of rounds of a reduction. -/
def reduceRounds (n : Nat) : Nat :=
  Nat.log2 (n - 1) + 1

theorem le_two_pow_reduceRounds (n : Nat) : n ≤ 2 ^ reduceRounds n := by
  have hlog := Nat.lt_log2_self (n := n - 1)
  rw [reduceRounds]
  lia

/-- What `HPL_reduce` leaves in the buffer of a process. -/
def reduceResult (op : value -> value -> value) (buffer : Fin n -> value)
    (count : Int) (root r : Fin n) : value :=
  if 0 < count ∧ 1 < n then combined op root buffer (reduceRounds n) r
  else buffer r

theorem reduce_eq (op : value -> value -> value) (buffer : value) {count : Int}
    (hcount : 0 < count) (hn : 1 < n) (root r : Fin n) :
    reduce op root n buffer count r =
      reduceOther op root n (distance root r) (reduceRounds n) (2 ^ 0)
        (2 ^ 0 - 1) buffer := by
  have hcount' : ¬ count ≤ 0 := by lia
  have hsize : (n : Int) ≠ 1 := by lia
  have hd : rounds ((n : Int) - 1).toNat 1 = reduceRounds n := by
    have hpred : ((n : Int) - 1).toNat = n - 1 := by lia
    rw [rounds_eq, hpred, reduceRounds, Nat.add_comm]
  rw [reduce, if_neg hcount', if_neg hsize, hd, mModSub_eq_distance]
  by_cases hr : distance root r = 0
  · have hroom : 2 ^ (0 + reduceRounds n - 1) < n := by
      have hlog := Nat.log2_self_le (n := n - 1) (by lia)
      rw [reduceRounds, Nat.zero_add, Nat.add_sub_cancel]
      lia
    simp only [hr, Int.ofNat_zero, if_true]
    exact reduceRoot_eq op root (reduceRounds n) (k := 0) (Or.inr hroom) buffer
  · have hr' : (distance root r : Int) ≠ 0 := by exact_mod_cast hr
    simp only [hr', if_false, Int.toNat_natCast]
    rfl

theorem sync_reduce (op : value -> value -> value) (buffer : Fin n -> value)
    (count : Int) (root : Fin n) :
    Sync (fun r : Fin n => reduce op root n (buffer r) count r)
      fun r => Program.ret (reduceResult op buffer count root r) := by
  by_cases h : 0 < count ∧ 1 < n
  · simp only [reduceResult, h, and_self, if_true,
      reduce_eq op _ h.left h.right root]
    have hrounds := sync_reduce_rounds op root buffer (reduceRounds n) 0
    rw [Nat.zero_add] at hrounds
    exact hrounds
  · have hnone : (fun r : Fin n => reduce op root n (buffer r) count r) =
        fun r => Program.ret (reduceResult op buffer count root r) := by
      funext r
      have hpos := root.pos
      by_cases hcount : count ≤ 0
      · simp [reduce, reduceResult, h, hcount]
      · have hsize : (n : Int) = 1 := by lia
        simp [reduce, reduceResult, h, hsize]
    rw [hnone]
    exact Sync.refl _

theorem reduceResult_root (op : value -> value -> value)
    (buffer : Fin n -> value) {count : Int} (hcount : 0 < count)
    (root : Fin n) :
    reduceResult op buffer count root root =
      combined op root buffer (reduceRounds n) root := by
  by_cases hn : 1 < n
  · rw [reduceResult, if_pos ⟨hcount, hn⟩]
  · have hrounds : reduceRounds n = 1 := by
      rw [reduceRounds, Hypercube.log2_of_le_one (by lia)]
    have hroom : ¬ distance root root + 2 ^ 0 < n := by
      rw [distance_self]
      lia
    rw [reduceResult, if_neg fun h => hn h.right, hrounds, combined,
      if_neg fun h => hroom h.right]
    rfl

section Total

variable (op : value -> value -> value)
variable [Std.Commutative op] [Std.Associative op]

/-- The buffers of all processes combined. -/
def total (buffer : Fin n -> value) (root : Fin n) : value :=
  (Finset.univ.erase root).fold op (buffer root) buffer

theorem combined_eq_total (buffer : Fin n -> value) (root : Fin n) :
    combined op root buffer (reduceRounds n) root = total op buffer root := by
  have hroot : distance root root % 2 ^ reduceRounds n = 0 := by simp
  have hall : block root (reduceRounds n) root = Finset.univ := by
    ext x
    have hx := (distance_lt root x).trans_le (le_two_pow_reduceRounds n)
    simp [mem_block, hx]
  rw [combined_eq_fold op root buffer hroot, hall]
  rfl

/-- Whatever the order of the steps, `HPL_reduce` returns in every process, and
in the root with the buffers of all processes combined. -/
theorem reduce_delivers (buffer : Fin n -> value) {count : Int}
    (hcount : 0 < count) (root : Fin n) :
    exists res,
      Delivers (fun r : Fin n => reduce op root n (buffer r) count r) res ∧
        res root = total op buffer root := by
  refine ⟨_, (sync_reduce op buffer count root).delivers, ?_⟩
  rw [reduceResult_root op buffer hcount, combined_eq_total]

theorem reduce_delivers_max :
    exists res,
      Delivers (fun r : Fin 3 => reduce (fun a b : Nat => max a b) (1 : Fin 3) 3
        (r : Nat) 1 r) res ∧ res 1 = total max (fun r : Fin 3 => (r : Nat)) 1 :=
  reduce_delivers max (fun r : Fin 3 => (r : Nat)) Int.one_pos 1

end Total

/-- What process 0 has after the reduction of `HPL_all_reduce`. -/
def reduced (op : value -> value -> value) (buffer : Fin (n + 1) -> value) :
    value :=
  combined op 0 buffer (reduceRounds (n + 1)) 0

theorem sync_allReduce (op : value -> value -> value)
    (buffer : Fin (n + 1) -> value) {count : Int} (hcount : 0 < count) :
    Sync (fun r : Fin (n + 1) => allReduce op (buffer r) count (n + 1 : Nat) r)
      fun _ => Program.ret (reduced op buffer) := by
  have hreduce := (sync_reduce op buffer count 0).bind
    fun r buffer => broadcast buffer count 0 (n + 1 : Nat) r
  have hcast := sync_broadcast (reduceResult op buffer count 0) count 0
  simp only [broadcastResult, hcount, if_true,
    reduceResult_root op buffer hcount] at hcast
  exact hreduce.trans hcast

/-- The processes from the root on, bracketed as `HPL_all_reduce` combines
their buffers. -/
def bracketing (n : Nat) : FreeAddMagma (Fin (n + 1)) :=
  reduced (fun received buffer => buffer + received) FreeAddMagma.of

theorem summands_bracketing (n : Nat) :
    Bracketing.summands (bracketing n) = List.finRange (n + 1) := by
  have hmap : Bracketing.summands (bracketing n) =
      combined (fun received buffer => buffer ++ received) (0 : Fin (n + 1))
        (fun r => [r]) (reduceRounds (n + 1)) 0 :=
    combined_map (fun a b => Bracketing.summands_add b a) 0 FreeAddMagma.of
      (reduceRounds (n + 1)) 0
  have hdist : distance (0 : Fin (n + 1)) = Fin.val := by
    funext r
    have hpos : ¬ ((r : Nat) : Int) < 0 := by lia
    simp [distance, mModSub, hpos]
  have hroot : distance (0 : Fin (n + 1)) 0 % 2 ^ reduceRounds (n + 1) = 0 := by
    simp
  have horder := combined_append 0 hroot
  have hall := le_two_pow_reduceRounds (n + 1)
  rw [← hmap, distance_self, Nat.sub_zero, Nat.min_eq_right hall, hdist] at horder
  apply List.map_injective_iff.mpr Fin.val_injective
  rw [horder, List.map_coe_finRange_eq_range, List.range_eq_range']

/-!
## The operations
-/

section Operations

variable {α : Type u} {m : Nat}

def hplMax [LT α] [DecidableLT α] (a b : Fin m -> α) : Fin m -> α :=
  fun i => if a i > b i then a i else b i

def hplMin [LT α] [DecidableLT α] (a b : Fin m -> α) : Fin m -> α :=
  fun i => if a i < b i then a i else b i

/-- The entries are of type `int`, with the addition of `CInt`, or `double`, whose
addition is not associative. -/
def hplSum [Add α] (a b : Fin m -> α) : Fin m -> α :=
  fun i => b i + a i

theorem hplMax_apply [LinearOrder α] (a b : Fin m -> α) (i : Fin m) :
    hplMax a b i = max (a i) (b i) := by
  unfold hplMax
  split
  · rename_i h
    exact (max_eq_left_of_lt h).symm
  · rename_i h
    exact (max_eq_right (not_lt.mp h)).symm

theorem hplMin_apply [LinearOrder α] (a b : Fin m -> α) (i : Fin m) :
    hplMin a b i = min (a i) (b i) := by
  unfold hplMin
  split
  · rename_i h
    exact (min_eq_left_of_lt h).symm
  · rename_i h
    exact (min_eq_right (not_lt.mp h)).symm

instance [LinearOrder α] : Std.Commutative (hplMax (α := α) (m := m)) where
  comm a b := by
    funext i
    simp [hplMax_apply, max_comm]

instance [LinearOrder α] : Std.Associative (hplMax (α := α) (m := m)) where
  assoc a b c := by
    funext i
    simp [hplMax_apply, max_assoc]

instance [LinearOrder α] : Std.Commutative (hplMin (α := α) (m := m)) where
  comm a b := by
    funext i
    simp [hplMin_apply, min_comm]

instance [LinearOrder α] : Std.Associative (hplMin (α := α) (m := m)) where
  assoc a b c := by
    funext i
    simp [hplMin_apply, min_assoc]

theorem reduced_hplSum [Add α] (buffer : Fin (n + 1) -> Fin m -> α)
    (i : Fin m) :
    reduced hplSum buffer i =
      FreeAddMagma.lift (fun r => buffer r i) (bracketing n) := by
  let add := fun received buffer : α => buffer + received
  let k := reduceRounds (n + 1)
  have hentry : combined hplSum 0 buffer k 0 i =
      combined add 0 (fun r => buffer r i) k 0 :=
    combined_map (f := fun a : Fin m -> α => a i) (fun _ _ => rfl) 0 buffer k 0
  have hlift : FreeAddMagma.lift (fun r => buffer r i) (bracketing n) =
      combined add 0 (fun r => buffer r i) k 0 :=
    combined_map (fun a b => map_add _ b a) 0 FreeAddMagma.of k 0
  exact hentry.trans hlift.symm

theorem total_apply {op : (Fin m -> α) -> (Fin m -> α) -> Fin m -> α}
    {op' : α -> α -> α} [Std.Commutative op] [Std.Associative op]
    [Std.Commutative op'] [Std.Associative op']
    (hop : forall a b i, op a b i = op' (a i) (b i))
    (buffer : Fin n -> Fin m -> α) (root : Fin n) (i : Fin m) :
    total op buffer root i = total op' (fun r => buffer r i) root :=
  (Finset.fold_hom (m := fun a : Fin m -> α => a i) fun a b => hop a b i).symm

theorem total_max_isGreatest [LinearOrder α] (buffer : Fin n -> α)
    (root : Fin n) : IsGreatest (Set.range buffer) (total max buffer root) := by
  have hup : forall r, buffer r ≤ total max buffer root := by
    intro r
    apply (Finset.le_fold_max _).mpr
    by_cases hr : r = root
    · exact Or.inl (hr ▸ le_rfl)
    · exact Or.inr ⟨r, Finset.mem_erase.mpr ⟨hr, Finset.mem_univ r⟩, le_rfl⟩
  constructor
  · rcases (Finset.le_fold_max _).mp (le_refl (total max buffer root)) with
      hroot | ⟨r, _, hr⟩
    · exact ⟨root, le_antisymm (hup root) hroot⟩
    · exact ⟨r, le_antisymm (hup r) hr⟩
  · rintro x ⟨r, rfl⟩
    exact hup r

theorem sync_allReduce_all (op : (Fin m -> α) -> (Fin m -> α) -> Fin m -> α)
    (buffer : Fin (n + 1) -> Fin m -> α) :
    Sync (fun r : Fin (n + 1) => allReduce op (buffer r) m (n + 1 : Nat) r)
      fun _ => Program.ret (reduced op buffer) := by
  cases m with
  | zero =>
      have hnone : (fun r : Fin (n + 1) =>
          allReduce op (buffer r) (0 : Nat) (n + 1 : Nat) r) =
            fun _ => Program.ret (reduced op buffer) := by
        funext r
        simp [allReduce, reduce, broadcast, Program.bind,
          Subsingleton.elim (buffer r) (reduced op buffer)]
      rw [hnone]
      exact Sync.refl _
  | succ m => exact sync_allReduce op buffer (by lia)

theorem delivers_hplSum [Add α] (buffer : Fin (n + 1) -> Fin m -> α) :
    Delivers (fun r : Fin (n + 1) =>
      allReduce hplSum (buffer r) m (n + 1 : Nat) r)
        fun _ i => FreeAddMagma.lift (fun r => buffer r i) (bracketing n) := by
  have h := (sync_allReduce_all hplSum buffer).delivers
  rw [show reduced hplSum buffer = _ from funext (reduced_hplSum buffer)] at h
  exact h

end Operations

end HPL
end IPPD
