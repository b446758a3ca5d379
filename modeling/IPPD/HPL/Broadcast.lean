import IPPD.HPL.Grid

/-!
# Broadcast and barrier

`HPL_broadcast` spreads a message over a hypercube of processes, the highest
dimension first.  The distance of a process from the root tells whether it
receives, sends or does nothing in a round.  The MPI calls succeed, so that the
functions return the buffer and no error code.
-/

namespace IPPD
namespace HPL

open Foundation
open Foundation.Communicator (Sync Delivers Meet Accepts)

variable {value : Type u} {n : Nat}

/-!
## The program
-/

/-- The power of two and the mask after the loop
`while( kk > 1 ) { kk >>= 1; ip2 <<= 1; mask <<= 1; mask++; }`. -/
def halving (kk ip2 mask : Nat) : Nat × Nat :=
  if 1 < kk then halving (kk >>> 1) (ip2 <<< 1) ((mask <<< 1) + 1)
  else (ip2, mask)
termination_by kk
decreasing_by
  rw [Nat.shiftRight_one]
  lia

/-- The loop on the `size` processes from the root on, out of `nprocs`. -/
def broadcastLoop (root nprocs size : Int) (mydist ip2 mask : Nat)
    (buffer : value) : Program value value :=
  let mask := mask ^^^ ip2
  let next := fun buffer =>
    if ip2 >>> 1 = 0 then Program.ret buffer
    else broadcastLoop root nprocs size mydist (ip2 >>> 1) mask buffer
  if mydist &&& mask = 0 then
    let partner := mydist ^^^ ip2
    if mydist &&& ip2 ≠ 0 then
      Program.recv (mModAdd root partner nprocs) next
    else if partner < size then
      Program.send (mModAdd root partner nprocs) buffer (next buffer)
    else next buffer
  else next buffer
termination_by ip2
decreasing_by
  rw [Nat.shiftRight_one] at *
  lia

def broadcast (buffer : value) (count root size rank : Int) :
    Program value value :=
  if count ≤ 0 then Program.ret buffer
  else if size ≤ 1 then Program.ret buffer
  else
    let masks := halving (size - 1).toNat 1 1
    let mydist := (mModSub rank root size).toNat
    broadcastLoop root size size mydist masks.1 masks.2 buffer

/-- Broadcasts the value of `i` in process 0. -/
def barrier (size rank : Int) : Program Int Int :=
  broadcast 0 1 0 size rank

/-!
## One round
-/

/-- The loop ends with the greatest power of two up to `kk` and the mask of all
bits up to it. -/
theorem halving_eq (kk j : Nat) :
    halving kk (2 ^ j) (2 ^ (j + 1) - 1) =
      (2 ^ (j + Nat.log2 kk), 2 ^ (j + Nat.log2 kk + 1) - 1) := by
  induction kk using Nat.strongRecOn generalizing j with
  | _ kk ih =>
      by_cases hkk : 1 < kk
      · have hmask : ((2 ^ (j + 1) - 1) <<< 1) + 1 = 2 ^ (j + 1 + 1) - 1 := by
          have hpos : 0 < 2 ^ (j + 1) := Nat.two_pow_pos (j + 1)
          rw [Nat.shiftLeft_eq, Nat.pow_succ 2 (j + 1)]
          lia
        have hlog : j + 1 + Nat.log2 (kk >>> 1) = j + Nat.log2 kk := by
          rw [← Hypercube.log2_halved hkk]
          lia
        rw [halving, if_pos hkk, hmask, Hypercube.two_pow_shiftLeft,
          ih _ (Hypercube.halved_lt hkk) (j + 1), hlog]
      · rw [halving, if_neg hkk, Hypercube.log2_of_le_one hkk]
        rfl

/-- What is left of the loop when the rounds from `k` on are done. -/
def broadcastRest (root nprocs size : Int) (mydist : Nat) :
    Nat -> value -> Program value value
  | 0, buffer => Program.ret buffer
  | k + 1, buffer =>
      broadcastLoop root nprocs size mydist (2 ^ k) (2 ^ (k + 1) - 1) buffer

theorem broadcastRest_succ (root nprocs size : Int) (d k : Nat)
    (buffer : value) :
    broadcastRest root nprocs size d (k + 1) buffer =
      if d % 2 ^ k = 0 then
        if d &&& 2 ^ k ≠ 0 then
          Program.recv (mModAdd root ((d ^^^ 2 ^ k : Nat) : Int) nprocs)
            (broadcastRest root nprocs size d k)
        else if ((d ^^^ 2 ^ k : Nat) : Int) < size then
          Program.send (mModAdd root ((d ^^^ 2 ^ k : Nat) : Int) nprocs) buffer
            (broadcastRest root nprocs size d k buffer)
        else broadcastRest root nprocs size d k buffer
      else broadcastRest root nprocs size d k buffer := by
  have hnext : forall buffer : value,
      (if 2 ^ k >>> 1 = 0 then Program.ret buffer
      else broadcastLoop root nprocs size d (2 ^ k >>> 1) (2 ^ k - 1) buffer) =
        broadcastRest root nprocs size d k buffer := by
    intro buffer
    cases k with
    | zero => rfl
    | succ k =>
        have hpos : 2 ^ k ≠ 0 := (Nat.two_pow_pos k).ne'
        rw [Hypercube.two_pow_shiftRight, if_neg hpos]
        rfl
  rw [broadcastRest, broadcastLoop]
  simp only [Hypercube.mask_xor, hnext, Nat.and_two_pow_sub_one_eq_mod]

/-- The processes that have the message before the round across dimension `k`
have a distance that `2 ^ (k + 1)` divides. -/
def informed (root : Fin n) (buffer : Fin n -> value) (k : Nat) (r : Fin n) :
    value :=
  if distance root r % 2 ^ k = 0 then buffer root else buffer r

theorem informed_succ {root q : Fin n} {k : Nat} (buffer : Fin n -> value)
    (h : distance root q % 2 ^ k = 0 -> distance root q % 2 ^ (k + 1) = 0) :
    informed root buffer (k + 1) q = informed root buffer k q := by
  by_cases hk : distance root q % 2 ^ k = 0
  · simp [informed, hk, h hk]
  · have hk' : distance root q % 2 ^ (k + 1) ≠ 0 := fun h' =>
      hk (Hypercube.mod_two_pow_of_succ h')
    simp [informed, hk, hk']

/-- The programs of the first `size` processes, when the others have nothing to
do. -/
def broadcastCode (root : Fin n) (size : Nat) (buffer : Fin n -> value)
    (k : Nat) (r : Fin n) : Program value value :=
  if distance root r < size then
    broadcastRest root n size (distance root r) k (informed root buffer k r)
  else Program.ret (buffer r)

theorem sync_round (root : Fin n) {size : Nat} (hsize : size ≤ n)
    (buffer : Fin n -> value) (k : Nat) :
    Sync (broadcastCode root size buffer (k + 1))
      (broadcastCode root size buffer k) := by
  apply sync_corners_below root hsize k
  · intro r q h hq
    have hr : distance root r < size := by
      have hnext := h.next
      lia
    have hpartner : ((distance root r ^^^ 2 ^ k : Nat) : Int) < size := by
      rw [Hypercube.xor_lower h.low, ← h.next]
      exact_mod_cast hq
    simp only [broadcastCode, hr, hq, if_true]
    rw [broadcastRest_succ, broadcastRest_succ, h.up, h.down,
      if_pos hpartner,
      if_neg (not_not.mpr (Hypercube.land_eq_zero h.low)),
      if_pos (Hypercube.land_ne_zero h.high)]
    simp only [informed, h.low, h.low_zero, h.high_zero, if_true]
    exact Meet.send (Accepts.recv _)
  · intro q hlow hlast
    have hroom : ¬ ((distance root q ^^^ 2 ^ k : Nat) : Int) < size := by
      rw [Hypercube.xor_lower hlow]
      exact_mod_cast Nat.not_lt.mpr hlast
    rw [broadcastCode, broadcastCode, broadcastRest_succ,
      if_pos (Hypercube.mod_two_pow_of_succ hlow),
      if_neg (not_not.mpr (Hypercube.land_eq_zero hlow)), if_neg hroom,
      informed_succ buffer fun _ => hlow]
  · intro q hinner
    rw [broadcastCode, broadcastCode, broadcastRest_succ, if_neg hinner,
      informed_succ buffer fun h => absurd h hinner]
  · intro q hq
    rw [broadcastCode, broadcastCode, if_neg (Nat.not_lt.mpr hq),
      if_neg (Nat.not_lt.mpr hq)]

theorem sync_rounds (root : Fin n) {size : Nat} (hsize : size ≤ n)
    (buffer : Fin n -> value) (k : Nat) :
    Sync (broadcastCode root size buffer k) fun r =>
      Program.ret (if distance root r < size then buffer root else buffer r) := by
  induction k with
  | zero =>
      have hend : broadcastCode root size buffer 0 = fun r =>
          Program.ret (if distance root r < size then buffer root
            else buffer r) := by
        funext r
        unfold broadcastCode
        split <;> simp [broadcastRest, informed, Nat.mod_one]
      rw [hend]
      exact Sync.refl _
  | succ k ih => exact (sync_round root hsize buffer k).trans ih

theorem sync_broadcastLoop (root : Fin n) {size : Nat} (hsize : size ≤ n)
    (buffer : Fin n -> value) :
    Sync
      (fun r =>
        if distance root r < size then
          broadcastLoop root n size (distance root r)
            (halving (size - 1) 1 1).1 (halving (size - 1) 1 1).2 (buffer r)
        else Program.ret (buffer r))
      fun r =>
        Program.ret (if distance root r < size then buffer root
          else buffer r) := by
  have hmasks : halving (size - 1) 1 1 =
      (2 ^ Nat.log2 (size - 1), 2 ^ (Nat.log2 (size - 1) + 1) - 1) := by
    simpa using halving_eq (size - 1) 0
  have hstart : (fun r =>
      if distance root r < size then
        broadcastLoop root n size (distance root r)
          (halving (size - 1) 1 1).1 (halving (size - 1) 1 1).2 (buffer r)
      else Program.ret (buffer r)) =
        broadcastCode root size buffer (Nat.log2 (size - 1) + 1) := by
    funext r
    unfold broadcastCode
    by_cases hr : distance root r < size
    · have hlt : distance root r < 2 ^ (Nat.log2 (size - 1) + 1) := by
        have hlog := Nat.lt_log2_self (n := size - 1)
        lia
      have hown : informed root buffer (Nat.log2 (size - 1) + 1) r =
          buffer r := by
        rw [informed, Nat.mod_eq_of_lt hlt]
        by_cases hzero : distance root r = 0
        · rw [if_pos hzero, distance_eq_zero.mp hzero]
        · rw [if_neg hzero]
      rw [if_pos hr, if_pos hr, hmasks, hown, broadcastRest]
    · rw [if_neg hr, if_neg hr]
  rw [hstart]
  exact sync_rounds root hsize buffer _

/-!
## Every run
-/

/-- What `HPL_broadcast` leaves in the buffer of a process. -/
def broadcastResult (buffer : Fin n -> value) (count : Int) (root r : Fin n) :
    value :=
  if 0 < count then buffer root else buffer r

theorem broadcast_eq (buffer : value) {count : Int} (hcount : 0 < count)
    (hn : 1 < n) (root r : Fin n) :
    broadcast buffer count root n r =
      broadcastLoop root n n (distance root r) (halving (n - 1) 1 1).1
        (halving (n - 1) 1 1).2 buffer := by
  have hcount' : ¬ count ≤ 0 := by lia
  have hsize' : ¬ (n : Int) ≤ 1 := by lia
  have hpred : ((n : Int) - 1).toNat = n - 1 := by lia
  rw [broadcast, if_neg hcount', if_neg hsize', hpred]
  rfl

theorem sync_broadcast (buffer : Fin n -> value) (count : Int) (root : Fin n) :
    Sync (fun r : Fin n => broadcast (buffer r) count root n r)
      fun r => Program.ret (broadcastResult buffer count root r) := by
  by_cases hcount : 0 < count
  · simp only [broadcastResult, hcount, if_true]
    by_cases hn : 1 < n
    · simp only [broadcast_eq _ hcount hn root]
      simpa only [distance_lt, if_true] using
        sync_broadcastLoop root le_rfl buffer
    · have halone : (fun r : Fin n => broadcast (buffer r) count root n r) =
          fun _ => Program.ret (buffer root) := by
        funext r
        have hr : r = root := Fin.ext (by lia)
        have hn' : (n : Int) ≤ 1 := by lia
        simp [broadcast, Int.not_le.mpr hcount, hn', hr]
      rw [halone]
      exact Sync.refl _
  · have hnone : (fun r : Fin n => broadcast (buffer r) count root n r) =
        fun r => Program.ret (broadcastResult buffer count root r) := by
      funext r
      simp [broadcast, broadcastResult, hcount, Int.not_lt.mp hcount]
    rw [hnone]
    exact Sync.refl _

/-- Whatever the order of the steps and whichever sends are buffered, every
process returns the message of the root. -/
theorem broadcast_delivers (buffer : Fin n -> value) (count : Int)
    (root : Fin n) :
    Delivers (fun r : Fin n => broadcast (buffer r) count root n r)
      (broadcastResult buffer count root) :=
  (sync_broadcast buffer count root).delivers

/-!
## The barrier
-/

theorem broadcastRest_waits (root nprocs size : Int) {d k : Nat}
    (hd : d % 2 ^ k ≠ 0) (buffer : value) :
    exists source next,
      broadcastRest root nprocs size d k buffer = Program.recv source next := by
  induction k with
  | zero => exact absurd (Nat.mod_one d) hd
  | succ k ih =>
      rw [broadcastRest_succ]
      by_cases hk : d % 2 ^ k = 0
      · have hhigh := (Hypercube.mod_two_pow_succ hk).resolve_left hd
        rw [if_pos hk, if_pos (Hypercube.land_ne_zero hhigh)]
        exact ⟨_, _, rfl⟩
      · rw [if_neg hk]
        exact ih hk

/-- The root can send all its messages before anybody receives one. -/
theorem broadcastRest_root_run (root : Fin n) (buffer : value)
    (code : Fin n -> Program value value) (k : Nat)
    {s : Communicator.State value value n}
    (hcode : s.code root = broadcastRest root n n 0 k buffer)
    (hpending : s.pending root = none) :
    exists tr t, System.Run (Communicator.system code) s tr t ∧
      t.code = Function.update s.code root (Program.ret buffer) := by
  induction k generalizing s with
  | zero =>
      refine ⟨[], s, System.Run.nil s, ?_⟩
      rw [← show s.code root = Program.ret buffer from hcode,
        Function.update_eq_self]
  | succ k ih =>
      rw [broadcastRest_succ, if_pos (Nat.zero_mod _),
        if_neg (not_not.mpr (Nat.zero_and _)), Nat.zero_xor] at hcode
      by_cases hroom : 2 ^ k < n
      · have hroom' : ((2 ^ k : Nat) : Int) < n := by exact_mod_cast hroom
        have hdest := mModAdd_eq_atDistance root ⟨2 ^ k, hroom⟩
        rw [if_pos hroom', hdest] at hcode
        let e : Communicator.Effect value value n :=
          ⟨broadcastRest root n n 0 k buffer, none,
            Communicator.Change.push root (atDistance root ⟨2 ^ k, hroom⟩)
              buffer⟩
        have he : Communicator.effect s
            (Communicator.Action.send root false) = some e := by
          simp [Communicator.effect, hcode, hpending, Communicator.rankOf?_cast, e]
        rcases ih (s := e.apply root s) (Function.update_self _ _ _)
          (Function.update_self _ _ _) with ⟨tr, t, hrun, ht⟩
        refine ⟨_, t, System.Run.cons (Communicator.step_of_effect he) hrun, ?_⟩
        rw [ht]
        exact Function.update_idem _ _ _
      · have hroom' : ¬ ((2 ^ k : Nat) : Int) < n := by exact_mod_cast hroom
        rw [if_neg hroom'] at hcode
        exact ih hcode hpending

theorem barrier_eq (n : Nat) (r : Fin (n + 2)) :
    barrier (n + 2 : Nat) r =
      broadcastRest (0 : Fin (n + 2)) (n + 2 : Nat) (n + 2 : Nat) (distance 0 r)
        (Nat.log2 (n + 1) + 1) 0 := by
  have hcount : (0 : Int) < 1 := by lia
  have hn : 1 < n + 2 := by lia
  have hmasks : halving (n + 2 - 1) 1 1 =
      (2 ^ Nat.log2 (n + 1), 2 ^ (Nat.log2 (n + 1) + 1) - 1) := by
    simpa using halving_eq (n + 1) 0
  have h := broadcast_eq (0 : Int) hcount hn 0 r
  rw [hmasks] at h
  exact h

theorem barrier_blocked {n : Nat} {a : Communicator.Action (n + 1)}
    (ha : a.rank ≠ 0) {t : Communicator.State Int Int (n + 1)}
    (hstep : Communicator.step (Communicator.quiet fun r : Fin (n + 1) =>
      barrier (n + 1 : Nat) r) a = some t) :
    t = Communicator.quiet fun r : Fin (n + 1) => barrier (n + 1 : Nat) r := by
  cases n with
  | zero => exact absurd (Subsingleton.elim (α := Fin 1) _ _) ha
  | succ n =>
      have hlt : distance 0 a.rank < 2 ^ (Nat.log2 (n + 1) + 1) := by
        have hlog := Nat.lt_log2_self (n := n + 1)
        have hr := distance_lt 0 a.rank
        lia
      have hd : distance 0 a.rank % 2 ^ (Nat.log2 (n + 1) + 1) ≠ 0 := by
        rw [Nat.mod_eq_of_lt hlt]
        exact fun h => ha (distance_eq_zero.mp h)
      rcases Communicator.step_cases hstep with ⟨e, he, _⟩ | ⟨_, ht⟩
      · rcases broadcastRest_waits ((0 : Fin (n + 2)) : Int) (n + 2 : Nat)
          (n + 2 : Nat) hd (0 : Int) with ⟨source, next, hwait⟩
        have hnone : Communicator.effect (Communicator.quiet
            fun r : Fin (n + 2) => barrier (n + 2 : Nat) r) a = none :=
          Communicator.effect_quiet_recv ((barrier_eq n a.rank).trans hwait)
        cases hnone.symm.trans he
      · exact ht

theorem barrier_root_returns (n : Nat) :
    let code : Fin (n + 1) -> Program Int Int := fun r => barrier (n + 1 : Nat) r
    exists t, (Communicator.system code).Reachable t ∧
      t.code = Function.update code 0 (Program.ret 0) := by
  intro code
  cases n with
  | zero =>
      refine ⟨_, System.reachable_init rfl, ?_⟩
      funext r
      rw [Subsingleton.elim (α := Fin 1) r 0, Function.update_self]
      simp [Communicator.quiet, code, barrier, broadcast]
  | succ n =>
      have hroot := barrier_eq n 0
      rw [distance_self] at hroot
      rcases broadcastRest_root_run (s := Communicator.quiet code) 0 0 code _
        hroot rfl with ⟨tr, t, hrun, ht⟩
      exact ⟨t, ⟨_, tr, rfl, hrun⟩, ht⟩

/-- The barrier returns in every process.  But it does not hold process 0 back
until the others have entered it: they wait for process 0, and it can return
while all of them are still at their start. -/
theorem barrier_waits_for_root_only (n : Nat) :
    let code : Fin (n + 1) -> Program Int Int := fun r => barrier (n + 1 : Nat) r
    Delivers code (fun _ => 0) ∧
      (forall tr t, System.Run (Communicator.system code)
        (Communicator.quiet code) tr t ->
          (forall a, a ∈ tr -> a.rank ≠ 0) -> t = Communicator.quiet code) ∧
      exists t, (Communicator.system code).Reachable t ∧
        t.code 0 = Program.ret 0 ∧ forall r, r ≠ 0 -> t.code r = code r := by
  intro code
  refine ⟨?_, ?_, ?_⟩
  · exact broadcast_delivers (fun _ : Fin (n + 1) => (0 : Int)) 1 0
  · intro tr t hrun hothers
    induction tr with
    | nil =>
        cases hrun
        rfl
    | cons a tr ih =>
        cases hrun with
        | cons hstep hrest =>
            have hsame := barrier_blocked (hothers a List.mem_cons_self) hstep
            rw [hsame] at hrest
            exact ih hrest fun b hb => hothers b (List.mem_cons_of_mem a hb)
  · rcases barrier_root_returns n with ⟨t, hreach, ht⟩
    refine ⟨t, hreach, ?_, ?_⟩
    · rw [ht, Function.update_self]
    · intro r hr
      rw [ht, Function.update_of_ne hr]

end HPL
end IPPD
