import IPPD.HPL.Broadcast

/-!
# The long broadcast of the panel

The panel is cut into one piece for each process.  The root first spreads the
pieces over a hypercube, so that every process has at least its own.  Then the
pieces roll round the ring of the processes: in every step each process
exchanges one piece with its neighbour on one side, and with the neighbour on
the other side in the next step.
-/

namespace IPPD
namespace HPL

open Foundation
open Foundation.Communicator (Sync Delivers Meet Accepts)

variable {α : Type u} {n : Nat}

/-!
## The program
-/

/-- Some entries of the panel, as they are sent. -/
def entries (panel : Int -> α) (ibuf lbuf : Int) : List α :=
  (List.range lbuf.toNat).map fun i : Nat => panel (ibuf + i)

/-- The panel after the entries of a message have been received into it. -/
def store (panel : Int -> α) (ibuf lbuf : Int) (message : List α) : Int -> α :=
  fun j =>
    if ibuf ≤ j ∧ j < ibuf + lbuf then message.getD (j - ibuf).toNat (panel j)
    else panel j

section Programs

variable {result : Type v}

/-- Where there is no entry to send, an empty message is sent. -/
def message (panel : Int -> α) (ibuf lbuf : Int) : List α :=
  if lbuf > 0 then entries panel ibuf lbuf else []

def receive (partner : Int) (panel : Int -> α) (ibuf lbuf : Int)
    (next : (Int -> α) -> Program (List α) result) : Program (List α) result :=
  if lbuf > 0 then
    Program.recv partner fun m => next (store panel ibuf lbuf m)
  else Program.recv partner fun _ => next panel

variable (root size len count : Int) (mydist : Nat)

/-- Spread the panel across process columns, then go on with `roll`. -/
def blongSpread (roll : (Int -> α) -> Program (List α) result)
    (ip2 mask : Nat) (indx mydist2 : Int) (panel : Int -> α) :
    Program (List α) result :=
  let mask := mask ^^^ ip2
  let next := fun panel =>
    if ip2 >>> 1 = 0 then roll panel
    else if mydist2 < ip2 then
      blongSpread roll (ip2 >>> 1) mask (indx - (ip2 >>> 1 : Nat)) mydist2 panel
    else
      blongSpread roll (ip2 >>> 1) mask (indx + (ip2 >>> 1 : Nat))
        (mydist2 - ip2) panel
  if mydist &&& mask = 0 then
    let ibuf := indx * count
    let lbuf := len - ibuf
    let lbuf := if indx + ip2 < size then min lbuf (ip2 * count) else lbuf
    let partner := mydist ^^^ ip2
    if mydist &&& ip2 ≠ 0 then
      receive (mModAdd root partner size) panel ibuf lbuf next
    else if partner < size then
      Program.send (mModAdd root partner size) (message panel ibuf lbuf)
        (next panel)
    else next panel
  else next panel
termination_by ip2
decreasing_by
  all_goals
    rw [Nat.shiftRight_one] at *
    lia

/-- The number of entries of a piece. -/
def pieceLength (indx : Int) : Int :=
  let ibuf := indx * count
  let lbuf := if indx = size - 1 then len else ibuf + count
  max 0 (min len lbuf - ibuf)

/-- Roll the pieces. -/
def blongRoll (rank : Int) : Nat -> Nat -> (Int -> α) ->
    Program (List α) (Int -> α)
  | 0, _, panel => Program.ret panel
  | left + 1, k, panel =>
      let l : Nat := k >>> 1
      let prev := mModSub1 rank size
      let next := mModAdd1 rank size
      let odd := (mydist + k) &&& 1 ≠ 0
      let indS := if odd then mModAdd mydist l size else mModSub mydist l size
      let indR :=
        if odd then mModSub mydist (l + 1 : Nat) size
        else mModAdd mydist (l + 1 : Nat) size
      let partner := if odd then prev else next
      let lbufS := pieceLength size len count indS
      let lbufR := pieceLength size len count indR
      Program.isend partner (message panel (indS * count) lbufS)
        (receive partner panel (indR * count) lbufR fun panel =>
          Program.wait (blongRoll rank left (k + 1) panel))

end Programs

def bcastBlong (panel : Int -> α) (len root size rank : Int) :
    Program (List α) (Int -> α) :=
  if size ≤ 1 then Program.ret panel
  else
    let masks := halving (size - 1).toNat 1 1
    let mydist := mModSub rank root size
    let count := max (len.tdiv size) 1
    blongSpread root size len count mydist.toNat
      (blongRoll size len count mydist.toNat rank (size - 1).toNat 0)
      masks.1 masks.2 masks.1 mydist panel

/-!
## What a message carries
-/

/-- The panel `dst` with some entries of the panel `src`. -/
def transfer (src dst : Int -> α) (ibuf lbuf : Int) : Int -> α :=
  fun j => if ibuf ≤ j ∧ j < ibuf + lbuf then src j else dst j

def received (panel : Int -> α) (ibuf lbuf : Int) (m : List α) : Int -> α :=
  if lbuf > 0 then store panel ibuf lbuf m else panel

theorem receive_eq {result : Type v} (partner : Int) (panel : Int -> α)
    (ibuf lbuf : Int) (next : (Int -> α) -> Program (List α) result) :
    receive partner panel ibuf lbuf next =
      Program.recv partner fun m => next (received panel ibuf lbuf m) := by
  unfold receive received
  split <;> rfl

theorem received_message (src dst : Int -> α) (ibuf lbuf : Int) :
    received dst ibuf lbuf (message src ibuf lbuf) =
      transfer src dst ibuf lbuf := by
  funext j
  unfold received message transfer
  by_cases hl : lbuf > 0
  · rw [if_pos hl, if_pos hl]
    unfold store
    by_cases hj : ibuf ≤ j ∧ j < ibuf + lbuf
    · have hlt : (j - ibuf).toNat < lbuf.toNat := by omega
      have hback : ibuf + ((j - ibuf).toNat : Int) = j := by omega
      rw [if_pos hj, if_pos hj, entries, List.getD_eq_getElem?_getD,
        List.getElem?_map, List.getElem?_range hlt, Option.map_some, hback]
      rfl
    · rw [if_neg hj, if_neg hj]
  · rw [if_neg hl, if_neg (by omega)]

section Pieces

variable (n : Nat) (len count : Int)

/-- The entries of a piece.  The last one has all that are left. -/
def InPiece (p : Nat) (j : Int) : Prop :=
  p * count ≤ j ∧ j < len ∧ (p + 1 = n ∨ j < (p + 1 : Nat) * count)

/-- A process has a piece of the panel `x`. -/
def Knows (x panel : Int -> α) (p : Nat) : Prop :=
  forall j, InPiece n len count p j -> panel j = x j

variable {n len count}

theorem inPiece_iff {p : Nat} {j : Int} :
    InPiece n len count p j <->
      p * count ≤ j ∧ j < p * count + pieceLength n len count p := by
  have hnext : ((p + 1 : Nat) : Int) * count = p * count + count := by
    push_cast
    ring
  unfold InPiece pieceLength
  rw [hnext]
  generalize (p : Int) * count = a
  by_cases hp : p + 1 = n
  · have hp' : (p : Int) = n - 1 := by omega
    simp only [hp, hp', if_true, true_or, and_true]
    omega
  · have hp' : ¬ (p : Int) = n - 1 := by omega
    simp only [hp, hp', if_false, false_or]
    omega

theorem knows_transfer {x src dst : Int -> α} {p q : Nat}
    (hsrc : Knows n len count x src p) (hdst : q = p ∨ Knows n len count x dst q) :
    Knows n len count x
      (transfer src dst (p * count) (pieceLength n len count p)) q := by
  intro j hj
  unfold transfer
  by_cases hp : InPiece n len count p j
  · rw [if_pos (inPiece_iff.mp hp)]
    exact hsrc j hp
  · rw [if_neg (mt inPiece_iff.mpr hp)]
    rcases hdst with rfl | hdst
    · exact absurd hj hp
    · exact hdst j hj

end Pieces

/-!
## Spreading the pieces
-/

section Spread

variable {result : Type v} (root size len count : Int) (mydist : Nat)
variable (roll : (Int -> α) -> Program (List α) result)

/-- What is left of the loop when the rounds from `k` on are done.  The index is
that of the pieces that are sent across dimension `k - 1`. -/
def spreadRest : Nat -> (Int -> α) -> Program (List α) result
  | 0, panel => roll panel
  | k + 1, panel =>
      blongSpread root size len count mydist roll (2 ^ k) (2 ^ (k + 1) - 1)
        ((mydist - mydist % 2 ^ (k + 1) + 2 ^ k : Nat) : Int)
        ((mydist % 2 ^ (k + 1) : Nat) : Int) panel

/-- The number of entries that are sent across dimension `k` from index `d`
on. -/
def spreadLength (k d : Nat) : Int :=
  if (d : Int) + (2 ^ k : Nat) < size then
    min (len - d * count) ((2 ^ k : Nat) * count)
  else len - d * count

theorem spreadRest_next (k : Nat) (panel : Int -> α) :
    (if 2 ^ k >>> 1 = 0 then roll panel
    else if ((mydist % 2 ^ (k + 1) : Nat) : Int) < (2 ^ k : Nat) then
      blongSpread root size len count mydist roll (2 ^ k >>> 1) (2 ^ k - 1)
        (((mydist - mydist % 2 ^ (k + 1) + 2 ^ k : Nat) : Int) -
          (2 ^ k >>> 1 : Nat)) ((mydist % 2 ^ (k + 1) : Nat) : Int) panel
    else
      blongSpread root size len count mydist roll (2 ^ k >>> 1) (2 ^ k - 1)
        (((mydist - mydist % 2 ^ (k + 1) + 2 ^ k : Nat) : Int) +
          (2 ^ k >>> 1 : Nat))
        (((mydist % 2 ^ (k + 1) : Nat) : Int) - (2 ^ k : Nat)) panel) =
      spreadRest root size len count mydist roll k panel := by
  cases k with
  | zero => rfl
  | succ k =>
      have hpos : 0 < 2 ^ k := Nat.two_pow_pos k
      have hdouble : 2 ^ (k + 1) = 2 ^ k + 2 ^ k := by
        rw [Nat.pow_succ]
        lia
      have hmod : mydist % 2 ^ (k + 1) =
          mydist % 2 ^ (k + 1 + 1) % 2 ^ (k + 1) :=
        (Nat.mod_mod_of_dvd mydist (pow_dvd_pow 2 (Nat.le_succ (k + 1)))).symm
      have hlt : mydist % 2 ^ (k + 1 + 1) < 2 * 2 ^ (k + 1) := by
        rw [Nat.mul_comm, ← Nat.pow_succ]
        exact Nat.mod_lt _ (Nat.two_pow_pos _)
      have hle := Nat.mod_le mydist (2 ^ (k + 1 + 1))
      rw [Hypercube.two_pow_shiftRight, if_neg hpos.ne', spreadRest, hmod]
      generalize mydist % 2 ^ (k + 1 + 1) = m at *
      rw [mod_of_lt_two_mul hlt]
      by_cases hm : m < 2 ^ (k + 1)
      · have hindx : ((mydist - m + 2 ^ (k + 1) : Nat) : Int) - (2 ^ k : Nat) =
            (mydist - m + 2 ^ k : Nat) := by omega
        rw [if_pos (Int.ofNat_lt.mpr hm), if_pos hm, hindx]
      · have hindx : ((mydist - m + 2 ^ (k + 1) : Nat) : Int) + (2 ^ k : Nat) =
            (mydist - (m - 2 ^ (k + 1)) + 2 ^ k : Nat) := by omega
        have hrest : (m : Int) - (2 ^ (k + 1) : Nat) =
            (m - 2 ^ (k + 1) : Nat) := by omega
        rw [if_neg (mt Int.ofNat_lt.mp hm), if_neg hm, hindx, hrest]

theorem spreadRest_succ (k : Nat) (panel : Int -> α) :
    spreadRest root size len count mydist roll (k + 1) panel =
      if mydist % 2 ^ k = 0 then
        let d := mydist - mydist % 2 ^ (k + 1) + 2 ^ k
        let partner := mydist ^^^ 2 ^ k
        if mydist &&& 2 ^ k ≠ 0 then
          receive (mModAdd root partner size) panel (d * count)
            (spreadLength size len count k d)
            (spreadRest root size len count mydist roll k)
        else if partner < size then
          Program.send (mModAdd root partner size)
            (message panel (d * count) (spreadLength size len count k d))
            (spreadRest root size len count mydist roll k panel)
        else spreadRest root size len count mydist roll k panel
      else spreadRest root size len count mydist roll k panel := by
  rw [spreadRest, blongSpread]
  simp only [Hypercube.mask_xor, Nat.and_two_pow_sub_one_eq_mod,
    spreadRest_next root size len count mydist roll k]
  rfl

end Spread

/-- Before the round across dimension `k` the processes that take part have all
pieces up to the next one of them. -/
def Spread (root : Fin n) (len count : Int) (x : Int -> α) (k : Nat)
    (panel : Fin n -> Int -> α) : Prop :=
  forall r, distance root r % 2 ^ k = 0 -> forall p, distance root r ≤ p ->
    p < distance root r + 2 ^ k -> p < n -> Knows n len count x (panel r) p

theorem knows_spread {len count : Int} (hcount : 0 ≤ count) {x src dst : Int -> α}
    {k d p : Nat} (hd : d ≤ p) (hp : p < d + 2 ^ k)
    (hsrc : Knows n len count x src p) :
    Knows n len count x
      (transfer src dst (d * count) (spreadLength n len count k d)) p := by
  intro j hj
  rcases hj with ⟨hlow, hlen, hhigh⟩
  have hstart : (d : Int) * count ≤ p * count :=
    mul_le_mul_of_nonneg_right (by exact_mod_cast hd) hcount
  have hend : j < d * count + spreadLength n len count k d := by
    unfold spreadLength
    split
    · rename_i hroom
      have hlast : p + 1 ≠ n := by omega
      have hnext : ((p + 1 : Nat) : Int) * count ≤ (d + 2 ^ k : Nat) * count :=
        mul_le_mul_of_nonneg_right (by exact_mod_cast hp) hcount
      have hsplit : ((d + 2 ^ k : Nat) : Int) * count =
          d * count + (2 ^ k : Nat) * count := by
        push_cast
        ring
      have hj := hhigh.resolve_left hlast
      omega
    · omega
  unfold transfer
  rw [if_pos ⟨hstart.trans hlow, hend⟩]
  exact hsrc j ⟨hlow, hlen, hhigh⟩

theorem sync_spread_round {result : Type v} (root : Fin n) {len count : Int}
    (hcount : 0 ≤ count) (roll : Fin n -> (Int -> α) -> Program (List α) result)
    {x : Int -> α} {k : Nat} {panel : Fin n -> Int -> α}
    (h : Spread root len count x (k + 1) panel) :
    exists panel', Spread root len count x k panel' ∧
      Sync
        (fun r => spreadRest root n len count (distance root r) (roll r) (k + 1)
          (panel r))
        fun r => spreadRest root n len count (distance root r) (roll r) k
          (panel' r) := by
  let below : Fin n -> Fin n := fun q =>
    atDistance root ⟨distance root q - 2 ^ k, by
      have hlt := distance_lt root q
      lia⟩
  let panel' : Fin n -> Int -> α := fun q =>
    if distance root q % 2 ^ (k + 1) = 2 ^ k then
      transfer (panel (below q)) (panel q) (distance root q * count)
        (spreadLength n len count k (distance root q))
    else panel q
  have hbelow : forall q, distance root (below q) = distance root q - 2 ^ k :=
    fun q => distance_atDistance root _
  refine ⟨panel', ?_, ?_⟩
  · intro q hq p hlow hhigh hn
    rcases Hypercube.mod_two_pow_succ hq with hzero | hupper
    · have hne : distance root q % 2 ^ (k + 1) ≠ 2 ^ k := by
        rw [hzero]
        exact (Nat.two_pow_pos k).ne
      have hdouble : 2 ^ k < 2 ^ (k + 1) := Nat.pow_lt_pow_succ (by lia)
      simp only [panel', if_neg hne]
      exact h q hzero p hlow (by lia) hn
    · rcases Hypercube.lower_mod hupper with ⟨hle, hmod⟩
      have hdouble : 2 ^ (k + 1) = 2 ^ k + 2 ^ k := by
        rw [Nat.pow_succ]
        lia
      simp only [panel', if_pos hupper]
      apply knows_spread hcount hlow hhigh
      apply h (below q)
      · rw [hbelow]
        exact hmod
      · rw [hbelow]
        lia
      · rw [hbelow]
        lia
      · exact hn
  · apply sync_corners root k
    · intro r q hc
      have hr : below q = r := by
        apply distance_injective root
        rw [hbelow, hc.next, Nat.add_sub_cancel]
      have hne : distance root r % 2 ^ (k + 1) ≠ 2 ^ k := by
        rw [hc.low]
        exact (Nat.two_pow_pos k).ne
      have hdr : distance root r - distance root r % 2 ^ (k + 1) + 2 ^ k =
          distance root q := by
        rw [hc.low, hc.next, Nat.sub_zero]
      have hdq : distance root q - 2 ^ k + 2 ^ k = distance root q := by
        rw [hc.next, Nat.add_sub_cancel]
      rw [spreadRest_succ, spreadRest_succ]
      simp only [hc.up, hc.down, hdr, hdq, hc.low_zero, hc.high_zero,
        Hypercube.land_eq_zero hc.low, Hypercube.land_ne_zero hc.high,
        hc.partner_lt, if_true, ne_eq, not_true_eq_false, not_false_eq_true,
        if_false, panel', hne, hc.high, hr]
      rw [receive_eq, ← received_message]
      exact Meet.send (Accepts.recv _)
    · intro q hlow hlast
      have hroom : ¬ ((distance root q ^^^ 2 ^ k : Nat) : Int) < n := by
        rw [Hypercube.xor_lower hlow]
        exact_mod_cast Nat.not_lt.mpr hlast
      have hne : distance root q % 2 ^ (k + 1) ≠ 2 ^ k := by
        rw [hlow]
        exact (Nat.two_pow_pos k).ne
      rw [spreadRest_succ]
      simp only [Hypercube.land_eq_zero hlow, Hypercube.mod_two_pow_of_succ hlow,
        hroom, if_true, ne_eq, not_true_eq_false, if_false, panel', hne]
    · intro q hinner
      have hne : distance root q % 2 ^ (k + 1) ≠ 2 ^ k := by
        intro h
        apply hinner
        rw [← Nat.mod_mod_of_dvd _ (pow_dvd_pow 2 (Nat.le_succ k)), h,
          Nat.mod_self]
      rw [spreadRest_succ, if_neg hinner]
      simp only [panel', if_neg hne]

theorem sync_spread {result : Type v} (root : Fin n) {len count : Int}
    (hcount : 0 ≤ count) (roll : Fin n -> (Int -> α) -> Program (List α) result)
    {x : Int -> α} {k : Nat} {panel : Fin n -> Int -> α}
    (h : Spread root len count x k panel) :
    exists panel' : Fin n -> Int -> α,
      (forall r, Knows n len count x (panel' r) (distance root r)) ∧
      Sync
        (fun r => spreadRest root n len count (distance root r) (roll r) k
          (panel r))
        fun r => roll r (panel' r) := by
  induction k generalizing panel with
  | zero =>
      refine ⟨panel, ?_, Sync.refl _⟩
      intro r
      exact h r (Nat.mod_one _) _ le_rfl (Nat.lt_succ_self _) (distance_lt root r)
  | succ k ih =>
      rcases sync_spread_round root hcount roll h with ⟨panel1, h1, hround⟩
      rcases ih h1 with ⟨panel', hown, hrest⟩
      exact ⟨panel', hown, hround.trans hrest⟩

/-!
## Rolling the pieces
-/

/-- The piece that the process at distance `d` sends in its step `k`. -/
def sentPiece (n d k : Nat) : Nat :=
  if (d + k) % 2 = 1 then (d + k / 2) % n else (d + n - k / 2) % n

/-- The piece that it receives. -/
def recvPiece (n d k : Nat) : Nat :=
  if (d + k) % 2 = 1 then (d + n - (k / 2 + 1)) % n else (d + (k / 2 + 1)) % n

theorem sentPiece_odd {d k : Nat} (n : Nat) (h : (d + k) % 2 = 1) :
    sentPiece n d k = (d + k / 2) % n :=
  if_pos h

theorem sentPiece_even {d k : Nat} (n : Nat) (h : (d + k) % 2 = 0) :
    sentPiece n d k = (d + n - k / 2) % n :=
  if_neg (by lia)

theorem recvPiece_odd {d k : Nat} (n : Nat) (h : (d + k) % 2 = 1) :
    recvPiece n d k = (d + n - (k / 2 + 1)) % n :=
  if_pos h

theorem recvPiece_even {d k : Nat} (n : Nat) (h : (d + k) % 2 = 0) :
    recvPiece n d k = (d + (k / 2 + 1)) % n :=
  if_neg (by lia)

theorem sentPiece_eq {n d k : Nat} (hd : d < n) :
    sentPiece n d k = d ∨ exists i, i < k ∧ recvPiece n d i = sentPiece n d k := by
  by_cases hk : k / 2 = 0
  · left
    rcases Nat.mod_two_eq_zero_or_one (d + k) with heven | hodd
    · rw [sentPiece_even n heven, hk, Nat.sub_zero, Nat.add_mod_right,
        Nat.mod_eq_of_lt hd]
    · rw [sentPiece_odd n hodd, hk, Nat.add_zero, Nat.mod_eq_of_lt hd]
  · right
    -- the last step before `k` in which it received from the other side
    have hi : exists i, i < k ∧ i / 2 + 1 = k / 2 ∧ (d + i) % 2 ≠ (d + k) % 2 := by
      rcases Nat.mod_two_eq_zero_or_one k with hk2 | hk2
      · exact ⟨k - 1, by lia, by lia, by lia⟩
      · exact ⟨k - 3, by lia, by lia, by lia⟩
    rcases hi with ⟨i, hlt, hhalf, hside⟩
    refine ⟨i, hlt, ?_⟩
    rcases Nat.mod_two_eq_zero_or_one (d + k) with heven | hodd
    · rw [sentPiece_even n heven, recvPiece_odd n (by lia), hhalf]
    · rw [sentPiece_odd n hodd, recvPiece_even n (by lia), hhalf]

theorem exists_recvPiece {n d p : Nat} (hd : d < n) (hp : p < n) :
    p = d ∨ exists i, i < n - 1 ∧ recvPiece n d i = p := by
  by_cases hpd : p = d
  · exact Or.inl hpd
  · right
    have he : exists e, 0 < e ∧ e < n ∧ (d + e) % n = p := by
      by_cases hlt : d < p
      · refine ⟨p - d, by lia, by lia, ?_⟩
        rw [Nat.add_sub_cancel' hlt.le, Nat.mod_eq_of_lt hp]
      · refine ⟨p + n - d, by lia, by lia, ?_⟩
        rw [Nat.add_sub_cancel' (by lia), Nat.add_mod_right,
          Nat.mod_eq_of_lt hp]
    rcases he with ⟨e, hpos, hlt, hpiece⟩
    by_cases hearly : 2 * (e - 1) + d % 2 < n - 1
    · refine ⟨_, hearly, ?_⟩
      rw [recvPiece_even n (by omega), ← hpiece]
      congr 2
      omega
    · refine ⟨2 * (n - e - 1) + (1 - d % 2), by omega, ?_⟩
      rw [recvPiece_odd n (by omega), ← hpiece]
      congr 1
      omega

/-- Neighbours at their steps `k` and `l` exchange pieces with each other. -/
theorem sentPiece_eq_recvPiece {n d k l : Nat} (hd : d < n)
    (hk : (d + k) % 2 = 0) (hl : ((d + 1) % n + l) % 2 = 1)
    (hkl : k / 2 = l / 2) (hkn : k < n - 1) :
    sentPiece n d k = recvPiece n ((d + 1) % n) l ∧
      sentPiece n ((d + 1) % n) l = recvPiece n d k := by
  rw [sentPiece_even n hk, recvPiece_odd n hl, sentPiece_odd n hl,
    recvPiece_even n hk, ← hkl]
  by_cases hlast : d + 1 < n
  · rw [Nat.mod_eq_of_lt hlast]
    exact ⟨by congr 1; omega, by congr 1; omega⟩
  · have hdn : d + 1 = n := by omega
    rw [hdn, Nat.mod_self]
    constructor
    · have hround : d + n - k / 2 = 0 + n - (k / 2 + 1) + n := by omega
      rw [hround, Nat.add_mod_right]
    · have hround : d + (k / 2 + 1) = 0 + k / 2 + n := by omega
      rw [hround, Nat.add_mod_right]

theorem blongRoll_succ (root r : Fin n) (len count : Int) (left k : Nat)
    (hk : k < n) (panel : Int -> α) :
    blongRoll n len count (distance root r) r (left + 1) k panel =
      Program.isend
        ((if (distance root r + k) % 2 = 1 then before root r
          else after root r : Fin n) : Nat)
        (message panel (sentPiece n (distance root r) k * count)
          (pieceLength n len count (sentPiece n (distance root r) k)))
        (Program.recv
          ((if (distance root r + k) % 2 = 1 then before root r
            else after root r : Fin n) : Nat) fun m =>
          Program.wait (blongRoll n len count (distance root r) r left (k + 1)
            (received panel (recvPiece n (distance root r) k * count)
              (pieceLength n len count (recvPiece n (distance root r) k)) m))) := by
  have hd := distance_lt root r
  have hl : k / 2 + 1 ≤ n := by omega
  have hodd : (distance root r + k) &&& 1 ≠ 0 <->
      (distance root r + k) % 2 = 1 := by
    rw [Nat.and_one_is_mod]
    omega
  rw [blongRoll]
  simp only [hodd, Nat.shiftRight_one, mModAdd1_eq_after root,
    mModSub1_eq_before root, receive_eq]
  by_cases h : (distance root r + k) % 2 = 1
  · simp only [h, if_true, sentPiece_odd n h, recvPiece_odd n h,
      mModAdd_eq_mod hd (Nat.le_of_succ_le hl), mModSub_eq_mod hd hl]
  · have h' : (distance root r + k) % 2 = 0 := by omega
    simp only [h, if_false, sentPiece_even n h', recvPiece_even n h',
      mModSub_eq_mod hd (Nat.le_of_succ_le hl), mModAdd_eq_mod hd hl]

section Roll

variable (root : Fin n) (len count : Int)

/-- The programs when the processes are at different steps of the loop. -/
def rollCode (c : Fin n -> Nat) (panel : Fin n -> Int -> α) (r : Fin n) :
    Program (List α) (Int -> α) :=
  blongRoll n len count (distance root r) r (n - 1 - c r) (c r) (panel r)

/-- Every process has its own piece and those of the steps it has done. -/
def Rolled (x : Int -> α) (c : Fin n -> Nat) (panel : Fin n -> Int -> α) :
    Prop :=
  forall r, Knows n len count x (panel r) (distance root r) ∧
    forall i, i < c r ->
      Knows n len count x (panel r) (recvPiece n (distance root r) i)

/-- The panel after the next step. -/
def rollPanel (c : Fin n -> Nat) (panel : Fin n -> Int -> α) (r q : Fin n) :
    Int -> α :=
  transfer (panel q) (panel r) (recvPiece n (distance root r) (c r) * count)
    (pieceLength n len count (recvPiece n (distance root r) (c r)))

/-- A process and the next one exchange pieces in their next steps. -/
structure Facing (c : Fin n -> Nat) (r q : Fin n) : Prop where
  next : q = after root r
  even : (distance root r + c r) % 2 = 0
  odd : (distance root q + c q) % 2 = 1
  half : c r / 2 = c q / 2
  left : c r < n - 1
  left' : c q < n - 1

variable {root len count}

theorem Facing.ne {c : Fin n -> Nat} {r q : Fin n} (h : Facing root c r q) :
    r ≠ q := by
  rintro rfl
  have heven := h.even
  rw [h.odd] at heven
  cases heven

theorem Facing.pieces {c : Fin n -> Nat} {r q : Fin n} (h : Facing root c r q) :
    sentPiece n (distance root r) (c r) = recvPiece n (distance root q) (c q) ∧
      sentPiece n (distance root q) (c q) =
        recvPiece n (distance root r) (c r) := by
  have hq : distance root q = (distance root r + 1) % n := by
    rw [h.next, distance_after]
  have hodd := h.odd
  rw [hq] at hodd ⊢
  exact sentPiece_eq_recvPiece (distance_lt root r) h.even hodd h.half h.left

theorem Facing.meet {c : Fin n -> Nat} {r q : Fin n} (h : Facing root c r q)
    (panel : Fin n -> Int -> α) :
    Meet r q (rollCode root len count c panel r) (rollCode root len count c panel q)
      (blongRoll n len count (distance root r) r (n - 1 - (c r + 1)) (c r + 1)
        (rollPanel root len count c panel r q))
      (blongRoll n len count (distance root q) q (n - 1 - (c q + 1)) (c q + 1)
        (rollPanel root len count c panel q r)) := by
  have hr : n - 1 - c r = n - 1 - (c r + 1) + 1 := by
    have hlt := h.left
    omega
  have hq : n - 1 - c q = n - 1 - (c q + 1) + 1 := by
    have hlt := h.left'
    omega
  have hbefore : before root q = r := by
    rw [h.next, before_after]
  have heven : ¬ (distance root r + c r) % 2 = 1 := by
    rw [h.even]
    exact Nat.zero_ne_one
  unfold rollCode rollPanel
  rw [hr, hq, blongRoll_succ root r len count _ _ (by have := h.left; omega),
    blongRoll_succ root q len count _ _ (by have := h.left'; omega),
    ← received_message, ← received_message, if_neg heven, if_pos h.odd, hbefore,
    ← h.next, h.pieces.left, ← h.pieces.right]
  exact Meet.exchange h.ne

theorem Rolled.sent {x : Int -> α} {c : Fin n -> Nat}
    {panel : Fin n -> Int -> α} (h : Rolled root len count x c panel)
    (r : Fin n) :
    Knows n len count x (panel r) (sentPiece n (distance root r) (c r)) := by
  rcases sentPiece_eq (distance_lt root r) with hown | ⟨i, hi, hpiece⟩
  · rw [hown]
    exact (h r).left
  · rw [← hpiece]
    exact (h r).right i hi

theorem Rolled.next {x : Int -> α} {c : Fin n -> Nat}
    {panel : Fin n -> Int -> α} (h : Rolled root len count x c panel)
    {r q : Fin n} (hpiece : sentPiece n (distance root q) (c q) =
      recvPiece n (distance root r) (c r)) :
    Knows n len count x (rollPanel root len count c panel r q)
      (distance root r) ∧
    forall i, i < c r + 1 -> Knows n len count x
      (rollPanel root len count c panel r q) (recvPiece n (distance root r) i) := by
  have hsrc : Knows n len count x (panel q)
      (recvPiece n (distance root r) (c r)) := hpiece ▸ h.sent q
  refine ⟨knows_transfer hsrc (Or.inr (h r).left), ?_⟩
  intro i hi
  rcases Nat.lt_succ_iff_lt_or_eq.mp hi with hlt | rfl
  · exact knows_transfer hsrc (Or.inr ((h r).right i hlt))
  · exact knows_transfer hsrc (Or.inl rfl)

/-- The steps done after some processes have met the next ones. -/
def advance (root : Fin n) (leaders : Finset (Fin n)) (c : Fin n -> Nat)
    (r : Fin n) : Nat :=
  if r ∈ leaders ∨ before root r ∈ leaders then c r + 1 else c r

theorem sync_facing {x : Int -> α} {c : Fin n -> Nat}
    {panel : Fin n -> Int -> α} (h : Rolled root len count x c panel)
    (leaders : Finset (Fin n))
    (hface : forall r, r ∈ leaders -> Facing root c r (after root r)) :
    exists panel', Rolled root len count x (advance root leaders c) panel' ∧
      Sync (rollCode root len count c panel)
        (rollCode root len count (advance root leaders c) panel') := by
  let panel' : Fin n -> Int -> α := fun r =>
    if r ∈ leaders then rollPanel root len count c panel r (after root r)
    else if before root r ∈ leaders then
      rollPanel root len count c panel r (before root r)
    else panel r
  have hface' : forall r, before root r ∈ leaders ->
      Facing root c (before root r) r := by
    intro r hr
    have hmeet := hface _ hr
    rw [after_before] at hmeet
    exact hmeet
  have hapart : forall r y, r ∈ leaders -> y ∈ leaders -> r ≠ after root y := by
    intro r y hr hy heq
    have heven := (hface r hr).even
    rw [heq, (hface y hy).odd] at heven
    cases heven
  refine ⟨panel', ?_, ?_⟩
  · intro r
    simp only [panel', advance]
    by_cases hlead : r ∈ leaders
    · rw [if_pos hlead, if_pos (Or.inl hlead)]
      exact h.next (hface r hlead).pieces.right
    · rw [if_neg hlead]
      by_cases hfollow : before root r ∈ leaders
      · rw [if_pos hfollow, if_pos (Or.inr hfollow)]
        exact h.next (hface' r hfollow).pieces.left
      · rw [if_neg hfollow, if_neg (by simp [hlead, hfollow])]
        exact h r
  · apply Sync.round leaders (after root)
    · exact hapart
    · intro r y _ _ heq
      rw [← before_after root r, heq, before_after]
    · intro r hr
      have hq : after root r ∉ leaders := fun hq => hapart _ r hq hr rfl
      have hr' : advance root leaders c r = c r + 1 := if_pos (Or.inl hr)
      have hq' : advance root leaders c (after root r) =
          c (after root r) + 1 := if_pos (Or.inr (by rwa [before_after]))
      have hcode : forall y,
          rollCode root len count (advance root leaders c) panel' y =
            blongRoll n len count (distance root y) y
              (n - 1 - advance root leaders c y) (advance root leaders c y)
              (panel' y) := fun y => rfl
      rw [hcode r, hcode (after root r), hr', hq']
      simp only [panel', hr, hq, if_true, if_false, before_after]
      exact (hface r hr).meet panel
    · intro q hq hother
      have hbefore : before root q ∉ leaders := fun hb =>
        hother _ hb (after_before root q).symm
      have hsame : advance root leaders c q = c q :=
        if_neg (by simp [hq, hbefore])
      unfold rollCode
      rw [hsame]
      simp only [panel', hq, hbefore, if_false]

/-- The steps done before the sweep `k`.  On an odd number of processes the
root is one step ahead in every other sweep. -/
def sweepSteps (root : Fin n) (k : Nat) (r : Fin n) : Nat :=
  if n % 2 = 1 ∧ k % 2 = 1 ∧ distance root r = 0 then k + 1 else k

/-- The processes whose next step is with the next process, the last one left
out or the last one alone. -/
def inner (root : Fin n) (k : Nat) : Finset (Fin n) :=
  Finset.univ.filter fun r =>
    (distance root r + k) % 2 = 0 ∧ distance root r + 1 < n

def outer (root : Fin n) (k : Nat) : Finset (Fin n) :=
  Finset.univ.filter fun r =>
    (distance root r + k) % 2 = 0 ∧ distance root r + 1 = n

theorem mem_inner {k : Nat} {r : Fin n} :
    r ∈ inner root k <->
      (distance root r + k) % 2 = 0 ∧ distance root r + 1 < n := by
  simp [inner]

theorem mem_outer {k : Nat} {r : Fin n} :
    r ∈ outer root k <->
      (distance root r + k) % 2 = 0 ∧ distance root r + 1 = n := by
  simp [outer]

theorem facing_inner {k : Nat} (hk : k < n - 1) {r : Fin n}
    (hr : r ∈ inner root k) :
    Facing root (sweepSteps root k) r (after root r) := by
  rcases mem_inner.mp hr with ⟨heven, hlt⟩
  have hnext : distance root (after root r) = distance root r + 1 := by
    rw [distance_after_eq, if_pos hlt]
  have hr' : sweepSteps root k r = k := if_neg (by omega)
  have hq' : sweepSteps root k (after root r) = k := if_neg (by omega)
  refine ⟨rfl, ?_, ?_, ?_, ?_, ?_⟩
  · rw [hr']
    exact heven
  · rw [hq', hnext]
    omega
  · rw [hr', hq']
  · rw [hr']
    exact hk
  · rw [hq']
    exact hk

theorem advance_inner (k : Nat) (r : Fin n) (hn : 1 < n) :
    advance root (inner root k) (sweepSteps root k) r =
      if (distance root r + k) % 2 = 0 ∧ distance root r + 1 = n then k
      else if k % 2 = 1 ∧ distance root r = 0 then sweepSteps root k r
      else k + 1 := by
  have hlt := distance_lt root r
  simp only [advance, mem_inner, distance_before_eq, sweepSteps]
  grind

theorem facing_outer {k : Nat} (hk : k < n - 1) {r : Fin n}
    (hr : r ∈ outer root k) :
    Facing root (advance root (inner root k) (sweepSteps root k)) r
      (after root r) := by
  rcases mem_outer.mp hr with ⟨heven, hlast⟩
  have hn : 1 < n := by omega
  have hnext : distance root (after root r) = 0 := by
    rw [distance_after_eq, if_neg (by omega)]
  have hr' : advance root (inner root k) (sweepSteps root k) r = k := by
    rw [advance_inner k r hn, if_pos ⟨heven, hlast⟩]
  have hq' : advance root (inner root k) (sweepSteps root k) (after root r) =
      if k % 2 = 1 then k else k + 1 := by
    rw [advance_inner k _ hn, hnext, sweepSteps, hnext]
    grind
  refine ⟨rfl, ?_, ?_, ?_, ?_, ?_⟩
  · rw [hr']
    exact heven
  · rw [hq', hnext]
    split <;> omega
  · rw [hr', hq']
    split <;> omega
  · rw [hr']
    exact hk
  · rw [hq']
    split <;> omega

theorem advance_outer (k : Nat) (r : Fin n) (hn : 1 < n) :
    advance root (outer root k)
      (advance root (inner root k) (sweepSteps root k)) r =
        sweepSteps root (k + 1) r := by
  have hlt := distance_lt root r
  rw [advance, advance_inner k r hn]
  simp only [mem_outer, distance_before_eq, sweepSteps]
  grind

/-- Every process takes one step more. -/
theorem sync_sweep {x : Int -> α} {k : Nat} (hk : k < n - 1)
    {panel : Fin n -> Int -> α}
    (h : Rolled root len count x (sweepSteps root k) panel) :
    exists panel', Rolled root len count x (sweepSteps root (k + 1)) panel' ∧
      Sync (rollCode root len count (sweepSteps root k) panel)
        (rollCode root len count (sweepSteps root (k + 1)) panel') := by
  have hn : 1 < n := by omega
  rcases sync_facing h (inner root k) fun r hr => facing_inner hk hr with
    ⟨panel1, h1, hsync1⟩
  rcases sync_facing h1 (outer root k) fun r hr => facing_outer hk hr with
    ⟨panel2, h2, hsync2⟩
  have hsteps : advance root (outer root k)
      (advance root (inner root k) (sweepSteps root k)) =
        sweepSteps root (k + 1) := by
    funext r
    exact advance_outer k r hn
  rw [hsteps] at h2 hsync2
  exact ⟨panel2, h2, hsync1.trans hsync2⟩

theorem sync_sweeps {x : Int -> α} {k : Nat} (hk : k ≤ n - 1)
    {panel : Fin n -> Int -> α}
    (h : Rolled root len count x (sweepSteps root 0) panel) :
    exists panel', Rolled root len count x (sweepSteps root k) panel' ∧
      Sync (rollCode root len count (sweepSteps root 0) panel)
        (rollCode root len count (sweepSteps root k) panel') := by
  induction k with
  | zero => exact ⟨panel, h, Sync.refl _⟩
  | succ k ih =>
      rcases ih (Nat.le_of_succ_le hk) with ⟨panel1, h1, hsync1⟩
      rcases sync_sweep hk h1 with ⟨panel2, h2, hsync2⟩
      exact ⟨panel2, h2, hsync1.trans hsync2⟩

end Roll

/-!
## Every run
-/

theorem bcastBlong_eq (hn : 1 < n) (panel : Int -> α) (len : Int)
    (root r : Fin n) :
    bcastBlong panel len root n r =
      spreadRest root n len (max (len.tdiv n) 1) (distance root r)
        (blongRoll n len (max (len.tdiv n) 1) (distance root r) r (n - 1) 0)
        (Nat.log2 (n - 1) + 1) panel := by
  have hsize : ¬ (n : Int) ≤ 1 := by omega
  have hpred : ((n : Int) - 1).toNat = n - 1 := by omega
  have hmasks : halving (n - 1) 1 1 =
      (2 ^ Nat.log2 (n - 1), 2 ^ (Nat.log2 (n - 1) + 1) - 1) := by
    simpa using halving_eq (n - 1) 0
  have hmod : distance root r % 2 ^ (Nat.log2 (n - 1) + 1) = distance root r := by
    apply Nat.mod_eq_of_lt
    have hlog := Nat.lt_log2_self (n := n - 1)
    have hr := distance_lt root r
    omega
  rw [bcastBlong, if_neg hsize, hpred, hmasks, mModSub_eq_distance, spreadRest,
    hmod, Nat.sub_self, Nat.zero_add]
  rfl

theorem exists_inPiece {len count j : Int} (hn : 0 < n) (hcount : 0 < count)
    (hj : 0 ≤ j) (hlen : j < len) : exists p, p < n ∧ InPiece n len count p j := by
  have hlow := Int.ediv_mul_le j hcount.ne'
  have hhigh := Int.lt_ediv_add_one_mul_self j hcount
  rcases Int.eq_ofNat_of_zero_le (Int.ediv_nonneg hj hcount.le) with ⟨q, hq⟩
  rw [hq] at hlow hhigh
  by_cases hqn : q < n
  · exact ⟨q, hqn, hlow, hlen, Or.inr (by exact_mod_cast hhigh)⟩
  · have hlast : ((n - 1 : Nat) : Int) * count ≤ q * count :=
      mul_le_mul_of_nonneg_right (by omega) hcount.le
    exact ⟨n - 1, by omega, hlast.trans hlow, hlen, Or.inl (by omega)⟩

/-- Every run of the long broadcast gets the whole panel of the root to every
process. -/
theorem bcastBlong_delivers (panel : Fin n -> Int -> α) (len : Int)
    (root : Fin n) :
    exists res : Fin n -> Int -> α,
      Delivers (fun r : Fin n => bcastBlong (panel r) len root n r) res ∧
        forall r j, 0 ≤ j -> j < len -> res r j = panel root j := by
  by_cases hn : 1 < n
  · have hcount : 0 < max (len.tdiv n) 1 := by omega
    generalize hc : max (len.tdiv n) 1 = count at hcount
    have hstart : Spread root len count (panel root) (Nat.log2 (n - 1) + 1)
        panel := by
      intro r hr p _ _ _
      have hlog := Nat.lt_log2_self (n := n - 1)
      have hdist := distance_lt root r
      rw [Nat.mod_eq_of_lt (by omega)] at hr
      rw [distance_eq_zero.mp hr]
      exact fun j _ => rfl
    rcases sync_spread root hcount.le
      (fun r => blongRoll n len count (distance root r) r (n - 1) 0) hstart with
      ⟨panel1, hown, hspread⟩
    have hrolled : Rolled root len count (panel root) (sweepSteps root 0)
        panel1 := by
      intro r
      refine ⟨hown r, ?_⟩
      intro i hi
      exact absurd hi (by simp [sweepSteps])
    rcases sync_sweeps le_rfl hrolled with ⟨panel2, hall, hroll⟩
    have hsteps : forall r, sweepSteps root (n - 1) r = n - 1 := fun r =>
      if_neg (by omega)
    refine ⟨panel2, Sync.delivers ?_, ?_⟩
    · simp only [bcastBlong_eq hn, hc]
      refine hspread.trans ?_
      have hfirst : rollCode root len count (sweepSteps root 0) panel1 =
          fun r => blongRoll n len count (distance root r) r (n - 1) 0
            (panel1 r) := by
        funext r
        simp [rollCode, sweepSteps]
      have hlast : rollCode root len count (sweepSteps root (n - 1)) panel2 =
          fun r => Program.ret (panel2 r) := by
        funext r
        rw [rollCode, hsteps, Nat.sub_self]
        rfl
      rw [hfirst, hlast] at hroll
      exact hroll
    · intro r j hj hlen
      rcases exists_inPiece (n := n) (by omega) hcount hj hlen with
        ⟨p, hp, hpiece⟩
      rcases exists_recvPiece (distance_lt root r) hp with rfl | ⟨i, hi, rfl⟩
      · exact (hall r).left j hpiece
      · exact (hall r).right i (by rw [hsteps]; exact hi) j hpiece
  · have hsize : (n : Int) ≤ 1 := by omega
    have halone : (fun r : Fin n => bcastBlong (panel r) len root n r) =
        fun r => Program.ret (panel r) := by
      funext r
      rw [bcastBlong, if_pos hsize]
    refine ⟨panel, ?_, ?_⟩
    · rw [halone]
      exact (Sync.refl _).delivers
    · intro r j _ _
      have hr : r = root := Fin.ext (by omega)
      rw [hr]

end HPL
end IPPD
