import IPPD.HPL.Grid
import Mathlib.Tactic.FinCases

/-!
# Ring broadcasts of the panel

The process column that owns the panel sends it to one, two or three of the
others, and these pass it on from neighbour to neighbour.  A process that finds
no message when it probes for one returns to its caller, which goes on with
other work and calls again.
-/

namespace IPPD
namespace HPL

open Foundation
open Foundation.Communicator (Sync Delivers Accepts Tree sendAll)

variable {value : Type u} {n : Nat}

/-!
## The programs
-/

/-- Probe for the panel and receive it; with `forward` pass it on. -/
def receivePanel (partner next : Int) (forward : Bool) : Program value value :=
  Program.test partner (Program.recv partner fun panel =>
    if forward then Program.send next panel (Program.ret panel)
    else Program.ret panel)

def bcast1ring (panel : value) (root size rank : Int) : Program value value :=
  if size ≤ 1 then Program.ret panel
  else if rank = root then
    Program.send (mModAdd1 rank size) panel (Program.ret panel)
  else
    let prev := mModSub1 rank size
    let next := mModAdd1 rank size
    receivePanel prev next (decide (next ≠ root))

def bcast1rinM (panel : value) (root size rank : Int) : Program value value :=
  if size ≤ 1 then Program.ret panel
  else
    let next := mModAdd1 rank size
    if rank = root then
      Program.send next panel
        (if size > 2 then
          Program.send (mModAdd1 next size) panel (Program.ret panel)
        else Program.ret panel)
    else
      let prev := mModSub1 rank size
      let partner := if size > 2 ∧ mModSub1 prev size = root then root else prev
      receivePanel partner next (decide (prev ≠ root ∧ next ≠ root))

def bcast2ring (panel : value) (root size rank : Int) : Program value value :=
  if size ≤ 1 then Program.ret panel
  else
    let next := mModAdd1 rank size
    let roo2 := mModAdd root ((size + 1) >>> (1 : Nat)) size
    if rank = root then
      Program.send next panel
        (if size > 2 then Program.send roo2 panel (Program.ret panel)
        else Program.ret panel)
    else
      let partner := mModSub1 rank size
      let partner := if partner = root ∨ rank = roo2 then root else partner
      receivePanel partner next (decide (next ≠ roo2 ∧ next ≠ root))

def bcast2rinM (panel : value) (root size rank : Int) : Program value value :=
  if size ≤ 1 then Program.ret panel
  else
    let next := mModAdd1 rank size
    let roo2 := mModAdd root ((size + 1) >>> (1 : Nat)) size
    if rank = root then
      Program.send next panel
        (if size > 2 then
          let last := Program.send roo2 panel (Program.ret panel)
          if mModAdd1 next size ≠ roo2 then
            Program.send (mModAdd1 next size) panel last
          else last
        else Program.ret panel)
    else
      let prev := mModSub1 rank size
      let partner :=
        if prev = root ∨ rank = roo2 ∨ mModSub1 prev size = root then root
        else prev
      receivePanel partner next
        (decide (prev ≠ root ∧ next ≠ roo2 ∧ next ≠ root))

/-- The virtual topologies that are rings. -/
inductive Topology where
  | ring1
  | ring1M
  | ring2
  | ring2M

def bcast : Topology -> value -> Int -> Int -> Int -> Program value value
  | Topology.ring1M => bcast1rinM
  | Topology.ring1 => bcast1ring
  | Topology.ring2M => bcast2rinM
  | Topology.ring2 => bcast2ring

/-!
## Rings as trees
-/

/-- The distances of the processes that the root sends the panel to.  From each
of them it is passed on up to the next. -/
structure Starts (starts : List (Fin n)) : Prop where
  nodup : starts.Nodup
  ne_zero : forall d, d ∈ starts -> d.val ≠ 0
  one : forall d : Fin n, d.val = 1 -> d ∈ starts

/-- The processes that a process passes the panel on to. -/
def ringChildren (root : Fin n) (starts : List (Fin n)) (r : Fin n) :
    List (Fin n) :=
  if distance root r = 0 then starts.map (atDistance root)
  else if h : distance root r + 1 < n then
    if ⟨distance root r + 1, h⟩ ∈ starts then []
    else [atDistance root ⟨distance root r + 1, h⟩]
  else []

/-- What a ring broadcast does: the root sends, the others receive from their
neighbour or from the root and go on sending. -/
structure IsRing (root : Fin n) (starts : List (Fin n)) (panel : Fin n -> value)
    (code : Fin n -> Program value value) : Prop where
  first : code root = sendAll (panel root) (Program.ret (panel root))
    (starts.map (atDistance root))
  start : forall d, d ∈ starts -> Accepts (root : Int)
    (code (atDistance root d)) fun v => sendAll v (Program.ret v)
      (ringChildren root starts (atDistance root d))
  next : forall r q, distance root r ≠ 0 ->
    distance root q = distance root r + 1 ->
      (forall d, d ∈ starts -> d.val ≠ distance root q) ->
        Accepts (r : Int) (code q) fun v => sendAll v (Program.ret v)
          (ringChildren root starts q)

theorem IsRing.tree {root : Fin n} {starts : List (Fin n)}
    {panel : Fin n -> value} {code : Fin n -> Program value value}
    (hs : Starts starts) (h : IsRing root starts panel code) :
    Tree root (ringChildren root starts) (fun _ v => Program.ret v) code := by
  have hinj : Function.Injective (atDistance root) := by
    intro d d' heq
    have hdist := congrArg (distance root) heq
    rw [distance_atDistance, distance_atDistance] at hdist
    exact Fin.ext hdist
  constructor
  case nodup =>
    intro r
    unfold ringChildren
    split
    · exact hs.nodup.map hinj
    · split
      · split
        · exact List.nodup_nil
        · exact List.nodup_singleton _
      · exact List.nodup_nil
  case accepts =>
    intro r c hc
    unfold ringChildren at hc
    split at hc
    · rename_i hr
      rcases List.mem_map.mp hc with ⟨d, hd, rfl⟩
      rw [distance_eq_zero.mp hr]
      refine ⟨?_, h.start d hd⟩
      intro hroot
      have hdist := distance_atDistance root d
      rw [hroot, distance_self] at hdist
      exact hs.ne_zero d hd hdist.symm
    · rename_i hr
      split at hc
      · rename_i hlt
        split at hc
        · cases hc
        · rename_i hnot
          rcases List.mem_singleton.mp hc with rfl
          have hc' : distance root (atDistance root ⟨distance root r + 1, hlt⟩) =
              distance root r + 1 := distance_atDistance root _
          refine ⟨?_, h.next r _ hr hc' ?_⟩
          · intro hroot
            rw [hroot, distance_self] at hc'
            lia
          · intro d hd heq
            have hsame : d = ⟨distance root r + 1, hlt⟩ :=
              Fin.ext (heq.trans hc')
            exact hnot (hsame ▸ hd)
      · cases hc
  case parent =>
    refine ⟨distance root, ?_⟩
    intro c hc
    have hc0 : distance root c ≠ 0 := fun h0 => hc (distance_eq_zero.mp h0)
    by_cases hstart : ⟨distance root c, distance_lt root c⟩ ∈ starts
    · refine ⟨root, ?_, by rw [distance_self]; lia⟩
      rw [ringChildren, if_pos (distance_self root)]
      exact List.mem_map.mpr ⟨_, hstart, atDistance_eq rfl⟩
    · have hc1 : distance root c ≠ 1 := fun h1 =>
        hstart (hs.one ⟨distance root c, distance_lt root c⟩ h1)
      have hlt := distance_lt root c
      let d : Fin n := ⟨distance root c - 1, by lia⟩
      have hd : distance root (atDistance root d) = distance root c - 1 :=
        distance_atDistance root d
      have hnext : distance root (atDistance root d) + 1 = distance root c := by
        rw [hd]
        lia
      refine ⟨atDistance root d, ?_, by lia⟩
      have hd0 : distance root (atDistance root d) ≠ 0 := by lia
      have hd1 : distance root (atDistance root d) + 1 < n := by lia
      have hnot : ⟨distance root (atDistance root d) + 1, hd1⟩ ∉ starts := by
        simpa only [hnext] using hstart
      rw [ringChildren, if_neg hd0, dif_pos hd1, if_neg hnot,
        List.mem_singleton]
      exact (atDistance_eq hnext).symm

theorem IsRing.delivers {root : Fin n} {starts : List (Fin n)}
    {panel : Fin n -> value} {code : Fin n -> Program value value}
    (hs : Starts starts) (h : IsRing root starts panel code) :
    Delivers code fun _ => panel root := by
  have hroot : ringChildren root starts root = starts.map (atDistance root) :=
    if_pos (distance_self root)
  exact (Sync.tree (h.tree hs) (v := panel root)
    (by rw [hroot]; exact h.first)).delivers

/-!
## The four rings
-/

theorem accepts_receivePanel (partner next : Fin n) {forward : Bool}
    {l : List (Fin n)} (h : l = if forward then [next] else []) :
    Accepts (partner : Int) (receivePanel partner next forward)
      fun v : value => sendAll v (Program.ret v) l := by
  have hprogram : (receivePanel partner next forward : Program value value) =
      Program.test partner (Program.recv partner fun v =>
        sendAll v (Program.ret v) l) := by
    cases forward <;> rw [h] <;> rfl
  rw [hprogram]
  exact Accepts.test (Accepts.recv _)

/-- A program is a ring broadcast when its processes know by their distance
whom to receive from and whether to send. -/
theorem isRing_of {root : Fin n} {starts : List (Fin n)}
    (partner : Fin n -> Fin n) (forward : Fin n -> Bool)
    {panel : Fin n -> value} {code : Fin n -> Program value value}
    (hfirst : code root = sendAll (panel root) (Program.ret (panel root))
      (starts.map (atDistance root)))
    (hcode : forall r, distance root r ≠ 0 ->
      code r = receivePanel (partner r) (after root r) (forward r))
    (hs : Starts starts)
    (hstart : forall d, d ∈ starts -> forall r, distance root r = d ->
      partner r = root)
    (hnext : forall r q, distance root r ≠ 0 ->
      distance root q = distance root r + 1 ->
        (forall d, d ∈ starts -> d.val ≠ distance root q) -> partner q = r)
    (hforward : forall r, distance root r ≠ 0 ->
      (forward r = true <-> distance root r + 1 < n ∧
        forall d, d ∈ starts -> d.val ≠ distance root r + 1)) :
    IsRing root starts panel code := by
  have hchildren : forall r, distance root r ≠ 0 ->
      ringChildren root starts r =
        if forward r then [after root r] else [] := by
    intro r hr
    rw [ringChildren, if_neg hr]
    by_cases hlt : distance root r + 1 < n
    · have hafter : atDistance root ⟨distance root r + 1, hlt⟩ = after root r :=
        atDistance_eq (by rw [distance_after, Nat.mod_eq_of_lt hlt])
      rw [dif_pos hlt, hafter]
      by_cases hmem : ⟨distance root r + 1, hlt⟩ ∈ starts
      · have hno : ¬ forward r = true := fun h =>
          ((hforward r hr).mp h).right _ hmem rfl
        rw [if_pos hmem, if_neg hno]
      · have hyes : forward r = true := by
          refine (hforward r hr).mpr ⟨hlt, ?_⟩
          intro d hd heq
          have hsame : d = ⟨distance root r + 1, hlt⟩ := Fin.ext heq
          exact hmem (hsame ▸ hd)
        rw [if_neg hmem, if_pos hyes]
    · have hno : ¬ forward r = true := fun h =>
        hlt ((hforward r hr).mp h).left
      rw [dif_neg hlt, if_neg hno]
  constructor
  case first => exact hfirst
  case start =>
    intro d hd
    have hdist := distance_atDistance root d
    have hd0 : distance root (atDistance root d) ≠ 0 := by
      rw [hdist]
      exact hs.ne_zero d hd
    rw [hcode _ hd0, hstart d hd _ hdist]
    exact accepts_receivePanel root _ (hchildren _ hd0)
  case next =>
    intro r q hr hq hnot
    have hq0 : distance root q ≠ 0 := by lia
    rw [hcode _ hq0, hnext r q hr hq hnot]
    exact accepts_receivePanel r _ (hchildren _ hq0)

/-- The distance of the process where the second ring starts. -/
def half (hn : 1 < n) : Fin n :=
  ⟨(n + 1) / 2, Nat.div_lt_of_lt_mul (by lia)⟩

section Rings

variable (hn : 1 < n) (root : Fin n) (panel : Fin n -> value)

theorem starts_one : Starts [(⟨1, hn⟩ : Fin n)] where
  nodup := List.nodup_singleton _
  ne_zero d hd := by
    rw [List.mem_singleton.mp hd]
    exact Nat.one_ne_zero
  one d hd := List.mem_singleton.mpr (Fin.ext hd)

theorem starts_two (hn2 : 2 < n) : Starts [(⟨1, hn⟩ : Fin n), ⟨2, hn2⟩] := by
  constructor
  · simp
  · simp
  · intro d hd
    simp [Fin.ext_iff, hd]

theorem starts_half (hn2 : 2 < n) : Starts [(⟨1, hn⟩ : Fin n), half hn] := by
  have hhalf : (half hn).val = (n + 1) / 2 := rfl
  constructor
  · simp [Fin.ext_iff, hhalf]
    lia
  · simp [hhalf]
    lia
  · intro d hd
    simp [Fin.ext_iff, hd]

theorem at_one : atDistance root ⟨1, hn⟩ = after root root := by
  apply atDistance_eq
  rw [distance_after_eq, distance_self, Nat.zero_add, if_pos hn]

theorem at_two (hn2 : 2 < n) :
    atDistance root ⟨2, hn2⟩ = after root (after root root) := by
  have h1 : distance root (after root root) = 1 := by
    rw [distance_after_eq, distance_self, Nat.zero_add, if_pos (by lia)]
  apply atDistance_eq
  rw [distance_after_eq, h1, if_pos hn2]

theorem distance_before_before {r : Fin n} (hr : distance root r ≠ 0) :
    distance root (before root r) = distance root r - 1 ∧
      (distance root (before root (before root r)) = 0 <->
        distance root r = 2) := by
  have hb := distance_before_eq root r
  have hbb := distance_before_eq root (before root r)
  have hlt := distance_lt root r
  rw [if_neg hr] at hb
  rw [hb] at hbb
  refine ⟨hb, ?_⟩
  rw [hbb]
  split <;> lia

theorem bcast1ring_isRing :
    IsRing root [⟨1, hn⟩] panel
      fun r : Fin n => bcast1ring (panel r) root n r := by
  have hsize : ¬ (n : Int) ≤ 1 := by omega
  apply isRing_of (before root)
    (fun r => decide (distance root (after root r) ≠ 0))
  · rw [bcast1ring, if_neg hsize, if_pos rfl, mModAdd1_eq_after root root,
      List.map_singleton, at_one hn root]
    rfl
  · intro r hr
    simp only [bcast1ring, if_neg hsize, mModAdd1_eq_after root,
      mModSub1_eq_before root, ne_eq, coe_eq_iff root, distance_self, hr,
      if_false]
  · exact starts_one hn
  · intro d hd r hr
    apply before_eq_of_next
    rw [hr, List.mem_singleton.mp hd, distance_self]
  · intro r q _ hq _
    exact before_eq_of_next hq
  · intro r hr
    simp [distance_after_eq]
    lia

theorem bcast1rinM_isRing (hn2 : 2 < n) :
    IsRing root [⟨1, hn⟩, ⟨2, hn2⟩] panel
      fun r : Fin n => bcast1rinM (panel r) root n r := by
  have hsize : ¬ (n : Int) ≤ 1 := by omega
  have hsize2 : (n : Int) > 2 := by omega
  apply isRing_of
    (fun r => if distance root (before root (before root r)) = 0 then root
      else before root r)
    (fun r => decide (distance root (before root r) ≠ 0 ∧
      distance root (after root r) ≠ 0))
  · simp only [bcast1rinM, if_neg hsize, if_pos hsize2, if_true,
      mModAdd1_eq_after root, List.map_cons, List.map_nil, at_one hn root,
      at_two root hn2, sendAll]
  · intro r hr
    simp only [bcast1rinM, if_neg hsize, hsize2, true_and,
      mModAdd1_eq_after root, mModSub1_eq_before root, ne_eq, coe_eq_iff root,
      distance_self, hr, if_false]
    split <;> rfl
  · exact starts_two hn hn2
  · intro d hd r hr
    have hr0 : distance root r ≠ 0 := by
      rw [hr]
      simp only [List.mem_cons, List.not_mem_nil, or_false] at hd
      rcases hd with rfl | rfl <;> simp
    have hb := distance_before_before root hr0
    simp only [hb.right]
    split
    · rfl
    · apply distance_eq_zero.mp
      simp only [List.mem_cons, List.not_mem_nil, or_false] at hd
      rcases hd with rfl | rfl <;> simp only at hr <;> lia
  · intro r q hr hq hnot
    have hq2 : distance root q ≠ 2 := fun h2 =>
      hnot ⟨2, hn2⟩ (by simp) h2.symm
    have hq0 : distance root q ≠ 0 := by lia
    rw [if_neg (mt (distance_before_before root hq0).right.mp hq2)]
    exact before_eq_of_next hq
  · intro r hr
    have hb := distance_before_before root hr
    simp [distance_after_eq, hb.left]
    lia

theorem roo2_eq :
    mModAdd root (((n : Int) + 1) >>> (1 : Nat)) n = atDistance root (half hn) := by
  have hshift : ((n : Int) + 1) >>> (1 : Nat) = (half hn).val := by
    rw [Int.shiftRight_eq_div_pow]
    simp [half]
  rw [hshift]
  exact mModAdd_eq_atDistance root (half hn)

theorem bcast2ring_isRing (hn2 : 2 < n) :
    IsRing root [⟨1, hn⟩, half hn] panel
      fun r : Fin n => bcast2ring (panel r) root n r := by
  have hsize : ¬ (n : Int) ≤ 1 := by omega
  have hsize2 : (n : Int) > 2 := by omega
  have hhalf : (half hn).val = (n + 1) / 2 := rfl
  apply isRing_of
    (fun r => if distance root (before root r) = 0 ∨
      distance root r = (half hn).val then root else before root r)
    (fun r => decide (distance root (after root r) ≠ (half hn).val ∧
      distance root (after root r) ≠ 0))
  · simp only [bcast2ring, if_neg hsize, if_pos hsize2, if_true,
      mModAdd1_eq_after root, roo2_eq hn root, List.map_cons, List.map_nil,
      at_one hn root, sendAll]
  · intro r hr
    simp only [bcast2ring, if_neg hsize, roo2_eq hn root,
      mModAdd1_eq_after root, mModSub1_eq_before root, ne_eq, coe_eq_iff root,
      distance_self, distance_atDistance, hr, if_false]
    split <;> rfl
  · exact starts_half hn hn2
  · intro d hd r hr
    simp only [List.mem_cons, List.not_mem_nil, or_false] at hd
    rcases hd with rfl | rfl
    · have hb := distance_before_eq root r
      rw [hr, if_neg Nat.one_ne_zero] at hb
      exact if_pos (Or.inl hb)
    · exact if_pos (Or.inr hr)
  · intro r q hr hq hnot
    have hqh : distance root q ≠ (half hn).val := fun h =>
      hnot (half hn) (by simp) h.symm
    have hb := before_eq_of_next hq
    rw [hb, if_neg]
    rintro (h | h)
    · exact hr h
    · exact hqh h
  · intro r hr
    have hlt := distance_lt root r
    simp [distance_after_eq, hhalf]
    lia

/-- The distances of the processes that the root sends to: the process in the
middle may be the second one. -/
def starts2rinM (hn : 1 < n) (hn2 : 2 < n) : List (Fin n) :=
  if (half hn).val = 2 then [⟨1, hn⟩, half hn] else [⟨1, hn⟩, ⟨2, hn2⟩, half hn]

theorem mem_starts2rinM (hn2 : 2 < n) {d : Fin n} :
    d ∈ starts2rinM hn hn2 <->
      d.val = 1 ∨ d.val = 2 ∨ d.val = (half hn).val := by
  unfold starts2rinM
  split
  · simp [Fin.ext_iff]
    lia
  · simp [Fin.ext_iff]

theorem starts_starts2rinM (hn2 : 2 < n) : Starts (starts2rinM hn hn2) := by
  have hhalf : (half hn).val = (n + 1) / 2 := rfl
  constructor
  · unfold starts2rinM
    split
    · simp [Fin.ext_iff]
      lia
    · simp [Fin.ext_iff]
      lia
  · intro d hd
    rcases (mem_starts2rinM hn hn2).mp hd with h | h | h <;> lia
  · intro d hd
    exact (mem_starts2rinM hn hn2).mpr (Or.inl hd)

theorem bcast2rinM_isRing (hn2 : 2 < n) :
    IsRing root (starts2rinM hn hn2) panel
      fun r : Fin n => bcast2rinM (panel r) root n r := by
  have hsize : ¬ (n : Int) ≤ 1 := by omega
  have hsize2 : (n : Int) > 2 := by omega
  have hhalf : (half hn).val = (n + 1) / 2 := rfl
  apply isRing_of
    (fun r => if distance root (before root r) = 0 ∨
      distance root r = (half hn).val ∨
        distance root (before root (before root r)) = 0 then root
      else before root r)
    (fun r => decide (distance root (before root r) ≠ 0 ∧
      distance root (after root r) ≠ (half hn).val ∧
        distance root (after root r) ≠ 0))
  · have h2 : distance root (after root (after root root)) = 2 := by
      rw [← at_two root hn2, distance_atDistance]
    simp only [bcast2rinM, if_neg hsize, if_pos hsize2, if_true,
      mModAdd1_eq_after root, roo2_eq hn root, ne_eq, coe_eq_iff root, h2,
      distance_atDistance]
    unfold starts2rinM
    by_cases hh : (half hn).val = 2
    · simp [hh, sendAll, at_one hn root]
    · have hh' : ¬ 2 = (half hn).val := fun h => hh h.symm
      simp [hh, hh', sendAll, at_one hn root, at_two root hn2]
  · intro r hr
    simp only [bcast2rinM, if_neg hsize, roo2_eq hn root,
      mModAdd1_eq_after root, mModSub1_eq_before root, ne_eq, coe_eq_iff root,
      distance_self, distance_atDistance, hr, if_false]
    split <;> rfl
  · exact starts_starts2rinM hn hn2
  · intro d hd r hr
    have hmem := (mem_starts2rinM hn hn2).mp hd
    have hr0 : distance root r ≠ 0 := by
      rw [hr]
      exact (starts_starts2rinM hn hn2).ne_zero d hd
    have hb := distance_before_before root hr0
    apply if_pos
    rw [hb.left, hb.right]
    lia
  · intro r q hr hq hnot
    have hq0 : distance root q ≠ 0 := by lia
    have hb := distance_before_before root hq0
    have hqh : distance root q ≠ (half hn).val := fun h =>
      hnot (half hn) ((mem_starts2rinM hn hn2).mpr (Or.inr (Or.inr rfl))) h.symm
    have hq2 : distance root q ≠ 2 := fun h =>
      hnot ⟨2, hn2⟩ ((mem_starts2rinM hn hn2).mpr (Or.inr (Or.inl rfl))) h.symm
    refine (if_neg ?_).trans (before_eq_of_next hq)
    rw [hb.left, hb.right]
    lia
  · intro r hr
    have hb := distance_before_before root hr
    have hlt := distance_lt root r
    simp only [mem_starts2rinM, distance_after_eq, hb.left, decide_eq_true_eq]
    constructor
    · intro h
      refine ⟨by lia, ?_⟩
      intro d hd
      lia
    · intro h
      have h2 := h.right ⟨2, hn2⟩ (Or.inr (Or.inl rfl))
      have hh := h.right (half hn) (Or.inr (Or.inr rfl))
      simp only at h2
      lia

end Rings

theorem bcast_two (top : Topology) (panel : value) (root r : Fin 2) :
    bcast top panel root 2 r = bcast1ring panel root 2 r := by
  fin_cases root <;> fin_cases r <;> cases top <;> rfl

/-- Every run of a ring broadcast gets the panel of the root to all processes,
however often they probe in vain. -/
theorem bcast_delivers (top : Topology) (panel : Fin n -> value) (root : Fin n) :
    Delivers (fun r : Fin n => bcast top (panel r) root n r)
      fun _ => panel root := by
  by_cases hn : 1 < n
  · by_cases hn2 : 2 < n
    · cases top with
      | ring1 => exact (bcast1ring_isRing hn root panel).delivers (starts_one hn)
      | ring1M =>
          exact (bcast1rinM_isRing hn root panel hn2).delivers
            (starts_two hn hn2)
      | ring2 =>
          exact (bcast2ring_isRing hn root panel hn2).delivers
            (starts_half hn hn2)
      | ring2M =>
          exact (bcast2rinM_isRing hn root panel hn2).delivers
            (starts_starts2rinM hn hn2)
    · have htwo : n = 2 := by lia
      subst htwo
      have h := (bcast1ring_isRing hn root panel).delivers (starts_one hn)
      have hsame : (fun r : Fin 2 => bcast top (panel r) root (2 : Nat) r) =
          fun r : Fin 2 => bcast1ring (panel r) root (2 : Nat) r := by
        funext r
        exact bcast_two top (panel r) root r
      rw [hsame]
      exact h
  · have halone : (fun r : Fin n => bcast top (panel r) root n r) =
        fun _ => Program.ret (panel root) := by
      funext r
      have hr : r = root := Fin.ext (by lia)
      have hsize : (n : Int) ≤ 1 := by omega
      cases top <;>
        simp [bcast, bcast1ring, bcast1rinM, bcast2ring, bcast2rinM, hsize, hr]
    rw [halone]
    exact (Sync.refl _).delivers

end HPL
end IPPD
