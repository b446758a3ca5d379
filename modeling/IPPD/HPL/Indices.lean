import Mathlib.Data.Int.Notation

/-!
# The index functions of the block-cyclic distribution

`src/pauxil` and `include/hpl_pauxil.h` of the linear-algebra benchmark: a
matrix dimension is cut into blocks of `nb` indices, the first of `inb`, and
the blocks are dealt to `nprocs` processes from `srcproc` on.  The functions
translate between global indices, local indices and process coordinates.
Divisions of `int` round towards zero.
-/

namespace IPPD
namespace HPL

def mPosMod (i d : Int) : Int := i - i.tdiv d * d

/-!
## From global to local indices
-/

def indxg2p (ig inb nb srcproc nprocs : Int) : Int :=
  if ig < inb ∨ srcproc = -1 ∨ nprocs = 1 then srcproc
  else
    let proc := srcproc + 1 + (ig - inb).tdiv nb
    mPosMod proc nprocs

def indxg2l (ig inb nb srcproc nprocs : Int) : Int :=
  if ig < inb ∨ srcproc = -1 ∨ nprocs = 1 then ig
  else
    let i := (ig - inb).tdiv nb
    let j := i.tdiv nprocs
    nb * (j - i) + if i + 1 - (j + 1) * nprocs ≠ 0 then ig - inb else ig

/-- The local index and the process, both at once. -/
def indxg2lp (ig inb nb srcproc nprocs : Int) : Int × Int :=
  if ig < inb ∨ srcproc = -1 ∨ nprocs = 1 then (ig, srcproc)
  else
    let i := (ig - inb).tdiv nb
    let j := i.tdiv nprocs
    let proc := srcproc + 1 + i
    (nb * (j - i) + if i + 1 - (j + 1) * nprocs ≠ 0 then ig - inb else ig,
      mPosMod proc nprocs)

/-- The macro tests the opposite of what the function tests. -/
def mindxg2p (ig inb nb src nprocs : Int) : Int :=
  if inb ≤ ig ∧ 0 ≤ src ∧ 1 < nprocs then
    let proc := src + 1 + (ig - inb).tdiv nb
    proc - proc.tdiv nprocs * nprocs
  else src

/-- The macro takes the process too and does not use it. -/
def mindxg2l (ig inb nb _proc src nprocs : Int) : Int :=
  indxg2l ig inb nb src nprocs

/-!
## From local to global indices
-/

def indxl2g (il inb nb proc srcproc nprocs : Int) : Int :=
  if srcproc = -1 ∨ nprocs = 1 then il
  else if proc = srcproc then
    if il < inb then il
    else (nprocs - 1) * nb * ((il - inb).tdiv nb + 1) + il
  else if proc < srcproc then
    nb * ((nprocs - 1) * il.tdiv nb + proc - srcproc - 1 + nprocs) + il + inb
  else
    nb * ((nprocs - 1) * il.tdiv nb + proc - srcproc - 1) + il + inb

def mindxl2g (il inb nb proc src nprocs : Int) : Int :=
  if 0 ≤ src ∧ 1 < nprocs then
    if proc = src then
      if il < inb then il
      else il + nb * (nprocs - 1) * ((il - inb).tdiv nb + 1)
    else if proc < src then
      il + inb + nb * ((nprocs - 1) * il.tdiv nb + proc - src - 1 + nprocs)
    else
      il + inb + nb * ((nprocs - 1) * il.tdiv nb + proc - src - 1)
  else il

/-!
## Numbers of local indices
-/

/-- The process that owns index `i` and what is left of its block, which
becomes the first block of the indices from `i` on. -/
def restart (i inb nb srcproc nprocs : Int) : Int × Int :=
  let inb := inb - i
  if inb ≤ 0 then
    let nblocks := (-inb).tdiv nb + 1
    let srcproc := srcproc + nblocks
    (srcproc - srcproc.tdiv nprocs * nprocs, inb + nblocks * nb)
  else (srcproc, inb)

/-- How many of the `n` indices from `i` on belong to `proc`. -/
def numrocI (n i inb nb proc srcproc nprocs : Int) : Int :=
  if srcproc = -1 ∨ nprocs = 1 then n
  else
    let (srcproc, inb) := restart i inb nb srcproc nprocs
    if proc = srcproc then
      if n ≤ inb then n
      else
        let nblocks := (n - inb).tdiv nb + 1
        if nblocks < nprocs then inb
        else
          let ilocblk := nblocks.tdiv nprocs
          if nblocks - ilocblk * nprocs ≠ 0 then inb + ilocblk * nb
          else n + (ilocblk - nblocks) * nb
    else
      if n ≤ inb then 0
      else
        let nblocks := (n - inb).tdiv nb + 1
        let mydist :=
          if proc - srcproc < 0 then proc - srcproc + nprocs
          else proc - srcproc
        if nblocks < nprocs then
          if mydist < nblocks then nb
          else if nblocks < mydist then 0
          else n - inb + nb * (1 - nblocks)
        else
          let ilocblk := nblocks.tdiv nprocs
          let mydist := mydist - (nblocks - ilocblk * nprocs)
          if mydist < 0 then (ilocblk + 1) * nb
          else if 0 < mydist then ilocblk * nb
          else n - inb + nb * (ilocblk - nblocks + 1)

def numroc (n inb nb proc srcproc nprocs : Int) : Int :=
  numrocI n 0 inb nb proc srcproc nprocs

/-- The macro has the same text for an index in the first block and for one
behind it, after `restart`. -/
def mnumrocI (n i inb nb proc src nprocs : Int) : Int :=
  if 0 ≤ src ∧ 1 < nprocs then
    let (src, inb) := restart i inb nb src nprocs
    let n' := n - inb
    if n' ≤ 0 then
      if proc = src then n else 0
    else
      let mydist := if proc - src < 0 then proc - src + nprocs else proc - src
      let nblk := n'.tdiv nb + 1
      let quot := nblk.tdiv nprocs
      let mydist := mydist - (nblk - quot * nprocs)
      if mydist < 0 then
        if proc ≠ src then nb + nb * quot else inb + nb * quot
      else if 0 < mydist then nb * quot
      else
        if proc ≠ src then n' + nb + nb * (quot - nblk)
        else n + nb * (quot - nblk)
  else n

def mnumroc (n inb nb proc src nprocs : Int) : Int :=
  mnumrocI n 0 inb nb proc src nprocs

/-!
## The start of a submatrix
-/

/-- One dimension of `HPL_infog2l`: where the indices from `i` on start in the
local array of `myroc`, and the process that owns `i`. -/
def infog2lDim (i inb nb src myroc nprocs : Int) : Int × Int :=
  if src = -1 ∨ nprocs = 1 then (i, src)
  else if i < inb then (if myroc = src then i else 0, src)
  else
    let nblocks := (i - inb).tdiv nb + 1
    let proc := src + nblocks
    let proc := proc - proc.tdiv nprocs * nprocs
    if myroc = src then
      if nblocks < nprocs then (inb, proc)
      else
        let ilocblk := nblocks.tdiv nprocs
        if nblocks ≤ ilocblk * nprocs then
          (if myroc = proc then i + (ilocblk - nblocks) * nb
            else inb + (ilocblk - 1) * nb, proc)
        else (inb + ilocblk * nb, proc)
    else
      let i := i - inb
      let mydist := if myroc - src < 0 then myroc - src + nprocs else myroc - src
      if nblocks < nprocs then
        let mydist := mydist - nblocks
        (if mydist < 0 then nb
          else if myroc = proc then i + (1 - nblocks) * nb
          else 0, proc)
      else
        let ilocblk := nblocks.tdiv nprocs
        let mydist := mydist - (nblocks - ilocblk * nprocs)
        (if mydist < 0 then (ilocblk + 1) * nb
          else if myroc = proc then (ilocblk - nblocks + 1) * nb + i
          else ilocblk * nb, proc)

/-- `HPL_infog2l` does the rows and then the columns: the results are `II` with
`PROW` and `JJ` with `PCOL`. -/
def infog2l (i j imb mb inb nb rsrc csrc myrow mycol nprow npcol : Int) :
    (Int × Int) × (Int × Int) :=
  (infog2lDim i imb mb rsrc myrow nprow, infog2lDim j inb nb csrc mycol npcol)

end HPL
end IPPD
