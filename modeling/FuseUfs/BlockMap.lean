import FuseUfs.Lib.Bytes
import FuseUfs.Alloc
import FuseUfs.Vnode

/-! # The block map of a file

A file's blocks are found through twelve direct addresses, one indirect block and one
tree of two levels. `ufs_bmap` reads the map, `ufs_set_block` writes it and allocates
indirect blocks on the way. An indirect block that is missing has the address 0, and
`ufs_bmap` reads the block at that address all the same.
-/

namespace FuseUfs

open Lib

/-- The address at `index` of a block of addresses. -/
def getPtr (buf : Buf) (index : Nat) : Nat := leGet (fun i => buf (index * 8 + i)) 8

def setPtr (buf : Buf) (index v : Nat) : Buf := fun a =>
  if index * 8 ≤ a ∧ a < index * 8 + 8 then leByte v (a - index * 8) else buf a

section

variable (env : Env) (fs : Superblock)

/-- The block address at which `ufs_bmap` gives up and exits. -/
def poisonBlock : Nat := 1852140901

/-- Follow address `r.2` to the address at `index` of that block, unless a read failed before. -/
def followPtr (r : Int × Nat) (index : Nat) : M (Int × Nat) :=
  if r.1 ≠ 0 then pure r
  else do
    let (rc, buf) ← blkread env fs r.2 env.heap fs.fsBsize
    if rc = -1 then pure (-1, r.2) else pure (0, getPtr buf index)

/-- The walk of `ufs_bmap` through the indirect blocks. The triple range starts from the
    double indirect block, as the code has it. -/
def bmapWalk (din : Dinode) (fbn : Nat) : M (Int × Nat) :=
  let n := fs.fsNindir
  if fbn < ndaddr then pure (0, din.diDb fbn)
  else if (fbn - ndaddr) / n = 0 then followPtr env fs (0, din.diIb 0) ((fbn - ndaddr) % n)
  else
    let fbn := fbn - ndaddr - n
    if fbn / (n * n) = 0 then do
      let r ← followPtr env fs (0, din.diIb 1) (fbn / n)
      followPtr env fs r (fbn % n)
    else do
      let fbn := fbn - n * n
      let r ← followPtr env fs (0, din.diIb 1) (fbn / (n * n))
      let r ← followPtr env fs r (fbn / n)
      followPtr env fs r (fbn % n)

/-- The address of logical block `fbn`, 0 in a hole. -/
def ufsBmap (ino fbn : Nat) : M (Int × Nat) := do
  let inode ← vnode2inode ino
  let r ← bmapWalk env fs inode.iDin2 fbn
  if r.1 = 0 ∧ r.2 = poisonBlock then Prog.halt else pure r

/-- An error, or the address and the contents of an indirect block. -/
abbrev Indir := Int × Nat × Buf

/-- `blkread` of an indirect block that exists. -/
def readIndir (bno : Nat) : M Indir := do
  let (rc, buf) ← blkread env fs bno (fun _ => 0) fs.fsBsize
  if rc = -1 then pure (-enomem, bno, buf) else pure (0, bno, buf)

/-- Store `blockno` at `index` of an indirect block and write the block. -/
def writeIndir (ind : Indir) (index blockno : Nat) : M Int := do
  let rc ← blkwrite env fs ind.2.1 (setPtr ind.2.2 index blockno) fs.fsBsize
  if rc ≤ 0 then pure (-eio) else pure 0

/-- The single indirect block, allocated when it is missing. -/
def singleIndir (ino : Nat) : M Indir := do
  let inode ← vnode2inode ino
  if inode.iDin2.diIb 0 ≠ 0 then readIndir env fs (inode.iDin2.diIb 0)
  else do
    let (rc, bno) ← ufsBlockAlloc env fs inode.iNumber fs.fsBsize
    if rc ≠ 0 then pure (rc, bno, fun _ => 0)
    else do
      updateInode ino fun i => { i with
        iDin2 := { i.iDin2 with diIb := Function.update i.iDin2.diIb 0 bno } }
      pure (0, bno, fun _ => 0)

/-- The top of the double tree, allocated and cleared when it is missing. -/
def doubleIndir (ino : Nat) : M Indir := do
  let inode ← vnode2inode ino
  if inode.iDin2.diIb 1 ≠ 0 then readIndir env fs (inode.iDin2.diIb 1)
  else do
    let (rc, bno) ← ufsBlockAlloc env fs inode.iNumber fs.fsBsize
    if rc ≠ 0 then pure (rc, bno, fun _ => 0)
    else do
      let rc ← blkwrite env fs bno (fun _ => 0) fs.fsBsize
      if rc ≤ 0 then pure (-eio, bno, fun _ => 0)
      else do
        updateInode ino fun i => { i with
          iDin2 := { i.iDin2 with diIb := Function.update i.iDin2.diIb 1 bno } }
        pure (0, bno, fun _ => 0)

/-- The block at `index` below the top of the double tree, allocated and cleared when it is
    missing. -/
def middleIndir (ino : Nat) (top : Indir) (index : Nat) : M Indir := do
  let bno := getPtr top.2.2 index
  if bno ≠ 0 then readIndir env fs bno
  else do
    let inode ← vnode2inode ino
    let (rc, bno) ← ufsBlockAlloc env fs inode.iNumber fs.fsBsize
    if rc ≠ 0 then pure (rc, bno, fun _ => 0)
    else do
      let rc ← writeIndir env fs top index bno
      if rc ≠ 0 then pure (rc, bno, fun _ => 0)
      else do
        let rc ← blkwrite env fs bno (fun _ => 0) fs.fsBsize
        if rc ≤ 0 then pure (-eio, bno, fun _ => 0) else pure (0, bno, fun _ => 0)

/-- Make `blockno` the address of logical block `fbn`. -/
def ufsSetBlock (ino fbn blockno : Nat) : M Int :=
  let n := fs.fsNindir
  if fbn < ndaddr then do
    updateInode ino fun i => { i with
      iDin2 := { i.iDin2 with diDb := Function.update i.iDin2.diDb fbn blockno } }
    pure 0
  else if (fbn - ndaddr) / n = 0 then do
    let ind ← singleIndir env fs ino
    if ind.1 ≠ 0 then pure ind.1 else writeIndir env fs ind ((fbn - ndaddr) % n) blockno
  else
    let fbn := fbn - ndaddr - n
    if fbn / (n * n) = 0 then do
      let top ← doubleIndir env fs ino
      if top.1 ≠ 0 then pure top.1
      else do
        let ind ← middleIndir env fs ino top (fbn / n)
        if ind.1 ≠ 0 then pure ind.1 else writeIndir env fs ind (fbn % n) blockno
    else Prog.halt

end

end FuseUfs
