import FuseUfs.BlockMap

/-! # Cutting a file

`ufs_truncate` walks from the last block down to the block of the new end, both
included, and gives every block on the way back; a cut inside the last block moves the
fragments of that block instead. A second walk gives the indirect blocks back. The size
in the inode is left to the caller.
-/

namespace FuseUfs

open Lib

section

variable (env : Env) (fs : Superblock)

/-- A loop counter of type `blk_t`. -/
def asBlk (i : Int) : Nat := (i % 2 ^ 32).toNat

/-- `lblkno` of a size, in an `int`. -/
def lblknoInt (size : Int) : Int := asInt32 (size / fs.fsBsize)

/-- `numfrags(fs, fragroundup(fs, size))`. -/
def fragsOf (size : Int) : Int := (size + fs.fsQfmask) / fs.fsFsize

/-- The fragments of the last block of a file, in bytes. -/
def lastBlockSize (size : Nat) : Nat :=
  if size % fs.fsBsize ≠ 0 then fs.fragroundup (size % fs.fsBsize) else fs.fsBsize

/-- Free the block at the second level of the double tree that starts at logical block
    `fbn`, if there is one. -/
def ufsClearIndirect (ino fbn : Nat) : M Int := do
  let n := fs.fsNindir
  let fbn := asBlk (fbn - ndaddr)
  if fbn < ndaddr ∨ fbn % n ≠ 0 ∨ fbn / n = 0 then pure 0
  else do
    let inode ← vnode2inode ino
    let fbn := fbn - n
    let top := inode.iDin2.diIb 1
    if top = 0 then pure 0
    else if fbn / (n * n) = 0 then clearAt top env.heap (fbn / n)
    else do
      let fbn := fbn - n * n
      let (rc, buf) ← blkread env fs top env.heap fs.fsBsize
      if rc = -1 then pure (-1)
      else
        let mid := getPtr buf (fbn / (n * n))
        if mid = 0 then pure 0 else clearAt mid buf (fbn / n)
where
  /-- Free the block whose address is at `index` of block `bno`, and clear the address. -/
  clearAt (bno : Nat) (buf : Buf) (index : Nat) : M Int := do
    let (rc, buf) ← blkread env fs bno buf fs.fsBsize
    if rc = -1 then pure (-1)
    else if getPtr buf index ≠ 0 then do
      ufsBlockFree env fs (getPtr buf index) fs.fsBsize
      let _ ← blkwrite env fs bno (setPtr buf index 0) fs.fsBsize
      pure 0
    else pure 0

/-- The bytes that survive a cut inside the last block. -/
def partialBuf (blkno : Nat) (size : Nat) (iSize : Nat) (newsize : Int) : M Buf := do
  let (_, buf) ← blkread env fs blkno (fun _ => 0) size
  let start := (newsize % fs.fsBsize).toNat
  pure fun j => if start ≤ j ∧ j < start + ((iSize : Int) - newsize).toNat then 0 else buf j

/-- A cut inside the last block: the fragments that go are freed, as many are allocated, and
    the block is moved there. -/
def truncatePartial (ino : Nat) (i : Int) (blkno size iSize : Nat) (newsize : Int) : M Int := do
  let buf ← partialBuf env fs blkno size iSize newsize
  ufsBlockFree env fs blkno size
  let inode ← vnode2inode ino
  let (rc, blkno) ← ufsBlockAlloc env fs inode.iNumber size
  if rc ≠ 0 then pure rc
  else do
    let rc ← ufsSetBlock env fs ino (asBlk i) blkno
    if rc ≠ 0 then pure rc
    else do
      let _ ← blkwrite env fs blkno buf size
      pure 0

/-- Give a whole logical block back. -/
def truncateBlock (ino : Nat) (i : Int) (blkno size : Nat) : M Int := do
  ufsBlockFree env fs blkno size
  ufsSetBlock env fs ino (asBlk i) 0

/-- The walk over the data blocks, from `i` down to `newFbn`; `none` when the walk is over, and
    the code goes on to the indirect blocks. -/
def truncateData (ino iSize : Nat) (newsize oldFbn newFbn : Int) : (left : Nat) → Int → M (Option Int)
  | 0, _ => pure none
  | left + 1, i =>
      if i < newFbn then pure none
      else do
        let (rc, blkno) ← ufsBmap env fs ino (asBlk i)
        if rc ≠ 0 then pure (some rc)
        else
          let last := oldFbn < ndaddr ∧ i = oldFbn
          if last ∧ newFbn = oldFbn then
            if fragsOf fs newsize = fragsOf fs iSize then pure (some 0)
            else do
              let size := ((fragsOf fs iSize - fragsOf fs newsize) * fs.fsFsize).toNat
              let rc ← cutLast blkno size i
              if rc ≠ 0 then pure (some rc)
              else truncateData ino iSize newsize oldFbn newFbn left (i - 1)
          else do
            let rc ← dropBlock blkno (if last then lastBlockSize fs iSize else fs.fsBsize) i
            if rc ≠ 0 then pure (some rc)
            else truncateData ino iSize newsize oldFbn newFbn left (i - 1)
where
  cutLast (blkno size : Nat) (i : Int) : M Int :=
    if blkno = 0 then pure 0
    else if newsize = 0 then truncateBlock env fs ino i blkno size
    else truncatePartial env fs ino i blkno size iSize newsize
  dropBlock (blkno size : Nat) (i : Int) : M Int :=
    if blkno = 0 then pure 0 else truncateBlock env fs ino i blkno size

/-- Free the indirect block at entry `k` of the inode. -/
def freeIb (ino k : Nat) : M Unit := do
  let inode ← vnode2inode ino
  if inode.iDin2.diIb k ≠ 0 then ufsBlockFree env fs (inode.iDin2.diIb k) fs.fsBsize
  else pure ()
  updateInode ino fun i => { i with
    iDin2 := { i.iDin2 with diIb := Function.update i.iDin2.diIb k 0 } }

/-- What the second walk does at logical block `i`. -/
def truncateIndirAt (ino : Nat) (i : Nat) : M Unit := do
  let n := fs.fsNindir
  clearHere
  if i = ndaddr then freeIb env fs ino 0
  else if i = n + ndaddr then freeIb env fs ino 1
  else if i = n * n + n + ndaddr then freeIb env fs ino 2
  else pure ()
where
  clearHere : M Unit :=
    if (i - ndaddr) % fs.fsNindir = 0 then do
      let _ ← ufsClearIndirect env fs ino i
      pure ()
    else pure ()

/-- The walk over the indirect blocks. -/
def truncateIndir (ino : Nat) (newFbn : Int) : (left : Nat) → Int → M Unit
  | 0, _ => pure ()
  | left + 1, i =>
      if newFbn < i then
        if ndaddr ≤ asBlk i then do
          truncateIndirAt env fs ino (asBlk i)
          let extra := (asBlk i - ndaddr) % fs.fsNindir
          truncateIndir ino newFbn left (i - (if extra ≠ 0 then extra else fs.fsNindir))
        else pure ()
      else pure ()

/-- Cut the file behind a vnode to `newsize` bytes. -/
def ufsTruncate (ino : Nat) (newsize : Int) : M Int := do
  let inode ← vnode2inode ino
  let newFbn := lblknoInt fs newsize
  let oldFbn := lblknoInt fs inode.iSize
  let left := (oldFbn - newFbn + 1).toNat
  match ← truncateData env fs ino inode.iSize newsize oldFbn newFbn left oldFbn with
  | some rc => pure rc
  | none => do
      truncateIndir env fs ino newFbn left oldFbn
      ufsWriteInode env fs ino

end

end FuseUfs
