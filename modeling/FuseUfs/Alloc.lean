import FuseUfs.CylinderGroup

/-! # Allocating and freeing fragments

`ufs_block_alloc` tries the cylinder group of the inode first, then the others in the
order of `ufs_hashalloc`; `ufs_block_free` gives fragments of one block back. Every
change of a group goes with the same change of its in-core summary and of the total.
-/

namespace FuseUfs

open Lib BitMap

def Csum.addNbfree (cs : Csum) (n : Int) : Csum := { cs with csNbfree := cs.csNbfree + n }

def Csum.addNffree (cs : Csum) (n : Int) : Csum := { cs with csNffree := cs.csNffree + n }

/-- `fs_cstotal` and `fs_cs(fs, cg)` take the same change. -/
def State.summary (s : State) (cg : Nat) (change : Csum → Csum) : State :=
  { s with
    fsCstotal := change s.fsCstotal
    fsCsp := Function.update s.fsCsp cg (change (s.fsCsp cg))
    fsFmod := true }

section

variable (env : Env) (fs : Superblock)

/-- `ffs_clusteracct` on a group that is in memory; the largest cluster goes to the mount. -/
def clusteracct (cgp : Cg) (blkno : Nat) (cnt : Int) : M Cg := do
  let (cgp', most) := ffsClusteracct fs cgp blkno cnt
  match most with
  | some n =>
      Prog.modify fun s => { s with fsMaxcluster := Function.update s.fsMaxcluster cgp.cgCgx n }
  | none => pure ()
  pure cgp'

/-- Take the block at fragment `bno` of a group out of its map. -/
def takeBlock (cgp : Cg) (bno : Nat) : M (Nat × Cg) := do
  let blkno := fs.fragstoblks bno
  let cgp := { cgp with cgBlksfree := ffsClrblock fs cgp.cgBlksfree blkno }
  let cgp ← clusteracct fs cgp blkno (-1)
  let cgp := { cgp with cgCs := cgp.cgCs.addNbfree (-1) }
  Prog.modify fun s => s.summary cgp.cgCgx (·.addNbfree (-1))
  pure (fs.cgbase cgp.cgCgx + bno, cgp)

/-- Take a whole block of the group, the preferred one if it is free; 0 if there is none. -/
def ufsAlloccgblk (cgp : Cg) (bpref : Nat) : M (Nat × Cg) :=
  let wanted := fs.dtogd (fs.blknum bpref)
  let foreign := bpref = 0 ∨ fs.dtog bpref ≠ cgp.cgCgx
  if ¬ foreign ∧ ffsIsblock fs cgp.cgBlksfree (fs.fragstoblks wanted) = true then
    takeBlock fs cgp wanted
  else
    match ffsMapsearch fs cgp (if foreign then cgp.cgRotor else fs.blknum bpref) fs.fsFrag with
    | (none, cgp) => pure (0, cgp)
    | (some bno, cgp) => takeBlock fs { cgp with cgRotor := bno } bno

/-- The smallest run size from `allocsiz` on that the group has, `fs_frag` if it has none. -/
def pickAllocsiz (frsum : Nat → Int) : (left allocsiz : Nat) → Nat
  | 0, allocsiz => allocsiz
  | left + 1, allocsiz =>
      if frsum allocsiz ≠ 0 then allocsiz else pickAllocsiz frsum left (allocsiz + 1)

/-- Split a whole block: its first `frags` fragments are taken, the others become free. -/
def splitBlock (cg : Nat) (cgp : Cg) (bpref frags : Nat) : M Nat := do
  let (blkno, cgp) ← ufsAlloccgblk fs cgp bpref
  let bno := fs.dtogd blkno
  let i := fs.fsFrag - frags
  let cgp := { cgp with
    cgBlksfree := cgp.cgBlksfree.setbits (bno + frags) i
    cgCs := cgp.cgCs.addNffree i
    cgFrsum := Function.update cgp.cgFrsum i (cgp.cgFrsum i + 1) }
  Prog.modify fun s => s.summary cg (·.addNffree i)
  let _ ← blkwriteCg env cg cgp
  pure blkno

/-- Take the first `frags` fragments of a free run of exactly `allocsiz`. -/
def carveRun (cg : Nat) (cgp : Cg) (bpref allocsiz frags : Nat) : M Nat :=
  match ffsMapsearch fs cgp bpref allocsiz with
  | (none, _) => pure 0
  | (some bno, cgp) => do
      let frsum := Function.update cgp.cgFrsum allocsiz (cgp.cgFrsum allocsiz - 1)
      let cgp := { cgp with
        cgBlksfree := cgp.cgBlksfree.clrbits bno frags
        cgCs := cgp.cgCs.addNffree (-frags)
        cgFrsum := if frags ≠ allocsiz
          then Function.update frsum (allocsiz - frags) (frsum (allocsiz - frags) + 1)
          else frsum }
      Prog.modify fun s => s.summary cg (·.addNffree (-frags))
      let _ ← blkwriteCg env cg cgp
      pure (fs.cgbase cg + bno)

/-- Allocate `size` bytes in one group; 0 stands for failure. A negative size makes the
    code index `cg_frsum` below its start. -/
def ufsAlloccg (size : Int) (cg bpref : Nat) : M Nat := do
  let s ← Prog.get
  if (s.fsCsp cg).csNbfree = 0 ∧ size = fs.fsBsize then pure 0
  else do
    match ← blkreadCg env cg with
    | none => pure 0
    | some cgp =>
        if cgp.chkmagic = false ∨ (cgp.cgCs.csNbfree = 0 ∧ size = fs.fsBsize) then pure 0
        else do
          let cgp := { cgp with cgTime := env.now }
          if size = fs.fsBsize then do
            let (blkno, cgp) ← ufsAlloccgblk fs cgp bpref
            let _ ← blkwriteCg env cg cgp
            pure blkno
          else if size < 0 then Prog.halt
          else do
            let frags := fs.numfrags size.toNat
            let allocsiz := pickAllocsiz cgp.cgFrsum (fs.fsFrag - frags) frags
            if allocsiz = fs.fsFrag then
              if cgp.cgCs.csNbfree = 0 then pure 0
              else splitBlock env fs cg cgp bpref frags
            else carveRun env fs cg cgp bpref allocsiz frags

/-- Quadratic rehash: the groups at distances 1, 3, 7, … -/
def rehash (allocator : Nat → Nat → M Nat) : (left i cg : Nat) → M Nat
  | 0, _, _ => pure 0
  | left + 1, i, cg =>
      if i < fs.fsNcg then do
        let cg := if fs.fsNcg ≤ cg + i then cg + i - fs.fsNcg else cg + i
        let result ← allocator cg 0
        if result ≠ 0 then pure result else rehash allocator left (i * 2) cg
      else pure 0

/-- Brute force: the groups one after the other. -/
def bruteForce (allocator : Nat → Nat → M Nat) : (left cg : Nat) → M Nat
  | 0, _ => pure 0
  | left + 1, cg => do
      let result ← allocator cg 0
      if result ≠ 0 then pure result
      else bruteForce allocator left (if cg + 1 = fs.fsNcg then 0 else cg + 1)

/-- Try the preferred group, then a quadratic rehash, then all the others. -/
def ufsHashalloc (cg pref : Nat) (allocator : Nat → Nat → M Nat) : M Nat := do
  let result ← allocator cg pref
  if result ≠ 0 then pure result
  else do
    let result ← rehash fs allocator fs.fsNcg 1 cg
    if result ≠ 0 then pure result
    else bruteForce fs allocator (fs.fsNcg - 2) ((cg + 2) % fs.fsNcg)

/-- The block address -1. -/
def badBlock : Nat := 2 ^ 64 - 1

/-- Returns the error and the block address it stores through `blkno`. -/
def ufsBlockAlloc (ino : Nat) (size : Int) : M (Int × Nat) := do
  let s ← Prog.get
  if (fs.fsBsize : Int) < size then pure (-einval, badBlock)
  else if size = fs.fsBsize ∧ s.fsCstotal.csNbfree = 0 then pure (-enospc, badBlock)
  else do
    let blkno ← ufsHashalloc fs (fs.inoToCg ino) 0 (ufsAlloccg env fs size)
    if blkno = 0 then pure (-enospc, 0) else pure (0, blkno)

/-- Put back the `frags` fragments from `cgbno` on, less than a block of them. -/
def freeFrags (cg : Nat) (cgp : Cg) (cgbno frags : Nat) : M Cg := do
  let bbase := cgbno - fs.fragnum cgbno
  let frsum := ffsFragacct fs (blkmap fs cgp.cgBlksfree bbase) cgp.cgFrsum (-1)
  let map := cgp.cgBlksfree.setbits cgbno frags
  let frsum := ffsFragacct fs (blkmap fs map bbase) frsum 1
  let cgp := { cgp with
    cgFrsum := frsum
    cgBlksfree := map
    cgCs := cgp.cgCs.addNffree frags }
  Prog.modify fun s => s.summary cg (·.addNffree frags)
  let fragno := fs.fragstoblks bbase
  if ffsIsblock fs map fragno then do
    let cgp := { cgp with cgCs := cgp.cgCs.addNffree (-fs.fsFrag) }
    Prog.modify fun s => s.summary cg (·.addNffree (-fs.fsFrag))
    let cgp ← clusteracct fs cgp fragno 1
    Prog.modify fun s => s.summary cg (·.addNbfree 1)
    pure { cgp with cgCs := cgp.cgCs.addNbfree 1 }
  else pure cgp

/-- Put a whole block back. -/
def freeBlock (cg : Nat) (cgp : Cg) (cgbno : Nat) : M Cg := do
  let fragno := fs.fragstoblks cgbno
  let cgp := { cgp with cgBlksfree := ffsSetblock fs cgp.cgBlksfree fragno }
  let cgp ← clusteracct fs cgp fragno 1
  Prog.modify fun s => s.summary cg (·.addNbfree 1)
  pure { cgp with cgCs := cgp.cgCs.addNbfree 1 }

/-- The bytes given back are a whole block or fragments of one. -/
def freeSize (cg : Nat) (cgp : Cg) (cgbno size : Nat) : M Cg :=
  if size = fs.fsBsize then freeBlock fs cg cgp cgbno
  else freeFrags fs cg cgp cgbno (fs.numfrags size)

/-- Give `size` bytes of fragments back, from fragment `bno` on. The group is written back
    as a whole block, so what follows it in the block is whatever lies in memory behind the
    group's buffer. -/
def ufsBlockFree (bno size : Nat) : M Unit := do
  let cg := fs.dtog bno
  if fs.fsSize ≤ bno % 2 ^ 32 then pure ()
  else do
    match ← blkreadCg env cg with
    | none => pure ()
    | some cgp =>
        if cgp.chkmagic = false then pure ()
        else do
          let cgp := { cgp with cgTime := env.now }
          let cgp ← freeSize fs cg cgp (fs.dtogd bno) size
          Prog.modify fun s => { s with fsFmod := true }
          let _ ← blkwriteCg env cg { cgp with cgTail := env.heap }
          pure ()

end

end FuseUfs
