import FuseUfs.VnodePut
import FuseUfs.FileIO

/-! # Directories

A directory is a file of records. Each block of 512 bytes is tiled by the records in it;
a record that is not in use has inode 0, and a deleted one is given to the record before
it. `ufs_dir_iterate` walks the records a block of the file at a time and hands each to a
procedure, which may change the block and may end the walk.

The buffer is memory of the process, so a procedure that looks past it finds what is
there. A record of length 0 stops the walk for good, and so does a null pointer; `none`
stands for the latter.
-/

namespace FuseUfs

open Lib

/-! ## Records -/

def dirblksiz : Nat := 512
def maxnamlen : Nat := 255
def direntChanged : Int := 1
def direntAbort : Int := 2

/-- The low `k` bytes of `v` stored from `off` on. -/
def putLe (buf : Buf) (off k v : Nat) : Buf := fun a =>
  if off ≤ a ∧ a < off + k then leByte v (a - off) else buf a

/-- The bytes of a name stored from `off` on, and zeros up to `len` bytes. -/
def putName (buf : Buf) (off len : Nat) (name : List Byte) : Buf := fun a =>
  if off ≤ a ∧ a < off + len then name.getD (a - off) 0 else buf a

section Record

variable (buf : Buf) (off : Nat)

def dIno : Nat := leGet (fun i => buf (off + i)) 4

def dReclen : Nat := leGet (fun i => buf (off + 4 + i)) 2

def dNamlen : Nat := (buf (off + 7)).toNat

/-- The name of the record. -/
def dName : List Byte := (List.range (dNamlen buf off)).map fun i => buf (off + 8 + i)

def setIno (ino : Nat) : Buf := putLe buf off 4 ino

def setReclen (len : Nat) : Buf := putLe buf (off + 4) 2 len

def setType (type : Nat) : Buf := putLe buf (off + 6) 1 type

def setNamlen (len : Nat) : Buf := putLe buf (off + 7) 1 len

end Record

/-- `UFS_DIR_REC_LEN`. -/
def ufsDirRecLen (namlen : Nat) : Nat := (8 + (namlen + 1) + 3) / 4 * 4

/-- What is done with the record at `off`: the value returned, the buffer and the private data. -/
abbrev DirProc (σ : Type) := Buf → (off : Nat) → σ → Option (Int × Buf × σ)

/-- Whether bit `k` of the value is set, as an `int`. -/
def hasBit (ret : Int) (k : Nat) : Bool := (ret % 2 ^ 32).toNat.testBit k

/-! ## Walking over a directory -/

section

variable (env : Env) (fs : Superblock) {σ : Type}

/-- How a walk stands: the value to return, whether the code has left for `out`, the buffer and
    the private data. -/
structure Walk (σ : Type) where
  ret : Int
  out : Bool
  buf : Buf
  priv : σ

/-- Write the block back if the procedure changed it. -/
def writeChanged (blkno : Nat) (blksize : Int) (ret : Int) (buf : Buf) : M Int :=
  if hasBit ret 0 then blkwrite env fs blkno buf blksize else pure 0

/-- The records of one block. A turn that goes on moves by a byte at least, or never again. -/
def dirRecords (func : DirProc σ) (dirSize : Nat) (pos : Int) (blkno : Nat) (blksize : Int) :
    (left offset : Nat) → Walk σ → M (Walk σ)
  | left, offset, w =>
      if (offset : Int) < blksize ∧ asU64 (asInt32 (pos + offset)) < dirSize then
        match left with
        | 0 => Prog.halt
        | left + 1 =>
            match func w.buf offset w.priv with
            | none => Prog.halt
            | some (ret, buf, priv) => do
                let rc ← writeChanged env fs blkno blksize ret buf
                if rc = -1 then pure ⟨-eio, true, buf, priv⟩
                else if hasBit ret 1 then pure ⟨0, true, buf, priv⟩
                else
                  dirRecords func dirSize pos blkno blksize left (offset + dReclen buf offset)
                    ⟨ret, false, buf, priv⟩
      else pure w

/-- The blocks of a directory from block `i` on, at position `pos`. -/
def dirBlocks (func : DirProc σ) (dirino dirSize : Nat) : (left i : Nat) → (pos : Int) → Walk σ →
    M (Walk σ)
  | 0, _, _, w => pure w
  | left + 1, i, pos, w =>
      if 2 ^ 31 ≤ i then Prog.halt
      else do
        let (rc, blkno) ← ufsBmap env fs dirino i
        if rc ≠ 0 then pure { w with ret := -eio, out := true }
        else do
          let inode ← vnode2inode dirino
          let blksize := ufsInodeIoSize fs inode pos false
          let (rc, buf) ← blkread env fs blkno w.buf blksize.toNat
          if rc = -1 then pure ⟨-eio, true, buf, w.priv⟩
          else do
            let w ← dirRecords env fs func dirSize pos blkno blksize fs.fsBsize 0 ⟨0, false, buf, w.priv⟩
            if w.out then pure w
            else dirBlocks func dirino dirSize left (i + 1) (asInt32 (pos + blksize)) w

def ufsDirIterate (dirino : Nat) (func : DirProc σ) (priv : σ) : M (Int × σ) := do
  vnodeGet env fs dirino
  let inode ← vnode2inode dirino
  let w ← dirBlocks env fs func dirino inode.iSize (howmany inode.iSize fs.fsBsize) 0 0
    ⟨0, false, env.heap, priv⟩
  let _ ← vnodePut env fs dirino false
  pure (w.ret, w.priv)

/-! ## Looking a name up -/

/-- The private data is the inode found, 0 before. -/
def lookupProc (name : List Byte) : DirProc Nat := fun buf off found =>
  if dIno buf off = 0 then some (0, buf, found)
  else if name = dName buf off then some (direntAbort, buf, dIno buf off)
  else some (0, buf, found)

/-- The error, and the inode stored through `ino`. -/
def ufsLookup (dir : Nat) (name : List Byte) : M (Int × Nat) := do
  let (rc, ino) ← ufsDirIterate env fs dir (lookupProc name) 0
  if rc ≠ 0 then pure (rc, ino)
  else pure (if ino ≠ 0 then 0 else enoent, ino)

/-! ## Entering a name -/

/-- The record, with the unused one after it joined to it if there is one: the value so far, the
    length and the buffer. -/
def absorbNext (buf : Buf) (off : Nat) : Int × Nat × Buf :=
  let len := dReclen buf off
  let next := off + len
  if off % dirblksiz + len < dirblksiz - 8 ∧ dIno buf next = 0 ∧
      off % dirblksiz + len + dReclen buf next ≤ dirblksiz then
    (direntChanged, len + dReclen buf next, setReclen buf off (len + dReclen buf next))
  else (0, len, buf)

/-- Split the end of a used record off, as an unused record. -/
def splitRecord (buf : Buf) (off len minLen : Nat) : Buf :=
  let buf := setReclen buf off minLen
  let next := off + dReclen buf off
  setReclen (setNamlen (setIno buf next 0) next 0) next (len - minLen)

/-- Fill an unused record. -/
def fillRecord (buf : Buf) (off : Nat) (name : List Byte) (ino flags : Nat) : Buf :=
  let buf := setIno buf off ino
  let buf := setNamlen buf off name.length
  let buf := setType buf off (iftodt flags)
  putName buf (off + 8) (name.length + 1) name

/-- The private data says whether the name has been entered. -/
def linkProc (name : List Byte) (ino flags : Nat) : DirProc Bool := fun buf off done =>
  let recLen := ufsDirRecLen name.length
  let (ret, len, buf) := absorbNext buf off
  if dIno buf off ≠ 0 then
    let minLen := ufsDirRecLen (dNamlen buf off)
    if len < minLen + recLen then some (ret, buf, done)
    else some (direntChanged, splitRecord buf off len minLen, done)
  else if len < recLen then some (ret, buf, done)
  else some (direntAbort + direntChanged, fillRecord buf off name ino flags, true)

/-- A block of the directory that holds one record. -/
def ufsInitDirBlock (buf : Buf) (off ino flags : Nat) (name : List Byte) : Buf :=
  let buf := putName buf off dirblksiz []
  let buf := setIno buf off ino
  let buf := setReclen buf off dirblksiz
  let buf := setType buf off (iftodt flags)
  let buf := setNamlen buf off (min maxnamlen name.length)
  putName buf (off + 8) (maxnamlen + 1) name

/-- Load what the last block of the directory already holds: the error, the address, the bytes. -/
def appendLoad (dIno dirBlkno oldBytes : Nat) : M (Int × Nat × Buf) :=
  if 0 < oldBytes then do
    let (rc, blkno) ← ufsBmap env fs dIno (dirBlkno % 2 ^ 32)
    if rc ≠ 0 then pure (-eio, blkno, env.heap)
    else do
      let (rc, buf) ← blkread env fs blkno env.heap oldBytes
      pure (if rc = -1 then -eio else 0, blkno, buf)
  else pure (0, 0, env.heap)

/-- A place for the last block when it needs more fragments: the error and the address. The old
    fragments go after the new ones have been taken. -/
def appendPlace (dIno dirBlkno oldFragsiz newFragsiz blkno : Nat) : M (Int × Nat) :=
  if oldFragsiz < newFragsiz then do
    let inode ← vnode2inode dIno
    let (rc, new) ← ufsBlockAlloc env fs inode.iNumber newFragsiz
    if rc ≠ 0 then pure (rc, new)
    else do
      let rc ← ufsSetBlock env fs dIno (dirBlkno % 2 ^ 32) new
      if rc ≠ 0 then pure (rc, new)
      else if 0 < oldFragsiz then do
        ufsBlockFree env fs blkno oldFragsiz
        pure (0, new)
      else pure (0, new)
  else pure (0, blkno)

/-- The body of `ufs_dir_append`, between `vnode_get` and `vnode_put`. -/
def appendBody (dIno fIno fFlags : Nat) (name : List Byte) : M Int := do
  let inode ← vnode2inode dIno
  let oldSize := inode.iSize
  let newSize := oldSize + dirblksiz
  let dirBlkno := oldSize / fs.fsBsize
  let oldBytes := oldSize % fs.fsBsize
  let newBytes := (newSize - 1) % fs.fsBsize + 1
  let (rc, blkno, buf) ← appendLoad env fs dIno dirBlkno oldBytes
  if rc ≠ 0 then pure rc
  else do
    let buf := ufsInitDirBlock buf oldBytes fIno fFlags name
    let (rc, blkno) ← appendPlace env fs dIno dirBlkno (fs.fragroundup oldBytes)
      (fs.fragroundup newBytes) blkno
    if rc ≠ 0 then pure rc
    else do
      let rc ← blkwrite env fs blkno buf newBytes
      if rc = -1 then pure (-eio)
      else do
        updateInode dIno fun i => { i with iSize := newSize % 2 ^ 64 }
        pure 0

/-- Add a block with one record to a directory. -/
def ufsDirAppend (dIno fIno fFlags : Nat) (name : List Byte) : M Int := do
  vnodeGet env fs dIno
  let err ← appendBody env fs dIno fIno fFlags name
  let _ ← vnodePut env fs dIno true
  pure err

def ufsAddnamedir (dir : Nat) (name : List Byte) (ino flags : Nat) : M Int := do
  let s ← Prog.get
  if s.fsRonly then pure erofs
  else do
    let (rc, done) ← ufsDirIterate env fs dir (linkProc name ino flags) false
    if rc ≠ 0 then pure rc
    else if done then pure 0
    else do
      let rc ← ufsDirAppend env fs dir ino flags name
      if rc ≠ 0 then pure (-enospc) else pure 0

def linkMax : Int := 255

/-- A value stored in the signed 16-bit link count. -/
def asInt16 (n : Int) : Int := Int.bmod n (2 ^ 16)

/-- The link count as an unsigned `nlink_t`. -/
def asNlink (n : Int) : Nat := (n % 2 ^ 64).toNat

/-- Change both link counts of an inode. -/
def addLink (d : Int) (i : Inode) : Inode :=
  { i with iEffnlink := asInt32 (i.iEffnlink + d), iNlink := asInt16 (i.iNlink + d) }

/-- Enter `name` for the inode behind `vnode`; a name that cannot be entered is not counted. -/
def ufsLink (dirIno : Nat) (name : List Byte) (vnode mode : Nat) : M Int := do
  let ip ← vnode2inode vnode
  if linkMax ≤ asNlink ip.iNlink then pure emlink
  else do
    updateInode vnode (addLink 1)
    let rc ← ufsAddnamedir env fs dirIno name ip.iNumber mode
    if rc ≠ 0 then do
      updateInode vnode (addLink (-1))
      pure rc
    else pure 0

/-! ## Removing a name -/

/-- The private data is the last used record before this one. The record goes to that one; the
    first of a block only becomes unused. -/
def unlinkProc (name : List Byte) (ino : Nat) : DirProc (Option Nat) := fun buf off prev =>
  if dIno buf off = 0 then some (0, buf, prev)
  else if dName buf off ≠ name ∨ (ino ≠ 0 ∧ dIno buf off ≠ ino) then some (0, buf, some off)
  else if off % dirblksiz ≠ 0 then
    match prev with
    | none => none
    | some p =>
        some (direntAbort + direntChanged, setReclen buf p (dReclen buf p + dReclen buf off), some off)
  else some (direntAbort + direntChanged, setIno buf off 0, some off)

def ufsUnlink (dirIno : Nat) (name : List Byte) (fileIno : Nat) : M Int := do
  let s ← Prog.get
  if s.fsRonly then pure erofs
  else do
    let (rc, _) ← ufsDirIterate env fs dirIno (unlinkProc name fileIno) none
    pure rc

/-! ## Looking at the whole directory -/

def dot : Byte := 0x2e

/-- The private data says whether only `.` and `..` have been seen. -/
def rmdirProc : DirProc Bool := fun buf off empty =>
  if dIno buf off = 0 then some (0, buf, empty)
  else if (dNamlen buf off = 1 ∧ buf (off + 8) = dot) ∨
      (dNamlen buf off = 2 ∧ buf (off + 8) = dot ∧ buf (off + 9) = dot) then some (0, buf, empty)
  else some (0, buf, false)

def doCheckEmptyDir (ino : Nat) : M Int := do
  let (rc, empty) ← ufsDirIterate env fs ino rmdirProc true
  if rc ≠ 0 then pure (-eio) else if empty then pure 0 else pure (-enotempty)

def fixDotdotProc (dotdot : Nat) : DirProc Unit := fun buf off _ =>
  if dNamlen buf off = 2 ∧ buf (off + 8) = dot ∧ buf (off + 9) = dot then
    some (direntAbort + direntChanged, setIno buf off dotdot, ())
  else some (0, buf, ())

def doFixDotdot (ino dotdot : Nat) : M Int := do
  let (rc, _) ← ufsDirIterate env fs ino (fixDotdotProc dotdot) ()
  if rc ≠ 0 then pure (-eio) else pure 0

/-- The C string that starts at `off`, at most `len` bytes of it. -/
def cstring (buf : Buf) (off len : Nat) : List Byte :=
  ((List.range len).map fun i => buf (off + i)).takeWhile (· ≠ 0)

/-- Hand the used records to `filler`, with its own data `ρ`. -/
def walkDir {ρ : Type} (filler : ρ → List Byte → (ino : Nat) → Int × ρ) : DirProc ρ := fun buf off r =>
  if dIno buf off = 0 then some (0, buf, r)
  else
    let (ret, r) := filler r (cstring buf (off + 8) (dNamlen buf off)) (dIno buf off)
    some (ret, buf, r)

/-! ## A new directory -/

/-- The first block of a new directory, with the records for `.` and `..`. -/
def ufsNewDirBlock (dirIno parentIno : Nat) : Buf :=
  let len := ufsDirRecLen 1
  let buf : Buf := fun _ => 0
  let buf := setIno buf 0 dirIno
  let buf := setNamlen buf 0 1
  let buf := putName buf 8 1 [dot]
  let buf := setType buf 0 dtDir
  let buf := setReclen buf 0 len
  let buf := setIno buf len parentIno
  let buf := setNamlen buf len 2
  let buf := putName buf (len + 8) 2 [dot, dot]
  let buf := setType buf len dtDir
  setReclen buf len (dirblksiz - len)

end

end FuseUfs
