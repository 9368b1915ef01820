import FuseUfs.Truncate

/-! # File handles

A handle keeps one block of its file in memory, with the logical and the physical number
of that block and two flags. Reads and writes go through that block; it is flushed when
the position leaves it. The handle is passed and returned as a value; the inode is
reached through the vnode table.
-/

namespace FuseUfs

open Lib

section

variable (env : Env) (fs : Superblock)

/-- How many bytes of a block to transfer. For a write it is the part of the block up to
    `offset`, in fragments; for a read, the part of the file from `offset` on, at most a
    block. A file whose dinode has twelve full blocks uses full blocks only. -/
def ufsInodeIoSize (inode : Inode) (offset : Int) (write : Bool) : Int :=
  if fs.fsBsize * ndaddr ≤ inode.iDin2.diSize then fs.fsBsize
  else if write then
    let nfrags := fragsOf fs offset
    if nfrags ≠ 0 then
      if nfrags.tmod fs.fsFrag ≠ 0 then nfrags.tmod fs.fsFrag * fs.fsFsize else fs.fsBsize
    else 0
  else
    let rest := asU64 (inode.iSize - offset)
    (min fs.fsBsize ((rest + fs.fsQfmask) % 2 ^ 64 / fs.fsFsize * fs.fsFsize) : Nat)

/-- A fresh handle on inode `ino`; its buffer is memory that was never written. -/
def freshFile (ino : Nat) (write : Bool) (buf : Buf) : UfsFile where
  ino := ino
  fileWrite := write
  bufValid := false
  bufDirty := false
  pos := 0
  blockno := 0
  physblock := 0
  buf := buf

/-! ## Flushing -/

/-- Give the buffered block an address. -/
def flushAlloc (file : UfsFile) (size : Int) : M (Int × UfsFile) := do
  let inode ← vnode2inode file.ino
  let (rc, bno) ← ufsBlockAlloc env fs inode.iNumber size
  let file := { file with physblock := bno }
  if rc ≠ 0 then pure (rc, file)
  else do
    let rc ← ufsSetBlock env fs file.ino file.blockno bno
    pure (rc, file)

/-- Make sure that the buffered block has an address with room for `size` bytes. -/
def flushPlace (file : UfsFile) (size osize : Int) : M (Int × UfsFile) :=
  if file.physblock = 0 then flushAlloc env fs file size
  else if fragsOf fs osize < fragsOf fs size then do
    ufsBlockFree env fs file.physblock osize.toNat
    let rc ← ufsSetBlock env fs file.ino file.blockno 0
    if rc ≠ 0 then pure (rc, file)
    else flushAlloc env fs { file with physblock := 0 } size
  else pure (0, file)

/-- Write the buffered block and then the inode. -/
def flushWrite (file : UfsFile) (size : Int) : M (Int × UfsFile) := do
  let rc ← blkwrite env fs file.physblock file.buf size
  if rc ≤ 0 then pure (-eio, file)
  else do
    let file := { file with bufDirty := false }
    if file.ino ≠ 0 then do
      let rc ← ufsWriteInode env fs file.ino
      pure (rc, file)
    else pure (0, file)

def ufsFileFlush (file : UfsFile) : M (Int × UfsFile) := do
  let inode ← vnode2inode file.ino
  if file.bufValid = false ∨ file.bufDirty = false then pure (0, file)
  else do
    let size := ufsInodeIoSize fs inode (asInt32 file.pos) true
    if size = 0 then pure (0, file)
    else do
      let osize := ufsInodeIoSize fs inode (asInt32 inode.iDin2.diSize) true
      let (rc, file) ← flushPlace env fs file size osize
      if rc ≠ 0 then pure (rc, file) else flushWrite env fs file size

/-- Bring the buffer to the block of the current position. -/
def syncBufferPosition (file : UfsFile) : M (Int × UfsFile) := do
  let b := fs.lblkno file.pos % 2 ^ 32
  if b ≠ file.blockno then do
    let (rc, file) ← ufsFileFlush env fs file
    if rc ≠ 0 then pure (rc, file)
    else pure (0, { file with bufValid := false, blockno := b })
  else pure (0, file)

/-- Fill the buffer from its block, or with zeros in a hole. -/
def fillBuffer (file : UfsFile) (fsize : Int) : M (Int × UfsFile) :=
  if file.physblock ≠ 0 then do
    let (rc, buf) ← blkread env fs file.physblock file.buf fsize.toNat
    pure (if rc = -1 then -1 else 0, { file with buf := buf })
  else pure (0, { file with buf := fill file.buf (fun _ => 0) fsize.toNat })

def loadBuffer (file : UfsFile) (dontfill : Bool) : M (Int × UfsFile) :=
  if file.bufValid then pure (0, file)
  else do
    let (rc, pbno) ← ufsBmap env fs file.ino file.blockno
    let file := { file with physblock := pbno }
    let inode ← vnode2inode file.ino
    let fsize := ufsInodeIoSize fs inode (asInt32 file.pos) false
    if rc ≠ 0 then pure (rc, file)
    else if dontfill then pure (0, { file with bufValid := true })
    else do
      let (rc, file) ← fillBuffer env fs file fsize
      if rc ≠ 0 then pure (rc, file) else pure (0, { file with bufValid := true })

/-! ## Reading -/

/-- The loop of `ufs_file_read`; the bytes come out in order. Every turn that goes on copies a
    byte at least, so `left = wanted` turns are enough. -/
def fileReadLoop : (left : Nat) → UfsFile → (wanted : Nat) → (got : List Byte) →
    M (Int × List Byte × UfsFile)
  | left, file, wanted, got => do
      let inode ← vnode2inode file.ino
      if file.pos < inode.iSize ∧ 0 < wanted then
        match left with
        | 0 => Prog.halt
        | left + 1 => do
            let (rc, file) ← syncBufferPosition env fs file
            if rc ≠ 0 then pure (rc, got, file)
            else do
              let (rc, file) ← loadBuffer env fs file false
              if rc ≠ 0 then pure (rc, got, file)
              else do
                let start := file.pos % fs.fsBsize
                let c := min (min (fs.fsBsize - start) wanted) (inode.iSize - file.pos)
                fileReadLoop left { file with pos := file.pos + c } (wanted - c)
                  (got ++ (List.range c).map fun j => file.buf (start + j))
      else pure (0, got, file)

def ufsFileRead (file : UfsFile) (wanted : Nat) : M (Int × List Byte × UfsFile) :=
  fileReadLoop env fs wanted file wanted []

/-- `op_read`: the result code and the bytes. -/
def doRead (file : UfsFile) (size offset : Nat) : M (Int × List Byte × UfsFile) := do
  let file := { file with pos := offset }
  let (rc, got, file) ← ufsFileRead env fs file (size % 2 ^ 32)
  if rc ≠ 0 then pure (-eio, got, file) else pure (asInt32 got.length, got, file)

/-! ## Writing -/

/-- The buffer with `c` bytes of `src`, taken from `ptr` on, stored from `start` on. -/
def patch (buf src : Buf) (start ptr c : Nat) : Buf := fun j =>
  if start ≤ j ∧ j < start + c then src (ptr + (j - start)) else buf j

/-- The loop of `ufs_file_write`, with the number of bytes written so far. -/
def fileWriteLoop (src : Buf) : (left : Nat) → UfsFile → (nbytes count : Nat) →
    M (Int × Nat × UfsFile)
  | left, file, nbytes, count =>
      if 0 < nbytes then
        match left with
        | 0 => Prog.halt
        | left + 1 => do
            let (rc, file) ← syncBufferPosition env fs file
            if rc ≠ 0 then pure (rc, count, file)
            else do
              let start := file.pos % fs.fsBsize
              let c := min (fs.fsBsize - start) nbytes
              let (rc, file) ← loadBuffer env fs file (c == fs.fsBsize)
              if rc ≠ 0 then pure (rc, count, file)
              else
                fileWriteLoop src left
                  { file with
                    bufDirty := true
                    buf := patch file.buf src start count c
                    pos := file.pos + c } (nbytes - c) (count + c)
      else pure (0, count, file)

/-- The error, the number of bytes written and the handle. -/
def ufsFileWrite (file : UfsFile) (src : Buf) (nbytes : Nat) : M (Int × Nat × UfsFile) :=
  if file.fileWrite = false then pure (erofs, 0, file)
  else fileWriteLoop env fs src nbytes file nbytes 0

/-- Set the size of a file, cutting it when it gets smaller. -/
def ufsFileSetSize (file : UfsFile) (size : Nat) : M (Int × UfsFile) := do
  let (_, file) ← ufsFileFlush env fs file
  let inode ← vnode2inode file.ino
  let rc ← cut inode
  updateInode file.ino fun i => { i with iSize := size % 2 ^ 32 }
  pure (rc, file)
where
  cut (inode : Inode) : M Int :=
    if size < inode.iSize ∧ inode.iBlocks ≠ 0 then ufsTruncate env fs file.ino (asInt32 size)
    else pure 0

/-- The loop of `do_write`. A size of `2 ^ 32` or more comes down to a multiple of `2 ^ 32`,
    of which `ufs_file_write` sees 0: the loop then turns forever. -/
def doWriteLoop (src : Buf) : (left : Nat) → UfsFile → (size ptr wr : Nat) → M (Int × Nat × UfsFile)
  | left, file, size, ptr, wr =>
      if 0 < size then
        match left with
        | 0 => Prog.halt
        | left + 1 => do
            let (rc, wr, file) ← ufsFileWrite env fs file (fun j => src (ptr + j)) (size % 2 ^ 32)
            if rc ≠ 0 then pure (rc, wr, file)
            else doWriteLoop src left file (size - wr) (ptr + wr) wr
      else pure (0, wr, file)

/-- Grow the file to hold the bytes about to be written. -/
def doWriteGrow (file : UfsFile) (size offset : Nat) : M (Int × UfsFile) := do
  let inode ← vnode2inode file.ino
  if inode.iSize < (offset + size) % 2 ^ 64 then
    ufsFileSetSize env fs file ((offset + size) % 2 ^ 64)
  else pure (0, file)

/-- Write `size` bytes of `src` at `offset`; an error or the number of bytes written. -/
def doWrite (file : UfsFile) (src : Buf) (size offset : Nat) : M (Int × UfsFile) := do
  let (rc, file) ← doWriteGrow env fs file size offset
  if rc ≠ 0 then pure (rc, file)
  else do
    let (rc, wr, file) ← doWriteLoop env fs src 3 { file with pos := offset } size 0 0
    if rc ≠ 0 then pure (rc, file)
    else do
      let (rc, file) ← ufsFileFlush env fs file
      if rc ≠ 0 then pure (rc, file) else pure (wr, file)

end

end FuseUfs
