import FuseUfs.Path
import FuseUfs.Mount

/-! # The callbacks

The entries of `ufs_ops`, one definition each. A handle is an address; which one a new
handle gets is the choice of `malloc` and therefore an argument. A variable that is read
before anything was stored in it holds what the stack held: `stackNull` says whether that
is a null pointer, and any other value is a wild one.

The attributes that `op_getattr` reports are those of the in-core inode. `op_statfs` only
copies numbers of the superblock, and is here for what it returns.
-/

namespace FuseUfs

open Lib

def eacces : Int := 13

section

variable (env : Env) (fs : Superblock)

/-! ## Handles -/

/-- `do_open`; `none` stands for NULL. -/
def doOpen (path : List Byte) (write : Bool) : M (Option UfsFile) := do
  let (rc, ino) ← doReadvnode env fs path
  if rc ≠ 0 then pure none
  else do
    let s ← Prog.get
    if write ∧ s.fsRonly then do
      let _ ← vnodePut env fs ino false
      pure none
    else pure (some (freshFile ino write env.heap))

def ufsFileClose2 (file : UfsFile) : M Int := do
  let (rc, file) ← ufsFileFlush env fs file
  let s ← Prog.get
  let _ ← vnodePut env fs file.ino (!s.fsRonly)
  pure rc

def doRelease (file : UfsFile) : M Int := do
  let rc ← ufsFileClose2 env fs file
  if rc ≠ 0 then pure (-eio) else pure 0

/-- Use the handle at `fh`; there is none at a wild or a null pointer. -/
def withFile {α : Type} (fh : Nat) (use : UfsFile → M (α × UfsFile)) : M α := do
  let s ← Prog.get
  match s.files fh with
  | none => Prog.halt
  | some file => do
      let (a, file) ← use file
      Prog.modify fun s => { s with files := Function.update s.files fh (some file) }
      pure a

/-- `op_open`, also as `opendir`; `fh` is where the handle is put. -/
def opOpen (path : List Byte) (write : Bool) (fh : Nat) : M Int := do
  match ← doOpen env fs path write with
  | none => pure (-enoent)
  | some file => do
      Prog.modify fun s => { s with files := Function.update s.files fh (some file) }
      pure 0

/-- `op_release`, also as `releasedir`. -/
def opRelease (fh : Nat) : M Int := do
  if fh = 0 then pure (-enoent)
  else do
    let s ← Prog.get
    match s.files fh with
    | none => Prog.halt
    | some file => do
        let rc ← doRelease env fs file
        Prog.modify fun s => { s with files := Function.update s.files fh none }
        pure rc

def opRead (fh size offset : Nat) : M (Int × List Byte) :=
  withFile fh fun file => do
    let (rc, got, file) ← doRead env fs file size offset
    pure ((rc, got), file)

def opWrite (fh : Nat) (src : Buf) (size offset : Nat) : M Int :=
  withFile fh fun file => do
    let (rt, file) ← doWrite env fs file src size offset
    pure (asInt32 rt, file)

def opFtruncate (fh length : Nat) : M Int := withFile fh fun file => ufsFileSetSize env fs file length

def opFlush (fh : Nat) : M Int :=
  if fh = 0 then pure (-enoent)
  else withFile fh fun file => do
    let (rc, file) ← ufsFileFlush env fs file
    pure (if rc ≠ 0 then -eio else 0, file)

/-- `op_fsync`, also as `fsyncdir`. -/
def opFsync : M Int := do
  let s ← Prog.get
  if s.fsRonly then pure erofs
  else do
    let rc ← sbwrite env fs true
    if rc ≠ 0 then pure (-eio) else pure 0

def opTruncate (path : List Byte) (length : Nat) : M Int :=
  if doCheck path ≠ 0 then pure (doCheck path)
  else do
    match ← doOpen env fs path true with
    | none => pure (-enoent)
    | some file => do
        let (rc, file) ← ufsFileSetSize env fs file length
        let released ← doRelease env fs file
        if rc ≠ 0 then pure rc else pure released

/-! ## Attributes -/

def rOk : Nat := 4
def wOk : Nat := 2
def xOk : Nat := 1

/-- Whether `mode` asks for a permission that the three bits of `perms` do not give. -/
def denied (perms mode : Nat) : Bool :=
  (mode &&& rOk ≠ 0 ∧ perms &&& rOk = 0) ∨ (mode &&& wOk ≠ 0 ∧ perms &&& wOk = 0) ∨
    (mode &&& xOk ≠ 0 ∧ perms &&& xOk = 0)

def inodeAccess (inode : Inode) (mode : Nat) : Int :=
  if mode = 0 then 0
  else if env.uid = 0 then
    if mode &&& xOk = 0 then 0 else if inode.iMode &&& 0o111 ≠ 0 then 0 else -eacces
  else if env.uid = inode.iUid then if denied (inode.iMode >>> 6) mode then -eacces else 0
  else if env.gid = inode.iGid then if denied (inode.iMode >>> 3) mode then -eacces else 0
  else if denied inode.iMode mode then -eacces else 0

def opAccess (path : List Byte) (mask : Nat) : M Int := do
  let s ← Prog.get
  if mask &&& wOk ≠ 0 ∧ s.fsRonly then pure (-erofs)
  else if doCheck path ≠ 0 then pure (doCheck path)
  else do
    let (rc, ino) ← doReadvnode env fs path
    if rc ≠ 0 then pure rc
    else do
      let inode ← vnode2inode ino
      pure (inodeAccess env inode mask)

/-- `op_fgetattr`: the result, and with 0 the inode the attributes are taken from. -/
def opFgetattr (path : List Byte) : M (Int × Option Inode) := do
  let (rc, ino) ← doReadvnode env fs path
  if rc ≠ 0 then pure (rc, none)
  else do
    let inode ← vnode2inode ino
    let _ ← vnodePut env fs ino false
    pure (0, some inode)

def opGetattr (path : List Byte) : M (Int × Option Inode) :=
  if doCheck path ≠ 0 then pure (doCheck path, none) else opFgetattr env fs path

/-- Look a path up, change the inode and put it back dirty. -/
def changeAttr (path : List Byte) (change : Inode → Inode) : M Int := do
  let (rc, ino) ← doReadvnode env fs path
  if rc ≠ 0 then pure rc
  else do
    updateInode ino change
    let rc ← vnodePut env fs ino true
    if rc ≠ 0 then pure (-eio) else pure 0

def permMask : Nat := 0o7777

def chmodInode (mode : Nat) (i : Inode) : Inode :=
  { i with
    iMode := (i.iMode - (i.iMode &&& permMask)) ||| (mode &&& permMask)
    iCtime := env.now }

def opChmod (path : List Byte) (mode : Nat) : M Int := do
  let s ← Prog.get
  if s.fsRonly then pure erofs
  else if doCheck path ≠ 0 then pure (doCheck path)
  else changeAttr env fs path (chmodInode env mode)

/-- The user or group -1, which stands for no change. -/
def noId : Nat := 2 ^ 32 - 1

/-- The test of the user guards the group, and the other way around. -/
def chownInode (uid gid : Nat) (i : Inode) : Inode :=
  { i with
    iGid := if uid ≠ noId then gid else i.iGid
    iUid := if gid ≠ noId then uid else i.iUid }

def opChown (path : List Byte) (uid gid : Nat) : M Int := do
  let s ← Prog.get
  if s.fsRonly then pure erofs else changeAttr env fs path (chownInode uid gid)

/-- Both times come from the first of the two. -/
def utimensInode (tv : Int × Int) (i : Inode) : Inode := { i with iAtime := tv.1, iMtime := tv.1 }

def opUtimens (path : List Byte) (tv : Int × Int) : M Int := changeAttr env fs path (utimensInode tv)

/-! ## Reading links and directories -/

/-- The bytes of the block addresses of a dinode, direct and indirect. -/
def ptrBytes (din : Dinode) : Buf := fun a =>
  if a < 8 * ndaddr then leByte (din.diDb (a / 8)) (a % 8)
  else leByte (din.diIb (a / 8 - ndaddr)) (a % 8)

def ptrArea : Nat := 8 * (ndaddr + 3)

/-- The target of a symbolic link: an error, or the string. -/
def linkTarget (inode : Inode) : M (Int × List Byte) :=
  if inode.iBlocks ≠ 0 then do
    let (rc, buf) ← blkread env fs (inode.iDin2.diDb 0) env.heap fs.fsBsize
    if rc = -1 then pure (-eio, []) else pure (0, cstring buf 0 fs.fsBsize)
  else pure (0, cstring (ptrBytes inode.iDin2) 0 ptrArea)

/-- The result, and with 0 the string left in the caller's buffer of `size` bytes. -/
def opReadlink (path : List Byte) (size : Nat) : M (Int × List Byte) := do
  let (rc, ino) ← doReadvnode env fs path
  if rc ≠ 0 then pure (rc, [])
  else do
    let inode ← vnode2inode ino
    let r ← target inode ino
    let _ ← vnodePut env fs ino false
    pure r
where
  target (inode : Inode) (ino : Nat) : M (Int × List Byte) :=
    if ino ≠ inode.iNumber then pure (-einval, [])
    else if sIslnk inode.iMode = false then pure (-einval, [])
    else do
      let (rc, text) ← linkTarget env fs inode
      pure (rc, text.take (min size (text.length + 1) - 1))

/-- The result and what `filler` made of the records. -/
def opReaddir {ρ : Type} (path : List Byte) (filler : ρ → List Byte → Nat → Int × ρ) (r : ρ) :
    M (Int × ρ) := do
  let (rc, ino) ← doReadvnode env fs path
  if rc ≠ 0 then pure (rc, r)
  else do
    let (rc, r) ← ufsDirIterate env fs ino (walkDir filler) r
    let _ ← vnodePut env fs ino false
    pure (if rc ≠ 0 then -eio else 0, r)

/-! ## Making files -/

def sIschr (mode : Nat) : Bool := mode &&& ifmt == ifchr

def sIsblk (mode : Nat) : Bool := mode &&& ifmt == ifblk

/-- A device number: major and minor. -/
abbrev Dev := Nat × Nat

def oldValidDev (dev : Dev) : Bool := dev.1 < 256 ∧ dev.2 < 256

def oldEncodeDev (dev : Dev) : Nat := (dev.1 <<< 8 ||| dev.2) % 2 ^ 16

def newEncodeDev (dev : Dev) : Nat :=
  (dev.2 &&& 0xff ||| dev.1 <<< 8 ||| (dev.2 - (dev.2 &&& 0xff)) <<< 12) % 2 ^ 32

/-- Where a device keeps its number. -/
def deviceDinode (dev : Dev) (din : Dinode) : Dinode :=
  if oldValidDev dev then { din with diDb := Function.update din.diDb 0 (oldEncodeDev dev) }
  else { din with diDb := Function.update din.diDb 1 (newEncodeDev dev) }

/-- The address in word `k` when the first `len` bytes are `text`, filled up with zeros. -/
def textWord (text : List Byte) (len k old : Nat) : Nat :=
  leGet (fun i => if 8 * k + i < len then text.getD (8 * k + i) 0 else leByte old i) 8

/-- A short link keeps its target in the place of the block addresses. -/
def symlinkDinode (text : List Byte) (din : Dinode) : Dinode :=
  { din with
    diDb := fun k => textWord text fs.fsMaxsymlinklen k (din.diDb k)
    diIb := fun k => textWord text fs.fsMaxsymlinklen (ndaddr + k) (din.diIb k) }

/-- What `do_create` makes of the inode that it was given. -/
def newInode (mode : Nat) (dev : Dev) (fastsymlink : Option (List Byte)) (i : Inode) : Inode :=
  let i := { i with
    iMode := mode % 2 ^ 16
    iAtime := env.now
    iCtime := env.now
    iMtime := env.now
    iNlink := 1
    iSize := 0
    iUid := env.uid
    iGid := env.gid }
  let i := if sIschr mode ∨ sIsblk mode then { i with iDin2 := deviceDinode dev i.iDin2 } else i
  match fastsymlink with
  | some text =>
      if sIslnk mode then
        { i with iSize := text.length, iDin2 := symlinkDinode fs text i.iDin2 }
      else i
  | none => i

/-- Enter the new inode and fill it. The directory is looked up a second time; the reference
    that is dropped is that one, or the first if there is none. -/
def createEntry (pPath rPath : List Byte) (dirnode vnode mode : Nat) (dev : Dev)
    (fastsymlink : Option (List Byte)) : M Int := do
  let rc ← ufsLink env fs dirnode rPath vnode mode
  if rc ≠ 0 then pure rc
  else do
    updateInode vnode (newInode env fs mode dev fastsymlink)
    let (rc, again) ← doReadvnode env fs pPath
    if rc ≠ 0 then do
      let _ ← vnodePut env fs dirnode true
      pure (-eio)
    else do
      updateInode again fun i => { i with iCtime := env.now, iMtime := env.now }
      let _ ← vnodePut env fs again true
      pure 0

/-- Make an inode below the directory `dirnode`. -/
def createIn (pPath rPath : List Byte) (dirnode mode : Nat) (dev : Dev)
    (fastsymlink : Option (List Byte)) : M Int := do
  let (rc, vnode) ← ufsValloc env fs dirnode mode
  if rc ≠ 0 then pure (-enomem)
  else do
    let ret ← createEntry env fs pPath rPath dirnode vnode mode dev fastsymlink
    let _ ← vnodePut env fs vnode true
    pure ret

/-- `do_create`. The result of the split is not looked at, so a path that cannot be split leaves
    two wild pointers. -/
def doCreate (path : List Byte) (mode : Nat) (dev : Dev) (fastsymlink : Option (List Byte)) : M Int :=
  match doCheckSplit path with
  | .error _ => Prog.halt
  | .ok (pPath, rPath) => do
      let (rc, dirnode) ← doReadvnode env fs pPath
      if rc ≠ 0 then pure rc else createIn env fs pPath rPath dirnode mode dev fastsymlink

def opCreate (path : List Byte) (mode : Nat) (write : Bool) (fh : Nat) : M Int := do
  let rc ← opOpen env fs path write fh
  if rc = 0 then pure 0
  else do
    let rc ← doCreate env fs path mode (0, 0) none
    if rc ≠ 0 then pure rc
    else do
      let rc ← opOpen env fs path write fh
      if rc ≠ 0 then pure (-eio) else pure 0

def opMknod (path : List Byte) (mode : Nat) (dev : Dev) : M Int := do
  let s ← Prog.get
  if s.fsRonly then pure erofs else doCreate env fs path mode dev none

def linkMode : Nat := iflnk ||| 0o777

/-- Write the target of a long link through a handle of its own. -/
def writeTarget (target path : List Byte) : M Int := do
  match ← doOpen env fs path true with
  | none => pure (-eio)
  | some file => do
      let (wr, file) ← doWrite env fs file (fun j => target.getD j 0) target.length 0
      if wr ≠ target.length then pure (-eio) else doRelease env fs file

def opSymlink (target path : List Byte) : M Int :=
  if target.length < fs.fsMaxsymlinklen then doCreate env fs path linkMode (0, 0) (some target)
  else do
    let rc ← doCreate env fs path linkMode (0, 0) none
    if rc ≠ 0 then pure rc else writeTarget env fs target path

/-- The new link is counted before its name is entered. -/
def opLink (source dest : List Byte) : M Int := do
  let s ← Prog.get
  if s.fsRonly then pure erofs
  else if doCheck source ≠ 0 then pure (doCheck source)
  else
    match doCheckSplit dest with
    | .error rc => pure rc
    | .ok (pPath, rPath) => do
        let (rc, dIno) ← doReadvnode env fs pPath
        if rc ≠ 0 then pure rc
        else do
          let _ ← vnodePut env fs dIno false
          let (rc, ino) ← doReadvnode env fs source
          if rc ≠ 0 then pure rc
          else do
            let inode ← vnode2inode ino
            let rc ← ufsLink env fs dIno rPath ino inode.iMode
            if rc ≠ 0 then do
              let _ ← vnodePut env fs ino false
              pure rc
            else do
              updateInode ino fun i => { i with iMtime := env.now, iAtime := env.now, iCtime := env.now }
              let rc ← vnodePut env fs ino true
              if rc ≠ 0 then pure (-eio) else pure 0

/-! ## Making directories -/

/-- The inode of a new directory. The file type in its mode is not yet there. -/
def newDirInode (blk : Nat) (i : Inode) : Inode :=
  { i with
    iMode := dtDir ||| 0o777
    iUid := 0
    iGid := 0
    iNlink := 1
    iSize := dirblksiz
    iDin2 := { i.iDin2 with diDb := Function.update i.iDin2.diDb 0 blk } }

/-- Change the link count of an inode. -/
def addNlink (d : Int) (i : Inode) : Inode := { i with iNlink := asInt16 (i.iNlink + d) }

/-- Enter the new directory below its parent and count its `..`. -/
def mkdirEntry (parent vnode : Nat) (name : List Byte) : M Int := do
  let (rc, _) ← ufsLookup env fs parent name
  if rc = 0 then pure eexist
  else if rc ≠ enoent then pure rc
  else do
    let rc ← ufsLink env fs parent name vnode ifdir
    if rc ≠ 0 then pure rc
    else if parent ≠ vnode then do
      updateInode parent (addNlink 1)
      pure 0
    else pure 0

/-- Give the new directory its block and enter it. -/
def mkdirBody (parent vnode : Nat) (name : List Byte) : M Int := do
  let inode ← vnode2inode vnode
  let (rc, blk) ← ufsBlockAlloc env fs inode.iNumber (fs.fragroundup dirblksiz)
  if rc ≠ 0 then pure rc
  else do
    let pinode ← vnode2inode parent
    let block := if inode.iNumber ≠ 0 then ufsNewDirBlock inode.iNumber pinode.iNumber else fun _ => 0
    updateInode vnode (newDirInode blk)
    let rc ← blkwrite env fs blk block (fs.fragroundup dirblksiz)
    if rc = -1 then pure (-1) else mkdirEntry env fs parent vnode name

def ufsMkdir (parent : Nat) (name : List Byte) : M Int := do
  vnodeGet env fs parent
  let (rc, vnode) ← ufsValloc env fs parent ifdir
  if rc ≠ 0 then do
    let _ ← vnodePut env fs parent true
    pure rc
  else do
    let rc ← mkdirBody env fs parent vnode name
    let _ ← vnodePut env fs vnode true
    let _ ← vnodePut env fs parent true
    pure rc

/-- What `op_mkdir` makes of the new directory's inode. -/
def namedDirInode (mode : Nat) (i : Inode) : Inode :=
  { i with
    iMode := (ifdir ||| mode) % 2 ^ 16
    iCtime := env.now
    iAtime := env.now
    iMtime := env.now
    iUid := env.uid
    iGid := env.gid }

/-- Make the directory below `vnode`, which stays referenced when something fails. -/
def mkdirBelow (path rPath : List Byte) (vnode mode : Nat) : M Int := do
  let rc ← ufsMkdir env fs vnode rPath
  if rc ≠ 0 then pure rc
  else do
    let (rc, child) ← doReadvnode env fs path
    if rc ≠ 0 then pure (-eio)
    else do
      updateInode child (namedDirInode env mode)
      let _ ← vnodePut env fs child true
      updateInode vnode fun i => { i with iCtime := env.now, iMtime := env.now }
      let _ ← vnodePut env fs vnode true
      pure 0

/-- `op_mkdir`. It looks at the vnode and not at the error of the look-up. -/
def opMkdir (path : List Byte) (mode : Nat) : M Int := do
  let s ← Prog.get
  if s.fsRonly then pure erofs
  else
    match doCheckSplit path with
    | .error rc => pure rc
    | .ok (pPath, rPath) => do
        let (rc, vnode) ← doReadvnode env fs pPath
        if rc ≠ 0 then do
          let s ← Prog.get
          if env.stackNull s.tick then pure rc else Prog.halt
        else mkdirBelow env fs path rPath vnode mode

/-! ## Removing -/

/-- Drop the two references of `op_unlink` once the entry is gone. -/
def unlinkPut (p r : Nat) : M Int := do
  updateInode r fun i => if 0 < i.iNlink then addNlink (-1) i else i
  updateInode p fun i => { i with iCtime := env.now, iMtime := env.now }
  let rc ← vnodePut env fs p true
  if rc ≠ 0 then do
    let _ ← vnodePut env fs r true
    pure (-eio)
  else do
    updateInode r fun i => { i with iCtime := env.now }
    let rc ← vnodePut env fs r true
    if rc ≠ 0 then pure (-eio) else pure 0

/-- Unlink `path` below the directory `p`; an error before the entry is looked for leaves `p`
    referenced. -/
def unlinkBelow (path rPath : List Byte) (p : Nat) : M Int := do
  let (rc, r) ← doReadvnode env fs path
  if rc ≠ 0 then pure rc
  else do
    let rinode ← vnode2inode r
    if sIsdir rinode.iMode then do
      let _ ← vnodePut env fs r false
      pure (-eisdir)
    else do
      let rc ← ufsUnlink env fs p rPath r
      if rc ≠ 0 then do
        let _ ← vnodePut env fs r false
        let _ ← vnodePut env fs p false
        pure (-eio)
      else unlinkPut env fs p r

def opUnlink (path : List Byte) : M Int := do
  let s ← Prog.get
  if s.fsRonly then pure erofs
  else
    match doCheckSplit path with
    | .error rc => pure rc
    | .ok (pPath, rPath) => do
        let (rc, p) ← doReadvnode env fs pPath
        if rc ≠ 0 then pure rc else unlinkBelow env fs path rPath p

/-- Take the directory `r` out of `p`. -/
def rmdirBody (rPath : List Byte) (p r : Nat) : M Int := do
  let rinode ← vnode2inode r
  if sIsdir rinode.iMode = false then pure (-enotdir)
  else if r = rootino then pure (-eio)
  else do
    let rc ← doCheckEmptyDir env fs r
    if rc ≠ 0 then pure rc
    else do
      let rc ← ufsUnlink env fs p rPath r
      if rc ≠ 0 then pure (-eio)
      else do
        updateInode r fun i => { i with iNlink := 0, iCtime := env.now, iMtime := env.now }
        updateInode p fun i => if 1 < i.iNlink then addNlink (-1) i else i
        pure 0

def opRmdir (path : List Byte) : M Int :=
  match doCheckSplit path with
  | .error rc => pure rc
  | .ok (pPath, rPath) => do
      let (rc, p) ← doReadvnode env fs pPath
      if rc ≠ 0 then pure rc
      else do
        let (rc, r) ← doReadvnode env fs path
        if rc ≠ 0 then do
          let _ ← vnodePut env fs p false
          pure rc
        else do
          let rc ← rmdirBody env fs rPath p r
          let _ ← vnodePut env fs p true
          let _ ← vnodePut env fs r true
          pure rc

/-! ## Renaming -/

/-- The four inodes of a rename: the two directories, the file, and what is in its way. -/
structure Renamed where
  dSrc : Nat
  dDest : Nat
  src : Nat
  dest : Option Nat

/-- The errors that have to do with what is in the way. -/
def renameCheck (srcMode : Nat) (dest : Nat) : M Int := do
  let destInode ← vnode2inode dest
  if sIsdir destInode.iMode then
    if sIsdir srcMode = false then pure (-eisdir) else doCheckEmptyDir env fs dest
  else if sIsdir srcMode then pure (-enotdir)
  else pure 0

/-- Delete what is in the way. A directory is taken apart at once. -/
def renameReplace (rDest : List Byte) (dDest dest : Nat) : M Int := do
  let rc ← ufsUnlink env fs dDest rDest dest
  if rc ≠ 0 then pure (-eio)
  else do
    let destInode ← vnode2inode dest
    if sIsdir destInode.iMode then do
      let rc ← doKillfilebyinode env fs dest
      if rc ≠ 0 then pure rc
      else do
        updateInode dDest fun i => if 1 < i.iNlink then addNlink (-1) i else i
        pure 0
    else do
      updateInode dest fun i => if 0 < i.iNlink then addNlink (-1) i else i
      pure 0

/-- A directory that gets another parent: the counts of both and its `..`. -/
def renameParents (srcMode dSrc dDest src : Nat) : M Int :=
  if sIsdir srcMode ∧ dSrc ≠ dDest then do
    updateInode dDest (addNlink 1)
    updateInode dSrc fun i => if 1 < i.iNlink then addNlink (-1) i else i
    let rc ← ufsWriteInode env fs dSrc
    if rc ≠ 0 then pure (-eio) else doFixDotdot env fs src dDest
  else pure 0

/-- The second and third step: enter the new name, then remove the old one. The flag says that
    the code leaves without dropping its references. -/
def renameMove (rSrc rDest : List Byte) (r : Renamed) : M (Int × Bool) := do
  let srcInode ← vnode2inode r.src
  let rc ← ufsLink env fs r.dDest rDest r.src srcInode.iMode
  if rc ≠ 0 then pure (rc, false)
  else do
    let rc ← renameParents env fs srcInode.iMode r.dSrc r.dDest r.src
    if rc ≠ 0 then pure (rc, false)
    else do
      updateInode r.dDest fun i => { i with iMtime := env.now, iCtime := env.now }
      updateInode r.src fun i => { i with iCtime := env.now }
      let rc ← ufsUnlink env fs r.dSrc rSrc r.src
      if rc ≠ 0 then pure (-eio, true)
      else do
        updateInode r.src (addNlink (-1))
        pure (0, false)

/-- Everything between the look-ups and the end. -/
def renameBody (rSrc rDest : List Byte) (r : Renamed) : M (Int × Bool) := do
  match r.dest with
  | none => renameMove env fs rSrc rDest r
  | some dest =>
      if r.src = dest then pure (0, false)
      else do
        let srcInode ← vnode2inode r.src
        let rc ← renameCheck env fs srcInode.iMode dest
        if rc ≠ 0 then pure (rc, false)
        else do
          let rc ← renameReplace env fs rDest r.dDest dest
          if rc ≠ 0 then pure (rc, false) else renameMove env fs rSrc rDest r

/-- Drop references, in order; the results are not looked at. -/
def putAll : List Nat → M Unit
  | [] => pure ()
  | ino :: rest => do
      let _ ← vnodePut env fs ino true
      putAll rest

/-- The look-ups of a rename, from the source's directory on; what an error finds is dropped. -/
def renameBelow (source dest pDest rSrc rDest : List Byte) (dSrc : Nat) : M Int := do
  let (rc, dDest) ← doReadvnode env fs pDest
  if rc ≠ 0 then do
    putAll env fs [dSrc]
    pure rc
  else do
    let (rc, src) ← doReadvnode env fs source
    if rc ≠ 0 then do
      putAll env fs [dDest, dSrc]
      pure rc
    else do
      let (destrt, found) ← doReadvnode env fs dest
      if destrt ≠ 0 ∧ destrt ≠ -enoent then do
        putAll env fs [src, dDest, dSrc]
        pure 0
      else do
        let there := if destrt = 0 then some found else none
        let (rc, leaves) ← renameBody env fs rSrc rDest ⟨dSrc, dDest, src, there⟩
        if leaves then pure rc
        else do
          putAll env fs (there.toList ++ [src, dDest, dSrc])
          pure rc

/-- `op_rename`. A destination that cannot be split leaves a pointer that is freed all the
    same. -/
def opRename (source dest : List Byte) : M Int :=
  match doCheckSplit source with
  | .error rc => pure rc
  | .ok (pSrc, rSrc) =>
      match doCheckSplit dest with
      | .error rc => do
          let s ← Prog.get
          if env.stackNull s.tick then pure rc else Prog.halt
      | .ok (pDest, rDest) => do
          let (rc, dSrc) ← doReadvnode env fs pSrc
          if rc ≠ 0 then pure rc else renameBelow env fs source dest pDest rSrc rDest dSrc

end

end FuseUfs
