import FuseUfs.Lib.Prog
import FuseUfs.Lib.BitMap
import FuseUfs.Geometry

/-! # The device, the mount and the transfers between them

The device is kept by what it holds: the cylinder groups, the inodes, the bytes of
the data area (addressed by fragment) and the summary area. Everything else of
`State` is memory of the process: the in-core superblock, the one-block inode cache
of `getino`, the vnode table and the open handles.

A transfer may fail; `Env` says which ones do, by their number, and apart from the
others for the inode blocks. A failed read zeroes the buffer and returns -1, a failed
write changes nothing and returns -1.
Memory allocation is taken to succeed.
-/

namespace FuseUfs

open Lib

abbrev Byte := BitVec 8

abbrev Buf := Nat → Byte

/-- `struct csum` and `struct csum_total`. -/
@[ext] structure Csum where
  csNdir : Int
  csNbfree : Int
  csNifree : Int
  csNffree : Int
  deriving DecidableEq, Repr

instance : Add Csum where
  add a b := ⟨a.csNdir + b.csNdir, a.csNbfree + b.csNbfree, a.csNifree + b.csNifree,
    a.csNffree + b.csNffree⟩

namespace Csum

@[simp] theorem csNdir_add (a b : Csum) : (a + b).csNdir = a.csNdir + b.csNdir := rfl

@[simp] theorem csNbfree_add (a b : Csum) : (a + b).csNbfree = a.csNbfree + b.csNbfree := rfl

@[simp] theorem csNifree_add (a b : Csum) : (a + b).csNifree = a.csNifree + b.csNifree := rfl

@[simp] theorem csNffree_add (a b : Csum) : (a + b).csNffree = a.csNffree + b.csNffree := rfl

/-- Two moves of a summary, one after the other. -/
theorem chain {x y z a b c : Csum} (first : y + a = x + b) (second : z + b = y + c) :
    z + a = x + c := by
  simp only [Csum.ext_iff, csNdir_add, csNbfree_add, csNifree_add, csNffree_add] at *
  omega

end Csum

/-- `struct cg` with the maps that follow it in its block. -/
structure Cg where
  cgMagic : Nat
  cgTime : Int
  cgCgx : Nat
  cgCs : Csum
  cgRotor : Nat
  cgFrotor : Nat
  cgIrotor : Nat
  cgFrsum : Nat → Int
  cgNclusterblks : Nat
  cgNiblk : Nat
  cgInitediblk : Nat
  cgInosused : BitMap
  cgBlksfree : BitMap
  cgClustersfree : BitMap
  cgClustersum : Nat → Int
  /-- The bytes of the group's block past `fs_cgsize`. -/
  cgTail : Buf

def cgMagicNumber : Nat := 0x090255

def Cg.chkmagic (cgp : Cg) : Bool := cgp.cgMagic == cgMagicNumber

/-- `struct ufs2_dinode`; block addresses are kept as unsigned 64-bit patterns. -/
structure Dinode where
  diMode : Nat
  diNlink : Int
  diUid : Nat
  diGid : Nat
  diBlksize : Nat
  diSize : Nat
  diBlocks : Nat
  diAtime : Int
  diMtime : Int
  diCtime : Int
  diBirthtime : Int
  diGen : Int
  diKernflags : Nat
  diFlags : Nat
  diExtsize : Int
  diExtb : Nat → Nat
  diDb : Nat → Nat
  diIb : Nat → Nat

/-- The part of `struct inode` that is used; `iDin2` is its copy of the dinode. -/
structure Inode where
  iNumber : Nat
  iMode : Nat
  iNlink : Int
  iEffnlink : Int
  iSize : Nat
  iFlags : Nat
  iGen : Int
  iUid : Nat
  iGid : Nat
  iBlocks : Nat
  iAtime : Int
  iMtime : Int
  iCtime : Int
  iDin2 : Dinode

/-- `struct ufs_vnode`. The hash chains are kept as a map from inode numbers. -/
structure Vnode where
  inode : Inode
  count : Nat

/-- `struct ufs_file`; the three flag bits in use are fields of their own. -/
structure UfsFile where
  ino : Nat
  fileWrite : Bool
  bufValid : Bool
  bufDirty : Bool
  pos : Nat
  blockno : Nat
  physblock : Nat
  buf : Buf

/-- What a run does that a reader of it may ask about. -/
inductive Event where
  /-- A call of `bwrite`. -/
  | bwrite
  /-- `vnode_get` on an inode, with its bit in the inode map. -/
  | vnodeGet (ino : Nat) (used : Bool)
  /-- `ufs_valloc` returns this inode with this dinode. -/
  | valloc (ino : Nat) (din : Dinode)
  /-- `do_killfilebyinode` is entered with this in-core inode. -/
  | kill (ino : Nat) (inode : Inode)
  /-- `ufs_free_inode` clears a bit: the bit before, the link count, the references left. -/
  | freeInode (ino : Nat) (used : Bool) (nlink : Int) (refs : Nat)

structure State where
  cgs : Nat → Cg
  dinodes : Nat → Dinode
  data : Nat → Byte
  csumArea : Nat → Csum
  sbCstotal : Csum
  sbFmod : Bool
  fsCstotal : Csum
  fsCsp : Nat → Csum
  fsMaxcluster : Nat → Nat
  fsContigdirs : Nat → Nat
  fsFmod : Bool
  fsRonly : Bool
  dInoblock : Nat → Dinode
  dInomin : Nat
  dInomax : Nat
  vnodes : Nat → Option Vnode
  files : Nat → Option UfsFile
  tick : Nat
  log : List Event

/-- The same state after some transfers. -/
def State.atTick (s : State) (t : Nat) : State := { s with tick := t }

namespace State

variable (s : State) (t u : Nat)

@[simp] theorem atTick_cgs : (s.atTick t).cgs = s.cgs := rfl

@[simp] theorem atTick_dinodes : (s.atTick t).dinodes = s.dinodes := rfl

@[simp] theorem atTick_data : (s.atTick t).data = s.data := rfl

@[simp] theorem atTick_vnodes : (s.atTick t).vnodes = s.vnodes := rfl

@[simp] theorem atTick_tick : (s.atTick t).tick = t := rfl

@[simp] theorem atTick_atTick : (s.atTick t).atTick u = s.atTick u := rfl

theorem atTick_self : s.atTick s.tick = s := rfl

end State

/-- What the process is given from outside: which transfers succeed, the clock, `rand`, and
    the contents of memory it never wrote. -/
structure Env where
  readOk : Nat → Bool
  writeOk : Nat → Bool
  inoReadOk : Nat → Bool
  inoWriteOk : Nat → Bool
  now : Int
  rand : Nat → Nat
  heap : Buf
  stackNull : Nat → Bool
  uid : Nat
  gid : Nat

/-- Every transfer of an inode block succeeds. -/
structure Env.InoOk (env : Env) : Prop where
  inoRead : ∀ t, env.inoReadOk t = true
  inoWrite : ∀ t, env.inoWriteOk t = true

/-- Every transfer succeeds. -/
structure Env.IoOk (env : Env) : Prop extends env.InoOk where
  read : ∀ t, env.readOk t = true
  write : ∀ t, env.writeOk t = true

abbrev M := Prog State

/-! ## Error numbers -/

def enoent : Int := 2
def eio : Int := 5
def enomem : Int := 12
def eexist : Int := 17
def enotdir : Int := 20
def eisdir : Int := 21
def einval : Int := 22
def enospc : Int := 28
def erofs : Int := 30
def emlink : Int := 31
def enametoolong : Int := 36
def enotempty : Int := 39

/-! ## Bytes and buffers -/

/-- The first `size` bytes of `src`, the rest of `buf` as it was. -/
def fill (buf src : Buf) (size : Nat) : Buf := fun j => if j < size then src j else buf j

/-- `size` bytes of `buf` stored from `addr` on. -/
def store (data : Nat → Byte) (addr : Nat) (buf : Buf) (size : Nat) : Nat → Byte := fun a =>
  if addr ≤ a ∧ a < addr + size then buf (a - addr) else data a

@[simp] theorem fill_inside {buf src : Buf} {size j : Nat} (h : j < size) :
    fill buf src size j = src j := if_pos h

@[simp] theorem fill_outside {buf src : Buf} {size j : Nat} (h : ¬ j < size) :
    fill buf src size j = buf j := if_neg h

theorem store_inside {data : Nat → Byte} {addr a size : Nat} {buf : Buf}
    (low : addr ≤ a) (high : a < addr + size) : store data addr buf size a = buf (a - addr) :=
  if_pos ⟨low, high⟩

theorem store_outside {data : Nat → Byte} {addr a size : Nat} {buf : Buf}
    (out : ¬ (addr ≤ a ∧ a < addr + size)) : store data addr buf size a = data a :=
  if_neg out

/-! ## Transfers -/

section Transfers

variable (env : Env)

/-- Whether the next read succeeds. -/
def tryRead : M Bool := fun s => .done (env.readOk s.tick) { s with tick := s.tick + 1 }

/-- Whether the next write succeeds; the attempt is recorded either way. -/
def tryWrite : M Bool := fun s =>
  .done (env.writeOk s.tick) { s with tick := s.tick + 1, log := .bwrite :: s.log }

/-- Whether the next read of an inode block succeeds. -/
def tryReadIno : M Bool := fun s => .done (env.inoReadOk s.tick) { s with tick := s.tick + 1 }

/-- Whether the next write of an inode block succeeds. -/
def tryWriteIno : M Bool := fun s =>
  .done (env.inoWriteOk s.tick) { s with tick := s.tick + 1, log := .bwrite :: s.log }

/-- `blkread` of a cylinder group into a fresh buffer; `none` stands for -1. -/
def blkreadCg (cg : Nat) : M (Option Cg) := do
  let ok ← tryRead env
  let s ← Prog.get
  if ok then pure (some (s.cgs cg)) else pure none

/-- `blkwrite` of a cylinder group. -/
def blkwriteCg (cg : Nat) (cgp : Cg) : M Int := do
  let ok ← tryWrite env
  if ok then do
    Prog.modify fun s => { s with cgs := Function.update s.cgs cg cgp }
    pure 1
  else pure (-1)

/-- `blkread` of `size` bytes of the data area from fragment `bno` on. -/
def blkread (fs : Superblock) (bno : Nat) (buf : Buf) (size : Nat) : M (Int × Buf) := do
  let ok ← tryRead env
  let s ← Prog.get
  if ok ∧ size ≠ 0 then
    pure ((size : Int), fill buf (fun j => s.data (bno * fs.fsFsize + j)) size)
  else pure (-1, fill buf (fun _ => 0) size)

/-- `blkwrite` of `size` bytes of the data area from fragment `bno` on. A negative size is
    a huge one for `pwrite`, and an address past the largest file offset is refused. -/
def blkwrite (fs : Superblock) (bno : Nat) (buf : Buf) (size : Int) : M Int := do
  let ok ← tryWrite env
  if ok ∧ 0 ≤ size ∧ bno * fs.fsFsize < 2 ^ 63 then do
    Prog.modify fun s =>
      { s with data := store s.data (bno * fs.fsFsize) buf size.toNat }
    pure size
  else pure (-1)

end Transfers

/-! ## A small mount -/

/-- A dinode that has never been used. -/
def blankDinode : Dinode where
  diMode := 0
  diNlink := 0
  diUid := 0
  diGid := 0
  diBlksize := 0
  diSize := 0
  diBlocks := 0
  diAtime := 0
  diMtime := 0
  diCtime := 0
  diBirthtime := 0
  diGen := 0
  diKernflags := 0
  diFlags := 0
  diExtsize := 0
  diExtb := fun _ => 0
  diDb := fun _ => 0
  diIb := fun _ => 0

/-- The group of `smallFs`: its first four blocks and three inodes are in use. -/
def smallCg : Cg where
  cgMagic := cgMagicNumber
  cgTime := 0
  cgCgx := 0
  cgCs := ⟨1, 12, 13, 0⟩
  cgRotor := 0
  cgFrotor := 0
  cgIrotor := 0
  cgFrsum := fun _ => 0
  cgNclusterblks := 0
  cgNiblk := 16
  cgInitediblk := 16
  cgInosused := fun i => if i = 0 then 0x07#8 else 0
  cgBlksfree := fun i => if 4 ≤ i ∧ i < 16 then 0xff#8 else 0
  cgClustersfree := fun _ => 0
  cgClustersum := fun _ => 0
  cgTail := fun _ => 0

/-- `smallFs` as it is mounted: nothing cached, nothing open. -/
def smallState : State where
  cgs := fun _ => smallCg
  dinodes := fun _ => blankDinode
  data := fun _ => 0
  csumArea := fun _ => smallCg.cgCs
  sbCstotal := smallCg.cgCs
  sbFmod := false
  fsCstotal := smallCg.cgCs
  fsCsp := fun _ => smallCg.cgCs
  fsMaxcluster := fun _ => 0
  fsContigdirs := fun _ => 0
  fsFmod := false
  fsRonly := false
  dInoblock := fun _ => blankDinode
  dInomin := 0
  dInomax := 0
  vnodes := fun _ => none
  files := fun _ => none
  tick := 0
  log := []

/-- Every transfer succeeds; memory that was never written holds zeros. -/
def calmEnv : Env where
  readOk := fun _ => true
  writeOk := fun _ => true
  inoReadOk := fun _ => true
  inoWriteOk := fun _ => true
  now := 0
  rand := fun _ => 0
  heap := fun _ => 0
  stackNull := fun _ => true
  uid := 0
  gid := 0

theorem calmEnv_ioOk : calmEnv.IoOk := ⟨⟨fun _ => rfl, fun _ => rfl⟩, fun _ => rfl, fun _ => rfl⟩

end FuseUfs
