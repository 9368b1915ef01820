import FuseUfs.Disk

/-! # Inodes in core

`getino` keeps one block of dinodes in memory and `ufs_write_inode` writes that block
back, so an inode is written together with its neighbours in the block. A vnode holds
the in-core inode and, inside it, a copy of the dinode (`iDin2`); the two have to be
brought together by the copy routines before the dinode is written.
-/

namespace FuseUfs

open Lib

/-! ## Machine integers -/

/-- A value stored in an `int`. -/
def asInt32 (n : Int) : Int := Int.bmod n (2 ^ 32)

/-- A value stored in an unsigned 64-bit field. -/
def asU64 (n : Int) : Nat := (n % 2 ^ 64).toNat

theorem asInt32_of_lt {n : Nat} (small : n < 2 ^ 31) : asInt32 n = n := by
  unfold asInt32
  rw [Int.bmod_eq_of_le_mul_two] <;> omega

theorem asU64_of_lt {n : Nat} (small : n < 2 ^ 64) : asU64 n = n := by
  unfold asU64
  omega

/-! ## File types -/

def ifmt : Nat := 0o170000
def ififo : Nat := 0o010000
def ifchr : Nat := 0o020000
def ifdir : Nat := 0o040000
def ifblk : Nat := 0o060000
def ifreg : Nat := 0o100000
def iflnk : Nat := 0o120000
def ifsock : Nat := 0o140000

def sIslnk (mode : Nat) : Bool := mode &&& ifmt == iflnk

def sIsdir (mode : Nat) : Bool := mode &&& ifmt == ifdir

/-! ## Copies between an inode and its dinode -/

section

variable (env : Env) (fs : Superblock)

/-- `howmany` of two values of type `int`. -/
def howmanyInt (x y : Int) : Int := (asInt32 (x + (y - 1))).tdiv y

/-- 512-byte sectors of a file of this size, indirect blocks included. -/
def calcNumBlocks (inode : Inode) : Int :=
  let numblocks := asInt32 (howmany inode.iSize fs.fsBsize : Nat)
  if sIslnk inode.iMode ∧ inode.iSize < fs.fsMaxsymlinklen then 0
  else
    let nfrags :=
      if numblocks < ndaddr then asInt32 (fs.numfrags (fs.fragroundup inode.iSize) : Nat)
      else
        let nindirs : Int := fs.fsNindir
        let l1 := howmanyInt (numblocks - ndaddr) nindirs
        let numblocks := asInt32 (numblocks + l1)
        let l2 := howmanyInt (l1 - 1) nindirs
        let numblocks := asInt32 (numblocks + l2)
        let numblocks := if l2 ≠ 0 then asInt32 (numblocks + howmanyInt (l2 - 1) nindirs) else numblocks
        asInt32 (numblocks * fs.fsFrag)
    asInt32 (nfrags * (fs.fsFsize >>> 9 : Nat))

/-- Bring the dinode of an in-core inode up to date. -/
def copyIncoreToOndisk (inode : Inode) : Inode :=
  let iBlocks := asU64 (calcNumBlocks fs inode)
  { inode with
    iBlocks := iBlocks
    iDin2 := { inode.iDin2 with
      diMode := inode.iMode
      diNlink := inode.iNlink
      diSize := inode.iSize
      diFlags := inode.iFlags
      diGen := inode.iGen
      diUid := inode.iUid
      diGid := inode.iGid
      diBlocks := iBlocks
      diAtime := inode.iAtime
      diMtime := inode.iMtime
      diCtime := inode.iCtime } }

def copyOndiskToIncore (din : Dinode) (ino : Nat) : Inode where
  iNumber := ino
  iMode := din.diMode
  iNlink := din.diNlink
  iEffnlink := din.diNlink
  iSize := din.diSize
  iFlags := din.diFlags
  iGen := din.diGen
  iUid := din.diUid
  iGid := din.diGid
  iBlocks := din.diBlocks
  iAtime := din.diAtime
  iMtime := din.diMtime
  iCtime := din.diCtime
  iDin2 := din

/-! ## The inode block in memory -/

/-- Bring the block with inode `ino` into memory. A read that fails leaves zeros there, and
    the block counts as present all the same. -/
def loadInoblock (ino : Nat) : M Unit := do
  let s ← Prog.get
  if s.dInomin ≤ ino ∧ ino < s.dInomax then pure ()
  else do
    let ok ← tryReadIno env
    let first := ino - ino % fs.fsInopb
    Prog.modify fun s => { s with
      dInoblock := fun i => if ok then s.dinodes (first + i) else blankDinode
      dInomin := first
      dInomax := first + fs.fsInopb }

def getino (ino : Nat) : M Dinode := do
  loadInoblock env fs ino
  let s ← Prog.get
  pure (s.dInoblock (ino - s.dInomin))

/-- The in-core inode behind a vnode pointer; a vnode that is gone is a wild pointer. -/
def vnode2inode (ino : Nat) : M Inode := do
  let s ← Prog.get
  match s.vnodes ino with
  | some v => pure v.inode
  | none => Prog.halt

/-- Change the in-core inode behind a vnode pointer. -/
def updateInode (ino : Nat) (change : Inode → Inode) : M Unit := do
  let s ← Prog.get
  match s.vnodes ino with
  | some v =>
      Prog.modify fun s => { s with
        vnodes := Function.update s.vnodes ino (some { v with inode := change v.inode }) }
  | none => Prog.halt

theorem vnode2inode_ok {s : State} {ino : Nat} {v : Vnode} (there : s.vnodes ino = some v) :
    vnode2inode ino s = .done v.inode s := by
  unfold vnode2inode
  rw [Prog.get_bind_apply, there]
  rfl

/-- The vnode of `ino` replaced. -/
def State.setVnode (s : State) (ino : Nat) (v : Vnode) : State :=
  { s with vnodes := Function.update s.vnodes ino (some v) }

theorem updateInode_ok {s : State} {ino : Nat} {v : Vnode} (there : s.vnodes ino = some v)
    (change : Inode → Inode) :
    updateInode ino change s
      = .done () (s.setVnode ino { v with inode := change v.inode }) := by
  unfold updateInode
  rw [Prog.get_bind_apply, there]
  rfl

/-- Write the inode block that is in memory back to where `ino` lies. -/
def writeInoblock (ino : Nat) : M Int := do
  let ok ← tryWriteIno env
  if ok then do
    Prog.modify fun s =>
      let first := ino - ino % fs.fsInopb
      { s with
        dinodes := fun i =>
          if first ≤ i ∧ i < first + fs.fsInopb then s.dInoblock (i - first) else s.dinodes i }
    pure fs.fsBsize
  else pure (-1)

def ufsWriteInode (ino : Nat) : M Int := do
  loadInoblock env fs ino
  updateInode ino (copyIncoreToOndisk fs)
  let inode ← vnode2inode ino
  Prog.modify fun s => { s with
    dInoblock := Function.update s.dInoblock (ino - s.dInomin) inode.iDin2 }
  let rc ← writeInoblock env fs ino
  if rc ≤ 0 then pure (-eio) else pure 0

/-- The bit of an inode in the map of its group. -/
def State.inoUsed (s : State) (ino : Nat) : Bool :=
  (s.cgs (fs.inoToCg ino)).cgInosused.isset (ino % fs.fsIpg)

/-- The dinode a new vnode starts from; inode 0 has none. -/
def vnodeDinode (ino : Nat) : M Dinode :=
  if ino ≠ 0 then getino env fs ino else pure blankDinode

/-- A reference to the vnode of `ino`, read from the device when it is not in core. -/
def vnodeGet (ino : Nat) : M Unit := do
  let s ← Prog.get
  Prog.modify fun s => { s with log := .vnodeGet ino (s.inoUsed fs ino) :: s.log }
  match s.vnodes ino with
  | some v =>
      Prog.modify fun s => { s with
        vnodes := Function.update s.vnodes ino (some { v with count := v.count + 1 }) }
  | none => do
      let din ← vnodeDinode env fs ino
      Prog.modify fun s => { s with
        vnodes := Function.update s.vnodes ino
          (some { inode := copyOndiskToIncore din ino, count := 1 }) }

/-- The references to the vnode of `ino`. -/
def State.refs (s : State) (ino : Nat) : Nat := (s.vnodes ino).elim 0 Vnode.count

/-- What bringing an inode block into memory can change. -/
theorem loadInoblock_total (ino : Nat) (s : State) :
    ∃ t b lo hi, loadInoblock env fs ino s
      = .done () { s with tick := t, dInoblock := b, dInomin := lo, dInomax := hi } := by
  unfold loadInoblock
  rw [Prog.get_bind_apply]
  split
  · exact ⟨s.tick, s.dInoblock, s.dInomin, s.dInomax, rfl⟩
  · exact ⟨_, _, _, _, rfl⟩

/-- `vnode_get` returns a vnode with one reference more, the one in core if there is one. -/
theorem vnodeGet_total (ino : Nat) (s : State) :
    ∃ v t l b lo hi, vnodeGet env fs ino s = .done () { s with
        tick := t, log := l, dInoblock := b, dInomin := lo, dInomax := hi
        vnodes := Function.update s.vnodes ino (some v) } ∧
      v.count = s.refs ino + 1 ∧ ∀ w, s.vnodes ino = some w → v.inode = w.inode := by
  unfold vnodeGet
  rw [Prog.get_bind_apply, Prog.modify_bind_apply]
  cases here : s.vnodes ino with
  | some w =>
      refine ⟨{ w with count := w.count + 1 }, _, _, _, _, _, rfl, ?_, ?_⟩
      · rw [State.refs, here]; rfl
      · rintro _ ⟨⟩; rfl
  | none =>
      have zero : s.refs ino = 0 := by rw [State.refs, here]; rfl
      simp only [vnodeDinode]
      split
      · obtain ⟨t, b, lo, hi, load⟩ := loadInoblock_total env fs ino
          { s with log := .vnodeGet ino (s.inoUsed fs ino) :: s.log }
        rw [getino, bind_assoc, Prog.bind_of_done load]
        exact ⟨_, _, _, _, _, _, rfl, by rw [zero], fun w there => by cases there⟩
      · exact ⟨_, _, _, _, _, _, rfl, by rw [zero], fun w there => by cases there⟩

end

end FuseUfs
