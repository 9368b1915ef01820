import FuseUfs.Alloc
import FuseUfs.Vnode

/-! # Allocating and freeing inodes

`ufs_valloc` chooses a group, near the parent for a file and by the load of the groups for
a directory, and lets `ufs_hashalloc` try the groups from there on. In a group the wanted
inode comes first, then the first byte of the map from the rotor on in which no inode is
used, then the first byte with any free inode.

Inodes are laid out a block at a time when they are first needed. The block that is
initialised is the one at `cg_initediblk`; it is written to the address that field names
after it was advanced.
-/

namespace FuseUfs

open Lib BitMap

def dtDir : Nat := 4

def iftodt (mode : Nat) : Nat := (mode &&& ifmt) >>> 12

/-- One inode goes from free to used; a directory is counted as well. -/
def Csum.takeInode (cs : Csum) (mode : Nat) : Csum :=
  { cs with
    csNifree := cs.csNifree - 1
    csNdir := if iftodt mode = dtDir then cs.csNdir + 1 else cs.csNdir }

/-- One inode goes from used to free. The type of the mode is compared with a whole mode. -/
def Csum.giveInode (cs : Csum) (mode : Nat) : Csum :=
  { cs with
    csNifree := cs.csNifree + 1
    csNdir := if iftodt mode = ifdir then cs.csNdir - 1 else cs.csNdir }

/-- The first of the `len` bytes from `i` on that has the property. -/
def findByte (want : BitVec 8 → Bool) (map : BitMap) : (len i : Nat) → Option Nat
  | 0, _ => none
  | len + 1, i => if want (map i) then some i else findByte want map len (i + 1)

/-- The first clear bit of a byte, from bit `k` on. -/
def clearBit (byte : BitVec 8) : (left k : Nat) → Option Nat
  | 0, _ => none
  | left + 1, k => if byte.getLsbD k = false then some k else clearBit byte left (k + 1)

section

variable (env : Env) (fs : Superblock)

/-- The byte of the inode map to take an inode from: one without used inodes from the rotor
    on, or any one with a free inode. -/
def inodeByte (cgp : Cg) : Option Nat :=
  let len := howmany (fs.fsIpg - cgp.cgIrotor) nbby
  match findByte (· == 0#8) cgp.cgInosused len (cgp.cgIrotor / nbby) with
  | some i => some i
  | none => findByte (· != 0xff#8) cgp.cgInosused (howmany fs.fsIpg nbby) 0

/-- The inode of the group to take, and the group with its rotor moved. -/
def pickInode (cgp : Cg) (ipref : Nat) : Option (Nat × Cg) :=
  if ipref ≠ 0 ∧ cgp.cgInosused.isset (ipref % fs.fsIpg) = false then
    some (ipref % fs.fsIpg, cgp)
  else do
    let i ← inodeByte fs cgp
    let k ← clearBit (cgp.cgInosused i) nbby 0
    pure (i * nbby + k, { cgp with cgIrotor := i * nbby + k })

/-- Fresh dinodes for one block: zeros, but for the generation. -/
def freshDinodes (seed i : Nat) : Dinode :=
  { blankDinode with diGen := env.rand (seed + i) / 2 + 1 }

/-- Prepare another block of inodes when the one taken may lie in it; -1 stands for a failed
    read. -/
def initInodes (cgp : Cg) (ipref : Nat) : M (Int × Cg × Option (Nat → Dinode)) :=
  if cgp.cgInitediblk < ipref + fs.fsInopb ∧ cgp.cgInitediblk < cgp.cgNiblk then do
    let ok ← tryReadIno env
    let s ← Prog.get
    if ok then
      pure (0, { cgp with cgInitediblk := cgp.cgInitediblk + fs.fsInopb },
        some (freshDinodes env s.tick))
    else pure (-1, cgp, none)
  else pure (0, cgp, none)

/-- Write the prepared block, if there is one, to where inode `ino` lies. -/
def writeInodes (ino : Nat) : Option (Nat → Dinode) → M Int
  | none => pure 0
  | some ibp => do
      let ok ← tryWriteIno env
      if ok then do
        Prog.modify fun s =>
          let first := ino - ino % fs.fsInopb
          { s with
            dinodes := fun i =>
              if first ≤ i ∧ i < first + fs.fsInopb then ibp (i - first) else s.dinodes i }
        pure 0
      else pure (-1)

/-- Mark inode `ipref` of the group used and write the group. The result is the value that
    `ufs_inode_alloc` returns, an error or the inode in an `int`. -/
def takeInode (mode cg : Nat) (cgp : Cg) (ipref : Nat) : M Int := do
  let (rc, cgp, ibp) ← initInodes env fs cgp ipref
  if rc ≠ 0 then pure (-eio)
  else do
    let cgp := { cgp with
      cgInosused := cgp.cgInosused.setbit ipref
      cgCs := cgp.cgCs.takeInode mode }
    Prog.modify fun s => s.summary cg (·.takeInode mode)
    let rc ← blkwriteCg env cg cgp
    if rc = -1 then pure (-eio)
    else do
      let rc ← writeInodes env fs (cg * fs.fsIpg + cgp.cgInitediblk) ibp
      if rc ≠ 0 then pure (-eio) else pure (asInt32 (cg * fs.fsIpg + ipref : Nat))

/-- Take an inode of the group. The result is kept as a 64-bit pattern; 0 sends
    `ufs_hashalloc` on to the next group. A preference below 0 indexes in front of the map. -/
def ufsInodeAlloc (mode cg ipref : Nat) : M Nat := do
  let s ← Prog.get
  if (s.fsCsp cg).csNifree = 0 then pure 0
  else do
    match ← blkreadCg env cg with
    | none => pure (asU64 (-eio))
    | some cgp =>
        if cgp.chkmagic = false ∨ cgp.cgCs.csNifree = 0 then pure (asU64 (-eio))
        else if 2 ^ 63 ≤ ipref then Prog.halt
        else
          match pickInode fs { cgp with cgTime := env.now } ipref with
          | none => Prog.halt
          | some (ipref, cgp) => do
              let ret ← takeInode env fs mode cg cgp ipref
              pure (asU64 ret)

/-! ## The group of a new directory -/

/-- The first of the `left` groups from `cg` on that has the property. -/
def searchCg (want : Nat → Bool) : (left cg : Nat) → Option Nat
  | 0, _ => none
  | left + 1, cg => if want cg then some cg else searchCg want left (cg + 1)

/-- How many directories may be made in a row in one group. -/
def maxContigdirs (avgbfree avgndir : Int) : Int :=
  let cgsize := asInt32 (fs.fsFsize * fs.fsFpg : Nat)
  let dirsize := asInt32 (fs.fsAvgfilesize * fs.fsAvgfpdir : Nat)
  let room := asInt32 (avgbfree * fs.fsBsize)
  let curdirsize := if avgndir ≠ 0 then (asInt32 (cgsize - room)).tdiv avgndir else 0
  let dirsize := if dirsize < curdirsize then curdirsize else dirsize
  let most := if dirsize ≤ 0 then 0 else min (room.tdiv dirsize) 255
  let most := if 0 < fs.fsAvgfpdir then min most (fs.fsIpg / fs.fsAvgfpdir : Nat) else most
  if most = 0 then 1 else most

/-- The group for a new directory below a directory in group `prefcg`. -/
def dirprefCg (s : State) (prefcg : Nat) : Nat :=
  let avgifree := asInt32 (s.fsCstotal.csNifree.tdiv fs.fsNcg)
  let avgbfree := asInt32 (s.fsCstotal.csNbfree.tdiv fs.fsNcg)
  let avgndir := asInt32 (s.fsCstotal.csNdir.tdiv fs.fsNcg)
  let maxndir := min (avgndir + (fs.fsIpg / 16 : Nat)) fs.fsIpg
  let minifree := max (avgifree - avgifree.tdiv 4) 1
  let minbfree := max (avgbfree - avgbfree.tdiv 4) 1
  let most := maxContigdirs fs avgbfree avgndir
  let roomy (cg : Nat) : Bool := decide ((s.fsCsp cg).csNdir < maxndir ∧
    minifree ≤ (s.fsCsp cg).csNifree ∧ minbfree ≤ (s.fsCsp cg).csNbfree ∧
    (s.fsContigdirs cg : Int) < most)
  let average (cg : Nat) : Bool := decide (avgifree ≤ (s.fsCsp cg).csNifree)
  ((searchCg roomy (fs.fsNcg - prefcg) prefcg).orElse fun _ =>
    (searchCg roomy prefcg 0).orElse fun _ =>
    (searchCg average (fs.fsNcg - prefcg) prefcg).orElse fun _ =>
    searchCg average prefcg 0).getD prefcg

/-- The first inode of the group for a new directory. -/
def ufsDirpref (s : State) (pip : Inode) : Nat :=
  asU64 (asInt32 (fs.fsIpg * dirprefCg fs s (fs.inoToCg pip.iNumber) : Nat))

/-- Count directories that are made one after another in the same group. -/
def countContigdirs (mode cg : Nat) : M Unit :=
  Prog.modify fun s => { s with
    fsContigdirs := Function.update s.fsContigdirs cg
      (if mode &&& ifmt = ifdir then
        if s.fsContigdirs cg < 255 then s.fsContigdirs cg + 1 else s.fsContigdirs cg
      else s.fsContigdirs cg - 1) }

/-- The inode to look for first, and from it the group. -/
def vallocPref (s : State) (pip : Inode) (mode : Nat) : Nat :=
  let ipref := if iftodt mode = dtDir then ufsDirpref fs s pip else pip.iNumber
  if asU64 (asInt32 (fs.fsNcg * fs.fsIpg : Nat)) ≤ ipref then 0 else ipref

/-- A new inode has no blocks, no flags, no size and another generation. -/
def renewInode (seed : Nat) (ip : Inode) : Inode :=
  { ip with
    iBlocks := 0
    iFlags := 0
    iSize := 0
    iGen := if ip.iGen = 0 ∨ ip.iGen + 1 = 0 then env.rand seed / 2 + 1 else ip.iGen + 1 }

/-- Returns the error, and with 0 the inode whose vnode is referenced. -/
def ufsValloc (parent mode : Nat) : M (Int × Nat) := do
  let pip ← vnode2inode parent
  let s ← Prog.get
  if s.fsCstotal.csNifree = 0 then pure (-enospc, 0)
  else do
    let ipref := vallocPref fs s pip mode
    let cg := fs.inoToCg ipref
    countContigdirs mode cg
    let ino ← ufsHashalloc fs cg (asU64 (asInt32 ipref)) (ufsInodeAlloc env fs mode)
    if asInt32 ino ≤ 0 then pure (-enospc, 0)
    else do
      vnodeGet env fs ino
      let s ← Prog.get
      updateInode ino (renewInode env s.tick)
      let ip ← vnode2inode ino
      Prog.modify fun s => { s with log := .valloc ino ip.iDin2 :: s.log }
      pure (0, ino)

/-! ## Giving an inode back -/

/-- Clear the bit of inode `ino` in the map of its group. -/
def ufsFreeInode (ino mode : Nat) : M Int := do
  let cg := fs.inoToCg ino
  if (asInt32 (fs.fsIpg * fs.fsNcg : Nat) % 2 ^ 32).toNat ≤ ino % 2 ^ 32 then Prog.halt
  else do
    match ← blkreadCg env cg with
    | none => pure (-1)
    | some cgp =>
        if cgp.chkmagic = false then pure 0
        else do
          let bit := ino % fs.fsIpg
          Prog.modify fun s => { s with
            log := .freeInode ino (cgp.cgInosused.isset bit)
              ((s.vnodes ino).elim 0 (·.inode.iNlink)) ((s.vnodes ino).elim 0 (·.count)) :: s.log }
          let cgp := { cgp with
            cgTime := env.now
            cgInosused := cgp.cgInosused.clrbit bit
            cgIrotor := if bit < cgp.cgIrotor then bit else cgp.cgIrotor
            cgCs := cgp.cgCs.giveInode mode }
          Prog.modify fun s => s.summary cg (·.giveInode mode)
          let rc ← blkwriteCg env cg cgp
          if rc = -1 then pure (-eio) else pure 0

end

end FuseUfs
