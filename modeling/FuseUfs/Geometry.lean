import Mathlib

/-! # Superblock geometry and the macros over it

`Superblock` is the part of `struct fs` that no operation changes. Its sizes and
shifts are redundant on disk; the fields at the end say how they fit together, so
a superblock with a shift that does not match its size cannot be built. `sbread`
accepts only `sizeof(struct fs) ≤ fs_bsize ≤ MAXBSIZE`, which is `bshift_range`.
-/

namespace FuseUfs

/-- Direct block addresses in an inode. -/
def ndaddr : Nat := 12

/-- Bits in a byte of a map. -/
def nbby : Nat := 8

/-- The root directory. -/
def rootino : Nat := 2

/-- `howmany(x, y)`: how many pieces of `y` cover `x`. -/
def howmany (x y : Nat) : Nat := (x + (y - 1)) / y

structure Superblock where
  fsBsize : Nat
  fsFsize : Nat
  fsFrag : Nat
  fsBshift : Nat
  fsFshift : Nat
  fsFragshift : Nat
  fsNindir : Nat
  fsInopb : Nat
  fsIpg : Nat
  fsFpg : Nat
  fsNcg : Nat
  /-- Fragments on the device. -/
  fsSize : Nat
  fsCgsize : Nat
  fsCssize : Nat
  fsContigsumsize : Nat
  fsMaxsymlinklen : Nat
  fsAvgfilesize : Nat
  fsAvgfpdir : Nat
  bsize_eq : fsBsize = 2 ^ fsBshift
  fsize_eq : fsFsize = 2 ^ fsFshift
  frag_eq : fsFrag = 2 ^ fsFragshift
  bshift_eq : fsBshift = fsFshift + fsFragshift
  fragshift_le : fsFragshift ≤ 3
  bshift_range : 11 ≤ fsBshift ∧ fsBshift ≤ 16
  nindir_eq : fsNindir * 8 = fsBsize
  inopb_eq : fsInopb * 256 = fsBsize
  fpg_pos : 0 < fsFpg
  frag_dvd_fpg : fsFrag ∣ fsFpg
  ncg_pos : 0 < fsNcg
  ipg_pos : 0 < fsIpg
  inopb_dvd_ipg : fsInopb ∣ fsIpg
  /-- Every byte of the device has a file offset. -/
  device_fits : fsNcg * fsFpg * fsFsize ≤ 2 ^ 63

namespace Superblock

variable (fs : Superblock)

/-- `~fs_bmask` for 64-bit sizes. -/
def fsQbmask : Nat := fs.fsBsize - 1

/-- `~fs_fmask` for 64-bit sizes. -/
def fsQfmask : Nat := fs.fsFsize - 1

def lblkno (loc : Nat) : Nat := loc >>> fs.fsBshift

def blkoff (loc : Nat) : Nat := loc &&& fs.fsQbmask

def fragoff (loc : Nat) : Nat := loc &&& fs.fsQfmask

def numfrags (loc : Nat) : Nat := loc >>> fs.fsFshift

/-- Adding the mask and clearing the low bits. -/
def fragroundup (size : Nat) : Nat := ((size + fs.fsQfmask) >>> fs.fsFshift) <<< fs.fsFshift

def fragstoblks (frags : Nat) : Nat := frags >>> fs.fsFragshift

def fragnum (fsb : Nat) : Nat := fsb &&& (fs.fsFrag - 1)

def blknum (fsb : Nat) : Nat := fsb - (fsb &&& (fs.fsFrag - 1))

def smalllblktosize (blk : Nat) : Nat := blk <<< fs.fsBshift

/-- The number of bytes that logical block `lbn` of a file of `size` bytes owns. -/
def blksize (size lbn : Nat) : Nat :=
  if ndaddr ≤ lbn ∨ fs.smalllblktosize (lbn + 1) ≤ size then fs.fsBsize
  else fs.fragroundup (fs.blkoff size)

def dtog (d : Nat) : Nat := d / fs.fsFpg

def dtogd (d : Nat) : Nat := d % fs.fsFpg

def cgbase (c : Nat) : Nat := fs.fsFpg * c

def inoToCg (ino : Nat) : Nat := ino / fs.fsIpg

/-! ## What the macros compute -/

@[simp] theorem lblkno_eq (loc : Nat) : fs.lblkno loc = loc / fs.fsBsize := by
  rw [lblkno, Nat.shiftRight_eq_div_pow, fs.bsize_eq]

@[simp] theorem blkoff_eq (loc : Nat) : fs.blkoff loc = loc % fs.fsBsize := by
  rw [blkoff, fsQbmask, fs.bsize_eq, Nat.and_two_pow_sub_one_eq_mod]

@[simp] theorem fragoff_eq (loc : Nat) : fs.fragoff loc = loc % fs.fsFsize := by
  rw [fragoff, fsQfmask, fs.fsize_eq, Nat.and_two_pow_sub_one_eq_mod]

@[simp] theorem numfrags_eq (loc : Nat) : fs.numfrags loc = loc / fs.fsFsize := by
  rw [numfrags, Nat.shiftRight_eq_div_pow, fs.fsize_eq]

@[simp] theorem fragroundup_eq (size : Nat) :
    fs.fragroundup size = (size + (fs.fsFsize - 1)) / fs.fsFsize * fs.fsFsize := by
  rw [fragroundup, Nat.shiftRight_eq_div_pow, Nat.shiftLeft_eq, ← fs.fsize_eq, fsQfmask]

@[simp] theorem fragstoblks_eq (frags : Nat) : fs.fragstoblks frags = frags / fs.fsFrag := by
  rw [fragstoblks, Nat.shiftRight_eq_div_pow, fs.frag_eq]

@[simp] theorem fragnum_eq (fsb : Nat) : fs.fragnum fsb = fsb % fs.fsFrag := by
  rw [fragnum, fs.frag_eq, Nat.and_two_pow_sub_one_eq_mod]

@[simp] theorem blknum_eq (fsb : Nat) : fs.blknum fsb = fsb - fsb % fs.fsFrag := by
  rw [blknum, fs.frag_eq, Nat.and_two_pow_sub_one_eq_mod]

@[simp] theorem smalllblktosize_eq (blk : Nat) : fs.smalllblktosize blk = blk * fs.fsBsize := by
  rw [smalllblktosize, Nat.shiftLeft_eq, fs.bsize_eq]

theorem bsize_pos : 0 < fs.fsBsize := by
  rw [fs.bsize_eq]; exact Nat.two_pow_pos _

theorem fsize_pos : 0 < fs.fsFsize := by
  rw [fs.fsize_eq]; exact Nat.two_pow_pos _

theorem frag_pos : 0 < fs.fsFrag := by
  rw [fs.frag_eq]; exact Nat.two_pow_pos _

theorem bsize_eq_mul : fs.fsBsize = fs.fsFrag * fs.fsFsize := by
  rw [fs.bsize_eq, fs.frag_eq, fs.fsize_eq, fs.bshift_eq, Nat.pow_add, Nat.mul_comm]

theorem frag_cases : fs.fsFrag = 1 ∨ fs.fsFrag = 2 ∨ fs.fsFrag = 4 ∨ fs.fsFrag = 8 := by
  have small := fs.fragshift_le
  have shift := fs.frag_eq
  interval_cases h : fs.fsFragshift <;> simp_all

theorem frag_le : fs.fsFrag ≤ 8 := by
  obtain h | h | h | h := fs.frag_cases <;> omega

theorem frag_dvd_eight : fs.fsFrag ∣ 8 := by
  obtain h | h | h | h := fs.frag_cases <;> rw [h] <;> decide

theorem bsize_le : fs.fsBsize ≤ 65536 := by
  rw [fs.bsize_eq]
  exact (Nat.pow_le_pow_right (by decide) fs.bshift_range.2 : 2 ^ fs.fsBshift ≤ 2 ^ 16)

theorem bsize_ge : 2048 ≤ fs.fsBsize := by
  rw [fs.bsize_eq]
  exact (Nat.pow_le_pow_right (by decide) fs.bshift_range.1 : 2 ^ 11 ≤ 2 ^ fs.fsBshift)

theorem nindir_ge : 256 ≤ fs.fsNindir := by
  have size := fs.nindir_eq
  have large := fs.bsize_ge
  omega

theorem fsize_le_bsize : fs.fsFsize ≤ fs.fsBsize := by
  rw [fs.bsize_eq_mul]
  exact Nat.le_mul_of_pos_left _ fs.frag_pos

/-- Block numbers of a group are below the block count of the group. -/
theorem fpg_eq_mul : fs.fsFpg / fs.fsFrag * fs.fsFrag = fs.fsFpg :=
  Nat.div_mul_cancel fs.frag_dvd_fpg

end Superblock

/-- One group of sixteen blocks of eight fragments of 512 bytes. -/
def smallFs : Superblock where
  fsBsize := 4096
  fsFsize := 512
  fsFrag := 8
  fsBshift := 12
  fsFshift := 9
  fsFragshift := 3
  fsNindir := 512
  fsInopb := 16
  fsIpg := 16
  fsFpg := 128
  fsNcg := 1
  fsSize := 128
  fsCgsize := 2048
  fsCssize := 512
  fsContigsumsize := 0
  fsMaxsymlinklen := 120
  fsAvgfilesize := 16384
  fsAvgfpdir := 64
  bsize_eq := by decide
  fsize_eq := by decide
  frag_eq := by decide
  bshift_eq := by decide
  fragshift_le := by decide
  bshift_range := by decide
  nindir_eq := by decide
  inopb_eq := by decide
  fpg_pos := by decide
  frag_dvd_fpg := by decide
  ncg_pos := by decide
  ipg_pos := by decide
  inopb_dvd_ipg := by decide
  device_fits := by decide

end FuseUfs
