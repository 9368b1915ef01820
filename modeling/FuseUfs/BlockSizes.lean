import FuseUfs.WriteCorrect
import FuseUfs.DirScan

/-! # Two formulas for the size of a block

`blksize` of the macros works from the number of the block; `ufs_inode_io_size` works from the
bytes that are left, or from the fragments before a position. Both give the full block in a file
of twelve blocks or more, and the fragments of the rest at the end of a shorter one.
-/

namespace FuseUfs

section Sizes

variable {fs : Superblock} {inode : Inode} {size b x : Nat}

theorem blksize_full (full : ndaddr ≤ b ∨ (b + 1) * fs.fsBsize ≤ size) :
    fs.blksize size b = fs.fsBsize := by
  unfold Superblock.blksize
  rw [fs.smalllblktosize_eq, if_pos full]

/-- A file of twelve blocks has full blocks only. -/
theorem blksize_big (big : fs.fsBsize * ndaddr ≤ size) : fs.blksize size b = fs.fsBsize := by
  apply blksize_full
  cases Nat.lt_or_ge b ndaddr with
  | inl few =>
      right
      calc (b + 1) * fs.fsBsize ≤ ndaddr * fs.fsBsize := Nat.mul_le_mul_right _ few
        _ = fs.fsBsize * ndaddr := Nat.mul_comm ..
        _ ≤ size := big
  | inr far => exact .inl far

/-- The last block of a short file has the fragments of its bytes. -/
theorem blksize_last (few : b < ndaddr) (low : b * fs.fsBsize < size)
    (high : size ≤ (b + 1) * fs.fsBsize) :
    fs.blksize size b = fs.fragroundup (size - b * fs.fsBsize) := by
  cases high.lt_or_eq with
  | inl less =>
      have block : size / fs.fsBsize = b := Nat.div_eq_of_lt_le low.le less
      have parts := Nat.div_add_mod' size fs.fsBsize
      rw [block] at parts
      have place : size % fs.fsBsize = size - b * fs.fsBsize := by omega
      unfold Superblock.blksize
      rw [fs.smalllblktosize_eq, if_neg (by omega), fs.blkoff_eq, place]
  | inr whole =>
      rw [blksize_full (.inr whole.ge), whole, Nat.succ_mul, Nat.add_sub_cancel_left]
      exact (le_fragroundup _).antisymm (fragroundup_le fs le_rfl)

/-- A load that starts at a block brings in that block. -/
theorem loadLen_eq_blksize (inside : b * fs.fsBsize < size) :
    loadLen fs size (b * fs.fsBsize) = fs.blksize size b := by
  unfold loadLen
  by_cases big : fs.fsBsize * ndaddr ≤ size
  · rw [if_pos big, blksize_big big]
  · have few : b < ndaddr := by
      by_contra far
      apply big
      rw [Nat.mul_comm]
      exact (Nat.mul_le_mul_right _ (not_lt.1 far)).trans inside.le
    rw [if_neg big]
    cases Nat.le_total ((b + 1) * fs.fsBsize) size with
    | inl whole =>
        have rest : fs.fsBsize ≤ size - b * fs.fsBsize := by
          rw [Nat.succ_mul] at whole
          omega
        rw [blksize_full (.inr whole), min_eq_left (rest.trans (le_fragroundup _))]
    | inr last =>
        have rest : size - b * fs.fsBsize ≤ fs.fsBsize := by
          rw [Nat.succ_mul] at last
          omega
        rw [blksize_last few inside last, min_eq_right (fragroundup_le fs rest)]

/-- Counted modulo the block, the fragments up to a position are those of its own block. -/
theorem lastFrags_bytes (low : b * fs.fsBsize < x) (high : x ≤ (b + 1) * fs.fsBsize) :
    lastFrags fs x * fs.fsFsize = fs.fragroundup (x - b * fs.fsBsize) := by
  have parts : x + (fs.fsFsize - 1)
      = x - b * fs.fsBsize + (fs.fsFsize - 1) + b * fs.fsFrag * fs.fsFsize := by
    rw [Nat.mul_assoc, ← fs.bsize_eq_mul]
    omega
  have frags := frags_eq low high
  unfold Superblock.fsQfmask at frags
  rw [parts, Nat.add_mul_div_right _ _ fs.fsize_pos] at frags
  rw [fs.fragroundup_eq]
  congr 1
  omega

theorem fragroundup_mono (fs : Superblock) {m n : Nat} (le : m ≤ n) :
    fs.fragroundup m ≤ fs.fragroundup n := by
  rw [fs.fragroundup_eq, fs.fragroundup_eq]
  apply Nat.mul_le_mul_right
  apply Nat.div_le_div_right
  omega

/-- What a write up to `x` takes its block to be, when `x` is in the last block of the file. -/
theorem ioFrags_last (low : b * fs.fsBsize < x) (le : x ≤ size) (high : size ≤ (b + 1) * fs.fsBsize) :
    ioFrags fs size x * fs.fsFsize ≤ fs.blksize size b ∧
      (x = size → ioFrags fs size x * fs.fsFsize = fs.blksize size b) := by
  unfold ioFrags
  by_cases big : fs.fsBsize * ndaddr ≤ size
  · rw [if_pos big, blksize_big big, ← fs.bsize_eq_mul]
    exact ⟨le_rfl, fun _ => rfl⟩
  · have few : b < ndaddr := by
      by_contra far
      apply big
      rw [Nat.mul_comm]
      exact (Nat.mul_le_mul_right _ (not_lt.1 far)).trans (by omega)
    rw [if_neg big, blksize_last few (by omega) high, lastFrags_bytes low (le.trans high)]
    refine ⟨fragroundup_mono fs (by omega), ?_⟩
    intro whole
    rw [whole]

/-- `ufs_inode_io_size` and `blksize` agree: at the start of every block for a read, and for a
    write that ends in the last block as far as the write goes. -/
theorem ufsInodeIoSize_blksize (same : inode.iDin2.diSize = inode.iSize) :
    (∀ offset : Nat, fs.fsBsize ∣ offset → offset < inode.iSize →
      ufsInodeIoSize fs inode (asInt32 offset) false
        = fs.blksize inode.iSize (fs.lblkno offset)) ∧
    (∀ e : Nat, 0 < e → e ≤ inode.iSize → fs.lblkno (e - 1) = fs.lblkno (inode.iSize - 1) →
      ((e - fs.lblkno (e - 1) * fs.fsBsize : Nat) : Int)
          ≤ ufsInodeIoSize fs inode (asInt32 e) true ∧
        ufsInodeIoSize fs inode (asInt32 e) true ≤ fs.blksize inode.iSize (fs.lblkno (e - 1)) ∧
        (e = inode.iSize → ufsInodeIoSize fs inode (asInt32 e) true
          = fs.blksize inode.iSize (fs.lblkno (e - 1)))) := by
  have bpos := fs.bsize_pos
  constructor
  · rintro offset ⟨b, rfl⟩ inside
    rw [Nat.mul_comm] at inside ⊢
    rw [ioSize_read same inside, fs.lblkno_eq, Nat.mul_div_cancel _ bpos,
      loadLen_eq_blksize inside]
  · intro e pos le block
    simp only [fs.lblkno_eq] at block ⊢
    have low := Nat.div_mul_le_self (e - 1) fs.fsBsize
    have high := Nat.lt_div_mul_add bpos (a := inode.iSize - 1)
    rw [← block] at high
    set b := (e - 1) / fs.fsBsize
    -- A position of `2 ^ 31` or more is in a file of twelve blocks, where it is not looked at.
    have small : fs.fsBsize * ndaddr ≤ inode.iDin2.diSize ∨ e < 2 ^ 31 := by
      have most := fs.bsize_le
      unfold ndaddr
      omega
    have start : b * fs.fsBsize < e := by omega
    have finish : inode.iSize ≤ (b + 1) * fs.fsBsize := by
      rw [Nat.succ_mul]
      omega
    obtain ⟨most, whole⟩ := ioFrags_last start le finish
    have least := le_ioFrags inode.iSize start (le.trans finish)
    rw [ioSize_write pos small, same]
    refine ⟨?_, by exact_mod_cast most, fun last => by exact_mod_cast whole last⟩
    norm_cast
    omega

/-- The second block of a file of 5000 bytes has two fragments, and a write up to 4200 takes one. -/
theorem ufsInodeIoSize_blksize_small :
    let inode := copyOndiskToIncore { blankDinode with diSize := 5000 } 3
    ufsInodeIoSize smallFs inode (asInt32 4096) false = 1024 ∧
      104 ≤ ufsInodeIoSize smallFs inode (asInt32 4200) true ∧
      ufsInodeIoSize smallFs inode (asInt32 4200) true ≤ 1024 ∧
      ufsInodeIoSize smallFs inode (asInt32 5000) true = 1024 := by
  have same : (copyOndiskToIncore { blankDinode with diSize := 5000 } 3).iDin2.diSize = 5000 := rfl
  obtain ⟨reads, writes⟩ := @ufsInodeIoSize_blksize smallFs _ same
  obtain ⟨least, most, -⟩ := writes 4200 (by decide) (by decide) (by decide)
  exact ⟨reads 4096 (by decide) (by decide), least, most,
    (writes 5000 (by decide) (by decide) (by decide)).2.2 rfl⟩

end Sizes

end FuseUfs
