import FuseUfs.Flush
import FuseUfs.ReadCorrect

/-! # The write loop

`ufs_file_write` takes one block after the other: it brings the block into the buffer,
patches it, and flushes it when the position leaves the block; `do_write` flushes the last
one. `Progress m` says where a write stands once every block before `m` was flushed. The
first flush of a write takes its sizes from the size that the file had before, the others
from the size that it has after the write.
-/

namespace FuseUfs

open Lib

/-! ## Fragments of a block -/

section Frags

variable (fs : Superblock)

/-- The fragments of the last block of a file of `x` bytes. -/
def lastFrags (x : Nat) : Nat :=
  if (x + fs.fsQfmask) / fs.fsFsize % fs.fsFrag = 0 then fs.fsFrag
  else (x + fs.fsQfmask) / fs.fsFsize % fs.fsFrag

/-- The fragments that a flush at position `x` writes, when the dinode has size `dsize`. -/
def ioFrags (dsize x : Nat) : Nat := if fs.fsBsize * ndaddr ≤ dsize then fs.fsFrag else lastFrags fs x

/-- The fragments that a flush takes its block to have. -/
def oldFrags (dsize : Nat) : Nat :=
  if fs.fsBsize * ndaddr ≤ dsize then fs.fsFrag else if dsize = 0 then 0 else lastFrags fs dsize

/-- How many bytes `load_buffer` brings in at `pos`, when the dinode has size `dsize` and the
    inode in core has size `size`. -/
def loadLenAt (dsize size pos : Nat) : Nat :=
  if fs.fsBsize * ndaddr ≤ dsize then fs.fsBsize else min fs.fsBsize (fs.fragroundup (size - pos))

end Frags

section Lemmas

variable {fs : Superblock}

theorem lastFrags_pos (x : Nat) : 0 < lastFrags fs x := by
  unfold lastFrags
  have := fs.frag_pos
  split <;> omega

theorem lastFrags_le (x : Nat) : lastFrags fs x ≤ fs.fsFrag := by
  unfold lastFrags
  split
  · exact le_rfl
  · exact (Nat.mod_lt _ fs.frag_pos).le

/-- Up to `x`, the blocks before the last one and the fragments of the last one. -/
theorem frags_eq {m x : Nat} (low : m * fs.fsBsize < x) (high : x ≤ (m + 1) * fs.fsBsize) :
    m * fs.fsFrag + lastFrags fs x = (x + fs.fsQfmask) / fs.fsFsize := by
  have fpos := fs.fsize_pos
  have gpos := fs.frag_pos
  set f := (x + fs.fsQfmask) / fs.fsFsize with hf
  rw [fs.bsize_eq_mul, ← Nat.mul_assoc] at low high
  have more : m * fs.fsFrag < f := by
    rw [hf, Nat.lt_iff_add_one_le, Nat.le_div_iff_mul_le fpos, Nat.add_mul]
    unfold Superblock.fsQfmask
    omega
  have less : f ≤ (m + 1) * fs.fsFrag := by
    rw [hf]
    refine Nat.le_of_lt_succ ((Nat.div_lt_iff_lt_mul fpos).mpr ?_)
    rw [Nat.succ_mul]
    unfold Superblock.fsQfmask
    omega
  rw [Nat.add_mul, Nat.one_mul] at less
  unfold lastFrags
  rw [← hf]
  by_cases full : f = m * fs.fsFrag + fs.fsFrag
  · have zero : f % fs.fsFrag = 0 := by
      rw [full, ← Nat.succ_mul]
      exact Nat.mul_mod_left _ _
    rw [if_pos zero, full]
  · have rest : f % fs.fsFrag = f - m * fs.fsFrag := by
      have split : f = f - m * fs.fsFrag + m * fs.fsFrag := by omega
      conv_lhs => rw [split]
      rw [Nat.add_mul_mod_self_right]
      exact Nat.mod_eq_of_lt (by omega)
    rw [rest, if_neg (by omega)]
    omega

/-- The fragments of the last block cover its bytes. -/
theorem le_lastFrags {m x : Nat} (low : m * fs.fsBsize < x) (high : x ≤ (m + 1) * fs.fsBsize) :
    x ≤ m * fs.fsBsize + lastFrags fs x * fs.fsFsize := by
  have eq := frags_eq low high
  have fpos := fs.fsize_pos
  have round := @le_fragroundup fs x
  rw [fs.fragroundup_eq] at round
  calc x ≤ (x + (fs.fsFsize - 1)) / fs.fsFsize * fs.fsFsize := round
    _ = (m * fs.fsFrag + lastFrags fs x) * fs.fsFsize := by rw [eq]; rfl
    _ = m * fs.fsBsize + lastFrags fs x * fs.fsFsize := by
        rw [Nat.add_mul, Nat.mul_assoc, ← fs.bsize_eq_mul]

theorem lastFrags_full (m : Nat) : lastFrags fs ((m + 1) * fs.fsBsize) = fs.fsFrag := by
  have bpos := fs.bsize_pos
  have eq := frags_eq (m := m) (x := (m + 1) * fs.fsBsize)
    (Nat.mul_lt_mul_of_pos_right (Nat.lt_succ_self m) bpos) le_rfl
  have frags : ((m + 1) * fs.fsBsize + fs.fsQfmask) / fs.fsFsize = (m + 1) * fs.fsFrag := by
    have small : fs.fsQfmask < fs.fsFsize := by
      have := fs.fsize_pos
      unfold Superblock.fsQfmask
      omega
    rw [fs.bsize_eq_mul, ← Nat.mul_assoc, Nat.mul_comm _ fs.fsFsize, Nat.mul_add_div fs.fsize_pos,
      Nat.div_eq_of_lt small, Nat.add_zero]
  rw [frags, Nat.add_mul m 1 fs.fsFrag, Nat.one_mul] at eq
  exact Nat.add_left_cancel eq

theorem ioFrags_pos (dsize x : Nat) : 0 < ioFrags fs dsize x := by
  unfold ioFrags
  split
  · exact fs.frag_pos
  · exact lastFrags_pos x

theorem ioFrags_le (dsize x : Nat) : ioFrags fs dsize x ≤ fs.fsFrag := by
  unfold ioFrags
  split
  · exact le_rfl
  · exact lastFrags_le x

theorem le_ioFrags {m x : Nat} (dsize : Nat) (low : m * fs.fsBsize < x)
    (high : x ≤ (m + 1) * fs.fsBsize) : x ≤ m * fs.fsBsize + ioFrags fs dsize x * fs.fsFsize := by
  unfold ioFrags
  split
  · rw [← fs.bsize_eq_mul]
    rwa [Nat.add_mul, Nat.one_mul] at high
  · exact le_lastFrags low high

theorem ioFrags_bytes_le (dsize x : Nat) : ioFrags fs dsize x * fs.fsFsize ≤ fs.fsBsize := by
  rw [fs.bsize_eq_mul]
  exact Nat.mul_le_mul_right _ (ioFrags_le dsize x)

theorem loadLenAt_le (dsize size pos : Nat) : loadLenAt fs dsize size pos ≤ fs.fsBsize := by
  unfold loadLenAt
  split
  · exact le_rfl
  · exact min_le_left _ _

theorem le_loadLenAt (dsize size pos : Nat) :
    min fs.fsBsize (size - pos) ≤ loadLenAt fs dsize size pos := by
  unfold loadLenAt
  split
  · exact min_le_left _ _
  · exact min_le_min le_rfl (le_fragroundup _)

private theorem small_of_few {dsize : Nat} (few : ¬ fs.fsBsize * ndaddr ≤ dsize) : dsize < 2 ^ 20 := by
  have := fs.bsize_le
  unfold ndaddr at few
  omega

/-- The length of a write, for a file with few blocks. -/
private theorem ioSize_few {inode : Inode} {x : Nat}
    (few : ¬ fs.fsBsize * ndaddr ≤ inode.iDin2.diSize) (pos : 0 < x) (small : x < 2 ^ 31) :
    ufsInodeIoSize fs inode (asInt32 x) true = (lastFrags fs x * fs.fsFsize : Nat) := by
  have fpos := fs.fsize_pos
  have some : 0 < (x + fs.fsQfmask) / fs.fsFsize := by
    refine Nat.div_pos ?_ fpos
    unfold Superblock.fsQfmask
    omega
  have frags : fragsOf fs (asInt32 x) = ((x + fs.fsQfmask) / fs.fsFsize : Nat) := by
    unfold fragsOf
    rw [asInt32_of_lt small]
    norm_cast
  have rest : Int.tmod ((x + fs.fsQfmask) / fs.fsFsize : Nat) fs.fsFrag
      = ((x + fs.fsQfmask) / fs.fsFsize % fs.fsFrag : Nat) := rfl
  unfold ufsInodeIoSize lastFrags
  simp only [if_neg few, if_true, frags, rest]
  rw [if_pos (by omega)]
  by_cases full : (x + fs.fsQfmask) / fs.fsFsize % fs.fsFrag = 0
  · rw [if_neg (by omega), if_pos full, ← fs.bsize_eq_mul]
  · rw [if_pos (by omega), if_neg full, Int.natCast_mul]

/-- The length of a write. -/
theorem ioSize_write {inode : Inode} {x : Nat} (pos : 0 < x)
    (small : fs.fsBsize * ndaddr ≤ inode.iDin2.diSize ∨ x < 2 ^ 31) :
    ufsInodeIoSize fs inode (asInt32 x) true
      = (ioFrags fs inode.iDin2.diSize x * fs.fsFsize : Nat) := by
  unfold ioFrags
  by_cases full : fs.fsBsize * ndaddr ≤ inode.iDin2.diSize
  · rw [if_pos full, ← fs.bsize_eq_mul]
    unfold ufsInodeIoSize
    rw [if_pos full]
  · rw [if_neg full]
    exact ioSize_few full pos (small.resolve_left full)

/-- The length that a flush takes the block to have. -/
theorem ioSize_old (inode : Inode) :
    ufsInodeIoSize fs inode (asInt32 inode.iDin2.diSize) true
      = (oldFrags fs inode.iDin2.diSize * fs.fsFsize : Nat) := by
  unfold oldFrags
  by_cases full : fs.fsBsize * ndaddr ≤ inode.iDin2.diSize
  · rw [if_pos full, ← fs.bsize_eq_mul]
    unfold ufsInodeIoSize
    rw [if_pos full]
  · rw [if_neg full]
    have small := small_of_few full
    by_cases empty : inode.iDin2.diSize = 0
    · have none : fragsOf fs 0 = 0 := by
        have := @fragsOf_mul fs 0
        simpa using this
      unfold ufsInodeIoSize
      rw [if_neg full, if_pos empty, empty]
      simp [asInt32, none]
    · rw [if_neg empty]
      exact ioSize_few full (by omega) (by omega)

/-- The length of a load. -/
theorem ioSize_load {inode : Inode} {pos : Nat} (inside : pos < inode.iSize)
    (small : fs.fsBsize * ndaddr ≤ inode.iDin2.diSize ∨ pos < 2 ^ 31) (bound : inode.iSize < 2 ^ 63) :
    ufsInodeIoSize fs inode (asInt32 pos) false
      = loadLenAt fs inode.iDin2.diSize inode.iSize pos := by
  unfold ufsInodeIoSize loadLenAt
  by_cases full : fs.fsBsize * ndaddr ≤ inode.iDin2.diSize
  · rw [if_pos full, if_pos full]
  · have fsize := fs.fsize_le_bsize
    have bsize := fs.bsize_le
    have rest : asU64 ((inode.iSize : Int) - asInt32 pos) = inode.iSize - pos := by
      rw [asInt32_of_lt (small.resolve_left full), ← Int.natCast_sub inside.le]
      exact asU64_of_lt (by omega)
    rw [if_neg full, if_neg full, if_neg (by simp), rest, fs.fragroundup_eq]
    simp only [Superblock.fsQfmask]
    rw [Nat.mod_eq_of_lt (by omega)]

/-! ## Bytes of the file after a flush -/

section Bytes

variable {ino : Nat} {exact : Prop} {b k o w : Nat} {buf : Buf} {s s' : State} {v v' : Vnode}
  {own own' : Nat → Nat}

theorem byte_eq (s : State) (v : Vnode) (p : Nat) :
    s.byte fs v p
      = blockByte fs s.data (fileAddr fs s v (.data (p / fs.fsBsize))) (p % fs.fsBsize) := rfl

/-- Bytes that the flushed block does not have stay. -/
theorem Flushed.byte_other (flushed : Flushed fs ino exact b k o buf s v own s' v' own' w) {p : Nat}
    (other : p / fs.fsBsize ≠ b) (inside : fileAddr fs s v (.data (p / fs.fsBsize)) ≠ 0 →
      p % fs.fsBsize < own (p / fs.fsBsize) * fs.fsFsize) :
    s'.byte fs v' p = s.byte fs v p := by
  rw [byte_eq, byte_eq, flushed.addr, if_neg other]
  unfold blockByte
  split
  · rfl
  · next there =>
    refine agree_byte ((flushed.kept _ other).mono fun x hx => ?_) (inside there)
    exact ⟨there, hx⟩

theorem Flushed.byte_wrote (flushed : Flushed fs ino exact b k o buf s v own s' v' own' w) {p : Nat}
    (here : p / fs.fsBsize = b) (inside : p % fs.fsBsize < k * fs.fsFsize) :
    s'.byte fs v' p = buf (p % fs.fsBsize) := by
  rw [byte_eq, flushed.addr, if_pos here, blockByte, if_neg flushed.there]
  exact flushed.wrote _ inside

/-- Past the fragments that were written, a block that kept its extent keeps its bytes. -/
theorem Flushed.byte_stays (flushed : Flushed fs ino exact b k o buf s v own s' v' own' w) {p : Nat}
    (here : p / fs.fsBsize = b) (past : k * fs.fsFsize ≤ p % fs.fsBsize)
    (mapped : fileAddr fs s v (.data b) ≠ 0) (stay : k ≤ o) :
    s'.byte fs v' p = s.byte fs v p := by
  rcases flushed.place with ⟨-, -, same, -, agree⟩ | ⟨moved, -⟩
  · rw [byte_eq, byte_eq, flushed.addr, if_pos here, here, ← same, blockByte, blockByte,
      if_neg flushed.there, if_neg flushed.there]
    have far : k ≤ p % fs.fsBsize / fs.fsFsize := (Nat.le_div_iff_mul_le fs.fsize_pos).mpr past
    exact agree_at agree fun inside => by have := inside.2; omega
  · rcases moved with hole | grow
    · exact absurd hole mapped
    · omega

end Bytes

end Lemmas

/-! ## Where a write stands -/

/-- A write of `count` bytes of `src` at `offset`, to a file of `size` bytes with contents `old`. -/
structure Write where
  size : Nat
  offset : Nat
  count : Nat
  src : Buf
  old : Nat → Byte

namespace Write

variable (fs : Superblock) (W : Write)

/-- Where the write ends. -/
def stop : Nat := W.offset + W.count

def newSize : Nat := max W.size W.stop

/-- The block in which the write starts. -/
def first : Nat := W.offset / fs.fsBsize

/-- Byte `p` is written. -/
def Covers (p : Nat) : Prop := W.offset ≤ p ∧ p < W.stop

instance (p : Nat) : Decidable (W.Covers p) := inferInstanceAs (Decidable (_ ∧ _))

/-- What byte `p` should be after the write. -/
def target (p : Nat) : Byte := if W.Covers p then W.src (p - W.offset) else W.old p

/-- The size in the dinode when block `m` is loaded and flushed. -/
def dsize (m : Nat) : Nat := if m = W.first fs then W.size else W.newSize

/-- The position when block `m` is loaded. -/
def enterPos (m : Nat) : Nat := max W.offset (m * fs.fsBsize)

/-- The position when block `m` is flushed. -/
def flushPos (m : Nat) : Nat := min W.stop ((m + 1) * fs.fsBsize)

/-- The fragments that are written for block `m`. -/
def frags (m : Nat) : Nat := ioFrags fs (W.dsize fs m) (W.flushPos fs m)

/-- The fragments that block `m` is taken to have. -/
def was (m : Nat) : Nat := oldFrags fs (W.dsize fs m)

/-- The block gets a new extent. -/
def Replaced (addr : Nat → Nat) (m : Nat) : Prop := addr m = 0 ∨ W.was fs m < W.frags fs m

instance (addr : Nat → Nat) (m : Nat) : Decidable (W.Replaced fs addr m) :=
  inferInstanceAs (Decidable (_ ∨ _))

/-- What block `b` owns when the blocks from the first one up to `m` were flushed. -/
def ownAt (addr own : Nat → Nat) (m b : Nat) : Nat :=
  if (W.first fs ≤ b ∧ b < m) ∧ W.Replaced fs addr b then W.frags fs b else own b

/-- A flush touches fragments of its own block only, in every block of the write. -/
structure Fits (addr own : Nat → Nat) : Prop where
  range : W.stop ≤ fs.maxBlocks * fs.fsBsize
  bound : W.newSize < 2 ^ 63
  small : fs.fsBsize * ndaddr ≤ W.size ∨ W.flushPos fs (W.first fs) < 2 ^ 31
  block : ∀ m, W.first fs ≤ m → m * fs.fsBsize < W.stop →
    FlushFits own m (W.frags fs m) (W.was fs m) (addr m)

/-- The buffer of the first block has what the write leaves alone of it, and a new extent
    always has room for the bytes of the old one. -/
structure Keeps (addr own : Nat → Nat) (file : UfsFile) : Prop where
  cover : ∀ p < W.size, addr (p / fs.fsBsize) ≠ 0 →
    p % fs.fsBsize < own (p / fs.fsBsize) * fs.fsFsize
  room : ∀ m, W.first fs ≤ m → m * fs.fsBsize < W.stop → W.Replaced fs addr m →
    ∀ p < W.size, p / fs.fsBsize = m → p % fs.fsBsize < W.frags fs m * fs.fsFsize
  load : ∀ p < W.size, p / fs.fsBsize = W.first fs → ¬ W.Covers p →
    p % fs.fsBsize < W.frags fs (W.first fs) * fs.fsFsize →
    if file.bufValid = true ∧ file.blockno = W.first fs then file.buf (p % fs.fsBsize) = W.old p
    else p % fs.fsBsize < loadLenAt fs W.size W.newSize W.offset

end Write

/-- Every block of the write before block `m` was flushed. -/
structure Progress (fs : Superblock) (ino : Nat) (exact sound : Prop) (W : Write) (s₀ : State)
    (v₀ : Vnode) (own₀ : Nat → Nat) (m : Nat) (s : State) (v : Vnode) (own : Nat → Nat) : Prop where
  inv : FileInv fs s ino v own
  cache : InoCache fs s
  moved : Moved fs ino exact s₀ v₀ own₀ s v own
  isize : v.inode.iSize = W.newSize
  dsize : v.inode.iDin2.diSize = W.dsize fs m
  dinode : W.first fs < m → s.dinodes ino = v.inode.iDin2
  addr : ∀ b, b < W.first fs ∨ m ≤ b → fileAddr fs s v (.data b) = fileAddr fs s₀ v₀ (.data b)
  mapped : ∀ b, W.first fs ≤ b → b < m → fileAddr fs s v (.data b) ≠ 0
  reach : ∀ b, W.first fs ≤ b → b < m → b * fs.fsBsize < W.stop
  widths : own = W.ownAt fs (fun b => fileAddr fs s₀ v₀ (.data b)) own₀ m
  past : sound → ∀ p, p < W.size ∨ W.Covers p → p / fs.fsBsize < m → s.byte fs v p = W.target p
  rest : sound → ∀ p < W.size, m ≤ p / fs.fsBsize → s.byte fs v p = W.old p

/-- Block `m` is in the buffer, patched and not yet flushed. -/
structure Dirty (fs : Superblock) (ino : Nat) (sound : Prop) (W : Write) (m : Nat) (s : State)
    (v : Vnode) (file : UfsFile) : Prop where
  ino : file.ino = ino
  writable : file.fileWrite = true
  valid : file.bufValid = true
  dirty : file.bufDirty = true
  block : file.blockno = m
  phys : file.physblock = fileAddr fs s v (.data m)
  pos : file.pos = W.flushPos fs m
  low : W.first fs ≤ m
  high : m * fs.fsBsize < W.stop
  bytes : sound → ∀ p, p < W.size ∨ W.Covers p → p / fs.fsBsize = m →
    p % fs.fsBsize < W.frags fs m * fs.fsFsize → file.buf (p % fs.fsBsize) = W.target p

section Loop

variable {env : Env} {fs : Superblock} {ino : Nat} {exact sound : Prop} {W : Write}

theorem Write.first_le {p : Nat} (covers : W.Covers p) : W.first fs ≤ p / fs.fsBsize :=
  Nat.div_le_div_right covers.1

/-- The fragments that are written for a block cover the bytes that are written. -/
theorem Write.covers_frags {p : Nat} (covers : W.Covers p) :
    p % fs.fsBsize < W.frags fs (p / fs.fsBsize) * fs.fsFsize := by
  set m := p / fs.fsBsize with hm
  have place : m * fs.fsBsize + p % fs.fsBsize = p := Nat.div_add_mod' p fs.fsBsize
  have low := Nat.mod_lt p fs.bsize_pos
  have next : (m + 1) * fs.fsBsize = m * fs.fsBsize + fs.fsBsize := Nat.succ_mul m _
  have inside : p < W.flushPos fs m := by
    have := covers.2
    unfold Write.flushPos
    omega
  have room := le_ioFrags (m := m) (x := W.flushPos fs m) (W.dsize fs m) (by omega)
    (Nat.min_le_right _ _)
  change _ ≤ _ + W.frags fs m * fs.fsFsize at room
  omega

theorem Write.dsize_later {m : Nat} (later : W.first fs < m) : W.dsize fs m = W.newSize :=
  if_neg (by omega)

theorem Write.flushPos_pos {m : Nat} (high : m * fs.fsBsize < W.stop) :
    m * fs.fsBsize < W.flushPos fs m := by
  have := fs.bsize_pos
  have next : (m + 1) * fs.fsBsize = m * fs.fsBsize + fs.fsBsize := Nat.succ_mul m _
  unfold Write.flushPos
  omega

/-- The position of a flush fits an `int` where that matters. -/
theorem Write.Fits.smallAt {addr own : Nat → Nat} (fits : W.Fits fs addr own) {m : Nat}
    (low : W.first fs ≤ m) :
    fs.fsBsize * ndaddr ≤ W.dsize fs m ∨ W.flushPos fs m < 2 ^ 31 := by
  by_cases here : m = W.first fs
  · rw [here, Write.dsize, if_pos rfl]
    exact fits.small
  · rw [Write.dsize_later (by omega)]
    by_cases full : fs.fsBsize * ndaddr ≤ W.newSize
    · exact .inl full
    · have := fs.bsize_le
      have : W.stop ≤ W.newSize := le_max_right _ _
      unfold ndaddr at full
      unfold Write.flushPos
      omega

variable {s₀ s s' : State} {v₀ v v' : Vnode} {own₀ own own' : Nat → Nat}

/-- The bytes of the file lie in what its blocks own. -/
theorem Progress.covered {m p : Nat} {file : UfsFile}
    (prog : Progress fs ino exact sound W s₀ v₀ own₀ m s v own)
    (fits : W.Fits fs (fun b => fileAddr fs s₀ v₀ (.data b)) own₀)
    (keeps : W.Keeps fs (fun b => fileAddr fs s₀ v₀ (.data b)) own₀ file)
    (inside : p < W.size ∨ W.Covers p ∧ p / fs.fsBsize < m)
    (there : fileAddr fs s v (.data (p / fs.fsBsize)) ≠ 0) :
    p % fs.fsBsize < own (p / fs.fsBsize) * fs.fsFsize := by
  set b := p / fs.fsBsize with hb
  have start : b * fs.fsBsize ≤ p := Nat.div_mul_le_self p fs.fsBsize
  rw [prog.widths, Write.ownAt]
  by_cases done : W.first fs ≤ b ∧ b < m
  · by_cases replaced : W.Replaced fs (fun b => fileAddr fs s₀ v₀ (.data b)) b
    · rw [if_pos ⟨done, replaced⟩]
      rcases inside with inside | ⟨covers, -⟩
      · exact keeps.room b done.1 (prog.reach b done.1 done.2) replaced p inside hb.symm
      · exact Write.covers_frags covers
    · rw [if_neg (fun both => replaced both.2)]
      obtain ⟨old, stay⟩ := not_or.mp replaced
      rcases inside with inside | ⟨covers, -⟩
      · exact keeps.cover p inside old
      · have fit := (fits.block b done.1 (prog.reach b done.1 done.2)).stay old (not_lt.mp stay)
        exact (Write.covers_frags covers).trans_le (Nat.mul_le_mul_right _ fit)
  · rw [if_neg (fun both => done both.1)]
    have same := prog.addr b (by omega)
    rcases inside with inside | ⟨covers, less⟩
    · exact keeps.cover p inside (by rw [← hb, ← same]; exact there)
    · have low : W.first fs ≤ b := Write.first_le covers
      omega

/-- Flushing block `m`. -/
theorem flush_progress (io : env.IoOk) (ne : ino ≠ 0) {m : Nat} {file₀ file file' : UfsFile}
    (fits : W.Fits fs (fun b => fileAddr fs s₀ v₀ (.data b)) own₀)
    (keeps : sound → W.Keeps fs (fun b => fileAddr fs s₀ v₀ (.data b)) own₀ file₀)
    (whole : exact → ∀ m, W.first fs ≤ m → m * fs.fsBsize < W.stop →
      fileAddr fs s₀ v₀ (.data m) ≠ 0 → W.was fs m < W.frags fs m → W.was fs m = own₀ m)
    (prog : Progress fs ino exact sound W s₀ v₀ own₀ m s v own)
    (dirty : Dirty fs ino sound W m s v file)
    (run : ufsFileFlush env fs file s = .done (0, file') s') :
    ∃ v' own', Progress fs ino exact sound W s₀ v₀ own₀ (m + 1) s' v' own' ∧
      file' = { file with
        physblock := fileAddr fs s' v' (.data m)
        bufDirty := false } := by
  have pos := Write.flushPos_pos dirty.high
  have size : ufsInodeIoSize fs v.inode (asInt32 file.pos) true
      = (W.frags fs m * fs.fsFsize : Nat) := by
    rw [dirty.pos, ioSize_write (by omega) (by rw [prog.dsize]; exact fits.smallAt dirty.low),
      prog.dsize]
    rfl
  have osize : ufsInodeIoSize fs v.inode (asInt32 v.inode.iDin2.diSize) true
      = (W.was fs m * fs.fsFsize : Nat) := by
    rw [ioSize_old, prog.dsize]
    rfl
  have here : fileAddr fs s v (.data m) = fileAddr fs s₀ v₀ (.data m) := prog.addr m (.inr le_rfl)
  have width : own m = own₀ m := by
    rw [prog.widths, Write.ownAt, if_neg (by omega)]
  have fit : FlushFits own file.blockno (W.frags fs m) (W.was fs m) file.physblock := by
    obtain ⟨grow, stay⟩ := fits.block m dirty.low dirty.high
    rw [dirty.phys, here, dirty.block]
    exact ⟨width ▸ grow, width ▸ stay⟩
  obtain ⟨w, v', own', rfl, flushed⟩ := ufsFileFlush_spec (k := W.frags fs m) io prog.cache prog.inv ne
    dirty.ino dirty.valid dirty.dirty (by rw [dirty.phys, dirty.block]) (ioFrags_pos _ _)
    (ioFrags_le _ _) size osize fit (fun ok mapped grow => by
      rw [dirty.block, width]
      rw [dirty.phys, here] at mapped
      exact whole ok m dirty.low dirty.high mapped grow) run
  rw [dirty.block] at flushed
  have addrW : fileAddr fs s' v' (.data m) = w := by rw [flushed.addr, if_pos rfl]
  refine ⟨v', own', ⟨flushed.inv, flushed.cache, prog.moved.trans flushed.moved, ?_, ?_,
    fun _ => flushed.dinode, fun b hb => ?_,
    fun b low less => ?_, fun b low less => ?_, ?_, fun ok p inside less => ?_,
    fun ok p inside more => ?_⟩, by rw [addrW]⟩
  · obtain ⟨db, ib, rfl⟩ := flushed.inode
    exact prog.isize
  · rw [Write.dsize_later (by have := dirty.low; omega)]
    obtain ⟨db, ib, rfl⟩ := flushed.inode
    exact prog.isize
  · have other : b ≠ m := by have := dirty.low; omega
    rw [flushed.addr, if_neg other]
    exact prog.addr b (by omega)
  · rw [flushed.addr]
    split
    · exact flushed.there
    · exact prog.mapped b low (by omega)
  · by_cases last : b = m
    · rw [last]; exact dirty.high
    · exact prog.reach b low (by omega)
  · funext b
    by_cases last : b = m
    · subst last
      rw [Write.ownAt]
      rcases flushed.place with ⟨mapped, less, -, same, -⟩ | ⟨moved, same⟩
      · have stays : ¬ W.Replaced fs (fun b => fileAddr fs s₀ v₀ (.data b)) b := by
          rintro (hole | grow)
          · exact mapped (here.trans hole)
          · omega
        rw [if_neg (fun both => stays both.2), same, width]
      · have replaced : W.Replaced fs (fun b => fileAddr fs s₀ v₀ (.data b)) b :=
          moved.imp here.symm.trans id
        rw [if_pos ⟨⟨dirty.low, by omega⟩, replaced⟩, same, Function.update_self]
    · have span : (W.first fs ≤ b ∧ b < m + 1) ↔ (W.first fs ≤ b ∧ b < m) := by omega
      rw [flushed.widths b last, prog.widths, Write.ownAt, Write.ownAt]
      simp only [span]
  · -- a byte of the block just flushed comes from the buffer, or lies past what was written
    by_cases last : p / fs.fsBsize = m
    · by_cases low : p % fs.fsBsize < W.frags fs m * fs.fsFsize
      · rw [flushed.byte_wrote last low]
        exact dirty.bytes ok p inside last low
      · have uncovered : ¬ W.Covers p := fun covers => by
          have room := @Write.covers_frags fs W p covers
          rw [last] at room
          exact low room
        have inside : p < W.size := inside.resolve_right uncovered
        have stays : ¬ W.Replaced fs (fun b => fileAddr fs s₀ v₀ (.data b)) m := fun replaced =>
          low ((keeps ok).room m dirty.low dirty.high replaced p inside last)
        obtain ⟨mapped, less⟩ := not_or.mp stays
        rw [flushed.byte_stays last (not_lt.mp low) (here ▸ mapped) (not_lt.mp less),
          prog.rest ok p inside last.ge, Write.target, if_neg uncovered]
    · have less : p / fs.fsBsize < m := by omega
      rw [flushed.byte_other last (prog.covered fits (keeps ok)
        (inside.imp id fun covers => ⟨covers, less⟩))]
      exact prog.past ok p inside less
  · rw [flushed.byte_other (by omega) (prog.covered fits (keeps ok) (.inl inside))]
    exact prog.rest ok p inside (by omega)

/-! ## Bringing a block into the buffer -/

/-- `load_buffer` for a block of the file; an error does not occur while transfers succeed. -/
theorem loadBuffer_file (io : env.IoOk) (inv : FileInv fs s ino v own) {file file' : UfsFile} {rc : Int}
    {dontfill : Bool} (same : file.ino = ino) (invalid : file.bufValid = false)
    (range : file.blockno < fs.maxBlocks) (inside : file.pos < v.inode.iSize)
    (small : fs.fsBsize * ndaddr ≤ v.inode.iDin2.diSize ∨ file.pos < 2 ^ 31)
    (bound : v.inode.iSize < 2 ^ 63)
    (run : loadBuffer env fs file dontfill s = .done (rc, file') s') :
    rc = 0 ∧ ∃ t, s' = s.atTick t ∧ file' = { file with
      physblock := fileAddr fs s v (.data file.blockno)
      bufValid := true
      buf := if dontfill then file.buf else
        fill file.buf (blockByte fs s.data (fileAddr fs s v (.data file.blockno)))
          (loadLenAt fs v.inode.iDin2.diSize v.inode.iSize file.pos) } := by
  subst same
  obtain ⟨t, bmap⟩ := ufsBmap_ok io inv.there range (.inl inv.zero)
  change ufsBmap env fs file.ino file.blockno s = if fileAddr fs s v (.data file.blockno) = poisonBlock
    then .halt (s.atTick t) else .done (0, fileAddr fs s v (.data file.blockno)) (s.atTick t) at bmap
  unfold loadBuffer at run
  rw [if_neg (by simp [invalid])] at run
  by_cases poison : fileAddr fs s v (.data file.blockno) = poisonBlock
  · rw [if_pos poison] at bmap
    rw [Prog.bind_apply, bmap] at run
    cases run
  · rw [if_neg poison] at bmap
    rw [Prog.bind_of_done bmap] at run
    simp only at run
    have thereT : (s.atTick t).vnodes file.ino = some v := inv.there
    rw [Prog.bind_of_done (vnode2inode_ok thereT), ioSize_load inside small bound,
      if_neg (by simp)] at run
    cases dontfill with
    | true =>
        obtain ⟨result, rfl⟩ := Prog.pure_eq_done.mp run
        cases result
        exact ⟨rfl, t, rfl, rfl⟩
    | false =>
        have len : 0 < loadLenAt fs v.inode.iDin2.diSize v.inode.iSize file.pos := by
          have := @le_loadLenAt fs v.inode.iDin2.diSize v.inode.iSize file.pos
          have := fs.bsize_pos
          omega
        obtain ⟨u, filled⟩ := fillBuffer_ok io { file with
          physblock := fileAddr fs s v (.data file.blockno) } len (s.atTick t)
        rw [if_neg (by simp), Prog.bind_of_done filled] at run
        simp only at run
        rw [if_neg (by simp)] at run
        obtain ⟨result, rfl⟩ := Prog.pure_eq_done.mp run
        cases result
        exact ⟨rfl, u, rfl, rfl⟩

theorem Progress.atTick {m : Nat} (prog : Progress fs ino exact sound W s₀ v₀ own₀ m s v own)
    (t : Nat) : Progress fs ino exact sound W s₀ v₀ own₀ m (s.atTick t) v own :=
  ⟨prog.inv.atTick t, ⟨prog.cache.aligned, prog.cache.same⟩,
    ⟨prog.moved.dinodes, prog.moved.vnodes, prog.moved.files, prog.moved.ronly, prog.moved.others,
      prog.moved.bytes, prog.moved.gained, prog.moved.lost⟩, prog.isize, prog.dsize, prog.dinode, prog.addr,
    prog.mapped, prog.reach, prog.widths, prog.past, prog.rest⟩

/-- A block is entered inside of it. -/
theorem Write.enterPos_block {m : Nat} (low : W.first fs ≤ m) :
    m * fs.fsBsize ≤ W.enterPos fs m ∧ W.enterPos fs m < (m + 1) * fs.fsBsize := by
  have bpos := fs.bsize_pos
  have start : W.offset < (W.first fs + 1) * fs.fsBsize := by
    rw [Nat.mul_comm]
    exact Nat.lt_mul_div_succ W.offset bpos
  have mono : (W.first fs + 1) * fs.fsBsize ≤ (m + 1) * fs.fsBsize :=
    Nat.mul_le_mul_right _ (by omega)
  have next : (m + 1) * fs.fsBsize = m * fs.fsBsize + fs.fsBsize := Nat.succ_mul m _
  unfold Write.enterPos
  omega

theorem Write.enterPos_first : W.enterPos fs (W.first fs) = W.offset :=
  Nat.max_eq_left (Nat.div_mul_le_self _ _)

theorem Write.enterPos_later {m : Nat} (later : W.first fs < m) :
    W.enterPos fs m = m * fs.fsBsize := by
  have start : W.offset < (W.first fs + 1) * fs.fsBsize := by
    rw [Nat.mul_comm]
    exact Nat.lt_mul_div_succ W.offset fs.bsize_pos
  have mono : (W.first fs + 1) * fs.fsBsize ≤ m * fs.fsBsize := Nat.mul_le_mul_right _ later
  exact Nat.max_eq_right (by omega)

/-- The bytes that one turn writes. -/
def Write.turn (fs : Superblock) (W : Write) (m : Nat) : Nat :=
  W.flushPos fs m - W.enterPos fs m

/-- What the loop computes from the position. -/
theorem Write.turn_eq {m : Nat} (low : W.first fs ≤ m)
    (begun : W.enterPos fs m < W.stop) :
    min (fs.fsBsize - W.enterPos fs m % fs.fsBsize) (W.stop - W.enterPos fs m) = W.turn fs m ∧
      W.enterPos fs m = m * fs.fsBsize + W.enterPos fs m % fs.fsBsize ∧
      W.enterPos fs m + W.turn fs m = W.flushPos fs m := by
  obtain ⟨start, stop⟩ := @Write.enterPos_block fs W m low
  have next : (m + 1) * fs.fsBsize = m * fs.fsBsize + fs.fsBsize := Nat.succ_mul m _
  have block : W.enterPos fs m / fs.fsBsize = m := Nat.div_eq_of_lt_le start stop
  have place := Nat.div_add_mod' (W.enterPos fs m) fs.fsBsize
  rw [block] at place
  unfold Write.turn Write.flushPos
  omega

/-- Where the handle stands once the buffer was synchronised with block `m`. The buffer is still
    valid only in the first block, with what the handle brought along. -/
structure Entering (fs : Superblock) (ino : Nat) (W : Write) (file₀ : UfsFile) (m : Nat) (s : State)
    (v : Vnode) (file : UfsFile) : Prop where
  ino : file.ino = ino
  writable : file.fileWrite = true
  block : file.blockno = m
  pos : file.pos = W.enterPos fs m
  low : W.first fs ≤ m
  begun : W.enterPos fs m < W.stop
  held : file.bufValid = true → m = W.first fs ∧ file.buf = file₀.buf ∧ file₀.bufValid = true ∧
    file₀.blockno = m ∧ file.physblock = fileAddr fs s v (.data m)
  fresh : file.bufValid = false → m = W.first fs → ¬ (file₀.bufValid = true ∧ file₀.blockno = m)

/-- The handle after the bytes for block `m` were copied into the buffer. -/
def patched (fs : Superblock) (W : Write) (m : Nat) (file : UfsFile) : UfsFile :=
  { file with
    bufDirty := true
    buf := patch file.buf W.src (W.enterPos fs m % fs.fsBsize) (W.enterPos fs m - W.offset)
      (W.turn fs m)
    pos := W.enterPos fs m + W.turn fs m }

/-- The patched buffer shows the write where the write goes, and what was there elsewhere. -/
theorem patched_byte {m p : Nat} {file : UfsFile} (low : W.first fs ≤ m)
    (begun : W.enterPos fs m < W.stop) (here : p / fs.fsBsize = m) :
    (patched fs W m file).buf (p % fs.fsBsize)
      = if W.Covers p then W.src (p - W.offset) else file.buf (p % fs.fsBsize) := by
  obtain ⟨-, place, total⟩ := Write.turn_eq low begun
  have split : m * fs.fsBsize + p % fs.fsBsize = p := here ▸ Nat.div_add_mod' p fs.fsBsize
  have small := Nat.mod_lt p fs.bsize_pos
  have next : (m + 1) * fs.fsBsize = m * fs.fsBsize + fs.fsBsize := Nat.succ_mul m _
  have before : W.offset ≤ W.enterPos fs m := Nat.le_max_left _ _
  have span : (W.enterPos fs m % fs.fsBsize ≤ p % fs.fsBsize ∧
      p % fs.fsBsize < W.enterPos fs m % fs.fsBsize + W.turn fs m) ↔ W.Covers p := by
    unfold Write.Covers
    unfold Write.flushPos at total
    unfold Write.enterPos at *
    omega
  unfold patched patch
  simp only [span]
  split
  · next covers =>
    have := span.mpr covers
    congr 1
    omega
  · rfl

/-- Loading and patching block `m`. -/
theorem load_progress (io : env.IoOk) {m : Nat} {file₀ file file' : UfsFile} {rc : Int}
    (fits : W.Fits fs (fun b => fileAddr fs s₀ v₀ (.data b)) own₀)
    (keeps : sound → W.Keeps fs (fun b => fileAddr fs s₀ v₀ (.data b)) own₀ file₀)
    (prog : Progress fs ino exact sound W s₀ v₀ own₀ m s v own)
    (enter : Entering fs ino W file₀ m s v file)
    (run : loadBuffer env fs file (W.turn fs m == fs.fsBsize) s = .done (rc, file') s') :
    rc = 0 ∧ Progress fs ino exact sound W s₀ v₀ own₀ m s' v own ∧
      Dirty fs ino sound W m s' v (patched fs W m file') ∧ file'.pos = W.enterPos fs m ∧
      file'.fileWrite = true := by
  have high : m * fs.fsBsize < W.stop :=
    (Write.enterPos_block enter.low).1.trans_lt enter.begun
  obtain ⟨-, place, total⟩ := Write.turn_eq enter.low enter.begun
  cases valid : file.bufValid with
  | true =>
      unfold loadBuffer at run
      rw [if_pos valid] at run
      obtain ⟨result, rfl⟩ := Prog.pure_eq_done.mp run
      cases result
      obtain ⟨first, bytes, was, block, phys⟩ := enter.held valid
      refine ⟨rfl, prog, ⟨enter.ino, enter.writable, valid, rfl, enter.block, phys, total, enter.low, high,
        fun ok p inside here less => ?_⟩, enter.pos, enter.writable⟩
      rw [patched_byte enter.low enter.begun here, Write.target]
      split
      · rfl
      · next uncovered =>
        have load := (keeps ok).load p (inside.resolve_right uncovered) (here.trans first) uncovered
          (first ▸ less)
        rw [if_pos ⟨was, block.trans first⟩] at load
        rw [bytes, load]
  | false =>
      have inside : file.pos < v.inode.iSize := by
        rw [prog.isize, enter.pos]
        exact enter.begun.trans_le (Nat.le_max_right _ _)
      have range : file.blockno < fs.maxBlocks := by
        rw [enter.block]
        exact Nat.lt_of_mul_lt_mul_right (high.trans_le fits.range)
      have small : fs.fsBsize * ndaddr ≤ v.inode.iDin2.diSize ∨ file.pos < 2 ^ 31 := by
        rw [prog.dsize, enter.pos]
        exact (fits.smallAt enter.low).imp id fun less => by omega
      obtain ⟨rfl, t, rfl, rfl⟩ := loadBuffer_file io prog.inv enter.ino valid range inside small
        (prog.isize ▸ fits.bound) run
      refine ⟨rfl, prog.atTick t, ⟨enter.ino, enter.writable, rfl, rfl, enter.block, ?_, total,
        enter.low, high, fun ok p inside here less => ?_⟩, enter.pos, enter.writable⟩
      · simp only [patched, enter.block]
        rfl
      rw [patched_byte enter.low enter.begun here, Write.target]
      split
      · rfl
      · next uncovered =>
        have inside : p < W.size := inside.resolve_right uncovered
        have split : m * fs.fsBsize + p % fs.fsBsize = p := here ▸ Nat.div_add_mod' p fs.fsBsize
        have below := Nat.mod_lt p fs.bsize_pos
        -- a turn that writes the whole block covers every byte of it
        have partly : ¬ W.turn fs m = fs.fsBsize := fun whole => uncovered <| by
          have next : (m + 1) * fs.fsBsize = m * fs.fsBsize + fs.fsBsize := Nat.succ_mul m _
          have before : W.offset ≤ W.enterPos fs m := Nat.le_max_left _ _
          unfold Write.Covers
          unfold Write.flushPos at total
          omega
        have loaded : p % fs.fsBsize
            < loadLenAt fs v.inode.iDin2.diSize v.inode.iSize file.pos := by
          rw [prog.dsize, prog.isize, enter.pos]
          by_cases first : m = W.first fs
          · have load := (keeps ok).load p inside (here.trans first) uncovered (first ▸ less)
            rw [if_neg (first ▸ enter.fresh valid first)] at load
            rw [first, Write.enterPos_first, Write.dsize, if_pos rfl]
            exact load
          · have later : W.first fs < m := by have := enter.low; omega
            have covered := @le_loadLenAt fs (W.dsize fs m) W.newSize (W.enterPos fs m)
            rw [Write.enterPos_later later] at covered ⊢
            have : W.size ≤ W.newSize := Nat.le_max_left _ _
            omega
        simp only [beq_iff_eq, partly, if_false]
        rw [fill_inside loaded, enter.block, ← here]
        exact prog.rest ok p inside here.ge

/-- The block number of a position in block `m`. -/
private theorem block_number {m pos : Nat} (range : m < fs.maxBlocks) (low : m * fs.fsBsize ≤ pos)
    (high : pos < (m + 1) * fs.fsBsize) : fs.lblkno pos % 2 ^ 32 = m := by
  have small : m < 2 ^ 32 := range.trans (maxBlocks_lt.trans (by norm_num))
  rw [fs.lblkno_eq, Nat.div_eq_of_lt_le low high, Nat.mod_eq_of_lt small]

/-- A handle that a write may start from: clean, and with the right block behind a valid
    buffer. -/
structure Idle (fs : Superblock) (ino : Nat) (s : State) (v : Vnode) (file : UfsFile) : Prop where
  ino : file.ino = ino
  writable : file.fileWrite = true
  clean : file.bufDirty = false
  phys : file.bufValid = true → file.physblock = fileAddr fs s v (.data file.blockno)

/-- A clean handle moves to the block in which the write starts. -/
theorem sync_first {file file' : UfsFile} {rc : Int}
    (fits : W.Fits fs (fun b => fileAddr fs s₀ v₀ (.data b)) own₀)
    (there : s.vnodes ino = some v) (idle : Idle fs ino s v file) (some : 0 < W.count)
    (pos : file.pos = W.offset) (run : syncBufferPosition env fs file s = .done (rc, file') s') :
    rc = 0 ∧ s' = s ∧ Entering fs ino W file (W.first fs) s v file' := by
  have begun : W.enterPos fs (W.first fs) < W.stop := by
    rw [Write.enterPos_first]
    unfold Write.stop
    omega
  obtain ⟨low, high⟩ := @Write.enterPos_block fs W (W.first fs) le_rfl
  rw [Write.enterPos_first] at low high
  have range : W.first fs < fs.maxBlocks := by
    refine Nat.lt_of_mul_lt_mul_right (lt_of_le_of_lt low (lt_of_lt_of_le ?_ fits.range))
    rwa [Write.enterPos_first] at begun
  unfold syncBufferPosition at run
  simp only [pos, block_number range low high] at run
  by_cases here : W.first fs = file.blockno
  · rw [if_neg (not_not.mpr here)] at run
    obtain ⟨result, rfl⟩ := Prog.pure_eq_done.mp run
    cases result
    refine ⟨rfl, rfl, idle.ino, idle.writable, here.symm, by rw [pos, Write.enterPos_first], le_rfl, begun,
      fun valid => ⟨rfl, rfl, valid, here.symm, here ▸ idle.phys valid⟩, fun valid _ both => ?_⟩
    rw [valid] at both
    cases both.1
  · rw [if_pos here] at run
    have flush : ufsFileFlush env fs file s = .done (0, file) s := by
      unfold ufsFileFlush
      rw [idle.ino, Prog.bind_of_done (vnode2inode_ok there), if_pos (.inr idle.clean)]
      rfl
    rw [Prog.bind_of_done flush, if_neg (by simp)] at run
    obtain ⟨result, rfl⟩ := Prog.pure_eq_done.mp run
    cases result
    exact ⟨rfl, rfl, idle.ino, idle.writable, rfl, by rw [← pos.symm, Write.enterPos_first], le_rfl, begun,
      fun valid => (by cases valid), fun _ _ both => here both.2.symm⟩

theorem fileWriteLoop_stop (src : Buf) (left : Nat) (file : UfsFile) (count : Nat) (s : State) :
    fileWriteLoop env fs src left file 0 count s = .done (0, count, file) s := by
  cases left <;> rfl

section Turns

variable {file₀ : UfsFile} (io : env.IoOk) (ne : ino ≠ 0)
  (fits : W.Fits fs (fun b => fileAddr fs s₀ v₀ (.data b)) own₀)
  (keeps : sound → W.Keeps fs (fun b => fileAddr fs s₀ v₀ (.data b)) own₀ file₀)
  (whole : exact → ∀ m, W.first fs ≤ m → m * fs.fsBsize < W.stop →
    fileAddr fs s₀ v₀ (.data m) ≠ 0 → W.was fs m < W.frags fs m → W.was fs m = own₀ m)

include io ne fits keeps whole

/-- The position leaves block `m`: the block is flushed and the next one is entered. -/
theorem sync_next {m : Nat} {file file' : UfsFile}
    (prog : Progress fs ino exact sound W s₀ v₀ own₀ m s v own)
    (dirty : Dirty fs ino sound W m s v file) (more : file.pos < W.stop)
    (run : syncBufferPosition env fs file s = .done (0, file') s') :
    ∃ v' own', Progress fs ino exact sound W s₀ v₀ own₀ (m + 1) s' v' own' ∧
      Entering fs ino W file₀ (m + 1) s' v' file' := by
  have next : (m + 1) * fs.fsBsize = m * fs.fsBsize + fs.fsBsize := Nat.succ_mul m _
  have next' : (m + 1 + 1) * fs.fsBsize = (m + 1) * fs.fsBsize + fs.fsBsize := Nat.succ_mul _ _
  have bpos := fs.bsize_pos
  have pos : file.pos = (m + 1) * fs.fsBsize := by
    have := dirty.pos
    unfold Write.flushPos at this
    omega
  have later : W.first fs < m + 1 := by have := dirty.low; omega
  have range : m + 1 < fs.maxBlocks := by
    refine Nat.lt_of_mul_lt_mul_right (lt_of_lt_of_le ?_ fits.range)
    omega
  unfold syncBufferPosition at run
  simp only [pos, block_number range le_rfl (by omega)] at run
  rw [if_pos (by rw [dirty.block]; omega)] at run
  obtain ⟨⟨rc, mid⟩, t, flush, run⟩ := Prog.bind_eq_done.mp run
  simp only at run
  split at run
  · next failed => exact absurd (congrArg Prod.fst (Prog.pure_eq_done.mp run).1) failed
  next ok =>
  obtain rfl : rc = 0 := not_not.mp ok
  obtain ⟨v', own', after, rfl⟩ := flush_progress io ne fits keeps whole prog dirty flush
  obtain ⟨result, rfl⟩ := Prog.pure_eq_done.mp run
  cases result
  refine ⟨v', own', after, dirty.ino, dirty.writable, rfl, ?_, later.le, ?_,
    fun valid => (by cases valid), fun _ first => by omega⟩
  · rw [Write.enterPos_later later]; exact pos
  · rw [Write.enterPos_later later, ← pos]; exact more

/-- The loop of `ufs_file_write`, from any turn on: it stops with the last block patched. -/
theorem loop_progress : ∀ (left : Nat) (file : UfsFile) (s : State) {count' : Nat} {file' : UfsFile}
    {s' : State}, W.offset ≤ file.pos → file.pos < W.stop →
    (∀ file₁ s₁, syncBufferPosition env fs file s = .done (0, file₁) s₁ →
      ∃ m v₁ own₁, Progress fs ino exact sound W s₀ v₀ own₀ m s₁ v₁ own₁ ∧
        Entering fs ino W file₀ m s₁ v₁ file₁ ∧ file₁.pos = file.pos) →
    fileWriteLoop env fs W.src left file (W.stop - file.pos) (file.pos - W.offset) s
      = .done (0, count', file') s' →
    ∃ m v' own', Progress fs ino exact sound W s₀ v₀ own₀ m s' v' own' ∧
      Dirty fs ino sound W m s' v' file' ∧ W.stop ≤ (m + 1) * fs.fsBsize ∧ count' = W.count
  | 0, file, s, count', file', s', low, more, sync, run => by
      rw [fileWriteLoop, if_pos (by omega)] at run
      cases run
  | left + 1, file, s, count', file', s', low, more, sync, run => by
      rw [fileWriteLoop, if_pos (by omega)] at run
      simp only at run
      obtain ⟨⟨rc, file₁⟩, s₁, synced, run⟩ := Prog.bind_eq_done.mp run
      simp only at run
      split at run
      · next failed => exact absurd (congrArg Prod.fst (Prog.pure_eq_done.mp run).1) failed
      next ok =>
      obtain rfl : rc = 0 := not_not.mp ok
      obtain ⟨m, v₁, own₁, prog, enter, same⟩ := sync file₁ s₁ synced
      have pos : file.pos = W.enterPos fs m := same ▸ enter.pos
      obtain ⟨turn, place, total⟩ := Write.turn_eq enter.low enter.begun
      rw [enter.pos, pos, turn] at run
      obtain ⟨⟨rc, file₂⟩, s₂, loaded, run⟩ := Prog.bind_eq_done.mp run
      obtain ⟨rfl, prog₂, dirty, pos₂, -⟩ := load_progress io fits keeps prog enter loaded
      simp only at run
      rw [if_neg (by simp), pos₂] at run
      have before : W.offset ≤ W.enterPos fs m := Nat.le_max_left _ _
      have begun := enter.begun
      change fileWriteLoop env fs W.src left (patched fs W m file₂) _ _ s₂ = _ at run
      have here : (patched fs W m file₂).pos = W.flushPos fs m := total
      rw [show W.stop - W.enterPos fs m - W.turn fs m = W.stop - (patched fs W m file₂).pos by omega,
        show W.enterPos fs m - W.offset + W.turn fs m = (patched fs W m file₂).pos - W.offset by omega]
        at run
      by_cases last : (patched fs W m file₂).pos < W.stop
      · exact loop_progress left _ s₂ (by omega) last (fun file₃ s₃ synced => by
          obtain ⟨v₃, own₃, prog₃, enter₃⟩ :=
            sync_next io ne fits keeps whole prog₂ dirty last synced
          refine ⟨m + 1, v₃, own₃, prog₃, enter₃, ?_⟩
          have later : W.first fs < m + 1 := by have := enter.low; omega
          rw [enter₃.pos, Write.enterPos_later later, here]
          unfold Write.flushPos
          unfold Write.flushPos at here
          omega) run
      · rw [show W.stop - (patched fs W m file₂).pos = 0 by omega, fileWriteLoop_stop] at run
        cases run
        refine ⟨m, v₁, own₁, prog₂, dirty, ?_, ?_⟩
        · unfold Write.flushPos at here
          omega
        · unfold Write.stop at *
          have : W.flushPos fs m ≤ W.offset + W.count := Nat.min_le_left _ _
          omega

end Turns

end Loop

end FuseUfs
