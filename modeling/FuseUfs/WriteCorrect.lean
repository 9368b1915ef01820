import FuseUfs.WriteLoop

/-! # What a write does to the file system

The two halves of the write path, growing the file and the loop over its blocks, are put
together here. A write that succeeds leaves the bytes it does not cover alone, and every
other file with them, when no flush of it takes a block for shorter or longer than it is
(`Write.Fits`, `Write.Keeps`). It keeps the lengths of the blocks in step with the size of
the file when it also never gives a block another length than the size asks for.
-/

namespace FuseUfs

open Lib

/-! ## Error codes are negative -/

section Errors

variable (env : Env) (fs : Superblock)

/-- A result whose error code is 0 or negative. -/
def NoPositive {α : Type} (r : Int × α) : Prop := r.1 ≤ 0

theorem ufsBlockAlloc_code (ino : Nat) (size : Int) :
    Prog.Gives NoPositive (ufsBlockAlloc env fs ino size) := by
  unfold ufsBlockAlloc
  refine .after fun s => .ite (fun _ => .pure ?_) fun _ => .ite (fun _ => .pure ?_) fun _ =>
    .after fun blkno => .ite (fun _ => .pure ?_) fun _ => .pure le_rfl
  · exact (by decide : -einval ≤ 0)
  · exact (by decide : -enospc ≤ 0)
  · exact (by decide : -enospc ≤ 0)

private theorem eio_code : -eio ≤ 0 := by decide

theorem readIndir_code (bno : Nat) : Prog.Gives NoPositive (readIndir env fs bno) :=
  .after fun _ => .ite (fun _ => .pure (by decide : -enomem ≤ 0)) fun _ => .pure le_rfl

theorem writeIndir_code (ind : Indir) (index blockno : Nat) :
    Prog.Gives (· ≤ 0) (writeIndir env fs ind index blockno) :=
  .after fun _ => .ite (fun _ => .pure eio_code) fun _ => .pure le_rfl

theorem singleIndir_code (ino : Nat) : Prog.Gives NoPositive (singleIndir env fs ino) := by
  refine .after fun inode => .ite (fun _ => readIndir_code env fs _) fun _ => ?_
  refine .bind (ufsBlockAlloc_code env fs _ _) fun r code => .ite (fun _ => .pure code) fun _ => ?_
  exact .after fun _ => .pure le_rfl

theorem doubleIndir_code (ino : Nat) : Prog.Gives NoPositive (doubleIndir env fs ino) := by
  refine .after fun inode => .ite (fun _ => readIndir_code env fs _) fun _ => ?_
  refine .bind (ufsBlockAlloc_code env fs _ _) fun r code => .ite (fun _ => .pure code) fun _ => ?_
  refine .after fun _ => .ite (fun _ => .pure eio_code) fun _ => ?_
  exact .after fun _ => .pure le_rfl

theorem middleIndir_code (ino : Nat) (top : Indir) (index : Nat) :
    Prog.Gives NoPositive (middleIndir env fs ino top index) := by
  refine .ite (fun _ => readIndir_code env fs _) fun _ => .after fun inode => ?_
  refine .bind (ufsBlockAlloc_code env fs _ _) fun r code => .ite (fun _ => .pure code) fun _ => ?_
  refine .bind (writeIndir_code env fs _ _ _) fun rc code => .ite (fun _ => .pure code) fun _ => ?_
  exact .after fun _ => .ite (fun _ => .pure eio_code) fun _ => .pure le_rfl

theorem ufsSetBlock_code (ino fbn blockno : Nat) :
    Prog.Gives (· ≤ 0) (ufsSetBlock env fs ino fbn blockno) := by
  refine .ite (fun _ => .after fun _ => .pure le_rfl) fun _ => .ite (fun _ => ?_) fun _ =>
    .ite (fun _ => ?_) fun _ => .halt
  · refine .bind (singleIndir_code env fs ino) fun ind code => .ite (fun _ => .pure code) fun _ => ?_
    exact writeIndir_code env fs _ _ _
  · refine .bind (doubleIndir_code env fs ino) fun top code => .ite (fun _ => .pure code) fun _ => ?_
    refine .bind (middleIndir_code env fs ino top _) fun ind code => .ite (fun _ => .pure code) fun _ => ?_
    exact writeIndir_code env fs _ _ _

theorem ufsWriteInode_code (ino : Nat) : Prog.Gives (· ≤ 0) (ufsWriteInode env fs ino) :=
  .after fun _ => .after fun _ => .after fun _ => .after fun _ => .after fun _ =>
    .ite (fun _ => .pure eio_code) fun _ => .pure le_rfl

theorem flushAlloc_code (file : UfsFile) (size : Int) :
    Prog.Gives NoPositive (flushAlloc env fs file size) := by
  refine .after fun inode => .bind (ufsBlockAlloc_code env fs _ _) fun r code =>
    .ite (fun _ => .pure code) fun _ => ?_
  exact .bind (ufsSetBlock_code env fs _ _ _) fun rc code => .pure code

theorem ufsFileFlush_code (file : UfsFile) : Prog.Gives NoPositive (ufsFileFlush env fs file) := by
  have place : ∀ size osize, Prog.Gives NoPositive (flushPlace env fs file size osize) := by
    intro size osize
    refine .ite (fun _ => flushAlloc_code env fs file size) fun _ => .ite (fun _ => ?_) fun _ =>
      .pure le_rfl
    refine .after fun _ => .bind (ufsSetBlock_code env fs _ _ _) fun rc code =>
      .ite (fun _ => .pure code) fun _ => ?_
    exact flushAlloc_code env fs _ size
  refine .after fun inode => .ite (fun _ => .pure le_rfl) fun _ => .ite (fun _ => .pure le_rfl) fun _ => ?_
  refine .bind (place _ _) fun r code => .ite (fun _ => .pure code) fun _ => ?_
  refine .after fun _ => .ite (fun _ => .pure eio_code) fun _ => .ite (fun _ => ?_) fun _ => .pure le_rfl
  exact .bind (ufsWriteInode_code env fs _) fun rc code => .pure code

theorem syncBufferPosition_code (file : UfsFile) :
    Prog.Gives NoPositive (syncBufferPosition env fs file) := by
  refine .ite (fun _ => ?_) fun _ => .pure le_rfl
  exact .bind (ufsFileFlush_code env fs file) fun r code => .ite (fun _ => .pure code) fun _ =>
    .pure le_rfl

theorem ufsBmap_code (ino fbn : Nat) : Prog.Gives NoPositive (ufsBmap env fs ino fbn) := by
  have follow : ∀ r index, NoPositive r → Prog.Gives NoPositive (followPtr env fs r index) := by
    intro r index code
    refine .ite (fun _ => .pure code) fun _ => .after fun _ => .ite (fun _ => .pure ?_) fun _ =>
      .pure le_rfl
    exact (by decide : (-1 : Int) ≤ 0)
  have start : ∀ b : Nat, NoPositive ((0 : Int), b) := fun _ => le_rfl
  refine .after fun inode => .bind (P := NoPositive) ?_ fun r code => .ite (fun _ => .halt) fun _ =>
    .pure code
  refine .ite (fun _ => .pure le_rfl) fun _ => .ite (fun _ => follow _ _ (start _)) fun _ =>
    .ite (fun _ => ?_) fun _ => ?_
  · exact .bind (follow _ _ (start _)) fun r code => follow _ _ code
  · exact .bind (follow _ _ (start _)) fun r code => .bind (follow _ _ code) fun r code =>
      follow _ _ code

theorem loadBuffer_code (file : UfsFile) (dontfill : Bool) :
    Prog.Gives NoPositive (loadBuffer env fs file dontfill) := by
  have minus : (-1 : Int) ≤ 0 := by decide
  have filled : ∀ file size, Prog.Gives NoPositive (fillBuffer env fs file size) := by
    intro file size
    refine .ite (fun _ => .after fun r => .pure ?_) fun _ => .pure le_rfl
    change (if r.1 = -1 then (-1 : Int) else 0) ≤ 0
    split <;> omega
  refine .ite (fun _ => .pure le_rfl) fun _ => .bind (ufsBmap_code env fs _ _) fun r code =>
    .after fun inode => .ite (fun _ => .pure code) fun _ => .ite (fun _ => .pure le_rfl) fun _ => ?_
  exact .bind (filled _ _) fun r code => .ite (fun _ => .pure code) fun _ => .pure le_rfl

theorem fileWriteLoop_code (src : Buf) : ∀ (left : Nat) (file : UfsFile) (nbytes count : Nat),
    Prog.Gives NoPositive (fileWriteLoop env fs src left file nbytes count)
  | 0, file, nbytes, count => by
      rw [fileWriteLoop]
      exact .ite (fun _ => .halt) fun _ => .pure le_rfl
  | left + 1, file, nbytes, count => by
      rw [fileWriteLoop]
      refine .ite (fun _ => ?_) fun _ => .pure le_rfl
      refine .bind (syncBufferPosition_code env fs file) fun r code => .ite (fun _ => .pure code) fun _ => ?_
      refine .bind (loadBuffer_code env fs _ _) fun r code => .ite (fun _ => .pure code) fun _ => ?_
      exact fileWriteLoop_code src left _ _ _

end Errors

/-! ## The whole write -/

section Whole

variable {env : Env} {fs : Superblock} {ino : Nat} {exact sound : Prop} {W : Write} {s s' : State}
  {v : Vnode} {own : Nat → Nat}

/-- A file as a write finds it: up to date in core, with the contents that `W` names. -/
structure WriteStart (fs : Superblock) (ino : Nat) (W : Write) (s : State) (v : Vnode)
    (own : Nat → Nat) : Prop where
  inv : FileInv fs s ino v own
  cache : InoCache fs s
  ino_ne : ino ≠ 0
  isize : v.inode.iSize = W.size
  dsize : v.inode.iDin2.diSize = W.size
  old : ∀ p < W.size, s.byte fs v p = W.old p

/-- Growing the file changes its size in core and nothing else. -/
theorem doWriteGrow_ok (start : WriteStart fs ino W s v own) {file : UfsFile}
    (idle : Idle fs ino s v file) (bound : W.stop < 2 ^ 64)
    (grow : W.size < W.stop → W.stop < 2 ^ 32) :
    doWriteGrow env fs file W.count W.offset s = .done (0, file)
      (if W.size < W.stop then
        s.setVnode ino { v with inode := { v.inode with iSize := W.newSize } } else s) := by
  obtain ⟨rfl, -, clean, -⟩ := idle
  unfold doWriteGrow
  have stop : (W.offset + W.count) % 2 ^ 64 = W.stop := Nat.mod_eq_of_lt bound
  rw [Prog.bind_of_done (vnode2inode_ok start.inv.there), stop, start.isize]
  split
  · next more =>
    have flush : ufsFileFlush env fs file s = .done (0, file) s := by
      unfold ufsFileFlush
      rw [Prog.bind_of_done (vnode2inode_ok start.inv.there), if_pos (.inr clean)]
      rfl
    have newSize : W.stop % 2 ^ 32 = W.newSize := by
      rw [Nat.mod_eq_of_lt (grow more)]
      exact (Nat.max_eq_right more.le).symm
    unfold ufsFileSetSize ufsFileSetSize.cut
    rw [Prog.bind_of_done flush]
    simp only
    rw [Prog.bind_of_done (vnode2inode_ok start.inv.there), start.isize, if_neg (by omega), Prog.pure_bind_apply, Prog.bind_of_done (updateInode_ok start.inv.there _),
      newSize]
    rfl
  · rfl

/-- Before the loop nothing was flushed. -/
theorem progress_start (start : WriteStart fs ino W s v own) {v₁ : Vnode} {s₁ : State}
    (inv : FileInv fs s₁ ino v₁ own) (cache : InoCache fs s₁) (core : CoreFrame ino s s₁)
    (free : s₁.free fs = s.free fs) (data : s₁.data = s.data)
    (din : v₁.inode.iDin2 = v.inode.iDin2) (isize : v₁.inode.iSize = W.newSize) :
    Progress fs ino exact sound W s v own (W.first fs) s₁ v₁ own := by
  have addr : fileAddr fs s₁ v₁ = fileAddr fs s v := by rw [fileAddr, fileAddr, data, din]
  have byte : ∀ p, s₁.byte fs v₁ p = s.byte fs v p := fun p => by
    rw [byte_eq, byte_eq, addr, data]
  refine ⟨inv, cache, .of_same core addr free ?_, isize, ?_, fun less => by omega, fun b _ => by rw [addr],
    fun b low less => by omega, fun b low less => by omega, ?_, fun _ p inside less => ?_,
    fun _ p inside _ => ?_⟩
  · rw [data]; exact fun _ _ _ _ => rfl
  · rw [din, start.dsize, Write.dsize, if_pos rfl]
  · funext b
    rw [Write.ownAt, if_neg (by omega)]
  · have uncovered : ¬ W.Covers p := fun covers => by
      have : W.first fs ≤ p / fs.fsBsize := Write.first_le covers
      omega
    rw [byte, start.old p (inside.resolve_right uncovered), Write.target, if_neg uncovered]
  · rw [byte, start.old p inside]

/-- The file as the loop finds it. -/
theorem grown_start (exact sound : Prop) (start : WriteStart fs ino W s v own) :
    ∃ s₁ v₁, (if W.size < W.stop then s.setVnode ino { v with
        inode := { v.inode with iSize := W.newSize } } else s) = s₁ ∧
      Progress fs ino exact sound W s v own (W.first fs) s₁ v₁ own ∧
      fileAddr fs s₁ v₁ = fileAddr fs s v := by
  have inv := start.inv
  split
  · set v₁ : Vnode := { v with inode := { v.inode with iSize := W.newSize } } with hv
    have inv₁ : FileInv fs (s.setVnode ino v₁) ino v₁ own :=
      ⟨⟨⟨inv.alloc.group, inv.alloc.cs, inv.alloc.total⟩, inv.boot, inv.zero, inv.device⟩,
        Function.update_self .., inv.number, inv.valid, inv.owned⟩
    exact ⟨_, v₁, rfl, progress_start start inv₁ (start.cache.core (setVnode_core v₁))
      (setVnode_core v₁) rfl rfl rfl rfl, rfl⟩
  · next same =>
    have size : v.inode.iSize = W.newSize := by
      rw [start.isize]
      exact (Nat.max_eq_left (not_lt.mp same)).symm
    exact ⟨s, v, rfl, progress_start start inv start.cache (.refl ino s) rfl rfl rfl size, rfl⟩

/-- The write is done: every block of it was flushed, the last one is still in the buffer. -/
structure Written (fs : Superblock) (ino : Nat) (exact sound : Prop) (W : Write) (s : State)
    (v : Vnode) (own : Nat → Nat) (s' : State) (v' : Vnode) (own' : Nat → Nat) (file' : UfsFile) :
    Prop where
  idle : Idle fs ino s' v' file'
  valid : file'.bufValid = true
  low : W.first fs ≤ file'.blockno
  high : file'.blockno * fs.fsBsize < W.stop
  last : W.stop ≤ (file'.blockno + 1) * fs.fsBsize
  prog : Progress fs ino exact sound W s v own (file'.blockno + 1) s' v' own'
  bytes : sound → ∀ p, p < W.size ∨ W.Covers p → p / fs.fsBsize = file'.blockno →
    p % fs.fsBsize < W.frags fs file'.blockno * fs.fsFsize → file'.buf (p % fs.fsBsize) = W.target p

section Success

variable {file : UfsFile} (io : env.IoOk) (start : WriteStart fs ino W s v own)
  (idle : Idle fs ino s v file) (some : 0 < W.count) (count : W.count < 2 ^ 32)
  (grow : W.size < W.stop → W.stop < 2 ^ 32)
  (fits : W.Fits fs (fun b => fileAddr fs s v (.data b)) own)
  (keeps : sound → W.Keeps fs (fun b => fileAddr fs s v (.data b)) own file)
  (whole : exact → ∀ m, W.first fs ≤ m → m * fs.fsBsize < W.stop →
    fileAddr fs s v (.data m) ≠ 0 → W.was fs m < W.frags fs m → W.was fs m = own m)

include io start idle some count fits keeps whole

/-- The loop of `do_write` takes one turn, which writes everything. -/
theorem doWriteLoop_progress {s₁ s₂ : State} {v₁ : Vnode} {rc : Int} {wr : Nat} {file₂ : UfsFile}
    (prog : Progress fs ino exact sound W s v own (W.first fs) s₁ v₁ own)
    (addr : fileAddr fs s₁ v₁ = fileAddr fs s v)
    (run : doWriteLoop env fs W.src 3 { file with pos := W.offset } W.count 0 0 s₁
      = .done (rc, wr, file₂) s₂) :
    rc < 0 ∨ (rc = 0 ∧ wr = W.count ∧ ∃ m v₂ own₂, Progress fs ino exact sound W s v own m s₂ v₂ own₂ ∧
      Dirty fs ino sound W m s₂ v₂ file₂ ∧ W.stop ≤ (m + 1) * fs.fsBsize) := by
  rw [doWriteLoop, if_pos some] at run
  simp only at run
  obtain ⟨⟨rc', wr', file₃⟩, s₃, write, run⟩ := Prog.bind_eq_done.mp run
  unfold ufsFileWrite at write
  rw [if_neg (by simp [idle.writable]), Nat.mod_eq_of_lt count] at write
  simp only [Nat.zero_add] at write
  have code : rc' ≤ 0 := fileWriteLoop_code env fs _ _ _ _ _ _ _ _ write
  simp only at run
  split at run
  · next failed =>
    obtain ⟨result, rfl⟩ := Prog.pure_eq_done.mp run
    cases result
    exact .inl (lt_of_le_of_ne code failed)
  next ok =>
  obtain rfl : rc' = 0 := not_not.mp ok
  have idle₁ : Idle fs ino s₁ v₁ { file with pos := W.offset } :=
    ⟨idle.ino, idle.writable, idle.clean, addr ▸ idle.phys⟩
  have keeps₁ : sound → W.Keeps fs (fun b => fileAddr fs s v (.data b)) own
      { file with pos := W.offset } := fun ok => ⟨(keeps ok).cover, (keeps ok).room, (keeps ok).load⟩
  have stop : W.stop - W.offset = W.count := Nat.add_sub_cancel_left _ _
  obtain ⟨m, v₂, own₂, prog₂, dirty, last, rfl⟩ := loop_progress io start.ino_ne fits keeps₁ whole
    W.count { file with pos := W.offset } s₁ le_rfl (by unfold Write.stop; simp only; omega)
    (fun file₁ t synced => by
      obtain ⟨-, rfl, enter⟩ := sync_first fits prog.inv.there idle₁ some rfl synced
      exact ⟨W.first fs, v₁, own, prog, enter, by rw [enter.pos, Write.enterPos_first]⟩)
    (by simp only [stop, Nat.sub_self]; exact write)
  rw [Nat.sub_self] at run
  cases run
  exact .inr ⟨rfl, rfl, m, v₂, own₂, prog₂, dirty, last⟩

include grow

variable (exact sound) in
/-- `do_write` of at least one byte, when it succeeds. -/
theorem doWrite_written {file' : UfsFile} {r : Int}
    (run : doWrite env fs file W.src W.count W.offset s = .done (r, file') s') (success : 0 ≤ r) :
    r = W.count ∧ ∃ v' own', Written fs ino exact sound W s v own s' v' own' file' := by
  have bound : W.stop < 2 ^ 64 := by
    have := fits.bound
    have : W.stop ≤ W.newSize := Nat.le_max_right _ _
    omega
  unfold doWrite at run
  rw [Prog.bind_of_done (doWriteGrow_ok start idle bound grow)] at run
  simp only at run
  rw [if_neg (by simp)] at run
  obtain ⟨s₁, v₁, grown, prog₁, addr₁⟩ := grown_start exact sound start
  rw [grown] at run
  obtain ⟨⟨rc, wr, file₂⟩, s₂, loop, run⟩ := Prog.bind_eq_done.mp run
  simp only at run
  rcases doWriteLoop_progress io start idle some count fits keeps whole prog₁ addr₁ loop with
    failed | ⟨rfl, rfl, m, v₂, own₂, prog₂, dirty, last⟩
  · rw [if_pos failed.ne] at run
    obtain ⟨result, -⟩ := Prog.pure_eq_done.mp run
    cases result
    omega
  rw [if_neg (by simp)] at run
  obtain ⟨⟨rc, file₃⟩, s₃, flush, run⟩ := Prog.bind_eq_done.mp run
  have code : rc ≤ 0 := ufsFileFlush_code env fs _ _ _ _ flush
  simp only at run
  split at run
  · next failed =>
    obtain ⟨result, -⟩ := Prog.pure_eq_done.mp run
    cases result
    exact absurd (le_antisymm code success) failed
  next ok =>
  obtain rfl : rc = 0 := not_not.mp ok
  obtain ⟨v', own', prog', rfl⟩ := flush_progress io start.ino_ne fits keeps whole prog₂ dirty flush
  obtain ⟨result, rfl⟩ := Prog.pure_eq_done.mp run
  cases result
  refine ⟨rfl, v', own', ⟨dirty.ino, dirty.writable, rfl, fun _ => ?_⟩, dirty.valid, ?_, ?_, ?_, ?_, ?_⟩
  · simp only [dirty.block]
  · rw [dirty.block]; exact dirty.low
  · rw [dirty.block]; exact dirty.high
  · rw [dirty.block]; exact last
  · rw [dirty.block]; exact prog'
  · rw [dirty.block]; exact dirty.bytes

end Success

end Whole

/-! ## Files with the lengths that their size asks for -/

/-- The fragments that block `b` of a file of `size` bytes owns. -/
def Superblock.ownFrags (fs : Superblock) (size b : Nat) : Nat := fs.blksize size b / fs.fsFsize

/-- A file in order: what every block owns follows from the size, nothing is mapped past the
    end, and the inode in core, the one on the device and the cached one agree. -/
structure ConsistentFile (fs : Superblock) (s : State) (ino : Nat) (v : Vnode) : Prop
    extends FileInv fs s ino v (fs.ownFrags v.inode.iSize) where
  cache : InoCache fs s
  ino_ne : ino ≠ 0
  dsize : v.inode.iDin2.diSize = v.inode.iSize
  dinode : s.dinodes ino = v.inode.iDin2
  ends : ∀ b, v.inode.iSize ≤ b * fs.fsBsize → fileAddr fs s v (.data b) = 0

section Sizes

variable {fs : Superblock}

theorem ownFrags_full {size b : Nat} (full : ndaddr ≤ b ∨ (b + 1) * fs.fsBsize ≤ size) :
    fs.ownFrags size b = fs.fsFrag := by
  unfold Superblock.ownFrags Superblock.blksize
  rw [fs.smalllblktosize_eq, if_pos full, fs.bsize_eq_mul, Nat.mul_div_cancel _ fs.fsize_pos]

/-- The last block of a short file owns the fragments that its bytes need. -/
theorem ownFrags_last {size b : Nat} (few : b < ndaddr) (low : b * fs.fsBsize < size)
    (high : size < (b + 1) * fs.fsBsize) : fs.ownFrags size b = lastFrags fs size := by
  have fpos := fs.fsize_pos
  have block : size / fs.fsBsize = b := Nat.div_eq_of_lt_le low.le high
  have place := Nat.div_add_mod' size fs.fsBsize
  rw [block] at place
  have frags := frags_eq low high.le
  have rest : (size % fs.fsBsize + (fs.fsFsize - 1)) / fs.fsFsize + b * fs.fsFrag
      = (size + fs.fsQfmask) / fs.fsFsize := by
    rw [← Nat.add_mul_div_right _ _ fpos, Nat.mul_assoc, ← fs.bsize_eq_mul]
    congr 1
    unfold Superblock.fsQfmask
    omega
  unfold Superblock.ownFrags Superblock.blksize
  rw [fs.smalllblktosize_eq, if_neg (by omega), fs.blkoff_eq, fs.fragroundup_eq,
    Nat.mul_div_cancel _ fpos]
  omega

/-- Every byte of the file lies in what its block owns. -/
theorem lt_ownFrags {size p : Nat} (inside : p < size) :
    p % fs.fsBsize < fs.ownFrags size (p / fs.fsBsize) * fs.fsFsize := by
  have small := Nat.mod_lt p fs.bsize_pos
  by_cases full : ndaddr ≤ p / fs.fsBsize ∨ (p / fs.fsBsize + 1) * fs.fsBsize ≤ size
  · rw [ownFrags_full full, ← fs.bsize_eq_mul]
    exact small
  · have place := Nat.div_add_mod' p fs.fsBsize
    have low : p / fs.fsBsize * fs.fsBsize < size := by omega
    rw [ownFrags_last (by omega) low (by omega)]
    have := le_lastFrags low (by omega)
    omega

end Sizes

/-! ## The frame of a write -/

/-- What a write leaves alone: the bytes of the file that it does not cover, and the inodes and
    the blocks of every other file. -/
structure FrameKept (fs : Superblock) (s : State) (ino : Nat) (v : Vnode) (offset n : Nat)
    (s' : State) : Prop where
  bytes : ∃ v', s'.vnodes ino = some v' ∧ ∀ p < v.inode.iSize, ¬ (offset ≤ p ∧ p < offset + n) →
    s'.byte fs v' p = s.byte fs v p
  dinodes : ∀ i, i ≠ ino → s'.dinodes i = s.dinodes i
  blocks : ∀ i, i ≠ ino → ∀ own, Owned fs (s.free fs) (slotAddr fs s.data (s.dinodes i)) own →
    (∀ sl sl', Disjoint (slotExt fs (slotAddr fs s.data (s.dinodes i)) own sl)
      (slotExt fs (fileAddr fs s v) (fs.ownFrags v.inode.iSize) sl')) →
    slotAddr fs s'.data (s'.dinodes i) = slotAddr fs s.data (s.dinodes i) ∧
      ∀ sl, AgreeOn fs (slotExt fs (slotAddr fs s.data (s.dinodes i)) own sl) s.data s'.data

/-- Another file keeps its map and its bytes. -/
theorem Moved.otherFile {fs : Superblock} {ino : Nat} {exact : Prop} {s s' : State} {v v' : Vnode}
    {own own' owni : Nat → Nat} {i : Nat} (moved : Moved fs ino exact s v own s' v' own') (ne : i ≠ ino)
    (owned : Owned fs (s.free fs) (slotAddr fs s.data (s.dinodes i)) owni)
    (apart : ∀ sl sl', Disjoint (slotExt fs (slotAddr fs s.data (s.dinodes i)) owni sl)
      (slotExt fs (fileAddr fs s v) own sl')) :
    slotAddr fs s'.data (s'.dinodes i) = slotAddr fs s.data (s.dinodes i) ∧
      ∀ sl, AgreeOn fs (slotExt fs (slotAddr fs s.data (s.dinodes i)) owni sl) s.data s'.data := by
  have foreign : ∀ sl, ∀ x ∈ slotExt fs (slotAddr fs s.data (s.dinodes i)) owni sl,
      OthersHold fs s v own x := by
    intro sl x hx
    refine ⟨(owned.used sl x hx).1, ?_⟩
    rintro ⟨sl', mine⟩
    exact Set.disjoint_left.mp (apart sl sl') hx mine
  refine ⟨?_, fun sl => moved.bytes.mono (foreign sl)⟩
  rw [moved.dinodes i ne]
  refine slotAddr_agree (moved.bytes.mono ?_)
  rintro x ⟨sl, ind, inside⟩
  exact foreign sl x ((slotExt_indirect ind).mpr inside)

/-- What makes a write safe, from the sizes and the map alone. Within the range of the map, each
    block that is flushed in place, or whose old extent is freed, must own the fragments that
    the code writes or frees; a block that gets a new extent must not lose bytes past it; and
    the load of the first block must bring in what the write leaves alone of it. -/
structure Write.Safe (fs : Superblock) (W : Write) (addr : Nat → Nat) : Prop where
  range : W.newSize ≤ fs.maxBlocks * fs.fsBsize
  fits : ∀ m, W.first fs ≤ m → m * fs.fsBsize < W.stop →
    FlushFits (fs.ownFrags W.size) m (W.frags fs m) (W.was fs m) (addr m)
  room : ∀ m, W.first fs ≤ m → m * fs.fsBsize < W.stop → W.Replaced fs addr m →
    ∀ p < W.size, p / fs.fsBsize = m → p % fs.fsBsize < W.frags fs m * fs.fsFsize
  load : ∀ p < W.size, p / fs.fsBsize = W.first fs → ¬ W.Covers p →
    p % fs.fsBsize < W.frags fs (W.first fs) * fs.fsFsize →
    p % fs.fsBsize < loadLenAt fs W.size W.newSize W.offset

/-- The write of `n` bytes of `src` at `offset`. -/
def State.write (fs : Superblock) (s : State) (v : Vnode) (src : Buf) (n offset : Nat) : Write :=
  ⟨v.inode.iSize, offset, n, src, s.byte fs v⟩

section Frame

variable {env : Env} {fs : Superblock} {ino : Nat} {s s' : State} {v : Vnode} {src : Buf}
  {n offset : Nat}

theorem ConsistentFile.start (ok : ConsistentFile fs s ino v) (src : Buf) (n offset : Nat) :
    WriteStart fs ino (s.write fs v src n offset) s v (fs.ownFrags v.inode.iSize) :=
  ⟨ok.toFileInv, ok.cache, ok.ino_ne, rfl, ok.dsize, fun _ _ => rfl⟩

/-- Nothing is written: the state stays as it is. -/
theorem doWrite_nothing (there : s.vnodes ino = some v) {file : UfsFile}
    (idle : Idle fs ino s v file) (inside : offset ≤ v.inode.iSize) :
    doWrite env fs file src 0 offset s = .done (0, { file with pos := offset }) s := by
  obtain ⟨rfl, -, clean, -⟩ := idle
  have same : ¬ v.inode.iSize < (offset + 0) % 2 ^ 64 := by
    have := Nat.mod_le (offset + 0) (2 ^ 64)
    omega
  have grow : doWriteGrow env fs file 0 offset s = .done (0, file) s := by
    unfold doWriteGrow
    rw [Prog.bind_of_done (vnode2inode_ok there), if_neg same]
    rfl
  have flush : ufsFileFlush env fs { file with pos := offset } s
      = .done (0, { file with pos := offset }) s := by
    unfold ufsFileFlush
    rw [Prog.bind_of_done (vnode2inode_ok there), if_pos (.inr clean)]
    rfl
  unfold doWrite
  rw [Prog.bind_of_done grow]
  simp only
  rw [if_neg (by simp)]
  change (ufsFileFlush env fs { file with pos := offset } >>= _) s = _
  rw [Prog.bind_of_done flush]
  rfl

theorem freshFile_idle (buf : Buf) : Idle fs ino s v (freshFile ino true buf) :=
  ⟨rfl, rfl, rfl, fun valid => by cases valid⟩

theorem maxBytes_lt : fs.maxBlocks * fs.fsBsize < 2 ^ 63 := by
  calc fs.maxBlocks * fs.fsBsize ≤ 2 ^ 31 * 65536 :=
        Nat.mul_le_mul maxBlocks_lt.le fs.bsize_le
    _ < 2 ^ 63 := by norm_num

end Frame

/-! ### The small mount with one file -/

/-- The sizes for which the image is in order: a fragment or a whole block. -/
def OneSize (size k : Nat) : Prop := (size = 512 ∧ k = 1) ∨ (size = 4096 ∧ k = 8)

theorem oneState_alloc {size k : Nat} (known : OneSize size k) : AllocOk smallFs (oneState size k) := by
  have counts : Counts smallFs (oneCg k) := by
    rcases known with ⟨-, rfl⟩ | ⟨-, rfl⟩ <;>
      refine ⟨by decide +kernel, by decide +kernel, fun i hi less => ?_⟩ <;>
      (have : i < 8 := less) <;> interval_cases i <;> decide +kernel
  have ends : ∀ i, smallFs.fsFpg ≤ i → (oneCg k).cgBlksfree.isset i = false := by
    intro i hi
    have past : 128 ≤ i := hi
    simp only [BitMap.isset, oneCg]
    rw [if_neg (by omega), if_neg (by omega)]
    simp
  have group : CgOk smallFs 0 (oneCg k) :=
    ⟨counts, rfl, rfl, (by decide : 0 < 128), (by decide : 0 < 128), ends⟩
  refine ⟨fun cg inside => ?_, fun cg inside => ?_, ?_⟩
  · have : cg < 1 := inside
    obtain rfl : cg = 0 := by omega
    exact group
  · have : cg < 1 := inside
    obtain rfl : cg = 0 := by omega
    rfl
  · simp [csumTotal, oneState, smallFs]

theorem oneState_addr (size k : Nat) (sl : Slot) :
    fileAddr smallFs (oneState size k) (oneVnode size) sl = if sl = .data 0 then 32 else 0 := by
  cases sl with
  | data b =>
      by_cases first : b = 0
      · subst first; rfl
      · rw [if_neg (by simpa using first)]
        have direct : (oneDinode size).diDb b = 0 := by
          simp only [oneDinode, Function.update_of_ne first]
        change blockAt smallFs _ (oneDinode size) b = 0
        rcases block_cases smallFs b with h | ⟨i, hi, rfl⟩ | ⟨i, hi, j, hj, rfl⟩ | far
        · rw [blockAt_direct _ _ h, direct]
        · rw [blockAt_single _ _ hi]; rfl
        · rw [blockAt_double _ _ hi hj]; rfl
        · exact blockAt_beyond _ _ far
  | single => rfl
  | double => rfl
  | middle i =>
      change (if i < smallFs.fsNindir then 0 else 0) = _
      simp

theorem oneState_consistent {size k : Nat} (known : OneSize size k) :
    ConsistentFile smallFs (oneState size k) 3 (oneVnode size) := by
  have owns : smallFs.ownFrags size 0 = k ∧ 0 < size := by
    rcases known with ⟨rfl, rfl⟩ | ⟨rfl, rfl⟩ <;> decide
  have ext : ∀ sl x, x ∈ slotExt smallFs (fileAddr smallFs (oneState size k) (oneVnode size))
      (smallFs.ownFrags size) sl → sl = .data 0 ∧ 32 ≤ x ∧ x < 32 + k := by
    intro sl x mine
    simp only [slotExt, oneState_addr] at mine
    by_cases first : sl = .data 0
    · subst first
      simp only [if_pos, slotWidth, owns.1] at mine
      exact ⟨rfl, mine.2⟩
    · rw [if_neg first] at mine
      exact absurd rfl mine.1
  have kle : k ≤ 8 := by rcases known with ⟨-, rfl⟩ | ⟨-, rfl⟩ <;> decide
  have sizeLe : size ≤ 4096 := by rcases known with ⟨rfl, -⟩ | ⟨rfl, -⟩ <;> decide
  have zeros : ∀ j < smallFs.fsBsize, (oneState size k).data j = 0 := by
    intro j hj
    have : j < 4096 := hj
    exact if_neg (by omega)
  have free : ∀ x, 128 ≤ x → (oneState size k).free smallFs x = false := by
    intro x hx
    have group : x / 128 ≠ 0 := by omega
    have none : (oneState size k).cgs (x / 128) = { smallCg with cgBlksfree := fun _ => 0 } := by
      simp only [oneState, Function.update_of_ne group]
    change ((oneState size k).cgs (x / 128)).cgBlksfree.isset _ = false
    rw [none]
    simp [BitMap.isset]
  have used : ∀ x, x < 32 + k → (oneState size k).free smallFs x = false := by
    rcases known with ⟨rfl, rfl⟩ | ⟨rfl, rfl⟩ <;> decide +kernel
  refine ⟨⟨⟨oneState_alloc known, fun x hx => used x ?_, zeros, fun x isFree => ?_⟩, ?_, rfl,
    (by decide : 3 / 16 < 1), fun sl there => ?_, fun sl x mine => ?_, ?_⟩, ⟨fun h => ?_, fun i h => ?_⟩, by decide, rfl,
    rfl, fun b past => ?_⟩
  · have : x < 8 := hx
    omega
  · by_contra past
    rw [free x (by simpa [smallFs] using past)] at isFree
    cases isFree
  · simp [oneState]
  · rw [oneState_addr] at there ⊢
    by_cases first : sl = .data 0
    · subst first
      exact ⟨by decide, by simp only [if_pos, slotWidth]; change 0 + smallFs.ownFrags size 0 ≤ 8; omega⟩
    · rw [if_neg first] at there
      exact absurd rfl there
  · obtain ⟨-, low, high⟩ := ext sl x mine
    exact ⟨used x high, by change 8 ≤ x; omega, by change x < 128; omega⟩
  · intro sl sl' ne
    rw [Set.disjoint_left]
    intro x mine mine'
    exact ne ((ext sl x mine).1.trans (ext sl' x mine').1.symm)
  · exact absurd h (by simp [oneState, smallState])
  · exact absurd h (by simp [oneState, smallState])
  · rw [oneState_addr, if_neg]
    intro e
    cases e
    change size ≤ 0 * 4096 at past
    omega

theorem oneState_safe : ((oneState 4096 8).write smallFs (oneVnode 4096) (fun _ => 2) 96 0).Safe smallFs
    fun b => fileAddr smallFs (oneState 4096 8) (oneVnode 4096) (.data b) := by
  set W := (oneState 4096 8).write smallFs (oneVnode 4096) (fun _ => 2) 96 0 with hW
  have only : ∀ m, m * smallFs.fsBsize < W.stop → m = 0 := by
    intro m high
    have : m * 4096 < 96 := high
    omega
  have frags : W.frags smallFs 0 = 1 := by decide
  have was : W.was smallFs 0 = 8 := by decide
  have mapped : fileAddr smallFs (oneState 4096 8) (oneVnode 4096) (.data 0) = 32 := by
    rw [oneState_addr, if_pos rfl]
  refine ⟨by decide, fun m _ high => ?_, fun m _ high replaced => ?_, fun p low _ _ less => ?_⟩
  · obtain rfl := only m high
    rw [frags, was]
    exact ⟨fun _ grow => by omega, fun _ _ => by decide⟩
  · obtain rfl := only m high
    rcases replaced with hole | grow
    · exact absurd (mapped.symm.trans hole) (by decide)
    · rw [frags, was] at grow
      omega
  · have loaded : loadLenAt smallFs W.size W.newSize W.offset = 4096 := by decide
    rw [loaded]
    exact Nat.mod_lt p (by decide)

end FuseUfs
