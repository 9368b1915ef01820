import FuseUfs.Ops

/-! # What the callbacks can change

The callbacks add directory walks, look-ups and handles to the routines below them, and no
kind of step that those do not have already. A property that survives the steps of those
routines, whichever inode they work on, survives the reading and writing of files; one that
survives a change of the vnode table as well survives everything but the opening and closing
of handles.
-/

namespace FuseUfs

open Lib Prog

variable {env : Env} {fs : Superblock} {I : State → Prop}

/-! ## Files -/

section Blocks

variable (kept : ∀ i, KeptByStore i I)

include kept

theorem flushAlloc_kept (file : UfsFile) (size : Int) : Keeps I (flushAlloc env fs file size) :=
  .bind (vnode2inode_kept _) fun _ => .bind (ufsBlockAlloc_kept (kept 0).toKeptByGroups _ _) fun _ =>
    .ite (fun _ => .pure _) fun _ => .bind (ufsSetBlock_kept (kept _).toKeptByMap _ _) fun _ => .pure _

theorem flushPlace_kept (file : UfsFile) (size osize : Int) :
    Keeps I (flushPlace env fs file size osize) :=
  .ite (fun _ => flushAlloc_kept kept _ _) fun _ => .ite
    (fun _ => .bind (ufsBlockFree_kept (kept 0).toKeptByGroups _ _) fun _ =>
      .bind (ufsSetBlock_kept (kept _).toKeptByMap _ _) fun _ => .ite (fun _ => .pure _) fun _ =>
        flushAlloc_kept kept _ _)
    fun _ => .pure _

theorem flushWrite_kept (file : UfsFile) (size : Int) : Keeps I (flushWrite env fs file size) :=
  .bind (blkwrite_kept (kept 0).toKeptByAlloc _ _ _) fun _ => .ite (fun _ => .pure _) fun _ => .ite
    (fun _ => .bind (ufsWriteInode_kept (kept _)) fun _ => .pure _) fun _ => .pure _

theorem ufsFileFlush_kept (file : UfsFile) : Keeps I (ufsFileFlush env fs file) :=
  .bind (vnode2inode_kept _) fun _ => .ite (fun _ => .pure _) fun _ => .ite (fun _ => .pure _) fun _ =>
    .bind (flushPlace_kept kept _ _ _) fun _ => .ite (fun _ => .pure _) fun _ => flushWrite_kept kept _ _

theorem syncBufferPosition_kept (file : UfsFile) : Keeps I (syncBufferPosition env fs file) :=
  .ite (fun _ => .bind (ufsFileFlush_kept kept _) fun _ => .ite (fun _ => .pure _) fun _ => .pure _)
    fun _ => .pure _

theorem fillBuffer_kept (file : UfsFile) (fsize : Int) : Keeps I (fillBuffer env fs file fsize) :=
  .ite (fun _ => .bind (blkread_kept (kept 0).toKeptByGroups _ _ _) fun _ => .pure _) fun _ => .pure _

theorem loadBuffer_kept (file : UfsFile) (dontfill : Bool) :
    Keeps I (loadBuffer env fs file dontfill) :=
  .ite (fun _ => .pure _) fun _ => .bind (ufsBmap_kept (kept 0).toKeptByMap _ _) fun _ =>
    .bind (vnode2inode_kept _) fun _ => .ite (fun _ => .pure _) fun _ => .ite (fun _ => .pure _) fun _ =>
      .bind (fillBuffer_kept kept _ _) fun _ => .ite (fun _ => .pure _) fun _ => .pure _

theorem fileReadLoop_kept : ∀ left file wanted got,
    Keeps I (fileReadLoop env fs left file wanted got)
  | 0, file, wanted, got => by
      rw [fileReadLoop]
      exact .bind (vnode2inode_kept _) fun _ => .ite (fun _ => .halt) fun _ => .pure _
  | left + 1, file, wanted, got => by
      rw [fileReadLoop]
      exact .bind (vnode2inode_kept _) fun _ => .ite
        (fun _ => .bind (syncBufferPosition_kept kept _) fun _ => .ite (fun _ => .pure _) fun _ =>
          .bind (loadBuffer_kept kept _ _) fun _ => .ite (fun _ => .pure _) fun _ =>
            fileReadLoop_kept left _ _ _)
        fun _ => .pure _

theorem doRead_kept (file : UfsFile) (size offset : Nat) : Keeps I (doRead env fs file size offset) :=
  .bind (fileReadLoop_kept kept _ _ _ _) fun _ => .ite (fun _ => .pure _) fun _ => .pure _

theorem fileWriteLoop_kept (src : Buf) : ∀ left file nbytes count,
    Keeps I (fileWriteLoop env fs src left file nbytes count)
  | 0, file, nbytes, count => by
      rw [fileWriteLoop]
      exact .ite (fun _ => .halt) fun _ => .pure _
  | left + 1, file, nbytes, count => by
      rw [fileWriteLoop]
      exact .ite
        (fun _ => .bind (syncBufferPosition_kept kept _) fun _ => .ite (fun _ => .pure _) fun _ =>
          .bind (loadBuffer_kept kept _ _) fun _ => .ite (fun _ => .pure _) fun _ =>
            fileWriteLoop_kept src left _ _ _)
        fun _ => .pure _

theorem ufsFileWrite_kept (file : UfsFile) (src : Buf) (nbytes : Nat) :
    Keeps I (ufsFileWrite env fs file src nbytes) :=
  .ite (fun _ => .pure _) fun _ => fileWriteLoop_kept kept _ _ _ _ _

theorem doWriteLoop_kept (src : Buf) : ∀ left file size ptr wr,
    Keeps I (doWriteLoop env fs src left file size ptr wr)
  | 0, file, size, ptr, wr => by
      rw [doWriteLoop]
      exact .ite (fun _ => .halt) fun _ => .pure _
  | left + 1, file, size, ptr, wr => by
      rw [doWriteLoop]
      exact .ite
        (fun _ => .bind (ufsFileWrite_kept kept _ _ _) fun _ => .ite (fun _ => .pure _) fun _ =>
          doWriteLoop_kept src left _ _ _ _)
        fun _ => .pure _

end Blocks

section Files

variable (kept : ∀ i, KeptByInode i I)

include kept

theorem ufsFileSetSize_kept (file : UfsFile) (size : Nat) : Keeps I (ufsFileSetSize env fs file size) :=
  .bind (ufsFileFlush_kept (fun i => (kept i).toStore) _) fun _ => .bind (vnode2inode_kept _) fun _ =>
    .bind (.ite (fun _ => ufsTruncate_kept (kept _).toStore _) fun _ => .pure _) fun _ =>
      .bind (updateInode_kept (kept _).toKeptByFile _) fun _ => .pure _

theorem doWrite_kept (file : UfsFile) (src : Buf) (size offset : Nat) :
    Keeps I (doWrite env fs file src size offset) := by
  have grow : Keeps I (doWriteGrow env fs file size offset) :=
    .bind (vnode2inode_kept _) fun _ => .ite (fun _ => ufsFileSetSize_kept kept _ _) fun _ => .pure _
  exact .bind grow fun _ => .ite (fun _ => .pure _) fun _ => .bind (doWriteLoop_kept (fun i => (kept i).toStore) _ _ _ _ _ _)
    fun _ => .ite (fun _ => .pure _) fun _ => .bind (ufsFileFlush_kept (fun i => (kept i).toStore) _) fun _ =>
      .ite (fun _ => .pure _) fun _ => .pure _

theorem doKillfilebyinode_kept (ino : Nat) : Keeps I (doKillfilebyinode env fs ino) := by
  have blocks : Keeps I (killBlocks env fs ino) :=
    .bind (vnode2inode_kept ino) fun _ => .ite
      (fun _ => .bind (ufsTruncate_kept (kept _).toStore 0) fun _ => .pure _) fun _ => .pure _
  exact .bind (vnode2inode_kept ino) fun _ => .bind (.modify fun s h => (kept 0).clock s s.tick _ h) fun _ =>
    .bind (updateInode_kept (kept _).toKeptByFile _) fun _ => .bind blocks fun _ =>
      .bind (vnode2inode_kept ino) fun _ => .bind (ufsFreeInode_kept (kept 0).toKeptByGroups _ _) fun _ =>
        .ite (fun _ => .pure _) fun _ => .bind (updateInode_kept (kept _).toKeptByFile _) fun _ =>
          .bind (ufsWriteInode_kept (kept _).toStore) fun _ => .ite (fun _ => .pure _) fun _ => .pure _

theorem lastPut_kept (ino : Nat) (v : Vnode) (dirty : Bool) : Keeps I (lastPut env fs ino v dirty) :=
  .ite (fun _ => doKillfilebyinode_kept kept _) fun _ => .ite (fun _ => ufsWriteInode_kept (kept _).toStore)
    fun _ => .pure _

/-! ## Directories, between `vnode_get` and `vnode_put` -/

theorem writeChanged_kept (blkno : Nat) (blksize ret : Int) (buf : Buf) :
    Keeps I (writeChanged env fs blkno blksize ret buf) :=
  .ite (fun _ => blkwrite_kept (kept 0).toKeptByAlloc _ _ _) fun _ => .pure _

theorem dirRecords_kept {σ : Type} (func : DirProc σ) (dirSize : Nat) (pos : Int) (blkno : Nat)
    (blksize : Int) : ∀ left offset w,
    Keeps I (dirRecords env fs func dirSize pos blkno blksize left offset w)
  | 0, offset, w => by
      rw [dirRecords]
      exact .ite (fun _ => .halt) fun _ => .pure _
  | left + 1, offset, w => by
      rw [dirRecords]
      refine .ite (fun _ => ?_) fun _ => .pure _
      rcases func w.buf offset w.priv with _ | ⟨ret, buf, priv⟩
      · exact .halt
      · exact .bind (writeChanged_kept kept _ _ _ _) fun _ => .ite (fun _ => .pure _) fun _ => .ite
          (fun _ => .pure _) fun _ => dirRecords_kept func dirSize pos blkno blksize left _ _

theorem dirBlocks_kept {σ : Type} (func : DirProc σ) (dirino dirSize : Nat) : ∀ left i pos w,
    Keeps I (dirBlocks env fs func dirino dirSize left i pos w)
  | 0, _, _, _ => .pure _
  | left + 1, _, _, _ => .ite (fun _ => .halt) fun _ =>
      .bind (ufsBmap_kept (kept 0).toStore.toKeptByMap _ _) fun _ => .ite (fun _ => .pure _) fun _ =>
        .bind (vnode2inode_kept _) fun _ => .bind (blkread_kept (kept 0).toKeptByGroups _ _ _) fun _ =>
          .ite (fun _ => .pure _) fun _ => .bind (dirRecords_kept kept func _ _ _ _ _ _ _) fun _ =>
            .ite (fun _ => .pure _) fun _ => dirBlocks_kept func dirino dirSize left _ _ _

theorem appendBody_kept (dIno fIno fFlags : Nat) (name : List Byte) :
    Keeps I (appendBody env fs dIno fIno fFlags name) := by
  have load (a b) : Keeps I (appendLoad env fs dIno a b) :=
    .ite (fun _ => .bind (ufsBmap_kept (kept 0).toStore.toKeptByMap _ _) fun _ => .ite (fun _ => .pure _) fun _ =>
      .bind (blkread_kept (kept 0).toKeptByGroups _ _ _) fun _ => .pure _) fun _ => .pure _
  have place (a b c d) : Keeps I (appendPlace env fs dIno a b c d) :=
    .ite (fun _ => .bind (vnode2inode_kept _) fun _ =>
      .bind (ufsBlockAlloc_kept (kept 0).toKeptByGroups _ _) fun _ => .ite (fun _ => .pure _) fun _ =>
        .bind (ufsSetBlock_kept (kept _).toStore.toKeptByMap _ _) fun _ => .ite (fun _ => .pure _) fun _ => .ite
          (fun _ => .bind (ufsBlockFree_kept (kept 0).toKeptByGroups _ _) fun _ => .pure _) fun _ => .pure _)
      fun _ => .pure _
  exact .bind (vnode2inode_kept _) fun _ => .bind (load _ _) fun _ => .ite (fun _ => .pure _) fun _ =>
    .bind (place _ _ _ _) fun _ => .ite (fun _ => .pure _) fun _ =>
      .bind (blkwrite_kept (kept 0).toKeptByAlloc _ _ _) fun _ => .ite (fun _ => .pure _) fun _ =>
        .bind (updateInode_kept (kept _).toKeptByFile _) fun _ => .pure _

theorem linkTarget_kept (inode : Inode) : Keeps I (linkTarget env fs inode) :=
  .ite (fun _ => .bind (blkread_kept (kept 0).toKeptByGroups _ _ _) fun _ => .ite (fun _ => .pure _)
    fun _ => .pure _) fun _ => .pure _

theorem readlinkTarget_kept (size : Nat) (inode : Inode) (ino : Nat) :
    Keeps I (opReadlink.target env fs size inode ino) :=
  .ite (fun _ => .pure _) fun _ => .ite (fun _ => .pure _) fun _ =>
    .bind (linkTarget_kept kept _) fun _ => .pure _

end Files

end FuseUfs
