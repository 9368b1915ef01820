import FuseUfs.FileIO
import FuseUfs.InodeAlloc

/-! # What the routines can change

Every routine below the callbacks is a sequence of a few kinds of steps: transfers, changes
of a cylinder group and its summaries, changes of one in-core inode, and transfers of the
inode block. A property of the state that none of these steps can break is kept by all the
routines, whatever the device does and however the run ends. The structures name the
steps that a property has to survive, and the lemmas go once through the routines.
-/

namespace FuseUfs

open Lib Prog

/-- Nothing that allocating and freeing fragments changes can break the property. -/
structure KeptByGroups (I : State → Prop) : Prop where
  clock : ∀ s t l, I s → I { s with tick := t, log := l }
  groups : ∀ s c, I s → I { s with cgs := c }
  summary : ∀ s cg change, I s → I (s.summary cg change)
  clusters : ∀ s m, I s → I { s with fsMaxcluster := m }

/-- Neither can a write of data. -/
structure KeptByAlloc (I : State → Prop) : Prop extends KeptByGroups I where
  data : ∀ s d, I s → I { s with data := d }

/-- Neither can a change of the block map and the block count of `ino`. -/
structure KeptByMap (ino : Nat) (I : State → Prop) : Prop extends KeptByAlloc I where
  map : ∀ s v d b, s.vnodes ino = some v → I s →
    I (s.setVnode ino { v with inode := { v.inode with iDin2 := d, iBlocks := b } })

/-- Neither can a transfer of an inode block. -/
structure KeptByStore (ino : Nat) (I : State → Prop) : Prop extends KeptByMap ino I where
  cache : ∀ s b lo hi, I s → I { s with dInoblock := b, dInomin := lo, dInomax := hi }
  dinodes : ∀ s d, I s → I { s with dinodes := d }

/-- Nor can any other change of the in-core inode `ino`. -/
structure KeptByFile (ino : Nat) (I : State → Prop) : Prop extends KeptByAlloc I where
  inode : ∀ s v (f : Inode → Inode), s.vnodes ino = some v → I s → I (s.setVnode ino { v with inode := f v.inode })

/-- Neither can a transfer of an inode block. -/
structure KeptByInode (ino : Nat) (I : State → Prop) : Prop extends KeptByFile ino I where
  cache : ∀ s b lo hi, I s → I { s with dInoblock := b, dInomin := lo, dInomax := hi }
  dinodes : ∀ s d, I s → I { s with dinodes := d }

variable {env : Env} {fs : Superblock} {I : State → Prop} {ino : Nat}

theorem KeptByFile.toMap (kept : KeptByFile ino I) : KeptByMap ino I where
  toKeptByAlloc := kept.toKeptByAlloc
  map s v d b there h := kept.inode s v (fun i => { i with iDin2 := d, iBlocks := b }) there h

theorem KeptByInode.toStore (kept : KeptByInode ino I) : KeptByStore ino I where
  toKeptByMap := kept.toKeptByFile.toMap
  cache := kept.cache
  dinodes := kept.dinodes

/-! ## Transfers and allocation -/

section Alloc

variable (kept : KeptByGroups I)

include kept

theorem tryRead_kept : Keeps I (tryRead env) := fun s h => kept.clock s (s.tick + 1) s.log h

theorem tryWrite_kept : Keeps I (tryWrite env) := fun s h => kept.clock s _ _ h

theorem blkreadCg_kept (cg : Nat) : Keeps I (blkreadCg env cg) :=
  .bind (tryRead_kept kept) fun _ => .bind .get fun _ => .ite (fun _ => .pure _) fun _ => .pure _

theorem blkwriteCg_kept (cg : Nat) (cgp : Cg) : Keeps I (blkwriteCg env cg cgp) :=
  .bind (tryWrite_kept kept) fun _ => .ite
    (fun _ => .bind (.modify fun s h => kept.groups s _ h) fun _ => .pure _) fun _ => .pure _

theorem blkread_kept (bno : Nat) (buf : Buf) (size : Nat) : Keeps I (blkread env fs bno buf size) :=
  .bind (tryRead_kept kept) fun _ => .bind .get fun _ => .ite (fun _ => .pure _) fun _ => .pure _

omit kept in
theorem blkwrite_kept (kept : KeptByAlloc I) (bno : Nat) (buf : Buf) (size : Int) :
    Keeps I (blkwrite env fs bno buf size) :=
  .bind (tryWrite_kept kept.toKeptByGroups) fun _ => .ite
    (fun _ => .bind (.modify fun s h => kept.data s _ h) fun _ => .pure _) fun _ => .pure _

theorem clusteracct_kept (cgp : Cg) (blkno : Nat) (cnt : Int) :
    Keeps I (clusteracct fs cgp blkno cnt) := by
  unfold clusteracct
  rcases ffsClusteracct fs cgp blkno cnt with ⟨cgp', most⟩
  cases most with
  | none => exact .pure _
  | some n => exact .bind (.modify fun s h => kept.clusters s _ h) fun _ => .pure _

theorem takeBlock_kept (cgp : Cg) (bno : Nat) : Keeps I (takeBlock fs cgp bno) :=
  .bind (clusteracct_kept kept _ _ _) fun _ =>
    .bind (.modify fun s h => kept.summary s _ _ h) fun _ => .pure _

theorem ufsAlloccgblk_kept (cgp : Cg) (bpref : Nat) : Keeps I (ufsAlloccgblk fs cgp bpref) := by
  simp only [ufsAlloccgblk]
  split
  · exact takeBlock_kept kept _ _
  · split
    · exact .pure _
    · exact takeBlock_kept kept _ _

theorem splitBlock_kept (cg : Nat) (cgp : Cg) (bpref frags : Nat) :
    Keeps I (splitBlock env fs cg cgp bpref frags) :=
  .bind (ufsAlloccgblk_kept kept _ _) fun _ => .bind (.modify fun s h => kept.summary s _ _ h) fun _ =>
    .bind (blkwriteCg_kept kept _ _) fun _ => .pure _

theorem carveRun_kept (cg : Nat) (cgp : Cg) (bpref allocsiz frags : Nat) :
    Keeps I (carveRun env fs cg cgp bpref allocsiz frags) := by
  unfold carveRun
  split
  · exact .pure _
  · exact .bind (.modify fun s h => kept.summary s _ _ h) fun _ =>
      .bind (blkwriteCg_kept kept _ _) fun _ => .pure _

theorem ufsAlloccg_kept (size : Int) (cg bpref : Nat) : Keeps I (ufsAlloccg env fs size cg bpref) := by
  refine .bind .get fun _ => .ite (fun _ => .pure _) fun _ => .bind (blkreadCg_kept kept _) fun r => ?_
  cases r with
  | none => exact .pure _
  | some cgp =>
      refine .ite (fun _ => .pure _) fun _ => .ite (fun _ => ?_) fun _ => .ite (fun _ => .halt) fun _ => ?_
      · exact .bind (ufsAlloccgblk_kept kept _ _) fun _ => .bind (blkwriteCg_kept kept _ _) fun _ => .pure _
      · exact .ite (fun _ => .ite (fun _ => .pure _) fun _ => splitBlock_kept kept _ _ _ _)
          fun _ => carveRun_kept kept _ _ _ _ _

omit kept in
theorem rehash_kept {allocator : Nat → Nat → M Nat} (step : ∀ cg p, Keeps I (allocator cg p)) :
    ∀ left i cg, Keeps I (rehash fs allocator left i cg)
  | 0, _, _ => .pure _
  | left + 1, _, _ => .ite
      (fun _ => .bind (step _ _) fun _ => .ite (fun _ => .pure _) fun _ => rehash_kept step left _ _)
      fun _ => .pure _

omit kept in
theorem bruteForce_kept {allocator : Nat → Nat → M Nat} (step : ∀ cg p, Keeps I (allocator cg p)) :
    ∀ left cg, Keeps I (bruteForce fs allocator left cg)
  | 0, _ => .pure _
  | left + 1, _ => .bind (step _ _) fun _ => .ite (fun _ => .pure _)
      fun _ => bruteForce_kept step left _

omit kept in
theorem ufsHashalloc_kept {allocator : Nat → Nat → M Nat} (step : ∀ cg p, Keeps I (allocator cg p))
    (cg pref : Nat) : Keeps I (ufsHashalloc fs cg pref allocator) :=
  .bind (step _ _) fun _ => .ite (fun _ => .pure _) fun _ => .bind (rehash_kept step _ _ _) fun _ =>
    .ite (fun _ => .pure _) fun _ => bruteForce_kept step _ _

theorem ufsBlockAlloc_kept (ino : Nat) (size : Int) : Keeps I (ufsBlockAlloc env fs ino size) :=
  .bind .get fun _ => .ite (fun _ => .pure _) fun _ => .ite (fun _ => .pure _) fun _ =>
    .bind (ufsHashalloc_kept (ufsAlloccg_kept kept size) _ _) fun _ =>
      .ite (fun _ => .pure _) fun _ => .pure _

theorem freeFrags_kept (cg : Nat) (cgp : Cg) (cgbno frags : Nat) :
    Keeps I (freeFrags fs cg cgp cgbno frags) :=
  .bind (.modify fun s h => kept.summary s _ _ h) fun _ => .ite
    (fun _ => .bind (.modify fun s h => kept.summary s _ _ h) fun _ =>
      .bind (clusteracct_kept kept _ _ _) fun _ =>
        .bind (.modify fun s h => kept.summary s _ _ h) fun _ => .pure _)
    fun _ => .pure _

theorem freeBlock_kept (cg : Nat) (cgp : Cg) (cgbno : Nat) : Keeps I (freeBlock fs cg cgp cgbno) :=
  .bind (clusteracct_kept kept _ _ _) fun _ =>
    .bind (.modify fun s h => kept.summary s _ _ h) fun _ => .pure _

theorem ufsBlockFree_kept (bno size : Nat) : Keeps I (ufsBlockFree env fs bno size) := by
  refine .ite (fun _ => .pure _) fun _ => .bind (blkreadCg_kept kept _) fun r => ?_
  cases r with
  | none => exact .pure _
  | some cgp =>
      refine .ite (fun _ => .pure _) fun _ => .bind ?_ fun _ => .bind (.modify fun s h => ?_) fun _ =>
        .bind (blkwriteCg_kept kept _ _) fun _ => .pure _
      · exact .ite (fun _ => freeBlock_kept kept _ _ _) fun _ => freeFrags_kept kept _ _ _ _
      · -- the flag is raised by a summary that stays as it is
        have := kept.summary s 0 id h
        simpa [State.summary] using this

theorem ufsFreeInode_kept (i mode : Nat) : Keeps I (ufsFreeInode env fs i mode) := by
  simp only [ufsFreeInode]
  split
  · exact .halt
  · refine .bind (blkreadCg_kept kept _) fun r => ?_
    cases r with
    | none => exact .pure _
    | some cgp =>
        exact .ite (fun _ => .pure _) fun _ => .bind (.modify fun s h => kept.clock s s.tick _ h) fun _ =>
          .bind (.modify fun s h => kept.summary s _ _ h) fun _ =>
            .bind (blkwriteCg_kept kept _ _) fun _ => .ite (fun _ => .pure _) fun _ => .pure _

end Alloc

/-! ## Block maps and truncation -/

section File

variable (kept : KeptByMap ino I)

omit kept in
theorem vnode2inode_kept (i : Nat) : Keeps I (vnode2inode i) := by
  refine .bind .get fun s => ?_
  cases s.vnodes i with
  | none => exact .halt
  | some v => exact .pure _

omit kept in
theorem updateInode_keeps {change : Inode → Inode}
    (step : ∀ s v, s.vnodes ino = some v → I s → I (s.setVnode ino { v with inode := change v.inode })) :
    Keeps I (updateInode ino change) := by
  intro s h
  cases there : s.vnodes ino with
  | none =>
      have run : updateInode ino change s = .halt s := by
        unfold updateInode
        rw [Prog.get_bind_apply, there]
        rfl
      rw [run]
      exact h
  | some v =>
      rw [updateInode_ok there]
      exact step s v there h

omit kept in
theorem updateInode_kept (kept : KeptByFile ino I) (change : Inode → Inode) : Keeps I (updateInode ino change) :=
  updateInode_keeps fun s v there h => kept.inode s v change there h

include kept

theorem updateMap_kept {change : Inode → Inode} (maps : ∀ i, ∃ d b, change i = { i with iDin2 := d, iBlocks := b }) :
    Keeps I (updateInode ino change) := by
  refine updateInode_keeps fun s v there h => ?_
  obtain ⟨d, b, same⟩ := maps v.inode
  rw [same]
  exact kept.map s v d b there h

theorem followPtr_kept (r : Int × Nat) (index : Nat) : Keeps I (followPtr env fs r index) :=
  .ite (fun _ => .pure _) fun _ => .bind (blkread_kept kept.toKeptByGroups _ _ _) fun _ =>
    .ite (fun _ => .pure _) fun _ => .pure _

theorem bmapWalk_kept (din : Dinode) (fbn : Nat) : Keeps I (bmapWalk env fs din fbn) :=
  .ite (fun _ => .pure _) fun _ => .ite (fun _ => followPtr_kept kept _ _) fun _ => .ite
    (fun _ => .bind (followPtr_kept kept _ _) fun _ => followPtr_kept kept _ _)
    fun _ => .bind (followPtr_kept kept _ _) fun _ => .bind (followPtr_kept kept _ _) fun _ =>
      followPtr_kept kept _ _

theorem ufsBmap_kept (i fbn : Nat) : Keeps I (ufsBmap env fs i fbn) :=
  .bind (vnode2inode_kept i) fun _ => .bind (bmapWalk_kept kept _ _) fun _ =>
    .ite (fun _ => .halt) fun _ => .pure _

theorem readIndir_kept (bno : Nat) : Keeps I (readIndir env fs bno) :=
  .bind (blkread_kept kept.toKeptByGroups _ _ _) fun _ => .ite (fun _ => .pure _) fun _ => .pure _

theorem writeIndir_kept (ind : Indir) (index blockno : Nat) :
    Keeps I (writeIndir env fs ind index blockno) :=
  .bind (blkwrite_kept kept.toKeptByAlloc _ _ _) fun _ => .ite (fun _ => .pure _) fun _ => .pure _

theorem singleIndir_kept : Keeps I (singleIndir env fs ino) :=
  .bind (vnode2inode_kept ino) fun _ => .ite (fun _ => readIndir_kept kept _) fun _ =>
    .bind (ufsBlockAlloc_kept kept.toKeptByGroups _ _) fun _ => .ite (fun _ => .pure _) fun _ =>
      .bind (updateMap_kept kept fun _ => ⟨_, _, rfl⟩) fun _ => .pure _

theorem doubleIndir_kept : Keeps I (doubleIndir env fs ino) :=
  .bind (vnode2inode_kept ino) fun _ => .ite (fun _ => readIndir_kept kept _) fun _ =>
    .bind (ufsBlockAlloc_kept kept.toKeptByGroups _ _) fun _ => .ite (fun _ => .pure _) fun _ =>
      .bind (blkwrite_kept kept.toKeptByAlloc _ _ _) fun _ => .ite (fun _ => .pure _) fun _ =>
        .bind (updateMap_kept kept fun _ => ⟨_, _, rfl⟩) fun _ => .pure _

theorem middleIndir_kept (top : Indir) (index : Nat) : Keeps I (middleIndir env fs ino top index) :=
  .ite (fun _ => readIndir_kept kept _) fun _ => .bind (vnode2inode_kept ino) fun _ =>
    .bind (ufsBlockAlloc_kept kept.toKeptByGroups _ _) fun _ => .ite (fun _ => .pure _) fun _ =>
      .bind (writeIndir_kept kept _ _ _) fun _ => .ite (fun _ => .pure _) fun _ =>
        .bind (blkwrite_kept kept.toKeptByAlloc _ _ _) fun _ => .ite (fun _ => .pure _) fun _ => .pure _

theorem ufsSetBlock_kept (fbn blockno : Nat) : Keeps I (ufsSetBlock env fs ino fbn blockno) :=
  .ite (fun _ => .bind (updateMap_kept kept fun _ => ⟨_, _, rfl⟩) fun _ => .pure _) fun _ => .ite
    (fun _ => .bind (singleIndir_kept kept) fun _ => .ite (fun _ => .pure _)
      fun _ => writeIndir_kept kept _ _ _)
    fun _ => .ite
      (fun _ => .bind (doubleIndir_kept kept) fun _ => .ite (fun _ => .pure _) fun _ =>
        .bind (middleIndir_kept kept _ _) fun _ => .ite (fun _ => .pure _)
          fun _ => writeIndir_kept kept _ _ _)
      fun _ => .halt

theorem clearAt_kept (bno : Nat) (buf : Buf) (index : Nat) :
    Keeps I (ufsClearIndirect.clearAt env fs bno buf index) :=
  .bind (blkread_kept kept.toKeptByGroups _ _ _) fun _ => .ite (fun _ => .pure _) fun _ => .ite
    (fun _ => .bind (ufsBlockFree_kept kept.toKeptByGroups _ _) fun _ =>
      .bind (blkwrite_kept kept.toKeptByAlloc _ _ _) fun _ => .pure _)
    fun _ => .pure _

theorem ufsClearIndirect_kept (fbn : Nat) : Keeps I (ufsClearIndirect env fs ino fbn) :=
  .ite (fun _ => .pure _) fun _ => .bind (vnode2inode_kept ino) fun _ => .ite (fun _ => .pure _) fun _ =>
    .ite (fun _ => clearAt_kept kept _ _ _) fun _ => .bind (blkread_kept kept.toKeptByGroups _ _ _) fun _ =>
      .ite (fun _ => .pure _) fun _ => .ite (fun _ => .pure _) fun _ => clearAt_kept kept _ _ _

theorem truncateBlock_kept (i : Int) (blkno size : Nat) :
    Keeps I (truncateBlock env fs ino i blkno size) :=
  .bind (ufsBlockFree_kept kept.toKeptByGroups _ _) fun _ => ufsSetBlock_kept kept _ _

theorem truncatePartial_kept (i : Int) (blkno size iSize : Nat) (newsize : Int) :
    Keeps I (truncatePartial env fs ino i blkno size iSize newsize) :=
  .bind (.bind (blkread_kept kept.toKeptByGroups _ _ _) fun _ => .pure _) fun _ =>
    .bind (ufsBlockFree_kept kept.toKeptByGroups _ _) fun _ => .bind (vnode2inode_kept ino) fun _ =>
      .bind (ufsBlockAlloc_kept kept.toKeptByGroups _ _) fun _ => .ite (fun _ => .pure _) fun _ =>
        .bind (ufsSetBlock_kept kept _ _) fun _ => .ite (fun _ => .pure _) fun _ =>
          .bind (blkwrite_kept kept.toKeptByAlloc _ _ _) fun _ => .pure _

theorem truncateData_kept (iSize : Nat) (newsize oldFbn newFbn : Int) : ∀ left i,
    Keeps I (truncateData env fs ino iSize newsize oldFbn newFbn left i)
  | 0, _ => .pure _
  | left + 1, i => by
      have again := truncateData_kept iSize newsize oldFbn newFbn left (i - 1)
      refine .ite (fun _ => .pure _) fun _ => .bind (ufsBmap_kept kept _ _) fun r =>
        .ite (fun _ => .pure _) fun _ => .ite (fun _ => ?_) fun _ => ?_
      · refine .ite (fun _ => .pure _) fun _ => .bind ?_ fun _ => .ite (fun _ => .pure _) fun _ => again
        exact .ite (fun _ => .pure _) fun _ => .ite (fun _ => truncateBlock_kept kept _ _ _)
          fun _ => truncatePartial_kept kept _ _ _ _ _
      · refine .bind ?_ fun _ => .ite (fun _ => .pure _) fun _ => again
        exact .ite (fun _ => .pure _) fun _ => truncateBlock_kept kept _ _ _

theorem freeIb_kept (k : Nat) : Keeps I (freeIb env fs ino k) :=
  .bind (vnode2inode_kept ino) fun _ => .ite
    (fun _ => .bind (ufsBlockFree_kept kept.toKeptByGroups _ _) fun _ => updateMap_kept kept fun _ => ⟨_, _, rfl⟩)
    fun _ => updateMap_kept kept fun _ => ⟨_, _, rfl⟩

theorem truncateIndirAt_kept (i : Nat) : Keeps I (truncateIndirAt env fs ino i) :=
  .bind (.ite (fun _ => .bind (ufsClearIndirect_kept kept _) fun _ => .pure _) fun _ => .pure _)
    fun _ => .ite (fun _ => freeIb_kept kept _) fun _ => .ite (fun _ => freeIb_kept kept _) fun _ =>
      .ite (fun _ => freeIb_kept kept _) fun _ => .pure _

theorem truncateIndir_kept (newFbn : Int) : ∀ left i, Keeps I (truncateIndir env fs ino newFbn left i)
  | 0, _ => .pure _
  | left + 1, _ => .ite
      (fun _ => .ite
        (fun _ => .bind (truncateIndirAt_kept kept _) fun _ => truncateIndir_kept newFbn left _)
        fun _ => .pure _)
      fun _ => .pure _

end File

/-! ## Inodes -/

section Store

variable (kept : KeptByStore ino I)

include kept

theorem loadInoblock_kept (i : Nat) : Keeps I (loadInoblock env fs i) := by
  intro s h
  obtain ⟨t, b, lo, hi, run⟩ := loadInoblock_total env fs i s
  rw [run]
  exact kept.clock _ t s.log (kept.cache s b lo hi h)

theorem tryWriteIno_kept : Keeps I (tryWriteIno env) := fun s h => kept.clock s _ _ h

theorem writeInoblock_kept (i : Nat) : Keeps I (writeInoblock env fs i) :=
  .bind (tryWriteIno_kept kept) fun _ => .ite
    (fun _ => .bind (.modify fun s h => kept.dinodes s _ h) fun _ => .pure _) fun _ => .pure _

theorem ufsWriteInode_kept : Keeps I (ufsWriteInode env fs ino) :=
  .bind (loadInoblock_kept kept ino) fun _ => .bind (updateMap_kept kept.toKeptByMap fun _ => ⟨_, _, rfl⟩) fun _ =>
    .bind (vnode2inode_kept ino) fun _ =>
      .bind (.modify fun s h => kept.cache s _ s.dInomin s.dInomax h) fun _ =>
        .bind (writeInoblock_kept kept ino) fun _ => .ite (fun _ => .pure _) fun _ => .pure _

theorem ufsTruncate_kept (newsize : Int) : Keeps I (ufsTruncate env fs ino newsize) := by
  refine .bind (vnode2inode_kept ino) fun _ => .bind (truncateData_kept kept.toKeptByMap _ _ _ _ _ _)
    fun r => ?_
  cases r with
  | some rc => exact .pure _
  | none => exact .bind (truncateIndir_kept kept.toKeptByMap _ _ _) fun _ => ufsWriteInode_kept kept

end Store

section Inodes

variable (kept : KeptByInode ino I)

include kept

theorem initInodes_kept (cgp : Cg) (ipref : Nat) : Keeps I (initInodes env fs cgp ipref) :=
  .ite (fun _ => .bind (fun s h => kept.clock s (s.tick + 1) s.log h) fun _ => .bind .get fun _ =>
    .ite (fun _ => .pure _) fun _ => .pure _) fun _ => .pure _

theorem writeInodes_kept (first : Nat) (ibp : Option (Nat → Dinode)) :
    Keeps I (writeInodes env fs first ibp) := by
  cases ibp with
  | none => exact .pure _
  | some ibp =>
      exact .bind (tryWriteIno_kept kept.toStore) fun _ => .ite
        (fun _ => .bind (.modify fun s h => kept.dinodes s _ h) fun _ => .pure _) fun _ => .pure _

theorem takeInode_kept (mode cg : Nat) (cgp : Cg) (ipref : Nat) :
    Keeps I (takeInode env fs mode cg cgp ipref) :=
  .bind (initInodes_kept kept _ _) fun _ => .ite (fun _ => .pure _) fun _ =>
    .bind (.modify fun s h => kept.summary s _ _ h) fun _ =>
      .bind (blkwriteCg_kept kept.toKeptByGroups _ _) fun _ => .ite (fun _ => .pure _) fun _ =>
        .bind (writeInodes_kept kept _ _) fun _ => .ite (fun _ => .pure _) fun _ => .pure _

theorem ufsInodeAlloc_kept (mode cg ipref : Nat) : Keeps I (ufsInodeAlloc env fs mode cg ipref) := by
  refine .bind .get fun _ => .ite (fun _ => .pure _) fun _ =>
    .bind (blkreadCg_kept kept.toKeptByGroups _) fun r => ?_
  cases r with
  | none => exact .pure _
  | some cgp =>
      refine .ite (fun _ => .pure _) fun _ => .ite (fun _ => .halt) fun _ => ?_
      cases pickInode fs { cgp with cgTime := env.now } ipref with
      | none => exact .halt
      | some found => exact .bind (takeInode_kept kept _ _ _ _) fun _ => .pure _

end Inodes

/-! ## Properties that no vnode matters to -/

/-- Nothing that any of the routines changes can break the property. -/
structure KeptByAll (I : State → Prop) : Prop extends KeptByAlloc I where
  cache : ∀ s b lo hi, I s → I { s with dInoblock := b, dInomin := lo, dInomax := hi }
  dinodes : ∀ s d, I s → I { s with dinodes := d }
  vnodes : ∀ s m, I s → I { s with vnodes := m }
  contigdirs : ∀ s c, I s → I { s with fsContigdirs := c }

theorem KeptByAll.toInode (kept : KeptByAll I) (ino : Nat) : KeptByInode ino I where
  toKeptByAlloc := kept.toKeptByAlloc
  inode s _ _ _ h := kept.vnodes s _ h
  cache := kept.cache
  dinodes := kept.dinodes

section All

variable (kept : KeptByAll I)

include kept

theorem vnodeGet_kept (i : Nat) : Keeps I (vnodeGet env fs i) := by
  intro s h
  obtain ⟨v, t, l, b, lo, hi, run, -, -⟩ := vnodeGet_total env fs i s
  rw [run]
  exact kept.clock _ t l (kept.vnodes _ _ (kept.cache s b lo hi h))

theorem ufsValloc_kept (parent mode : Nat) : Keeps I (ufsValloc env fs parent mode) := by
  refine .bind (vnode2inode_kept parent) fun _ => .bind .get fun _ => .ite (fun _ => .pure _) fun _ =>
    .bind (.modify fun s h => kept.contigdirs s _ h) fun _ =>
      .bind (ufsHashalloc_kept (ufsInodeAlloc_kept (kept.toInode 0) mode) _ _) fun i =>
        .ite (fun _ => .pure _) fun _ => ?_
  exact .bind (vnodeGet_kept kept i) fun _ => .bind .get fun _ =>
    .bind (updateInode_kept (kept.toInode i).toKeptByFile _) fun _ =>
      .bind (vnode2inode_kept i) fun _ => .bind (.modify fun s h => kept.clock s s.tick _ h) fun _ => .pure _

end All

end FuseUfs
