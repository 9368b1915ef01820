import FuseUfs.Effects
import FuseUfs.Flush

/-! # Dropping a vnode

The last `vnode_put` of a vnode writes its inode if it is dirty, or takes the file apart
when no link is left: its blocks go, its inode becomes free and is written as cleared. The
block addresses in the dinode are not among what is cleared.

An inode is written with its whole block, from the copy in memory that `getino` keeps. That
copy is what the device has as long as no transfer of an inode block fails, and then
writing one inode leaves its neighbours alone. After a failed transfer the copy is kept as
it is, and the next inode written from it takes its neighbours along.
-/

namespace FuseUfs

open Lib Prog

section

variable (env : Env) (fs : Superblock)

def ufsClearInode (inode : Inode) : Inode :=
  { inode with
    iSize := 0
    iMtime := 0
    iCtime := 0
    iAtime := 0
    iBlocks := 0
    iEffnlink := 0
    iMode := 0
    iNlink := 0
    iFlags := 0
    iUid := 0
    iGid := 0 }

/-- Take the blocks from a file that is going away, if it is said to have any. -/
def killBlocks (ino : Nat) : M Unit := do
  let inode ← vnode2inode ino
  if inode.iBlocks ≠ 0 then do
    let _ ← ufsTruncate env fs ino 0
    pure ()
  else pure ()

def doKillfilebyinode (ino : Nat) : M Int := do
  let inode ← vnode2inode ino
  Prog.modify fun s => { s with log := .kill ino inode :: s.log }
  updateInode ino fun i => { i with iNlink := 0 }
  killBlocks env fs ino
  let inode ← vnode2inode ino
  let rc ← ufsFreeInode env fs ino inode.iMode
  if rc ≠ 0 then pure (-eio)
  else do
    updateInode ino ufsClearInode
    let rc ← ufsWriteInode env fs ino
    if rc ≠ 0 then pure (-eio) else pure 0

/-- A vnode with one reference less; a dirty one has its dinode brought up to date. -/
def Vnode.dropped (v : Vnode) (dirty : Bool) : Vnode where
  inode := if dirty then copyIncoreToOndisk fs v.inode else v.inode
  count := v.count - 1

/-- What happens to the inode when the last reference goes. -/
def lastPut (ino : Nat) (v : Vnode) (dirty : Bool) : M Int :=
  if v.inode.iNlink < 1 then doKillfilebyinode env fs ino
  else if dirty then ufsWriteInode env fs ino
  else pure 0

def vnodePut (ino : Nat) (dirty : Bool) : M Int := do
  let s ← Prog.get
  match s.vnodes ino with
  | none => Prog.halt
  | some v => do
      Prog.modify fun s => s.setVnode ino (v.dropped fs dirty)
      if v.count - 1 = 0 then do
        let rt ← lastPut env fs ino (v.dropped fs dirty) dirty
        Prog.modify fun s => { s with vnodes := Function.update s.vnodes ino none }
        pure rt
      else if dirty then ufsWriteInode env fs ino
      else pure 0

end

/-! ## The other inodes of a block -/

section Frame

variable {env : Env} {fs : Superblock} {ino : Nat} {d : Nat → Dinode}

/-- The copy of the inode block is good, and on the device all inodes but `ino` are as in `d`. -/
structure Neighbours (fs : Superblock) (ino : Nat) (d : Nat → Dinode) (s : State) : Prop where
  cache : InoCache fs s
  same : ∀ i, i ≠ ino → s.dinodes i = d i

theorem neighbours_keptByFile : KeptByFile ino (Neighbours fs ino d) where
  clock _ _ _ h := ⟨⟨h.cache.aligned, h.cache.same⟩, h.same⟩
  groups _ _ h := ⟨⟨h.cache.aligned, h.cache.same⟩, h.same⟩
  summary _ _ _ h := ⟨⟨h.cache.aligned, h.cache.same⟩, h.same⟩
  clusters _ _ h := ⟨⟨h.cache.aligned, h.cache.same⟩, h.same⟩
  data _ _ h := ⟨⟨h.cache.aligned, h.cache.same⟩, h.same⟩
  inode _ _ _ _ h := ⟨⟨h.cache.aligned, h.cache.same⟩, h.same⟩

theorem setVnodes_neighbours {s : State} (m : Nat → Option Vnode) (h : Neighbours fs ino d s) :
    Neighbours fs ino d { s with vnodes := m } :=
  ⟨⟨h.cache.aligned, h.cache.same⟩, h.same⟩

theorem loadInoblock_neighbours (io : env.InoOk) (i : Nat) :
    Keeps (Neighbours fs ino d) (loadInoblock env fs i) := by
  intro s h
  obtain ⟨s', run, cache, -, -, frame⟩ := loadInoblock_ok io h.cache i
  rw [run]
  refine ⟨cache, fun j other => ?_⟩
  rw [frame]
  exact h.same j other

theorem ufsWriteInode_neighbours (io : env.InoOk) :
    Keeps (Neighbours fs ino d) (ufsWriteInode env fs ino) := by
  intro s h
  cases there : s.vnodes ino with
  | some v =>
      obtain ⟨s', run, written⟩ := ufsWriteInode_ok io h.cache there
      rw [run]
      refine ⟨written.cache, fun i other => ?_⟩
      rw [Outcome.final_done, written.dinodes, Function.update_of_ne other]
      exact h.same i other
  | none =>
      -- a wild pointer: the block may have been loaded before the process is gone
      obtain ⟨t, load, cached, -, -, frame⟩ := loadInoblock_ok io h.cache ino
      have gone : t.vnodes ino = none := by rw [frame]; exact there
      have stop : updateInode ino (copyIncoreToOndisk fs) t = .halt t := by
        unfold updateInode
        rw [Prog.get_bind_apply, gone]
        rfl
      have run : ufsWriteInode env fs ino s = .halt t := by
        unfold ufsWriteInode
        rw [Prog.bind_of_done load, Prog.bind_apply, stop]
      rw [run]
      refine ⟨cached, fun i other => ?_⟩
      rw [Outcome.final_halt, frame]
      exact h.same i other

theorem ufsTruncate_neighbours (io : env.InoOk) (newsize : Int) :
    Keeps (Neighbours fs ino d) (ufsTruncate env fs ino newsize) := by
  have kept : KeptByFile ino (Neighbours fs ino d) := neighbours_keptByFile
  refine .bind (vnode2inode_kept ino) fun _ => .bind (truncateData_kept kept.toMap _ _ _ _ _ _) fun r => ?_
  cases r with
  | some rc => exact .pure _
  | none => exact .bind (truncateIndir_kept kept.toMap _ _ _) fun _ => ufsWriteInode_neighbours io

theorem doKillfilebyinode_neighbours (io : env.InoOk) :
    Keeps (Neighbours fs ino d) (doKillfilebyinode env fs ino) := by
  have kept : KeptByFile ino (Neighbours fs ino d) := neighbours_keptByFile
  have blocks : Keeps (Neighbours fs ino d) (killBlocks env fs ino) :=
    .bind (vnode2inode_kept ino) fun _ => .ite
      (fun _ => .bind (ufsTruncate_neighbours io 0) fun _ => .pure _) fun _ => .pure _
  exact .bind (vnode2inode_kept ino) fun _ => .bind (.modify fun s h => kept.clock s s.tick _ h) fun _ =>
    .bind (updateInode_kept kept _) fun _ => .bind blocks fun _ => .bind (vnode2inode_kept ino) fun _ =>
      .bind (ufsFreeInode_kept kept.toKeptByGroups _ _) fun _ => .ite (fun _ => .pure _) fun _ =>
        .bind (updateInode_kept kept _) fun _ => .bind (ufsWriteInode_neighbours io) fun _ =>
          .ite (fun _ => .pure _) fun _ => .pure _

theorem vnodePut_neighbours (io : env.InoOk) (dirty : Bool) :
    Keeps (Neighbours fs ino d) (vnodePut env fs ino dirty) := by
  refine .bind .get fun s => ?_
  cases s.vnodes ino with
  | none => exact .halt
  | some v =>
      have last : Keeps (Neighbours fs ino d) (lastPut env fs ino (v.dropped fs dirty) dirty) :=
        .ite (fun _ => doKillfilebyinode_neighbours io) fun _ => .ite
          (fun _ => ufsWriteInode_neighbours io) fun _ => .pure _
      exact .bind (.modify fun t h => setVnodes_neighbours _ h) fun _ => .ite
        (fun _ => .bind last fun _ => .bind (.modify fun t h => setVnodes_neighbours _ h) fun _ => .pure _)
        fun _ => .ite (fun _ => ufsWriteInode_neighbours io) fun _ => .pure _

theorem vnodeGet_neighbours (io : env.InoOk) (i : Nat) :
    Keeps (Neighbours fs ino d) (vnodeGet env fs i) := by
  refine .bind .get fun s => .bind (.modify fun t h => neighbours_keptByFile.clock t t.tick _ h) fun _ => ?_
  cases s.vnodes i with
  | some v => exact .modify fun t h => setVnodes_neighbours _ h
  | none =>
      refine .bind ?_ fun _ => .modify fun t h => setVnodes_neighbours _ h
      exact .ite (fun _ => .bind (loadInoblock_neighbours io i) fun _ => .bind .get fun _ => .pure _)
        fun _ => .pure _

end Frame

/-! ## Runs -/

variable {fs : Superblock} {s₀ s : State}

/-- States reached by `vnode_get`, `vnode_put` and `ufs_write_inode`, each with a device of its
    own. Between the calls the inodes in core may change, and anything else but the inodes of
    the device and the copy of the inode block. -/
inductive InodeRun (fs : Superblock) (Device : Env → Prop) (s₀ : State) : State → Prop
  | start : InodeRun fs Device s₀ s₀
  | get {s s' : State} {env : Env} {ino : Nat} (run : InodeRun fs Device s₀ s) (device : Device env)
      (call : vnodeGet env fs ino s = .done () s') : InodeRun fs Device s₀ s'
  | put {s s' : State} {env : Env} {ino : Nat} {dirty : Bool} {rc : Int}
      (run : InodeRun fs Device s₀ s) (device : Device env)
      (call : vnodePut env fs ino dirty s = .done rc s') : InodeRun fs Device s₀ s'
  | write {s s' : State} {env : Env} {ino : Nat} {rc : Int} (run : InodeRun fs Device s₀ s)
      (device : Device env) (call : ufsWriteInode env fs ino s = .done rc s') :
      InodeRun fs Device s₀ s'
  | other {s s' : State} (run : InodeRun fs Device s₀ s) (dinodes : s'.dinodes = s.dinodes)
      (block : s'.dInoblock = s.dInoblock) (low : s'.dInomin = s.dInomin)
      (high : s'.dInomax = s.dInomax) : InodeRun fs Device s₀ s'

theorem inodeRun_cache (start : InoCache fs s₀) (run : InodeRun fs Env.InoOk s₀ s) : InoCache fs s := by
  induction run with
  | start => exact start
  | get run io call ih =>
      exact (Keeps.after (vnodeGet_neighbours io _) call ⟨ih, fun i (_ : i ≠ 0) => rfl⟩).cache
  | put run io call ih =>
      exact (Keeps.after (vnodePut_neighbours io _) call ⟨ih, fun i _ => rfl⟩).cache
  | write run io call ih =>
      exact (Keeps.after (ufsWriteInode_neighbours io) call ⟨ih, fun i _ => rfl⟩).cache
  | other run dinodes block low high ih =>
      exact ⟨by rw [low, high]; exact ih.aligned, by rw [low, high, block, dinodes]; exact ih.same⟩

/-- The dinode of `ino` is all of the device that may differ. -/
structure OnlyDinode (ino : Nat) (s s' : State) : Prop where
  dinodes : ∀ i, i ≠ ino → s'.dinodes i = s.dinodes i
  cgs : s'.cgs = s.cgs
  data : s'.data = s.data
  csumArea : s'.csumArea = s.csumArea
  superblock : s'.sbCstotal = s.sbCstotal ∧ s'.sbFmod = s.sbFmod

/-- Right after mounting there is no copy of an inode block. -/
theorem InoCache.empty (none : s.dInomax = 0) : InoCache fs s := by
  refine ⟨fun some => ?_, fun i hi => ?_⟩
  · rw [none] at some
    exact absurd some (Nat.not_lt_zero _)
  · rw [none] at hi
    exact absurd hi (Nat.not_lt_zero _)

/-- On the device inode 4 is a regular file. -/
def busyState : State :=
  { smallState with
    dinodes := fun i => if i = 4 then { blankDinode with diMode := ifreg, diNlink := 1 } else blankDinode }

/-- The first read of an inode block fails; everything after it succeeds. -/
def badRead : Env := { calmEnv with inoReadOk := fun t => t != 0 }

end FuseUfs
