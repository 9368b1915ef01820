import FuseUfs.InodeAllocRuns
import FuseUfs.Directory

/-! # The space that is left

`op_statfs` adds up the summaries of the superblock and never looks at a map. Fragments and
inodes are allocated by different routines that share the cylinder groups, the table of
summaries and the total. `SpaceOk` is what the two sides keep together: over a run that mixes
them in any order, the numbers reported are those of the maps, and they move by what is handed
out and given back.
-/

namespace FuseUfs

open Lib BitMap

variable {env : Env} {fs : Superblock}

/-- The fields of the superblock that nothing but `op_statfs` reads. -/
structure SbRest where
  fsDsize : Int
  fsMinfree : Int
  fsPendingblocks : Int
  fsPendinginodes : Int
  fsFsbtodb : Nat

structure Statvfs where
  fBsize : Nat
  fFrsize : Nat
  fBlocks : Nat
  fBfree : Nat
  fBavail : Nat
  fFiles : Nat
  fFfree : Nat
  fFavail : Nat
  fNamemax : Nat
  deriving DecidableEq

section

variable (fs : Superblock) (rest : SbRest)

/-- Blocks that are being freed, in fragments. -/
def pendingFrags : Int := rest.fsPendingblocks / 2 ^ rest.fsFsbtodb

/-- What is free, less the part of the device that is kept back. -/
def freespace (total : Csum) (percentreserved : Int) : Int :=
  total.csNbfree * 2 ^ fs.fsFragshift + total.csNffree - (rest.fsDsize * percentreserved).tdiv 100

def opStatfs (s : State) : Statvfs :=
  let total := s.fsCstotal
  { fBsize := fs.fsBsize
    fFrsize := fs.fsFsize
    fBlocks := asU64 rest.fsDsize
    fBfree := asU64 (total.csNbfree * 2 ^ fs.fsFragshift + total.csNffree + pendingFrags rest)
    fBavail := asU64 (freespace fs rest total rest.fsMinfree + pendingFrags rest)
    fFiles := asU64 (asInt32 (fs.fsNcg * fs.fsIpg : Nat) - rootino)
    fFfree := asU64 (total.csNifree + rest.fsPendinginodes)
    fFavail := asU64 (total.csNifree + rest.fsPendinginodes)
    fNamemax := maxnamlen }

end

/-! ## Counting the maps -/

/-- How many fragments of the device are free. -/
def freeFragments (fs : Superblock) (s : State) : Nat := bitCount (fs.fsNcg * fs.fsFpg) (s.free fs)

/-- How many inodes are free. -/
def freeInodes (fs : Superblock) (s : State) : Nat :=
  bitCount (fs.fsNcg * fs.fsIpg) fun ino => !s.inoUsed fs ino

theorem whole_add_part (w : Nat) (b : Nat → Bool) : wholeCount w b * w + partCount w b = bitCount w b := by
  unfold wholeCount partCount
  by_cases whole : Whole w b
  · have all : (Finset.range w).filter (fun j => b j = true) = Finset.range w :=
      Finset.filter_true_of_mem fun j mem => whole j (Finset.mem_range.mp mem)
    rw [if_pos whole, if_pos whole, bitCount, all, Finset.card_range, Nat.one_mul, Nat.add_zero]
  · rw [if_neg whole, if_neg whole, Nat.zero_mul, Nat.zero_add]

/-- The two counters of a group add up to its free fragments. -/
theorem Counts.fragments {cgp : Cg} (counts : Counts fs cgp) :
    cgp.cgCs.csNbfree * fs.fsFrag + cgp.cgCs.csNffree = bitCount fs.fsFpg cgp.cgBlksfree.isset := by
  have blocks : fs.fsFpg / fs.fsFrag * fs.fsFrag = fs.fsFpg := Nat.div_mul_cancel fs.frag_dvd_fpg
  have each : wholeBlocks fs cgp.cgBlksfree * fs.fsFrag + looseFrags fs cgp.cgBlksfree
      = bitCount fs.fsFpg cgp.cgBlksfree.isset := by
    rw [← blocks, bitCount_blocks, wholeBlocks, looseFrags, Finset.sum_mul, ← Finset.sum_add_distrib]
    exact Finset.sum_congr rfl fun h _ => whole_add_part fs.fsFrag (cgp.cgBlksfree.block fs.fsFrag h)
  rw [counts.nbfree, counts.nffree, ← each]
  push_cast
  rfl

theorem free_at (s : State) (cg : Nat) {k : Nat} (inside : k < fs.fsFpg) :
    s.free fs (cg * fs.fsFpg + k) = (s.cgs cg).cgBlksfree.isset k := by
  have group : fs.dtog (cg * fs.fsFpg + k) = cg := by
    rw [Superblock.dtog, Nat.mul_comm, Nat.mul_add_div fs.fpg_pos, Nat.div_eq_of_lt inside, Nat.add_zero]
  have place : fs.dtogd (cg * fs.fsFpg + k) = k := by
    rw [Superblock.dtogd, Nat.mul_comm, Nat.mul_add_mod, Nat.mod_eq_of_lt inside]
  rw [State.free, group, place]

theorem AllocOk.fragments {s : State} (ok : AllocOk fs s) :
    s.fsCstotal.csNbfree * 2 ^ fs.fsFragshift + s.fsCstotal.csNffree = freeFragments fs s := by
  have frags : (2 : Int) ^ fs.fsFragshift = fs.fsFrag := by
    rw [fs.frag_eq]
    push_cast
    rfl
  have groups : (freeFragments fs s : Int)
      = ∑ cg ∈ Finset.range fs.fsNcg, ((s.cgs cg).cgCs.csNbfree * fs.fsFrag + (s.cgs cg).cgCs.csNffree) := by
    rw [freeFragments, bitCount_blocks]
    push_cast
    apply Finset.sum_congr rfl
    intro cg mem
    rw [(ok.group cg (Finset.mem_range.mp mem)).fragments, bitCount_congr fun j hj => free_at s cg hj]
  rw [groups, frags, ok.total, Finset.sum_add_distrib, ← Finset.sum_mul]
  rfl

theorem InoCounts.inodes {s : State} (ok : InoCounts fs s) : s.fsCstotal.csNifree = freeInodes fs s := by
  rw [ok.total, freeInodes, bitCount_blocks]
  push_cast
  apply Finset.sum_congr rfl
  intro cg mem
  rw [(ok.group cg (Finset.mem_range.mp mem)).nifree]
  congr 1
  unfold clearInodes bitCount
  congr 1
  apply Finset.filter_congr
  intro k small
  simp [inoUsed_at s (Finset.mem_range.mp small)]

/-! ## The two allocators together -/

/-- What the fragments' side of a group consists of. -/
structure SameBlocks (cgp cgp' : Cg) : Prop where
  magic : cgp'.cgMagic = cgp.cgMagic
  cgx : cgp'.cgCgx = cgp.cgCgx
  rotor : cgp'.cgRotor = cgp.cgRotor
  frotor : cgp'.cgFrotor = cgp.cgFrotor
  blksfree : cgp'.cgBlksfree = cgp.cgBlksfree
  frsum : cgp'.cgFrsum = cgp.cgFrsum
  nbfree : cgp'.cgCs.csNbfree = cgp.cgCs.csNbfree
  nffree : cgp'.cgCs.csNffree = cgp.cgCs.csNffree

theorem SameBlocks.refl (cgp : Cg) : SameBlocks cgp cgp := ⟨rfl, rfl, rfl, rfl, rfl, rfl, rfl, rfl⟩

theorem SameBlocks.cgOk {cg : Nat} {cgp cgp' : Cg} (same : SameBlocks cgp cgp') (ok : CgOk fs cg cgp) :
    CgOk fs cg cgp' where
  nbfree := by rw [same.nbfree, same.blksfree, ok.nbfree]
  nffree := by rw [same.nffree, same.blksfree, ok.nffree]
  frsum k pos less := by rw [same.frsum, same.blksfree, ok.frsum k pos less]
  magic := by
    rw [Cg.chkmagic, same.magic]
    exact ok.magic
  cgx := same.cgx.trans ok.cgx
  rotor := same.rotor.trans_lt ok.rotor
  frotor := same.frotor.trans_lt ok.frotor
  padding i high := by rw [same.blksfree, ok.padding i high]

/-- One group is written with another inode map. -/
theorem sameBlocks_update (cgs : Nat → Cg) (cg : Nat) {cgp : Cg} (same : SameBlocks (cgs cg) cgp) (c : Nat) :
    SameBlocks (cgs c) (Function.update cgs cg cgp c) := by
  by_cases here : c = cg
  · rw [here, Function.update_self]
    exact same
  · rw [Function.update_of_ne here]
    exact .refl _

/-- A bit of an inode map moves, and the summaries with it. -/
theorem AllocOk.inodeMoved {s s' : State} {cg k : Nat} {bit : Bool} {change : Csum → Csum} (ok : AllocOk fs s)
    (inside : cg < fs.fsNcg) (moved : InodeMoved fs s s' cg k bit change) (adds : ∃ d, ∀ cs, change cs = cs + d)
    (same : ∀ c, SameBlocks (s.cgs c) (s'.cgs c)) : AllocOk fs s' := by
  obtain ⟨cgp, cgs, -, counters, -⟩ := moved.group
  obtain ⟨d, adds⟩ := adds
  refine ⟨fun c hc => (same c).cgOk (ok.group c hc), fun c hc => ?_, ?_⟩
  · rw [cgs, moved.own]
    by_cases here : c = cg
    · rw [here, Function.update_self, Function.update_self, counters, ok.cs cg inside]
    · rw [Function.update_of_ne here, Function.update_of_ne here, ok.cs c hc]
  · have sum := csumTotal_update inside s.cgs cgp
    rw [counters, adds] at sum
    rw [moved.total, adds, ok.total, cgs]
    simp only [Csum.ext_iff, Csum.csNdir_add, Csum.csNbfree_add, Csum.csNifree_add, Csum.csNffree_add] at *
    omega

/-- Both sides of the mount are in order; neither allocator ever takes number 0. -/
structure SpaceOk (fs : Superblock) (s : State) : Prop where
  blocks : AllocOk fs s
  inodes : InoCounts fs s
  boot : s.free fs 0 = false
  zero : s.inoUsed fs 0 = true

theorem SameMaps.blocks {s s' : State} (same : SameMaps s s') (ok : AllocOk fs s) : AllocOk fs s' := by
  refine ⟨?_, ?_, ?_⟩
  · rw [same.cgs]
    exact ok.group
  · rw [same.cgs, same.csp]
    exact ok.cs
  · rw [same.cgs, same.total]
    exact ok.total

theorem SameMaps.free {s s' : State} (same : SameMaps s s') (x : Nat) : s'.free fs x = s.free fs x := by
  rw [State.free, State.free, same.cgs]

theorem SpaceOk.same {s s' : State} (ok : SpaceOk fs s) (same : SameMaps s s') : SpaceOk fs s' where
  blocks := same.blocks ok.blocks
  inodes := same.counts ok.inodes
  boot := (same.free 0).trans ok.boot
  zero := (same.used 0).trans ok.zero

/-- The inodes' side survives a change of the fragments' side. -/
theorem InoCounts.mapStep {s s' : State} {change : Nat → Bool → Bool} (ok : InoCounts fs s)
    (step : MapStep fs s s' change) (after : AllocOk fs s') : InoCounts fs s' where
  group cg inside := by
    have frame := step.groups cg
    have old := ok.group cg inside
    refine ⟨?_, ?_, ?_⟩
    · rw [Cg.chkmagic, frame.magic]
      exact old.magic
    · rw [frame.nifree, frame.inosused, old.nifree]
    · rw [frame.irotor]
      exact old.irotor
  cs cg inside := by rw [after.cs cg inside]
  total := by rw [after.total]; rfl

theorem MapStep.inoUsed {s s' : State} {change : Nat → Bool → Bool} (step : MapStep fs s s' change) (ino : Nat) :
    s'.inoUsed fs ino = s.inoUsed fs ino := by
  rw [State.inoUsed, State.inoUsed, (step.groups _).inosused]

/-- A fragment has the same bit when its group has the same map. -/
theorem free_congr {s s' : State} (same : ∀ c, SameBlocks (s.cgs c) (s'.cgs c)) (x : Nat) :
    s'.free fs x = s.free fs x := by
  rw [State.free, State.free, (same _).blksfree]

theorem takeInode_adds (mode : Nat) : ∃ d, ∀ cs : Csum, cs.takeInode mode = cs + d := by
  refine ⟨⟨if iftodt mode = dtDir then 1 else 0, 0, -1, 0⟩, fun cs => ?_⟩
  ext
  · simp only [Csum.takeInode, Csum.csNdir_add]
    split <;> omega
  all_goals simp [Csum.takeInode]
  omega

theorem giveInode_adds (mode : Nat) : ∃ d, ∀ cs : Csum, cs.giveInode mode = cs + d := by
  refine ⟨⟨if iftodt mode = ifdir then -1 else 0, 0, 1, 0⟩, fun cs => ?_⟩
  ext
  · simp only [Csum.giveInode, Csum.csNdir_add]
    split <;> omega
  all_goals simp [Csum.giveInode]

/-- Freeing an inode writes a group that differs in the inode map only. -/
theorem ufsFreeInode_sameBlocks (io : env.IoOk) {s s' : State} {ino mode : Nat} {rc : Int}
    (call : ufsFreeInode env fs ino mode s = .done rc s') (c : Nat) : SameBlocks (s.cgs c) (s'.cgs c) := by
  unfold ufsFreeInode at call
  simp only at call
  split at call
  · cases call
  · rw [Prog.bind_of_done (blkreadCg_ok io s)] at call
    simp only at call
    split at call
    · cases call
      exact .refl _
    · simp only [Prog.modify_bind_apply] at call
      rw [Prog.bind_of_done (blkwriteCg_ok io _ _), if_neg (by decide)] at call
      cases call
      refine sameBlocks_update s.cgs (fs.inoToCg ino) ?_ c
      exact ⟨rfl, rfl, rfl, rfl, rfl, rfl, rfl, rfl⟩

theorem takeInode_sameBlocks (io : env.IoOk) {s s' : State} {mode cg k : Nat} {cgp : Cg} {rc : Int}
    (same : SameBlocks (s.cgs cg) cgp) (call : takeInode env fs mode cg cgp k s = .done rc s') (c : Nat) :
    SameBlocks (s.cgs c) (s'.cgs c) := by
  obtain ⟨init, ibp, t, prepared⟩ := initInodes_ok fs io cgp k s
  unfold takeInode at call
  rw [Prog.bind_of_done prepared] at call
  simp only [ne_eq, not_true_eq_false, if_false, Prog.modify_bind_apply] at call
  rw [Prog.bind_of_done (blkwriteCg_ok io _ _), if_neg (by decide)] at call
  obtain ⟨done, u, ran, ended⟩ := Prog.bind_eq_done.mp call
  obtain ⟨t', l, d, wrote⟩ := writeInodes_ok fs io (cg * fs.fsIpg + init) ibp
    { (s.atTick t).summary cg (·.takeInode mode) with
      tick := t + 1, log := .bwrite :: s.log
      cgs := Function.update s.cgs cg { cgp with
        cgInitediblk := init, cgInosused := cgp.cgInosused.setbit k, cgCs := cgp.cgCs.takeInode mode } }
  obtain ⟨zero, final⟩ := Outcome.done.inj (ran.symm.trans wrote)
  rw [zero, if_neg (by decide)] at ended
  obtain ⟨-, same'⟩ := Prog.pure_eq_done.mp ended
  rw [← same', final]
  refine sameBlocks_update s.cgs cg ?_ c
  exact ⟨same.magic, same.cgx, same.rotor, same.frotor, same.blksfree, same.frsum, same.nbfree, same.nffree⟩

theorem pickInode_sameBlocks {cgp cgp' : Cg} {ipref k : Nat} (found : pickInode fs cgp ipref = some (k, cgp')) :
    SameBlocks cgp cgp' := by
  unfold pickInode at found
  split at found
  · cases found
    exact .refl _
  · obtain ⟨i, -, found⟩ := Option.bind_eq_some_iff.mp found
    obtain ⟨j, -, found⟩ := Option.bind_eq_some_iff.mp found
    cases found
    exact ⟨rfl, rfl, rfl, rfl, rfl, rfl, rfl, rfl⟩

theorem ufsInodeAlloc_sameBlocks (io : env.IoOk) {s s' : State} {mode cg ipref r : Nat}
    (call : ufsInodeAlloc env fs mode cg ipref s = .done r s') (c : Nat) : SameBlocks (s.cgs c) (s'.cgs c) := by
  unfold ufsInodeAlloc at call
  rw [Prog.get_bind_apply] at call
  split at call
  · cases call
    exact .refl _
  · rw [Prog.bind_of_done (blkreadCg_ok io s)] at call
    simp only at call
    split at call
    · cases call
      exact .refl _
    · split at call
      · cases call
      · cases found : pickInode fs { s.cgs cg with cgTime := env.now } ipref with
        | none =>
          rw [found] at call
          cases call
        | some pair =>
          rw [found] at call
          obtain ⟨ret, t, taken, ended⟩ := Prog.bind_eq_done.mp call
          cases ended
          have stamped : SameBlocks _ pair.2 := pickInode_sameBlocks found
          exact takeInode_sameBlocks (s := { s with tick := s.tick + 1 }) io
            ⟨stamped.magic, stamped.cgx, stamped.rotor, stamped.frotor, stamped.blksfree, stamped.frsum,
              stamped.nbfree, stamped.nffree⟩ taken c

/-- A run of fragments inside a block lies on the device. -/
theorem InBlock.end_le {b f : Nat} (run : InBlock fs b f) : b + f ≤ fs.fsNcg * fs.fsFpg := by
  have below := run.below
  have group := run.group
  have parts := Nat.div_add_mod b fs.fsFpg
  have next : (fs.dtog b + 1) * fs.fsFpg ≤ fs.fsNcg * fs.fsFpg := Nat.mul_le_mul_right _ group
  rw [Nat.add_mul, Nat.one_mul, Nat.mul_comm (fs.dtog b)] at next
  unfold Superblock.dtog Superblock.dtogd at *
  omega

theorem freeFragments_congr {s s' : State} (same : ∀ x, s'.free fs x = s.free fs x) :
    freeFragments fs s' = freeFragments fs s := by
  unfold freeFragments
  rw [funext same]

theorem freeInodes_congr {s s' : State} (same : ∀ i, s'.inoUsed fs i = s.inoUsed fs i) :
    freeInodes fs s' = freeInodes fs s := by
  unfold freeInodes
  simp only [same]

/-- Taking a run out of the free map. -/
theorem Allocates.count {s s' : State} {b f : Nat} (took : Allocates fs s s' b f) :
    freeFragments fs s' + f = freeFragments fs s :=
  bitCount_clear took.inBlock.end_le (fun j hj => took.wasFree _ (by omega) (by omega)) fun x _ => took.step.map x

/-- Putting one back. -/
theorem Frees.count {s s' : State} {b f : Nat} (gave : Frees fs s s' b f) (inBlock : InBlock fs b f)
    (used : ∀ x, b ≤ x → x < b + f → s.free fs x = false) : freeFragments fs s' = freeFragments fs s + f :=
  bitCount_set inBlock.end_le (fun j hj => used _ (by omega) (by omega)) fun x _ => gave.map x

/-- Taking an inode out of the free ones. -/
theorem InodeTaken.count {s s' : State} {ino : Nat} (taken : InodeTaken fs s s' ino) :
    freeInodes fs s' + 1 = freeInodes fs s := by
  refine bitCount_clear (q := ino) taken.valid (fun j hj => ?_) fun i _ => ?_
  · obtain rfl : j = 0 := by omega
    rw [Nat.add_zero, taken.wasFree, Bool.not_false]
  · rw [taken.used, Bool.not_or]
    congr 2
    exact decide_eq_decide.mpr (by omega)

/-- Putting one back. -/
theorem InodeReleased.count {s s' : State} {ino : Nat} (released : InodeReleased fs s s' ino)
    (valid : ino < fs.fsNcg * fs.fsIpg) (used : s.inoUsed fs ino = true) :
    freeInodes fs s' = freeInodes fs s + 1 := by
  refine bitCount_set (q := ino) valid (fun j hj => ?_) fun i _ => ?_
  · obtain rfl : j = 0 := by omega
    rw [Nat.add_zero, used, Bool.not_true]
  · rw [released, Bool.not_and, Bool.not_not]
    congr 1
    exact decide_eq_decide.mpr (by omega)

/-- What `ufs_valloc` does with the inode it has found. -/
theorem vallocTail_same {s s' : State} {ino : Nat} {r : Int × Nat}
    (call : (if asInt32 ino ≤ 0 then pure (-enospc, 0)
      else do
        vnodeGet env fs ino
        let s ← Prog.get
        updateInode ino (renewInode env s.tick)
        let ip ← vnode2inode ino
        Prog.modify fun s => { s with log := .valloc ino ip.iDin2 :: s.log }
        pure (0, ino) : M (Int × Nat)) s = .done r s') : SameMaps s s' := by
  split at call
  · cases call
    exact ⟨rfl, rfl, rfl⟩
  · obtain ⟨v, t, l, b, lo, hi, got, -, -⟩ := vnodeGet_total env fs ino s
    rw [Prog.bind_of_done got, Prog.get_bind_apply] at call
    obtain ⟨_, s₁, updated, call⟩ := Prog.bind_eq_done.mp call
    rw [updateInode_ok (Function.update_self ..)] at updated
    cases updated
    obtain ⟨ip, s₂, read, call⟩ := Prog.bind_eq_done.mp call
    rw [vnode2inode_ok (Function.update_self ..)] at read
    cases read
    cases call
    exact ⟨rfl, rfl, rfl⟩

section Steps

variable (io : env.IoOk) {s s' : State} (ok : SpaceOk fs s)

include io ok

theorem ufsBlockAlloc_space {ino size b : Nat} {rc : Int} (valid : fs.ValidIno ino) (frags : fs.FragSize size)
    (call : ufsBlockAlloc env fs ino size s = .done (rc, b) s') :
    SpaceOk fs s' ∧ (freeFragments fs s' + if rc = 0 then size / fs.fsFsize else 0) = freeFragments fs s ∧
      freeInodes fs s' = freeInodes fs s := by
  obtain ⟨r, t, ran, after, result⟩ := alloc_spec ok.blocks ok.boot io valid frags
  rw [call] at ran
  cases ran
  obtain ⟨failed, same⟩ | ⟨done, -, took⟩ := result
  · have error : rc ≠ 0 := by
      rw [show rc = -enospc from failed]
      decide
    have maps : SameMaps s s' := by
      rw [same]
      exact ⟨rfl, rfl, rfl⟩
    rw [if_neg error]
    exact ⟨ok.same maps, freeFragments_congr maps.free, freeInodes_congr maps.used⟩
  · rw [if_pos done]
    refine ⟨⟨after, ok.inodes.mapStep took.step after, ?_, ?_⟩, took.count, freeInodes_congr took.step.inoUsed⟩
    · rw [took.step.map, ok.boot, Bool.false_and]
    · rw [took.step.inoUsed, ok.zero]

theorem ufsBlockFree_space {bno size : Nat} (allowed : FreeAllowed fs notBoot s bno size)
    (onDevice : bno % 2 ^ 32 < fs.fsSize) (call : ufsBlockFree env fs bno size s = .done () s') :
    SpaceOk fs s' ∧ freeFragments fs s' = freeFragments fs s + size / fs.fsFsize ∧
      freeInodes fs s' = freeInodes fs s := by
  obtain ⟨pos, le, same⟩ := allowed.sized.frags
  have used : ∀ x, bno ≤ x → x < bno + size / fs.fsFsize → x ≠ 0 ∧ s.free fs x = false :=
    fun x low high => allowed.used x (Finset.mem_Ico.mpr ⟨low, high⟩)
  obtain ⟨t, ran, after, step⟩ := ufsBlockFree_spec io ok.blocks allowed.inBlock pos fun x low high => (used x low high).2
  rw [same, call] at ran
  cases ran
  rw [if_neg (by omega)] at step
  refine ⟨⟨after, ok.inodes.mapStep step after, ?_, ?_⟩, ?_, freeInodes_congr step.inoUsed⟩
  · have boot : ¬(bno ≤ 0 ∧ 0 < bno + size / fs.fsFsize) := fun both => (used 0 both.1 both.2).1 rfl
    rw [step.map, ok.boot, decide_eq_false boot, Bool.or_false]
  · rw [step.inoUsed, ok.zero]
  · exact Frees.count step allowed.inBlock fun x low high => (used x low high).2

theorem ufsFreeInode_space (fits : fs.fsNcg * fs.fsIpg < 2 ^ 31) {ino mode : Nat} {rc : Int}
    (valid : ino < fs.fsNcg * fs.fsIpg) (real : ino ≠ 0) (used : s.inoUsed fs ino = true)
    (call : ufsFreeInode env fs ino mode s = .done rc s') :
    SpaceOk fs s' ∧ freeFragments fs s' = freeFragments fs s ∧ freeInodes fs s' = freeInodes fs s + 1 := by
  obtain ⟨t, ran, moved⟩ := ufsFreeInode_spec io fits ok.inodes valid used mode
  rw [call] at ran
  cases ran
  have same := ufsFreeInode_sameBlocks io call
  have inside := inoToCg_lt valid
  refine ⟨⟨?_, ?_, ?_, ?_⟩, freeFragments_congr (free_congr same), moved.released.count valid used⟩
  · exact ok.blocks.inodeMoved inside moved (giveInode_adds mode) same
  · exact moved.counts inside ⟨1, giveInode_nifree mode⟩ ok.inodes
  · rw [free_congr same, ok.boot]
  · rw [moved.released, ok.zero, decide_eq_false (Ne.symm real)]
    rfl

/-- The search for an inode leaves the fragments alone. -/
theorem hashalloc_space (fits : fs.fsNcg * fs.fsIpg < 2 ^ 31) {mode cg pref ino : Nat}
    (inside : cg < fs.fsNcg) (positive : pref < 2 ^ 63)
    (call : ufsHashalloc fs cg pref (ufsInodeAlloc env fs mode) s = .done ino s') :
    AllocOk fs s' ∧ ∀ x, s'.free fs x = s.free fs x := by
  have step : ∀ c p, c < fs.fsNcg → p = pref ∨ p = 0 →
      Tries (fun t => t = s) (fun _ t => AllocOk fs t ∧ ∀ x, t.free fs x = s.free fs x)
        (ufsInodeAlloc env fs mode c p) := by
    intro c p hc which t same
    rw [same]
    obtain ⟨-, run⟩ | ⟨-, k, t', run, moved⟩ := ufsInodeAlloc_spec io ok.inodes mode hc (by omega : p < 2 ^ 63)
    · exact ⟨0, s, run, fun _ => rfl, fun h => absurd rfl h⟩
    · have blocks := ufsInodeAlloc_sameBlocks io run
      refine ⟨_, t', run, fun zero => ?_, fun _ => ⟨?_, free_congr blocks⟩⟩
      · have taken := moved.taken hc
        rw [(ino_returned fits taken.valid).1] at zero
        have free := taken.wasFree
        rw [zero, ok.zero] at free
        cases free
      · exact ok.blocks.inodeMoved hc moved (takeInode_adds mode) blocks
  obtain ⟨_, t, run, failed, found⟩ := ufsHashalloc_spec step inside s rfl
  rw [call] at run
  cases run
  by_cases zero : ino = 0
  · rw [failed zero]
    exact ⟨ok.blocks, fun _ => rfl⟩
  · exact found zero

theorem ufsValloc_space (fits : fs.fsNcg * fs.fsIpg < 2 ^ 31) {parent mode : Nat} {pv : Vnode} {rc : Int}
    {ino : Nat} (there : s.vnodes parent = some pv) (call : ufsValloc env fs parent mode s = .done (rc, ino) s') :
    SpaceOk fs s' ∧ freeFragments fs s' = freeFragments fs s ∧
      (freeInodes fs s' + if rc = 0 then 1 else 0) = freeInodes fs s := by
  obtain ⟨r', t, ran, counts, result⟩ := ufsValloc_spec io fits ok.inodes ok.zero there mode
  rw [call] at ran
  cases ran
  have moved : s'.inoUsed fs 0 = true ∧ (freeInodes fs s' + if rc = 0 then 1 else 0) = freeInodes fs s := by
    obtain ⟨done, taken, -⟩ | ⟨failed, -, same⟩ := result
    · rw [if_pos done, taken.used, ok.zero, Bool.true_or]
      exact ⟨rfl, taken.count⟩
    · have error : rc ≠ 0 := by
        rw [show rc = -enospc from failed]
        decide
      rw [if_neg error, same, ok.zero]
      exact ⟨rfl, freeInodes_congr same⟩
  -- the rest of the routine is the vnode's business
  have blocks : AllocOk fs s' ∧ ∀ x, s'.free fs x = s.free fs x := by
    unfold ufsValloc at call
    rw [Prog.bind_of_done (vnode2inode_ok there), Prog.get_bind_apply] at call
    split at call
    · cases call
      exact ⟨ok.blocks, fun _ => rfl⟩
    · have prefValid := vallocPref_lt fits s pv.inode mode
      simp only [(ino_returned fits prefValid).1, countContigdirs, Prog.modify_bind_apply] at call
      obtain ⟨ino, s₂, searched, rest⟩ := Prog.bind_eq_done.mp call
      have counted (dirs : Nat → Nat) : SpaceOk fs { s with fsContigdirs := dirs } := ok.same ⟨rfl, rfl, rfl⟩
      obtain ⟨after, free⟩ := hashalloc_space io (counted _) fits (inoToCg_lt prefValid)
        (by omega : vallocPref fs s pv.inode mode < 2 ^ 63) searched
      have maps : SameMaps s₂ s' := vallocTail_same rest
      exact ⟨maps.blocks after, fun x => (maps.free x).trans (free x)⟩
  exact ⟨⟨blocks.1, counts, (blocks.2 0).trans ok.boot, moved.1⟩, freeFragments_congr blocks.2, moved.2⟩

end Steps

/-! ## Runs -/

/-- States reached by both allocators in any order, with the fragments and the inodes that are
    handed out less those that are given back. Between the calls the process may do anything
    that leaves the groups and the summaries alone. -/
inductive SpaceRun (fs : Superblock) (s₀ : State) : State → (frags inodes : Int) → Prop
  | start : SpaceRun fs s₀ s₀ 0 0
  | alloc {s s' : State} {frags inodes : Int} {env : Env} {ino size b : Nat} {rc : Int}
      (run : SpaceRun fs s₀ s frags inodes) (io : env.IoOk) (valid : fs.ValidIno ino) (sized : fs.FragSize size)
      (call : ufsBlockAlloc env fs ino size s = .done (rc, b) s') :
      SpaceRun fs s₀ s' (frags + if rc = 0 then (size / fs.fsFsize : Nat) else 0) inodes
  | free {s s' : State} {frags inodes : Int} {env : Env} {bno size : Nat}
      (run : SpaceRun fs s₀ s frags inodes) (io : env.IoOk) (allowed : FreeAllowed fs notBoot s bno size)
      (onDevice : bno % 2 ^ 32 < fs.fsSize) (call : ufsBlockFree env fs bno size s = .done () s') :
      SpaceRun fs s₀ s' (frags - (size / fs.fsFsize : Nat)) inodes
  | valloc {s s' : State} {frags inodes : Int} {env : Env} {parent mode ino : Nat} {rc : Int}
      (run : SpaceRun fs s₀ s frags inodes) (io : env.IoOk) (there : (s.vnodes parent).isSome)
      (call : ufsValloc env fs parent mode s = .done (rc, ino) s') :
      SpaceRun fs s₀ s' frags (inodes + if rc = 0 then 1 else 0)
  | freeInode {s s' : State} {frags inodes : Int} {env : Env} {ino mode : Nat} {rc : Int}
      (run : SpaceRun fs s₀ s frags inodes) (io : env.IoOk) (valid : ino < fs.fsNcg * fs.fsIpg) (real : ino ≠ 0)
      (used : s.inoUsed fs ino = true) (call : ufsFreeInode env fs ino mode s = .done rc s') :
      SpaceRun fs s₀ s' frags (inodes - 1)
  | other {s s' : State} {frags inodes : Int} (run : SpaceRun fs s₀ s frags inodes) (same : SameMaps s s') :
      SpaceRun fs s₀ s' frags inodes

/-- At every point of a run both sides are in order, and each has moved by what it handed out. -/
theorem spaceRun_ok (fits : fs.fsNcg * fs.fsIpg < 2 ^ 31) {s₀ s : State} {frags inodes : Int}
    (start : SpaceOk fs s₀) (run : SpaceRun fs s₀ s frags inodes) :
    SpaceOk fs s ∧ freeFragments fs s + frags = freeFragments fs s₀ ∧ freeInodes fs s + inodes = freeInodes fs s₀ := by
  induction run with
  | start => exact ⟨start, by omega, by omega⟩
  | alloc run io valid sized call ih =>
    obtain ⟨ok, fragments, inodes⟩ := ih
    obtain ⟨after, taken, same⟩ := ufsBlockAlloc_space io ok valid sized call
    refine ⟨after, ?_, by omega⟩
    split at taken
    · next done =>
      rw [if_pos done]
      omega
    · next failed =>
      rw [if_neg failed]
      omega
  | free run io allowed onDevice call ih =>
    obtain ⟨ok, fragments, inodes⟩ := ih
    obtain ⟨after, given, same⟩ := ufsBlockFree_space io ok allowed onDevice call
    exact ⟨after, by omega, by omega⟩
  | valloc run io there call ih =>
    obtain ⟨ok, fragments, inodes⟩ := ih
    obtain ⟨pv, there⟩ := Option.isSome_iff_exists.mp there
    obtain ⟨after, same, taken⟩ := ufsValloc_space io ok fits there call
    refine ⟨after, by omega, ?_⟩
    split at taken
    · next done =>
      rw [if_pos done]
      omega
    · next failed =>
      rw [if_neg failed]
      omega
  | freeInode run io valid real used call ih =>
    obtain ⟨ok, fragments, inodes⟩ := ih
    obtain ⟨after, same, given⟩ := ufsFreeInode_space io ok fits valid real used call
    exact ⟨after, by omega, by omega⟩
  | other run same ih =>
    obtain ⟨ok, fragments, inodes⟩ := ih
    rw [freeFragments_congr same.free, freeInodes_congr same.used]
    exact ⟨ok.same same, fragments, inodes⟩

theorem freeFragments_lt (fs : Superblock) (s : State) : freeFragments fs s < 2 ^ 63 := by
  have most : freeFragments fs s ≤ fs.fsNcg * fs.fsFpg := by
    unfold freeFragments bitCount
    exact (Finset.card_filter_le _ _).trans (Finset.card_range _).le
  have two : 2 ≤ fs.fsFsize := by
    rw [fs.fsize_eq]
    have := fs.bshift_range.1
    have := fs.fragshift_le
    have := fs.bshift_eq
    exact Nat.le_self_pow (by omega) 2
  have bytes : fs.fsNcg * fs.fsFpg * 2 ≤ fs.fsNcg * fs.fsFpg * fs.fsFsize := Nat.mul_le_mul_left _ two
  have device := fs.device_fits
  omega

/-- The reserve, in fragments. -/
def SbRest.reserve (rest : SbRest) : Int := (rest.fsDsize * rest.fsMinfree).tdiv 100

/-- What `op_statfs` reports at any point of a run: the counts of the maps, which move by what is
    handed out and given back. The space for ordinary users is the rest above the reserve, and
    with less than the reserve left it wraps around to more than there is. -/
theorem spaceRun_statfs (fits : fs.fsNcg * fs.fsIpg < 2 ^ 31) {s₀ s : State} {frags inodes : Int}
    (start : SpaceOk fs s₀) (run : SpaceRun fs s₀ s frags inodes) (rest : SbRest)
    (blocks : rest.fsPendingblocks = 0) (files : rest.fsPendinginodes = 0)
    (positive : 0 ≤ rest.reserve) (bounded : rest.reserve < 2 ^ 63) :
    (opStatfs fs rest s).fBfree = freeFragments fs s ∧
    (opStatfs fs rest s).fFfree = freeInodes fs s ∧
    (opStatfs fs rest s).fBfree + frags = (opStatfs fs rest s₀).fBfree ∧
    (opStatfs fs rest s).fFfree + inodes = (opStatfs fs rest s₀).fFfree ∧
    (opStatfs fs rest s).fBavail + rest.reserve
      = if rest.reserve ≤ freeFragments fs s then (freeFragments fs s : Int) else freeFragments fs s + 2 ^ 64 := by
  have shown {t : State} (ok : SpaceOk fs t) : (opStatfs fs rest t).fBfree = freeFragments fs t ∧
      (opStatfs fs rest t).fFfree = freeInodes fs t := by
    have few := freeFragments_lt fs t
    have inodesFew : freeInodes fs t < 2 ^ 31 := by
      unfold freeInodes bitCount
      exact ((Finset.card_filter_le _ _).trans (Finset.card_range _).le).trans_lt fits
    simp only [opStatfs, pendingFrags, blocks, files, ok.blocks.fragments, ok.inodes.inodes, Int.zero_ediv,
      Int.add_zero]
    exact ⟨asU64_of_lt (by omega), asU64_of_lt (by omega)⟩
  obtain ⟨ok, fragments, inodesLeft⟩ := spaceRun_ok fits start run
  obtain ⟨bfree, ffree⟩ := shown ok
  obtain ⟨bfree₀, ffree₀⟩ := shown start
  refine ⟨bfree, ffree, by rw [bfree, bfree₀, fragments], by rw [ffree, ffree₀, inodesLeft], ?_⟩
  have few := freeFragments_lt fs s
  have avail : (opStatfs fs rest s).fBavail = asU64 (freeFragments fs s - rest.reserve) := by
    simp only [opStatfs, freespace, pendingFrags, blocks, ok.blocks.fragments, Int.zero_ediv, Int.add_zero]
    rfl
  rw [avail, asU64]
  split <;> omega

/-- A filesystem with a reserve that is larger than what the small mount has left. -/
def tightRest : SbRest :=
  { fsDsize := 10000, fsMinfree := 8, fsPendingblocks := 0, fsPendinginodes := 0, fsFsbtodb := 0 }

theorem smallState_spaceOk : SpaceOk smallFs smallState :=
  ⟨smallState_allocOk, smallState_inoCounts, smallState_boot, by decide⟩

theorem spaceRun_statfs_small : ∃ s, SpaceRun smallFs smallState s 2 0 ∧
    ((opStatfs smallFs tightRest s).fBfree + 2 : Int) = (opStatfs smallFs tightRest smallState).fBfree ∧
    (opStatfs smallFs tightRest s).fBfree < (opStatfs smallFs tightRest s).fBavail := by
  have ran : (ufsBlockAlloc calmEnv smallFs 2 (1024 : Nat) smallState).value? = some (0, 32) := by decide +kernel
  obtain ⟨s, ran⟩ := Outcome.value?_eq_some.mp ran
  have run : SpaceRun smallFs smallState s 2 0 :=
    .alloc .start calmEnv_ioOk (by decide : smallFs.inoToCg 2 < smallFs.fsNcg) ⟨by decide, by decide, by decide⟩ ran
  obtain ⟨free, -, moved, -, avail⟩ :=
    spaceRun_statfs (by decide) smallState_spaceOk run tightRest rfl rfl (by decide) (by decide)
  have before : (opStatfs smallFs tightRest smallState).fBfree = 96 := by decide
  have reserve : tightRest.reserve = 800 := by decide
  refine ⟨s, run, moved, ?_⟩
  rw [if_neg (by omega)] at avail
  omega

end FuseUfs
