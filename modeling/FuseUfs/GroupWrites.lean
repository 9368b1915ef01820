import FuseUfs.AllocInvariant
import FuseUfs.InodeAlloc

/-! # Writing a group back

Four routines change a cylinder group, all in the same way: the group is read into a buffer of
`fs_cgsize` bytes, the buffer and the summaries in memory are changed, and the group is written
back. What they make of the write differs. `ufs_alloccg` does not look at its result and
`ufs_block_free` has nobody to tell; none of them takes the change of the summaries back. And
`ufs_block_free` writes a whole block from its buffer.
-/

namespace FuseUfs

open Lib BitMap Prog

variable {env : Env} {fs : Superblock} {s s' : State}

/-! ## What a routine may change in the group -/

/-- Allocating fragments changes the free map with all that counts it, and the rotors. -/
def AllocUpdates (cgp cgp' : Cg) : Prop :=
  cgp' = { cgp with
    cgTime := cgp'.cgTime
    cgCs := { cgp.cgCs with csNbfree := cgp'.cgCs.csNbfree, csNffree := cgp'.cgCs.csNffree }
    cgRotor := cgp'.cgRotor
    cgFrotor := cgp'.cgFrotor
    cgFrsum := cgp'.cgFrsum
    cgBlksfree := cgp'.cgBlksfree
    cgClustersfree := cgp'.cgClustersfree
    cgClustersum := cgp'.cgClustersum }

/-- Giving fragments back leaves the rotors. -/
def FreeUpdates (cgp cgp' : Cg) : Prop :=
  cgp' = { cgp with
    cgTime := cgp'.cgTime
    cgCs := { cgp.cgCs with csNbfree := cgp'.cgCs.csNbfree, csNffree := cgp'.cgCs.csNffree }
    cgFrsum := cgp'.cgFrsum
    cgBlksfree := cgp'.cgBlksfree
    cgClustersfree := cgp'.cgClustersfree
    cgClustersum := cgp'.cgClustersum }

/-- Taking an inode or giving it back changes the inode map with all that counts it, the rotor
    and how far inodes are laid out. -/
def InodeUpdates (cgp cgp' : Cg) : Prop :=
  cgp' = { cgp with
    cgTime := cgp'.cgTime
    cgCs := { cgp.cgCs with csNdir := cgp'.cgCs.csNdir, csNifree := cgp'.cgCs.csNifree }
    cgIrotor := cgp'.cgIrotor
    cgInitediblk := cgp'.cgInitediblk
    cgInosused := cgp'.cgInosused }

theorem FreeUpdates.alloc {cgp cgp' : Cg} (updates : FreeUpdates cgp cgp') : AllocUpdates cgp cgp' := by
  unfold AllocUpdates
  rw [updates]

theorem AllocUpdates.trans {a b c : Cg} (first : AllocUpdates a b) (second : AllocUpdates b c) :
    AllocUpdates a c := by
  unfold AllocUpdates at *
  rw [second, first]

theorem FreeUpdates.trans {a b c : Cg} (first : FreeUpdates a b) (second : FreeUpdates b c) :
    FreeUpdates a c := by
  unfold FreeUpdates at *
  rw [second, first]

/-! ## What has happened when the group is written -/

/-- A write of a group was tried. -/
def WriteTried (s s' : State) : Prop := ∃ new, s'.log = new ++ s.log ∧ Event.bwrite ∈ new

theorem WriteTried.log (tried : WriteTried s s') : s'.log ≠ s.log := by
  obtain ⟨new, grown, mem⟩ := tried
  intro same
  rw [same] at grown
  obtain rfl := List.self_eq_append_left.mp grown
  cases mem

/-- `cgp'` was written to group `cg` during the call. The summaries in memory are as they were if the
    call is `quiet`, and the total has changed if it is not. -/
structure WritesBack (env : Env) (s : State) (cg : Nat) (cgp' : Cg) (quiet : Prop) (s' : State) : Prop where
  written : ∃ t, s.tick ≤ t ∧ t < s'.tick ∧
    s'.cgs = if env.writeOk t then Function.update s.cgs cg cgp' else s.cgs
  kept : quiet → s'.fsCstotal = s.fsCstotal ∧ s'.fsCsp = s.fsCsp
  moved : ¬ quiet → s'.fsCstotal ≠ s.fsCstotal
  tried : WriteTried s s'

/-- What comes after the write leaves the groups and their summaries alone. -/
theorem WritesBack.later {s₁ : State} {cg : Nat} {cgp' : Cg} {quiet : Prop}
    (back : WritesBack env s cg cgp' quiet s₁) (cgs : s'.cgs = s₁.cgs) (total : s'.fsCstotal = s₁.fsCstotal)
    (csp : s'.fsCsp = s₁.fsCsp) (clock : s₁.tick ≤ s'.tick) (log : ∃ new, s'.log = new ++ s₁.log) :
    WritesBack env s cg cgp' quiet s' := by
  obtain ⟨t, low, high, written⟩ := back.written
  refine ⟨⟨t, low, high.trans_le clock, cgs.trans written⟩, ?_, ?_, ?_⟩
  · rw [total, csp]
    exact back.kept
  · rw [total]
    exact back.moved
  · obtain ⟨new, grown⟩ := log
    obtain ⟨old, grown', mem⟩ := back.tried
    exact ⟨new ++ old, by rw [grown, grown', List.append_assoc], List.mem_append_right new mem⟩

/-- Only the summaries in memory have changed. -/
def SumsOnly (s s₁ : State) : Prop :=
  s₁ = { s with
    fsCstotal := s₁.fsCstotal, fsCsp := s₁.fsCsp, fsMaxcluster := s₁.fsMaxcluster, fsFmod := s₁.fsFmod }

theorem SumsOnly.trans {s₁ s₂ : State} (first : SumsOnly s s₁) (second : SumsOnly s₁ s₂) : SumsOnly s s₂ := by
  unfold SumsOnly at *
  rw [second, first]

/-- No write of the call succeeds. -/
def WritesFail (env : Env) (s s' : State) : Prop := ∀ t, s.tick ≤ t → t < s'.tick → env.writeOk t = false

theorem blkwriteCg_after {s₁ : State} {cg : Nat} {cgp' : Cg} {quiet : Prop} {rc : Int}
    (cgs : s₁.cgs = s.cgs) (clock : s.tick ≤ s₁.tick) (log : ∃ new, s₁.log = new ++ s.log)
    (kept : quiet → s₁.fsCstotal = s.fsCstotal ∧ s₁.fsCsp = s.fsCsp)
    (moved : ¬ quiet → s₁.fsCstotal ≠ s.fsCstotal) (write : blkwriteCg env cg cgp' s₁ = .done rc s') :
    WritesBack env s cg cgp' quiet s' ∧ (WritesFail env s s' → rc = -1) := by
  have tried : ∃ new, Event.bwrite :: s₁.log = new ++ s.log ∧ Event.bwrite ∈ new := by
    obtain ⟨new, grown⟩ := log
    exact ⟨.bwrite :: new, by rw [grown, List.cons_append], List.mem_cons_self⟩
  simp only [blkwriteCg, tryWrite, Prog.bind_apply] at write
  split at write
  · next ok =>
      cases write
      refine ⟨⟨⟨s₁.tick, clock, Nat.lt_succ_self _, ?_⟩, kept, moved, tried⟩, fun fails => ?_⟩
      · rw [if_pos ok, ← cgs]
      · exact Bool.noConfusion (ok.symm.trans (fails s₁.tick clock (Nat.lt_succ_self _)))
  · next ok =>
      cases write
      refine ⟨⟨⟨s₁.tick, clock, Nat.lt_succ_self _, ?_⟩, kept, moved, tried⟩, fun _ => rfl⟩
      rw [if_neg ok, ← cgs]

theorem blkreadCg_eq {s₁ : State} {cg : Nat} {got : Option Cg} (read : blkreadCg env cg s = .done got s₁) :
    got = (if env.readOk s.tick then some (s.cgs cg) else none) ∧ s₁ = s.atTick (s.tick + 1) := by
  simp only [blkreadCg, tryRead, Prog.bind_apply, Prog.get_apply] at read
  split at read
  · next ok =>
      cases read
      exact ⟨(if_pos ok).symm, rfl⟩
  · next bad =>
      cases read
      exact ⟨(if_neg bad).symm, rfl⟩

/-! ## The four routines up to the write -/

theorem clusteracct_sums (fs : Superblock) (cgp : Cg) (blkno : Nat) (cnt : Int) (s : State) :
    ∃ free sum s₁, clusteracct fs cgp blkno cnt s
        = .done { cgp with cgClustersfree := free, cgClustersum := sum } s₁ ∧
      s₁ = { s with fsMaxcluster := s₁.fsMaxcluster } := by
  obtain ⟨free, sum, same⟩ := ffsClusteracct_fst fs cgp blkno cnt
  unfold clusteracct
  cases most : (ffsClusteracct fs cgp blkno cnt).2 with
  | none =>
      refine ⟨free, sum, s, ?_, rfl⟩
      simp only [most]
      rw [← same]
      rfl
  | some n =>
      refine ⟨free, sum, { s with fsMaxcluster := Function.update s.fsMaxcluster cgp.cgCgx n }, ?_, rfl⟩
      simp only [most]
      rw [← same]
      rfl

theorem takeBlock_sums (cgp : Cg) (bno : Nat) (s : State) :
    ∃ r cgp' s₁, takeBlock fs cgp bno s = .done (r, cgp') s₁ ∧ FreeUpdates cgp cgp' ∧ SumsOnly s s₁ ∧
      s₁.fsCstotal = s.fsCstotal.addNbfree (-1) := by
  obtain ⟨free, sum, s₁, run, same⟩ := clusteracct_sums fs
    { cgp with cgBlksfree := ffsClrblock fs cgp.cgBlksfree (fs.fragstoblks bno) } (fs.fragstoblks bno) (-1) s
  unfold takeBlock
  dsimp only
  rw [Prog.bind_of_done run]
  refine ⟨_, _, _, rfl, rfl, ?_, ?_⟩
  · rw [same]
    rfl
  · rw [same]
    rfl

/-- The group has a whole block to take, as far as `ufs_alloccgblk` can see. -/
def FindsBlock (fs : Superblock) (cgp : Cg) (bpref : Nat) : Prop :=
  let foreign := bpref = 0 ∨ fs.dtog bpref ≠ cgp.cgCgx
  ¬ foreign ∧ ffsIsblock fs cgp.cgBlksfree (fs.fragstoblks (fs.dtogd (fs.blknum bpref))) = true ∨
    (ffsMapsearch fs cgp (if foreign then cgp.cgRotor else fs.blknum bpref) fs.fsFrag).1 ≠ none

theorem ufsAlloccgblk_sums (fs : Superblock) (cgp : Cg) (bpref : Nat) (s : State) :
    ∃ r cgp' s₁, ufsAlloccgblk fs cgp bpref s = .done (r, cgp') s₁ ∧ AllocUpdates cgp cgp' ∧ SumsOnly s s₁ ∧
      (FindsBlock fs cgp bpref ∧ s₁.fsCstotal = s.fsCstotal.addNbfree (-1) ∨
        ¬ FindsBlock fs cgp bpref ∧ r = 0 ∧ s₁ = s) := by
  unfold ufsAlloccgblk FindsBlock
  dsimp only
  set foreign := bpref = 0 ∨ fs.dtog bpref ≠ cgp.cgCgx
  by_cases near : ¬ foreign ∧ ffsIsblock fs cgp.cgBlksfree (fs.fragstoblks (fs.dtogd (fs.blknum bpref))) = true
  · rw [if_pos near]
    obtain ⟨r, cgp', s₁, run, updates, sums, total⟩ := takeBlock_sums cgp (fs.dtogd (fs.blknum bpref)) s
    exact ⟨r, cgp', s₁, run, updates.alloc, sums, .inl ⟨.inl near, total⟩⟩
  · rw [if_neg near]
    rcases found : ffsMapsearch fs cgp (if foreign then cgp.cgRotor else fs.blknum bpref) fs.fsFrag with ⟨bno, cgp₁⟩
    have rotor : AllocUpdates cgp cgp₁ := by
      have moved : cgp₁ = (ffsMapsearch fs cgp (if foreign then cgp.cgRotor else fs.blknum bpref) fs.fsFrag).2 := by
        rw [found]
      rw [moved]
      rfl
    cases bno with
    | none => exact ⟨0, cgp₁, s, rfl, rotor, rfl, .inr ⟨fun h => h.elim near (absurd rfl), rfl, rfl⟩⟩
    | some bno =>
        obtain ⟨r, cgp', s₁, run, updates, sums, total⟩ := takeBlock_sums { cgp₁ with cgRotor := bno } bno s
        have moved : AllocUpdates cgp₁ { cgp₁ with cgRotor := bno } := rfl
        exact ⟨r, cgp', s₁, run, (rotor.trans moved).trans updates.alloc, sums, .inl ⟨.inr (by simp), total⟩⟩

theorem splitBlock_sums {s₀ : State} {cg bpref f r : Nat} {cgp : Cg} (cgs : s₀.cgs = s.cgs)
    (clock : s.tick ≤ s₀.tick) (log : s₀.log = s.log)
    (same : s₀.fsCstotal = s.fsCstotal ∧ s₀.fsCsp = s.fsCsp) (le : f ≤ fs.fsFrag)
    (run : splitBlock env fs cg cgp bpref f s₀ = .done r s') :
    ∃ cgp', AllocUpdates cgp cgp' ∧ WritesBack env s cg cgp' (f = fs.fsFrag ∧ ¬ FindsBlock fs cgp bpref) s' ∧
      (¬ FindsBlock fs cgp bpref → r = 0) := by
  obtain ⟨r', cgp₁, s₁, took, updates, sums, counts⟩ := ufsAlloccgblk_sums fs cgp bpref s₀
  unfold splitBlock at run
  rw [Prog.bind_of_done took] at run
  dsimp only at run
  rw [Prog.modify_bind_apply] at run
  obtain ⟨rc, s₂, write, run⟩ := Prog.bind_eq_done.mp run
  obtain ⟨rfl, rfl⟩ := Prog.pure_eq_done.mp run
  refine ⟨_, ?_, (blkwriteCg_after ?_ ?_ ⟨[], ?_⟩ ?_ ?_ write).1, ?_⟩
  · exact updates.trans rfl
  · rw [← cgs, sums]
    rfl
  · rw [sums]
    exact clock
  · rw [List.nil_append, ← log, sums]
    rfl
  · rintro ⟨rfl, none⟩
    rcases counts with ⟨found, -⟩ | ⟨-, -, rfl⟩
    · exact absurd found none
    · simp [State.summary, Csum.addNffree, same.1, same.2]
  · intro loud eq
    rw [← same.1] at eq
    rcases counts with ⟨-, took⟩ | ⟨none, -, rfl⟩
    · have := congrArg Csum.csNbfree eq
      simp [State.summary, took, Csum.addNffree, Csum.addNbfree] at this
    · have := congrArg Csum.csNffree eq
      simp only [State.summary, Csum.addNffree] at this
      exact loud ⟨by omega, none⟩
  · intro none
    rcases counts with ⟨found, -⟩ | ⟨-, zero, -⟩
    · exact absurd found none
    · exact zero

theorem carveRun_sums {s₀ : State} {cg bpref a f r : Nat} {cgp : Cg} (cgs : s₀.cgs = s.cgs)
    (clock : s.tick ≤ s₀.tick) (log : s₀.log = s.log)
    (same : s₀.fsCstotal = s.fsCstotal ∧ s₀.fsCsp = s.fsCsp) (run : carveRun env fs cg cgp bpref a f s₀ = .done r s') :
    r = 0 ∧ s' = s₀ ∨ ∃ bno cgp', (ffsMapsearch fs cgp bpref a).1 = some bno ∧ r = fs.cgbase cg + bno ∧
      AllocUpdates cgp cgp' ∧ WritesBack env s cg cgp' (f = 0) s' := by
  unfold carveRun at run
  rcases found : ffsMapsearch fs cgp bpref a with ⟨bno, cgp₁⟩
  have rotor : AllocUpdates cgp cgp₁ := by
    have moved : cgp₁ = (ffsMapsearch fs cgp bpref a).2 := by rw [found]
    rw [moved]
    rfl
  rw [found] at run
  cases bno with
  | none =>
      obtain ⟨rfl, rfl⟩ := Prog.pure_eq_done.mp run
      exact .inl ⟨rfl, rfl⟩
  | some bno =>
      dsimp only at run
      rw [Prog.modify_bind_apply] at run
      obtain ⟨rc, s₂, write, run⟩ := Prog.bind_eq_done.mp run
      obtain ⟨rfl, rfl⟩ := Prog.pure_eq_done.mp run
      refine .inr ⟨bno, _, rfl, rfl, ?_, (blkwriteCg_after ?_ ?_ ⟨[], ?_⟩ ?_ ?_ write).1⟩
      · exact rotor.trans rfl
      · exact cgs
      · exact clock
      · exact log
      · rintro rfl
        simp [State.summary, Csum.addNffree, same.1, same.2]
      · intro some same'
        have := congrArg Csum.csNffree (same'.trans same.1.symm)
        simp [State.summary, Csum.addNffree] at this
        omega

/-- `ufs_block_free` writes the group without changing a summary: what it gives back is no fragment
    at all, in a block that is not wholly free. -/
def FreeQuiet (fs : Superblock) (cgp : Cg) (bno size : Nat) : Prop :=
  size < fs.fsFsize ∧
    ffsIsblock fs cgp.cgBlksfree (fs.fragstoblks (fs.dtogd bno - fs.fragnum (fs.dtogd bno))) = false

theorem freeBlock_sums (fs : Superblock) (cg : Nat) (cgp : Cg) (cgbno : Nat) (s : State) :
    ∃ cgp' s₁, freeBlock fs cg cgp cgbno s = .done cgp' s₁ ∧ FreeUpdates cgp cgp' ∧ SumsOnly s s₁ ∧
      s₁.fsCstotal = s.fsCstotal.addNbfree 1 := by
  obtain ⟨free, sum, s₁, run, same⟩ := clusteracct_sums fs
    { cgp with cgBlksfree := ffsSetblock fs cgp.cgBlksfree (fs.fragstoblks cgbno) } (fs.fragstoblks cgbno) 1 s
  unfold freeBlock
  rw [Prog.bind_of_done run]
  refine ⟨_, _, rfl, rfl, ?_, ?_⟩
  · rw [same]
    rfl
  · rw [same]
    rfl

theorem freeFrags_sums (fs : Superblock) (cg : Nat) (cgp : Cg) (cgbno f : Nat) (s : State) :
    ∃ cgp' s₁, freeFrags fs cg cgp cgbno f s = .done cgp' s₁ ∧ FreeUpdates cgp cgp' ∧ SumsOnly s s₁ ∧
      if ffsIsblock fs (cgp.cgBlksfree.setbits cgbno f) (fs.fragstoblks (cgbno - fs.fragnum cgbno)) = true
      then s₁.fsCstotal.csNbfree = s.fsCstotal.csNbfree + 1
      else s₁.fsCstotal = s.fsCstotal.addNffree f ∧
        s₁.fsCsp = Function.update s.fsCsp cg ((s.fsCsp cg).addNffree f) := by
  unfold freeFrags
  dsimp only
  rw [Prog.modify_bind_apply]
  split
  · next whole =>
      rw [Prog.modify_bind_apply]
      obtain ⟨free, sum, s₁, run, same⟩ := clusteracct_sums fs _ _ _ _
      rw [Prog.bind_of_done run]
      refine ⟨_, _, rfl, ?_, ?_, ?_⟩
      · rfl
      · rw [same]
        rfl
      · rw [same]
        rfl
  · next part => exact ⟨_, _, rfl, rfl, rfl, rfl, rfl⟩

theorem freeSize_sums {cg : Nat} {cgp cgp' : Cg} {bno size : Nat}
    (run : freeSize fs cg cgp (fs.dtogd bno) size s = .done cgp' s') :
    FreeUpdates cgp cgp' ∧ SumsOnly s s' ∧
      (FreeQuiet fs cgp bno size → s'.fsCstotal = s.fsCstotal ∧ s'.fsCsp = s.fsCsp) ∧
      (¬ FreeQuiet fs cgp bno size → s'.fsCstotal ≠ s.fsCstotal) := by
  unfold freeSize at run
  split at run
  · next whole =>
      obtain ⟨cgp₁, s₁, ran, updates, sums, total⟩ := freeBlock_sums fs cg cgp (fs.dtogd bno) s
      rw [run] at ran
      cases ran
      have large : ¬ FreeQuiet fs cgp bno size := fun quiet => by
        have := quiet.1
        have := fs.fsize_le_bsize
        omega
      refine ⟨updates, sums, fun quiet => absurd quiet large, fun _ same => ?_⟩
      have := congrArg Csum.csNbfree (total.symm.trans same)
      simp [Csum.addNbfree] at this
  · next part =>
      obtain ⟨cgp₁, s₁, ran, updates, sums, total⟩ := freeFrags_sums fs cg cgp (fs.dtogd bno) (fs.numfrags size) s
      rw [run] at ran
      cases ran
      have count : fs.numfrags size = 0 ↔ size < fs.fsFsize := by
        rw [fs.numfrags_eq, Nat.div_eq_zero_iff_lt fs.fsize_pos]
      refine ⟨updates, sums, fun quiet => ?_, fun loud same => ?_⟩
      · obtain ⟨small, block⟩ := quiet
        have unset : cgp.cgBlksfree.setbits (fs.dtogd bno) 0 = cgp.cgBlksfree := rfl
        rw [count.mpr small, unset, block] at total
        simpa [Csum.addNffree] using total
      · split at total
        · rw [same] at total
          omega
        · next part =>
            have none := congrArg Csum.csNffree (total.1.symm.trans same)
            have zero : fs.numfrags size = 0 := by
              simp only [Csum.addNffree] at none
              omega
            have unset : cgp.cgBlksfree.setbits (fs.dtogd bno) 0 = cgp.cgBlksfree := rfl
            rw [zero, unset] at part
            exact loud ⟨count.mp zero, by simpa using part⟩

/-- A free gets as far as writing its group. -/
def FreeWrites (env : Env) (fs : Superblock) (s : State) (bno : Nat) : Prop :=
  bno % 2 ^ 32 < fs.fsSize ∧ env.readOk s.tick = true ∧ (s.cgs (fs.dtog bno)).chkmagic = true

theorem ufsBlockFree_sums {bno size : Nat} (run : ufsBlockFree env fs bno size s = .done () s') :
    ¬ FreeWrites env fs s bno ∧ s'.cgs = s.cgs ∧ s'.log = s.log ∨
      FreeWrites env fs s bno ∧ ∃ cgp', FreeUpdates (s.cgs (fs.dtog bno)) cgp' ∧
        WritesBack env s (fs.dtog bno) { cgp' with cgTail := env.heap }
          (FreeQuiet fs (s.cgs (fs.dtog bno)) bno size) s' := by
  set cg := fs.dtog bno with hcg
  unfold ufsBlockFree at run
  dsimp only at run
  split at run
  · next bad =>
      obtain ⟨-, rfl⟩ := Prog.pure_eq_done.mp run
      exact .inl ⟨fun writes => absurd writes.1 (by omega), rfl, rfl⟩
  next good =>
  obtain ⟨got, s₁, read, run⟩ := Prog.bind_eq_done.mp run
  obtain ⟨rfl, same⟩ := blkreadCg_eq read
  by_cases readable : env.readOk s.tick = true
  · rw [if_pos readable] at run
    dsimp only at run
    rw [same] at run
    split at run
    · next bad =>
        obtain ⟨-, rfl⟩ := Prog.pure_eq_done.mp run
        exact .inl ⟨fun writes => Bool.noConfusion (writes.2.2.symm.trans bad), rfl, rfl⟩
    next magic =>
    have writes : FreeWrites env fs s bno := ⟨by omega, readable, by simpa using magic⟩
    refine .inr ⟨writes, ?_⟩
    obtain ⟨cgp', s₂, freed, run⟩ := Prog.bind_eq_done.mp run
    rw [Prog.modify_bind_apply] at run
    obtain ⟨rc, s₃, write, run⟩ := Prog.bind_eq_done.mp run
    obtain ⟨-, rfl⟩ := Prog.pure_eq_done.mp run
    obtain ⟨updates, sums, kept, moved⟩ := freeSize_sums freed
    have stamp : FreeUpdates (s.cgs cg) { s.cgs cg with cgTime := env.now } := rfl
    refine ⟨cgp', stamp.trans updates, (blkwriteCg_after ?_ ?_ ⟨[], ?_⟩ ?_ ?_ write).1⟩
    · change s₂.cgs = s.cgs
      rw [sums]
      rfl
    · change s.tick ≤ s₂.tick
      rw [sums]
      exact Nat.le_succ _
    · change s₂.log = s.log
      rw [sums]
      rfl
    · exact kept
    · exact moved
  · rw [if_neg readable] at run
    obtain ⟨-, rfl⟩ := Prog.pure_eq_done.mp run
    rw [same]
    exact .inl ⟨fun writes => readable writes.2.1, rfl, rfl⟩

/-- The run that `ufs_alloccg` carves `frags` fragments from, if it carves. -/
def CarvesAt (fs : Superblock) (cgp : Cg) (bpref frags bno : Nat) : Prop :=
  let allocsiz := pickAllocsiz cgp.cgFrsum (fs.fsFrag - frags) frags
  allocsiz ≠ fs.fsFrag ∧ (ffsMapsearch fs cgp bpref allocsiz).1 = some bno

/-- `ufs_alloccg` returns 0 after writing a group with no summary changed: it finds no whole block to
    take, or it is asked for less than a fragment and lands on the first fragment of the device. -/
def AllocQuiet (fs : Superblock) (cg : Nat) (cgp : Cg) (bpref : Nat) (size : Int) : Prop :=
  (fs.numfrags size.toNat = fs.fsFrag ∧ ¬ FindsBlock fs cgp bpref) ∨
    (fs.numfrags size.toNat = 0 ∧ cg = 0 ∧ CarvesAt fs cgp bpref 0 0)

theorem ufsAlloccg_sums {size : Int} {cg bpref r : Nat}
    (run : ufsAlloccg env fs size cg bpref s = .done r s') :
    s'.cgs = s.cgs ∧ s'.log = s.log ∨ ∃ cgp' quiet, AllocUpdates (s.cgs cg) cgp' ∧
      WritesBack env s cg cgp' quiet s' ∧ (quiet ∧ r = 0 ↔ AllocQuiet fs cg (s.cgs cg) bpref size) := by
  unfold ufsAlloccg at run
  rw [Prog.get_bind_apply] at run
  split at run
  · obtain ⟨-, rfl⟩ := Prog.pure_eq_done.mp run
    exact .inl ⟨rfl, rfl⟩
  obtain ⟨got, s₁, read, run⟩ := Prog.bind_eq_done.mp run
  obtain ⟨rfl, rfl⟩ := blkreadCg_eq read
  by_cases readable : env.readOk s.tick = true
  · rw [if_pos readable] at run
    dsimp only at run
    split at run
    · obtain ⟨-, rfl⟩ := Prog.pure_eq_done.mp run
      exact .inl ⟨rfl, rfl⟩
    have stamp : AllocUpdates (s.cgs cg) { s.cgs cg with cgTime := env.now } := rfl
    have clock : s.tick ≤ (s.atTick (s.tick + 1)).tick := Nat.le_succ _
    have groups : (s.atTick (s.tick + 1)).cgs = s.cgs := rfl
    have sums₀ : (s.atTick (s.tick + 1)).fsCstotal = s.fsCstotal ∧ (s.atTick (s.tick + 1)).fsCsp = s.fsCsp := ⟨rfl, rfl⟩
    have fragPos := fs.frag_pos
    split at run
    · next whole =>
        have full : fs.numfrags size.toNat = fs.fsFrag := by
          rw [whole, Int.toNat_natCast, fs.numfrags_eq, fs.bsize_eq_mul, Nat.mul_div_cancel _ fs.fsize_pos]
        obtain ⟨r', cgp₁, s₂, took, updates, sums, counts⟩ :=
          ufsAlloccgblk_sums fs { s.cgs cg with cgTime := env.now } bpref (s.atTick (s.tick + 1))
        rw [Prog.bind_of_done took] at run
        dsimp only at run
        obtain ⟨rc, s₃, write, run⟩ := Prog.bind_eq_done.mp run
        obtain ⟨rfl, rfl⟩ := Prog.pure_eq_done.mp run
        refine .inr ⟨cgp₁, ¬ FindsBlock fs (s.cgs cg) bpref, stamp.trans updates,
          (blkwriteCg_after ?_ ?_ ⟨[], ?_⟩ ?_ ?_ write).1, fun ⟨quiet, _⟩ => .inl ⟨full, quiet⟩, ?_⟩
        · rw [sums]
          rfl
        · rw [sums]
          exact clock
        · rw [sums]
          rfl
        · intro quiet
          rcases counts with ⟨found, -⟩ | ⟨-, -, same⟩
          · exact absurd found quiet
          · rw [same]
            exact ⟨rfl, rfl⟩
        · intro loud same
          rcases counts with ⟨-, total⟩ | ⟨quiet, -⟩
          · have := congrArg Csum.csNbfree (total.symm.trans same)
            simp [Csum.addNbfree, State.atTick] at this
          · exact loud quiet
        · rintro (⟨-, quiet⟩ | ⟨small, -⟩)
          · rcases counts with ⟨found, -⟩ | ⟨-, zero, -⟩
            · exact absurd found quiet
            · exact ⟨quiet, zero⟩
          · omega
    split at run
    · cases run
    set frags := fs.numfrags size.toNat
    have low := (pickAllocsiz_spec (s.cgs cg).cgFrsum (fs.fsFrag - frags) frags).1
    split at run
    · next none =>
        split at run
        · obtain ⟨-, rfl⟩ := Prog.pure_eq_done.mp run
          exact .inl ⟨rfl, rfl⟩
        · obtain ⟨cgp', updates, back, zero⟩ := splitBlock_sums groups clock rfl sums₀ (low.trans none.le) run
          refine .inr ⟨cgp', _, stamp.trans updates, back, fun quiet => .inl quiet.1, ?_⟩
          rintro (⟨whole, missing⟩ | ⟨small, -, carves, -⟩)
          · exact ⟨⟨whole, missing⟩, zero missing⟩
          · rw [show frags = 0 from small] at none
            exact absurd none carves
    · next short =>
        rcases carveRun_sums groups clock rfl sums₀ run with ⟨-, rfl⟩ | ⟨bno, cgp', at', rfl, updates, back⟩
        · exact .inl ⟨rfl, rfl⟩
        refine .inr ⟨cgp', _, stamp.trans updates, back, ?_, ?_⟩
        · rintro ⟨nothing, zero⟩
          rw [nothing] at short at'
          obtain ⟨first, rfl⟩ := Nat.add_eq_zero_iff.mp zero
          have := fs.fpg_pos
          exact .inr ⟨nothing, (Nat.mul_eq_zero.mp first).resolve_left (by omega), short, at'⟩
        · rintro (⟨whole, -⟩ | ⟨small, rfl, carves, found⟩)
          · rw [show frags = fs.fsFrag from whole, Nat.sub_self] at short
            exact absurd rfl short
          · rw [show frags = 0 from small] at at'
            obtain rfl := Option.some.inj (at'.symm.trans found)
            exact ⟨small, rfl⟩
  · rw [if_neg readable] at run
    obtain ⟨-, rfl⟩ := Prog.pure_eq_done.mp run
    exact .inl ⟨rfl, rfl⟩

theorem InodeUpdates.trans {a b c : Cg} (first : InodeUpdates a b) (second : InodeUpdates b c) :
    InodeUpdates a c := by
  unfold InodeUpdates at *
  rw [second, first]

theorem pickInode_updates {cgp cgp' : Cg} {ipref i : Nat} (picked : pickInode fs cgp ipref = some (i, cgp')) :
    InodeUpdates cgp cgp' := by
  unfold pickInode at picked
  split at picked
  · cases picked
    rfl
  · simp only [Option.bind_eq_bind, Option.bind_eq_some_iff, Option.pure_def, Option.some.injEq] at picked
    obtain ⟨byte, -, bit, -, same⟩ := picked
    cases same
    rfl

theorem writeInodes_sums {ino : Nat} {ibp : Option (Nat → Dinode)} {rc : Int}
    (run : writeInodes env fs ino ibp s = .done rc s') :
    s'.cgs = s.cgs ∧ s'.fsCstotal = s.fsCstotal ∧ s'.fsCsp = s.fsCsp ∧ s.tick ≤ s'.tick ∧
      ∃ new, s'.log = new ++ s.log := by
  cases ibp with
  | none =>
      cases run
      exact ⟨rfl, rfl, rfl, le_rfl, [], rfl⟩
  | some ibp =>
      simp only [writeInodes, tryWriteIno, Prog.bind_apply] at run
      split at run <;> cases run <;> exact ⟨rfl, rfl, rfl, Nat.le_succ _, [.bwrite], rfl⟩

theorem takeInode_sums {s₀ : State} {mode cg ipref : Nat} {cgp : Cg} {ret : Int} (cgs : s₀.cgs = s.cgs)
    (clock : s.tick ≤ s₀.tick) (log : s₀.log = s.log) (total : s₀.fsCstotal = s.fsCstotal)
    (run : takeInode env fs mode cg cgp ipref s₀ = .done ret s') :
    s'.cgs = s.cgs ∧ s'.log = s.log ∨ ∃ cgp', InodeUpdates cgp cgp' ∧ WritesBack env s cg cgp' False s' ∧
      (WritesFail env s s' → ret = -eio) := by
  unfold takeInode at run
  obtain ⟨⟨rc, cgp₁, ibp⟩, s₁, init, run⟩ := Prog.bind_eq_done.mp run
  have laid : s₁ = s₀.atTick s₁.tick ∧ s₀.tick ≤ s₁.tick ∧ InodeUpdates cgp cgp₁ := by
    unfold initInodes at init
    split at init
    · simp only [tryReadIno, Prog.bind_apply, Prog.get_apply] at init
      split at init <;> cases init <;> exact ⟨rfl, Nat.le_succ _, rfl⟩
    · cases init
      exact ⟨rfl, le_rfl, rfl⟩
  obtain ⟨same, later, updates⟩ := laid
  dsimp only at run
  split at run
  · obtain ⟨-, rfl⟩ := Prog.pure_eq_done.mp run
    rw [same]
    exact .inl ⟨cgs, log⟩
  rw [Prog.modify_bind_apply] at run
  obtain ⟨wrote, s₂, write, rest⟩ := Prog.bind_eq_done.mp run
  set cgp' : Cg := { cgp₁ with
    cgInosused := cgp₁.cgInosused.setbit ipref
    cgCs := cgp₁.cgCs.takeInode mode }
  have marked : InodeUpdates cgp₁ cgp' := rfl
  have written : WritesBack env s cg cgp' False s₂ ∧ (WritesFail env s s₂ → wrote = -1) := by
    refine blkwriteCg_after ?_ ?_ ⟨[], ?_⟩ (fun no => no.elim) (fun _ same' => ?_) write
    · change s₁.cgs = s.cgs
      rw [same, ← cgs]
      rfl
    · exact clock.trans later
    · change s₁.log = s.log
      rw [same, ← log]
      rfl
    · have counted : s₁.fsCstotal = s.fsCstotal := by
        rw [same, ← total]
        rfl
      have := congrArg Csum.csNifree same'
      simp [State.summary, Csum.takeInode, counted] at this
  obtain ⟨back, failed⟩ := written
  split at rest
  · obtain ⟨rfl, rfl⟩ := Prog.pure_eq_done.mp rest
    exact .inr ⟨cgp', updates.trans marked, back, fun _ => rfl⟩
  next fine =>
  obtain ⟨rc', s₃, inodes, rest⟩ := Prog.bind_eq_done.mp rest
  obtain ⟨cgs', total', csp', later', log'⟩ := writeInodes_sums inodes
  have last : s' = s₃ := by
    split at rest <;> exact (Prog.pure_eq_done.mp rest).2.symm
  subst last
  refine .inr ⟨cgp', updates.trans marked, back.later cgs' total' csp' later' log', fun fails => ?_⟩
  exact absurd (failed fun t low high => fails t low (by omega)) fine

theorem ufsInodeAlloc_sums {mode cg ipref r : Nat} (run : ufsInodeAlloc env fs mode cg ipref s = .done r s') :
    s'.cgs = s.cgs ∧ s'.log = s.log ∨ ∃ cgp', InodeUpdates (s.cgs cg) cgp' ∧
      WritesBack env s cg cgp' False s' ∧
      (WritesFail env s s' → r = asU64 (-eio)) := by
  unfold ufsInodeAlloc at run
  rw [Prog.get_bind_apply] at run
  split at run
  · obtain ⟨-, rfl⟩ := Prog.pure_eq_done.mp run
    exact .inl ⟨rfl, rfl⟩
  obtain ⟨got, s₁, read, run⟩ := Prog.bind_eq_done.mp run
  obtain ⟨rfl, rfl⟩ := blkreadCg_eq read
  by_cases readable : env.readOk s.tick = true
  · rw [if_pos readable] at run
    dsimp only at run
    split at run
    · obtain ⟨-, rfl⟩ := Prog.pure_eq_done.mp run
      exact .inl ⟨rfl, rfl⟩
    split at run
    · cases run
    rcases picked : pickInode fs { s.cgs cg with cgTime := env.now } ipref with _ | ⟨i, cgp₁⟩
    · rw [picked] at run
      cases run
    rw [picked] at run
    obtain ⟨ret, s₂, took, run⟩ := Prog.bind_eq_done.mp run
    obtain ⟨rfl, rfl⟩ := Prog.pure_eq_done.mp run
    have stamp : InodeUpdates (s.cgs cg) { s.cgs cg with cgTime := env.now } := rfl
    have groups : (s.atTick (s.tick + 1)).cgs = s.cgs := rfl
    rcases takeInode_sums groups (Nat.le_succ _) rfl rfl took with ⟨cgs, log⟩ | ⟨cgp', updates, back, told⟩
    · exact .inl ⟨cgs, log⟩
    · exact .inr ⟨cgp', (stamp.trans (pickInode_updates picked)).trans updates, back,
        fun fails => by rw [told fails]⟩
  · rw [if_neg readable] at run
    obtain ⟨-, rfl⟩ := Prog.pure_eq_done.mp run
    exact .inl ⟨rfl, rfl⟩

theorem ufsFreeInode_sums {ino mode : Nat} {rc : Int} (run : ufsFreeInode env fs ino mode s = .done rc s') :
    s'.cgs = s.cgs ∧ s'.log = s.log ∨ ∃ cgp', InodeUpdates (s.cgs (fs.inoToCg ino)) cgp' ∧
      WritesBack env s (fs.inoToCg ino) cgp' False s' ∧
      (WritesFail env s s' → rc = -eio) := by
  unfold ufsFreeInode at run
  dsimp only at run
  split at run
  · cases run
  obtain ⟨got, s₁, read, run⟩ := Prog.bind_eq_done.mp run
  obtain ⟨rfl, rfl⟩ := blkreadCg_eq read
  by_cases readable : env.readOk s.tick = true
  · rw [if_pos readable] at run
    dsimp only at run
    split at run
    · obtain ⟨-, rfl⟩ := Prog.pure_eq_done.mp run
      exact .inl ⟨rfl, rfl⟩
    rw [Prog.modify_bind_apply, Prog.modify_bind_apply] at run
    obtain ⟨wrote, s₂, write, rest⟩ := Prog.bind_eq_done.mp run
    set cgp' : Cg := { s.cgs (fs.inoToCg ino) with
      cgTime := env.now
      cgInosused := (s.cgs (fs.inoToCg ino)).cgInosused.clrbit (ino % fs.fsIpg)
      cgIrotor := if ino % fs.fsIpg < (s.cgs (fs.inoToCg ino)).cgIrotor then ino % fs.fsIpg
        else (s.cgs (fs.inoToCg ino)).cgIrotor
      cgCs := (s.cgs (fs.inoToCg ino)).cgCs.giveInode mode }
    have updates : InodeUpdates (s.cgs (fs.inoToCg ino)) cgp' := rfl
    have written : WritesBack env s (fs.inoToCg ino) cgp' False s₂ ∧ (WritesFail env s s₂ → wrote = -1) := by
      refine blkwriteCg_after ?_ ?_ ?_ (fun no => no.elim) (fun _ same => ?_) write
      · rfl
      · exact Nat.le_succ _
      · exact ⟨[_], rfl⟩
      · have := congrArg Csum.csNifree same
        simp [State.summary, Csum.giveInode, State.atTick] at this
    obtain ⟨back, failed⟩ := written
    split at rest
    · obtain ⟨rfl, rfl⟩ := Prog.pure_eq_done.mp rest
      exact .inr ⟨cgp', updates, back, fun _ => rfl⟩
    · next fine =>
        obtain ⟨rfl, rfl⟩ := Prog.pure_eq_done.mp rest
        exact .inr ⟨cgp', updates, back, fun fails => absurd (failed fails) fine⟩
  · rw [if_neg readable] at run
    obtain ⟨-, rfl⟩ := Prog.pure_eq_done.mp run
    exact .inl ⟨rfl, rfl⟩

/-! ## Any of the four -/

/-- A call of one of the four routines that write a group back. -/
inductive GroupCall where
  | alloccg (size : Int) (cg bpref : Nat)
  | blockFree (bno size : Nat)
  | inodeAlloc (mode cg ipref : Nat)
  | freeInode (ino mode : Nat)

namespace GroupCall

/-- The group that the call works on. -/
def cg (fs : Superblock) : GroupCall → Nat
  | .alloccg _ cg _ => cg
  | .blockFree bno _ => fs.dtog bno
  | .inodeAlloc _ cg _ => cg
  | .freeInode ino _ => fs.inoToCg ino

/-- The call, returning whether its caller is told of a failure, as far as there is a result to tell. -/
def run (env : Env) (fs : Superblock) : GroupCall → M Bool
  | .alloccg size cg bpref => do
      let result ← ufsAlloccg env fs size cg bpref
      pure (result == 0)
  | .blockFree bno size => do
      ufsBlockFree env fs bno size
      pure true
  | .inodeAlloc mode cg ipref => do
      let result ← ufsInodeAlloc env fs mode cg ipref
      pure (decide (asInt32 result ≤ 0))
  | .freeInode ino mode => do
      let rc ← ufsFreeInode env fs ino mode
      pure (rc != 0)

/-- The call writes its group without changing a summary, and its result is the one of a failure. -/
def Quiet (fs : Superblock) (s : State) : GroupCall → Prop
  | .alloccg size cg bpref => AllocQuiet fs cg (s.cgs cg) bpref size
  | .blockFree bno size => FreeQuiet fs (s.cgs (fs.dtog bno)) bno size
  | .inodeAlloc _ _ _ => False
  | .freeInode _ _ => False

/-- The fields of the group that the call is there to update. -/
def Updates : GroupCall → Cg → Cg → Prop
  | .alloccg _ _ _ => AllocUpdates
  | .blockFree _ _ => FreeUpdates
  | .inodeAlloc _ _ _ => InodeUpdates
  | .freeInode _ _ => InodeUpdates

/-- How many bytes of the group's block the call reads. -/
def bytesRead (fs : Superblock) (_ : GroupCall) : Nat := fs.fsCgsize

/-- How many bytes of the group's block the call writes back. -/
def bytesWritten (fs : Superblock) : GroupCall → Nat
  | .blockFree _ _ => fs.fsBsize
  | _ => fs.fsCgsize

/-- A free that gets to the write, in a geometry where a block is longer than the group. -/
def Overruns (env : Env) (fs : Superblock) (s : State) : GroupCall → Prop
  | .blockFree bno _ => FreeWrites env fs s bno ∧ fs.fsCgsize < fs.fsBsize
  | _ => False

/-- The tail of the group's block that the call writes, if not what the block had there. -/
def tail (env : Env) (call : GroupCall) (cgp : Cg) : Buf :=
  match call with
  | .blockFree _ _ => env.heap
  | _ => cgp.cgTail

/-- The caller learns of a write that fails. -/
def ChecksWrite : GroupCall → Prop
  | .inodeAlloc _ _ _ => True
  | .freeInode _ _ => True
  | _ => False

/-- What every call does: nothing to its group, or one write of it after all else is done. -/
theorem run_sums (call : GroupCall) {told : Bool} (run : call.run env fs s = .done told s') :
    ¬ call.Overruns env fs s ∧ s'.cgs = s.cgs ∧ s'.log = s.log ∨
      ∃ cgp' quiet, call.Updates (s.cgs (call.cg fs)) cgp' ∧
      WritesBack env s (call.cg fs) { cgp' with cgTail := call.tail env cgp' } quiet s' ∧
      (call.Overruns env fs s ↔ call.bytesRead fs < call.bytesWritten fs) ∧
      (quiet ∧ told = true ↔ call.Quiet fs s) ∧ (WritesFail env s s' → call.ChecksWrite → told = true) := by
  cases call with
  | alloccg size cg bpref =>
      obtain ⟨r, s₁, ran, rest⟩ := Prog.bind_eq_done.mp run
      obtain ⟨same, rfl⟩ := Prog.pure_eq_done.mp rest
      refine (ufsAlloccg_sums ran).imp (.intro id) ?_
      rintro ⟨cgp', quiet, updates, back, iff⟩
      refine ⟨cgp', quiet, updates, back, (lt_self_iff_false _).symm, ?_, fun _ no => no.elim⟩
      rw [← same, beq_iff_eq]
      exact iff
  | blockFree bno size =>
      obtain ⟨r, s₁, ran, rest⟩ := Prog.bind_eq_done.mp run
      obtain ⟨same, rfl⟩ := Prog.pure_eq_done.mp rest
      refine (ufsBlockFree_sums ran).imp (fun same => ⟨fun runs => same.1 runs.1, same.2⟩) ?_
      rintro ⟨writes, cgp', updates, back⟩
      exact ⟨cgp', _, updates, back, and_iff_right writes, and_iff_left same.symm, fun _ no => no.elim⟩
  | inodeAlloc mode cg ipref =>
      obtain ⟨r, s₁, ran, rest⟩ := Prog.bind_eq_done.mp run
      obtain ⟨same, rfl⟩ := Prog.pure_eq_done.mp rest
      refine (ufsInodeAlloc_sums ran).imp (.intro id) ?_
      rintro ⟨cgp', updates, back, told⟩
      refine ⟨cgp', False, updates, back, (lt_self_iff_false _).symm,
        ⟨fun quiet => quiet.1, fun quiet => quiet.elim⟩, fun fails _ => ?_⟩
      rw [← same, told fails]
      decide
  | freeInode ino mode =>
      obtain ⟨r, s₁, ran, rest⟩ := Prog.bind_eq_done.mp run
      obtain ⟨same, rfl⟩ := Prog.pure_eq_done.mp rest
      refine (ufsFreeInode_sums ran).imp (.intro id) ?_
      rintro ⟨cgp', updates, back, told⟩
      refine ⟨cgp', False, updates, back, (lt_self_iff_false _).symm,
        ⟨fun quiet => quiet.1, fun quiet => quiet.elim⟩, fun fails _ => ?_⟩
      rw [← same, told fails]
      decide

end GroupCall

/-- When the write of the group fails, the summaries in memory are those of the group on the device, and
    the caller knows, exactly if nothing was to change in them: no routine takes its change back. -/
theorem failedWrite_agrees_iff (call : GroupCall) {told : Bool}
    (agree : s.fsCsp (call.cg fs) = (s.cgs (call.cg fs)).cgCs) (run : call.run env fs s = .done told s')
    (tried : WriteTried s s') (fails : WritesFail env s s') : s'.cgs = s.cgs ∧
      ((s'.fsCsp (call.cg fs) = (s'.cgs (call.cg fs)).cgCs ∧ s'.fsCstotal = s.fsCstotal ∧ told = true) ↔
        call.Quiet fs s) ∧ (call.ChecksWrite → told = true) := by
  rcases call.run_sums run with ⟨-, -, log⟩ | ⟨cgp', quiet, -, back, -, iff, checks⟩
  · exact absurd log tried.log
  obtain ⟨t, low, high, cgs⟩ := back.written
  rw [fails t low high, if_neg (by decide)] at cgs
  refine ⟨cgs, ?_, checks fails⟩
  rw [← iff, cgs]
  constructor
  · rintro ⟨-, total, told⟩
    exact ⟨by_contra fun loud => back.moved loud total, told⟩
  · rintro ⟨still, told⟩
    obtain ⟨total, csp⟩ := back.kept still
    exact ⟨by rw [csp, agree], total, told⟩

/-- No write of a group or of data succeeds. -/
def fullEnv : Env := { calmEnv with writeOk := fun _ => false }

/-- Two fragments are taken in the one group of `smallState`, and the group cannot be written. -/
theorem alloccg_stuck : ∃ s', (GroupCall.alloccg 1024 0 0).run fullEnv smallFs smallState = .done false s' ∧
    WriteTried smallState s' ∧ s'.fsCsp 0 ≠ (s'.cgs 0).cgCs := by
  have ran : ((GroupCall.alloccg 1024 0 0).run fullEnv smallFs smallState).passes
      (fun told s' => decide (told = false ∧ (s'.fsCsp 0).csNffree = 6 ∧ (s'.cgs 0).cgCs.csNffree = 0) &&
        (match s'.log with | [.bwrite] => true | _ => false)) = true := by decide +kernel
  obtain ⟨told, s', run, ran⟩ := Outcome.done_of_passes ran
  obtain ⟨values, log⟩ := Bool.and_eq_true_iff.mp ran
  obtain ⟨rfl, memory, device⟩ := of_decide_eq_true values
  refine ⟨s', run, ?_, fun same => ?_⟩
  · split at log
    · next only => exact ⟨[.bwrite], only, List.mem_singleton.mpr rfl⟩
    · cases log
  · rw [same, device] at memory
    cases memory

theorem failedWrite_agrees_small : ∃ s',
    (GroupCall.alloccg 1024 0 0).run fullEnv smallFs smallState = .done false s' ∧
      ((s'.fsCsp 0 = (s'.cgs 0).cgCs ∧ s'.fsCstotal = smallState.fsCstotal ∧ false = true) ↔
        AllocQuiet smallFs 0 (smallState.cgs 0) 0 1024) := by
  obtain ⟨s', run, tried, -⟩ := alloccg_stuck
  exact ⟨s', run, (failedWrite_agrees_iff (.alloccg 1024 0 0) rfl run tried fun _ _ _ => rfl).2.1⟩

/-- The caller of `ufs_alloccg` is given fragment 32, and six free fragments are counted that the group
    on the device does not have. -/
theorem failedWrite_disagrees_small : ¬ ∀ (env : Env) (fs : Superblock) (s s' : State) (call : GroupCall) (told : Bool),
    s.fsCsp (call.cg fs) = (s.cgs (call.cg fs)).cgCs → call.run env fs s = .done told s' → WriteTried s s' →
      WritesFail env s s' →
      s'.fsCsp (call.cg fs) = (s'.cgs (call.cg fs)).cgCs ∧ s'.fsCstotal = s.fsCstotal ∧ told = true := by
  intro all
  obtain ⟨s', run, tried, differ⟩ := alloccg_stuck
  exact differ (all fullEnv smallFs smallState s' (.alloccg 1024 0 0) false rfl run tried fun _ _ _ => rfl).1

/-! ## The rest of the block -/

/-- The call writes back no more than it read, and changes nothing on the device but the fields of its
    own group that it is there to update. -/
structure Confined (fs : Superblock) (call : GroupCall) (s s' : State) : Prop where
  length : WriteTried s s' → call.bytesWritten fs ≤ call.bytesRead fs
  others : ∀ c, c ≠ call.cg fs → s'.cgs c = s.cgs c
  fields : call.Updates (s.cgs (call.cg fs)) { s'.cgs (call.cg fs) with cgTail := (s.cgs (call.cg fs)).cgTail }
  tail : ∀ j, fs.fsCgsize + j < fs.fsBsize → (s'.cgs (call.cg fs)).cgTail j = (s.cgs (call.cg fs)).cgTail j

theorem GroupCall.Updates.refl (call : GroupCall) (cgp : Cg) : call.Updates cgp cgp := by
  cases call <;> rfl

/-- Only the fields that the call updates differ, whatever is behind the group in its block. -/
theorem GroupCall.Updates.tail {call : GroupCall} {cgp cgp' : Cg} (updates : call.Updates cgp cgp') (behind : Buf) :
    call.Updates cgp { { cgp' with cgTail := behind } with cgTail := cgp.cgTail } ∧ cgp'.cgTail = cgp.cgTail := by
  cases call with
  | alloccg =>
      replace updates : AllocUpdates cgp cgp' := updates
      exact ⟨by unfold AllocUpdates at updates; rw [updates]; rfl, by rw [updates]⟩
  | blockFree =>
      replace updates : FreeUpdates cgp cgp' := updates
      exact ⟨by unfold FreeUpdates at updates; rw [updates]; rfl, by rw [updates]⟩
  | inodeAlloc | freeInode =>
      replace updates : InodeUpdates cgp cgp' := updates
      exact ⟨by unfold InodeUpdates at updates; rw [updates]; rfl, by rw [updates]⟩

/-- Memory behind a buffer holds something else than the device does. -/
def dirtyEnv : Env := { calmEnv with heap := fun _ => 1 }

/-- Giving one fragment back overwrites the second half of the group's block. -/
theorem blockFree_overruns : ∃ s', (GroupCall.blockFree 24 512).run dirtyEnv smallFs smallState = .done true s' ∧
    (s'.cgs 0).cgTail 0 ≠ (smallState.cgs 0).cgTail 0 := by
  have ran : ((GroupCall.blockFree 24 512).run dirtyEnv smallFs smallState).passes
      (fun told s' => decide (told = true ∧ (s'.cgs 0).cgTail 0 ≠ (smallState.cgs 0).cgTail 0)) = true := by
    decide +kernel
  obtain ⟨told, s', run, ran⟩ := Outcome.done_of_passes ran
  obtain ⟨rfl, differ⟩ := of_decide_eq_true ran
  exact ⟨s', run, differ⟩

end FuseUfs
