import FuseUfs.InodeAlloc

/-! # Laying out inodes when they are first needed

The inodes of a group are laid out a block at a time, in order; `cg_initediblk` counts those
that have been. When the inode that is taken may lie past them, one more block is prepared and
the counter is advanced. The address of the block is computed from the counter twice, once for
a read whose result is thrown away and once for the write, and the advance comes in between:
what is written is the block after the one that was due.
-/

namespace FuseUfs

open Lib Prog

variable {env : Env} {fs : Superblock}

/-- Another block has to be laid out before inode `k` of the group can be used. -/
def InitNeeded (fs : Superblock) (cgp : Cg) (k : Nat) : Prop :=
  cgp.cgInitediblk < k + fs.fsInopb ∧ cgp.cgInitediblk < cgp.cgNiblk

/-- Inode `i` lies in the block of inodes that starts with `first`. -/
def InInoblock (fs : Superblock) (first i : Nat) : Prop := first ≤ i ∧ i < first + fs.fsInopb

/-- Zeros, but for the generation. -/
def FreshDinode (din : Dinode) : Prop := ∃ gen, din = { blankDinode with diGen := gen }

/-- The block that was due, and no other, is laid out, and only if it had to be. -/
structure LaidOut (fs : Superblock) (s s' : State) (cg k : Nat) : Prop where
  others : ∀ i, ¬ InInoblock fs (cg * fs.fsIpg + (s.cgs cg).cgInitediblk) i → s'.dinodes i = s.dinodes i
  fresh : InitNeeded fs (s.cgs cg) k →
    ∀ i, InInoblock fs (cg * fs.fsIpg + (s.cgs cg).cgInitediblk) i → FreshDinode (s'.dinodes i)
  idle : ¬ InitNeeded fs (s.cgs cg) k → s'.dinodes = s.dinodes

/-- The block that is due is laid out already, and the one after it holds, generations included,
    what is about to be written to it. -/
structure LaidOutBefore (env : Env) (fs : Superblock) (s : State) (cg : Nat) : Prop where
  due : ∀ i, InInoblock fs (cg * fs.fsIpg + (s.cgs cg).cgInitediblk) i → FreshDinode (s.dinodes i)
  after : ∀ i < fs.fsInopb,
    s.dinodes (cg * fs.fsIpg + (s.cgs cg).cgInitediblk + fs.fsInopb + i) = freshDinodes env (s.tick + 2) i

/-- Choosing an inode moves the rotor and nothing else. -/
theorem pickInode_group {cgp cgp' : Cg} {ipref k : Nat} (picked : pickInode fs cgp ipref = some (k, cgp')) :
    ∃ rotor, cgp' = { cgp with cgIrotor := rotor } := by
  unfold pickInode at picked
  split at picked
  · cases picked
    exact ⟨cgp.cgIrotor, rfl⟩
  · simp only [Option.bind_eq_bind, Option.bind_eq_some_iff, Option.pure_def, Option.some.injEq,
      Prod.mk.injEq] at picked
    obtain ⟨i, -, j, -, -, rfl⟩ := picked
    exact ⟨_, rfl⟩

/-- The dinodes after the prepared block was written. -/
def layOut (fs : Superblock) (ino : Nat) (ibp : Nat → Dinode) (d : Nat → Dinode) : Nat → Dinode := fun i =>
  if ino - ino % fs.fsInopb ≤ i ∧ i < ino - ino % fs.fsInopb + fs.fsInopb then
    ibp (i - (ino - ino % fs.fsInopb)) else d i

theorem writeInodes_done {s s' : State} {ino : Nat} {ibp : Nat → Dinode} {rc : Int}
    (run : writeInodes env fs ino (some ibp) s = .done rc s') (fine : rc = 0) :
    s'.dinodes = layOut fs ino ibp s.dinodes ∧ s'.cgs = s.cgs := by
  unfold writeInodes at run
  obtain ⟨ok, t, tried, run⟩ := bind_eq_done.mp run
  cases tried
  cases ok : env.inoWriteOk s.tick with
  | true =>
      simp only [ok, if_true, Prog.modify_bind_apply, Prog.pure_apply] at run
      cases run
      exact ⟨rfl, rfl⟩
  | false =>
      simp only [ok, Bool.false_eq_true, if_false, Prog.pure_apply] at run
      cases run
      cases fine

theorem blkwriteCg_done {s s' : State} {cg : Nat} {cgp : Cg} {rc : Int}
    (run : blkwriteCg env cg cgp s = .done rc s') (fine : rc ≠ -1) :
    s'.dinodes = s.dinodes ∧ s'.cgs cg = cgp := by
  unfold blkwriteCg at run
  obtain ⟨ok, t, tried, run⟩ := bind_eq_done.mp run
  cases tried
  cases ok : env.writeOk s.tick with
  | true =>
      simp only [ok, if_true, Prog.modify_bind_apply, Prog.pure_apply] at run
      cases run
      exact ⟨rfl, Function.update_self ..⟩
  | false =>
      simp only [ok, Bool.false_eq_true, if_false, Prog.pure_apply] at run
      cases run
      exact absurd rfl fine

/-- What is prepared, if a block is due. -/
theorem initInodes_done {s s' : State} {cgp cgp' : Cg} {k : Nat} {rc : Int}
    {ibp : Option (Nat → Dinode)} (run : initInodes env fs cgp k s = .done (rc, cgp', ibp) s')
    (fine : rc = 0) : s'.dinodes = s.dinodes ∧
      ((InitNeeded fs cgp k ∧ ibp = some (freshDinodes env (s.tick + 1)) ∧
          cgp' = { cgp with cgInitediblk := cgp.cgInitediblk + fs.fsInopb }) ∨
        (¬ InitNeeded fs cgp k ∧ ibp = none ∧ cgp' = cgp)) := by
  unfold initInodes at run
  split at run
  · next needed =>
      obtain ⟨ok, t, tried, run⟩ := bind_eq_done.mp run
      cases tried
      cases ok : env.inoReadOk s.tick with
      | true =>
          simp only [ok, Prog.get_bind_apply, if_true, Prog.pure_apply] at run
          cases run
          exact ⟨rfl, .inl ⟨needed, rfl, rfl⟩⟩
      | false =>
          simp only [ok, Prog.get_bind_apply, Bool.false_eq_true, if_false, Prog.pure_apply] at run
          cases run
          cases fine
  · next idle =>
      cases run
      exact ⟨rfl, .inr ⟨idle, rfl, rfl⟩⟩

/-- A call that takes inode `k` and succeeds writes the block after the one that is due, if one
    is due. -/
theorem takeInode_dinodes {s s' : State} {mode cg k : Nat} {cgp : Cg} {r : Int}
    (run : takeInode env fs mode cg cgp k s = .done r s') (fine : r ≠ -eio) :
    (InitNeeded fs cgp k ∧ s'.dinodes = layOut fs (cg * fs.fsIpg + (cgp.cgInitediblk + fs.fsInopb))
        (freshDinodes env (s.tick + 1)) s.dinodes ∧
      (s'.cgs cg).cgInitediblk = cgp.cgInitediblk + fs.fsInopb) ∨
    (¬ InitNeeded fs cgp k ∧ s'.dinodes = s.dinodes ∧ (s'.cgs cg).cgInitediblk = cgp.cgInitediblk) := by
  unfold takeInode at run
  obtain ⟨⟨rc, cgp₁, ibp⟩, s₁, prepared, run⟩ := bind_eq_done.mp run
  dsimp only at run
  split at run
  · cases run
    exact absurd rfl fine
  next zero =>
  simp only [Prog.modify_bind_apply] at run
  obtain ⟨rc', s₂, wrote, run⟩ := bind_eq_done.mp run
  split at run
  · cases run
    exact absurd rfl fine
  next good =>
  obtain ⟨dinodes₂, group₂⟩ := blkwriteCg_done wrote good
  obtain ⟨dinodes₁, due⟩ := initInodes_done prepared (not_not.mp zero)
  obtain ⟨rc'', s₃, laid, run⟩ := bind_eq_done.mp run
  split at run
  · cases run
    exact absurd rfl fine
  next laidOut =>
  obtain ⟨-, rfl⟩ := pure_eq_done.mp run
  rcases due with ⟨needed, rfl, rfl⟩ | ⟨idle, rfl, rfl⟩
  · obtain ⟨dinodes₃, groups₃⟩ := writeInodes_done laid (not_not.mp laidOut)
    refine .inl ⟨needed, ?_, ?_⟩
    · rw [dinodes₃, dinodes₂]
      exact congrArg _ dinodes₁
    · rw [groups₃, group₂]
  · cases laid
    exact .inr ⟨idle, dinodes₂.trans dinodes₁, by rw [group₂]⟩

/-- The value of a call that returns an inode. -/
def ReturnsInode (r : Nat) : Prop := r ≠ 0 ∧ r < 2 ^ 63

/-- A call that returns an inode takes one from the group as it is on the device. -/
theorem ufsInodeAlloc_dinodes {s s' : State} {mode cg ipref r : Nat}
    (run : ufsInodeAlloc env fs mode cg ipref s = .done r s') (returned : ReturnsInode r) :
    ∃ k cgp, pickInode fs { s.cgs cg with cgTime := env.now } ipref = some (k, cgp) ∧
      ((InitNeeded fs (s.cgs cg) k ∧
          s'.dinodes = layOut fs (cg * fs.fsIpg + ((s.cgs cg).cgInitediblk + fs.fsInopb))
            (freshDinodes env (s.tick + 2)) s.dinodes ∧
          (s'.cgs cg).cgInitediblk = (s.cgs cg).cgInitediblk + fs.fsInopb) ∨
        (¬ InitNeeded fs (s.cgs cg) k ∧ s'.dinodes = s.dinodes ∧
          (s'.cgs cg).cgInitediblk = (s.cgs cg).cgInitediblk)) := by
  have large : ¬ ReturnsInode (asU64 (-eio)) := fun h => absurd h.2 (by decide)
  unfold ufsInodeAlloc at run
  rw [Prog.get_bind_apply] at run
  split at run
  · cases run
    exact absurd rfl returned.1
  obtain ⟨read, s₁, got, run⟩ := bind_eq_done.mp run
  unfold blkreadCg at got
  obtain ⟨ok, t, tried, got⟩ := bind_eq_done.mp got
  cases tried
  rw [Prog.get_bind_apply] at got
  split at got
  · cases got
    simp only at run
    split at run
    · cases run
      exact absurd returned large
    split at run
    · cases run
    cases picked : pickInode fs { s.cgs cg with cgTime := env.now } ipref with
    | none =>
        rw [picked] at run
        cases run
    | some found =>
        obtain ⟨k, cgp⟩ := found
        rw [picked] at run
        obtain ⟨ret, s₂, taken, run⟩ := bind_eq_done.mp run
        obtain ⟨rfl, rfl⟩ := pure_eq_done.mp run
        have fine : ret ≠ -eio := fun h => large (h ▸ returned)
        obtain ⟨rotor, rfl⟩ := pickInode_group picked
        exact ⟨k, _, rfl, takeInode_dinodes taken fine⟩
  · cases got
    cases run
    exact absurd returned large

/-! ## When the right block is written -/

theorem layOut_inside {ino i : Nat} {ibp d : Nat → Dinode} (start : fs.fsInopb ∣ ino)
    (inside : InInoblock fs ino i) : layOut fs ino ibp d i = ibp (i - ino) := by
  have whole : ino - ino % fs.fsInopb = ino := by rw [Nat.mod_eq_zero_of_dvd start, Nat.sub_zero]
  rw [layOut, whole]
  exact if_pos inside

theorem layOut_outside {ino i : Nat} {ibp d : Nat → Dinode} (start : fs.fsInopb ∣ ino)
    (outside : ¬ InInoblock fs ino i) : layOut fs ino ibp d i = d i := by
  have whole : ino - ino % fs.fsInopb = ino := by rw [Nat.mod_eq_zero_of_dvd start, Nat.sub_zero]
  rw [layOut, whole]
  exact if_neg outside

/-- The write to the next block is the layout that was due only if nothing had to be written. -/
theorem layOut_laidOut {s s' : State} {cg k : Nat} (aligned : fs.fsInopb ∣ (s.cgs cg).cgInitediblk)
    (needed : InitNeeded fs (s.cgs cg) k)
    (dinodes : s'.dinodes = layOut fs (cg * fs.fsIpg + ((s.cgs cg).cgInitediblk + fs.fsInopb))
      (freshDinodes env (s.tick + 2)) s.dinodes) :
    LaidOut fs s s' cg k ↔ LaidOutBefore env fs s cg := by
  set due := cg * fs.fsIpg + (s.cgs cg).cgInitediblk with hdue
  have next : cg * fs.fsIpg + ((s.cgs cg).cgInitediblk + fs.fsInopb) = due + fs.fsInopb := by omega
  have start : fs.fsInopb ∣ due + fs.fsInopb := by
    have group : fs.fsInopb ∣ cg * fs.fsIpg := Dvd.dvd.mul_left fs.inopb_dvd_ipg cg
    exact Nat.dvd_add (Nat.dvd_add group aligned) (Nat.dvd_refl _)
  rw [next] at dinodes
  have apart {i} (inside : InInoblock fs due i) : ¬ InInoblock fs (due + fs.fsInopb) i := by
    unfold InInoblock at *
    omega
  constructor
  · intro laid
    refine ⟨fun i inside => ?_, fun i hi => ?_⟩
    · have same := laid.fresh needed i inside
      rwa [dinodes, layOut_outside start (apart inside)] at same
    · have there : InInoblock fs (due + fs.fsInopb) (due + fs.fsInopb + i) := by
        unfold InInoblock
        omega
      have other : ¬ InInoblock fs due (due + fs.fsInopb + i) := fun h => apart h there
      rw [← laid.others _ other, dinodes, layOut_inside start there, Nat.add_sub_cancel_left]
  · intro before
    refine ⟨fun i other => ?_, fun _ i inside => ?_, fun idle => absurd needed idle⟩
    · rw [dinodes]
      by_cases there : InInoblock fs (due + fs.fsInopb) i
      · obtain ⟨low, high⟩ := there
        rw [layOut_inside start ⟨low, high⟩, ← before.after _ (by omega : i - (due + fs.fsInopb) < fs.fsInopb)]
        congr 1
        omega
      · exact layOut_outside start there
    · rw [dinodes, layOut_outside start (apart inside)]
      exact before.due i inside

/-- Two groups of two inode blocks each. -/
def lazyFs : Superblock :=
  { smallFs with
    fsIpg := 32
    fsNcg := 2
    fsSize := 256
    ncg_pos := by decide
    ipg_pos := by decide
    inopb_dvd_ipg := by decide
    device_fits := by decide }

/-- In both groups the first block is laid out; inode 33, of the second group, is a directory. -/
def lazyState : State :=
  { smallState with
    cgs := fun _ => { smallCg with cgInitediblk := 16, cgNiblk := 32 }
    dinodes := fun i => if i = 33 then { blankDinode with diMode := ifdir, diNlink := 2 } else blankDinode }

end FuseUfs
