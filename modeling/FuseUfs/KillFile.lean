import FuseUfs.InodeAllocRuns
import FuseUfs.TruncateCorrect
import FuseUfs.VnodePut

/-! # Taking a file apart

`do_killfilebyinode` cuts the file to nothing, gives its inode back and writes it as cleared.
The cut starts at the block after the last byte and goes down to block 0 with no block left
out; the second walk goes from one multiple of `fs_nindir` to the next, and comes by every
place where an indirect block begins.

Two things can stop it. `ufs_bmap` exits the process at one block address, whichever file it
belongs to, and `ufs_free_inode` compares the inode number with a product of 32 bits.
-/

namespace FuseUfs

open Lib

/-- A dinode that leads nowhere. -/
def Dinode.Bare (din : Dinode) : Prop :=
  (∀ k < ndaddr, din.diDb k = 0) ∧ ∀ k < 3, din.diIb k = 0

/-- What the removal of a file leaves behind. The counters count the free map, before and after:
    no fragment was given back twice. -/
structure Killed (fs : Superblock) (ino : Nat) (s : State) (v : Vnode) (s' : State) : Prop where
  alloc : AllocOk fs s'
  free : ∀ x, s'.free fs x = true ↔ s.free fs x = true ∨
    ∃ sl, x ∈ slotExt fs (fileAddr fs s v) (fs.ownFrags v.inode.iSize) sl
  inodes : InodeReleased fs s s' ino
  vnode : ∃ v', s'.vnodes ino = some v' ∧ v'.inode.iDin2.Bare
  dinode : (s'.dinodes ino).Bare

/-- A file in order: its map is within the reach of the double tree, and nothing is set past its
    end. -/
structure WholeFile (fs : Superblock) (s : State) (ino : Nat) (v : Vnode) : Prop
    extends FileShape fs s ino v where
  range : v.inode.iSize < fs.maxBlocks * fs.fsBsize
  triple : v.inode.iDin2.diIb 2 = 0
  blocks : (∃ sl, fileAddr fs s v sl ≠ 0) → v.inode.iBlocks ≠ 0

/-- The test of `ufs_free_inode`, whose bound is a product of 32 bits. -/
def Superblock.InoInside (fs : Superblock) (ino : Nat) : Prop :=
  ino % 2 ^ 32 < fs.fsIpg * fs.fsNcg % 2 ^ 32

section Kill

variable {env : Env} {fs : Superblock} {ino : Nat} {s s' : State} {v : Vnode}

theorem everySlot : dataFrom 0 ∪ indirPast fs 0 = Set.univ := by
  refine Set.eq_univ_of_forall fun sl => ?_
  have low : sl.Indirect → ndaddr ≤ sl.first fs := Slot.first_ge
  cases sl with
  | data b => exact .inl ⟨b, Nat.zero_le _, rfl⟩
  | single => exact .inr ⟨trivial, Nat.lt_of_lt_of_le (by decide) (low trivial)⟩
  | double => exact .inr ⟨trivial, Nat.lt_of_lt_of_le (by decide) (low trivial)⟩
  | middle m => exact .inr ⟨trivial, Nat.lt_of_lt_of_le (by decide) (low trivial)⟩

/-- Cutting a file to nothing gives everything back, unless the walk comes to the address at which
    `ufs_bmap` exits. -/
theorem ufsTruncate_away (io : env.IoOk) (ok : FileShape fs s ino v)
    (range : v.inode.iSize < fs.maxBlocks * fs.fsBsize) :
    (¬ Unpoisoned fs s v (dataFrom 0) ∧ ∃ t, ufsTruncate env fs ino 0 s = .halt t) ∨
    (Unpoisoned fs s v (dataFrom 0) ∧ ∃ t v', ufsTruncate env fs ino 0 s = .done 0 t ∧
      Dropped fs ino (fs.ownFrags v.inode.iSize) Set.univ s v t v') := by
  have bpos := fs.bsize_pos
  have inside : v.inode.iSize / fs.fsBsize < fs.maxBlocks := (Nat.div_lt_iff_lt_mul bpos).mpr range
  have zero : (0 : Nat) / fs.fsBsize = 0 := Nat.zero_div _
  rcases Nat.eq_zero_or_pos v.inode.iSize with empty | some
  · have last : v.inode.iSize / fs.fsBsize = 0 := by rw [empty, zero]
    have none : ∀ sl, fileAddr fs s v sl = 0 := by
      intro sl
      by_contra there
      cases sl with
      | data b => exact there (ok.ends b (by omega))
      | single => exact absurd (ok.inUse .single trivial there) (by omega)
      | double => exact absurd (ok.inUse .double trivial there) (by omega)
      | middle m => exact absurd (ok.inUse (.middle m) trivial there) (by omega)
    obtain ⟨n, run⟩ := ufsTruncate_last io ok 0 (by rw [last]; decide) (by rw [zero, last])
    rw [if_neg (by rw [none]; decide), if_pos (by rw [empty])] at run
    refine .inr ⟨fun sl _ => by rw [none]; decide, _, v, run, ?_⟩
    exact (Dropped.atTick ok.toFileInv n).grow (Set.subset_univ _) fun sl _ _ => none sl
  · by_cases few : v.inode.iSize < fs.fsBsize
    · have cut := ufsTruncate_block io ok few some
      rw [everySlot] at cut
      exact cut
    · have more : 1 ≤ v.inode.iSize / fs.fsBsize := (Nat.one_le_div_iff bpos).mpr (by omega)
      have cut := ufsTruncate_walks io ok some inside (by omega)
      rw [zero, everySlot] at cut
      exact cut

theorem Dropped.bare {own : Nat → Nat} {v' : Vnode} (drop : Dropped fs ino own Set.univ s v s' v')
    (triple : v.inode.iDin2.diIb 2 = 0) : v'.inode.iDin2.Bare := by
  refine ⟨fun k direct => ?_, fun k few => ?_⟩
  · have gone := drop.cleared (.data k) trivial
    exact (blockAt_direct _ _ direct).symm.trans gone
  · have cases : k = 0 ∨ k = 1 ∨ k = 2 := by omega
    rcases cases with rfl | rfl | rfl
    · exact drop.cleared .single trivial
    · exact drop.cleared .double trivial
    · exact drop.triple triple

def Vnode.unlinked (v : Vnode) : Vnode := { v with inode := { v.inode with iNlink := 0 } }

/-- The state in which the blocks of the file are taken. -/
def State.killing (s : State) (ino : Nat) (v : Vnode) : State :=
  State.setVnode { s with log := .kill ino v.inode :: s.log } ino v.unlinked

/-- The link count does not matter to the blocks. -/
theorem WholeFile.killing (file : WholeFile fs s ino v) :
    WholeFile fs (s.killing ino v) ino v.unlinked where
  alloc := ⟨file.alloc.group, file.alloc.cs, file.alloc.total⟩
  boot := file.boot
  zero := file.zero
  device := file.device
  there := Function.update_self ..
  number := file.number
  valid := file.valid
  owned := file.owned
  cache := ⟨file.cache.aligned, file.cache.same⟩
  ends := file.ends
  inUse := file.inUse
  range := file.range
  triple := file.triple
  blocks := file.blocks

theorem killBlocks_spec (io : env.IoOk) (file : WholeFile fs s ino v) :
    (¬ Unpoisoned fs s v (dataFrom 0) ∧ ∃ t, killBlocks env fs ino s = .halt t) ∨
    (Unpoisoned fs s v (dataFrom 0) ∧ ∃ t v', killBlocks env fs ino s = .done () t ∧
      Dropped fs ino (fs.ownFrags v.inode.iSize) Set.univ s v t v') := by
  unfold killBlocks
  rw [Prog.bind_of_done (vnode2inode_ok file.there)]
  by_cases said : v.inode.iBlocks = 0
  · have none : ∀ sl, fileAddr fs s v sl = 0 := by
      intro sl
      by_contra there
      exact file.blocks ⟨sl, there⟩ said
    rw [if_neg (by simpa using said)]
    refine .inr ⟨fun sl _ => by rw [none]; decide, s, v, rfl, ?_⟩
    exact (Dropped.refl file.toFileInv).grow (Set.subset_univ _) fun sl _ _ => none sl
  · rw [if_pos said]
    rcases ufsTruncate_away io file.toFileShape file.range with ⟨found, t, stop⟩ | ⟨clean, t, v', run, drop⟩
    · exact .inl ⟨found, t, Prog.bind_of_halt stop _⟩
    · exact .inr ⟨clean, t, v', Prog.bind_of_done run _, drop⟩

theorem giveInode_linear (mode : Nat) (cs x : Csum) :
    x.giveInode mode + cs = x + cs.giveInode mode := by
  by_cases dir : iftodt mode = ifdir
  · ext <;> simp [Csum.giveInode, dir] <;> ring
  · ext <;> simp [Csum.giveInode, dir]
    ring

theorem sameIno_iff (fs : Superblock) {i : Nat} :
    i = ino ↔ fs.inoToCg i = fs.inoToCg ino ∧ i % fs.fsIpg = ino % fs.fsIpg := by
  constructor
  · rintro rfl
    exact ⟨rfl, rfl⟩
  · rintro ⟨group, place⟩
    rw [ino_split fs i, ino_split fs ino, group, place]

theorem asInt32_emod (n : Nat) : (asInt32 n % 2 ^ 32).toNat = n % 2 ^ 32 := by
  unfold asInt32
  rw [show ((2 : Int) ^ 32) = ((2 ^ 32 : Nat) : Int) by norm_num, Int.bmod_emod]
  omega

/-- `ufs_free_inode` with devices that work. -/
theorem ufsFreeInode_ok (io : env.IoOk) (ok : AllocOk fs s) (valid : fs.ValidIno ino)
    (inside : fs.InoInside ino) (mode : Nat) :
    ∃ s', ufsFreeInode env fs ino mode s = .done 0 s' ∧ AllocOk fs s' ∧ AllocFrame s s' ∧
      (∀ x, s'.free fs x = s.free fs x) ∧ InodeReleased fs s s' ino := by
  have small := Nat.mod_lt ino fs.ipg_pos
  have there : ∀ c, fs.inoToCg ino = c → CgOk fs c (s.cgs c) := fun c hc => ok.group c (hc ▸ valid)
  unfold ufsFreeInode
  simp only [asInt32_emod]
  rw [if_neg (Nat.not_le.mpr inside), Prog.bind_of_done (blkreadCg_ok io s)]
  set cg := fs.inoToCg ino with hcg
  have group := there cg rfl
  simp only [group.magic, Bool.true_eq_false, if_false, Prog.modify_bind_apply]
  rw [Prog.bind_of_done (blkwriteCg_ok io _ _), if_neg (by decide), Prog.pure_apply]
  set cgp : Cg := { s.cgs cg with
    cgTime := env.now
    cgInosused := (s.cgs cg).cgInosused.clrbit (ino % fs.fsIpg)
    cgIrotor := if ino % fs.fsIpg < (s.cgs cg).cgIrotor then ino % fs.fsIpg else (s.cgs cg).cgIrotor
    cgCs := (s.cgs cg).cgCs.giveInode mode } with hcgp
  have linear : ∀ x, x.giveInode mode + (s.cgs cg).cgCs = x + (s.cgs cg).cgCs.giveInode mode :=
    giveInode_linear mode _
  refine ⟨_, rfl, ok.moves valid ⟨rfl, rfl, fun c other => ?_, ?_, ?_⟩ ?_, rfl, fun x => ?_, fun i => ?_⟩
  · exact Function.update_of_ne other _ _
  · exact (congrArg (· + (s.cgs cg).cgCs) (Function.update_self ..)).trans (linear _)
  · exact linear _
  · exact ⟨⟨group.nbfree, group.nffree, group.frsum⟩, group.magic, group.cgx, group.rotor, group.frotor,
      group.padding⟩
  · simp only [State.free, State.summary]
    by_cases here : fs.dtog x = cg
    · rw [here, Function.update_self]
    · rw [Function.update_of_ne here]
  · simp only [State.inoUsed, State.summary]
    by_cases here : fs.inoToCg i = cg
    · have same : i = ino ↔ ino % fs.fsIpg = i % fs.fsIpg :=
        (sameIno_iff fs).trans ⟨fun h => h.2.symm, fun h => ⟨here, h.symm⟩⟩
      rw [here, Function.update_self, BitMap.isset_clrbit, decide_eq_decide.mpr same]
    · have other : i ≠ ino := fun same => here (by rw [same])
      rw [Function.update_of_ne here, decide_eq_false other, Bool.not_false, Bool.and_true]

theorem ufsFreeInode_exits (outside : ¬ fs.InoInside ino) (mode : Nat) (s : State) :
    ufsFreeInode env fs ino mode s = .halt s := by
  unfold ufsFreeInode
  simp only [asInt32_emod]
  rw [if_pos (Nat.not_lt.mp outside)]
  rfl

/-- The inode is cleared and written, with the addresses it has. -/
theorem clearInode_spec (io : env.InoOk) (cache : InoCache fs s) (there : s.vnodes ino = some v)
    (bare : v.inode.iDin2.Bare) :
    ∃ s', (updateInode ino ufsClearInode >>= fun _ => ufsWriteInode env fs ino >>= fun rc =>
        if rc ≠ 0 then pure (-eio) else pure 0) s = .done 0 s' ∧
      s'.cgs = s.cgs ∧ s'.fsCsp = s.fsCsp ∧ s'.fsCstotal = s.fsCstotal ∧
      (∃ v', s'.vnodes ino = some v' ∧ v'.inode.iDin2.Bare) ∧ (s'.dinodes ino).Bare := by
  have cache' : InoCache fs (s.setVnode ino { v with inode := ufsClearInode v.inode }) :=
    ⟨cache.aligned, cache.same⟩
  have there' : (s.setVnode ino { v with inode := ufsClearInode v.inode }).vnodes ino
      = some { v with inode := ufsClearInode v.inode } := Function.update_self ..
  obtain ⟨s', run, written⟩ := ufsWriteInode_ok io cache' there'
  rw [Prog.bind_of_done (updateInode_ok there _), Prog.bind_of_done run]
  refine ⟨s', rfl, by rw [written.frame]; rfl, by rw [written.frame]; rfl, by rw [written.frame]; rfl,
    ⟨{ v with inode := copyIncoreToOndisk fs (ufsClearInode v.inode) }, ?_, bare⟩, ?_⟩
  · rw [written.frame]
    exact Function.update_self ..
  rw [written.dinodes, Function.update_self]
  exact bare

theorem doKillfilebyinode_eq (there : s.vnodes ino = some v) :
    doKillfilebyinode env fs ino s = (killBlocks env fs ino >>= fun _ =>
      vnode2inode ino >>= fun inode => ufsFreeInode env fs ino inode.iMode >>= fun rc =>
      if rc ≠ 0 then pure (-eio) else updateInode ino ufsClearInode >>= fun _ =>
        ufsWriteInode env fs ino >>= fun rc => if rc ≠ 0 then pure (-eio) else pure 0)
      (s.killing ino v) := by
  have there' : State.vnodes { s with log := .kill ino v.inode :: s.log } ino = some v := there
  unfold doKillfilebyinode
  rw [Prog.bind_of_done (vnode2inode_ok there), Prog.modify_bind_apply,
    Prog.bind_of_done (updateInode_ok there' _)]
  rfl

theorem doKillfilebyinode_stops (io : env.IoOk) (file : WholeFile fs s ino v)
    (found : ¬ Unpoisoned fs s v (dataFrom 0)) : ∃ t, doKillfilebyinode env fs ino s = .halt t := by
  rcases killBlocks_spec io file.killing with
    ⟨-, t, stop⟩ | ⟨clean, -⟩
  · rw [doKillfilebyinode_eq file.there]
    exact ⟨t, Prog.bind_of_halt stop _⟩
  · exact absurd clean found

end Kill

/-! ## The address that is not served -/

/-- A device of 2^31 fragments, in groups like the one of `smallFs`. -/
def farFs : Superblock :=
  { smallFs with
    fsNcg := 2 ^ 24
    fsSize := 2 ^ 31
    ncg_pos := by norm_num
    device_fits := by norm_num [smallFs] }

/-- A group with nothing free. -/
def fullCg (cg : Nat) : Cg :=
  { smallCg with
    cgCgx := cg
    cgCs := ⟨0, 0, 0, 0⟩
    cgInosused := fun _ => 0xff#8
    cgBlksfree := fun _ => 0 }

/-- A file of 100 bytes, in the fragment that `ufs_bmap` does not serve. -/
def farDinode : Dinode :=
  { oneDinode 100 with diDb := Function.update (fun _ => 0) 0 poisonBlock }

def farVnode : Vnode := ⟨copyOndiskToIncore farDinode 3, 1⟩

def farState : State :=
  { smallState with
    cgs := fullCg
    dinodes := Function.update (fun _ => blankDinode) 3 farDinode
    fsCstotal := ⟨0, 0, 0, 0⟩
    fsCsp := fun _ => ⟨0, 0, 0, 0⟩
    vnodes := Function.update (fun _ => none) 3 (some farVnode) }

theorem farState_addr (sl : Slot) :
    fileAddr farFs farState farVnode sl = if sl = .data 0 then poisonBlock else 0 := by
  cases sl with
  | data b =>
      by_cases first : b = 0
      · subst first; rfl
      · rw [if_neg (by simpa using first)]
        have direct : farDinode.diDb b = 0 := by
          simp only [farDinode, Function.update_of_ne first]
        change blockAt farFs _ farDinode b = 0
        rcases block_cases farFs b with h | ⟨i, hi, rfl⟩ | ⟨i, hi, j, hj, rfl⟩ | far
        · rw [blockAt_direct _ _ h, direct]
        · rw [blockAt_single _ _ hi]; rfl
        · rw [blockAt_double _ _ hi hj]; rfl
        · exact blockAt_beyond _ _ far
  | single => rfl
  | double => rfl
  | middle i =>
      change (if i < farFs.fsNindir then 0 else 0) = _
      simp

theorem farState_used (x : Nat) : farState.free farFs x = false := by
  change (0#8).getLsbD _ = false
  simp

theorem farState_allocOk : AllocOk farFs farState := by
  have counts : Counts farFs (fullCg 0) := by
    refine ⟨by decide +kernel, by decide +kernel, fun k hk less => ?_⟩
    have : k < 8 := less
    interval_cases k <;> decide +kernel
  refine ⟨fun cg _ => ⟨⟨counts.nbfree, counts.nffree, counts.frsum⟩, rfl, rfl, (by decide : 0 < 128),
    (by decide : 0 < 128), fun i _ => ?_⟩, fun _ _ => rfl, ?_⟩
  · change (0#8).getLsbD _ = false
    simp
  · simp [csumTotal, farState, fullCg]

theorem farState_file : WholeFile farFs farState 3 farVnode := by
  have width : farFs.ownFrags 100 0 = 1 := by decide
  have ext : ∀ sl x, x ∈ slotExt farFs (fileAddr farFs farState farVnode) (farFs.ownFrags 100) sl →
      sl = .data 0 ∧ x = poisonBlock := by
    intro sl x mine
    simp only [slotExt, farState_addr] at mine
    by_cases first : sl = .data 0
    · subst first
      simp only [if_pos, slotWidth, width] at mine
      exact ⟨rfl, by have := mine.2; omega⟩
    · rw [if_neg first] at mine
      exact absurd rfl mine.1
  have shape : FileShape farFs farState 3 farVnode := by
    refine ⟨⟨⟨farState_allocOk, fun x _ => farState_used x, fun _ _ => rfl, fun x free => ?_⟩,
      by simp [farState], rfl, (by norm_num : 3 / 16 < 2 ^ 24), fun sl there => ?_,
      fun sl x mine => ?_, fun sl sl' ne => ?_⟩, ⟨fun h => ?_, fun i h => ?_⟩, fun b past => ?_,
      fun sl ind there => ?_⟩
    · rw [farState_used] at free
      cases free
    · rw [farState_addr] at there ⊢
      by_cases first : sl = .data 0
      · subst first
        rw [if_pos rfl]
        refine ⟨(by norm_num [poisonBlock] : poisonBlock / 128 < 2 ^ 24), ?_⟩
        change poisonBlock % 8 + farFs.ownFrags 100 0 ≤ 8
        rw [width]
        decide
      · exact absurd (if_neg first) there
    · obtain ⟨-, rfl⟩ := ext sl x mine
      exact ⟨farState_used _, (by decide : 8 ≤ poisonBlock), (by norm_num [poisonBlock] : poisonBlock < 2 ^ 31)⟩
    · refine Set.disjoint_left.mpr fun x mine mine' => ?_
      exact ne ((ext sl x mine).1.trans (ext sl' x mine').1.symm)
    · exact absurd h (by simp [farState, smallState])
    · exact absurd h (by simp [farState, smallState])
    · rw [farState_addr, if_neg]
      intro first
      cases first
      have : (100 : Nat) ≤ 0 * 4096 := past
      omega
    · rw [farState_addr] at there
      cases sl with
      | data b => exact ind.elim
      | single => exact absurd rfl there
      | double => exact absurd rfl there
      | middle m => exact absurd rfl there
  exact ⟨shape, by decide, rfl, fun _ => (by decide : (8 : Nat) ≠ 0)⟩

end FuseUfs
