import FuseUfs.FileIO

/-! # What a file holds

The block map and the bytes of a file as the device has them, without the walk that
finds them: a missing block of addresses maps nothing, a block that is not mapped reads
as zeros. `ufs_bmap` agrees with the map where every block of addresses it passes exists,
or where the first block of the device, which it reads instead, is zero.
-/

namespace FuseUfs

open Lib

section

variable (fs : Superblock)

/-- Blocks that the direct addresses, the indirect block and the double tree can map. -/
def Superblock.maxBlocks : Nat := ndaddr + fs.fsNindir + fs.fsNindir * fs.fsNindir

variable (data : Nat → Byte)

/-- The address at `index` of the block of addresses at `bno`. -/
def ptrAt (bno index : Nat) : Nat := getPtr (fun j => data (bno * fs.fsFsize + j)) index

/-- The same, where a missing block of addresses maps nothing. -/
def lookup (bno index : Nat) : Nat := if bno = 0 then 0 else ptrAt fs data bno index

/-- The address of logical block `fbn`, 0 in a hole. -/
def blockAt (din : Dinode) (fbn : Nat) : Nat :=
  if fbn < ndaddr then din.diDb fbn
  else if fbn - ndaddr < fs.fsNindir then lookup fs data (din.diIb 0) (fbn - ndaddr)
  else if fbn - ndaddr - fs.fsNindir < fs.fsNindir * fs.fsNindir then
    lookup fs data (lookup fs data (din.diIb 1) ((fbn - ndaddr - fs.fsNindir) / fs.fsNindir))
      ((fbn - ndaddr - fs.fsNindir) % fs.fsNindir)
  else 0

/-- Byte `j` of the block at `bno`, zero when there is no block. -/
def blockByte (bno j : Nat) : Byte := if bno = 0 then 0 else data (bno * fs.fsFsize + j)

/-- Byte `p` of a file. -/
def fileByte (din : Dinode) (p : Nat) : Byte :=
  blockByte fs data (blockAt fs data din (p / fs.fsBsize)) (p % fs.fsBsize)

/-- Every block of addresses on the way to `fbn` exists, or block 0 stands in for it with
    zeros. -/
def WalkOk (din : Dinode) (fbn : Nat) : Prop :=
  (∀ j < fs.fsBsize, data j = 0) ∨ fbn < ndaddr ∨
    (fbn - ndaddr < fs.fsNindir ∧ din.diIb 0 ≠ 0) ∨
    (fs.fsNindir ≤ fbn - ndaddr ∧ din.diIb 1 ≠ 0 ∧
      ptrAt fs data (din.diIb 1) ((fbn - ndaddr - fs.fsNindir) / fs.fsNindir) ≠ 0)

end

section

variable {env : Env} {fs : Superblock}

theorem getPtr_congr {a b : Buf} {index : Nat} (same : ∀ i < 8, a (index * 8 + i) = b (index * 8 + i)) :
    getPtr a index = getPtr b index := leGet_congr same

theorem getPtr_lt (buf : Buf) (index : Nat) : getPtr buf index < 2 ^ 64 := leGet_lt _ 8

theorem getPtr_setPtr (buf : Buf) {v : Nat} (small : v < 2 ^ 64) (index index' : Nat) :
    getPtr (setPtr buf index v) index' = if index' = index then v else getPtr buf index' := by
  by_cases same : index' = index
  · subst same
    have bytes : getPtr (setPtr buf index' v) index' = leGet (leByte v) 8 :=
      leGet_congr fun i hi => by
        simp only [setPtr]
        rw [if_pos ⟨by omega, by omega⟩, Nat.add_sub_cancel_left]
    rw [if_pos rfl, bytes, leGet_leByte]
    exact Nat.mod_eq_of_lt small
  · rw [if_neg same]
    refine getPtr_congr fun i hi => ?_
    simp only [setPtr]
    rw [if_neg (by omega)]

/-- A place in a block of addresses lies inside the block. -/
theorem index_fits {index : Nat} (inside : index < fs.fsNindir) : index * 8 + 8 ≤ fs.fsBsize := by
  have := fs.nindir_eq
  omega

theorem nindir_pos : 0 < fs.fsNindir := by have := fs.nindir_ge; omega

theorem blkread_ok (io : env.IoOk) {bno size : Nat} (pos : 0 < size) (buf : Buf) (s : State) :
    blkread env fs bno buf size s = .done
      ((size : Int), fill buf (fun j => s.data (bno * fs.fsFsize + j)) size)
      (s.atTick (s.tick + 1)) := by
  unfold blkread
  have run : tryRead env s = .done true (s.atTick (s.tick + 1)) := by
    rw [tryRead, io.read]; rfl
  rw [Prog.bind_of_done run, Prog.get_bind_apply, if_pos ⟨rfl, by omega⟩, Prog.pure_apply]
  rfl

theorem followPtr_ok (io : env.IoOk) {bno index : Nat} (inside : index < fs.fsNindir) (s : State) :
    followPtr env fs (0, bno) index s = .done (0, ptrAt fs s.data bno index)
      (s.atTick (s.tick + 1)) := by
  unfold followPtr
  rw [if_neg (by simp), Prog.bind_of_done (blkread_ok io fs.bsize_pos _ s)]
  simp only
  rw [if_neg (by have := fs.bsize_pos; omega), Prog.pure_apply, ptrAt]
  congr 2
  refine getPtr_congr fun i hi => ?_
  have := index_fits inside
  exact fill_inside (by omega)

/-- Reading the addresses of a missing block finds none, if block 0 is zero. -/
theorem ptrAt_eq_lookup {data : Nat → Byte} {bno index : Nat} (inside : index < fs.fsNindir)
    (ok : (∀ j < fs.fsBsize, data j = 0) ∨ bno ≠ 0) :
    ptrAt fs data bno index = lookup fs data bno index := by
  unfold lookup
  split
  · next missing =>
      subst missing
      have zero := ok.resolve_right (by simp)
      have := index_fits inside
      refine leGet_zero fun i hi => ?_
      simp only [Nat.zero_mul, Nat.zero_add]
      exact zero _ (by omega)
  · rfl

/-- The walk finds the mapped block and changes nothing. -/
theorem bmapWalk_ok (io : env.IoOk) {s : State} {din : Dinode} {fbn : Nat}
    (range : fbn < fs.maxBlocks) (ok : WalkOk fs s.data din fbn) :
    ∃ t, bmapWalk env fs din fbn s
      = .done (0, blockAt fs s.data din fbn) (s.atTick t) := by
  have npos : 0 < fs.fsNindir := nindir_pos
  unfold bmapWalk blockAt
  simp only
  by_cases direct : fbn < ndaddr
  · rw [if_pos direct, if_pos direct]
    exact ⟨s.tick, rfl⟩
  · rw [if_neg direct, if_neg direct]
    by_cases single : fbn - ndaddr < fs.fsNindir
    · rw [if_pos (Nat.div_eq_of_lt single), if_pos single, Nat.mod_eq_of_lt single,
        followPtr_ok io single, ptrAt_eq_lookup single]
      · exact ⟨_, rfl⟩
      · rcases ok with zero | low | ⟨-, there⟩ | ⟨high, -⟩
        · exact .inl zero
        · exact absurd low direct
        · exact .inr there
        · omega
    · rw [if_neg (by rw [Nat.div_eq_zero_iff]; omega), if_neg single]
      have double : fbn - ndaddr - fs.fsNindir < fs.fsNindir * fs.fsNindir := by
        unfold Superblock.maxBlocks at range
        omega
      have top : (fbn - ndaddr - fs.fsNindir) / fs.fsNindir < fs.fsNindir :=
        Nat.div_lt_of_lt_mul double
      have low : (fbn - ndaddr - fs.fsNindir) % fs.fsNindir < fs.fsNindir := Nat.mod_lt _ npos
      have present : (∀ j < fs.fsBsize, s.data j = 0) ∨ (din.diIb 1 ≠ 0 ∧
          ptrAt fs s.data (din.diIb 1) ((fbn - ndaddr - fs.fsNindir) / fs.fsNindir) ≠ 0) := by
        rcases ok with zero | low | ⟨high, -⟩ | ⟨-, there⟩
        · exact .inl zero
        · exact absurd low direct
        · omega
        · exact .inr there
      rw [if_pos (Nat.div_eq_of_lt double), if_pos double,
        Prog.bind_of_done (followPtr_ok io top s), followPtr_ok io low, State.atTick_data,
        ptrAt_eq_lookup top (present.imp id And.left),
        ptrAt_eq_lookup low (present.imp id fun there => by
          rw [← ptrAt_eq_lookup top (.inr there.1)]; exact there.2)]
      exact ⟨_, rfl⟩

theorem maxBlocks_lt : fs.maxBlocks < 2 ^ 31 := by
  have small : fs.fsNindir ≤ 8192 := by
    have := fs.nindir_eq
    have := fs.bsize_le
    omega
  have square : fs.fsNindir * fs.fsNindir ≤ 8192 * 8192 := Nat.mul_le_mul small small
  unfold Superblock.maxBlocks ndaddr
  omega

/-- `ufs_bmap` returns the mapped block, or exits at the one address it does not like. -/
theorem ufsBmap_ok (io : env.IoOk) {s : State} {ino fbn : Nat} {v : Vnode}
    (there : s.vnodes ino = some v) (range : fbn < fs.maxBlocks)
    (ok : WalkOk fs s.data v.inode.iDin2 fbn) :
    ∃ t, ufsBmap env fs ino fbn s
      = if blockAt fs s.data v.inode.iDin2 fbn = poisonBlock then .halt (s.atTick t)
        else .done (0, blockAt fs s.data v.inode.iDin2 fbn) (s.atTick t) := by
  obtain ⟨t, walk⟩ := bmapWalk_ok io range ok
  refine ⟨t, ?_⟩
  unfold ufsBmap
  rw [Prog.bind_of_done (vnode2inode_ok there), Prog.bind_of_done walk]
  by_cases poison : blockAt fs s.data v.inode.iDin2 fbn = poisonBlock
  · rw [if_pos ⟨rfl, poison⟩, if_pos poison]
    rfl
  · rw [if_neg (fun both => poison both.2), if_neg poison]
    rfl

end

end FuseUfs
