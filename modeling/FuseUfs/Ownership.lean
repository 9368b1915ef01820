import FuseUfs.Lib.Ledger
import FuseUfs.AllocRuns
import FuseUfs.FileView

/-! # The blocks that a file owns

A file owns an extent of fragments for every logical block that is mapped and a whole
block for every indirect block. `slotAddr` lists their addresses; how many fragments a
data block owns is not recorded on the device and stays a parameter (`own`). The lemmas
of this module say how the addresses move when one entry of the map is stored or one
indirect block is added.
-/

namespace FuseUfs

open Lib

/-- What a block of a file is there for. -/
inductive Slot where
  | data (fbn : Nat)
  | single
  | double
  | middle (i : Nat)
  deriving DecidableEq

section

variable (fs : Superblock)

/-- The fragments of the block at `b`. -/
def blockSet (b : Nat) : Set Nat := { x | b ≤ x ∧ x < b + fs.fsFrag }

/-- Two states of the data area agree on these fragments. -/
def AgreeOn (X : Set Nat) (d d' : Nat → Byte) : Prop :=
  ∀ x ∈ X, ∀ j < fs.fsFsize, d' (x * fs.fsFsize + j) = d (x * fs.fsFsize + j)

/-- The addresses of the blocks of a file, 0 where there is none. -/
def slotAddr (d : Nat → Byte) (din : Dinode) : Slot → Nat
  | .data fbn => blockAt fs d din fbn
  | .single => din.diIb 0
  | .double => din.diIb 1
  | .middle i => if i < fs.fsNindir then lookup fs d (din.diIb 1) i else 0

/-- How many fragments a block owns. -/
def slotWidth (own : Nat → Nat) : Slot → Nat
  | .data fbn => own fbn
  | _ => fs.fsFrag

/-- The fragments that a block of the file owns. -/
def slotExt (addr : Slot → Nat) (own : Nat → Nat) (sl : Slot) : Set Nat :=
  { x | addr sl ≠ 0 ∧ addr sl ≤ x ∧ x < addr sl + slotWidth fs own sl }

end

section Agree

variable {fs : Superblock} {d d' d'' : Nat → Byte}

theorem AgreeOn.mono {X Y : Set Nat} (agree : AgreeOn fs Y d d') (less : X ⊆ Y) :
    AgreeOn fs X d d' := fun x hx => agree x (less hx)

theorem AgreeOn.trans {X : Set Nat} (first : AgreeOn fs X d d') (second : AgreeOn fs X d' d'') :
    AgreeOn fs X d d'' := fun x hx j hj => (second x hx j hj).trans (first x hx j hj)

/-- Byte `j` from fragment `b` on is a byte of fragment `b + j / fsize`. -/
theorem agree_at {X : Set Nat} {b j : Nat} (agree : AgreeOn fs X d d')
    (inside : b + j / fs.fsFsize ∈ X) : d' (b * fs.fsFsize + j) = d (b * fs.fsFsize + j) := by
  have place : b * fs.fsFsize + j = (b + j / fs.fsFsize) * fs.fsFsize + j % fs.fsFsize := by
    rw [Nat.add_mul, Nat.add_assoc, Nat.div_add_mod']
  rw [place]
  exact agree _ inside _ (Nat.mod_lt _ fs.fsize_pos)

/-- Bytes of an extent are bytes of its fragments. -/
theorem agree_byte {b k j : Nat} (agree : AgreeOn fs { x | b ≤ x ∧ x < b + k } d d')
    (hj : j < k * fs.fsFsize) : d' (b * fs.fsFsize + j) = d (b * fs.fsFsize + j) := by
  have high : j / fs.fsFsize < k := Nat.div_lt_of_lt_mul (by rwa [Nat.mul_comm])
  exact agree_at agree ⟨Nat.le_add_right _ _, Nat.add_lt_add_left high b⟩

theorem ptrAt_agree {b index : Nat} (agree : AgreeOn fs (blockSet fs b) d d')
    (inside : index < fs.fsNindir) : ptrAt fs d' b index = ptrAt fs d b index := by
  refine getPtr_congr fun i hi => ?_
  have fits := index_fits inside
  rw [fs.bsize_eq_mul] at fits
  exact agree_byte agree (by omega)

theorem lookup_of_ne {b index : Nat} (there : b ≠ 0) : lookup fs d b index = ptrAt fs d b index :=
  if_neg there

theorem lookup_agree {b index : Nat} (agree : b ≠ 0 → AgreeOn fs (blockSet fs b) d d')
    (inside : index < fs.fsNindir) : lookup fs d' b index = lookup fs d b index := by
  unfold lookup
  split
  · rfl
  · next there => exact ptrAt_agree (agree there) inside

end Agree

/-! ## The three ranges of the map -/

section Ranges

variable {fs : Superblock} (d : Nat → Byte) (din : Dinode)

/-- The indices of a block in the double range, and its place there. -/
theorem double_bound {i j : Nat} (hi : i < fs.fsNindir) (hj : j < fs.fsNindir) :
    i * fs.fsNindir + j < fs.fsNindir * fs.fsNindir := by
  calc i * fs.fsNindir + j < i * fs.fsNindir + fs.fsNindir := by omega
    _ = (i + 1) * fs.fsNindir := by ring
    _ ≤ fs.fsNindir * fs.fsNindir := Nat.mul_le_mul_right _ hi

theorem double_div (i : Nat) {j : Nat} (hj : j < fs.fsNindir) :
    (i * fs.fsNindir + j) / fs.fsNindir = i := by
  rw [Nat.mul_comm, Nat.mul_add_div nindir_pos, Nat.div_eq_of_lt hj, Nat.add_zero]

theorem double_mod (i : Nat) {j : Nat} (hj : j < fs.fsNindir) :
    (i * fs.fsNindir + j) % fs.fsNindir = j := by
  rw [Nat.mul_comm, Nat.mul_add_mod, Nat.mod_eq_of_lt hj]

theorem blockAt_direct {fbn : Nat} (h : fbn < ndaddr) : blockAt fs d din fbn = din.diDb fbn :=
  if_pos h

theorem blockAt_single {i : Nat} (h : i < fs.fsNindir) :
    blockAt fs d din (ndaddr + i) = lookup fs d (din.diIb 0) i := by
  unfold blockAt
  rw [if_neg (by omega), if_pos (by omega), Nat.add_sub_cancel_left]

theorem blockAt_double {i j : Nat} (hi : i < fs.fsNindir) (hj : j < fs.fsNindir) :
    blockAt fs d din (ndaddr + fs.fsNindir + (i * fs.fsNindir + j))
      = lookup fs d (lookup fs d (din.diIb 1) i) j := by
  have bound := double_bound hi hj
  have rest : ndaddr + fs.fsNindir + (i * fs.fsNindir + j) - ndaddr - fs.fsNindir
      = i * fs.fsNindir + j := by omega
  unfold blockAt
  rw [if_neg (by omega), if_neg (by omega), if_pos (by omega), rest, double_div i hj, double_mod i hj]

theorem blockAt_beyond {fbn : Nat} (h : fs.maxBlocks ≤ fbn) : blockAt fs d din fbn = 0 := by
  unfold Superblock.maxBlocks at h
  unfold blockAt
  rw [if_neg (by omega), if_neg (by omega), if_neg (by omega)]

/-- A logical block is direct, in the single range, in the double range, or too far. -/
theorem block_cases (fs : Superblock) (fbn : Nat) :
    fbn < ndaddr ∨ (∃ i < fs.fsNindir, fbn = ndaddr + i) ∨
      (∃ i < fs.fsNindir, ∃ j < fs.fsNindir,
        fbn = ndaddr + fs.fsNindir + (i * fs.fsNindir + j)) ∨ fs.maxBlocks ≤ fbn := by
  by_cases direct : fbn < ndaddr
  · exact .inl direct
  · by_cases single : fbn - ndaddr < fs.fsNindir
    · exact .inr (.inl ⟨fbn - ndaddr, single, by omega⟩)
    · by_cases far : fs.maxBlocks ≤ fbn
      · exact .inr (.inr (.inr far))
      · unfold Superblock.maxBlocks at far
        refine .inr (.inr (.inl ⟨(fbn - ndaddr - fs.fsNindir) / fs.fsNindir,
          Nat.div_lt_of_lt_mul (by omega), (fbn - ndaddr - fs.fsNindir) % fs.fsNindir,
          Nat.mod_lt _ nindir_pos, ?_⟩))
        rw [Nat.div_add_mod']
        omega

/-- The place of a block in the double range determines its indices. -/
theorem double_index_inj {i j i' j' : Nat} (hj : j < fs.fsNindir) (hj' : j' < fs.fsNindir)
    (same : i * fs.fsNindir + j = i' * fs.fsNindir + j') : i = i' ∧ j = j' := by
  constructor
  · rw [← double_div i hj, same, double_div i' hj']
  · rw [← double_mod i hj, same, double_mod i' hj']

end Ranges

/-! ## How the addresses move -/

section Moves

variable {fs : Superblock} {d d' : Nat → Byte} {din : Dinode} {w : Nat}

/-- The blocks of addresses that exist, apart from one. -/
private theorem agree_of_disjoint {b c : Nat} (agree : AgreeOn fs (blockSet fs b)ᶜ d d')
    (apart : Disjoint (blockSet fs c) (blockSet fs b)) : AgreeOn fs (blockSet fs c) d d' :=
  agree.mono apart.subset_compl_right

theorem slotAddr_direct {fbn : Nat} (h : fbn < ndaddr) :
    slotAddr fs d { din with diDb := Function.update din.diDb fbn w }
      = Function.update (slotAddr fs d din) (.data fbn) w := by
  funext sl
  cases sl with
  | data b =>
      rcases block_cases fs b with direct | ⟨i, hi, rfl⟩ | ⟨i, hi, j, hj, rfl⟩ | far
      · simp only [slotAddr, blockAt_direct d _ direct, Function.update_apply, Slot.data.injEq]
      · rw [Function.update_of_ne (by simp; omega)]
        simp only [slotAddr, blockAt_single d _ hi]
      · rw [Function.update_of_ne (by simp; omega)]
        simp only [slotAddr, blockAt_double d _ hi hj]
      · rw [Function.update_of_ne (by
          unfold Superblock.maxBlocks at far
          simp; omega)]
        simp only [slotAddr, blockAt_beyond d _ far]
  | single => rfl
  | double => rfl
  | middle i => rfl

section Single

/-- Storing an address in the single indirect block. -/
theorem slotAddr_single {i : Nat} (hi : i < fs.fsNindir) (there : din.diIb 0 ≠ 0)
    (agree : AgreeOn fs (blockSet fs (din.diIb 0))ᶜ d d')
    (stored : ∀ i' < fs.fsNindir,
      ptrAt fs d' (din.diIb 0) i' = if i' = i then w else ptrAt fs d (din.diIb 0) i')
    (top : din.diIb 1 ≠ 0 → Disjoint (blockSet fs (din.diIb 1)) (blockSet fs (din.diIb 0)))
    (mid : ∀ m < fs.fsNindir, lookup fs d (din.diIb 1) m ≠ 0 →
      Disjoint (blockSet fs (lookup fs d (din.diIb 1) m)) (blockSet fs (din.diIb 0))) :
    slotAddr fs d' din = Function.update (slotAddr fs d din) (.data (ndaddr + i)) w := by
  have middles : ∀ m < fs.fsNindir, lookup fs d' (din.diIb 1) m = lookup fs d (din.diIb 1) m :=
    fun m hm => lookup_agree (fun h => agree_of_disjoint agree (top h)) hm
  funext sl
  cases sl with
  | data b =>
      rcases block_cases fs b with direct | ⟨i', hi', rfl⟩ | ⟨m, hm, j, hj, rfl⟩ | far
      · rw [Function.update_of_ne (by simp; omega)]
        simp only [slotAddr, blockAt_direct _ din direct]
      · simp only [slotAddr, blockAt_single _ din hi', lookup, if_neg there, stored i' hi',
          Function.update_apply, Slot.data.injEq, Nat.add_right_inj]
      · rw [Function.update_of_ne (by simp; omega)]
        simp only [slotAddr, blockAt_double _ din hm hj, middles m hm]
        exact lookup_agree (fun h => agree_of_disjoint agree (mid m hm h)) hj
      · rw [Function.update_of_ne (by
          unfold Superblock.maxBlocks at far
          simp; omega)]
        simp only [slotAddr, blockAt_beyond _ din far]
  | single => rfl
  | double => rfl
  | middle m =>
      rw [Function.update_of_ne (by simp)]
      simp only [slotAddr]
      split
      · next hm => exact middles m hm
      · rfl

/-- Adding the single indirect block, with one address in it. -/
theorem slotAddr_newSingle {i b : Nat} (hi : i < fs.fsNindir) (missing : din.diIb 0 = 0) (hb : b ≠ 0)
    (agree : AgreeOn fs (blockSet fs b)ᶜ d d')
    (stored : ∀ i' < fs.fsNindir, ptrAt fs d' b i' = if i' = i then w else 0)
    (top : din.diIb 1 ≠ 0 → Disjoint (blockSet fs (din.diIb 1)) (blockSet fs b))
    (mid : ∀ m < fs.fsNindir, lookup fs d (din.diIb 1) m ≠ 0 →
      Disjoint (blockSet fs (lookup fs d (din.diIb 1) m)) (blockSet fs b)) :
    slotAddr fs d' { din with diIb := Function.update din.diIb 0 b }
      = Function.update (Function.update (slotAddr fs d din) .single b) (.data (ndaddr + i)) w := by
  have middles : ∀ m < fs.fsNindir, lookup fs d' (din.diIb 1) m = lookup fs d (din.diIb 1) m :=
    fun m hm => lookup_agree (fun h => agree_of_disjoint agree (top h)) hm
  funext sl
  cases sl with
  | data b' =>
      rcases block_cases fs b' with direct | ⟨i', hi', rfl⟩ | ⟨m, hm, j, hj, rfl⟩ | far
      · rw [Function.update_of_ne (by simp; omega), Function.update_of_ne (by simp)]
        simp only [slotAddr, blockAt_direct _ _ direct]
      · simp only [slotAddr, blockAt_single _ _ hi', lookup, Function.update_self, if_neg hb,
          stored i' hi', Function.update_apply, Slot.data.injEq, Nat.add_right_inj, missing,
          if_true, reduceCtorEq, if_false]
      · rw [Function.update_of_ne (by simp; omega), Function.update_of_ne (by simp)]
        simp only [slotAddr, blockAt_double _ _ hm hj]
        rw [Function.update_of_ne (by decide), middles m hm]
        exact lookup_agree (fun h => agree_of_disjoint agree (mid m hm h)) hj
      · rw [Function.update_of_ne (by
          unfold Superblock.maxBlocks at far
          simp; omega), Function.update_of_ne (by simp)]
        simp only [slotAddr, blockAt_beyond _ _ far]
  | single => simp [slotAddr]
  | double => simp [slotAddr]
  | middle m =>
      rw [Function.update_of_ne (by simp), Function.update_of_ne (by simp)]
      simp only [slotAddr]
      rw [Function.update_of_ne (by decide)]
      split
      · next hm => exact middles m hm
      · rfl

end Single

section Double

/-- Adding the top of the double tree, empty. -/
theorem slotAddr_newDouble {b : Nat} (missing : din.diIb 1 = 0) (hb : b ≠ 0)
    (agree : AgreeOn fs (blockSet fs b)ᶜ d d')
    (empty : ∀ i < fs.fsNindir, ptrAt fs d' b i = 0)
    (low : din.diIb 0 ≠ 0 → Disjoint (blockSet fs (din.diIb 0)) (blockSet fs b)) :
    slotAddr fs d' { din with diIb := Function.update din.diIb 1 b }
      = Function.update (slotAddr fs d din) .double b := by
  funext sl
  cases sl with
  | data b' =>
      rw [Function.update_of_ne (by simp)]
      rcases block_cases fs b' with direct | ⟨i', hi', rfl⟩ | ⟨m, hm, j, hj, rfl⟩ | far
      · simp only [slotAddr, blockAt_direct _ _ direct]
      · simp only [slotAddr, blockAt_single _ _ hi']
        rw [Function.update_of_ne (by decide)]
        exact lookup_agree (fun h => agree_of_disjoint agree (low h)) hi'
      · simp only [slotAddr, blockAt_double _ _ hm hj, Function.update_self, missing]
        simp [lookup, hb, empty m hm]
      · simp only [slotAddr, blockAt_beyond _ _ far]
  | single => simp [slotAddr]
  | double => simp [slotAddr]
  | middle m =>
      rw [Function.update_of_ne (by simp)]
      simp only [slotAddr, Function.update_self, missing]
      split
      · next hm => simp [lookup, hb, empty m hm]
      · rfl

/-- Adding a block below the top of the double tree, empty. -/
theorem slotAddr_newMiddle {i b : Nat} (hi : i < fs.fsNindir) (there : din.diIb 1 ≠ 0) (hb : b ≠ 0)
    (missing : lookup fs d (din.diIb 1) i = 0)
    (agree : AgreeOn fs (blockSet fs (din.diIb 1) ∪ blockSet fs b)ᶜ d d')
    (stored : ∀ i' < fs.fsNindir,
      ptrAt fs d' (din.diIb 1) i' = if i' = i then b else ptrAt fs d (din.diIb 1) i')
    (empty : ∀ j < fs.fsNindir, ptrAt fs d' b j = 0)
    (low : din.diIb 0 ≠ 0 →
      Disjoint (blockSet fs (din.diIb 0)) (blockSet fs (din.diIb 1) ∪ blockSet fs b))
    (mid : ∀ m < fs.fsNindir, lookup fs d (din.diIb 1) m ≠ 0 →
      Disjoint (blockSet fs (lookup fs d (din.diIb 1) m))
        (blockSet fs (din.diIb 1) ∪ blockSet fs b)) :
    slotAddr fs d' din = Function.update (slotAddr fs d din) (.middle i) b := by
  have middles : ∀ m < fs.fsNindir, lookup fs d' (din.diIb 1) m
      = if m = i then b else lookup fs d (din.diIb 1) m := by
    intro m hm
    simp only [lookup, if_neg there]
    exact stored m hm
  funext sl
  cases sl with
  | data b' =>
      rw [Function.update_of_ne (by simp)]
      rcases block_cases fs b' with direct | ⟨i', hi', rfl⟩ | ⟨m, hm, j, hj, rfl⟩ | far
      · simp only [slotAddr, blockAt_direct _ din direct]
      · simp only [slotAddr, blockAt_single _ din hi']
        exact lookup_agree (fun h => agree.mono (low h).subset_compl_right) hi'
      · simp only [slotAddr, blockAt_double _ din hm hj, middles m hm]
        by_cases here : m = i
        · subst here
          rw [if_pos rfl, missing]
          simp [lookup, hb, empty j hj]
        · rw [if_neg here]
          exact lookup_agree (fun h => agree.mono (mid m hm h).subset_compl_right) hj
      · simp only [slotAddr, blockAt_beyond _ din far]
  | single => simp [slotAddr]
  | double => simp [slotAddr]
  | middle m =>
      simp only [slotAddr, Function.update_apply, Slot.middle.injEq]
      by_cases hm : m < fs.fsNindir
      · rw [if_pos hm, if_pos hm, middles m hm]
      · rw [if_neg hm, if_neg hm, if_neg (by omega)]

/-- Storing an address in a block below the top of the double tree. -/
theorem slotAddr_double {i j : Nat} (hi : i < fs.fsNindir) (hj : j < fs.fsNindir)
    (there : lookup fs d (din.diIb 1) i ≠ 0)
    (agree : AgreeOn fs (blockSet fs (lookup fs d (din.diIb 1) i))ᶜ d d')
    (stored : ∀ j' < fs.fsNindir, ptrAt fs d' (lookup fs d (din.diIb 1) i) j'
      = if j' = j then w else ptrAt fs d (lookup fs d (din.diIb 1) i) j')
    (low : din.diIb 0 ≠ 0 →
      Disjoint (blockSet fs (din.diIb 0)) (blockSet fs (lookup fs d (din.diIb 1) i)))
    (top : din.diIb 1 ≠ 0 →
      Disjoint (blockSet fs (din.diIb 1)) (blockSet fs (lookup fs d (din.diIb 1) i)))
    (mid : ∀ m < fs.fsNindir, m ≠ i → lookup fs d (din.diIb 1) m ≠ 0 →
      Disjoint (blockSet fs (lookup fs d (din.diIb 1) m))
        (blockSet fs (lookup fs d (din.diIb 1) i))) :
    slotAddr fs d' din = Function.update (slotAddr fs d din)
      (.data (ndaddr + fs.fsNindir + (i * fs.fsNindir + j))) w := by
  have middles : ∀ m < fs.fsNindir, lookup fs d' (din.diIb 1) m = lookup fs d (din.diIb 1) m :=
    fun m hm => lookup_agree (fun h => agree_of_disjoint agree (top h)) hm
  funext sl
  cases sl with
  | data b =>
      rcases block_cases fs b with direct | ⟨i', hi', rfl⟩ | ⟨m, hm, j', hj', rfl⟩ | far
      · rw [Function.update_of_ne (by simp; omega)]
        simp only [slotAddr, blockAt_direct _ din direct]
      · rw [Function.update_of_ne (by simp; omega)]
        simp only [slotAddr, blockAt_single _ din hi']
        exact lookup_agree (fun h => agree_of_disjoint agree (low h)) hi'
      · simp only [slotAddr, blockAt_double _ din hm hj', middles m hm, Function.update_apply,
          Slot.data.injEq, Nat.add_right_inj]
        by_cases here : m = i
        · subst here
          have eq : (m * fs.fsNindir + j' = m * fs.fsNindir + j) ↔ j' = j := by omega
          simp only [eq]
          rw [lookup_of_ne there, stored j' hj', lookup_of_ne there]
        · rw [if_neg (fun e => here (double_index_inj hj' hj e).1)]
          exact lookup_agree (fun h => agree_of_disjoint agree (mid m hm here h)) hj'
      · rw [Function.update_of_ne (by
          have := double_bound hi hj
          unfold Superblock.maxBlocks at far
          simp; omega)]
        simp only [slotAddr, blockAt_beyond _ din far]
  | single => rfl
  | double => rfl
  | middle m =>
      rw [Function.update_of_ne (by simp)]
      simp only [slotAddr]
      split
      · next hm => exact middles m hm
      · rfl

end Double

end Moves

/-! ## Owned extents -/

/-- The extents of a file lie in blocks of the device past the boot block, are in use, and
    do not meet. -/
structure Owned (fs : Superblock) (free : Nat → Bool) (addr : Slot → Nat) (own : Nat → Nat) :
    Prop where
  fits : ∀ sl, addr sl ≠ 0 → InBlock fs (addr sl) (slotWidth fs own sl)
  used : ∀ sl, ∀ x ∈ slotExt fs addr own sl, free x = false ∧ fs.fsFrag ≤ x ∧ x < fs.fsSize
  apart : Apart (slotExt fs addr own)

/-- An extent in use that the file does not own yet. -/
structure Reserved (fs : Superblock) (free : Nat → Bool) (addr : Slot → Nat) (own : Nat → Nat)
    (w k : Nat) : Prop where
  addr_ne : w ≠ 0
  inBlock : InBlock fs w k
  used : ∀ x, w ≤ x → x < w + k → free x = false ∧ fs.fsFrag ≤ x ∧ x < fs.fsSize
  mine : ∀ sl, ∀ x ∈ slotExt fs addr own sl, ¬ (w ≤ x ∧ x < w + k)

section Owned

variable {fs : Superblock} {free free' : Nat → Bool} {addr : Slot → Nat} {own own' : Nat → Nat}

/-- Giving a slot a new address: nothing, or a reserved extent. -/
theorem Owned.put (owned : Owned fs free addr own) {sl : Slot} {w : Nat}
    (widths : ∀ sl', sl' ≠ sl → slotWidth fs own' sl' = slotWidth fs own sl')
    (keep : ∀ sl', sl' ≠ sl → ∀ x ∈ slotExt fs addr own sl', free' x = false)
    (new : w ≠ 0 → InBlock fs w (slotWidth fs own' sl) ∧
      ∀ x, w ≤ x → x < w + slotWidth fs own' sl → free' x = false ∧ fs.fsFrag ≤ x ∧ x < fs.fsSize ∧
        ∀ sl', sl' ≠ sl → x ∉ slotExt fs addr own sl') :
    Owned fs free' (Function.update addr sl w) own' := by
  have others : ∀ sl', sl' ≠ sl → slotExt fs (Function.update addr sl w) own' sl'
      = slotExt fs addr own sl' := by
    intro sl' ne
    simp only [slotExt, Function.update_of_ne ne, widths sl' ne]
  refine ⟨fun sl' there => ?_, fun sl' x hx => ?_, owned.apart.update (i := sl) rfl others ?_⟩
  · by_cases here : sl' = sl
    · subst here
      rw [Function.update_self] at there ⊢
      exact (new there).1
    · rw [Function.update_of_ne here] at there ⊢
      rw [widths sl' here]
      exact owned.fits sl' there
  · by_cases here : sl' = sl
    · subst here
      obtain ⟨there, low, high⟩ := hx
      rw [Function.update_self] at there low high
      obtain ⟨used, past, below, -⟩ := (new there).2 x low high
      exact ⟨used, past, below⟩
    · rw [others sl' here] at hx
      exact ⟨keep sl' here x hx, (owned.used sl' x hx).2⟩
  · intro sl' ne
    rw [Set.disjoint_left]
    rintro x ⟨there, low, high⟩ mine
    rw [Function.update_self] at there low high
    exact ((new there).2 x low high).2.2.2 sl' ne mine

/-- Owning less of the data blocks. -/
theorem Owned.shrink (owned : Owned fs free addr own) (less : ∀ b, own' b ≤ own b)
    (keep : ∀ sl, ∀ x ∈ slotExt fs addr own' sl, free' x = false) : Owned fs free' addr own' := by
  have width : ∀ sl, slotWidth fs own' sl ≤ slotWidth fs own sl := by
    intro sl
    cases sl with
    | data b => exact less b
    | single => exact le_rfl
    | double => exact le_rfl
    | middle i => exact le_rfl
  have sub : ∀ sl, slotExt fs addr own' sl ⊆ slotExt fs addr own sl := by
    rintro sl x ⟨there, low, high⟩
    exact ⟨there, low, high.trans_le (Nat.add_le_add_left (width sl) _)⟩
  refine ⟨fun sl there => ?_, fun sl x hx => ⟨keep sl x hx, (owned.used sl x (sub sl hx)).2⟩,
    owned.apart.mono sub⟩
  have fits := owned.fits sl there
  exact ⟨fits.group, le_trans (Nat.add_le_add_left (width sl) _) fits.fits⟩

end Owned

/-- Not a data block. -/
def Slot.Indirect : Slot → Prop
  | .data _ => False
  | _ => True

/-- The fragments of the indirect blocks. -/
def indirSet (fs : Superblock) (addr : Slot → Nat) : Set Nat :=
  { x | ∃ sl : Slot, sl.Indirect ∧ addr sl ≠ 0 ∧ x ∈ blockSet fs (addr sl) }

section Indirect

variable {fs : Superblock} {free : Nat → Bool} {addr : Slot → Nat} {own : Nat → Nat}

theorem slotExt_indirect {sl : Slot} (ind : sl.Indirect) {x : Nat} :
    x ∈ slotExt fs addr own sl ↔ addr sl ≠ 0 ∧ x ∈ blockSet fs (addr sl) := by
  cases sl with
  | data b => exact ind.elim
  | single => exact Iff.rfl
  | double => exact Iff.rfl
  | middle i => exact Iff.rfl

/-- Two indirect blocks that exist do not meet. -/
theorem Owned.indirect_apart (owned : Owned fs free addr own) (sl sl' : Slot) (ind : sl.Indirect)
    (ind' : sl'.Indirect) (ne : sl ≠ sl') (there : addr sl ≠ 0) (there' : addr sl' ≠ 0) :
    Disjoint (blockSet fs (addr sl)) (blockSet fs (addr sl')) := by
  rw [Set.disjoint_left]
  intro x hx hx'
  exact Set.disjoint_left.mp (owned.apart ne) ((slotExt_indirect ind).mpr ⟨there, hx⟩)
    ((slotExt_indirect ind').mpr ⟨there', hx'⟩)

/-- A reserved block does not meet an indirect block. -/
theorem Reserved.indirect_apart {w : Nat} (reserved : Reserved fs free addr own w fs.fsFrag)
    (sl : Slot) (ind : sl.Indirect) (there : addr sl ≠ 0) :
    Disjoint (blockSet fs (addr sl)) (blockSet fs w) := by
  rw [Set.disjoint_left]
  intro x hx hx'
  exact reserved.mine sl x ((slotExt_indirect ind).mpr ⟨there, hx⟩) hx'

end Indirect

end FuseUfs
