import FuseUfs.Ownership

/-! # Storing an address in the block map

`FileInv` is what the write path keeps about the mount and the one file it works on.
`ufs_set_block` moves the address of one logical block; on the way it may add indirect
blocks to the file, and it writes to indirect blocks of the file only (`TreeStep`).
-/

namespace FuseUfs

open Lib

/-- The mount as the write path needs it: summaries in step, the boot block in use and zero,
    and a free map that ends with the device. -/
structure MountOk (fs : Superblock) (s : State) : Prop where
  alloc : AllocOk fs s
  boot : ∀ x < fs.fsFrag, s.free fs x = false
  zero : ∀ j < fs.fsBsize, s.data j = 0
  device : ∀ x, s.free fs x = true → x < fs.fsSize

/-- The addresses of the blocks of the file behind a vnode. -/
def fileAddr (fs : Superblock) (s : State) (v : Vnode) : Slot → Nat :=
  slotAddr fs s.data v.inode.iDin2

/-- The mount, and one file in core with the extents it owns. -/
structure FileInv (fs : Superblock) (s : State) (ino : Nat) (v : Vnode) (own : Nat → Nat) : Prop
    extends MountOk fs s where
  there : s.vnodes ino = some v
  number : v.inode.iNumber = ino
  valid : fs.ValidIno ino
  owned : Owned fs (s.free fs) (fileAddr fs s v) own

/-- A part of the write path that leaves the inodes on the device and the other vnodes alone. -/
structure CoreFrame (ino : Nat) (s s' : State) : Prop where
  dinodes : s'.dinodes = s.dinodes
  inoblock : s'.dInoblock = s.dInoblock
  inomin : s'.dInomin = s.dInomin
  inomax : s'.dInomax = s.dInomax
  files : s'.files = s.files
  ronly : s'.fsRonly = s.fsRonly
  others : ∀ i, i ≠ ino → s'.vnodes i = s.vnodes i

theorem CoreFrame.refl (ino : Nat) (s : State) : CoreFrame ino s s :=
  ⟨rfl, rfl, rfl, rfl, rfl, rfl, fun _ _ => rfl⟩

theorem CoreFrame.trans {ino : Nat} {s s' s'' : State} (first : CoreFrame ino s s')
    (second : CoreFrame ino s' s'') : CoreFrame ino s s'' :=
  ⟨second.dinodes.trans first.dinodes, second.inoblock.trans first.inoblock,
    second.inomin.trans first.inomin, second.inomax.trans first.inomax,
    second.files.trans first.files, second.ronly.trans first.ronly,
    fun i hi => (second.others i hi).trans (first.others i hi)⟩

theorem AllocFrame.core {s s' : State} (frame : AllocFrame s s') (ino : Nat) :
    CoreFrame ino s s' ∧ s'.data = s.data ∧ s'.vnodes = s.vnodes := by
  unfold AllocFrame at frame
  refine ⟨⟨?_, ?_, ?_, ?_, ?_, ?_, fun _ _ => ?_⟩, ?_, ?_⟩ <;> rw [frame]

section Steps

variable {env : Env} {fs : Superblock} {s s' : State} {ino : Nat} {v : Vnode} {own : Nat → Nat}

/-! ## Transfers and allocations -/

/-- Data goes to the device. -/
def State.put (fs : Superblock) (s : State) (bno : Nat) (buf : Buf) (size : Nat) : State :=
  { s with
    tick := s.tick + 1
    log := .bwrite :: s.log
    data := store s.data (bno * fs.fsFsize) buf size }

theorem put_core (ino bno : Nat) (buf : Buf) (size : Nat) : CoreFrame ino s (s.put fs bno buf size) :=
  ⟨rfl, rfl, rfl, rfl, rfl, rfl, fun _ _ => rfl⟩

/-- Addresses of the device are file offsets. -/
theorem InBlock.offset_fits {b f : Nat} (run : InBlock fs b f) : b * fs.fsFsize < 2 ^ 63 := by
  have group := run.group
  have low : b < fs.fsNcg * fs.fsFpg := by
    unfold Superblock.dtog at group
    exact (Nat.div_lt_iff_lt_mul fs.fpg_pos).mp group
  calc b * fs.fsFsize < fs.fsNcg * fs.fsFpg * fs.fsFsize :=
        Nat.mul_lt_mul_of_pos_right low fs.fsize_pos
    _ ≤ 2 ^ 63 := fs.device_fits

theorem InBlock.addr_fits {b f : Nat} (run : InBlock fs b f) : b < 2 ^ 64 := by
  have bound := run.offset_fits
  have : b * 1 ≤ b * fs.fsFsize := Nat.mul_le_mul_left _ fs.fsize_pos
  omega

theorem blkwrite_ok (io : env.IoOk) {bno size : Nat} (fits : bno * fs.fsFsize < 2 ^ 63) (buf : Buf)
    (s : State) : blkwrite env fs bno buf size s = .done (size : Int) (s.put fs bno buf size) := by
  unfold blkwrite
  have run : tryWrite env s = .done true { s with tick := s.tick + 1, log := .bwrite :: s.log } := by
    rw [tryWrite, io.write]
  rw [Prog.bind_of_done run, if_pos ⟨rfl, by omega, fits⟩]
  rfl

/-- A write leaves the fragments outside of it alone. -/
theorem agree_store {d : Nat → Byte} {b k : Nat} {buf : Buf} :
    AgreeOn fs { x | ¬ (b ≤ x ∧ x < b + k) } d (store d (b * fs.fsFsize) buf (k * fs.fsFsize)) := by
  intro x hx j hj
  refine store_outside fun inside => hx ?_
  obtain ⟨low, high⟩ := inside
  constructor
  · by_contra less
    have : (x + 1) * fs.fsFsize ≤ b * fs.fsFsize := Nat.mul_le_mul_right _ (by omega)
    rw [Nat.add_mul] at this
    omega
  · by_contra more
    have : (b + k) * fs.fsFsize ≤ x * fs.fsFsize := Nat.mul_le_mul_right _ (by omega)
    rw [Nat.add_mul] at this
    omega

theorem agree_storeBlock {d : Nat → Byte} {b : Nat} {buf : Buf} :
    AgreeOn fs (blockSet fs b)ᶜ d (store d (b * fs.fsFsize) buf fs.fsBsize) := by
  rw [fs.bsize_eq_mul]
  exact agree_store

theorem agree_put (s : State) (b : Nat) (buf : Buf) :
    AgreeOn fs (blockSet fs b)ᶜ s.data (s.put fs b buf fs.fsBsize).data := agree_storeBlock

theorem ptrAt_store {d : Nat → Byte} {b i : Nat} {buf : Buf} (hi : i < fs.fsNindir) :
    ptrAt fs (store d (b * fs.fsFsize) buf fs.fsBsize) b i = getPtr buf i := by
  refine getPtr_congr fun t ht => ?_
  have fits := index_fits hi
  rw [store_inside (by omega) (by omega), Nat.add_sub_cancel_left]

theorem getPtr_zero (i : Nat) : getPtr (fun _ => 0) i = 0 := leGet_zero fun _ _ => rfl

/-- The boot block keeps its zeros when something else is written. -/
theorem zero_of_agree {X : Set Nat} {d d' : Nat → Byte} (agree : AgreeOn fs X d d')
    (boot : ∀ x < fs.fsFrag, x ∈ X) (zero : ∀ j < fs.fsBsize, d j = 0) :
    ∀ j < fs.fsBsize, d' j = 0 := by
  intro j hj
  have sub : { x | 0 ≤ x ∧ x < 0 + fs.fsFrag } ⊆ X := fun x hx => boot x (by have := hx.2; omega)
  have same := agree_byte (agree.mono sub) (by rw [fs.bsize_eq_mul] at hj; exact hj)
  simp only [Nat.zero_mul, Nat.zero_add] at same
  rw [same, zero j hj]

/-- An allocation for the file: the extent is reserved and everything else is as before. -/
theorem ufsBlockAlloc_file (io : env.IoOk) (inv : FileInv fs s ino v own) {k w : Nat} (hk : 0 < k)
    (le : k ≤ fs.fsFrag)
    (run : ufsBlockAlloc env fs v.inode.iNumber (k * fs.fsFsize : Nat) s = .done (0, w) s') :
    FileInv fs s' ino v own ∧ Reserved fs (s'.free fs) (fileAddr fs s' v) own w k ∧
      CoreFrame ino s s' ∧ s'.data = s.data ∧ s'.vnodes = s.vnodes ∧
      (∀ x, w ≤ x → x < w + k → s.free fs x = true) ∧
      ∀ x, s'.free fs x = (s.free fs x && !decide (w ≤ x ∧ x < w + k)) := by
  obtain ⟨r, t, ran, after, result⟩ := ufsBlockAlloc_spec (f := k) io inv.alloc
    (inv.boot 0 fs.frag_pos) (inv.number ▸ inv.valid) hk le
  rw [run] at ran
  cases ran
  rcases result with ⟨failed, -⟩ | ⟨-, there, took⟩
  · cases failed
  · obtain ⟨core, data, vnodes⟩ := took.step.frame.core ino
    have map := took.step.map
    have addr : fileAddr fs s' v = fileAddr fs s v := by rw [fileAddr, fileAddr, data]
    have stays : ∀ x, s.free fs x = false → s'.free fs x = false := fun x used => by
      rw [map, used, Bool.false_and]
    have owned : Owned fs (s'.free fs) (fileAddr fs s' v) own := by
      rw [addr]
      exact ⟨inv.owned.fits, fun sl x hx =>
        ⟨stays x (inv.owned.used sl x hx).1, (inv.owned.used sl x hx).2⟩, inv.owned.apart⟩
    refine ⟨⟨⟨after, fun x hx => stays x (inv.boot x hx), data ▸ inv.zero, fun x hx => ?_⟩,
      vnodes ▸ inv.there, inv.number, inv.valid, owned⟩, ⟨there, took.inBlock, fun x low high => ?_,
      fun sl x mine inside => ?_⟩, core, data, vnodes, took.wasFree, map⟩
    · rw [map, Bool.and_eq_true] at hx
      exact inv.device x hx.1
    · have free := took.wasFree x low high
      refine ⟨?_, ?_, inv.device x free⟩
      · rw [map, decide_eq_true ⟨low, high⟩, Bool.not_true, Bool.and_false]
      · by_contra boot
        rw [inv.boot x (by omega)] at free
        cases free
    · rw [addr] at mine
      have used := (inv.owned.used sl x mine).1
      rw [took.wasFree x inside.1 inside.2] at used
      cases used

/-! ## Steps of the tree -/

/-- A step that may add indirect blocks to the file and writes to indirect blocks only. -/
structure TreeStep (fs : Superblock) (ino : Nat) (s : State) (v : Vnode) (s' : State) (v' : Vnode) :
    Prop where
  core : CoreFrame ino s s'
  inode : ∃ db ib, v' = { v with
    inode := { v.inode with iDin2 := { v.inode.iDin2 with diDb := db, diIb := ib } } }
  indir : ∀ sl : Slot, sl.Indirect →
    fileAddr fs s' v' sl = fileAddr fs s v sl ∨ fileAddr fs s v sl = 0
  free : ∀ x, s.free fs x = false → s'.free fs x = false
  taken : ∀ x, s.free fs x = true → s'.free fs x = false → x ∈ indirSet fs (fileAddr fs s' v')
  fresh : ∀ x ∈ indirSet fs (fileAddr fs s' v'),
    x ∈ indirSet fs (fileAddr fs s v) ∨ s.free fs x = true
  agree : AgreeOn fs (indirSet fs (fileAddr fs s' v'))ᶜ s.data s'.data

theorem indirSet_mono {addr addr' : Slot → Nat}
    (grow : ∀ sl : Slot, sl.Indirect → addr' sl = addr sl ∨ addr sl = 0) :
    indirSet fs addr ⊆ indirSet fs addr' := by
  rintro x ⟨sl, ind, there, hx⟩
  rcases grow sl ind with same | missing
  · exact ⟨sl, ind, same ▸ there, same ▸ hx⟩
  · exact absurd missing there

theorem TreeStep.trans {s'' : State} {v' v'' : Vnode} (first : TreeStep fs ino s v s' v')
    (second : TreeStep fs ino s' v' s'' v'') : TreeStep fs ino s v s'' v'' := by
  refine ⟨first.core.trans second.core, ?_, fun sl ind => ?_, fun x hx => second.free x (first.free x hx),
    fun x free used => ?_, fun x hx => ?_, ?_⟩
  · obtain ⟨db, ib, rfl⟩ := first.inode
    obtain ⟨db', ib', rfl⟩ := second.inode
    exact ⟨db', ib', rfl⟩
  · rcases first.indir sl ind with same | missing
    · rw [← same]; exact second.indir sl ind
    · exact .inr missing
  · cases mid : s'.free fs x with
    | true => exact second.taken x mid used
    | false => exact indirSet_mono second.indir (first.taken x free mid)
  · rcases second.fresh x hx with old | free
    · exact first.fresh x old
    · refine .inr ?_
      by_contra used
      rw [first.free x (Bool.eq_false_iff.mpr used)] at free
      cases free
  · refine (first.agree.mono ?_).trans second.agree
    exact Set.compl_subset_compl.mpr (indirSet_mono second.indir)

theorem setVnode_core (v' : Vnode) : CoreFrame ino s (s.setVnode ino v') :=
  ⟨rfl, rfl, rfl, rfl, rfl, rfl, fun _ hi => Function.update_of_ne hi _ _⟩

/-- What goes into the map: nothing, or an extent reserved for the file. -/
def Incoming (fs : Superblock) (free : Nat → Bool) (addr : Slot → Nat) (own : Nat → Nat)
    (w k : Nat) : Prop := w = 0 ∨ Reserved fs free addr own w k

theorem Incoming.addr_fits {free : Nat → Bool} {addr : Slot → Nat} {w k : Nat}
    (incoming : Incoming fs free addr own w k) : w < 2 ^ 64 := by
  rcases incoming with rfl | reserved
  · norm_num
  · exact reserved.inBlock.addr_fits

/-- A logical block takes an incoming extent. -/
theorem Owned.putData {free : Nat → Bool} {addr : Slot → Nat} {fbn w k : Nat}
    (owned : Owned fs free addr own) (incoming : Incoming fs free addr own w k) :
    Owned fs free (Function.update addr (.data fbn) w) (Function.update own fbn k) := by
  refine owned.put (fun sl ne => ?_) (fun sl _ x hx => (owned.used sl x hx).1) fun there => ?_
  · cases sl with
    | data b =>
        have other : b ≠ fbn := fun e => ne (by rw [e])
        simp only [slotWidth, Function.update_of_ne other]
    | single => rfl
    | double => rfl
    | middle i => rfl
  · have reserved := incoming.resolve_left there
    simp only [slotWidth, Function.update_self]
    refine ⟨reserved.inBlock, fun x low high => ?_⟩
    obtain ⟨used, past, below⟩ := reserved.used x low high
    exact ⟨used, past, below, fun sl _ mine => reserved.mine sl x mine ⟨low, high⟩⟩

/-- An indirect slot takes a reserved block. -/
theorem Owned.putIndirect {free : Nat → Bool} {addr : Slot → Nat} {b : Nat}
    (owned : Owned fs free addr own) (sl : Slot) (ind : sl.Indirect)
    (reserved : Reserved fs free addr own b fs.fsFrag) :
    Owned fs free (Function.update addr sl b) own := by
  have width : slotWidth fs own sl = fs.fsFrag := by
    cases sl with
    | data b => exact ind.elim
    | single => rfl
    | double => rfl
    | middle i => rfl
  refine owned.put (fun _ _ => rfl) (fun sl' _ x hx => (owned.used sl' x hx).1) fun _ => ?_
  rw [width]
  refine ⟨reserved.inBlock, fun x low high => ?_⟩
  obtain ⟨used, past, below⟩ := reserved.used x low high
  exact ⟨used, past, below, fun sl' _ mine => reserved.mine sl' x mine ⟨low, high⟩⟩

/-- What is incoming stays incoming while an indirect block is added from the free map. -/
theorem Incoming.addIndirect {free free' : Nat → Bool} {addr : Slot → Nat} {sl : Slot} {b w k : Nat}
    (incoming : Incoming fs free addr own w k) (ind : sl.Indirect)
    (stays : ∀ x, free x = false → free' x = false)
    (fresh : ∀ x ∈ blockSet fs b, free x = true) :
    Incoming fs free' (Function.update addr sl b) own w k := by
  rcases incoming with none | reserved
  · exact .inl none
  · refine .inr ⟨reserved.addr_ne, reserved.inBlock, fun x low high => ?_, fun sl' x mine inside => ?_⟩
    · obtain ⟨used, rest⟩ := reserved.used x low high
      exact ⟨stays x used, rest⟩
    · by_cases here : sl' = sl
      · subst here
        have mine := ((slotExt_indirect ind).mp mine).2
        rw [Function.update_self] at mine
        have used := (reserved.used x inside.1 inside.2).1
        rw [fresh x mine] at used
        cases used
      · refine reserved.mine sl' x ?_ inside
        simpa only [slotExt, Function.update_of_ne here] using mine

/-- The result of storing an address: the file owns the extent, and the map moved there. -/
structure Stored (fs : Superblock) (ino : Nat) (s : State) (v : Vnode) (own : Nat → Nat)
    (fbn w k : Nat) (s' : State) (v' : Vnode) : Prop where
  inv : FileInv fs s' ino v' (Function.update own fbn k)
  step : TreeStep fs ino s v s' v'
  addr : ∀ b, fileAddr fs s' v' (.data b) = if b = fbn then w else fileAddr fs s v (.data b)

/-- After a step of the tree the file keeps its invariant with the extents it then owns. -/
theorem FileInv.step {own' : Nat → Nat} {v' : Vnode} (inv : FileInv fs s ino v own)
    (step : TreeStep fs ino s v s' v') (there : s'.vnodes ino = some v') (alloc : AllocOk fs s')
    (owned : Owned fs (s'.free fs) (fileAddr fs s' v') own') : FileInv fs s' ino v' own' := by
  refine ⟨⟨alloc, fun x hx => step.free x (inv.boot x hx), ?_, fun x free => ?_⟩, there, ?_, inv.valid,
    owned⟩
  · refine zero_of_agree step.agree ?_ inv.zero
    rintro x hx ⟨sl, ind, mapped, inside⟩
    have := (owned.used sl x ((slotExt_indirect ind).mpr ⟨mapped, inside⟩)).2.1
    omega
  · refine inv.device x ?_
    by_contra used
    rw [step.free x (Bool.eq_false_iff.mpr used)] at free
    cases free
  · obtain ⟨db, ib, rfl⟩ := step.inode
    exact inv.number

/-! ## Direct addresses -/

theorem update_data_indirect {addr : Slot → Nat} {fbn w : Nat} (sl : Slot)
    (ind : sl.Indirect) : Function.update addr (.data fbn) w sl = addr sl := by
  refine Function.update_of_ne (fun e => ?_) _ _
  rw [e] at ind
  exact ind

theorem update_indirect_data {addr : Slot → Nat} {b fbn : Nat} (sl : Slot)
    (ind : sl.Indirect) : Function.update addr sl b (.data fbn) = addr (.data fbn) := by
  refine Function.update_of_ne (fun e => ?_) _ _
  rw [← e] at ind
  exact ind

theorem setBlock_direct (inv : FileInv fs s ino v own) {fbn w k : Nat} (h : fbn < ndaddr)
    (incoming : Incoming fs (s.free fs) (fileAddr fs s v) own w k)
    (run : ufsSetBlock env fs ino fbn w s = .done 0 s') :
    ∃ v', Stored fs ino s v own fbn w k s' v' := by
  unfold ufsSetBlock at run
  simp only [if_pos h] at run
  rw [Prog.bind_of_done (updateInode_ok inv.there _)] at run
  cases run
  set v' : Vnode := { v with
    inode := { v.inode with
      iDin2 := { v.inode.iDin2 with diDb := Function.update v.inode.iDin2.diDb fbn w } } } with hv
  have addr : fileAddr fs (s.setVnode ino v') v'
      = Function.update (fileAddr fs s v) (.data fbn) w := slotAddr_direct h
  have step : TreeStep fs ino s v (s.setVnode ino v') v' := by
    have same : ∀ sl : Slot, sl.Indirect →
        fileAddr fs (s.setVnode ino v') v' sl = fileAddr fs s v sl := fun sl ind => by
      rw [addr, update_data_indirect sl ind]
    refine ⟨setVnode_core v', ⟨_, _, rfl⟩, fun sl ind => .inl (same sl ind), fun _ hx => hx,
      fun x free used => ?_, fun x hx => .inl (indirSet_mono (fun sl ind => ?_) hx),
      fun _ _ _ _ => rfl⟩
    · exact absurd (free.symm.trans used) (by simp)
    · exact .inl (same sl ind).symm
  refine ⟨v', inv.step step (Function.update_self ..) ⟨inv.alloc.group, inv.alloc.cs, inv.alloc.total⟩ ?_,
    step, fun b => ?_⟩
  · rw [addr]; exact inv.owned.putData incoming
  · rw [addr, Function.update_apply]
    simp only [Slot.data.injEq]

/-! ## Indirect blocks -/

theorem readIndir_ok (io : env.IoOk) (b : Nat) (s : State) :
    readIndir env fs b s = .done
      (0, b, fill (fun _ => 0) (fun j => s.data (b * fs.fsFsize + j)) fs.fsBsize)
      (s.atTick (s.tick + 1)) := by
  unfold readIndir
  rw [Prog.bind_of_done (blkread_ok io fs.bsize_pos _ s)]
  simp only
  rw [if_neg (by have := fs.bsize_pos; omega)]
  rfl

theorem writeIndir_ok (io : env.IoOk) {b : Nat} (fits : b * fs.fsFsize < 2 ^ 63) (e : Int)
    (buf : Buf) (i w : Nat) (s : State) :
    writeIndir env fs (e, b, buf) i w s = .done 0 (s.put fs b (setPtr buf i w) fs.fsBsize) := by
  unfold writeIndir
  rw [Prog.bind_of_done (blkwrite_ok io fits _ s)]
  simp only
  rw [if_neg (by have := fs.bsize_pos; omega)]
  rfl

/-- A buffer with the addresses of the block at `b`. -/
def Mirrors (fs : Superblock) (d : Nat → Byte) (b : Nat) (buf : Buf) : Prop :=
  ∀ i < fs.fsNindir, getPtr buf i = ptrAt fs d b i

theorem mirrors_read (d : Nat → Byte) (b : Nat) :
    Mirrors fs d b (fill (fun _ => 0) (fun j => d (b * fs.fsFsize + j)) fs.fsBsize) := by
  intro i hi
  refine getPtr_congr fun t ht => ?_
  have := index_fits hi
  exact fill_inside (by omega)

/-- The addresses in a block after one of them was stored. -/
theorem ptrAt_put {d : Nat → Byte} {b i w : Nat} {buf : Buf} (mirrors : Mirrors fs d b buf)
    (small : w < 2 ^ 64) :
    ∀ i' < fs.fsNindir, ptrAt fs (store d (b * fs.fsFsize) (setPtr buf i w) fs.fsBsize) b i'
      = if i' = i then w else ptrAt fs d b i' := by
  intro i' hi'
  rw [ptrAt_store hi', getPtr_setPtr _ small, mirrors i' hi']

theorem FileInv.atTick (inv : FileInv fs s ino v own) (t : Nat) : FileInv fs (s.atTick t) ino v own :=
  ⟨⟨⟨inv.alloc.group, inv.alloc.cs, inv.alloc.total⟩, inv.boot, inv.zero, inv.device⟩, inv.there,
    inv.number, inv.valid, inv.owned⟩

theorem TreeStep.atTick (v : Vnode) (t : Nat) : TreeStep fs ino s v (s.atTick t) v :=
  ⟨⟨rfl, rfl, rfl, rfl, rfl, rfl, fun _ _ => rfl⟩, ⟨_, _, rfl⟩, fun _ _ => .inl rfl, fun _ hx => hx,
    fun x free used => absurd (free.symm.trans used) (by simp), fun _ hx => .inl hx,
    fun _ _ _ _ => rfl⟩

/-- An address goes into an indirect block that is there. -/
theorem stored_of_put (inv : FileInv fs s ino v own) (sl : Slot) (ind : sl.Indirect) {fbn w k : Nat}
    {buf : Buf} (there : fileAddr fs s v sl ≠ 0)
    (incoming : Incoming fs (s.free fs) (fileAddr fs s v) own w k)
    (addr : fileAddr fs (s.put fs (fileAddr fs s v sl) buf fs.fsBsize) v
      = Function.update (fileAddr fs s v) (.data fbn) w) :
    Stored fs ino s v own fbn w k (s.put fs (fileAddr fs s v sl) buf fs.fsBsize) v := by
  set s₁ := s.put fs (fileAddr fs s v sl) buf fs.fsBsize with hs
  have same : ∀ sl' : Slot, sl'.Indirect → fileAddr fs s₁ v sl' = fileAddr fs s v sl' := by
    intro sl' ind'
    rw [addr, update_data_indirect sl' ind']
  have step : TreeStep fs ino s v s₁ v := by
    refine ⟨put_core _ _ _ _, ⟨_, _, rfl⟩, fun sl' ind' => .inl (same sl' ind'), fun _ hx => hx,
      fun x free used => absurd (free.symm.trans used) (by simp),
      fun x hx => .inl (indirSet_mono (fun sl' ind' => .inl (same sl' ind').symm) hx),
      agree_storeBlock.mono ?_⟩
    refine Set.compl_subset_compl.mpr fun x hx => ⟨sl, ind, ?_, ?_⟩
    · rw [same sl ind]; exact there
    · rw [same sl ind]; exact hx
  refine ⟨inv.step step inv.there ⟨inv.alloc.group, inv.alloc.cs, inv.alloc.total⟩ ?_, step,
    fun b => ?_⟩
  · rw [addr]; exact inv.owned.putData incoming
  · rw [addr, Function.update_apply]
    simp only [Slot.data.injEq]

theorem Stored.after {fbn w k : Nat} {s₁ : State} {v₁ v' : Vnode}
    (stored : Stored fs ino s₁ v₁ own fbn w k s' v') (step : TreeStep fs ino s v s₁ v₁)
    (same : ∀ b, fileAddr fs s₁ v₁ (.data b) = fileAddr fs s v (.data b)) :
    Stored fs ino s v own fbn w k s' v' :=
  ⟨stored.inv, step.trans stored.step, fun b => by rw [stored.addr b, same b]⟩

/-! ## The single indirect block -/

theorem setBlock_oldSingle (io : env.IoOk) (inv : FileInv fs s ino v own) {i w k : Nat}
    (hi : i < fs.fsNindir) (there : v.inode.iDin2.diIb 0 ≠ 0)
    (incoming : Incoming fs (s.free fs) (fileAddr fs s v) own w k)
    (run : ufsSetBlock env fs ino (ndaddr + i) w s = .done 0 s') :
    ∃ v', Stored fs ino s v own (ndaddr + i) w k s' v' := by
  have fits : v.inode.iDin2.diIb 0 * fs.fsFsize < 2 ^ 63 :=
    (inv.owned.fits .single there).offset_fits
  have single : singleIndir env fs ino s = .done
      (0, v.inode.iDin2.diIb 0, fill (fun _ => 0)
        (fun j => s.data (v.inode.iDin2.diIb 0 * fs.fsFsize + j)) fs.fsBsize)
      (s.atTick (s.tick + 1)) := by
    unfold singleIndir
    rw [Prog.bind_of_done (vnode2inode_ok inv.there), if_pos there]
    exact readIndir_ok io _ s
  unfold ufsSetBlock at run
  simp only at run
  rw [if_neg (by omega), Nat.add_sub_cancel_left, if_pos (Nat.div_eq_of_lt hi),
    Nat.mod_eq_of_lt hi, Prog.bind_of_done single] at run
  simp only at run
  rw [if_neg (by simp), writeIndir_ok io fits] at run
  cases run
  refine ⟨v, (stored_of_put (inv.atTick (s.tick + 1)) .single trivial there incoming ?_).after
    (.atTick v _) fun _ => rfl⟩
  refine slotAddr_single hi there agree_storeBlock (ptrAt_put (mirrors_read _ _) incoming.addr_fits)
    (fun top => ?_) (fun m hm mid => ?_)
  · exact inv.owned.indirect_apart .double .single trivial trivial (by simp) top there
  · have addr : fileAddr fs s v (.middle m) = lookup fs s.data (v.inode.iDin2.diIb 1) m := if_pos hm
    have apart := inv.owned.indirect_apart (.middle m) .single trivial trivial
      (by simp) (by rw [addr]; exact mid) there
    rw [addr] at apart
    exact apart

/-- A block from the free map that becomes an indirect block of the file. -/
structure NewIndirect (fs : Superblock) (ino : Nat) (s : State) (v : Vnode) (own : Nat → Nat)
    (w k : Nat) (t : State) (b : Nat) : Prop where
  inv : FileInv fs t ino v own
  reserved : Reserved fs (t.free fs) (fileAddr fs t v) own b fs.fsFrag
  core : CoreFrame ino s t
  data : t.data = s.data
  stays : ∀ x, s.free fs x = false → t.free fs x = false
  taken : ∀ x, s.free fs x = true → t.free fs x = false → x ∈ blockSet fs b
  wasFree : ∀ x ∈ blockSet fs b, s.free fs x = true
  incoming : ∀ sl : Slot, sl.Indirect →
    Incoming fs (t.free fs) (Function.update (fileAddr fs t v) sl b) own w k

theorem newIndirect (io : env.IoOk) (inv : FileInv fs s ino v own) {w k b : Nat} {t : State}
    (incoming : Incoming fs (s.free fs) (fileAddr fs s v) own w k)
    (run : ufsBlockAlloc env fs v.inode.iNumber fs.fsBsize s = .done (0, b) t) :
    NewIndirect fs ino s v own w k t b := by
  rw [fs.bsize_eq_mul] at run
  obtain ⟨after, reserved, core, data, vnodes, wasFree, map⟩ :=
    ufsBlockAlloc_file io inv fs.frag_pos le_rfl run
  have addr : fileAddr fs t v = fileAddr fs s v := by rw [fileAddr, fileAddr, data]
  have stays : ∀ x, s.free fs x = false → t.free fs x = false := fun x used => by
    rw [map, used, Bool.false_and]
  refine ⟨after, reserved, core, data, stays, fun x free used => ?_, fun x hx => wasFree x hx.1 hx.2,
    fun sl ind => ?_⟩
  · rw [map, free, Bool.true_and, Bool.not_eq_false', decide_eq_true_eq] at used
    exact used
  · rw [addr]
    exact incoming.addIndirect ind stays fun x hx => wasFree x hx.1 hx.2

theorem NewIndirect.before {w k b : Nat} {t : State} (new : NewIndirect fs ino s v own w k t b) :
    fileAddr fs t v = fileAddr fs s v := by
  rw [fileAddr, fileAddr, new.data]

/-- Putting a new block in the place of a missing indirect block is a step of the tree. -/
theorem NewIndirect.step {w k b : Nat} {t : State} {v' : Vnode}
    (new : NewIndirect fs ino s v own w k t b) (sl : Slot) (ind : sl.Indirect) (missing : fileAddr fs s v sl = 0)
    (core : CoreFrame ino t s')
    (inode : ∃ db ib, v' = { v with
      inode := { v.inode with iDin2 := { v.inode.iDin2 with diDb := db, diIb := ib } } })
    (free : s'.free fs = t.free fs)
    (addr : ∀ sl' : Slot, sl'.Indirect →
      fileAddr fs s' v' sl' = Function.update (fileAddr fs t v) sl b sl')
    (agree : AgreeOn fs (indirSet fs (fileAddr fs s' v'))ᶜ t.data s'.data) :
    TreeStep fs ino s v s' v' := by
  refine ⟨new.core.trans core, inode, fun sl' ind' => ?_, ?_, fun x wasFree used => ?_, ?_, ?_⟩
  · rw [addr sl' ind', new.before]
    by_cases here : sl' = sl
    · exact .inr (here ▸ missing)
    · exact .inl (Function.update_of_ne here _ _)
  · rw [free]; exact new.stays
  · rw [free] at used
    refine ⟨sl, ind, ?_⟩
    rw [addr sl ind, Function.update_self]
    exact ⟨new.reserved.addr_ne, new.taken x wasFree used⟩
  · rintro x ⟨sl', ind', there, inside⟩
    rw [addr sl' ind', new.before] at there inside
    by_cases here : sl' = sl
    · subst here
      rw [Function.update_self] at inside
      exact .inr (new.wasFree x inside)
    · rw [Function.update_of_ne here] at there inside
      exact .inl ⟨sl', ind', there, inside⟩
  · rw [← new.data]; exact agree

theorem setBlock_newSingle (io : env.IoOk) (inv : FileInv fs s ino v own) {i w k : Nat}
    (hi : i < fs.fsNindir) (missing : v.inode.iDin2.diIb 0 = 0)
    (incoming : Incoming fs (s.free fs) (fileAddr fs s v) own w k)
    (run : ufsSetBlock env fs ino (ndaddr + i) w s = .done 0 s') :
    ∃ v', Stored fs ino s v own (ndaddr + i) w k s' v' := by
  unfold ufsSetBlock at run
  simp only at run
  rw [if_neg (by omega), Nat.add_sub_cancel_left, if_pos (Nat.div_eq_of_lt hi),
    Nat.mod_eq_of_lt hi] at run
  obtain ⟨ind, t₁, single, run⟩ := Prog.bind_eq_done.mp run
  unfold singleIndir at single
  rw [Prog.bind_of_done (vnode2inode_ok inv.there), if_neg (by simp [missing])] at single
  obtain ⟨⟨rc, b⟩, t, alloc, single⟩ := Prog.bind_eq_done.mp single
  simp only at single
  split at single
  · next failed =>
    cases single
    rw [if_pos failed] at run
    cases run
    exact absurd rfl failed
  · next ok =>
    obtain rfl : rc = 0 := not_not.mp ok
    have new := newIndirect io inv incoming alloc
    rw [Prog.bind_of_done (updateInode_ok new.inv.there _)] at single
    cases single
    rw [if_neg (by simp), writeIndir_ok io new.reserved.inBlock.offset_fits] at run
    cases run
    set v' : Vnode := { v with
      inode := { v.inode with
        iDin2 := { v.inode.iDin2 with diIb := Function.update v.inode.iDin2.diIb 0 b } } } with hv
    set s₁ := (t.setVnode ino v').put fs b (setPtr (fun _ => 0) i w) fs.fsBsize with hs
    have addr : fileAddr fs s₁ v' = Function.update
        (Function.update (fileAddr fs t v) .single b) (.data (ndaddr + i)) w := by
      refine slotAddr_newSingle hi missing new.reserved.addr_ne agree_storeBlock (fun i' hi' => ?_)
        (fun top => new.reserved.indirect_apart .double trivial top) (fun m hm mid => ?_)
      · refine (ptrAt_store hi').trans ?_
        rw [getPtr_setPtr _ incoming.addr_fits, getPtr_zero]
      · have here : fileAddr fs t v (.middle m) = lookup fs t.data (v.inode.iDin2.diIb 1) m :=
          if_pos hm
        have apart := new.reserved.indirect_apart (.middle m) trivial (by rw [here]; exact mid)
        rw [here] at apart
        exact apart
    have step : TreeStep fs ino s v s₁ v' := by
      refine new.step .single trivial missing ((setVnode_core v').trans (put_core _ _ _ _))
        ⟨_, _, rfl⟩ rfl (fun sl ind => ?_) ?_
      · rw [addr, update_data_indirect sl ind]
      · refine agree_storeBlock.mono (Set.compl_subset_compl.mpr fun x hx => ⟨.single, trivial, ?_⟩)
        rw [addr, update_data_indirect .single trivial, Function.update_self]
        exact ⟨new.reserved.addr_ne, hx⟩
    refine ⟨v', inv.step step (Function.update_self ..)
      ⟨new.inv.alloc.group, new.inv.alloc.cs, new.inv.alloc.total⟩ ?_, step, fun b' => ?_⟩
    · rw [addr]
      exact (new.inv.owned.putIndirect .single trivial new.reserved).putData
        (new.incoming .single trivial)
    · rw [addr, Function.update_apply, update_indirect_data .single trivial, new.before]
      simp only [Slot.data.injEq]

/-! ## The double tree -/

/-- An indirect block of the file is there, and the buffer has what is in it. -/
structure Ready (fs : Superblock) (ino : Nat) (s : State) (v : Vnode) (own : Nat → Nat) (w k : Nat)
    (sl : Slot) (ind : Indir) (s' : State) (v' : Vnode) : Prop where
  inv : FileInv fs s' ino v' own
  step : TreeStep fs ino s v s' v'
  incoming : Incoming fs (s'.free fs) (fileAddr fs s' v') own w k
  same : ∀ b, fileAddr fs s' v' (.data b) = fileAddr fs s v (.data b)
  here : fileAddr fs s' v' sl = ind.2.1
  addr_ne : ind.2.1 ≠ 0
  mirrors : Mirrors fs s'.data ind.2.1 ind.2.2

/-- A block that was just cleared mirrors a buffer of zeros. -/
theorem mirrors_zero {d : Nat → Byte} {b : Nat} :
    Mirrors fs (store d (b * fs.fsFsize) (fun _ => 0) fs.fsBsize) b (fun _ => 0) := by
  intro i hi
  rw [ptrAt_store hi]

/-- An old indirect block is read. -/
theorem ready_read (io : env.IoOk) (inv : FileInv fs s ino v own) {w k b : Nat} (sl : Slot)
    (incoming : Incoming fs (s.free fs) (fileAddr fs s v) own w k) (here : fileAddr fs s v sl = b)
    (there : b ≠ 0) {ind : Indir} (run : readIndir env fs b s = .done ind s') :
    ind.1 = 0 ∧ Ready fs ino s v own w k sl ind s' v := by
  rw [readIndir_ok io b s] at run
  cases run
  exact ⟨rfl, inv.atTick _, .atTick v _, incoming, fun _ => rfl, here, there, mirrors_read _ _⟩

/-- A new indirect block is cleared and becomes part of the tree. -/
theorem ready_new {w k b : Nat} {t : State} {v' : Vnode} {buf : Buf}
    (inv : FileInv fs s ino v own) (new : NewIndirect fs ino s v own w k t b) (sl : Slot)
    (ind : sl.Indirect) (missing : fileAddr fs s v sl = 0) (core : CoreFrame ino t s')
    (inode : ∃ db ib, v' = { v with
      inode := { v.inode with iDin2 := { v.inode.iDin2 with diDb := db, diIb := ib } } })
    (there : s'.vnodes ino = some v') (alloc : AllocOk fs s') (free : s'.free fs = t.free fs)
    (addr : fileAddr fs s' v' = Function.update (fileAddr fs t v) sl b)
    (agree : AgreeOn fs (indirSet fs (fileAddr fs s' v'))ᶜ t.data s'.data)
    (mirrors : Mirrors fs s'.data b buf) : Ready fs ino s v own w k sl (0, b, buf) s' v' := by
  have step := new.step sl ind missing core inode free (fun sl' _ => by rw [addr]) agree
  refine ⟨inv.step step there alloc ?_, step, ?_, fun b' => ?_, ?_, new.reserved.addr_ne, mirrors⟩
  · rw [addr, free]
    exact new.inv.owned.putIndirect sl ind new.reserved
  · rw [addr, free]
    exact new.incoming sl ind
  · rw [addr, update_indirect_data sl ind, new.before]
  · rw [addr, Function.update_self]

theorem doubleIndir_ready (io : env.IoOk) (inv : FileInv fs s ino v own) {w k : Nat}
    (incoming : Incoming fs (s.free fs) (fileAddr fs s v) own w k) {ind : Indir}
    (run : doubleIndir env fs ino s = .done ind s') (ok : ind.1 = 0) :
    ∃ v', Ready fs ino s v own w k .double ind s' v' := by
  unfold doubleIndir at run
  rw [Prog.bind_of_done (vnode2inode_ok inv.there)] at run
  by_cases there : v.inode.iDin2.diIb 1 ≠ 0
  · rw [if_pos there] at run
    exact ⟨v, (ready_read io inv .double incoming rfl there run).2⟩
  · rw [if_neg there] at run
    have missing : v.inode.iDin2.diIb 1 = 0 := not_not.mp there
    obtain ⟨⟨rc, b⟩, t, alloc, run⟩ := Prog.bind_eq_done.mp run
    simp only at run
    split at run
    · next failed => cases run; exact absurd ok failed
    · next fine =>
      obtain rfl : rc = 0 := not_not.mp fine
      have new := newIndirect io inv incoming alloc
      have bpos := fs.bsize_pos
      rw [Prog.bind_of_done (blkwrite_ok io new.reserved.inBlock.offset_fits _ t),
        if_neg (by omega), Prog.bind_of_done
        (updateInode_ok (s := t.put fs b (fun _ => 0) fs.fsBsize) new.inv.there _)] at run
      cases run
      set v' : Vnode := { v with
        inode := { v.inode with
          iDin2 := { v.inode.iDin2 with diIb := Function.update v.inode.iDin2.diIb 1 b } } } with hv
      set s₁ := (t.put fs b (fun _ => 0) fs.fsBsize).setVnode ino v' with hs
      have mirrors : Mirrors fs s₁.data b (fun _ => 0) := mirrors_zero
      have agree : AgreeOn fs (blockSet fs b)ᶜ t.data s₁.data := agree_put t b fun _ => 0
      have addr : fileAddr fs s₁ v' = Function.update (fileAddr fs t v) .double b := by
        refine slotAddr_newDouble missing new.reserved.addr_ne agree (fun i hi => ?_)
          (fun low => new.reserved.indirect_apart .single trivial low)
        exact (mirrors i hi).symm.trans (getPtr_zero i)
      refine ⟨v', ready_new inv new .double trivial missing
        ((put_core _ _ _ _).trans (setVnode_core v')) ⟨_, _, rfl⟩ (Function.update_self ..)
        ⟨new.inv.alloc.group, new.inv.alloc.cs, new.inv.alloc.total⟩ rfl addr ?_ mirrors⟩
      refine agree.mono (Set.compl_subset_compl.mpr fun x hx => ⟨.double, trivial, ?_⟩)
      rw [addr, Function.update_self]
      exact ⟨new.reserved.addr_ne, hx⟩

theorem middleIndir_ready (io : env.IoOk) (inv : FileInv fs s ino v own) {w k i : Nat}
    (hi : i < fs.fsNindir) (incoming : Incoming fs (s.free fs) (fileAddr fs s v) own w k) {top ind : Indir}
    (here : fileAddr fs s v .double = top.2.1) (there : top.2.1 ≠ 0)
    (mirrors : Mirrors fs s.data top.2.1 top.2.2)
    (run : middleIndir env fs ino top i s = .done ind s') (ok : ind.1 = 0) :
    ∃ v', Ready fs ino s v own w k (.middle i) ind s' v' := by
  obtain ⟨e, a, buf⟩ := top
  simp only at here there mirrors
  have below : fileAddr fs s v (.middle i) = getPtr buf i := by
    rw [mirrors i hi, ← lookup_of_ne there, ← here]
    exact if_pos hi
  unfold middleIndir at run
  simp only at run
  by_cases old : getPtr buf i ≠ 0
  · rw [if_pos old] at run
    exact ⟨v, (ready_read io inv (.middle i) incoming below old run).2⟩
  · rw [if_neg old, Prog.bind_of_done (vnode2inode_ok inv.there)] at run
    have missing : getPtr buf i = 0 := not_not.mp old
    obtain ⟨⟨rc, b⟩, t, alloc, run⟩ := Prog.bind_eq_done.mp run
    simp only at run
    split at run
    · next failed => cases run; exact absurd ok failed
    · next fine =>
      obtain rfl : rc = 0 := not_not.mp fine
      have new := newIndirect io inv incoming alloc
      have before := new.before
      have topFits : a * fs.fsFsize < 2 ^ 63 := by
        have := (inv.owned.fits .double (by rw [here]; exact there)).offset_fits
        rwa [here] at this
      have bpos := fs.bsize_pos
      rw [Prog.bind_of_done (writeIndir_ok io topFits _ _ _ _ t), if_neg (by simp),
        Prog.bind_of_done (blkwrite_ok io new.reserved.inBlock.offset_fits _ _), if_neg (by omega)]
        at run
      cases run
      set s₁ := (t.put fs a (setPtr buf i b) fs.fsBsize).put fs b (fun _ => 0) fs.fsBsize with hs
      have cleared : Mirrors fs s₁.data b (fun _ => 0) := mirrors_zero
      have root : v.inode.iDin2.diIb 1 = a := here
      have topThere : fileAddr fs t v .double ≠ 0 := by rw [before, here]; exact there
      -- the other indirect blocks are apart from the two blocks written here
      have apart : ∀ sl : Slot, sl.Indirect → sl ≠ .double → fileAddr fs t v sl ≠ 0 →
          Disjoint (blockSet fs (fileAddr fs t v sl)) (blockSet fs a ∪ blockSet fs b) := by
        intro sl ind ne mapped
        have old := new.inv.owned.indirect_apart sl .double ind trivial ne mapped topThere
        rw [show fileAddr fs t v .double = a from root] at old
        exact Set.disjoint_union_right.mpr ⟨old, new.reserved.indirect_apart sl ind mapped⟩
      have topFresh : Disjoint (blockSet fs a) (blockSet fs b) := by
        have := new.reserved.indirect_apart .double trivial topThere
        rwa [show fileAddr fs t v .double = a from root] at this
      have agree : AgreeOn fs (blockSet fs a ∪ blockSet fs b)ᶜ t.data s₁.data := by
        refine ((agree_put t a (setPtr buf i b)).mono ?_).trans ((agree_put _ b fun _ => 0).mono ?_)
        · exact Set.compl_subset_compl.mpr Set.subset_union_left
        · exact Set.compl_subset_compl.mpr Set.subset_union_right
      have addr : fileAddr fs s₁ v = Function.update (fileAddr fs t v) (.middle i) b := by
        refine slotAddr_newMiddle hi (root ▸ there) new.reserved.addr_ne ?_ (root ▸ agree)
          (fun i' hi' => ?_) (fun j hj => (cleared j hj).symm.trans (getPtr_zero j))
          (fun low => root ▸ apart .single trivial (by simp) low) (fun m hm mid => ?_)
        · rw [root, lookup_of_ne there, new.data, ← mirrors i hi, missing]
        · rw [root]
          have kept : ptrAt fs s₁.data a i' = ptrAt fs (store t.data (a * fs.fsFsize)
              (setPtr buf i b) fs.fsBsize) a i' :=
            ptrAt_agree ((agree_put (t.put fs a (setPtr buf i b) fs.fsBsize) b fun _ => 0).mono
              topFresh.subset_compl_right) hi'
          rw [kept]
          exact ptrAt_put (new.data.symm ▸ mirrors) new.reserved.inBlock.addr_fits i' hi'
        · have middle : fileAddr fs t v (.middle m) = lookup fs t.data (v.inode.iDin2.diIb 1) m :=
            if_pos hm
          have := apart (.middle m) trivial (by simp) (by rw [middle]; exact mid)
          rw [middle] at this
          rwa [root] at this ⊢
      refine ⟨v, ready_new inv new (.middle i) trivial (below.trans missing)
        ((put_core _ _ _ _).trans (put_core _ _ _ _)) ⟨_, _, rfl⟩ new.inv.there
        ⟨new.inv.alloc.group, new.inv.alloc.cs, new.inv.alloc.total⟩ rfl addr ?_ cleared⟩
      refine agree.mono (Set.compl_subset_compl.mpr ?_)
      rintro x (hx | hx)
      · refine ⟨.double, trivial, ?_⟩
        rw [addr, Function.update_of_ne (by simp), before, here]
        exact ⟨there, hx⟩
      · refine ⟨.middle i, trivial, ?_⟩
        rw [addr, Function.update_self]
        exact ⟨new.reserved.addr_ne, hx⟩

theorem setBlock_double (io : env.IoOk) (inv : FileInv fs s ino v own) {i j w k : Nat}
    (hi : i < fs.fsNindir) (hj : j < fs.fsNindir)
    (incoming : Incoming fs (s.free fs) (fileAddr fs s v) own w k)
    (run : ufsSetBlock env fs ino (ndaddr + fs.fsNindir + (i * fs.fsNindir + j)) w s = .done 0 s') :
    ∃ v', Stored fs ino s v own (ndaddr + fs.fsNindir + (i * fs.fsNindir + j)) w k s' v' := by
  have npos : 0 < fs.fsNindir := nindir_pos
  have rest : ndaddr + fs.fsNindir + (i * fs.fsNindir + j) - ndaddr - fs.fsNindir
      = i * fs.fsNindir + j := by omega
  have notSingle : (ndaddr + fs.fsNindir + (i * fs.fsNindir + j) - ndaddr) / fs.fsNindir ≠ 0 :=
    (Nat.div_pos (by omega) npos).ne'
  unfold ufsSetBlock at run
  simp only at run
  rw [if_neg (by omega), if_neg notSingle, rest, if_pos (Nat.div_eq_of_lt (double_bound hi hj)),
    double_div i hj, double_mod i hj] at run
  obtain ⟨top, s₁, first, run⟩ := Prog.bind_eq_done.mp run
  split at run
  · next failed => exact absurd (Prog.pure_eq_done.mp run).1 failed
  obtain ⟨v₁, topReady⟩ := doubleIndir_ready io inv incoming first (not_not.mp ‹_›)
  obtain ⟨ind, s₂, second, run⟩ := Prog.bind_eq_done.mp run
  split at run
  · next failed => exact absurd (Prog.pure_eq_done.mp run).1 failed
  obtain ⟨v₂, ready⟩ := middleIndir_ready io topReady.inv hi topReady.incoming topReady.here
    topReady.addr_ne topReady.mirrors second (not_not.mp ‹_›)
  obtain ⟨e, a, buf⟩ := ind
  have here : fileAddr fs s₂ v₂ (.middle i) = a := ready.here
  have there : fileAddr fs s₂ v₂ (.middle i) ≠ 0 := by rw [here]; exact ready.addr_ne
  have place : lookup fs s₂.data (v₂.inode.iDin2.diIb 1) i = a := (if_pos hi).symm.trans here
  have fits := (ready.inv.owned.fits _ there).offset_fits
  rw [here] at fits
  rw [writeIndir_ok io fits] at run
  cases run
  rw [← here]
  refine ⟨v₂, ((stored_of_put ready.inv (.middle i) trivial there ready.incoming ?_).after
    ready.step ready.same).after topReady.step topReady.same⟩
  have apart : ∀ sl : Slot, sl.Indirect → sl ≠ .middle i → fileAddr fs s₂ v₂ sl ≠ 0 →
      Disjoint (blockSet fs (fileAddr fs s₂ v₂ sl)) (blockSet fs a) := by
    intro sl ind ne mapped
    have := ready.inv.owned.indirect_apart sl (.middle i) ind trivial ne mapped there
    rwa [here] at this
  rw [here]
  refine slotAddr_double hi hj (place ▸ ready.addr_ne) (place ▸ agree_storeBlock) ?_
    (fun low => place ▸ apart .single trivial (by simp) low)
    (fun up => place ▸ apart .double trivial (by simp) up) (fun m hm ne mid => ?_)
  · rw [place]
    exact ptrAt_put ready.mirrors incoming.addr_fits
  · have middle : fileAddr fs s₂ v₂ (.middle m) = lookup fs s₂.data (v₂.inode.iDin2.diIb 1) m :=
      if_pos hm
    have := apart (.middle m) trivial (by simpa using ne) (by rw [middle]; exact mid)
    rwa [middle, ← place] at this

/-- `ufs_set_block`: the map moves at one logical block and nowhere else. -/
theorem ufsSetBlock_spec (io : env.IoOk) (inv : FileInv fs s ino v own) {fbn w k : Nat}
    (incoming : Incoming fs (s.free fs) (fileAddr fs s v) own w k)
    (run : ufsSetBlock env fs ino fbn w s = .done 0 s') :
    ∃ v', Stored fs ino s v own fbn w k s' v' := by
  rcases block_cases fs fbn with direct | ⟨i, hi, rfl⟩ | ⟨i, hi, j, hj, rfl⟩ | far
  · exact setBlock_direct inv direct incoming run
  · by_cases there : v.inode.iDin2.diIb 0 = 0
    · exact setBlock_newSingle io inv hi there incoming run
    · exact setBlock_oldSingle io inv hi there incoming run
  · exact setBlock_double io inv hi hj incoming run
  · -- too far for the double tree: the code stops there
    have npos : 0 < fs.fsNindir := nindir_pos
    unfold Superblock.maxBlocks at far
    have notSingle : (fbn - ndaddr) / fs.fsNindir ≠ 0 := (Nat.div_pos (by omega) npos).ne'
    have notDouble : (fbn - ndaddr - fs.fsNindir) / (fs.fsNindir * fs.fsNindir) ≠ 0 :=
      (Nat.div_pos (by omega) (Nat.mul_pos npos npos)).ne'
    unfold ufsSetBlock at run
    simp only at run
    rw [if_neg (by omega), if_neg notSingle, if_neg notDouble] at run
    cases run

end Steps

end FuseUfs
