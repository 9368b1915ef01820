import FuseUfs.Fragments

/-! # Giving the blocks of a file back

A cut frees extents and clears the addresses that lead to them, data blocks first and then
the indirect blocks that nothing hangs from any more. `Dropped` states the outcome for a
whole set of slots: the rest of the map stays, the free map gains the extents of these
slots and no others, and only indirect blocks of the file were written.
-/

namespace FuseUfs

open Lib

/-- The slots in `gone` have no address any more and their extents are free. -/
structure Dropped (fs : Superblock) (ino : Nat) (own : Nat → Nat) (gone : Set Slot) (s : State)
    (v : Vnode) (s' : State) (v' : Vnode) : Prop where
  inv : FileInv fs s' ino v' own
  cache : InoCache fs s → InoCache fs s'
  dinodes : ∀ i, i ≠ ino → s'.dinodes i = s.dinodes i
  others : ∀ i, i ≠ ino → s'.vnodes i = s.vnodes i
  files : s'.files = s.files
  ronly : s'.fsRonly = s.fsRonly
  cleared : ∀ sl ∈ gone, fileAddr fs s' v' sl = 0
  stays : ∀ sl, sl ∉ gone → fileAddr fs s' v' sl = fileAddr fs s v sl
  free : ∀ x, s'.free fs x = true ↔
    s.free fs x = true ∨ ∃ sl ∈ gone, x ∈ slotExt fs (fileAddr fs s v) own sl
  bytes : AgreeOn fs (indirSet fs (fileAddr fs s v))ᶜ s.data s'.data
  /-- The maps of the inodes stay. -/
  inodes : ∀ cg, (s'.cgs cg).cgInosused = (s.cgs cg).cgInosused
  triple : v.inode.iDin2.diIb 2 = 0 → v'.inode.iDin2.diIb 2 = 0

section Dropped

variable {fs : Superblock} {ino : Nat} {own : Nat → Nat} {gone gone' : Set Slot}
  {s s' s'' : State} {v v' v'' : Vnode}

/-- What is left of the map after a drop. -/
theorem Dropped.ext_of_not_mem (drop : Dropped fs ino own gone s v s' v') {sl : Slot}
    (left : sl ∉ gone) :
    slotExt fs (fileAddr fs s' v') own sl = slotExt fs (fileAddr fs s v) own sl := by
  simp only [slotExt, drop.stays sl left]

theorem Dropped.ext_subset (drop : Dropped fs ino own gone s v s' v') (sl : Slot) :
    slotExt fs (fileAddr fs s' v') own sl ⊆ slotExt fs (fileAddr fs s v) own sl := by
  intro x mine
  by_cases out : sl ∈ gone
  · exact absurd (drop.cleared sl out) mine.1
  · rw [drop.ext_of_not_mem out] at mine
    exact mine

theorem Dropped.indir_subset (drop : Dropped fs ino own gone s v s' v') :
    indirSet fs (fileAddr fs s' v') ⊆ indirSet fs (fileAddr fs s v) := by
  rintro x ⟨sl, ind, inside⟩
  have mine : x ∈ slotExt fs (fileAddr fs s' v') own sl := (slotExt_indirect ind).mpr inside
  exact ⟨sl, ind, (slotExt_indirect ind).mp (drop.ext_subset sl mine)⟩

theorem Dropped.trans (first : Dropped fs ino own gone s v s' v')
    (second : Dropped fs ino own gone' s' v' s'' v'') :
    Dropped fs ino own (gone ∪ gone') s v s'' v'' := by
  refine ⟨second.inv, fun cache => second.cache (first.cache cache),
    fun i ne => (second.dinodes i ne).trans (first.dinodes i ne),
    fun i ne => (second.others i ne).trans (first.others i ne), second.files.trans first.files,
    second.ronly.trans first.ronly, fun sl out => ?_, fun sl left => ?_, fun x => ?_, ?_,
    fun cg => (second.inodes cg).trans (first.inodes cg), fun none => second.triple (first.triple none)⟩
  · by_cases later : sl ∈ gone'
    · exact second.cleared sl later
    · rw [second.stays sl later]
      exact first.cleared sl (out.resolve_right later)
  · rw [second.stays sl fun h => left (.inr h), first.stays sl fun h => left (.inl h)]
  · rw [second.free, first.free]
    constructor
    · rintro ((free | ⟨sl, out, mine⟩) | ⟨sl, out, mine⟩)
      · exact .inl free
      · exact .inr ⟨sl, .inl out, mine⟩
      · exact .inr ⟨sl, .inr out, first.ext_subset sl mine⟩
    · rintro (free | ⟨sl, out, mine⟩)
      · exact .inl (.inl free)
      · by_cases early : sl ∈ gone
        · exact .inl (.inr ⟨sl, early, mine⟩)
        · refine .inr ⟨sl, out.resolve_left early, ?_⟩
          rw [first.ext_of_not_mem early]
          exact mine
  · exact first.bytes.trans (second.bytes.mono (Set.compl_subset_compl.mpr first.indir_subset))

/-- Slots without an address may be counted in. -/
theorem Dropped.grow (drop : Dropped fs ino own gone s v s' v') (more : gone ⊆ gone')
    (empty : ∀ sl ∈ gone', sl ∉ gone → fileAddr fs s v sl = 0) :
    Dropped fs ino own gone' s v s' v' := by
  refine ⟨drop.inv, drop.cache, drop.dinodes, drop.others, drop.files, drop.ronly, fun sl out => ?_,
    fun sl left => drop.stays sl fun h => left (more h), fun x => ?_, drop.bytes, drop.inodes,
    drop.triple⟩
  · by_cases early : sl ∈ gone
    · exact drop.cleared sl early
    · rw [drop.stays sl early, empty sl out early]
  · rw [drop.free]
    refine or_congr Iff.rfl ⟨fun ⟨sl, out, mine⟩ => ⟨sl, more out, mine⟩, fun ⟨sl, out, mine⟩ => ?_⟩
    by_cases early : sl ∈ gone
    · exact ⟨sl, early, mine⟩
    · exact absurd (empty sl out early) mine.1

theorem atTick_core (ino : Nat) (s : State) (n : Nat) : CoreFrame ino s (s.atTick n) :=
  ⟨rfl, rfl, rfl, rfl, rfl, rfl, fun _ _ => rfl⟩

theorem Dropped.refl (inv : FileInv fs s ino v own) : Dropped fs ino own ∅ s v s v :=
  ⟨inv, id, fun _ _ => rfl, fun _ _ => rfl, rfl, rfl, fun _ h => h.elim, fun _ _ => rfl,
    fun _ => ⟨.inl, fun h => h.resolve_right fun ⟨_, out, _⟩ => out⟩, fun _ _ _ _ => rfl,
    fun _ => rfl, id⟩

theorem fileAddr_atTick (n : Nat) : fileAddr fs (s.atTick n) v = fileAddr fs s v := rfl

/-- A step of the walk that only reads. -/
theorem Dropped.atTick (inv : FileInv fs s ino v own) (t : Nat) :
    Dropped fs ino own ∅ s v (s.atTick t) v :=
  ⟨inv.atTick t, fun cache => cache.core (atTick_core ino s t),
    fun _ _ => rfl, fun _ _ => rfl, rfl, rfl, fun _ h => h.elim, fun _ _ => rfl,
    fun _ => ⟨.inl, fun h => h.resolve_right fun ⟨_, out, _⟩ => out⟩, fun _ _ _ _ => rfl,
    fun _ => rfl, id⟩

/-- Clearing addresses and freeing the extents behind them keeps the rest in order. -/
theorem Owned.drop {free free' : Nat → Bool} {addr addr' : Slot → Nat}
    (owned : Owned fs free addr own) (cleared : ∀ sl ∈ gone, addr' sl = 0)
    (stays : ∀ sl, sl ∉ gone → addr' sl = addr sl)
    (freed : ∀ x, free' x = true → free x = true ∨ ∃ sl ∈ gone, x ∈ slotExt fs addr own sl) :
    Owned fs free' addr' own := by
  have left : ∀ sl, addr' sl ≠ 0 → sl ∉ gone := fun sl there out => there (cleared sl out)
  have ext : ∀ sl, sl ∉ gone → slotExt fs addr' own sl = slotExt fs addr own sl := fun sl out => by
    simp only [slotExt, stays sl out]
  refine ⟨fun sl there => ?_, fun sl x mine => ?_, fun sl sl' ne => ?_⟩
  · have out := left sl there
    rw [stays sl out] at there ⊢
    exact owned.fits sl there
  · have out := left sl mine.1
    rw [ext sl out] at mine
    obtain ⟨used, bounds⟩ := owned.used sl x mine
    refine ⟨?_, bounds⟩
    by_contra now
    rcases freed x (by simpa using now) with free | ⟨sl', out', mine'⟩
    · rw [used] at free
      cases free
    · have ne : sl ≠ sl' := fun e => out (e ▸ out')
      exact Set.disjoint_left.mp (owned.apart ne) mine mine'
  · change Disjoint (slotExt fs addr' own sl) (slotExt fs addr' own sl')
    rw [Set.disjoint_left]
    intro x mine mine'
    have out := left sl mine.1
    have out' := left sl' mine'.1
    rw [ext sl out] at mine
    rw [ext sl' out'] at mine'
    exact Set.disjoint_left.mp (owned.apart ne) mine mine'

/-- Giving blocks back leaves everything of other files alone. -/
theorem Dropped.foreign (drop : Dropped fs ino own gone s v s' v') {x : Nat}
    (hold : OthersHold fs s v own x) :
    OthersHold fs s' v' own x ∧ ∀ j < fs.fsFsize, s'.data (x * fs.fsFsize + j)
      = s.data (x * fs.fsFsize + j) := by
  obtain ⟨used, not⟩ := hold
  have used : s.free fs x = false := used
  refine ⟨⟨?_, ?_⟩, drop.bytes x ?_⟩
  · change s'.free fs x = false
    by_contra now
    rcases (drop.free x).mp (by simpa using now) with free | ⟨sl, -, mine⟩
    · rw [used] at free
      cases free
    · exact not ⟨sl, mine⟩
  · rintro ⟨sl, mine⟩
    exact not ⟨sl, drop.ext_subset sl mine⟩
  · rintro ⟨sl, ind, inside⟩
    exact not ⟨sl, (slotExt_indirect ind).mpr inside⟩

end Dropped

/-! ## Clearing addresses -/

section Clear

variable {fs : Superblock} {d d' : Nat → Byte} {din : Dinode}

/-- The inode lets go of a single indirect block without addresses. -/
theorem slotAddr_dropSingle
    (empty : ∀ i < fs.fsNindir, slotAddr fs d din (.data (ndaddr + i)) = 0) :
    slotAddr fs d { din with diIb := Function.update din.diIb 0 0 }
      = Function.update (slotAddr fs d din) .single 0 := by
  funext sl
  cases sl with
  | data b =>
      rw [Function.update_of_ne (by simp)]
      rcases block_cases fs b with direct | ⟨i, hi, rfl⟩ | ⟨m, hm, j, hj, rfl⟩ | far
      · simp only [slotAddr, blockAt_direct _ _ direct]
      · rw [empty i hi]
        simp only [slotAddr, blockAt_single _ _ hi, Function.update_self]
        exact if_pos rfl
      · simp only [slotAddr, blockAt_double _ _ hm hj]
        rw [Function.update_of_ne (by decide)]
      · simp only [slotAddr, blockAt_beyond _ _ far]
  | single => simp [slotAddr]
  | double => simp [slotAddr]
  | middle i =>
      rw [Function.update_of_ne (by simp)]
      simp only [slotAddr]
      rw [Function.update_of_ne (by decide)]

/-- The inode lets go of the top of a double tree without blocks below. -/
theorem slotAddr_dropDouble (empty : ∀ m < fs.fsNindir, slotAddr fs d din (.middle m) = 0) :
    slotAddr fs d { din with diIb := Function.update din.diIb 1 0 }
      = Function.update (slotAddr fs d din) .double 0 := by
  have below : ∀ m < fs.fsNindir, lookup fs d (din.diIb 1) m = 0 := fun m hm =>
    (if_pos hm).symm.trans (empty m hm)
  funext sl
  cases sl with
  | data b =>
      rw [Function.update_of_ne (by simp)]
      rcases block_cases fs b with direct | ⟨i, hi, rfl⟩ | ⟨m, hm, j, hj, rfl⟩ | far
      · simp only [slotAddr, blockAt_direct _ _ direct]
      · simp only [slotAddr, blockAt_single _ _ hi]
        rw [Function.update_of_ne (by decide)]
      · simp only [slotAddr, blockAt_double _ _ hm hj, Function.update_self, below m hm]
        simp [lookup]
      · simp only [slotAddr, blockAt_beyond _ _ far]
  | single => simp [slotAddr]
  | double => simp [slotAddr]
  | middle m =>
      rw [Function.update_of_ne (by simp)]
      simp only [slotAddr, Function.update_self]
      by_cases hm : m < fs.fsNindir
      · rw [if_pos hm, if_pos hm, below m hm]
        exact if_pos rfl
      · rw [if_neg hm, if_neg hm]

/-- The top of the double tree lets go of a block without addresses. -/
theorem slotAddr_dropMiddle {m : Nat} (hm : m < fs.fsNindir) (there : din.diIb 1 ≠ 0)
    (agree : AgreeOn fs (blockSet fs (din.diIb 1))ᶜ d d')
    (stored : ∀ i < fs.fsNindir,
      ptrAt fs d' (din.diIb 1) i = if i = m then 0 else ptrAt fs d (din.diIb 1) i)
    (low : din.diIb 0 ≠ 0 → Disjoint (blockSet fs (din.diIb 0)) (blockSet fs (din.diIb 1)))
    (mid : ∀ i < fs.fsNindir, lookup fs d (din.diIb 1) i ≠ 0 →
      Disjoint (blockSet fs (lookup fs d (din.diIb 1) i)) (blockSet fs (din.diIb 1)))
    (empty : ∀ j < fs.fsNindir,
      slotAddr fs d din (.data (ndaddr + fs.fsNindir + (m * fs.fsNindir + j))) = 0) :
    slotAddr fs d' din = Function.update (slotAddr fs d din) (.middle m) 0 := by
  have middles : ∀ i < fs.fsNindir, lookup fs d' (din.diIb 1) i
      = if i = m then 0 else lookup fs d (din.diIb 1) i := by
    intro i hi
    rw [lookup_of_ne there, lookup_of_ne there]
    exact stored i hi
  funext sl
  cases sl with
  | data b =>
      rw [Function.update_of_ne (by simp)]
      rcases block_cases fs b with direct | ⟨i, hi, rfl⟩ | ⟨i, hi, j, hj, rfl⟩ | far
      · simp only [slotAddr, blockAt_direct _ din direct]
      · simp only [slotAddr, blockAt_single _ din hi]
        exact lookup_agree (fun h => agree.mono (low h).subset_compl_right) hi
      · by_cases here : i = m
        · subst here
          rw [empty j hj]
          simp only [slotAddr, blockAt_double _ din hi hj, middles i hi, if_pos]
          exact if_pos rfl
        · simp only [slotAddr, blockAt_double _ din hi hj, middles i hi, if_neg here]
          exact lookup_agree (fun h => agree.mono (mid i hi h).subset_compl_right) hj
      · simp only [slotAddr, blockAt_beyond _ din far]
  | single => simp [slotAddr]
  | double => simp [slotAddr]
  | middle i =>
      simp only [slotAddr, Function.update_apply, Slot.middle.injEq]
      by_cases hi : i < fs.fsNindir
      · rw [if_pos hi, if_pos hi, middles i hi]
      · rw [if_neg hi, if_neg hi]
        simp

end Clear

/-! ## One slot -/

/-- The extent of a slot is free again; the map still leads to it. -/
structure Freed (fs : Superblock) (ino : Nat) (own : Nat → Nat) (sl : Slot) (s : State) (v : Vnode)
    (t : State) : Prop where
  alloc : AllocOk fs t
  core : CoreFrame ino s t
  data : t.data = s.data
  vnodes : t.vnodes = s.vnodes
  free : ∀ x, t.free fs x = true ↔ s.free fs x = true ∨ x ∈ slotExt fs (fileAddr fs s v) own sl
  inodes : ∀ cg, (t.cgs cg).cgInosused = (s.cgs cg).cgInosused

/-- The address of a slot is gone; the free map is as before. -/
structure Unmapped (fs : Superblock) (ino : Nat) (sl : Slot) (s : State) (v : Vnode) (s' : State)
    (v' : Vnode) : Prop where
  there : s'.vnodes ino = some v'
  number : v'.inode.iNumber = v.inode.iNumber
  core : CoreFrame ino s s'
  cgs : s'.cgs = s.cgs
  cs : s'.fsCsp = s.fsCsp
  total : s'.fsCstotal = s.fsCstotal
  addr : fileAddr fs s' v' = Function.update (fileAddr fs s v) sl 0
  bytes : AgreeOn fs (indirSet fs (fileAddr fs s v))ᶜ s.data s'.data
  triple : v.inode.iDin2.diIb 2 = 0 → v'.inode.iDin2.diIb 2 = 0

section Steps

variable {env : Env} {fs : Superblock} {ino : Nat} {own : Nat → Nat} {s s' t : State}
  {v v' : Vnode}

/-- `ufs_block_free` of the whole extent of a slot. -/
theorem ufsBlockFree_slot (io : env.IoOk) (inv : FileInv fs s ino v own) (sl : Slot)
    (there : fileAddr fs s v sl ≠ 0) (pos : 0 < slotWidth fs own sl) :
    ∃ t, ufsBlockFree env fs (fileAddr fs s v sl) (slotWidth fs own sl * fs.fsFsize) s
      = .done () t ∧ Freed fs ino own sl s v t := by
  set p := fileAddr fs s v sl with hp
  have mine : ∀ x, p ≤ x → x < p + slotWidth fs own sl → x ∈ slotExt fs (fileAddr fs s v) own sl :=
    fun x low high => ⟨there, low, high⟩
  obtain ⟨t, run, after, step⟩ := ufsBlockFree_spec io inv.alloc (inv.owned.fits sl there) pos
    fun x low high => (inv.owned.used sl x (mine x low high)).1
  have bound : p < fs.fsSize := (inv.owned.used sl p (mine p le_rfl (by omega))).2.2
  rw [← hp, if_neg (by have := Nat.mod_le p (2 ^ 32); omega)] at step
  obtain ⟨core, data, vnodes⟩ := step.frame.core ino
  refine ⟨t, run, after, core, data, vnodes, fun x => ?_, fun cg => (step.groups cg).inosused⟩
  rw [step.map, Bool.or_eq_true, decide_eq_true_eq]
  exact or_congr Iff.rfl ⟨fun h => mine x h.1 h.2, fun h => h.2⟩

/-- A slot without an address has nothing to free. -/
theorem Freed.of_missing (inv : FileInv fs s ino v own) {sl : Slot} (missing : fileAddr fs s v sl = 0) :
    Freed fs ino own sl s v s :=
  ⟨inv.alloc, .refl ino s, rfl, rfl,
    fun _ => ⟨.inl, fun h => h.resolve_right fun mine => mine.1 missing⟩, fun _ => rfl⟩

/-- Freeing and clearing one slot. -/
theorem Dropped.of_unmapped (inv : FileInv fs s ino v own) {sl : Slot}
    (freed : Freed fs ino own sl s v t) (gone : Unmapped fs ino sl t v s' v') :
    Dropped fs ino own {sl} s v s' v' := by
  have before : fileAddr fs t v = fileAddr fs s v := by rw [fileAddr, fileAddr, freed.data]
  have core := freed.core.trans gone.core
  have free : ∀ x, s'.free fs x = true ↔
      s.free fs x = true ∨ ∃ sl' ∈ ({sl} : Set Slot), x ∈ slotExt fs (fileAddr fs s v) own sl' := by
    intro x
    have same : s'.free fs x = t.free fs x := by rw [State.free, State.free, gone.cgs]
    rw [same, freed.free]
    simp
  have cleared : ∀ sl' ∈ ({sl} : Set Slot), fileAddr fs s' v' sl' = 0 := by
    rintro sl' rfl
    rw [gone.addr, Function.update_self]
  have stays : ∀ sl', sl' ∉ ({sl} : Set Slot) → fileAddr fs s' v' sl' = fileAddr fs s v sl' := by
    intro sl' ne
    rw [gone.addr, before]
    exact Function.update_of_ne ne _ _
  have bytes : AgreeOn fs (indirSet fs (fileAddr fs s v))ᶜ s.data s'.data := by
    have := gone.bytes
    rwa [before, freed.data] at this
  have alloc : AllocOk fs s' := by
    refine ⟨?_, ?_, ?_⟩
    · rw [gone.cgs]; exact freed.alloc.group
    · rw [gone.cgs, gone.cs]; exact freed.alloc.cs
    · rw [gone.total, gone.cgs]; exact freed.alloc.total
  have owned := inv.owned.drop cleared stays fun x => (free x).mp
  refine ⟨⟨⟨alloc, fun x hx => ?_, zero_of_agree bytes (fun x hx => ?_) inv.zero, fun x hx => ?_⟩,
    gone.there, gone.number.trans inv.number, inv.valid, owned⟩, fun cache => cache.core core,
    fun i _ => by rw [core.dinodes], core.others, core.files, core.ronly, cleared, stays, free, bytes,
    fun cg => by rw [gone.cgs, freed.inodes], gone.triple⟩
  · by_contra now
    rcases (free x).mp (by simpa using now) with was | ⟨sl', -, mine⟩
    · rw [inv.boot x hx] at was
      cases was
    · have := (inv.owned.used sl' x mine).2.1
      omega
  · rintro ⟨sl', ind, inside⟩
    have := (inv.owned.used sl' x ((slotExt_indirect ind).mpr inside)).2.1
    omega
  · rcases (free x).mp hx with was | ⟨sl', -, mine⟩
    · exact inv.device x was
    · exact (inv.owned.used sl' x mine).2.2

/-- A write to an indirect block of the file that clears one address. -/
theorem Unmapped.of_put {sl : Slot} (sl' : Slot) (ind : sl'.Indirect) {buf : Buf}
    (there : s.vnodes ino = some v) (mapped : fileAddr fs s v sl' ≠ 0)
    (addr : fileAddr fs (s.put fs (fileAddr fs s v sl') buf fs.fsBsize) v
      = Function.update (fileAddr fs s v) sl 0) :
    Unmapped fs ino sl s v (s.put fs (fileAddr fs s v sl') buf fs.fsBsize) v := by
  refine ⟨there, rfl, put_core _ _ _ _, rfl, rfl, rfl, addr, agree_storeBlock.mono ?_, id⟩
  exact Set.compl_subset_compl.mpr fun x hx => ⟨sl', ind, mapped, hx⟩

/-- A read between two steps. -/
theorem Unmapped.after_tick {sl : Slot} {n : Nat} (gone : Unmapped fs ino sl (s.atTick n) v s' v') :
    Unmapped fs ino sl s v s' v' :=
  ⟨gone.there, gone.number, (atTick_core ino s n).trans gone.core, gone.cgs, gone.cs,
    gone.total, gone.addr, gone.bytes, gone.triple⟩

theorem setBlock_clearDirect (there : s.vnodes ino = some v) {b : Nat} (direct : b < ndaddr) :
    ∃ s' v', ufsSetBlock env fs ino b 0 s = .done 0 s' ∧ Unmapped fs ino (.data b) s v s' v' := by
  unfold ufsSetBlock
  simp only [if_pos direct]
  rw [Prog.bind_of_done (updateInode_ok there _), Prog.pure_apply]
  exact ⟨_, _, rfl, Function.update_self .., rfl, setVnode_core _, rfl, rfl, rfl,
    slotAddr_direct direct, fun _ _ _ _ => rfl, id⟩

section Tree

variable {free : Nat → Bool} (io : env.IoOk) (there : s.vnodes ino = some v)
  (owned : Owned fs free (fileAddr fs s v) own)

include io there owned

theorem setBlock_clearSingle {i : Nat} (hi : i < fs.fsNindir) (mapped : v.inode.iDin2.diIb 0 ≠ 0) :
    ∃ s', ufsSetBlock env fs ino (ndaddr + i) 0 s = .done 0 s' ∧
      Unmapped fs ino (.data (ndaddr + i)) s v s' v := by
  have fits : v.inode.iDin2.diIb 0 * fs.fsFsize < 2 ^ 63 :=
    (owned.fits .single mapped).offset_fits
  have single : singleIndir env fs ino s = .done
      (0, v.inode.iDin2.diIb 0, fill (fun _ => 0)
        (fun j => s.data (v.inode.iDin2.diIb 0 * fs.fsFsize + j)) fs.fsBsize)
      (s.atTick (s.tick + 1)) := by
    unfold singleIndir
    rw [Prog.bind_of_done (vnode2inode_ok there), if_pos mapped]
    exact readIndir_ok io _ s
  unfold ufsSetBlock
  simp only
  rw [if_neg (by omega), Nat.add_sub_cancel_left, if_pos (Nat.div_eq_of_lt hi),
    Nat.mod_eq_of_lt hi, Prog.bind_of_done single]
  simp only
  rw [if_neg (by simp), writeIndir_ok io fits]
  refine ⟨_, rfl, .after_tick (n := s.tick + 1) (.of_put .single trivial there mapped ?_)⟩
  refine slotAddr_single hi mapped agree_storeBlock (ptrAt_put (mirrors_read _ _) (by norm_num))
    (fun top => ?_) (fun m hm mid => ?_)
  · exact owned.indirect_apart .double .single trivial trivial (by simp) top mapped
  · have addr : fileAddr fs s v (.middle m) = lookup fs s.data (v.inode.iDin2.diIb 1) m := if_pos hm
    have apart := owned.indirect_apart (.middle m) .single trivial trivial
      (by simp) (by rw [addr]; exact mid) mapped
    rw [addr] at apart
    exact apart

theorem setBlock_clearDouble {i j : Nat} (hi : i < fs.fsNindir) (hj : j < fs.fsNindir)
    (mapped : fileAddr fs s v (.middle i) ≠ 0) :
    ∃ s', ufsSetBlock env fs ino (ndaddr + fs.fsNindir + (i * fs.fsNindir + j)) 0 s = .done 0 s' ∧
      Unmapped fs ino (.data (ndaddr + fs.fsNindir + (i * fs.fsNindir + j))) s v s' v := by
  have npos : 0 < fs.fsNindir := nindir_pos
  have place : fileAddr fs s v (.middle i) = lookup fs s.data (v.inode.iDin2.diIb 1) i := if_pos hi
  have top : v.inode.iDin2.diIb 1 ≠ 0 := by
    intro missing
    rw [place, missing] at mapped
    exact mapped (if_pos rfl)
  rw [place] at mapped
  have fits := (owned.fits (.middle i) (place ▸ mapped)).offset_fits
  rw [place] at fits
  have notSingle : (ndaddr + fs.fsNindir + (i * fs.fsNindir + j) - ndaddr) / fs.fsNindir ≠ 0 :=
    (Nat.div_pos (by omega) npos).ne'
  have rest : ndaddr + fs.fsNindir + (i * fs.fsNindir + j) - ndaddr - fs.fsNindir
      = i * fs.fsNindir + j := by omega
  have first : doubleIndir env fs ino s = .done
      (0, v.inode.iDin2.diIb 1, fill (fun _ => 0)
        (fun j => s.data (v.inode.iDin2.diIb 1 * fs.fsFsize + j)) fs.fsBsize)
      (s.atTick (s.tick + 1)) := by
    unfold doubleIndir
    rw [Prog.bind_of_done (vnode2inode_ok there), if_pos top]
    exact readIndir_ok io _ s
  have below : getPtr (fill (fun _ => 0)
      (fun j => s.data (v.inode.iDin2.diIb 1 * fs.fsFsize + j)) fs.fsBsize) i
      = lookup fs s.data (v.inode.iDin2.diIb 1) i := by
    rw [lookup_of_ne top]
    exact mirrors_read s.data (v.inode.iDin2.diIb 1) i hi
  unfold ufsSetBlock
  simp only
  rw [if_neg (by omega), if_neg notSingle, rest, if_pos (Nat.div_eq_of_lt (double_bound hi hj)),
    double_div i hj, double_mod i hj, Prog.bind_of_done first]
  simp only
  rw [if_neg (by simp)]
  unfold middleIndir
  simp only
  rw [below, if_pos mapped, Prog.bind_of_done (readIndir_ok io _ _)]
  simp only
  rw [if_neg (by simp), writeIndir_ok io fits]
  refine ⟨_, rfl, .after_tick (n := s.tick + 1) (.after_tick (n := s.tick + 1 + 1) ?_)⟩
  have apart : ∀ sl : Slot, sl.Indirect → sl ≠ .middle i → fileAddr fs s v sl ≠ 0 →
      Disjoint (blockSet fs (fileAddr fs s v sl))
        (blockSet fs (lookup fs s.data (v.inode.iDin2.diIb 1) i)) := by
    intro sl ind ne there
    have := owned.indirect_apart sl (.middle i) ind trivial ne there (place ▸ mapped)
    rwa [place] at this
  rw [← place]
  refine .of_put (.middle i) trivial there (place ▸ mapped) ?_
  have same : fileAddr fs ((s.atTick (s.tick + 1)).atTick (s.tick + 1 + 1)) v (.middle i)
      = lookup fs s.data (v.inode.iDin2.diIb 1) i := place
  rw [same, place]
  refine slotAddr_double hi hj mapped agree_storeBlock (ptrAt_put (mirrors_read _ _) (by norm_num))
    (apart .single trivial (by simp)) (apart .double trivial (by simp)) (fun m hm ne mid => ?_)
  have middle : fileAddr fs s v (.middle m) = lookup fs s.data (v.inode.iDin2.diIb 1) m := if_pos hm
  have := apart (.middle m) trivial (by simpa using ne) (by rw [middle]; exact mid)
  rwa [middle] at this

/-- `ufs_set_block` with address 0 on a block that is mapped. -/
theorem ufsSetBlock_clear {b : Nat} (mapped : fileAddr fs s v (.data b) ≠ 0) :
    ∃ s' v', ufsSetBlock env fs ino b 0 s = .done 0 s' ∧ Unmapped fs ino (.data b) s v s' v' := by
  rcases block_cases fs b with direct | ⟨i, hi, rfl⟩ | ⟨i, hi, j, hj, rfl⟩ | far
  · exact setBlock_clearDirect there direct
  · have present : v.inode.iDin2.diIb 0 ≠ 0 := by
      intro missing
      refine mapped ((blockAt_single _ _ hi).trans ?_)
      rw [missing]
      exact if_pos rfl
    obtain ⟨s', run, gone⟩ := setBlock_clearSingle io there owned hi present
    exact ⟨s', v, run, gone⟩
  · have present : fileAddr fs s v (.middle i) ≠ 0 := by
      intro missing
      have place : fileAddr fs s v (.middle i) = lookup fs s.data (v.inode.iDin2.diIb 1) i := if_pos hi
      refine mapped ((blockAt_double _ _ hi hj).trans ?_)
      rw [← place, missing]
      exact if_pos rfl
    obtain ⟨s', run, gone⟩ := setBlock_clearDouble io there owned hi hj present
    exact ⟨s', v, run, gone⟩
  · exact absurd (blockAt_beyond _ _ far) mapped

end Tree

theorem asBlk_of_lt {n : Nat} (small : n < 2 ^ 32) : asBlk n = n := by
  unfold asBlk
  omega

/-- A data block is given back. -/
theorem truncateBlock_spec (io : env.IoOk) (inv : FileInv fs s ino v own) {b : Nat}
    (small : b < 2 ^ 32) (mapped : fileAddr fs s v (.data b) ≠ 0) (pos : 0 < own b) :
    ∃ s' v', truncateBlock env fs ino b (fileAddr fs s v (.data b)) (own b * fs.fsFsize) s
      = .done 0 s' ∧ Dropped fs ino own {.data b} s v s' v' := by
  obtain ⟨t, free, freed⟩ := ufsBlockFree_slot io inv (.data b) mapped pos
  rw [slotWidth] at free
  have before : fileAddr fs t v = fileAddr fs s v := by rw [fileAddr, fileAddr, freed.data]
  have owned : Owned fs (s.free fs) (fileAddr fs t v) own := before ▸ inv.owned
  obtain ⟨s', v', set, gone⟩ := ufsSetBlock_clear io (freed.vnodes ▸ inv.there) owned
    (before ▸ mapped)
  refine ⟨s', v', ?_, .of_unmapped inv freed gone⟩
  unfold truncateBlock
  rw [Prog.bind_of_done free, asBlk_of_lt small]
  exact set

theorem slotWidth_indirect (fs : Superblock) (own : Nat → Nat) {sl : Slot} (ind : sl.Indirect) :
    slotWidth fs own sl = fs.fsFrag := by
  cases sl with
  | data b => exact ind.elim
  | single => rfl
  | double => rfl
  | middle i => rfl

/-- `ufs_block_free` of an indirect block. -/
theorem ufsBlockFree_indirect (io : env.IoOk) (inv : FileInv fs s ino v own) (sl : Slot)
    (ind : sl.Indirect) (there : fileAddr fs s v sl ≠ 0) :
    ∃ t, ufsBlockFree env fs (fileAddr fs s v sl) fs.fsBsize s = .done () t ∧
      Freed fs ino own sl s v t := by
  have width := slotWidth_indirect fs own ind
  obtain ⟨t, free, freed⟩ := ufsBlockFree_slot io inv sl there (by rw [width]; exact fs.frag_pos)
  rw [width, ← fs.bsize_eq_mul] at free
  exact ⟨t, free, freed⟩

/-- An indirect block that nothing hangs from is given back at its entry of the inode. -/
theorem freeIb_spec (io : env.IoOk) (inv : FileInv fs s ino v own) (sl : Slot) (ind : sl.Indirect)
    {k : Nat} (place : fileAddr fs s v sl = v.inode.iDin2.diIb k)
    (empty : slotAddr fs s.data { v.inode.iDin2 with diIb := Function.update v.inode.iDin2.diIb k 0 }
      = Function.update (fileAddr fs s v) sl 0) :
    ∃ s' v', freeIb env fs ino k s = .done () s' ∧ Dropped fs ino own {sl} s v s' v' := by
  have clear : ∀ t, Freed fs ino own sl s v t → ∃ s' v', updateInode ino (fun i => { i with
      iDin2 := { i.iDin2 with diIb := Function.update i.iDin2.diIb k 0 } }) t = .done () s' ∧
      Dropped fs ino own {sl} s v s' v' := by
    intro t freed
    have before : fileAddr fs t v = fileAddr fs s v := by rw [fileAddr, fileAddr, freed.data]
    rw [updateInode_ok (freed.vnodes ▸ inv.there) _]
    refine ⟨_, _, rfl, .of_unmapped inv freed ⟨Function.update_self .., rfl, setVnode_core _, rfl, rfl,
      rfl, ?_, fun _ _ _ _ => rfl, fun none => ?_⟩⟩
    · rw [before, ← empty, ← freed.data]
      rfl
    · change Function.update v.inode.iDin2.diIb k 0 2 = 0
      by_cases here : (2 : Nat) = k
      · rw [here, Function.update_self]
      · rw [Function.update_of_ne here, none]
  unfold freeIb
  rw [Prog.bind_of_done (vnode2inode_ok inv.there), ← place]
  by_cases there : fileAddr fs s v sl = 0
  · rw [if_neg (not_not.mpr there)]
    exact clear s (.of_missing inv there)
  · obtain ⟨t, free, freed⟩ := ufsBlockFree_indirect io inv sl ind there
    rw [if_pos there, Prog.bind_of_done free]
    exact clear t freed

/-- A block below the top of the double tree is given back, once nothing hangs from it. -/
theorem clearAt_spec (io : env.IoOk) (inv : FileInv fs s ino v own) {m : Nat} (hm : m < fs.fsNindir)
    (top : v.inode.iDin2.diIb 1 ≠ 0) (buf : Buf)
    (empty : ∀ j < fs.fsNindir,
      fileAddr fs s v (.data (ndaddr + fs.fsNindir + (m * fs.fsNindir + j))) = 0) :
    ∃ s' v', ufsClearIndirect.clearAt env fs (v.inode.iDin2.diIb 1) buf m s = .done 0 s' ∧
      Dropped fs ino own {.middle m} s v s' v' := by
  have place : fileAddr fs s v (.middle m) = ptrAt fs s.data (v.inode.iDin2.diIb 1) m :=
    (if_pos hm).trans (lookup_of_ne top)
  have bpos := fs.bsize_pos
  set read := fill buf (fun j => s.data (v.inode.iDin2.diIb 1 * fs.fsFsize + j)) fs.fsBsize with hread
  have mirrors : Mirrors fs s.data (v.inode.iDin2.diIb 1) read := by
    intro i hi
    refine getPtr_congr fun t ht => ?_
    have := index_fits hi
    exact fill_inside (by omega)
  have here : getPtr read m = fileAddr fs s v (.middle m) := (mirrors m hm).trans place.symm
  unfold ufsClearIndirect.clearAt
  rw [Prog.bind_of_done (blkread_ok io bpos buf s)]
  simp only
  rw [if_neg (by omega), ← hread, here]
  by_cases there : fileAddr fs s v (.middle m) = 0
  · rw [if_neg (not_not.mpr there)]
    refine ⟨_, v, rfl, (Dropped.atTick inv _).grow (Set.empty_subset _) ?_⟩
    rintro sl rfl -
    exact there
  · rw [if_pos there]
    have inv₁ := inv.atTick (s.tick + 1)
    obtain ⟨t, free, freed⟩ := ufsBlockFree_indirect io inv₁ (.middle m) trivial there
    have fits : v.inode.iDin2.diIb 1 * fs.fsFsize < 2 ^ 63 :=
      (inv.owned.fits .double top).offset_fits
    rw [fileAddr_atTick] at free
    have data : t.data = s.data := freed.data
    have before : fileAddr fs t v = fileAddr fs s v := by rw [fileAddr, fileAddr, data]
    rw [Prog.bind_of_done free, Prog.bind_of_done (blkwrite_ok io fits _ t)]
    have apart : ∀ sl : Slot, sl.Indirect → sl ≠ .double → fileAddr fs s v sl ≠ 0 →
        Disjoint (blockSet fs (fileAddr fs s v sl)) (blockSet fs (v.inode.iDin2.diIb 1)) :=
      fun sl ind ne there => inv.owned.indirect_apart sl .double ind trivial ne there top
    have gone : Unmapped fs ino (.middle m) t v (t.put fs (fileAddr fs t v .double)
        (setPtr read m 0) fs.fsBsize) v := by
      refine .of_put .double trivial (freed.vnodes ▸ inv.there) (before ▸ top) ?_
      rw [before]
      refine slotAddr_dropMiddle hm top ?_ ?_ (apart .single trivial (by simp)) (fun i hi mid => ?_) empty
      · rw [← data]
        exact agree_storeBlock
      · rw [← data] at mirrors ⊢
        exact ptrAt_put (w := 0) mirrors (by norm_num)
      · have middle : fileAddr fs s v (.middle i) = lookup fs s.data (v.inode.iDin2.diIb 1) i :=
          if_pos hi
        have := apart (.middle i) trivial (by simp) (by rw [middle]; exact mid)
        rwa [middle] at this
    refine ⟨_, v, rfl, ?_⟩
    have drop := (Dropped.atTick inv (s.tick + 1)).trans (.of_unmapped inv₁ freed gone)
    rw [Set.empty_union] at drop
    exact drop

/-! ## The two walks -/

/-- The first logical block that an indirect block leads to. -/
def Slot.first (fs : Superblock) : Slot → Nat
  | .data b => b
  | .single => ndaddr
  | .double => ndaddr + fs.fsNindir
  | .middle m => ndaddr + fs.fsNindir + m * fs.fsNindir

/-- The data blocks from `b` on. -/
def dataFrom (b : Nat) : Set Slot := { sl | ∃ b', b ≤ b' ∧ sl = .data b' }

/-- The indirect blocks that lead to blocks past `b` only. -/
def indirPast (fs : Superblock) (b : Nat) : Set Slot := { sl | sl.Indirect ∧ b < sl.first fs }

/-- `ufs_bmap` of a block in range. -/
theorem ufsBmap_file (io : env.IoOk) (inv : FileInv fs s ino v own) {b : Nat}
    (range : b < fs.maxBlocks) {r : Int × Nat} (run : ufsBmap env fs ino b s = .done r s') :
    r = (0, fileAddr fs s v (.data b)) ∧ ∃ n, s' = s.atTick n := by
  obtain ⟨n, walk⟩ := ufsBmap_ok io inv.there range (.inl inv.zero)
  rw [run] at walk
  split at walk
  · cases walk
  · cases walk
    exact ⟨rfl, n, rfl⟩

/-- The data blocks from `new` on, `left` of them. -/
def dataRange (new left : Nat) : Set Slot := { sl | ∃ b, new ≤ b ∧ b < new + left ∧ sl = .data b }

theorem dataRange_succ (new left : Nat) :
    dataRange new (left + 1) = {.data (new + left)} ∪ dataRange new left := by
  ext sl
  constructor
  · rintro ⟨b, low, high, rfl⟩
    by_cases here : b = new + left
    · exact .inl (by rw [here]; rfl)
    · exact .inr ⟨b, low, by omega, rfl⟩
  · rintro (rfl | ⟨b, low, high, rfl⟩)
    · exact ⟨new + left, by omega, by omega, rfl⟩
    · exact ⟨b, low, by omega, rfl⟩

/-- No address in the range is the one at which `ufs_bmap` exits. -/
def Unpoisoned (fs : Superblock) (s : State) (v : Vnode) (slots : Set Slot) : Prop :=
  ∀ sl ∈ slots, fileAddr fs s v sl ≠ poisonBlock

/-- The walk over the data blocks gives every one of them back, unless it comes to the address at
    which `ufs_bmap` exits. -/
theorem truncateData_walks (io : env.IoOk) (newsize : Int) {iSize old new : Nat}
    (range : old < fs.maxBlocks) (whole : ¬ (old < ndaddr ∧ new = old)) :
    ∀ (left : Nat) {s : State} {v : Vnode}, new + left ≤ old + 1 →
      FileInv fs s ino v own →
      (∀ b, new ≤ b → b < new + left → fileAddr fs s v (.data b) ≠ 0 → 0 < own b ∧ own b * fs.fsFsize
        = if old < ndaddr ∧ b = old then lastBlockSize fs iSize else fs.fsBsize) →
      (¬ Unpoisoned fs s v (dataRange new left) ∧
        ∃ t, truncateData env fs ino iSize newsize old new left (new + left - 1 : Int) s = .halt t) ∨
      (Unpoisoned fs s v (dataRange new left) ∧
        ∃ s' v', truncateData env fs ino iSize newsize old new left (new + left - 1 : Int) s
          = .done none s' ∧ Dropped fs ino own (dataRange new left) s v s' v')
  | 0, s, v, bound, inv, widths => by
      have nothing : ∀ sl, sl ∉ dataRange new 0 := by
        rintro sl ⟨b, low, high, rfl⟩
        omega
      refine .inr ⟨fun sl mem => absurd mem (nothing sl), s, v, rfl,
        (Dropped.refl inv).grow (Set.empty_subset _) ?_⟩
      exact fun sl mem => absurd mem (nothing sl)
  | left + 1, s, v, bound, inv, widths => by
      have big : fs.maxBlocks < 2 ^ 31 := maxBlocks_lt
      have index : (new + (left + 1 : Nat) - 1 : Int) = (new + left : Nat) := by push_cast; ring
      have next : ((new + left : Nat) : Int) - 1 = new + left - 1 := by push_cast; ring
      have here : Slot.data (new + left) ∈ dataRange new (left + 1) :=
        ⟨new + left, by omega, by omega, rfl⟩
      obtain ⟨n, bmap⟩ := ufsBmap_ok io inv.there (by omega : new + left < fs.maxBlocks) (.inl inv.zero)
      change ufsBmap env fs ino (new + left) s = if fileAddr fs s v (.data (new + left)) = poisonBlock
        then _ else .done (0, fileAddr fs s v (.data (new + left))) _ at bmap
      rw [index, truncateData, if_neg (by omega), asBlk_of_lt (by omega)]
      by_cases poison : fileAddr fs s v (.data (new + left)) = poisonBlock
      · rw [if_pos poison] at bmap
        exact .inl ⟨fun clean => clean _ here poison, _, Prog.bind_of_halt bmap _⟩
      rw [if_neg poison] at bmap
      rw [Prog.bind_of_done bmap]
      simp only
      rw [if_neg (by simp), if_neg (fun both => whole (by omega)), next]
      -- the block goes, if there is one
      have gone : ∃ s₂ v₂, truncateData.dropBlock env fs ino (fileAddr fs s v (.data (new + left)))
          (if (old : Int) < ndaddr ∧ ((new + left : Nat) : Int) = old then lastBlockSize fs iSize
            else fs.fsBsize) (new + left : Nat) (s.atTick n) = .done 0 s₂ ∧
          Dropped fs ino own {.data (new + left)} s v s₂ v₂ := by
        have tick := Dropped.atTick inv n
        unfold truncateData.dropBlock
        by_cases hole : fileAddr fs s v (.data (new + left)) = 0
        · rw [if_pos hole]
          refine ⟨_, v, rfl, tick.grow (Set.empty_subset _) ?_⟩
          rintro sl rfl -
          exact hole
        · obtain ⟨pos, width⟩ := widths (new + left) (by omega) (by omega) hole
          obtain ⟨s₂, v₂, ran, drop⟩ := truncateBlock_spec io (inv.atTick n) (by omega) hole pos
          have drop := tick.trans drop
          rw [Set.empty_union] at drop
          refine ⟨s₂, v₂, ?_, drop⟩
          rw [if_neg hole]
          rw [width, fileAddr_atTick] at ran
          have cond : ((old : Int) < ndaddr ∧ ((new + left : Nat) : Int) = old)
              ↔ (old < ndaddr ∧ new + left = old) := by omega
          simp only [cond]
          exact ran
      obtain ⟨s₂, v₂, ran, drop⟩ := gone
      rw [Prog.bind_of_done ran, if_neg (by simp)]
      have stays : ∀ b < new + left, fileAddr fs s₂ v₂ (.data b) = fileAddr fs s v (.data b) := by
        intro b low
        exact drop.stays _ (by simp; omega)
      rw [dataRange_succ]
      rcases truncateData_walks io newsize range whole left (by omega) drop.inv
        (fun b low high there => widths b low (by omega) (stays b high ▸ there)) with
        ⟨found, t, stop⟩ | ⟨clean, s', v', walk, rest⟩
      · refine .inl ⟨fun clean => found ?_, t, stop⟩
        rintro sl ⟨b, low, high, rfl⟩
        rw [stays b high]
        exact clean _ (.inr ⟨b, low, high, rfl⟩)
      · refine .inr ⟨?_, s', v', walk, drop.trans rest⟩
        rintro sl (rfl | ⟨b, low, high, rfl⟩)
        · exact poison
        · rw [← stays b high]
          exact clean _ ⟨b, low, high, rfl⟩

theorem Slot.first_ge {sl : Slot} (ind : sl.Indirect) : ndaddr ≤ sl.first fs := by
  cases sl with
  | data b => exact ind.elim
  | single => exact le_rfl
  | double => exact Nat.le_add_right _ _
  | middle m =>
      simp only [Slot.first]
      omega

/-- Indirect blocks start at multiples of their length. -/
theorem Slot.first_dvd {sl : Slot} (ind : sl.Indirect) : fs.fsNindir ∣ sl.first fs - ndaddr := by
  cases sl with
  | data b => exact ind.elim
  | single => exact ⟨0, Nat.sub_self _⟩
  | double => exact ⟨1, by simp only [Slot.first]; omega⟩
  | middle m =>
      refine ⟨m + 1, ?_⟩
      simp only [Slot.first]
      rw [Nat.mul_add, Nat.mul_comm]
      omega

/-- `ufs_clear_indirect` at the first block below entry `m` of the double tree. -/
theorem ufsClearIndirect_spec (io : env.IoOk) (inv : FileInv fs s ino v own) {m : Nat}
    (hm : m < fs.fsNindir) (empty : ∀ b, (Slot.middle m).first fs ≤ b → fileAddr fs s v (.data b) = 0) :
    ∃ rc s' v', ufsClearIndirect env fs ino ((Slot.middle m).first fs) s = .done rc s' ∧
      Dropped fs ino own {.middle m} s v s' v' := by
  have npos : 0 < fs.fsNindir := nindir_pos
  have big : fs.maxBlocks < 2 ^ 31 := maxBlocks_lt
  have ge := fs.nindir_ge
  have bound := double_bound hm npos
  have blk : asBlk (((Slot.middle m).first fs : Int) - ndaddr) = fs.fsNindir + m * fs.fsNindir := by
    unfold Superblock.maxBlocks at big
    simp only [asBlk, Slot.first]
    omega
  have rest : fs.fsNindir + m * fs.fsNindir - fs.fsNindir = m * fs.fsNindir := by omega
  have whole : (fs.fsNindir + m * fs.fsNindir) % fs.fsNindir = 0 := by simp
  have some : (fs.fsNindir + m * fs.fsNindir) / fs.fsNindir ≠ 0 :=
    (Nat.div_pos (by omega) npos).ne'
  unfold ufsClearIndirect
  simp only
  rw [blk, if_neg (by unfold ndaddr; omega), Prog.bind_of_done (vnode2inode_ok inv.there), rest]
  by_cases top : v.inode.iDin2.diIb 1 = 0
  · rw [if_pos top]
    refine ⟨0, s, v, rfl, (Dropped.refl inv).grow (Set.empty_subset _) ?_⟩
    rintro sl rfl -
    refine (if_pos hm).trans ?_
    rw [top]
    exact if_pos rfl
  · rw [if_neg top, if_pos (Nat.div_eq_of_lt (by omega)), Nat.mul_div_cancel _ npos]
    obtain ⟨s', v', run, drop⟩ := clearAt_spec io inv hm top env.heap fun j _ =>
      empty _ (by simp only [Slot.first]; omega)
    exact ⟨0, s', v', run, drop⟩

/-- What the second walk does where an indirect block starts. -/
theorem truncateIndirAt_spec (io : env.IoOk) (inv : FileInv fs s ino v own) {k : Nat}
    (low : ndaddr ≤ k) (range : k < fs.maxBlocks) (starts : (k - ndaddr) % fs.fsNindir = 0)
    (empty : ∀ b, k ≤ b → fileAddr fs s v (.data b) = 0)
    (later : ∀ sl : Slot, sl.Indirect → k < sl.first fs → fileAddr fs s v sl = 0) :
    ∃ s' v', truncateIndirAt env fs ino k s = .done () s' ∧
      Dropped fs ino own { sl | sl.Indirect ∧ sl.first fs = k } s v s' v' := by
  obtain ⟨q, hq⟩ := Nat.dvd_of_mod_eq_zero starts
  have npos : 0 < fs.fsNindir := nindir_pos
  have ge := fs.nindir_ge
  have clearing : ∀ {rc t}, ufsClearIndirect env fs ino k s = .done rc t →
      truncateIndirAt.clearHere env fs ino k s = .done () t := by
    intro rc t run
    unfold truncateIndirAt.clearHere
    rw [if_pos starts, Prog.bind_of_done run]
    rfl
  unfold truncateIndirAt
  match q with
  | 0 =>
      -- the single indirect block
      obtain rfl : k = ndaddr := by omega
      have none : ufsClearIndirect env fs ino ndaddr s = .done 0 s := by
        have blk : asBlk ((ndaddr : Int) - ndaddr) = 0 := by rw [sub_self]; rfl
        unfold ufsClearIndirect
        simp only
        rw [blk, if_pos (.inl (by decide))]
        rfl
      obtain ⟨s', v', run, drop⟩ := freeIb_spec io inv .single trivial (k := 0) rfl
        (slotAddr_dropSingle fun i _ => empty _ (by omega))
      rw [Prog.bind_of_done (clearing none), if_pos rfl]
      refine ⟨s', v', run, drop.grow ?_ ?_⟩
      · rintro sl rfl
        exact ⟨trivial, rfl⟩
      · rintro sl ⟨ind, start⟩ other
        cases sl with
        | data b => exact ind.elim
        | single => exact absurd rfl other
        | double => simp only [Slot.first] at start; omega
        | middle m => simp only [Slot.first] at start; omega
  | 1 =>
      -- the first block below the top of the double tree, and the top itself
      obtain rfl : k = (Slot.middle 0).first fs := by simp only [Slot.first]; omega
      obtain ⟨rc, t, w, clear, drop⟩ := ufsClearIndirect_spec io inv npos empty
      have bare : ∀ m < fs.fsNindir, slotAddr fs t.data w.inode.iDin2 (.middle m) = 0 := by
        intro m _
        by_cases zero : m = 0
        · exact drop.cleared (.middle m) (by rw [zero]; rfl)
        · refine (drop.stays (.middle m) (by simpa using zero)).trans (later _ trivial ?_)
          have : 0 < m * fs.fsNindir := Nat.mul_pos (by omega) npos
          simp only [Slot.first]
          omega
      obtain ⟨s', v', run, drop'⟩ := freeIb_spec io drop.inv .double trivial (k := 1) rfl
        (slotAddr_dropDouble bare)
      have start : (Slot.middle 0).first fs = fs.fsNindir + ndaddr := by
        simp only [Slot.first]
        omega
      rw [Prog.bind_of_done (clearing clear), if_neg (by omega), if_pos start]
      refine ⟨s', v', run, (drop.trans drop').grow ?_ ?_⟩
      · rintro sl (rfl | rfl)
        · exact ⟨trivial, rfl⟩
        · exact ⟨trivial, by simp only [Slot.first]; omega⟩
      · rintro sl ⟨ind, start⟩ other
        cases sl with
        | data b => exact ind.elim
        | single => simp only [Slot.first] at start; omega
        | double => exact absurd (.inr rfl) other
        | middle m =>
            have zero : m = 0 := by
              by_contra ne
              have : 0 < m * fs.fsNindir := Nat.mul_pos (by omega) npos
              simp only [Slot.first] at start
              omega
            exact absurd (.inl (by rw [zero]; rfl)) other
  | q + 2 =>
      -- another block below the top of the double tree
      have split : fs.fsNindir * (q + 2) = fs.fsNindir + (q + 1) * fs.fsNindir := by ring
      obtain rfl : k = (Slot.middle (q + 1)).first fs := by simp only [Slot.first]; omega
      have hm : q + 1 < fs.fsNindir := by
        unfold Superblock.maxBlocks at range
        simp only [Slot.first] at range
        exact Nat.lt_of_mul_lt_mul_right (by omega : (q + 1) * fs.fsNindir < fs.fsNindir * fs.fsNindir)
      have pos : 0 < (q + 1) * fs.fsNindir := Nat.mul_pos (by omega) npos
      obtain ⟨rc, t, w, clear, drop⟩ := ufsClearIndirect_spec io inv hm empty
      have notDouble : (Slot.middle (q + 1)).first fs ≠ fs.fsNindir + ndaddr := by
        simp only [Slot.first]
        omega
      have notTriple : (Slot.middle (q + 1)).first fs ≠ fs.fsNindir * fs.fsNindir + fs.fsNindir + ndaddr := by
        unfold Superblock.maxBlocks at range
        omega
      rw [Prog.bind_of_done (clearing clear), if_neg (by omega), if_neg notDouble, if_neg notTriple]
      refine ⟨t, w, rfl, drop.grow ?_ ?_⟩
      · rintro sl rfl
        exact ⟨trivial, rfl⟩
      · rintro sl ⟨ind, start⟩ other
        cases sl with
        | data b => exact ind.elim
        | single => simp only [Slot.first] at start; omega
        | double => simp only [Slot.first] at start; omega
        | middle m =>
            have same : m = q + 1 := by
              refine Nat.eq_of_mul_eq_mul_right npos ?_
              simp only [Slot.first] at start
              omega
            exact absurd (by rw [same]; rfl) other

/-- Two different starts of indirect blocks are a whole block of addresses apart. -/
theorem starts_apart {a b : Nat} (low : ndaddr ≤ a) (first : fs.fsNindir ∣ a - ndaddr)
    (second : fs.fsNindir ∣ b - ndaddr) (less : a < b) : a + fs.fsNindir ≤ b := by
  obtain ⟨q, hq⟩ := first
  obtain ⟨r, hr⟩ := second
  have step : q + 1 ≤ r := Nat.lt_of_mul_lt_mul_left (by omega : fs.fsNindir * q < fs.fsNindir * r)
  have := Nat.mul_le_mul_left fs.fsNindir step
  rw [Nat.mul_add] at this
  omega

/-- The walk over the indirect blocks gives back those that lead nowhere any more. -/
theorem truncateIndir_spec (io : env.IoOk) {new : Nat} : ∀ (left : Nat) {i : Int} {s : State}
    {v : Vnode}, i - new ≤ left → i < fs.maxBlocks → FileInv fs s ino v own →
    (∀ b, new ≤ b → fileAddr fs s v (.data b) = 0) →
    (∀ sl : Slot, sl.Indirect → i < sl.first fs → fileAddr fs s v sl = 0) →
    ∃ s' v', truncateIndir env fs ino new left i s = .done () s' ∧
      Dropped fs ino own (indirPast fs new) s v s' v'
  | 0, i, s, v, enough, range, inv, empty, later => by
      refine ⟨s, v, rfl, (Dropped.refl inv).grow (Set.empty_subset _) ?_⟩
      rintro sl ⟨ind, past⟩ -
      exact later sl ind (by omega)
  | left + 1, i, s, v, enough, range, inv, empty, later => by
      have big : fs.maxBlocks < 2 ^ 31 := maxBlocks_lt
      have npos : 0 < fs.fsNindir := nindir_pos
      have done : i ≤ new ∨ i < ndaddr →
          Dropped fs ino own (indirPast fs new) s v s v := by
        intro low
        refine (Dropped.refl inv).grow (Set.empty_subset _) ?_
        rintro sl ⟨ind, past⟩ -
        have : ndaddr ≤ sl.first fs := Slot.first_ge ind
        exact later sl ind (by omega)
      rw [truncateIndir]
      by_cases more : (new : Int) < i
      · rw [if_pos more]
        obtain ⟨k, rfl⟩ : ∃ k : Nat, i = k := ⟨i.toNat, by omega⟩
        rw [asBlk_of_lt (by omega)]
        by_cases low : ndaddr ≤ k
        · rw [if_pos low]
          simp only
          by_cases starts : (k - ndaddr) % fs.fsNindir = 0
          · obtain ⟨s₁, v₁, run, drop⟩ := truncateIndirAt_spec io inv low (by omega) starts
              (fun b past => empty b (by omega)) (fun sl ind past => later sl ind (by omega))
            obtain ⟨s', v', rest, drop'⟩ := truncateIndir_spec io left (i := k - fs.fsNindir)
              (by omega) (by omega) drop.inv
              (fun b past => (drop.stays (.data b) fun out => out.1).trans (empty b past))
              (fun sl ind past => by
                by_cases here : sl.first fs = k
                · exact drop.cleared sl ⟨ind, here⟩
                · rw [drop.stays sl fun out => here out.2]
                  refine later sl ind ?_
                  by_contra less
                  have := starts_apart (Slot.first_ge ind) (Slot.first_dvd ind)
                    (Nat.dvd_of_mod_eq_zero starts) (by omega : sl.first fs < k)
                  omega)
            have part : ({ sl | sl.Indirect ∧ sl.first fs = k } : Set Slot) ⊆ indirPast fs new :=
              fun sl out => ⟨out.1, by rw [out.2]; omega⟩
            have both := drop.trans drop'
            rw [Set.union_eq_self_of_subset_left part] at both
            refine ⟨s', v', ?_, both⟩
            rw [Prog.bind_of_done run, if_neg (by simp [starts])]
            exact rest
          · have notSingle : k ≠ ndaddr := fun e => starts (by rw [e, Nat.sub_self, Nat.zero_mod])
            have notDouble : k ≠ fs.fsNindir + ndaddr := fun e =>
              starts (by rw [e, Nat.add_sub_cancel, Nat.mod_self])
            have notTriple : k ≠ fs.fsNindir * fs.fsNindir + fs.fsNindir + ndaddr := by
              unfold Superblock.maxBlocks at range
              omega
            have run : truncateIndirAt env fs ino k s = .done () s := by
              unfold truncateIndirAt truncateIndirAt.clearHere
              rw [if_neg starts, if_neg notSingle, if_neg notDouble, if_neg notTriple]
              rfl
            have less := Nat.mod_lt (k - ndaddr) npos
            have le := Nat.mod_le (k - ndaddr) fs.fsNindir
            set rest := (k - ndaddr) % fs.fsNindir with hrest
            have whole : fs.fsNindir ∣ k - rest - ndaddr := by
              rw [Nat.sub_right_comm]
              exact Nat.dvd_sub_mod _
            obtain ⟨s', v', ran, drop⟩ := truncateIndir_spec io left (i := (k : Int) - rest)
              (by omega) (by omega) inv empty
              (fun sl ind past => later sl ind (by
                have := starts_apart (by omega) whole (Slot.first_dvd ind)
                  (by omega : k - rest < sl.first fs)
                omega))
            refine ⟨s', v', ?_, drop⟩
            rw [Prog.bind_of_done run, if_pos starts]
            exact ran
        · rw [if_neg low]
          exact ⟨s, v, rfl, done (.inr (by omega))⟩
      · rw [if_neg more]
        exact ⟨s, v, rfl, done (.inl (by omega))⟩

end Steps

end FuseUfs
