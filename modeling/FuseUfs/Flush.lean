import FuseUfs.SetBlock

/-! # Flushing a block

A flush gives the buffered block an extent of the right length, writes the buffer there
and writes the inode. `Moved` is what a step on behalf of one file leaves alone: every
fragment in use that the file does not own keeps its bytes, and stays in use. Under the
condition `exact` no fragment is leaked on the way either.
-/

namespace FuseUfs

open Lib

/-! ## What a step for one file leaves alone -/

/-- The file owns fragment `x`. -/
def Owns (fs : Superblock) (s : State) (v : Vnode) (own : Nat → Nat) (x : Nat) : Prop :=
  Held (slotExt fs (fileAddr fs s v) own) x

/-- Fragment `x` is in use, but not by this file. -/
def OthersHold (fs : Superblock) (s : State) (v : Vnode) (own : Nat → Nat) (x : Nat) : Prop :=
  Foreign (slotExt fs (fileAddr fs s v) own) (fun x => s.free fs x = false) x

/-- A step on behalf of inode `ino`. -/
structure Moved (fs : Superblock) (ino : Nat) (exact : Prop) (s : State) (v : Vnode)
    (own : Nat → Nat) (s' : State) (v' : Vnode) (own' : Nat → Nat) : Prop where
  dinodes : ∀ i, i ≠ ino → s'.dinodes i = s.dinodes i
  vnodes : ∀ i, i ≠ ino → s'.vnodes i = s.vnodes i
  files : s'.files = s.files
  ronly : s'.fsRonly = s.fsRonly
  others : ∀ x, OthersHold fs s v own x → OthersHold fs s' v' own' x
  bytes : AgreeOn fs { x | OthersHold fs s v own x } s.data s'.data
  gained : exact → ∀ x, s.free fs x = true → s'.free fs x = false → Owns fs s' v' own' x
  lost : exact → ∀ x, Owns fs s v own x → ¬ Owns fs s' v' own' x → s'.free fs x = true

section Moved

variable {fs : Superblock} {ino : Nat} {exact : Prop} {s s' s'' : State} {v v' v'' : Vnode}
  {own own' own'' : Nat → Nat}

theorem Moved.refl : Moved fs ino exact s v own s v own :=
  ⟨fun _ _ => rfl, fun _ _ => rfl, rfl, rfl, fun _ h => h, fun _ _ _ _ => rfl,
    fun _ x free used => absurd (free.symm.trans used) (by simp),
    fun _ _ mine not => absurd mine not⟩

theorem Moved.trans (first : Moved fs ino exact s v own s' v' own')
    (second : Moved fs ino exact s' v' own' s'' v'' own'') :
    Moved fs ino exact s v own s'' v'' own'' := by
  refine ⟨fun i hi => (second.dinodes i hi).trans (first.dinodes i hi),
    fun i hi => (second.vnodes i hi).trans (first.vnodes i hi), second.files.trans first.files,
    second.ronly.trans first.ronly, fun x hx => second.others x (first.others x hx),
    first.bytes.trans (second.bytes.mono fun x hx => first.others x hx),
    fun ok x free used => ?_, fun ok x mine notNow => ?_⟩
  · cases mid : s'.free fs x with
    | true => exact second.gained ok x mid used
    | false =>
        by_contra notNow
        rw [second.lost ok x (first.gained ok x free mid) notNow] at used
        cases used
  · by_cases still : Owns fs s' v' own' x
    · exact second.lost ok x still notNow
    · by_contra used
      exact notNow (second.gained ok x (first.lost ok x mine still) (Bool.eq_false_iff.mpr used))

/-- A step that keeps the map, the free map and the other fragments. -/
theorem Moved.of_same (core : CoreFrame ino s s') (addr : fileAddr fs s' v' = fileAddr fs s v)
    (free : s'.free fs = s.free fs)
    (bytes : AgreeOn fs { x | OthersHold fs s v own x } s.data s'.data) :
    Moved fs ino exact s v own s' v' own := by
  have hold : ∀ x, Owns fs s' v' own x ↔ Owns fs s v own x := fun x => by
    rw [Owns, Owns, addr]
  refine ⟨fun i _ => by rw [core.dinodes], core.others, core.files, core.ronly, fun x hx => ?_, bytes,
    fun _ x wasFree used => ?_, fun _ x mine notNow => absurd ((hold x).mpr mine) notNow⟩
  · exact ⟨by rw [free]; exact hx.1, fun mine => hx.2 ((hold x).mp mine)⟩
  · rw [free, wasFree] at used
    cases used

end Moved

section Steps

variable {env : Env} {fs : Superblock} {exact : Prop} {s s' : State} {ino : Nat} {v v' : Vnode}
  {own own' : Nat → Nat}

/-- A write that leaves the indirect blocks alone leaves the map alone. -/
theorem slotAddr_agree {d d' : Nat → Byte} {din : Dinode}
    (agree : AgreeOn fs (indirSet fs (slotAddr fs d din)) d d') :
    slotAddr fs d' din = slotAddr fs d din := by
  have low : din.diIb 0 ≠ 0 → AgreeOn fs (blockSet fs (din.diIb 0)) d d' := fun there =>
    agree.mono fun x hx => ⟨.single, trivial, there, hx⟩
  have top : din.diIb 1 ≠ 0 → AgreeOn fs (blockSet fs (din.diIb 1)) d d' := fun there =>
    agree.mono fun x hx => ⟨.double, trivial, there, hx⟩
  have middle : ∀ m < fs.fsNindir, lookup fs d' (din.diIb 1) m = lookup fs d (din.diIb 1) m :=
    fun m hm => lookup_agree top hm
  have mid : ∀ m < fs.fsNindir, lookup fs d (din.diIb 1) m ≠ 0 →
      AgreeOn fs (blockSet fs (lookup fs d (din.diIb 1) m)) d d' := by
    intro m hm there
    have addr : slotAddr fs d din (.middle m) = lookup fs d (din.diIb 1) m := if_pos hm
    exact agree.mono fun x hx => ⟨.middle m, trivial, by rw [addr]; exact there, by rw [addr]; exact hx⟩
  funext sl
  cases sl with
  | data b =>
      rcases block_cases fs b with direct | ⟨i, hi, rfl⟩ | ⟨i, hi, j, hj, rfl⟩ | far
      · simp only [slotAddr, blockAt_direct _ din direct]
      · simp only [slotAddr, blockAt_single _ din hi]
        exact lookup_agree low hi
      · simp only [slotAddr, blockAt_double _ din hi hj, middle i hi]
        exact lookup_agree (mid i hi) hj
      · simp only [slotAddr, blockAt_beyond _ din far]
  | single => rfl
  | double => rfl
  | middle m =>
      simp only [slotAddr]
      by_cases hm : m < fs.fsNindir
      · rw [if_pos hm, if_pos hm, middle m hm]
      · rw [if_neg hm, if_neg hm]

/-- A data block and an indirect block have no fragment in common. -/
theorem Owned.data_indir {free : Nat → Bool} {addr : Slot → Nat} (owned : Owned fs free addr own)
    {b x : Nat} (mine : x ∈ slotExt fs addr own (.data b)) : x ∉ indirSet fs addr := by
  rintro ⟨sl, ind, there, inside⟩
  have ne : Slot.data b ≠ sl := fun e => by rw [← e] at ind; exact ind
  exact Set.disjoint_left.mp (owned.apart ne) mine ((slotExt_indirect ind).mpr ⟨there, inside⟩)

/-! ## Giving the buffered block an extent -/

/-- The map moved at logical block `b`, to an extent at `w`. -/
structure Placed (fs : Superblock) (ino : Nat) (exact : Prop) (b w : Nat) (s : State) (v : Vnode)
    (own : Nat → Nat) (s' : State) (v' : Vnode) (own' : Nat → Nat) : Prop where
  inv : FileInv fs s' ino v' own'
  core : CoreFrame ino s s'
  moved : Moved fs ino exact s v own s' v' own'
  inode : ∃ db ib, v' = { v with
    inode := { v.inode with iDin2 := { v.inode.iDin2 with diDb := db, diIb := ib } } }
  addr : ∀ b', fileAddr fs s' v' (.data b') = if b' = b then w else fileAddr fs s v (.data b')
  widths : ∀ b', b' ≠ b → own' b' = own b'
  kept : ∀ b', b' ≠ b → AgreeOn fs (slotExt fs (fileAddr fs s v) own (.data b')) s.data s'.data

/-- The fragments of another data block are as they were. -/
private theorem slotExt_other {b b' w : Nat} {addr addr' : Slot → Nat} (ne : b' ≠ b)
    (same : ∀ b', addr' (.data b') = if b' = b then w else addr (.data b'))
    (widths : ∀ b', b' ≠ b → own' b' = own b') :
    slotExt fs addr' own' (.data b') = slotExt fs addr own (.data b') := by
  simp only [slotExt, slotWidth, same b', if_neg ne, widths b' ne]

theorem Placed.trans {b w w' : Nat} {s'' : State} {v'' : Vnode} {own'' : Nat → Nat}
    (first : Placed fs ino exact b w s v own s' v' own')
    (second : Placed fs ino exact b w' s' v' own' s'' v'' own'') :
    Placed fs ino exact b w' s v own s'' v'' own'' := by
  refine ⟨second.inv, first.core.trans second.core, first.moved.trans second.moved, ?_, fun b' => ?_,
    fun b' ne => (second.widths b' ne).trans (first.widths b' ne), fun b' ne => ?_⟩
  · obtain ⟨db, ib, rfl⟩ := first.inode
    obtain ⟨db', ib', rfl⟩ := second.inode
    exact ⟨db', ib', rfl⟩
  · rw [second.addr b']
    split
    · rfl
    · next ne => rw [first.addr b', if_neg ne]
  · refine (first.kept b' ne).trans ((second.kept b' ne).mono fun x hx => ?_)
    rw [slotExt_other ne first.addr first.widths]
    exact hx

/-- What the file owns after an address was stored. -/
theorem Stored.owns {b w k x : Nat} (stored : Stored fs ino s v own b w k s' v')
    (mine : Owns fs s' v' (Function.update own b k) x) :
    (w ≠ 0 ∧ w ≤ x ∧ x < w + k) ∨ (∃ sl, sl ≠ .data b ∧ x ∈ slotExt fs (fileAddr fs s v) own sl) ∨
      s.free fs x = true := by
  have widths : ∀ b', b' ≠ b → Function.update own b k b' = own b' := fun b' ne =>
    Function.update_of_ne ne _ _
  have indirect : ∀ sl : Slot, sl.Indirect →
      x ∈ slotExt fs (fileAddr fs s' v') (Function.update own b k) sl →
      (∃ sl, sl ≠ .data b ∧ x ∈ slotExt fs (fileAddr fs s v) own sl) ∨ s.free fs x = true := by
    intro sl ind mine
    rcases stored.step.fresh x ⟨sl, ind, (slotExt_indirect ind).mp mine⟩ with ⟨sl', ind', old⟩ | free
    · refine .inl ⟨sl', fun e => ?_, (slotExt_indirect ind').mpr old⟩
      rw [e] at ind'
      exact ind'
    · exact .inr free
  obtain ⟨sl, mine⟩ := mine
  cases sl with
  | data b' =>
      by_cases here : b' = b
      · subst here
        simp only [slotExt, slotWidth, stored.addr, if_pos, Function.update_self] at mine
        exact .inl mine
      · rw [slotExt_other here stored.addr widths] at mine
        exact .inr (.inl ⟨.data b', by simpa using here, mine⟩)
  | single => exact .inr (indirect .single trivial mine)
  | double => exact .inr (indirect .double trivial mine)
  | middle m => exact .inr (indirect (.middle m) trivial mine)

/-- Whatever lies in another block stays with the file. -/
theorem Stored.owns_other {b w k x : Nat} (stored : Stored fs ino s v own b w k s' v') {sl : Slot}
    (ne : sl ≠ .data b) (mine : x ∈ slotExt fs (fileAddr fs s v) own sl) :
    Owns fs s' v' (Function.update own b k) x := by
  have kept : ∀ sl : Slot, sl.Indirect → x ∈ slotExt fs (fileAddr fs s v) own sl →
      Owns fs s' v' (Function.update own b k) x := by
    intro sl ind mine
    obtain ⟨there, inside⟩ := (slotExt_indirect ind).mp mine
    rcases stored.step.indir sl ind with same | missing
    · exact ⟨sl, (slotExt_indirect ind).mpr ⟨same ▸ there, same ▸ inside⟩⟩
    · exact absurd missing there
  cases sl with
  | data b' =>
      have here : b' ≠ b := by simpa using ne
      refine ⟨.data b', ?_⟩
      rw [slotExt_other here stored.addr fun b' ne => Function.update_of_ne ne _ _]
      exact mine
  | single => exact kept .single trivial mine
  | double => exact kept .double trivial mine
  | middle m => exact kept (.middle m) trivial mine

/-- A block that the tree took is the file's. -/
theorem Stored.owns_taken {b w k x : Nat} (stored : Stored fs ino s v own b w k s' v')
    (free : s.free fs x = true) (used : s'.free fs x = false) :
    Owns fs s' v' (Function.update own b k) x := by
  obtain ⟨sl, ind, inside⟩ := stored.step.taken x free used
  exact ⟨sl, (slotExt_indirect ind).mpr inside⟩

/-- The bytes of a fragment that is not in an indirect block of the file stay. -/
theorem Stored.bytes {b w k : Nat} (stored : Stored fs ino s v own b w k s' v') {X : Set Nat}
    (apart : ∀ x ∈ X, ∀ sl : Slot, sl.Indirect →
      x ∉ slotExt fs (fileAddr fs s' v') (Function.update own b k) sl) :
    AgreeOn fs X s.data s'.data := by
  refine stored.step.agree.mono fun x hx => ?_
  rintro ⟨sl, ind, inside⟩
  exact apart x hx sl ind ((slotExt_indirect ind).mpr inside)

theorem Stored.kept {b w k b' : Nat} (stored : Stored fs ino s v own b w k s' v') (ne : b' ≠ b) :
    AgreeOn fs (slotExt fs (fileAddr fs s v) own (.data b')) s.data s'.data := by
  refine stored.step.agree.mono fun x hx => ?_
  have widths : ∀ b', b' ≠ b → Function.update own b k b' = own b' := fun b' ne =>
    Function.update_of_ne ne _ _
  rw [← slotExt_other ne stored.addr widths] at hx
  exact stored.inv.owned.data_indir hx

/-- A hole gets an extent. -/
theorem place_new (exact : Prop) (io : env.IoOk) (inv : FileInv fs s ino v own) {b k w : Nat} {t : State}
    (hole : fileAddr fs s v (.data b) = 0) (hk : 0 < k) (le : k ≤ fs.fsFrag)
    (alloc : ufsBlockAlloc env fs v.inode.iNumber (k * fs.fsFsize : Nat) s = .done (0, w) t)
    (run : ufsSetBlock env fs ino b w t = .done 0 s') :
    w ≠ 0 ∧ ∃ v', Placed fs ino exact b w s v own s' v' (Function.update own b k) := by
  obtain ⟨mid, reserved, core, data, vnodes, wasFree, map⟩ := ufsBlockAlloc_file io inv hk le alloc
  obtain ⟨v', stored⟩ := ufsSetBlock_spec io mid (.inr reserved) run
  have before : fileAddr fs t v = fileAddr fs s v := by rw [fileAddr, fileAddr, data]
  have frees : ∀ x, t.free fs x = true → s.free fs x = true := fun x free => by
    rw [map, Bool.and_eq_true] at free
    exact free.1
  have stays : ∀ x, s.free fs x = false → t.free fs x = false := fun x used => by
    rw [map, used, Bool.false_and]
  -- no fragment of another file becomes the file's
  have others : ∀ x, OthersHold fs s v own x →
      ¬ Owns fs s' v' (Function.update own b k) x := by
    rintro x ⟨used, notMine⟩ mine
    have used : s.free fs x = false := used
    rcases stored.owns mine with ⟨-, low, high⟩ | ⟨sl, -, old⟩ | free
    · rw [wasFree x low high] at used
      cases used
    · exact notMine ⟨sl, before ▸ old⟩
    · rw [frees x free] at used
      cases used
  have all := core.trans stored.step.core
  refine ⟨reserved.addr_ne, v', stored.inv, all,
    ⟨fun i _ => by rw [all.dinodes], all.others, all.files, all.ronly,
      fun x hx => ⟨stored.step.free x (stays x hx.1), others x hx⟩, ?_, fun _ x free used => ?_,
      fun _ x mine notNow => ?_⟩, stored.step.inode, fun b' => by rw [stored.addr b', before],
    fun b' ne => Function.update_of_ne ne _ _, fun b' ne => ?_⟩
  · rw [← data]
    exact stored.bytes fun x hx sl _ mine => others x hx ⟨sl, mine⟩
  · cases middle : t.free fs x with
    | true => exact stored.owns_taken middle used
    | false =>
        rw [map, free, Bool.true_and, Bool.not_eq_false', decide_eq_true_eq] at middle
        refine ⟨.data b, ?_⟩
        simp only [slotExt, slotWidth, stored.addr, if_pos, Function.update_self]
        exact ⟨reserved.addr_ne, middle⟩
  · obtain ⟨sl, mine⟩ := mine
    have other : sl ≠ .data b := by
      rintro rfl
      exact mine.1 hole
    exact absurd (stored.owns_other other (before ▸ mine)) notNow
  · rw [← data, ← before]
    exact stored.kept ne

theorem InBlock.mono {b f f' : Nat} (run : InBlock fs b f) (less : f' ≤ f) : InBlock fs b f' :=
  ⟨run.group, by have := run.fits; omega⟩

/-- The file after the first `o` fragments of block `b` were freed: the block owns nothing. -/
theorem ufsBlockFree_file (io : env.IoOk) (inv : FileInv fs s ino v own) {b o : Nat} {t : State}
    (there : fileAddr fs s v (.data b) ≠ 0) (ho : 0 < o) (le : o ≤ own b)
    (run : ufsBlockFree env fs (fileAddr fs s v (.data b)) (o * fs.fsFsize) s = .done () t) :
    FileInv fs t ino v (Function.update own b 0) ∧ CoreFrame ino s t ∧ t.data = s.data ∧
      ∀ x, t.free fs x = (s.free fs x ||
        decide (fileAddr fs s v (.data b) ≤ x ∧ x < fileAddr fs s v (.data b) + o)) := by
  set p := fileAddr fs s v (.data b) with hp
  have mine : ∀ x, p ≤ x → x < p + own b → x ∈ slotExt fs (fileAddr fs s v) own (.data b) :=
    fun x low high => ⟨there, low, high⟩
  have extent : InBlock fs p (own b) := inv.owned.fits (.data b) there
  obtain ⟨t', ran, after, step⟩ := ufsBlockFree_spec io inv.alloc (extent.mono le) ho
    fun x low high => (inv.owned.used _ x (mine x low (by omega))).1
  rw [run] at ran
  cases ran
  have bound : p < fs.fsSize := (inv.owned.used _ p (mine p le_rfl (by omega))).2.2
  rw [if_neg (by have := Nat.mod_le p (2 ^ 32); omega)] at step
  obtain ⟨core, data, vnodes⟩ := step.frame.core ino
  have map := step.map
  have addr : fileAddr fs t v = fileAddr fs s v := by rw [fileAddr, fileAddr, data]
  have stays : ∀ x, s.free fs x = false → ¬ (p ≤ x ∧ x < p + o) → t.free fs x = false := by
    intro x used outside
    rw [map, used, decide_eq_false outside]
    rfl
  refine ⟨⟨⟨after, fun x hx => stays x (inv.boot x hx) fun inside => ?_, data ▸ inv.zero,
    fun x free => ?_⟩, vnodes ▸ inv.there, inv.number, inv.valid, ?_⟩, core, data, map⟩
  · have := (inv.owned.used _ x (mine x inside.1 (by omega))).2.1
    omega
  · rw [map, Bool.or_eq_true, decide_eq_true_eq] at free
    rcases free with free | inside
    · exact inv.device x free
    · exact (inv.owned.used _ x (mine x inside.1 (by omega))).2.2
  · rw [addr]
    refine inv.owned.shrink (fun b' => ?_) fun sl x hx => ?_
    · rw [Function.update_apply]
      split
      · exact Nat.zero_le _
      · exact le_rfl
    · -- what is left to the file was not freed: it lies in another block
      have other : sl ≠ .data b := by
        rintro rfl
        simp only [slotExt, slotWidth, Function.update_self] at hx
        have := hx.2
        omega
      have old : x ∈ slotExt fs (fileAddr fs s v) own sl := by
        cases sl with
        | data b' =>
            have ne : b' ≠ b := by simpa using other
            simpa only [slotExt, slotWidth, Function.update_of_ne ne] using hx
        | single => exact hx
        | double => exact hx
        | middle m => exact hx
      refine stays x (inv.owned.used sl x old).1 fun inside => ?_
      exact Set.disjoint_left.mp (inv.owned.apart other) old (mine x inside.1 (by omega))

/-- An extent is given back and the block becomes a hole. -/
theorem place_free (io : env.IoOk) (inv : FileInv fs s ino v own) {b o : Nat} {t : State}
    (there : fileAddr fs s v (.data b) ≠ 0) (ho : 0 < o) (le : o ≤ own b) (whole : exact → o = own b)
    (free : ufsBlockFree env fs (fileAddr fs s v (.data b)) (o * fs.fsFsize) s = .done () t)
    (run : ufsSetBlock env fs ino b 0 t = .done 0 s') :
    ∃ v', Placed fs ino exact b 0 s v own s' v' (Function.update own b 0) := by
  obtain ⟨mid, core, data, map⟩ := ufsBlockFree_file io inv there ho le free
  obtain ⟨v', stored⟩ := ufsSetBlock_spec (k := 0) io mid (.inl rfl) run
  set own₁ := Function.update own b 0 with hown
  have idem : Function.update own₁ b 0 = own₁ := Function.update_idem ..
  have before : fileAddr fs t v = fileAddr fs s v := by rw [fileAddr, fileAddr, data]
  have mine : ∀ x, fileAddr fs s v (.data b) ≤ x → x < fileAddr fs s v (.data b) + own b →
      x ∈ slotExt fs (fileAddr fs s v) own (.data b) := fun x low high => ⟨there, low, high⟩
  have rest : ∀ sl : Slot, sl ≠ .data b →
      slotExt fs (fileAddr fs t v) own₁ sl = slotExt fs (fileAddr fs s v) own sl := by
    intro sl ne
    cases sl with
    | data b' =>
        have other : b' ≠ b := by simpa using ne
        simp only [slotExt, slotWidth, before, hown, Function.update_of_ne other]
    | single => rw [before]; rfl
    | double => rw [before]; rfl
    | middle m => rw [before]; rfl
  have stays : ∀ x, OthersHold fs s v own x → t.free fs x = false := by
    rintro x ⟨used, notMine⟩
    have used : s.free fs x = false := used
    have outside : ¬ (fileAddr fs s v (.data b) ≤ x ∧ x < fileAddr fs s v (.data b) + o) :=
      fun inside => notMine ⟨.data b, mine x inside.1 (by omega)⟩
    rw [map, used, decide_eq_false outside]
    rfl
  have others : ∀ x, OthersHold fs s v own x → ¬ Owns fs s' v' own₁ x := by
    intro x hx now
    rw [← idem] at now
    rcases stored.owns now with ⟨zero, -⟩ | ⟨sl, ne, old⟩ | free
    · exact zero rfl
    · rw [rest sl ne] at old
      exact hx.2 ⟨sl, old⟩
    · rw [stays x hx] at free
      cases free
  have all := core.trans stored.step.core
  refine ⟨v', idem ▸ stored.inv, all,
    ⟨fun i _ => by rw [all.dinodes], all.others, all.files, all.ronly,
      fun x hx => ⟨stored.step.free x (stays x hx), others x hx⟩, ?_, fun _ x free used => ?_,
      fun ok x mine notNow => ?_⟩, stored.step.inode, fun b' => by rw [stored.addr b', before],
    fun b' ne => Function.update_of_ne ne _ _, fun b' ne => ?_⟩
  · rw [← data]
    refine stored.bytes fun x hx sl _ mine => others x hx ⟨sl, ?_⟩
    rw [idem] at mine
    exact mine
  · rw [← idem]
    refine stored.owns_taken ?_ used
    rw [map, free, Bool.true_or]
  · obtain ⟨sl, mine⟩ := mine
    by_cases here : sl = .data b
    · subst here
      by_contra used
      refine notNow (idem ▸ stored.owns_taken ?_ (Bool.eq_false_iff.mpr used))
      rw [map, Bool.or_eq_true, decide_eq_true_eq, whole ok]
      exact .inr mine.2
    · rw [← rest sl here] at mine
      exact absurd (idem ▸ stored.owns_other here mine) notNow
  · rw [← data, ← rest (.data b') (by simpa using ne)]
    exact stored.kept ne

theorem fragsOf_mul (k : Nat) : fragsOf fs (k * fs.fsFsize : Nat) = k := by
  have small : fs.fsQfmask < fs.fsFsize := by
    have := fs.fsize_pos
    unfold Superblock.fsQfmask
    omega
  unfold fragsOf
  rw [← Int.natCast_add, ← Int.natCast_ediv, Nat.mul_comm, Nat.mul_add_div fs.fsize_pos,
    Nat.div_eq_of_lt small, Nat.add_zero]

theorem flushAlloc_spec (exact : Prop) (io : env.IoOk) (inv : FileInv fs s ino v own)
    (file : UfsFile) {file' : UfsFile} {k : Nat} (same : file.ino = ino) (hole : fileAddr fs s v (.data file.blockno) = 0) (hk : 0 < k)
    (le : k ≤ fs.fsFrag)
    (run : flushAlloc env fs file (k * fs.fsFsize : Nat) s = .done (0, file') s') :
    ∃ w v', w ≠ 0 ∧ file' = { file with physblock := w } ∧
      Placed fs ino exact file.blockno w s v own s' v' (Function.update own file.blockno k) := by
  subst same
  unfold flushAlloc at run
  rw [Prog.bind_of_done (vnode2inode_ok inv.there)] at run
  obtain ⟨⟨rc, w⟩, t, alloc, run⟩ := Prog.bind_eq_done.mp run
  simp only at run
  split at run
  · next failed => exact absurd (congrArg Prod.fst (Prog.pure_eq_done.mp run).1) failed
  next ok =>
  obtain rfl : rc = 0 := not_not.mp ok
  obtain ⟨rc, t', set, run⟩ := Prog.bind_eq_done.mp run
  obtain ⟨result, rfl⟩ := Prog.pure_eq_done.mp run
  cases result
  obtain ⟨there, v', placed⟩ := place_new exact io inv hole hk le alloc set
  exact ⟨w, v', there, rfl, placed⟩

/-- The outcome of `flushPlace`: the extent stays where it is, or the block has a new one. -/
def PlaceResult (s : State) (v : Vnode) (own : Nat → Nat) (b k o phys : Nat) (s' : State)
    (v' : Vnode) (own' : Nat → Nat) (w : Nat) : Prop :=
  (phys ≠ 0 ∧ k ≤ o ∧ w = phys ∧ s' = s ∧ v' = v ∧ own' = own) ∨
    ((phys = 0 ∨ o < k) ∧ own' = Function.update own b k)

/-- What makes a flush of `k` fragments safe, where the code takes the block for one of `o`
    fragments: it frees or overwrites fragments of the block only. -/
structure FlushFits (own : Nat → Nat) (b k o phys : Nat) : Prop where
  grow : phys ≠ 0 → o < k → 0 < o ∧ o ≤ own b
  stay : phys ≠ 0 → k ≤ o → k ≤ own b

theorem flushPlace_spec (io : env.IoOk) (inv : FileInv fs s ino v own) {file file' : UfsFile}
    {k o : Nat} (same : file.ino = ino)
    (phys : file.physblock = fileAddr fs s v (.data file.blockno)) (hk : 0 < k) (le : k ≤ fs.fsFrag)
    (fits : FlushFits own file.blockno k o file.physblock)
    (whole : exact → file.physblock ≠ 0 → o < k → o = own file.blockno)
    (run : flushPlace env fs file (k * fs.fsFsize : Nat) (o * fs.fsFsize : Nat) s
      = .done (0, file') s') :
    ∃ w v' own', w ≠ 0 ∧ file' = { file with physblock := w } ∧ k ≤ own' file.blockno ∧
      Placed fs ino exact file.blockno w s v own s' v' own' ∧
      PlaceResult s v own file.blockno k o file.physblock s' v' own' w := by
  unfold flushPlace at run
  rw [fragsOf_mul, fragsOf_mul] at run
  by_cases hole : file.physblock = 0
  · rw [if_pos hole] at run
    obtain ⟨w, v', there, rfl, placed⟩ := flushAlloc_spec exact io inv file same (phys ▸ hole) hk le run
    exact ⟨w, v', _, there, rfl, by rw [Function.update_self], placed, .inr ⟨.inl hole, rfl⟩⟩
  rw [if_neg hole] at run
  by_cases grow : o < k
  · rw [if_pos (by omega)] at run
    obtain ⟨ho, fit⟩ := fits.grow hole grow
    obtain ⟨⟨⟩, t, free, run⟩ := Prog.bind_eq_done.mp run
    obtain ⟨rc, t', set, run⟩ := Prog.bind_eq_done.mp run
    split at run
    · next failed => exact absurd (congrArg Prod.fst (Prog.pure_eq_done.mp run).1) failed
    next ok =>
    obtain rfl : rc = 0 := not_not.mp ok
    rw [phys, Int.toNat_natCast] at free
    rw [same] at set
    obtain ⟨v₁, gone⟩ := place_free io inv (phys ▸ hole) ho fit
      (fun ok => whole ok hole grow) free set
    obtain ⟨w, v', there, rfl, placed⟩ := flushAlloc_spec exact io gone.inv
      { file with physblock := 0 } same (by simp [gone.addr]) hk le run
    rw [Function.update_idem] at placed
    exact ⟨w, v', _, there, rfl, by rw [Function.update_self], gone.trans placed,
      .inr ⟨.inr grow, rfl⟩⟩
  · rw [if_neg (by omega)] at run
    obtain ⟨result, rfl⟩ := Prog.pure_eq_done.mp run
    cases result
    refine ⟨file.physblock, v, own, hole, rfl, fits.stay hole (by omega), ?_,
      .inl ⟨hole, by omega, rfl, rfl, rfl, rfl⟩⟩
    refine ⟨inv, .refl ino s, .refl, ⟨_, _, rfl⟩, fun b' => ?_, fun _ _ => rfl,
      fun _ _ _ _ _ _ => rfl⟩
    split
    · next here => rw [here, phys]
    · rfl

/-! ## Writing the block -/

/-- The buffer goes to the first `k` fragments of a data block. -/
theorem put_data (exact : Prop) (inv : FileInv fs s ino v own) {b k : Nat} (buf : Buf)
    (there : fileAddr fs s v (.data b) ≠ 0) (le : k ≤ own b) :
    let s' := s.put fs (fileAddr fs s v (.data b)) buf (k * fs.fsFsize)
    FileInv fs s' ino v own ∧ fileAddr fs s' v = fileAddr fs s v ∧
      Moved fs ino exact s v own s' v own ∧
      AgreeOn fs { x | ¬ (fileAddr fs s v (.data b) ≤ x ∧ x < fileAddr fs s v (.data b) + k) }
        s.data s'.data := by
  intro s'
  set p := fileAddr fs s v (.data b) with hp
  have mine : ∀ x, p ≤ x → x < p + k → x ∈ slotExt fs (fileAddr fs s v) own (.data b) :=
    fun x low high => ⟨there, low, by rw [← hp, slotWidth]; omega⟩
  have agree : AgreeOn fs { x | ¬ (p ≤ x ∧ x < p + k) } s.data s'.data := agree_store
  have addr : fileAddr fs s' v = fileAddr fs s v := by
    refine slotAddr_agree (agree.mono fun x hx inside => ?_)
    exact inv.owned.data_indir (mine x inside.1 inside.2) hx
  refine ⟨⟨⟨⟨inv.alloc.group, inv.alloc.cs, inv.alloc.total⟩, inv.boot,
    zero_of_agree agree (fun x hx inside => ?_) inv.zero, inv.device⟩, inv.there, inv.number, inv.valid,
    addr ▸ inv.owned⟩, addr, .of_same (put_core _ _ _ _) addr rfl (agree.mono fun x hx inside => ?_), agree⟩
  · have := (inv.owned.used _ x (mine x inside.1 inside.2)).2.1
    omega
  · exact hx.2 ⟨.data b, mine x inside.1 inside.2⟩

/-! ## Writing the inode -/

/-- The inode block in memory is one of the device, as the device has it. -/
structure InoCache (fs : Superblock) (s : State) : Prop where
  aligned : s.dInomin < s.dInomax → fs.fsInopb ∣ s.dInomin ∧ s.dInomax = s.dInomin + fs.fsInopb
  same : ∀ i, s.dInomin + i < s.dInomax → s.dInoblock i = s.dinodes (s.dInomin + i)

theorem InoCache.core (cache : InoCache fs s) (core : CoreFrame ino s s') : InoCache fs s' := by
  refine ⟨?_, ?_⟩
  · rw [core.inomin, core.inomax]; exact cache.aligned
  · rw [core.inomin, core.inomax, core.inoblock, core.dinodes]; exact cache.same

/-- The inode is on the device as it is in core, and the other inodes are as they were. -/
structure InodeWritten (fs : Superblock) (ino : Nat) (s : State) (v : Vnode) (s' : State) : Prop where
  cache : InoCache fs s'
  dinodes : s'.dinodes = Function.update s.dinodes ino (copyIncoreToOndisk fs v.inode).iDin2
  frame : s' = { s with
    tick := s'.tick
    log := s'.log
    dinodes := s'.dinodes
    dInoblock := s'.dInoblock
    dInomin := s'.dInomin
    dInomax := s'.dInomax
    vnodes := Function.update s.vnodes ino
      (some { v with inode := copyIncoreToOndisk fs v.inode }) }

/-- The block with the inode is in memory. -/
theorem loadInoblock_ok (io : env.InoOk) (cache : InoCache fs s) (ino : Nat) :
    ∃ s', loadInoblock env fs ino s = .done () s' ∧ InoCache fs s' ∧
      s'.dInomin = ino - ino % fs.fsInopb ∧ s'.dInomax = s'.dInomin + fs.fsInopb ∧
      s' = { s with
        tick := s'.tick
        dInoblock := s'.dInoblock
        dInomin := s'.dInomin
        dInomax := s'.dInomax } := by
  have npos : 0 < fs.fsInopb := by have := fs.inopb_eq; have := fs.bsize_pos; omega
  unfold loadInoblock
  rw [Prog.get_bind_apply]
  by_cases here : s.dInomin ≤ ino ∧ ino < s.dInomax
  · rw [if_pos here]
    obtain ⟨⟨c, hc⟩, top⟩ := cache.aligned (by omega)
    refine ⟨s, rfl, cache, ?_, top, rfl⟩
    have quot : ino / fs.fsInopb = c := by
      refine Nat.div_eq_of_lt_le ?_ ?_
      · rw [Nat.mul_comm, ← hc]; exact here.1
      · rw [Nat.add_mul, Nat.mul_comm c, ← hc]; omega
    have := Nat.div_add_mod ino fs.fsInopb
    rw [quot, ← hc] at this
    omega
  · rw [if_neg here]
    have run : tryReadIno env s = .done true (s.atTick (s.tick + 1)) := by
      rw [tryReadIno, io.inoRead]; rfl
    rw [Prog.bind_of_done run]
    refine ⟨_, rfl, ⟨fun _ => ⟨?_, rfl⟩, fun i hi => ?_⟩, rfl, rfl, rfl⟩
    · exact Nat.dvd_sub_mod ino
    · simp

theorem writeInoblock_ok (io : env.InoOk) (ino : Nat) (s : State) :
    writeInoblock env fs ino s = .done (fs.fsBsize : Int) { s with
      tick := s.tick + 1
      log := .bwrite :: s.log
      dinodes := fun i =>
        if ino - ino % fs.fsInopb ≤ i ∧ i < ino - ino % fs.fsInopb + fs.fsInopb then
          s.dInoblock (i - (ino - ino % fs.fsInopb))
        else s.dinodes i } := by
  unfold writeInoblock
  have write : tryWriteIno env s = .done true { s with tick := s.tick + 1, log := .bwrite :: s.log } := by
    rw [tryWriteIno, io.inoWrite]
  rw [Prog.bind_of_done write, if_pos rfl, Prog.modify_bind_apply]
  rfl

theorem ufsWriteInode_ok (io : env.InoOk) (cache : InoCache fs s) (there : s.vnodes ino = some v) :
    ∃ s', ufsWriteInode env fs ino s = .done 0 s' ∧ InodeWritten fs ino s v s' := by
  obtain ⟨t, load, cached, low, high, frame⟩ := loadInoblock_ok io cache ino
  have thereT : t.vnodes ino = some v := by rw [frame]; exact there
  have bpos := fs.bsize_pos
  have npos : 0 < fs.fsInopb := by have := fs.inopb_eq; omega
  have small := Nat.mod_lt ino npos
  have le := Nat.mod_le ino fs.fsInopb
  have dinodesT : t.dinodes = s.dinodes := by rw [frame]
  unfold ufsWriteInode
  rw [Prog.bind_of_done load, Prog.bind_of_done (updateInode_ok thereT _),
    Prog.bind_of_done (vnode2inode_ok (v := { v with inode := copyIncoreToOndisk fs v.inode })
      (Function.update_self ..)), Prog.modify_bind_apply, Prog.bind_of_done (writeInoblock_ok io ino _),
    if_neg (by omega), Prog.pure_apply]
  set din := (copyIncoreToOndisk fs v.inode).iDin2 with hdin
  -- the block goes back with one inode changed
  have written : (fun i => if ino - ino % fs.fsInopb ≤ i ∧ i < ino - ino % fs.fsInopb + fs.fsInopb then
      Function.update t.dInoblock (ino - t.dInomin) din (i - (ino - ino % fs.fsInopb))
      else t.dinodes i) = Function.update s.dinodes ino din := by
    funext i
    rw [← dinodesT, ← low, Function.update_apply, Function.update_apply]
    by_cases here : i = ino
    · rw [if_pos (by omega), if_pos (by omega), if_pos here]
    · rw [if_neg here]
      split
      · next inside =>
        rw [if_neg (by omega), cached.same _ (by omega)]
        congr 1
        omega
      · rfl
  refine ⟨_, rfl, ⟨fun _ => ⟨?_, high⟩, fun i hi => ?_⟩, written, ?_⟩
  · exact (cached.aligned (by omega)).1
  · have bound : t.dInomin + i < t.dInomax := hi
    have inside : ino - ino % fs.fsInopb ≤ t.dInomin + i ∧
        t.dInomin + i < ino - ino % fs.fsInopb + fs.fsInopb := by omega
    have back : Function.update t.dInoblock (ino - t.dInomin) din i = Function.update t.dInoblock
        (ino - t.dInomin) din (t.dInomin + i - (ino - ino % fs.fsInopb)) := by
      rw [← low, Nat.add_sub_cancel_left]
    exact back.trans (if_pos inside).symm
  · rw [frame]
    rfl

theorem slotAddr_copy (d : Nat → Byte) (inode : Inode) :
    slotAddr fs d (copyIncoreToOndisk fs inode).iDin2 = slotAddr fs d inode.iDin2 := by
  funext sl
  cases sl <;> rfl

/-- The vnode after its inode was written. -/
def Vnode.synced (fs : Superblock) (v : Vnode) : Vnode :=
  { v with inode := copyIncoreToOndisk fs v.inode }

theorem InodeWritten.file (exact : Prop) (written : InodeWritten fs ino s v s') (inv : FileInv fs s ino v own) :
    FileInv fs s' ino (v.synced fs) own ∧ fileAddr fs s' (v.synced fs) = fileAddr fs s v ∧
      Moved fs ino exact s v own s' (v.synced fs) own ∧ s'.data = s.data := by
  have data : s'.data = s.data := by rw [written.frame]
  have free : s'.free fs = s.free fs := by rw [written.frame]; rfl
  have vnodes : s'.vnodes = Function.update s.vnodes ino (some (v.synced fs)) := by
    rw [written.frame]; rfl
  have addr : fileAddr fs s' (v.synced fs) = fileAddr fs s v := by
    rw [fileAddr, fileAddr, data]
    exact slotAddr_copy _ _
  have alloc : AllocOk fs s' := by
    rw [written.frame]
    exact ⟨inv.alloc.group, inv.alloc.cs, inv.alloc.total⟩
  have hold : ∀ x, Owns fs s' (v.synced fs) own x ↔ Owns fs s v own x := fun x => by
    rw [Owns, Owns, addr]
  refine ⟨⟨⟨alloc, free ▸ inv.boot, data ▸ inv.zero, free ▸ inv.device⟩, ?_, inv.number, inv.valid, ?_⟩,
    addr, ⟨fun i ne => ?_, fun i ne => ?_, ?_, ?_, fun x hx => ?_, ?_, fun _ x wasFree used => ?_,
      fun _ x mine notNow => absurd ((hold x).mpr mine) notNow⟩, data⟩
  · rw [vnodes, Function.update_self]
  · rw [addr, free]; exact inv.owned
  · rw [written.dinodes, Function.update_of_ne ne]
  · rw [vnodes, Function.update_of_ne ne]
  · rw [written.frame]
  · rw [written.frame]
  · exact ⟨by rw [free]; exact hx.1, fun mine => hx.2 ((hold x).mp mine)⟩
  · rw [data]; exact fun _ _ _ _ => rfl
  · rw [free, wasFree] at used
    cases used

/-! ## The flush -/

/-- The block `b` with the bytes of the buffer in its first `k` fragments. -/
structure Flushed (fs : Superblock) (ino : Nat) (exact : Prop) (b k o : Nat) (buf : Buf) (s : State)
    (v : Vnode) (own : Nat → Nat) (s' : State) (v' : Vnode) (own' : Nat → Nat) (w : Nat) : Prop where
  inv : FileInv fs s' ino v' own'
  cache : InoCache fs s'
  moved : Moved fs ino exact s v own s' v' own'
  inode : ∃ db ib, v' = Vnode.synced fs { v with
    inode := { v.inode with iDin2 := { v.inode.iDin2 with diDb := db, diIb := ib } } }
  dinode : s'.dinodes ino = v'.inode.iDin2
  addr : ∀ b', fileAddr fs s' v' (.data b') = if b' = b then w else fileAddr fs s v (.data b')
  widths : ∀ b', b' ≠ b → own' b' = own b'
  there : w ≠ 0
  wide : k ≤ own' b
  kept : ∀ b', b' ≠ b → AgreeOn fs (slotExt fs (fileAddr fs s v) own (.data b')) s.data s'.data
  wrote : ∀ j < k * fs.fsFsize, s'.data (w * fs.fsFsize + j) = buf j
  place : (fileAddr fs s v (.data b) ≠ 0 ∧ k ≤ o ∧ w = fileAddr fs s v (.data b) ∧ own' = own ∧
      AgreeOn fs { x | ¬ (w ≤ x ∧ x < w + k) } s.data s'.data) ∨
    ((fileAddr fs s v (.data b) = 0 ∨ o < k) ∧ own' = Function.update own b k)

theorem flushWrite_spec (exact : Prop) (io : env.IoOk) (cache : InoCache fs s)
    (inv : FileInv fs s ino v own) (ne : ino ≠ 0) (file : UfsFile) {file' : UfsFile} {k : Nat} {rc : Int} (same : file.ino = ino) (hk : 0 < k)
    (there : file.physblock ≠ 0) (phys : file.physblock = fileAddr fs s v (.data file.blockno))
    (le : k ≤ own file.blockno)
    (run : flushWrite env fs file (k * fs.fsFsize : Nat) s = .done (rc, file') s') :
    rc = 0 ∧ file' = { file with bufDirty := false } ∧ InoCache fs s' ∧
      FileInv fs s' ino (v.synced fs) own ∧ fileAddr fs s' (v.synced fs) = fileAddr fs s v ∧
      Moved fs ino exact s v own s' (v.synced fs) own ∧ s'.dinodes ino = (v.synced fs).inode.iDin2 ∧
      s'.data = store s.data (file.physblock * fs.fsFsize) file.buf (k * fs.fsFsize) := by
  subst same
  have fits : file.physblock * fs.fsFsize < 2 ^ 63 := by
    rw [phys] at there ⊢
    exact (inv.owned.fits _ there).offset_fits
  have size : 0 < k * fs.fsFsize := Nat.mul_pos hk fs.fsize_pos
  obtain ⟨inv₁, addr₁, moved₁, -⟩ := put_data exact inv file.buf (phys ▸ there) le
  rw [← phys] at inv₁ addr₁ moved₁
  obtain ⟨s₂, wrote, written⟩ := ufsWriteInode_ok io.toInoOk (cache.core (put_core file.ino file.physblock
    file.buf (k * fs.fsFsize))) inv₁.there
  obtain ⟨inv₂, addr₂, moved₂, data₂⟩ := written.file exact inv₁
  unfold flushWrite at run
  rw [Prog.bind_of_done (blkwrite_ok io fits _ s), if_neg (by omega)] at run
  simp only at run
  rw [if_pos ne, Prog.bind_of_done wrote] at run
  cases run
  refine ⟨rfl, rfl, written.cache, inv₂, addr₂.trans addr₁, moved₁.trans moved₂, ?_, data₂⟩
  rw [written.dinodes, Function.update_self]
  rfl

theorem ufsFileFlush_spec (io : env.IoOk) (cache : InoCache fs s) (inv : FileInv fs s ino v own)
    (ne : ino ≠ 0) {file file' : UfsFile} {k o : Nat} (same : file.ino = ino)
    (valid : file.bufValid = true) (dirty : file.bufDirty = true)
    (phys : file.physblock = fileAddr fs s v (.data file.blockno)) (hk : 0 < k) (le : k ≤ fs.fsFrag)
    (size : ufsInodeIoSize fs v.inode (asInt32 file.pos) true = (k * fs.fsFsize : Nat))
    (osize : ufsInodeIoSize fs v.inode (asInt32 v.inode.iDin2.diSize) true = (o * fs.fsFsize : Nat))
    (fits : FlushFits own file.blockno k o file.physblock)
    (whole : exact → file.physblock ≠ 0 → o < k → o = own file.blockno)
    (run : ufsFileFlush env fs file s = .done (0, file') s') :
    ∃ w v' own', file' = { file with physblock := w, bufDirty := false } ∧
      Flushed fs ino exact file.blockno k o file.buf s v own s' v' own' w := by
  have pos : 0 < k * fs.fsFsize := Nat.mul_pos hk fs.fsize_pos
  unfold ufsFileFlush at run
  rw [same, Prog.bind_of_done (vnode2inode_ok inv.there), if_neg (by simp [valid, dirty])] at run
  simp only at run
  rw [size, osize, if_neg (by omega)] at run
  obtain ⟨⟨rc, mid⟩, t, place, run⟩ := Prog.bind_eq_done.mp run
  simp only at run
  split at run
  · next failed => exact absurd (congrArg Prod.fst (Prog.pure_eq_done.mp run).1) failed
  next ok =>
  obtain rfl : rc = 0 := not_not.mp ok
  obtain ⟨w, v₁, own', there, rfl, wide, placed, result⟩ :=
    flushPlace_spec io inv same phys hk le fits whole place
  have here : fileAddr fs t v₁ (.data file.blockno) = w := by rw [placed.addr, if_pos rfl]
  obtain ⟨-, rfl, cache', inv', addr', moved', dinode, data⟩ := flushWrite_spec exact io
    (cache.core placed.core) placed.inv ne { file with physblock := w } same hk there
    here.symm wide run
  simp only at data
  have agree : AgreeOn fs { x | ¬ (w ≤ x ∧ x < w + k) } t.data s'.data := by
    rw [data]; exact agree_store
  refine ⟨w, v₁.synced fs, own', rfl, inv', cache', placed.moved.trans moved', ?_, dinode,
    fun b' => by rw [addr', placed.addr b'], placed.widths, there, wide, fun b' ne => ?_, fun j hj => ?_, ?_⟩
  · obtain ⟨db, ib, rfl⟩ := placed.inode
    exact ⟨db, ib, rfl⟩
  · -- the other blocks lie outside of the extent that is written
    refine (placed.kept b' ne).trans (agree.mono fun x hx inside => ?_)
    rw [← slotExt_other ne placed.addr placed.widths] at hx
    have other : Slot.data b' ≠ .data file.blockno := by simpa using ne
    refine Set.disjoint_left.mp (placed.inv.owned.apart other) hx ?_
    refine ⟨by rw [here]; exact there, ?_⟩
    rw [here, slotWidth]
    omega
  · rw [data, store_inside (by omega) (by omega), Nat.add_sub_cancel_left]
  · rcases result with ⟨mapped, less, rfl, rfl, rfl, rfl⟩ | ⟨hole, rfl⟩
    · exact .inl ⟨phys ▸ mapped, less, phys, rfl, agree⟩
    · exact .inr ⟨phys ▸ hole, rfl⟩

end Steps

end FuseUfs
