import FuseUfs.DirAppend

/-! # The fragments of a directory that grows

A directory that is appended to moves its last block when that needs more fragments: new ones are
taken, the map is changed, and the old ones go.
-/

namespace FuseUfs

open Lib Prog

section Place

variable {env : Env} {fs : Superblock} {s s' t u : State} {dir b k o w : Nat} {v : Vnode} {own : Nat → Nat}

/-- Fragments in use that the file does not own are given back. -/
theorem free_unowned (io : env.IoOk) (inv : FileInv fs s dir v own) {p : Nat} (extent : InBlock fs p o) (some : 0 < o)
    (bound : ∀ x, p ≤ x → x < p + o → s.free fs x = false ∧ fs.fsFrag ≤ x ∧ x < fs.fsSize)
    (foreign : ∀ x, p ≤ x → x < p + o → ¬ Owns fs s v own x)
    (run : ufsBlockFree env fs p (o * fs.fsFsize) s = .done () s') :
    FileInv fs s' dir v own ∧ CoreFrame dir s s' ∧ s'.data = s.data ∧
      ∀ x, s'.free fs x = (s.free fs x || decide (p ≤ x ∧ x < p + o)) := by
  obtain ⟨t', ran, after, step⟩ := ufsBlockFree_spec io inv.alloc extent some fun x low high => (bound x low high).1
  rw [run] at ran
  cases ran
  have small : p < fs.fsSize := (bound p le_rfl (by omega)).2.2
  rw [if_neg (by have := Nat.mod_le p (2 ^ 32); omega)] at step
  obtain ⟨core, data, vnodes⟩ := step.frame.core dir
  have map := step.map
  have addr : fileAddr fs s' v = fileAddr fs s v := by rw [fileAddr, fileAddr, data]
  have stays : ∀ x, s.free fs x = false → ¬ (p ≤ x ∧ x < p + o) → s'.free fs x = false := by
    intro x used outside
    rw [map, used, decide_eq_false outside]
    rfl
  refine ⟨⟨⟨after, fun x hx => stays x (inv.boot x hx) fun inside => ?_, data ▸ inv.zero,
    fun x free => ?_⟩, vnodes ▸ inv.there, inv.number, inv.valid, ?_⟩, core, data, map⟩
  · have := (bound x inside.1 inside.2).2.1
    omega
  · rw [map, Bool.or_eq_true, decide_eq_true_eq] at free
    rcases free with free | inside
    · exact inv.device x free
    · exact (bound x inside.1 inside.2).2.2
  · rw [addr]
    refine inv.owned.shrink (fun _ => le_rfl) fun sl x hx => stays x (inv.owned.used sl x hx).1 fun inside => ?_
    exact foreign x inside.1 inside.2 ⟨sl, hx⟩

/-- A block moves: new fragments are taken, the address is stored, and the old fragments go. -/
theorem place_move (io : env.IoOk) (inv : FileInv fs s dir v own) (there : fileAddr fs s v (.data b) ≠ 0)
    (hk : 0 < k) (le : k ≤ fs.fsFrag) (ho : 0 < o) (whole : own b = o)
    (alloc : ufsBlockAlloc env fs v.inode.iNumber (k * fs.fsFsize : Nat) s = .done (0, w) t)
    (set : ufsSetBlock env fs dir b w t = .done 0 u)
    (free : ufsBlockFree env fs (fileAddr fs s v (.data b)) (o * fs.fsFsize) u = .done () s') :
    ∃ v', Placed fs dir True b w s v own s' v' (Function.update own b k) := by
  obtain ⟨mid, reserved, core, data, vnodes, wasFree, map⟩ := ufsBlockAlloc_file io inv hk le alloc
  obtain ⟨v', stored⟩ := ufsSetBlock_spec io mid (.inr reserved) set
  set p := fileAddr fs s v (.data b) with hp
  set own' := Function.update own b k with hown
  have before : fileAddr fs t v = fileAddr fs s v := by rw [fileAddr, fileAddr, data]
  have mine : ∀ x, p ≤ x → x < p + o → x ∈ slotExt fs (fileAddr fs s v) own (.data b) :=
    fun x low high => ⟨there, low, by rw [slotWidth, whole]; exact high⟩
  have extent : InBlock fs p o := whole ▸ inv.owned.fits (.data b) there
  have frees : ∀ x, t.free fs x = true → s.free fs x = true := fun x free => by
    rw [map, Bool.and_eq_true] at free
    exact free.1
  have stays : ∀ x, s.free fs x = false → u.free fs x = false := fun x used =>
    stored.step.free x (by rw [map, used, Bool.false_and])
  -- what the file has now was in its other blocks, or free
  have owns : ∀ x, Owns fs u v' own' x → (w ≤ x ∧ x < w + k) ∨
      (∃ sl, sl ≠ .data b ∧ x ∈ slotExt fs (fileAddr fs s v) own sl) ∨ s.free fs x = true := by
    intro x now
    rcases stored.owns now with ⟨-, inside⟩ | ⟨sl, ne, old⟩ | free
    · exact .inl inside
    · exact .inr (.inl ⟨sl, ne, before ▸ old⟩)
    · exact .inr (.inr (frees x free))
  have foreign : ∀ x, p ≤ x → x < p + o → ¬ Owns fs u v' own' x := by
    intro x low high now
    have used := (inv.owned.used _ x (mine x low high)).1
    rcases owns x now with ⟨low', high'⟩ | ⟨sl, ne, old⟩ | free
    · rw [wasFree x low' high'] at used
      cases used
    · exact Set.disjoint_left.mp (inv.owned.apart ne) old (mine x low high)
    · rw [free] at used
      cases used
  have others : ∀ x, OthersHold fs s v own x → ¬ Owns fs u v' own' x := by
    rintro x ⟨used, notMine⟩ now
    have used : s.free fs x = false := used
    rcases owns x now with ⟨low, high⟩ | ⟨sl, -, old⟩ | free
    · rw [wasFree x low high] at used
      cases used
    · exact notMine ⟨sl, old⟩
    · rw [free] at used
      cases used
  obtain ⟨after, core', data', map'⟩ := free_unowned io stored.inv extent ho
    (fun x low high => ⟨stays x (inv.owned.used _ x (mine x low high)).1, (inv.owned.used _ x (mine x low high)).2⟩)
    foreign free
  have addr' : fileAddr fs s' v' = fileAddr fs u v' := by rw [fileAddr, fileAddr, data']
  have same : ∀ x, Owns fs s' v' own' x ↔ Owns fs u v' own' x := fun x => by rw [Owns, Owns, addr']
  have all := core.trans (stored.step.core.trans core')
  refine ⟨v', after, all, ⟨fun i _ => by rw [all.dinodes], all.others, all.files, all.ronly, fun x hx => ⟨?_, ?_⟩, ?_,
    fun _ x free used => ?_, fun _ x had notNow => ?_⟩, stored.step.inode, fun b' => ?_,
    fun b' ne => Function.update_of_ne ne _ _, fun b' ne => ?_⟩
  · change s'.free fs x = false
    have outside : ¬ (p ≤ x ∧ x < p + o) := fun inside => hx.2 ⟨.data b, mine x inside.1 inside.2⟩
    rw [map', stays x hx.1, decide_eq_false outside]
    rfl
  · exact fun now => others x hx ((same x).mp now)
  · rw [data', ← data]
    exact stored.bytes fun x hx sl _ now => others x hx ⟨sl, now⟩
  · -- taken for the block, or for an indirect block
    have usedU : u.free fs x = false := by
      rw [map', Bool.or_eq_false_iff] at used
      exact used.1
    rw [same]
    cases middle : t.free fs x with
    | true => exact stored.owns_taken middle usedU
    | false =>
        rw [map, free, Bool.true_and, Bool.not_eq_false', decide_eq_true_eq] at middle
        refine ⟨.data b, ?_⟩
        simp only [slotExt, slotWidth, stored.addr, if_pos, hown, Function.update_self]
        exact ⟨reserved.addr_ne, middle⟩
  · obtain ⟨sl, had⟩ := had
    by_cases here : sl = .data b
    · subst here
      obtain ⟨-, low, high⟩ := had
      rw [slotWidth, whole] at high
      rw [map', Bool.or_eq_true, decide_eq_true_eq]
      exact .inr ⟨low, high⟩
    · exact absurd ((same x).mpr (stored.owns_other here (before ▸ had))) notNow
  · rw [addr', stored.addr b', before]
  · rw [data', ← data, ← before]
    exact stored.kept ne

/-- The place that `ufs_dir_append` finds for the last block. -/
theorem appendPlace_owned (io : env.IoOk) (inv : FileInv fs s dir v own) {blkno : Nat} (hk : 0 < k)
    (le : k ≤ fs.fsFrag) (small : b < 2 ^ 32) (more : o < k)
    (last : (o = 0 ∧ fileAddr fs s v (.data b) = 0) ∨
      (0 < o ∧ fileAddr fs s v (.data b) = blkno ∧ blkno ≠ 0 ∧ own b = o))
    (run : appendPlace env fs dir b (o * fs.fsFsize) (k * fs.fsFsize) blkno s = .done (0, w) s') :
    w ≠ 0 ∧ ∃ v', Placed fs dir True b w s v own s' v' (Function.update own b k) := by
  have fpos := fs.fsize_pos
  unfold appendPlace at run
  rw [if_pos (Nat.mul_lt_mul_of_pos_right more fpos), Prog.bind_of_done (vnode2inode_ok inv.there)] at run
  obtain ⟨⟨rc, w'⟩, s₁, alloc, run⟩ := Prog.bind_eq_done.mp run
  simp only at run
  split at run
  · next failed => exact absurd (Prog.pure_eq_done.mp run).1 (by simp [failed])
  next fine =>
  obtain rfl : rc = 0 := not_not.mp fine
  obtain ⟨rc, s₂, set, run⟩ := Prog.bind_eq_done.mp run
  split at run
  · next failed => exact absurd (Prog.pure_eq_done.mp run).1 (by simp [failed])
  next fine =>
  obtain rfl : rc = 0 := not_not.mp fine
  rw [Nat.mod_eq_of_lt small] at set
  rcases last with ⟨rfl, hole⟩ | ⟨some, rfl, there, whole⟩
  · rw [Nat.zero_mul, if_neg (by decide)] at run
    obtain ⟨same, rfl⟩ := Prog.pure_eq_done.mp run
    obtain ⟨-, rfl⟩ := Prod.mk.inj same
    exact place_new True io inv hole hk le alloc set
  · rw [if_pos (Nat.mul_pos some fpos)] at run
    obtain ⟨⟨⟩, s₃, free, run⟩ := Prog.bind_eq_done.mp run
    obtain ⟨same, rfl⟩ := Prog.pure_eq_done.mp run
    obtain ⟨-, rfl⟩ := Prod.mk.inj same
    have reserved := (ufsBlockAlloc_file io inv hk le alloc).2.1
    exact ⟨reserved.addr_ne, place_move io inv there hk le some whole alloc set free⟩

end Place

/-! ## A consistent directory -/

/-- A directory in order: what every block owns follows from the size, which is a multiple of 512; the
    map has every block up to its end, and none past it. -/
structure OwnedDir (fs : Superblock) (s : State) (dir : Nat) (v : Vnode) (img : Buf) : Prop
    extends FileInv fs s dir v (fs.ownFrags v.inode.iSize) where
  range : v.inode.iSize ≤ fs.maxBlocks * fs.fsBsize
  whole : dirblksiz ∣ v.inode.iSize
  mapped : ∀ b, b * fs.fsBsize < v.inode.iSize → fileAddr fs s v (.data b) ≠ 0
  ends : ∀ b, v.inode.iSize ≤ b * fs.fsBsize → fileAddr fs s v (.data b) = 0
  bytes : ∀ p < v.inode.iSize, s.byte fs v p = img p

/-- The same between two calls, when the directory is in core or can be brought there. -/
structure OwnedAt (fs : Superblock) (s : State) (dir : Nat) (img : Buf) : Prop where
  file : OwnedDir fs (s.setVnode dir (s.inCore dir)) dir (s.inCore dir) img
  cache : InoCache fs s
  numbered : dir ≠ 0
  linked : 0 < (s.inCore dir).inode.iNlink ∨ 0 < (s.inCore dir).count

/-- The end of a directory of this size is among the direct blocks, or 512 bytes more need no
    fragment more, or a block is one fragment. -/
def GrowsExactly (fs : Superblock) (size : Nat) : Prop :=
  size / fs.fsBsize < ndaddr ∨
    fs.fragroundup (size % fs.fsBsize) = fs.fragroundup (size % fs.fsBsize + dirblksiz) ∨ fs.fsFrag = 1

section Widths

variable {fs : Superblock} {size k : Nat}

/-- What the last block of a directory with direct blocks only owns. -/
theorem ownFrags_end (few : size / fs.fsBsize < ndaddr) :
    fs.ownFrags size (size / fs.fsBsize) * fs.fsFsize = fs.fragroundup (size % fs.fsBsize) := by
  have low := Nat.mod_lt size fs.bsize_pos
  have parts := Nat.div_add_mod' size fs.fsBsize
  have short : ¬ (ndaddr ≤ size / fs.fsBsize ∨ (size / fs.fsBsize + 1) * fs.fsBsize ≤ size) := by
    rw [Nat.succ_mul]
    omega
  unfold Superblock.ownFrags Superblock.blksize
  rw [fs.smalllblktosize_eq, if_neg short, fs.blkoff_eq, fs.fragroundup_eq, Nat.mul_div_cancel _ fs.fsize_pos]

/-- What it owns with 512 bytes more. -/
theorem ownFrags_grown (whole : dirblksiz ∣ size) (few : size / fs.fsBsize < ndaddr) :
    fs.ownFrags (size + dirblksiz) (size / fs.fsBsize) * fs.fsFsize
      = fs.fragroundup (size % fs.fsBsize + dirblksiz) := by
  obtain ⟨fits, -⟩ := append_parts fs whole
  have parts := Nat.div_add_mod' size fs.fsBsize
  by_cases full : size % fs.fsBsize + dirblksiz = fs.fsBsize
  · have whole' : (size / fs.fsBsize + 1) * fs.fsBsize ≤ size + dirblksiz := by
      rw [Nat.succ_mul]
      omega
    rw [ownFrags_full (.inr whole'), full, ← fs.bsize_eq_mul]
    exact le_antisymm (le_fragroundup _) (fragroundup_le fs le_rfl)
  · obtain ⟨block, place⟩ := block_parts fs (size / fs.fsBsize)
      (show size % fs.fsBsize + dirblksiz < fs.fsBsize by omega)
    rw [← Nat.add_assoc, parts] at block place
    have last : fs.ownFrags (size + dirblksiz) ((size + dirblksiz) / fs.fsBsize) * fs.fsFsize
        = fs.fragroundup ((size + dirblksiz) % fs.fsBsize) := ownFrags_end (by rw [block]; exact few)
    rwa [block, place] at last

/-- Where more fragments are needed, the fragments that `ufs_dir_append` asks for are right. -/
theorem GrowsExactly.widths (grows : GrowsExactly fs size) (whole : dirblksiz ∣ size)
    (more : fs.fragroundup (size % fs.fsBsize) < fs.fragroundup (size % fs.fsBsize + dirblksiz)) :
    fs.ownFrags (size + dirblksiz) (size / fs.fsBsize) * fs.fsFsize
        = fs.fragroundup (size % fs.fsBsize + dirblksiz) ∧
      (0 < size % fs.fsBsize →
        fs.ownFrags size (size / fs.fsBsize) * fs.fsFsize = fs.fragroundup (size % fs.fsBsize)) := by
  by_cases few : size / fs.fsBsize < ndaddr
  · exact ⟨ownFrags_grown whole few, fun _ => ownFrags_end few⟩
  · -- a block is one fragment
    have one : fs.fsFrag = 1 := by
      rcases grows with direct | same | one
      · exact absurd direct few
      · omega
      · exact one
    obtain ⟨fits, -⟩ := append_parts fs whole
    have bsize : fs.fsBsize = fs.fsFsize := by rw [fs.bsize_eq_mul, one, Nat.one_mul]
    have top : ∀ n, 0 < n → n ≤ fs.fsBsize → fs.fragroundup n = fs.fsFsize := by
      intro n pos le
      refine le_antisymm (bsize ▸ fragroundup_le fs le) ?_
      rw [fs.fragroundup_eq]
      have quot : 1 ≤ (n + (fs.fsFsize - 1)) / fs.fsFsize :=
        (Nat.le_div_iff_mul_le fs.fsize_pos).mpr (by omega)
      calc fs.fsFsize = 1 * fs.fsFsize := (Nat.one_mul _).symm
        _ ≤ _ := Nat.mul_le_mul_right _ quot
    have grown := top (size % fs.fsBsize + dirblksiz) (by unfold dirblksiz; omega) fits
    refine ⟨?_, fun some => ?_⟩
    · rw [ownFrags_full (.inl (by omega)), one, Nat.one_mul, grown]
    · have := top (size % fs.fsBsize) some (Nat.mod_lt _ fs.bsize_pos).le
      omega

/-- Where no fragment more is needed, the last block keeps what it owns. -/
theorem ownFrags_stays (whole : dirblksiz ∣ size)
    (less : ¬ fs.fragroundup (size % fs.fsBsize) < fs.fragroundup (size % fs.fsBsize + dirblksiz)) :
    fs.ownFrags size (size / fs.fsBsize) = fs.ownFrags (size + dirblksiz) (size / fs.fsBsize) := by
  by_cases few : size / fs.fsBsize < ndaddr
  · have grown := ownFrags_grown whole few
    have last := ownFrags_end few
    have mono : fs.fragroundup (size % fs.fsBsize) ≤ fs.fragroundup (size % fs.fsBsize + dirblksiz) := by
      rw [fs.fragroundup_eq, fs.fragroundup_eq]
      exact Nat.mul_le_mul_right _ (Nat.div_le_div_right (by omega))
    refine Nat.eq_of_mul_eq_mul_right fs.fsize_pos ?_
    omega
  · rw [ownFrags_full (.inl (by omega)), ownFrags_full (.inl (by omega))]

end Widths

/-! ## One append -/

section Append

variable {env : Env} {fs : Superblock} {s s' t : State} {dir ino flags : Nat} {v : Vnode} {img : Buf}
  {name : List Byte} {own own' own'' : Nat → Nat} {v' : Vnode} {exact : Prop}

theorem Moved.congr (moved : Moved fs dir exact s v own s' v' own')
    (same : ∀ b, fileAddr fs s' v' (.data b) ≠ 0 → own' b = own'' b) : Moved fs dir exact s v own s' v' own'' := by
  have holds : ∀ x, Owns fs s' v' own' x ↔ Owns fs s' v' own'' x := fun x => owns_congr same
  refine ⟨moved.dinodes, moved.vnodes, moved.files, moved.ronly, fun x hx => ?_, moved.bytes,
    fun ok x free used => (holds x).mp (moved.gained ok x free used),
    fun ok x mine notNow => moved.lost ok x mine fun now => notNow ((holds x).mp now)⟩
  obtain ⟨used, notMine⟩ := moved.others x hx
  exact ⟨used, fun mine => notMine ((holds x).mpr mine)⟩

/-- Loading the last block of the directory, when that succeeds. -/
theorem appendLoad_owned (io : env.IoOk) (file : OwnedDir fs s dir v img) {blkno : Nat} {buf : Buf}
    (run : appendLoad env fs dir (v.inode.iSize / fs.fsBsize) (v.inode.iSize % fs.fsBsize) s = .done (0, blkno, buf) t) :
    ∃ n, t = s.atTick n ∧
      (0 < v.inode.iSize % fs.fsBsize → blkno = fileAddr fs s v (.data (v.inode.iSize / fs.fsBsize))) ∧
      ∀ j < v.inode.iSize % fs.fsBsize, buf j = img (v.inode.iSize / fs.fsBsize * fs.fsBsize + j) := by
  have low := Nat.mod_lt v.inode.iSize fs.bsize_pos
  have parts := Nat.div_add_mod' v.inode.iSize fs.fsBsize
  unfold appendLoad at run
  by_cases some : 0 < v.inode.iSize % fs.fsBsize
  · have range : v.inode.iSize / fs.fsBsize < fs.maxBlocks := by
      have inside : v.inode.iSize / fs.fsBsize * fs.fsBsize < fs.maxBlocks * fs.fsBsize := by
        have := file.range
        omega
      exact Nat.lt_of_mul_lt_mul_right inside
    have big : fs.maxBlocks < 2 ^ 31 := maxBlocks_lt
    have small : v.inode.iSize / fs.fsBsize % 2 ^ 32 = v.inode.iSize / fs.fsBsize := Nat.mod_eq_of_lt (by omega)
    obtain ⟨n, mapped⟩ := ufsBmap_ok io file.there range (.inl file.zero)
    rw [if_pos some, small] at run
    by_cases poison : blockAt fs s.data v.inode.iDin2 (v.inode.iSize / fs.fsBsize) = poisonBlock
    · rw [if_pos poison] at mapped
      rw [Prog.bind_of_halt mapped] at run
      cases run
    rw [if_neg poison] at mapped
    have read : blkread env fs (fileAddr fs s v (.data (v.inode.iSize / fs.fsBsize))) env.heap
        (v.inode.iSize % fs.fsBsize) (s.atTick n) = _ := blkread_ok io some env.heap (s.atTick n)
    rw [Prog.bind_of_done mapped] at run
    simp only [ne_eq, not_true_eq_false, if_false] at run
    replace run := (Prog.bind_of_done read _).symm.trans run
    simp only [if_neg (show ¬ ((v.inode.iSize % fs.fsBsize : Nat) : Int) = -1 by omega)] at run
    obtain ⟨same, rfl⟩ := Prog.pure_eq_done.mp run
    obtain ⟨-, rest⟩ := Prod.mk.inj same
    obtain ⟨rfl, rfl⟩ := Prod.mk.inj rest
    refine ⟨_, rfl, fun _ => rfl, fun j hj => ?_⟩
    rw [fill_inside hj, ← file.bytes _ (by omega), byte_eq]
    obtain ⟨block, place⟩ := block_parts fs (v.inode.iSize / fs.fsBsize) (show j < fs.fsBsize by omega)
    rw [block, place, blockByte, if_neg (file.mapped _ (by omega))]
    rfl
  · rw [if_neg some] at run
    obtain ⟨same, rfl⟩ := Prog.pure_eq_done.mp run
    exact ⟨_, (State.atTick_self _).symm, fun h => absurd h some, fun j hj => absurd hj (by omega)⟩

/-- The last block finds its place, with the fragments that it is to own. -/
theorem appendPlace_exact (io : env.IoOk) (file : OwnedDir fs s dir v img) (grows : GrowsExactly fs v.inode.iSize)
    {blkno w : Nat}
    (last : 0 < v.inode.iSize % fs.fsBsize → blkno = fileAddr fs s v (.data (v.inode.iSize / fs.fsBsize)))
    (run : appendPlace env fs dir (v.inode.iSize / fs.fsBsize) (fs.fragroundup (v.inode.iSize % fs.fsBsize))
      (fs.fragroundup (v.inode.iSize % fs.fsBsize + dirblksiz)) blkno s = .done (0, w) t) :
    w ≠ 0 ∧ ∃ v' own', Placed fs dir True (v.inode.iSize / fs.fsBsize) w s v (fs.ownFrags v.inode.iSize) t v' own' ∧
      own' (v.inode.iSize / fs.fsBsize) = fs.ownFrags (v.inode.iSize + dirblksiz) (v.inode.iSize / fs.fsBsize) := by
  have parts := Nat.div_add_mod' v.inode.iSize fs.fsBsize
  have fpos := fs.fsize_pos
  obtain ⟨fits, -⟩ := append_parts fs file.whole
  have mapped : 0 < v.inode.iSize % fs.fsBsize → fileAddr fs s v (.data (v.inode.iSize / fs.fsBsize)) ≠ 0 :=
    fun some => file.mapped _ (by omega)
  by_cases more : fs.fragroundup (v.inode.iSize % fs.fsBsize) < fs.fragroundup (v.inode.iSize % fs.fsBsize + dirblksiz)
  · obtain ⟨after, before⟩ := grows.widths file.whole more
    have big : fs.maxBlocks < 2 ^ 31 := maxBlocks_lt
    have few : v.inode.iSize / fs.fsBsize ≤ fs.maxBlocks := Nat.div_le_of_le_mul (by rw [Nat.mul_comm]; exact file.range)
    have frags := fs.fragroundup_eq (v.inode.iSize % fs.fsBsize)
    set k := fs.ownFrags (v.inode.iSize + dirblksiz) (v.inode.iSize / fs.fsBsize) with hk
    set o := (v.inode.iSize % fs.fsBsize + (fs.fsFsize - 1)) / fs.fsFsize with ho
    rw [← after, frags] at run more
    have less : o < k := Nat.lt_of_mul_lt_mul_right more
    have le : k ≤ fs.fsFrag := by
      have bound := fragroundup_le fs fits
      rw [← after, fs.bsize_eq_mul] at bound
      exact Nat.le_of_mul_le_mul_right bound fpos
    have held : (o = 0 ∧ fileAddr fs s v (.data (v.inode.iSize / fs.fsBsize)) = 0) ∨
        (0 < o ∧ fileAddr fs s v (.data (v.inode.iSize / fs.fsBsize)) = blkno ∧ blkno ≠ 0 ∧
          fs.ownFrags v.inode.iSize (v.inode.iSize / fs.fsBsize) = o) := by
      by_cases some : 0 < v.inode.iSize % fs.fsBsize
      · refine .inr ⟨Nat.div_pos (by omega) fpos, (last some).symm, ?_, ?_⟩
        · rw [last some]
          exact mapped some
        · refine Nat.eq_of_mul_eq_mul_right fpos ?_
          rw [before some, frags]
      · refine .inl ⟨?_, file.ends _ (by omega)⟩
        rw [ho, show v.inode.iSize % fs.fsBsize = 0 by omega]
        exact Nat.div_eq_of_lt (by omega)
    obtain ⟨there, v', placed⟩ := appendPlace_owned io file.toFileInv (Nat.zero_lt_of_lt less) le (by omega) less held run
    exact ⟨there, v', _, placed, Function.update_self ..⟩
  · rw [appendPlace, if_neg more] at run
    obtain ⟨same, rfl⟩ := Prog.pure_eq_done.mp run
    obtain rfl : w = blkno := (Prod.mk.inj same).2.symm
    have some : 0 < v.inode.iSize % fs.fsBsize := by
      by_contra none
      have grown : v.inode.iSize % fs.fsBsize + dirblksiz ≤ fs.fragroundup (v.inode.iSize % fs.fsBsize + dirblksiz) :=
        le_fragroundup _
      have zero : fs.fragroundup (v.inode.iSize % fs.fsBsize) = 0 := by
        rw [fs.fragroundup_eq, Nat.div_eq_of_lt (by omega), Nat.zero_mul]
      unfold dirblksiz at *
      omega
    obtain rfl := last some
    refine ⟨mapped some, v, fs.ownFrags v.inode.iSize, ⟨file.toFileInv, .refl dir s, .refl, ?_, fun b' => ?_,
      fun _ _ => rfl, fun _ _ _ _ _ _ => rfl⟩, ownFrags_stays file.whole more⟩
    · exact ⟨v.inode.iDin2.diDb, v.inode.iDin2.diIb, rfl⟩
    · split
      · next same => rw [same]
      · rfl

/-- Between the two halves of a call the directory is longer by 512 bytes. -/
theorem appendBody_owned (io : env.IoOk) (file : OwnedDir fs s dir v img) (grows : GrowsExactly fs v.inode.iSize)
    (run : appendBody env fs dir ino flags name s = .done 0 t) :
    ∃ v', OwnedDir fs t dir v' (ufsInitDirBlock img v.inode.iSize ino flags name) ∧ CoreFrame dir s t ∧
      v'.inode.iSize = v.inode.iSize + dirblksiz ∧ v'.count = v.count ∧ v'.inode.iNlink = v.inode.iNlink ∧
      Moved fs dir True s v (fs.ownFrags v.inode.iSize) t v' (fs.ownFrags (v.inode.iSize + dirblksiz)) := by
  obtain ⟨fits, lastByte⟩ := append_parts fs file.whole
  have parts := Nat.div_add_mod' v.inode.iSize fs.fsBsize
  set b := v.inode.iSize / fs.fsBsize with hb
  unfold appendBody at run
  rw [Prog.bind_of_done (vnode2inode_ok file.there)] at run
  simp only [lastByte] at run
  obtain ⟨⟨rc, blkno, buf⟩, t₁, load, run⟩ := Prog.bind_eq_done.mp run
  simp only at run
  split at run
  · next failed => exact absurd (Prog.pure_eq_done.mp run).1 (Ne.symm (Ne.symm failed))
  next fine =>
  obtain rfl : rc = 0 := not_not.mp fine
  obtain ⟨n, rfl, last, loaded⟩ := appendLoad_owned io file load
  obtain ⟨⟨rc, w⟩, t₂, place, run⟩ := Prog.bind_eq_done.mp run
  simp only at run
  split at run
  · next failed => exact absurd (Prog.pure_eq_done.mp run).1 (Ne.symm (Ne.symm failed))
  next fine =>
  obtain rfl : rc = 0 := not_not.mp fine
  have fileN : OwnedDir fs (s.atTick n) dir v img :=
    ⟨file.toFileInv.atTick n, file.range, file.whole, file.mapped, file.ends, file.bytes⟩
  obtain ⟨there, v', own', placed, width⟩ := appendPlace_exact io fileN grows last place
  have width : own' b = fs.ownFrags (v.inode.iSize + dirblksiz) b := width
  have addr : fileAddr fs t₂ v' (.data b) = w := by rw [placed.addr, if_pos rfl]
  have addrN : fileAddr fs (s.atTick n) v = fileAddr fs s v := rfl
  have mapped : fileAddr fs t₂ v' (.data b) ≠ 0 := by rw [addr]; exact there
  -- the block with its bytes
  have enough : v.inode.iSize % fs.fsBsize + dirblksiz ≤ own' b * fs.fsFsize := by
    have covers : (v.inode.iSize + dirblksiz - 1) % fs.fsBsize
        < fs.ownFrags (v.inode.iSize + dirblksiz) ((v.inode.iSize + dirblksiz - 1) / fs.fsBsize) * fs.fsFsize :=
      lt_ownFrags (by unfold dirblksiz; omega)
    have block : (v.inode.iSize + dirblksiz - 1) / fs.fsBsize = b :=
      Nat.div_eq_of_lt_le (by unfold dirblksiz; omega) (by rw [Nat.succ_mul]; unfold dirblksiz at *; omega)
    rw [block, ← width] at covers
    omega
  set buf' := ufsInitDirBlock buf (v.inode.iSize % fs.fsBsize) ino flags name with hbuf
  set m := v.inode.iSize % fs.fsBsize + dirblksiz with hm
  have offset : w * fs.fsFsize < 2 ^ 63 := by
    rw [← addr]
    exact (placed.inv.owned.fits _ mapped).offset_fits
  have wrote : blkwrite env fs w buf' (m : Nat) t₂ = .done (m : Int) (t₂.put fs w buf' m) := blkwrite_ok io offset buf' t₂
  rw [Prog.bind_of_done wrote] at run
  rw [if_neg (by omega)] at run
  have size : (v.inode.iSize + dirblksiz) % 2 ^ 64 = v.inode.iSize + dirblksiz := by
    have bound : fs.maxBlocks * fs.fsBsize < 2 ^ 63 := maxBytes_lt
    have := file.range
    exact Nat.mod_eq_of_lt (by unfold dirblksiz; omega)
  rw [size] at run
  set u := t₂.put fs w buf' m with hu
  have thereU : u.vnodes dir = some v' := placed.inv.there
  rw [Prog.bind_of_done (updateInode_ok thereU _)] at run
  obtain ⟨-, rfl⟩ := Prog.pure_eq_done.mp run
  set v'' : Vnode := { v' with inode := { v'.inode with iSize := v.inode.iSize + dirblksiz } } with hv
  obtain ⟨inner, outer⟩ := put_bytes (n := m) placed.inv mapped enough buf'
  have padded : u = t₂.put fs (fileAddr fs t₂ v' (.data b)) (fun j => if j < m then buf' j else
      t₂.data (fileAddr fs t₂ v' (.data b) * fs.fsFsize + j)) (own' b * fs.fsFsize) := by
    rw [hu, addr, put_padded t₂ w buf' enough]
  obtain ⟨invU, addrU, movedU, -⟩ := put_data True placed.inv (fun j => if j < m then buf' j else
      t₂.data (fileAddr fs t₂ v' (.data b) * fs.fsFsize + j)) mapped (le_refl (own' b))
  rw [← padded] at invU addrU movedU
  rw [addr, ← hu] at inner outer
  have newAddr : ∀ b', fileAddr fs (u.setVnode dir v'') v'' (.data b')
      = if b' = b then w else fileAddr fs s v (.data b') := fun b' => by
    change fileAddr fs u v' (.data b') = _
    rw [addrU, placed.addr]
    rfl
  have widths : ∀ b', fileAddr fs (u.setVnode dir v'') v'' (.data b') ≠ 0 →
      own' b' = fs.ownFrags (v.inode.iSize + dirblksiz) b' := by
    intro b' there'
    rw [newAddr] at there'
    by_cases here : b' = b
    · rw [here]
      exact width
    · rw [if_neg here] at there'
      have low : b' * fs.fsBsize < v.inode.iSize := by
        by_contra past
        exact there' (file.ends b' (by omega))
      have before : b' + 1 ≤ b := by
        have : b' ≤ b := (Nat.le_div_iff_mul_le fs.bsize_pos).mpr low.le
        omega
      have whole : (b' + 1) * fs.fsBsize ≤ v.inode.iSize := (Nat.mul_le_mul_right _ before).trans (by omega)
      rw [placed.widths b' here, ownFrags_full (.inr whole), ownFrags_full (.inr (by omega))]
  have inv : FileInv fs (u.setVnode dir v'') dir v'' own' :=
    ⟨⟨⟨invU.alloc.group, invU.alloc.cs, invU.alloc.total⟩, invU.boot, invU.zero, invU.device⟩, Function.update_self ..,
      invU.number, invU.valid, invU.owned⟩
  have resized : Moved fs dir True u v' own' (u.setVnode dir v'') v'' own' :=
    .of_same (setVnode_core _) rfl rfl fun _ _ _ _ => rfl
  have ticked : Moved fs dir True s v (fs.ownFrags v.inode.iSize) (s.atTick n) v (fs.ownFrags v.inode.iSize) :=
    .of_same (atTick_core dir s n) rfl rfl fun _ _ _ _ => rfl
  obtain ⟨db, ib, hv'⟩ := placed.inode
  refine ⟨v'', ⟨inv.congr widths, ?_, ?_, fun b' inside => ?_, fun b' past => ?_, fun p inside => ?_⟩,
    (atTick_core dir s n).trans (placed.core.trans ((put_core dir w buf' m).trans (setVnode_core _))), rfl, ?_, ?_,
    (((ticked.trans placed.moved).trans movedU).trans resized).congr widths⟩
  · -- within the reach of the map
    have reach : b < fs.maxBlocks := by
      by_contra far
      refine mapped ?_
      change blockAt fs t₂.data v'.inode.iDin2 b = 0
      exact blockAt_beyond _ _ (by omega)
    have top : (b + 1) * fs.fsBsize ≤ fs.maxBlocks * fs.fsBsize := Nat.mul_le_mul_right _ reach
    rw [Nat.succ_mul] at top
    change v.inode.iSize + dirblksiz ≤ _
    omega
  · exact (Nat.dvd_add_iff_left (dvd_refl _)).mp file.whole
  · rw [newAddr]
    split
    · exact there
    · next other =>
      refine file.mapped b' ?_
      have inside : b' * fs.fsBsize < v.inode.iSize + dirblksiz := inside
      have less : b' < b + 1 := by
        refine Nat.lt_of_mul_lt_mul_right (a := fs.fsBsize) ?_
        rw [Nat.succ_mul]
        omega
      have before : (b' + 1) * fs.fsBsize ≤ b * fs.fsBsize := Nat.mul_le_mul_right _ (by omega)
      have := fs.bsize_pos
      rw [Nat.succ_mul] at before
      omega
  · have past : v.inode.iSize + dirblksiz ≤ b' * fs.fsBsize := past
    have other : b' ≠ b := by
      rintro rfl
      unfold dirblksiz at past
      omega
    rw [newAddr, if_neg other]
    exact file.ends b' (by omega)
  · have inside : p < v.inode.iSize + dirblksiz := inside
    have partsP := Nat.div_add_mod' p fs.fsBsize
    change u.byte fs v' p = _
    by_cases block : p / fs.fsBsize = b
    · rw [inner p block (by rw [block] at partsP; omega)]
      exact append_bytes loaded inside block
    · have early : p < v.inode.iSize := by
        by_contra past
        refine block (Nat.div_eq_of_lt_le (by omega) ?_)
        rw [Nat.succ_mul]
        omega
      have low : p % fs.fsBsize < fs.ownFrags v.inode.iSize (p / fs.fsBsize) * fs.fsFsize := lt_ownFrags early
      rw [outer p block (by rw [placed.widths _ block]; exact low), ufsInitDirBlock_outside _ _ _ _ _ (.inl early),
        ← file.bytes p early, byte_eq, byte_eq, placed.addr, if_neg block, addrN]
      unfold blockByte
      split
      · rfl
      · next there' => exact agree_byte ((placed.kept _ block).mono fun x mine => ⟨there', mine⟩) low
  · rw [hv, hv']
  · rw [hv, hv']

end Append

/-! ## The whole call, and any number of them -/

section Runs

variable {env : Env} {fs : Superblock} {s s' t t' : State} {dir ino flags : Nat} {v w : Vnode} {img : Buf}
  {name : List Byte} {own : Nat → Nat}

/-- The same file where only inodes and vnodes have changed. -/
theorem FileInv.seen (inv : FileInv fs t dir v own) (there : t'.vnodes dir = some w) (number : w.inode.iNumber = dir)
    (map : slotAddr fs t.data w.inode.iDin2 = slotAddr fs t.data v.inode.iDin2)
    (same : t' = { t with
      tick := t'.tick, log := t'.log, dinodes := t'.dinodes, dInoblock := t'.dInoblock, dInomin := t'.dInomin
      dInomax := t'.dInomax, vnodes := t'.vnodes }) :
    FileInv fs t' dir w own ∧ fileAddr fs t' w = fileAddr fs t v := by
  have addr : fileAddr fs t' w = fileAddr fs t v := by
    rw [fileAddr, fileAddr, ← map, same]
  refine ⟨⟨?_, there, number, inv.valid, ?_⟩, addr⟩
  · rw [same]
    exact ⟨⟨inv.alloc.group, inv.alloc.cs, inv.alloc.total⟩, inv.boot, inv.zero, inv.device⟩
  · rw [addr, same]
    exact inv.owned

/-- Giving the directory back keeps it in order. -/
theorem vnodePut_owned (io : env.InoOk) (cache : InoCache fs t) (file : OwnedDir fs t dir v img) (numbered : dir ≠ 0)
    (linked : 0 < v.inode.iNlink ∨ 1 < v.count) :
    ∃ s', vnodePut env fs dir true t = .done 0 s' ∧ OwnedAt fs s' dir img ∧ s'.dirSize dir = v.inode.iSize ∧
      Moved fs dir True t v (fs.ownFrags v.inode.iSize) s' (s'.inCore dir) (fs.ownFrags v.inode.iSize) := by
  set d := v.dropped fs true with hd
  have here : (t.setVnode dir d).vnodes dir = some d := Function.update_self ..
  have map : slotAddr fs t.data d.inode.iDin2 = slotAddr fs t.data v.inode.iDin2 := slotAddr_copy _ _
  obtain ⟨inv, addr⟩ := file.toFileInv.seen here file.number map rfl
  obtain ⟨s₁, wrote, written⟩ := ufsWriteInode_ok io (cache.core (setVnode_core _)) here
  obtain ⟨inv₁, addr₁, moved₁, data₁⟩ := written.file True inv
  have dropped : Moved fs dir True t v (fs.ownFrags v.inode.iSize) (t.setVnode dir d) d (fs.ownFrags v.inode.iSize) :=
    .of_same (setVnode_core _) addr rfl fun _ _ _ _ => rfl
  have moved := dropped.trans moved₁
  have kept : ∀ {u : State} {w : Vnode}, FileInv fs u dir w (fs.ownFrags v.inode.iSize) → w.inode.iSize = v.inode.iSize →
      fileAddr fs u w = fileAddr fs t v → u.data = t.data → OwnedDir fs u dir w img := by
    intro u w inv size addr data
    refine ⟨by rw [size]; exact inv, by rw [size]; exact file.range, by rw [size]; exact file.whole, ?_, ?_, ?_⟩
    · rw [size, addr]
      exact file.mapped
    · rw [size, addr]
      exact file.ends
    · intro p inside
      rw [size] at inside
      rw [byte_eq, addr, data, ← file.bytes p inside, byte_eq]
  unfold vnodePut
  rw [Prog.get_bind_apply, file.there]
  simp only [Prog.modify_bind_apply]
  by_cases last : v.count - 1 = 0
  · have alive : ¬ d.inode.iNlink < 1 := by
      change ¬ v.inode.iNlink < 1
      omega
    set s₂ : State := { s₁ with vnodes := Function.update s₁.vnodes dir none } with hs₂
    have found : s₂.inCore dir = ⟨copyOndiskToIncore (copyIncoreToOndisk fs d.inode).iDin2 dir, 0⟩ := by
      unfold State.inCore
      simp only [hs₂, Function.update_self, Option.getD_none, written.dinodes]
    rw [if_pos last, lastPut, if_neg alive, if_pos rfl]
    refine ⟨s₂, Prog.bind_of_done wrote _, ⟨?_, ⟨written.cache.aligned, written.cache.same⟩, numbered, ?_⟩, ?_, ?_⟩
    · obtain ⟨inv₂, addr₂⟩ := inv₁.seen
        (show (s₂.setVnode dir (s₂.inCore dir)).vnodes dir = some (s₂.inCore dir) from Function.update_self ..)
        (by rw [found]; rfl) (by rw [found]; rfl) rfl
      refine kept inv₂ (by rw [found]; rfl) ?_ ?_
      · rw [addr₂, addr₁, addr]
      · exact data₁
    · rw [found]
      exact .inl (by change 0 < v.inode.iNlink; omega)
    · rw [State.dirSize, found]
      rfl
    · have addr₂ : fileAddr fs s₂ (s₂.inCore dir) = fileAddr fs s₁ (d.synced fs) := by
        rw [found]
        rfl
      refine moved.trans ⟨fun _ _ => rfl, fun i ne => Function.update_of_ne ne _ _, rfl, rfl, fun x hx => ⟨hx.1, ?_⟩,
        fun _ _ _ _ => rfl, fun _ x free used => absurd (free.symm.trans used) (by simp), fun _ x mine notNow => ?_⟩
      · rw [← Owns, Owns, addr₂]
        exact hx.2
      · refine absurd ?_ notNow
        rw [Owns, addr₂]
        exact mine
  · have found : s₁.inCore dir = d.synced fs := by
      rw [State.inCore, inv₁.there]
      rfl
    have back : s₁.setVnode dir (s₁.inCore dir) = s₁ := by
      rw [found, State.setVnode, ← inv₁.there, Function.update_eq_self]
    rw [if_neg last]
    refine ⟨s₁, wrote, ⟨?_, written.cache, numbered, ?_⟩, ?_, ?_⟩
    · rw [back, found]
      refine kept inv₁ rfl ?_ data₁
      rw [addr₁, addr]
    · rw [found]
      exact .inr (by change 0 < v.count - 1; omega)
    · rw [State.dirSize, found]
      rfl
    · rw [found]
      exact moved

/-- What an append that succeeds leaves. -/
theorem ufsDirAppend_owned (io : env.IoOk) (at' : OwnedAt fs s dir img) (grows : GrowsExactly fs (s.dirSize dir))
    (run : ufsDirAppend env fs dir ino flags name s = .done 0 s') :
    OwnedAt fs s' dir (ufsInitDirBlock img (s.dirSize dir) ino flags name) ∧
      s'.dirSize dir = s.dirSize dir + dirblksiz ∧
      Moved fs dir True s (s.inCore dir) (fs.ownFrags (s.dirSize dir)) s' (s'.inCore dir)
        (fs.ownFrags (s'.dirSize dir)) := by
  obtain ⟨t, l, b, lo, hi, got, cache⟩ := vnodeGet_ok io.toInoOk at'.cache at'.numbered
  set v : Vnode := ⟨(s.inCore dir).inode, (s.inCore dir).count + 1⟩ with hv
  set s₁ : State := { s with
    tick := t, log := l, dInoblock := b, dInomin := lo, dInomax := hi
    vnodes := Function.update s.vnodes dir (some v) } with hs₁
  have file := at'.file
  obtain ⟨inv, addr⟩ := file.toFileInv.seen (show s₁.vnodes dir = some v from Function.update_self ..) file.number rfl (by
    rw [hs₁, State.setVnode])
  have file₁ : OwnedDir fs s₁ dir v img := ⟨inv, file.range, file.whole, file.mapped, file.ends, file.bytes⟩
  have start : Moved fs dir True s (s.inCore dir) (fs.ownFrags (s.dirSize dir)) s₁ v (fs.ownFrags (s.dirSize dir)) := by
    refine ⟨fun _ _ => rfl, fun i ne => Function.update_of_ne ne _ _, rfl, rfl, fun _ hx => hx, fun _ _ _ _ => rfl,
      fun _ x free used => absurd (free.symm.trans used) (by simp), fun _ x mine notNow => absurd mine notNow⟩
  unfold ufsDirAppend at run
  rw [Prog.bind_of_done got] at run
  obtain ⟨rc, t₁, body, run⟩ := Prog.bind_eq_done.mp run
  obtain ⟨put, t₂, last, run⟩ := Prog.bind_eq_done.mp run
  obtain ⟨rfl, rfl⟩ := Prog.pure_eq_done.mp run
  obtain ⟨v', grown, core, size, count, nlink, moved⟩ := appendBody_owned io file₁ grows body
  have linked : 0 < v'.inode.iNlink ∨ 1 < v'.count := by
    have := at'.linked
    rw [nlink, count]
    change 0 < (s.inCore dir).inode.iNlink ∨ 1 < (s.inCore dir).count + 1
    omega
  have cached : InoCache fs s₁ := ⟨cache.aligned, cache.same⟩
  obtain ⟨t₃, ran, after, sizes, moved'⟩ := vnodePut_owned io.toInoOk (cached.core core) grown at'.numbered linked
  cases last.symm.trans ran
  have sizes' : t₂.dirSize dir = s.dirSize dir + dirblksiz := sizes.trans size
  refine ⟨after, sizes', ?_⟩
  rw [sizes']
  rw [size] at moved'
  exact (start.trans moved).trans moved'

/-- Any number of appends that succeed, each on a directory whose size meets the condition. -/
inductive AppendRun (env : Env) (fs : Superblock) (dir : Nat) (may : Nat → Prop) (s : State) : State → Prop
  | start : AppendRun env fs dir may s s
  | append {t s' : State} {ino flags : Nat} {name : List Byte} (run : AppendRun env fs dir may s t)
      (size : may (t.dirSize dir)) (appended : ufsDirAppend env fs dir ino flags name t = .done 0 s') :
      AppendRun env fs dir may s s'

/-- The directory owns what its size says and has its old records, what it owned before and does not
    own now is free, and no other fragment in use has been touched. -/
structure GrownExactly (fs : Superblock) (dir : Nat) (s s' : State) (img : Buf) : Prop where
  owned : ∃ img', OwnedAt fs s' dir img' ∧ ∀ p < s.dirSize dir, img' p = img p
  larger : s.dirSize dir ≤ s'.dirSize dir
  moved : Moved fs dir True s (s.inCore dir) (fs.ownFrags (s.dirSize dir)) s' (s'.inCore dir) (fs.ownFrags (s'.dirSize dir))

end Runs

/-! ## Two small directories -/

theorem dirState_owned (img : Buf) : OwnedAt smallFs (dirState img) 3 img := by
  have at' := dirState_at img
  have addr : ∀ sl, fileAddr smallFs ((dirState img).setVnode 3 ((dirState img).inCore 3)) ((dirState img).inCore 3) sl
      = if sl = .data 0 then 32 else 0 := dirState_addr img
  refine ⟨⟨at'.file.toFileInv, at'.file.range, (by decide : dirblksiz ∣ 4096), fun b inside => ?_, fun b past => ?_,
    at'.file.bytes⟩, at'.cache, at'.numbered, at'.linked⟩
  · have inside : b * 4096 < 4096 := inside
    obtain rfl : b = 0 := by omega
    rw [addr]
    decide
  · have past : 4096 ≤ b * 4096 := past
    rw [addr, if_neg]
    rintro first
    cases first
    omega

/-- A device of 32 blocks in one group. -/
def twiceFs : Superblock :=
  { smallFs with
    fsFpg := 256
    fsSize := 256
    fpg_pos := by decide
    frag_dvd_fpg := by decide
    device_fits := by decide }

/-- The first 16 blocks are in use. -/
def twiceCg : Cg :=
  { smallCg with
    cgCs := ⟨1, 16, 12, 0⟩
    cgInosused := fun i => if i = 0 then 0x0f#8 else 0
    cgBlksfree := fun i => if 16 ≤ i ∧ i < 32 then 0xff#8 else 0 }

/-- A directory of twelve blocks, one after another. -/
def twiceDinode : Dinode :=
  { oneDinode 49152 with
    diMode := ifdir
    diNlink := 2
    diBlocks := 96
    diDb := fun b => if b < 12 then 32 + 8 * b else 0 }

def twiceVnode : Vnode := ⟨copyOndiskToIncore twiceDinode 3, 1⟩

def twiceState : State :=
  { smallState with
    cgs := Function.update (fun _ => { smallCg with cgBlksfree := fun _ => 0 }) 0 twiceCg
    dinodes := Function.update (fun _ => blankDinode) 3 twiceDinode
    data := fun a => if 32 * 512 ≤ a ∧ a < 32 * 512 + 49152 then emptyDir (a - 32 * 512) else 0
    csumArea := fun _ => twiceCg.cgCs
    sbCstotal := twiceCg.cgCs
    fsCstotal := twiceCg.cgCs
    fsCsp := fun _ => twiceCg.cgCs
    vnodes := Function.update (fun _ => none) 3 (some twiceVnode) }

theorem twiceState_alloc : AllocOk twiceFs twiceState := by
  have counts : Counts twiceFs twiceCg := by
    refine ⟨by decide +kernel, by decide +kernel, fun i hi less => ?_⟩
    have : i < 8 := less
    interval_cases i <;> decide +kernel
  have ends : ∀ i, twiceFs.fsFpg ≤ i → twiceCg.cgBlksfree.isset i = false := by
    intro i hi
    have past : 256 ≤ i := hi
    simp only [BitMap.isset, twiceCg]
    rw [if_neg (by omega)]
    simp
  have group : CgOk twiceFs 0 twiceCg := ⟨counts, rfl, rfl, (by decide : 0 < 256), (by decide : 0 < 256), ends⟩
  refine ⟨fun cg inside => ?_, fun cg inside => ?_, ?_⟩
  · have : cg < 1 := inside
    obtain rfl : cg = 0 := by omega
    exact group
  · have : cg < 1 := inside
    obtain rfl : cg = 0 := by omega
    rfl
  · simp [csumTotal, twiceState, twiceFs, smallFs]

theorem twiceState_addr (sl : Slot) : fileAddr twiceFs twiceState twiceVnode sl
    = match sl with
      | .data b => if b < 12 then 32 + 8 * b else 0
      | _ => 0 := by
  cases sl with
  | data b =>
      change blockAt twiceFs _ twiceDinode b = if b < 12 then 32 + 8 * b else 0
      rcases block_cases twiceFs b with h | ⟨i, hi, rfl⟩ | ⟨i, hi, j, hj, rfl⟩ | far
      · exact blockAt_direct _ _ h
      · rw [blockAt_single _ _ hi, if_neg (by unfold ndaddr; omega)]
        rfl
      · rw [blockAt_double _ _ hi hj, if_neg (by unfold ndaddr; omega)]
        rfl
      · rw [blockAt_beyond _ _ far, if_neg]
        have : (12 : Nat) ≤ twiceFs.maxBlocks := by decide
        omega
  | single => rfl
  | double => rfl
  | middle i =>
      change (if i < twiceFs.fsNindir then 0 else 0) = _
      simp

theorem twiceState_owned : OwnedAt twiceFs twiceState 3 emptyDir := by
  have found : twiceState.inCore 3 = twiceVnode := rfl
  have width : ∀ b < 12, twiceFs.ownFrags 49152 b = 8 := by
    intro b hb
    refine ownFrags_full (.inr ?_)
    change (b + 1) * 4096 ≤ 49152
    omega
  have zeros : ∀ j < twiceFs.fsBsize, twiceState.data j = 0 := by
    intro j hj
    have : j < 4096 := hj
    exact if_neg (by omega)
  have used : ∀ x < 128, twiceState.free twiceFs x = false := by decide +kernel
  have free : ∀ x, 256 ≤ x → twiceState.free twiceFs x = false := by
    intro x hx
    have group : x / 256 ≠ 0 := by omega
    have none : twiceState.cgs (x / 256) = { smallCg with cgBlksfree := fun _ => 0 } := by
      simp only [twiceState, Function.update_of_ne group]
    change (twiceState.cgs (x / 256)).cgBlksfree.isset _ = false
    rw [none]
    simp [BitMap.isset]
  have ext : ∀ sl x, x ∈ slotExt twiceFs (fileAddr twiceFs twiceState twiceVnode) (twiceFs.ownFrags 49152) sl →
      ∃ b < 12, sl = .data b ∧ 32 + 8 * b ≤ x ∧ x < 32 + 8 * b + 8 := by
    intro sl x mine
    simp only [slotExt, twiceState_addr] at mine
    cases sl with
    | data b =>
        by_cases few : b < 12
        · simp only [if_pos few, slotWidth, width b few] at mine
          exact ⟨b, few, rfl, mine.2⟩
        · exact absurd (if_neg few) mine.1
    | single => exact absurd rfl mine.1
    | double => exact absurd rfl mine.1
    | middle i => exact absurd rfl mine.1
  have inv : FileInv twiceFs twiceState 3 twiceVnode (twiceFs.ownFrags 49152) := by
    refine ⟨⟨twiceState_alloc, fun x hx => used x ?_, zeros, fun x isFree => ?_⟩, rfl, rfl, (by decide : 3 / 16 < 1),
      fun sl there => ?_, fun sl x mine => ?_, ?_⟩
    · have : x < 8 := hx
      omega
    · by_contra past
      have past : ¬ x < 256 := past
      rw [free x (by omega)] at isFree
      cases isFree
    · rw [twiceState_addr] at there ⊢
      cases sl with
      | data b =>
          by_cases few : b < 12
          · simp only [if_pos few, slotWidth, width b few]
            refine ⟨?_, ?_⟩
            · change (32 + 8 * b) / 256 < 1
              omega
            · change (32 + 8 * b) % 8 + 8 ≤ 8
              omega
          · exact absurd (if_neg few) there
      | single => exact absurd rfl there
      | double => exact absurd rfl there
      | middle i => exact absurd rfl there
    · obtain ⟨b, few, -, low, high⟩ := ext sl x mine
      exact ⟨used x (by omega), by change 8 ≤ x; omega, by change x < 256; omega⟩
    · intro sl sl' ne
      rw [Set.disjoint_left]
      intro x mine mine'
      obtain ⟨b, -, rfl, low, high⟩ := ext sl x mine
      obtain ⟨b', -, rfl, low', high'⟩ := ext sl' x mine'
      obtain rfl : b = b' := by omega
      exact ne rfl
  obtain ⟨inv', addr'⟩ := inv.seen
    (show (twiceState.setVnode 3 twiceVnode).vnodes 3 = some twiceVnode by simp [State.setVnode]) rfl rfl rfl
  refine ⟨?_, ⟨fun h => ?_, fun i h => ?_⟩, by decide, .inl (by decide)⟩
  · rw [found]
    refine ⟨inv', by decide, (by decide : dirblksiz ∣ 49152), fun b inside => ?_, fun b past => ?_, fun p inside => ?_⟩
    · have inside : b * 4096 < 49152 := inside
      rw [addr', twiceState_addr]
      simp only
      rw [if_pos (by omega)]
      omega
    · have past : 49152 ≤ b * 4096 := past
      rw [addr', twiceState_addr]
      exact if_neg (by omega)
    · have inside : p < 49152 := inside
      have few : p / twiceFs.fsBsize < 12 := Nat.div_lt_of_lt_mul inside
      have parts : p / twiceFs.fsBsize * 4096 + p % twiceFs.fsBsize = p := Nat.div_add_mod' p 4096
      rw [byte_eq, addr', twiceState_addr]
      simp only [if_pos few]
      rw [blockByte, if_neg (by omega)]
      have place : (32 + 8 * (p / twiceFs.fsBsize)) * twiceFs.fsFsize + p % twiceFs.fsBsize = 32 * 512 + p := by
        nth_rewrite 3 [← parts]
        change (32 + 8 * (p / twiceFs.fsBsize)) * 512 + p % twiceFs.fsBsize = _
        ring
      change twiceState.data _ = _
      simp only [place, twiceState]
      rw [if_pos ⟨by omega, by omega⟩, Nat.add_sub_cancel_left]
  · exact absurd h (by simp [twiceState, smallState])
  · exact absurd h (by simp [twiceState, smallState])

end FuseUfs
