import FuseUfs.DirLink
import FuseUfs.MapUpdate

/-! # A directory that grows

`ufs_dir_append` adds a block of 512 bytes with one record. Where that takes more fragments than
the last block of the directory has, the block moves: new fragments are taken, the map is changed
and the old ones go.
-/

namespace FuseUfs

open Lib Prog

/-! ## The new record -/

section Record

variable {img buf : Buf} {off off' ino flags : Nat} {name : List Byte}

/-- The new block is the same wherever it is. -/
theorem ufsInitDirBlock_shift (img buf : Buf) (off off' ino flags : Nat) (name : List Byte) {i : Nat}
    (inside : i < dirblksiz) :
    ufsInitDirBlock buf off' ino flags name (off' + i) = ufsInitDirBlock img off ino flags name (off + i) := by
  have shift : ∀ d k : Nat, (off' + d ≤ off' + i ∧ off' + i < off' + d + k) ↔ (d ≤ i ∧ i < d + k) := by omega
  have shift' : ∀ d k : Nat, (off + d ≤ off + i ∧ off + i < off + d + k) ↔ (d ≤ i ∧ i < d + k) := by omega
  have move : ∀ o d : Nat, o + i - (o + d) = i - d := by omega
  unfold ufsInitDirBlock putName setNamlen setType setReclen setIno putLe
  simp only [shift, shift', move]
  have zero := shift 0
  have zero' := shift' 0
  simp only [Nat.add_zero, Nat.zero_add, Nat.zero_le, true_and] at zero zero'
  simp only [zero, zero', Nat.add_sub_cancel_left, if_pos inside]

theorem ufsInitDirBlock_outside (img : Buf) (off ino flags : Nat) (name : List Byte) {x : Nat}
    (out : x < off ∨ off + dirblksiz ≤ x) : ufsInitDirBlock img off ino flags name x = img x := by
  have far : x < off ∨ off + 512 ≤ x := out
  unfold ufsInitDirBlock
  rw [putName, if_neg (by unfold maxnamlen; omega), setNamlen, putLe_outside (by omega), setType,
    putLe_outside (by omega), setReclen, putLe_outside (by omega), setIno, putLe_outside (by omega), putName,
    if_neg (by omega)]

theorem ufsInitDirBlock_entry (img : Buf) (off flags : Nat) (short : name.length ≤ maxnamlen) (number : ino < 2 ^ 32) :
    dReclen (ufsInitDirBlock img off ino flags name) off = dirblksiz ∧
      dIno (ufsInitDirBlock img off ino flags name) off = ino ∧
      dNamlen (ufsInitDirBlock img off ino flags name) off = name.length ∧
      dName (ufsInitDirBlock img off ino flags name) off = name := by
  unfold maxnamlen at short
  set img' := ufsInitDirBlock img off ino flags name with himg
  have namlen : dNamlen img' off = name.length := by
    rw [himg, dNamlen]
    unfold ufsInitDirBlock putName maxnamlen
    rw [if_neg (by omega), setNamlen, putLe, if_pos (by omega), Nat.sub_self, min_eq_right short]
    simp only [leByte, Nat.pow_zero, Nat.div_one, BitVec.toNat_ofNat]
    omega
  refine ⟨?_, ?_, namlen, dName_eq namlen fun i hi => ?_⟩
  · rw [← dReclen_setReclen (setIno (putName img off dirblksiz []) off ino) off (by decide : dirblksiz < 2 ^ 16)]
    refine dReclen_congr fun i hi => ?_
    rw [himg]
    unfold ufsInitDirBlock
    rw [putName, if_neg (by omega), setNamlen, putLe_outside (by omega), setType, putLe_outside (by omega)]
  · rw [← dIno_setIno (putName img off dirblksiz []) off number]
    refine dIno_congr fun i hi => ?_
    rw [himg]
    unfold ufsInitDirBlock
    rw [putName, if_neg (by omega), setNamlen, putLe_outside (by omega), setType, putLe_outside (by omega), setReclen,
      putLe_outside (by omega)]
  · rw [himg]
    unfold ufsInitDirBlock
    rw [putName, if_pos (by unfold maxnamlen; omega), Nat.add_sub_cancel_left]

/-- A directory with a record more at its end. -/
theorem DirImage.append {size : Nat} {offs : List Nat} (image : DirImage img size offs) (whole : dirblksiz ∣ size)
    (short : name.length ≤ maxnamlen) (named : ino ≠ 0) (number : ino < 2 ^ 32) (flags : Nat) :
    DirImage (ufsInitDirBlock img size ino flags name) (size + dirblksiz) (offs ++ [size]) ∧
      dirEntries (ufsInitDirBlock img size ino flags name) (offs ++ [size]) = dirEntries img offs ++ [(name, ino)] := by
  obtain ⟨len, inode, namlen, named'⟩ := ufsInitDirBlock_entry img size flags short number
  set img' := ufsInitDirBlock img size ino flags name with himg
  have old : ∀ z ∈ offs, RecordOk img' z ∧ dReclen img' z = dReclen img z ∧ dirEntry img' z = dirEntry img z := by
    intro z mem
    refine (image.records z mem).congr fun x low high => ufsInitDirBlock_outside img size ino flags name (.inl ?_)
    have := (image.tiles.bounds mem).2.2
    omega
  have fresh : RecordOk img' size := by
    refine ⟨by rw [len]; decide, ?_, fun _ => ?_⟩
    · rw [len, Nat.mod_eq_zero_of_dvd whole, Nat.zero_add]
    · rw [len, namlen]
      unfold ufsDirRecLen dirblksiz maxnamlen at *
      omega
  refine ⟨⟨(image.tiles.congr fun z mem => (old z mem).2.1).append (.cons (by rw [len]; decide) ?_), fun z mem => ?_⟩, ?_⟩
  · rw [len]
    exact .nil _
  · rcases List.mem_append.mp mem with mem | mem
    · exact (old z mem).1
    · obtain rfl := List.mem_singleton.mp mem
      exact fresh
  · rw [dirEntries_append, dirEntries_cons, dirEntries_nil, dirEntry, inode, if_neg named, named']
    unfold dirEntries
    rw [List.filterMap_congr fun z mem => (old z mem).2.2]
    rfl

end Record

/-! ## Writing into a block of a file -/

section Write

variable {fs : Superblock} {s : State} {ino b n : Nat} {v : Vnode} {own : Nat → Nat}

/-- A shorter write, as one of all fragments of the block. -/
theorem put_padded (s : State) (a : Nat) (buf : Buf) {k : Nat} (le : n ≤ k) :
    s.put fs a buf n = s.put fs a (fun j => if j < n then buf j else s.data (a * fs.fsFsize + j)) k := by
  have same : store s.data (a * fs.fsFsize) buf n
      = store s.data (a * fs.fsFsize) (fun j => if j < n then buf j else s.data (a * fs.fsFsize + j)) k := by
    funext x
    unfold store
    by_cases inside : a * fs.fsFsize ≤ x ∧ x < a * fs.fsFsize + n
    · have low : x - a * fs.fsFsize < n := by omega
      rw [if_pos inside, if_pos (by omega)]
      simp only [if_pos low]
    · rw [if_neg inside]
      by_cases wide : a * fs.fsFsize ≤ x ∧ x < a * fs.fsFsize + k
      · have high : ¬ x - a * fs.fsFsize < n := by omega
        have back : a * fs.fsFsize + (x - a * fs.fsFsize) = x := by omega
        rw [if_pos wide]
        simp only [if_neg high, back]
      · rw [if_neg wide]
  unfold State.put
  rw [same]

/-- The bytes of a file after a write into one of its blocks. -/
theorem put_bytes (inv : FileInv fs s ino v own) (there : fileAddr fs s v (.data b) ≠ 0)
    (le : n ≤ own b * fs.fsFsize) (buf : Buf) :
    (∀ p, p / fs.fsBsize = b → p % fs.fsBsize < n →
      (s.put fs (fileAddr fs s v (.data b)) buf n).byte fs v p = buf (p % fs.fsBsize)) ∧
    ∀ p, p / fs.fsBsize ≠ b → p % fs.fsBsize < own (p / fs.fsBsize) * fs.fsFsize →
      (s.put fs (fileAddr fs s v (.data b)) buf n).byte fs v p = s.byte fs v p := by
  rw [put_padded s _ buf le]
  set buf' : Buf := fun j => if j < n then buf j else s.data (fileAddr fs s v (.data b) * fs.fsFsize + j) with hbuf
  obtain ⟨-, addr, -, agree⟩ := put_data True inv buf' there (le_refl (own b))
  refine ⟨fun p block low => ?_, fun p other low => ?_⟩
  · rw [byte_eq, addr, block, blockByte, if_neg there]
    change store s.data _ buf' _ _ = _
    rw [store_inside (by omega) (by omega), Nat.add_sub_cancel_left, hbuf]
    exact if_pos low
  · rw [byte_eq, byte_eq, addr]
    unfold blockByte
    split
    · rfl
    · next mapped =>
      refine agree_byte (agree.mono fun x mine inside => ?_) low
      have apart := inv.owned.apart (show Slot.data (p / fs.fsBsize) ≠ .data b by simpa using other)
      exact Set.disjoint_left.mp apart ⟨mapped, mine⟩ ⟨there, inside⟩

end Write

/-! ## A place for the block -/

section Place

variable {env : Env} {fs : Superblock} {s t : State} {dir : Nat} {v : Vnode} {own : Nat → Nat}

/-- Giving blocks back touches neither the bytes nor what is in core. -/
theorem ufsBlockFree_frame {bno size : Nat} (run : ufsBlockFree env fs bno size s = .done () t) :
    CoreFrame dir s t ∧ t.data = s.data ∧ t.vnodes = s.vnodes := by
  set I : State → Prop := fun t => CoreFrame dir s t ∧ t.data = s.data ∧ t.vnodes = s.vnodes with hI
  have kept : KeptByGroups I := by
    refine ⟨fun _ _ _ h => ?_, fun _ _ h => ?_, fun _ _ _ h => ?_, fun _ _ h => ?_⟩ <;>
      exact ⟨⟨h.1.dinodes, h.1.inoblock, h.1.inomin, h.1.inomax, h.1.files, h.1.ronly, h.1.others⟩, h.2⟩
  have after : I t := Keeps.after (ufsBlockFree_kept kept bno size) run ⟨.refl dir s, rfl, rfl⟩
  exact after

/-- A place for the first `n` bytes of block `b`. -/
structure BlockPlaced (fs : Superblock) (dir : Nat) (s : State) (v : Vnode) (own : Nat → Nat) (b n w : Nat) (t : State)
    (v' : Vnode) : Prop where
  there : t.vnodes dir = some v'
  core : CoreFrame dir s t
  inode : ∃ db ib, v' = { v with
    inode := { v.inode with iDin2 := { v.inode.iDin2 with diDb := db, diIb := ib } } }
  fits : w * fs.fsFsize < 2 ^ 63
  here : ∀ buf p, p / fs.fsBsize = b → p % fs.fsBsize < n → (t.put fs w buf n).byte fs v' p = buf (p % fs.fsBsize)
  others : ∀ buf p, p / fs.fsBsize ≠ b → p % fs.fsBsize < own (p / fs.fsBsize) * fs.fsFsize →
    (t.put fs w buf n).byte fs v' p = s.byte fs v p

/-- The block stays where it is. -/
theorem placed_old (inv : FileInv fs s dir v own) {b n : Nat} (there : fileAddr fs s v (.data b) ≠ 0)
    (le : n ≤ own b * fs.fsFsize) : BlockPlaced fs dir s v own b n (fileAddr fs s v (.data b)) s v := by
  refine ⟨inv.there, .refl dir s, ⟨v.inode.iDin2.diDb, v.inode.iDin2.diIb, rfl⟩, (inv.owned.fits _ there).offset_fits,
    fun buf => ?_, fun buf => ?_⟩
  · exact (put_bytes inv there le buf).1
  · exact (put_bytes inv there le buf).2

/-- `appendPlace` when it takes new fragments. -/
theorem placed_new (io : env.IoOk) (inv : FileInv fs s dir v own) {b k n old blkno w : Nat} (pos : 0 < k)
    (small : b < 2 ^ 32) (fits : k ≤ fs.fsFrag) (le : n ≤ k * fs.fsFsize) (more : old < k * fs.fsFsize)
    (run : appendPlace env fs dir b old (k * fs.fsFsize) blkno s = .done (0, w) t) :
    ∃ v', BlockPlaced fs dir s v own b n w t v' := by
  unfold appendPlace at run
  rw [if_pos more, Prog.bind_of_done (vnode2inode_ok inv.there)] at run
  obtain ⟨⟨rc, w'⟩, s₁, alloc, run⟩ := Prog.bind_eq_done.mp run
  simp only at run
  split at run
  · next failed => exact absurd (Prog.pure_eq_done.mp run).1 (by simp [failed])
  next fine =>
  obtain rfl : rc = 0 := not_not.mp fine
  obtain ⟨inv₁, reserved, core₁, data₁, vnodes₁, -, -⟩ := ufsBlockAlloc_file io inv pos fits alloc
  obtain ⟨rc, s₂, set, run⟩ := Prog.bind_eq_done.mp run
  split at run
  · next failed => exact absurd (Prog.pure_eq_done.mp run).1 (by simp [failed])
  next fine =>
  obtain rfl : rc = 0 := not_not.mp fine
  rw [Nat.mod_eq_of_lt small] at set
  obtain ⟨v', stored⟩ := ufsSetBlock_spec io inv₁ (.inr reserved) set
  have last : CoreFrame dir s₂ t ∧ t.data = s₂.data ∧ t.vnodes = s₂.vnodes ∧ w = w' := by
    split at run
    · obtain ⟨⟨⟩, s₃, free, run⟩ := Prog.bind_eq_done.mp run
      obtain ⟨core, data, vnodes⟩ := (ufsBlockFree_frame free : CoreFrame dir _ _ ∧ _)
      obtain ⟨same, rfl⟩ := Prog.pure_eq_done.mp run
      exact ⟨core, data, vnodes, (Prod.mk.inj same).2.symm⟩
    · obtain ⟨same, rfl⟩ := Prog.pure_eq_done.mp run
      exact ⟨.refl dir _, rfl, rfl, (Prod.mk.inj same).2.symm⟩
  obtain ⟨core₃, data₃, vnodes₃, rfl⟩ := last
  have addr : fileAddr fs s₂ v' (.data b) = w := by rw [stored.addr, if_pos rfl]
  have before : fileAddr fs s₁ v = fileAddr fs s v := by rw [fileAddr, fileAddr, data₁]
  have put : ∀ buf p, (t.put fs w buf n).byte fs v' p
      = (s₂.put fs (fileAddr fs s₂ v' (.data b)) buf n).byte fs v' p := by
    intro buf p
    rw [addr]
    unfold State.byte State.put
    rw [data₃]
  have bytes := fun buf => put_bytes (n := n) stored.inv (addr ▸ reserved.addr_ne)
    (by rw [Function.update_self]; exact le) buf
  refine ⟨v', by rw [vnodes₃]; exact stored.inv.there, core₁.trans (stored.step.core.trans core₃), stored.step.inode,
    reserved.inBlock.offset_fits, fun buf p block low => ?_, fun buf p other low => ?_⟩
  · rw [put]
    exact (bytes buf).1 p block low
  · have width : Function.update own b k (p / fs.fsBsize) = own (p / fs.fsBsize) := Function.update_of_ne other ..
    rw [put, (bytes buf).2 p other (by rw [width]; exact low), byte_eq, byte_eq, stored.addr, if_neg other, before]
    unfold blockByte
    split
    · rfl
    · next mapped =>
      rw [← data₁]
      refine agree_byte (stored.step.agree.mono fun x mine => ?_) low
      refine stored.inv.owned.data_indir (b := p / fs.fsBsize) ⟨?_, ?_⟩
      · rw [stored.addr, if_neg other, before]
        exact mapped
      · rw [stored.addr, if_neg other, before, slotWidth, width]
        exact mine

end Place

/-! ## The whole of it -/

section Append

variable {env : Env} {fs : Superblock} {s : State} {dir size ino flags : Nat} {v : Vnode} {img : Buf}
  {offs : List Nat} {name : List Byte}

/-- The place in the last block of the file at which a directory ends. -/
theorem append_parts (fs : Superblock) (whole : dirblksiz ∣ size) :
    size % fs.fsBsize + dirblksiz ≤ fs.fsBsize ∧
      (size + dirblksiz - 1) % fs.fsBsize + 1 = size % fs.fsBsize + dirblksiz := by
  obtain ⟨k, hk⟩ := dirblksiz_dvd fs
  have low := Nat.mod_lt size fs.bsize_pos
  have rest : dirblksiz ∣ size % fs.fsBsize := (Nat.dvd_mod_iff (dirblksiz_dvd fs)).mpr whole
  obtain ⟨j, hj⟩ := rest
  have fits : size % fs.fsBsize + dirblksiz ≤ fs.fsBsize := by
    rw [hj, hk] at low
    have less : j < k := Nat.lt_of_mul_lt_mul_left low
    have up : dirblksiz * (j + 1) ≤ dirblksiz * k := Nat.mul_le_mul_left _ less
    rw [hj, hk]
    omega
  refine ⟨fits, ?_⟩
  have pos : 0 < dirblksiz := by decide
  have parts := Nat.div_add_mod' size fs.fsBsize
  obtain ⟨-, place⟩ := block_parts fs (size / fs.fsBsize) (show size % fs.fsBsize + (dirblksiz - 1) < fs.fsBsize by omega)
  rw [← Nat.add_assoc, parts, ← Nat.add_sub_assoc pos] at place
  rw [place]
  omega

/-- The last block of a directory is on the device. -/
theorem DirFile.last_mapped (file : DirFile fs s dir v img) (image : DirImage img v.inode.iSize offs)
    (some : 0 < v.inode.iSize % fs.fsBsize) : fileAddr fs s v (.data (v.inode.iSize / fs.fsBsize)) ≠ 0 := by
  rcases List.eq_nil_or_concat offs with rfl | ⟨xs, q, rfl⟩
  · have tiles := image.tiles
    generalize hn : v.inode.iSize = n at tiles some
    cases tiles
    simp at some
  · rw [List.concat_eq_append] at image
    obtain ⟨-, pos, rest⟩ := image.tiles.split_at
    have ends : q + dReclen img q = v.inode.iSize := by
      generalize v.inode.iSize = n at rest
      cases rest
      rfl
    have ok := image.records q (by simp)
    have inBlock := ok.inBlock fs
    have mapped := file.mapped ok (by omega)
    have parts := Nat.div_add_mod' q fs.fsBsize
    have short : q % fs.fsBsize + dReclen img q < fs.fsBsize := by
      refine Nat.lt_of_le_of_ne inBlock fun full => ?_
      have whole : v.inode.iSize = (q / fs.fsBsize + 1) * fs.fsBsize := by
        rw [Nat.succ_mul]
        omega
      rw [whole, Nat.mul_mod_left] at some
      omega
    obtain ⟨block, -⟩ := block_parts fs (q / fs.fsBsize) short
    rw [← Nat.add_assoc, parts, ends] at block
    rwa [← block] at mapped

/-- Loading what the last block has of the directory. -/
theorem appendLoad_ok (io : env.IoOk) (file : DirFile fs s dir v img) :
    ∃ t buf, appendLoad env fs dir (v.inode.iSize / fs.fsBsize) (v.inode.iSize % fs.fsBsize) s
        = .done (0, if 0 < v.inode.iSize % fs.fsBsize then fileAddr fs s v (.data (v.inode.iSize / fs.fsBsize)) else 0,
            buf) (s.atTick t) ∧
      ∀ j < v.inode.iSize % fs.fsBsize, buf j = img (v.inode.iSize / fs.fsBsize * fs.fsBsize + j) := by
  unfold appendLoad
  have low := Nat.mod_lt v.inode.iSize fs.bsize_pos
  have parts := Nat.div_add_mod' v.inode.iSize fs.fsBsize
  by_cases some : 0 < v.inode.iSize % fs.fsBsize
  · have small : v.inode.iSize / fs.fsBsize % 2 ^ 32 = v.inode.iSize / fs.fsBsize := by
      refine Nat.mod_eq_of_lt ?_
      have := file.small
      have := Nat.div_le_self v.inode.iSize fs.fsBsize
      omega
    have range : v.inode.iSize / fs.fsBsize < fs.maxBlocks := by
      have inside : v.inode.iSize / fs.fsBsize * fs.fsBsize < fs.maxBlocks * fs.fsBsize := by
        have := file.range
        omega
      exact Nat.lt_of_mul_lt_mul_right inside
    obtain ⟨t, mapped⟩ := ufsBmap_ok io file.there range (.inl file.zero)
    rw [if_neg (show ¬ blockAt fs s.data v.inode.iDin2 (v.inode.iSize / fs.fsBsize) = poisonBlock
      from file.clean _)] at mapped
    rw [if_pos some, if_pos some, small]
    have read : blkread env fs (fileAddr fs s v (.data (v.inode.iSize / fs.fsBsize))) env.heap
        (v.inode.iSize % fs.fsBsize) (s.atTick t) = _ := blkread_ok io some env.heap (s.atTick t)
    refine ⟨t + 1, fill env.heap (fun j => s.data (fileAddr fs s v (.data (v.inode.iSize / fs.fsBsize)) * fs.fsFsize + j))
      (v.inode.iSize % fs.fsBsize), ?_, fun j hj => ?_⟩
    · refine (Prog.bind_of_done mapped _).trans ?_
      simp only [ne_eq, not_true_eq_false, if_false]
      refine (Prog.bind_of_done read _).trans ?_
      simp only [if_neg (show ¬ ((v.inode.iSize % fs.fsBsize : Nat) : Int) = -1 by omega)]
      rfl
    · rw [fill_inside hj]
      exact file.block_byte (by omega) (by omega)
  · rw [if_neg some, if_neg some]
    exact ⟨s.tick, env.heap, rfl, fun j hj => absurd hj (by omega)⟩

/-- The fragments that `ufs_dir_append` asks for are there: the last block finds its place. -/
def AppendPlaces (env : Env) (fs : Superblock) (dir size : Nat) (s : State) : Prop :=
  ∃ blkno buf t w t', appendLoad env fs dir (size / fs.fsBsize) (size % fs.fsBsize) s = .done (0, blkno, buf) t ∧
    appendPlace env fs dir (size / fs.fsBsize) (fs.fragroundup (size % fs.fsBsize))
      (fs.fragroundup ((size + dirblksiz - 1) % fs.fsBsize + 1)) blkno t = .done (0, w) t'

/-- The fragments of the last block hold what the directory has in it. -/
theorem fragroundup_le_own (fs : Superblock) {size : Nat} (some : 0 < size % fs.fsBsize) :
    fs.fragroundup (size % fs.fsBsize) ≤ fs.ownFrags size (size / fs.fsBsize) * fs.fsFsize := by
  have parts := Nat.div_add_mod' size fs.fsBsize
  have low := Nat.mod_lt size fs.bsize_pos
  rw [(cut_width (show size / fs.fsBsize * fs.fsBsize < size by omega)).2]
  split
  · rw [lastBlockSize, if_pos (by omega)]
  · exact fragroundup_le fs low.le

/-- The loaded block with the new record in it has the new end of the directory. -/
theorem append_bytes {buf : Buf}
    (loaded : ∀ j < size % fs.fsBsize, buf j = img (size / fs.fsBsize * fs.fsBsize + j)) {p : Nat}
    (inside : p < size + dirblksiz) (block : p / fs.fsBsize = size / fs.fsBsize) :
    ufsInitDirBlock buf (size % fs.fsBsize) ino flags name (p % fs.fsBsize)
      = ufsInitDirBlock img size ino flags name p := by
  have parts := Nat.div_add_mod' size fs.fsBsize
  have partsP := Nat.div_add_mod' p fs.fsBsize
  rw [block] at partsP
  by_cases old : p % fs.fsBsize < size % fs.fsBsize
  · rw [ufsInitDirBlock_outside _ _ _ _ _ (.inl old), ufsInitDirBlock_outside _ _ _ _ _ (.inl (by omega)), loaded _ old,
      partsP]
  · have new : p % fs.fsBsize - size % fs.fsBsize < dirblksiz := by omega
    have shift := ufsInitDirBlock_shift img buf size (size % fs.fsBsize) ino flags name new
    rwa [show size % fs.fsBsize + (p % fs.fsBsize - size % fs.fsBsize) = p % fs.fsBsize by omega,
      show size + (p % fs.fsBsize - size % fs.fsBsize) = p by omega] at shift

/-- The last block gets its place. -/
theorem appendPlace_placed (io : env.IoOk) (file : DirFile fs s dir v img) (image : DirImage img v.inode.iSize offs)
    (whole : dirblksiz ∣ v.inode.iSize) (places : AppendPlaces env fs dir v.inode.iSize s) :
    ∃ blkno buf t w t' v', appendLoad env fs dir (v.inode.iSize / fs.fsBsize) (v.inode.iSize % fs.fsBsize) s
        = .done (0, blkno, buf) t ∧
      (∀ j < v.inode.iSize % fs.fsBsize, buf j = img (v.inode.iSize / fs.fsBsize * fs.fsBsize + j)) ∧
      appendPlace env fs dir (v.inode.iSize / fs.fsBsize) (fs.fragroundup (v.inode.iSize % fs.fsBsize))
        (fs.fragroundup (v.inode.iSize % fs.fsBsize + dirblksiz)) blkno t = .done (0, w) t' ∧
      BlockPlaced fs dir s v (fs.ownFrags v.inode.iSize) (v.inode.iSize / fs.fsBsize)
        (v.inode.iSize % fs.fsBsize + dirblksiz) w t' v' := by
  obtain ⟨blkno, buf, t, w, t', load, place⟩ := places
  obtain ⟨fits, bytes⟩ := append_parts fs whole
  rw [bytes] at place
  obtain ⟨n, buf', load', loaded⟩ := appendLoad_ok io file
  cases load'.symm.trans load
  have low := Nat.mod_lt v.inode.iSize fs.bsize_pos
  have fileT : DirFile fs (s.atTick n) dir v img := file.atTick n
  have blkSmall : v.inode.iSize / fs.fsBsize < 2 ^ 32 := by
    have := file.small
    have := Nat.div_le_self v.inode.iSize fs.fsBsize
    omega
  have placed : ∃ v', BlockPlaced fs dir (s.atTick n) v (fs.ownFrags v.inode.iSize) (v.inode.iSize / fs.fsBsize)
      (v.inode.iSize % fs.fsBsize + dirblksiz) w t' v' := by
    by_cases more : fs.fragroundup (v.inode.iSize % fs.fsBsize)
        < fs.fragroundup (v.inode.iSize % fs.fsBsize + dirblksiz)
    · have frags := fs.fragroundup_eq (v.inode.iSize % fs.fsBsize + dirblksiz)
      rw [frags] at place more
      refine placed_new io fileT.toFileInv ?_ blkSmall (fragroundup_frags fs fits) ?_ more place
      · exact Nat.pos_of_mul_pos_right (Nat.lt_of_le_of_lt (Nat.zero_le _) more)
      · rw [← frags]
        exact le_fragroundup _
    · rw [appendPlace, if_neg more] at place
      obtain ⟨same, rfl⟩ := Prog.pure_eq_done.mp place
      have some : 0 < v.inode.iSize % fs.fsBsize := by
        by_contra none
        rw [show v.inode.iSize % fs.fsBsize = 0 by omega] at more
        have grown : 0 + dirblksiz ≤ fs.fragroundup (0 + dirblksiz) := le_fragroundup _
        have zero : fs.fragroundup 0 = 0 := by
          rw [fs.fragroundup_eq, Nat.div_eq_of_lt (by have := fs.fsize_pos; omega), Nat.zero_mul]
        have : dirblksiz = 512 := rfl
        omega
      obtain rfl : w = _ := (Prod.mk.inj same).2.symm
      rw [if_pos some]
      refine ⟨v, placed_old fileT.toFileInv (file.last_mapped image some) ?_⟩
      have own := fragroundup_le_own fs some
      have grown : v.inode.iSize % fs.fsBsize + dirblksiz ≤ fs.fragroundup (v.inode.iSize % fs.fsBsize + dirblksiz) :=
        le_fragroundup _
      omega
  obtain ⟨v', placed⟩ := placed
  exact ⟨_, buf, _, w, t', v', load, loaded, place, placed.there, (atTick_core dir s n).trans placed.core, placed.inode,
    placed.fits, placed.here, placed.others⟩

/-- A directory behind a vnode, with these contents. -/
structure Grown (fs : Superblock) (dir : Nat) (v : Vnode) (img : Buf) (size : Nat) (t : State) (v' : Vnode) : Prop where
  there : t.vnodes dir = some v'
  count : v'.count = v.count
  nlink : v'.inode.iNlink = v.inode.iNlink
  grown : v'.inode.iSize = size
  bytes : ∀ p < size, t.byte fs v' p = img p

theorem appendBody_ok (io : env.IoOk) (file : DirFile fs s dir v img) (image : DirImage img v.inode.iSize offs)
    (whole : dirblksiz ∣ v.inode.iSize) (places : AppendPlaces env fs dir v.inode.iSize s) (ino flags : Nat)
    (name : List Byte) :
    ∃ t v', appendBody env fs dir ino flags name s = .done 0 t ∧ CoreFrame dir s t ∧
      Grown fs dir v (ufsInitDirBlock img v.inode.iSize ino flags name) (v.inode.iSize + dirblksiz) t v' := by
  obtain ⟨blkno, buf, t, w, t', v', load, loaded, place, placed⟩ := appendPlace_placed io file image whole places
  obtain ⟨fits, bytes⟩ := append_parts fs whole
  have small := file.small
  have size : (v.inode.iSize + dirblksiz) % 2 ^ 64 = v.inode.iSize + dirblksiz :=
    Nat.mod_eq_of_lt (by unfold dirblksiz; omega)
  set buf' := ufsInitDirBlock buf (v.inode.iSize % fs.fsBsize) ino flags name with hbuf
  have wrote : blkwrite env fs w buf' (v.inode.iSize % fs.fsBsize + dirblksiz : Nat) t' = _ :=
    blkwrite_ok io placed.fits buf' t'
  set t₂ := t'.put fs w buf' (v.inode.iSize % fs.fsBsize + dirblksiz) with ht
  have there : t₂.vnodes dir = some v' := placed.there
  refine ⟨t₂.setVnode dir { v' with inode := { v'.inode with iSize := v.inode.iSize + dirblksiz } },
    { v' with inode := { v'.inode with iSize := v.inode.iSize + dirblksiz } }, ?_,
    placed.core.trans ((put_core dir w buf' _).trans (setVnode_core _)), ?_⟩
  · unfold appendBody
    rw [Prog.bind_of_done (vnode2inode_ok file.there)]
    simp only [bytes]
    refine (Prog.bind_of_done load _).trans ?_
    simp only [ne_eq, not_true_eq_false, if_false]
    refine (Prog.bind_of_done place _).trans ?_
    simp only [not_true_eq_false, if_false]
    refine (Prog.bind_of_done wrote _).trans ?_
    rw [if_neg (by omega), size]
    exact Prog.bind_of_done (updateInode_ok there _) _
  · obtain ⟨db, ib, rfl⟩ := placed.inode
    refine ⟨Function.update_self .., rfl, rfl, rfl, fun p inside => ?_⟩
    have parts := Nat.div_add_mod' p fs.fsBsize
    have partsS := Nat.div_add_mod' v.inode.iSize fs.fsBsize
    by_cases block : p / fs.fsBsize = v.inode.iSize / fs.fsBsize
    · refine (placed.here buf' p block (by rw [block] at parts; omega)).trans ?_
      exact append_bytes loaded inside block
    · have early : p < v.inode.iSize := by
        by_contra past
        refine block (Nat.div_eq_of_lt_le (by omega) ?_)
        rw [Nat.succ_mul]
        omega
      refine (placed.others buf' p block (lt_ownFrags early)).trans ?_
      rw [file.bytes p early, ufsInitDirBlock_outside _ _ _ _ _ (.inl early)]

/-- `ufs_dir_append` finds a place for the last block. -/
def AppendAllocates (env : Env) (fs : Superblock) (dir : Nat) (s : State) : Prop :=
  ∃ t, vnodeGet env fs dir s = .done () t ∧ AppendPlaces env fs dir (s.dirSize dir) t

theorem ufsDirAppend_ok (io : env.IoOk) (at' : DirAt fs s dir img) (image : DirImage img (s.dirSize dir) offs)
    (whole : dirblksiz ∣ s.dirSize dir) (places : AppendAllocates env fs dir s) (ino flags : Nat) (name : List Byte) :
    ∃ s', ufsDirAppend env fs dir ino flags name s = .done 0 s' ∧ s'.dirSize dir = s.dirSize dir + dirblksiz ∧
      Contains fs s' dir (ufsInitDirBlock img (s.dirSize dir) ino flags name) := by
  obtain ⟨t, l, b, lo, hi, got, cache, file⟩ := at'.get io
  obtain ⟨t₁, got', places⟩ := places
  cases got.symm.trans got'
  obtain ⟨t₂, v', body, core, grown⟩ := appendBody_ok (v := ⟨(s.inCore dir).inode, (s.inCore dir).count + 1⟩) io file
    image whole places ino flags name
  have linked : 0 < v'.inode.iNlink ∨ 1 < v'.count := by
    have := at'.linked
    rw [grown.nlink, grown.count]
    change 0 < (s.inCore dir).inode.iNlink ∨ 1 < (s.inCore dir).count + 1
    omega
  have cached : InoCache fs { s with
      tick := t, log := l, dInoblock := b, dInomin := lo, dInomax := hi
      vnodes := Function.update s.vnodes dir (some ⟨(s.inCore dir).inode, (s.inCore dir).count + 1⟩) } :=
    ⟨cache.aligned, cache.same⟩
  obtain ⟨s', put, data, size, bytes⟩ := vnodePut_writes io.toInoOk (cached.core core) grown.there linked
  have sizes : s'.dirSize dir = s.dirSize dir + dirblksiz := size.trans grown.grown
  refine ⟨s', ?_, sizes, fun p inside => ?_⟩
  · unfold ufsDirAppend
    rw [Prog.bind_of_done got, Prog.bind_of_done body, Prog.bind_of_done put]
    rfl
  · rw [sizes] at inside
    exact (bytes p).trans (grown.bytes p inside)

/-- An append that succeeds has found one. -/
theorem ufsDirAppend_allocates {s' : State} (io : env.IoOk) (at' : DirAt fs s dir img)
    (run : ufsDirAppend env fs dir ino flags name s = .done 0 s') : AppendAllocates env fs dir s := by
  obtain ⟨t, l, b, lo, hi, got, -, file⟩ := at'.get io
  refine ⟨_, got, ?_⟩
  unfold ufsDirAppend at run
  rw [Prog.bind_of_done got] at run
  obtain ⟨rc, t₁, body, run⟩ := Prog.bind_eq_done.mp run
  obtain ⟨-, t₂, -, run⟩ := Prog.bind_eq_done.mp run
  obtain ⟨rfl, -⟩ := Prog.pure_eq_done.mp run
  unfold appendBody at body
  rw [Prog.bind_of_done (vnode2inode_ok file.there)] at body
  obtain ⟨⟨rc, blkno, buf⟩, t₃, load, body⟩ := Prog.bind_eq_done.mp body
  simp only at body
  split at body
  · next failed => exact absurd (Prog.pure_eq_done.mp body).1 (Ne.symm (Ne.symm failed))
  next loaded =>
  obtain rfl : rc = 0 := not_not.mp loaded
  obtain ⟨⟨rc, w⟩, t₄, place, body⟩ := Prog.bind_eq_done.mp body
  simp only at body
  split at body
  · next failed => exact absurd (Prog.pure_eq_done.mp body).1 (Ne.symm (Ne.symm failed))
  next placed =>
  obtain rfl : rc = 0 := not_not.mp placed
  exact ⟨blkno, buf, t₃, w, t₄, load, place⟩

end Append

/-! ## Entering a name -/

section Enter

variable {env : Env} {fs : Superblock} {s : State} {dir ino : Nat} {img : Buf} {offs : List Nat} {name : List Byte}

/-- The name is entered: 0 is returned, and the directory is left well-formed with one binding more. -/
def Enters (env : Env) (fs : Superblock) (s : State) (dir : Nat) (img : Buf) (offs : List Nat) (name : List Byte)
    (ino flags : Nat) : Prop :=
  ∃ s' img' offs', ufsAddnamedir env fs dir name ino flags s = .done 0 s' ∧ Contains fs s' dir img' ∧
    dirblksiz ∣ s'.dirSize dir ∧ DirImage img' (s'.dirSize dir) offs' ∧
    (dirEntries img' offs').Perm ((name, ino) :: dirEntries img offs)

/-- The walk comes to a record with room for the name. -/
def HasSlot (img : Buf) (offs : List Nat) (name : List Byte) : Prop := ∃ z ∈ visited img offs, Fits img name z

/-- A record and the unused ones after it in the same 512 bytes have room for the name. -/
def HasRoom (img : Buf) (offs : List Nat) (name : List Byte) : Prop :=
  ∃ xs p us ys, offs = xs ++ p :: (us ++ ys) ∧ (∀ u ∈ us, dIno img u = 0 ∧ u % dirblksiz ≠ 0) ∧
    (if dIno img p ≠ 0 then ufsDirRecLen (dNamlen img p) else 0) + ufsDirRecLen name.length
      ≤ dReclen img p + (us.map (dReclen img)).sum

/-- After the walk the fragments for a longer directory are there. -/
def CanGrow (env : Env) (fs : Superblock) (s : State) (dir : Nat) (name : List Byte) (ino flags : Nat) : Prop :=
  ∃ r s₁, ufsDirIterate env fs dir (linkProc name ino flags) false s = .done r s₁ ∧ AppendAllocates env fs dir s₁

section

variable (io : env.IoOk) (at' : DirAt fs s dir img) (image : DirImage img (s.dirSize dir) offs)
  (whole : dirblksiz ∣ s.dirSize dir) (short : name.length ≤ maxnamlen) (named : ino ≠ 0) (number : ino < 2 ^ 32)
  (flags : Nat)

include io at' image whole short named number

/-- The walk with the procedure that enters the name. -/
theorem linkProc_walk :
    (HasSlot img offs name → ∃ s₁ img' offs', ufsDirIterate env fs dir (linkProc name ino flags) false s
        = .done (0, true) s₁ ∧ DirAt fs s₁ dir img' ∧ Walked s s₁ ∧
      fileAddr fs s₁ (s.inCore dir) = fileAddr fs s (s.inCore dir) ∧
      DirImage img' (s.dirSize dir) offs' ∧ (dirEntries img' offs').Perm ((name, ino) :: dirEntries img offs)) ∧
    (¬ HasSlot img offs name → ∃ r s₁ img' offs', ufsDirIterate env fs dir (linkProc name ino flags) false s
        = .done (r, false) s₁ ∧ DirAt fs s₁ dir img' ∧ Walked s s₁ ∧
      fileAddr fs s₁ (s.inCore dir) = fileAddr fs s (s.inCore dir) ∧
      DirImage img' (s.dirSize dir) offs' ∧ dirEntries img' offs' = dirEntries img offs ∧
      (r = 0 ↔ ¬ LastAbsorbs img offs)) := by
  obtain ⟨enters, passes⟩ := @link_scan fs _ _ flags _ whole short named number offs.length offs (le_refl _) [] img 0 0
    image image.tiles
  refine ⟨fun slot => ?_, fun none => ?_⟩
  · obtain ⟨img', offs', scan, image', perm⟩ := enters slot
    obtain ⟨s₁, run, after, walked, addr⟩ := ufsDirIterate_walks io at' scan
    exact ⟨s₁, img', offs', run, after, walked, addr, image', perm⟩
  · obtain ⟨img', offs', scan, image', entries⟩ := passes fun z mem fits => none ⟨z, mem, fits⟩
    obtain ⟨s₁, run, after, walked, addr⟩ := ufsDirIterate_walks io at' scan
    refine ⟨_, s₁, img', offs', run, after, walked, addr, image', entries, ?_⟩
    unfold LastAbsorbs
    cases last : (visited img offs).getLast? with
    | none => simp
    | some p =>
        simp only [Option.map_some, Option.getD_some, Option.mem_def, Option.some.injEq, exists_eq_left', absorbRet]
        by_cases absorbs : Absorbs img p
        · simp [absorbs, direntChanged]
        · simp [absorbs]

/-- When `ufs_addnamedir` enters a name. -/
theorem enters_iff (writable : s.fsRonly = false) :
    Enters env fs s dir img offs name ino flags ↔
      HasSlot img offs name ∨ (CanGrow env fs s dir name ino flags ∧ ¬ LastAbsorbs img offs) := by
  obtain ⟨enters, passes⟩ := linkProc_walk io at' image whole short named number flags
  have start : ufsAddnamedir env fs dir name ino flags s = (do
      let r ← ufsDirIterate env fs dir (linkProc name ino flags) false
      if r.1 ≠ 0 then pure r.1
      else if r.2 then pure 0
      else do
        let rc ← ufsDirAppend env fs dir ino flags name
        if rc ≠ 0 then pure (-enospc) else pure 0) s := by
    unfold ufsAddnamedir
    rw [Prog.get_bind_apply, if_neg (by rw [writable]; decide)]
  by_cases slot : HasSlot img offs name
  · obtain ⟨s₁, img', offs', run, after, walked, -, image', perm⟩ := enters slot
    have size := walked.dirSize dir
    refine ⟨fun _ => .inl slot, fun _ => ⟨s₁, img', offs', ?_, after.contains, ?_, ?_, perm⟩⟩
    · rw [start]
      exact Prog.bind_of_done run _
    · rw [size]
      exact whole
    · rw [size]
      exact image'
  · obtain ⟨r, s₁, img', offs', run, after, walked, -, image', entries, value⟩ := passes slot
    have size := walked.dirSize dir
    refine ⟨fun entered => .inr ?_, fun cond => ?_⟩
    · obtain ⟨s', -, -, added, -⟩ := entered
      rw [start, Prog.bind_of_done run] at added
      simp only at added
      split at added
      · next failed => exact absurd (Prog.pure_eq_done.mp added).1 (Ne.symm (Ne.symm failed))
      next went =>
      have went : r = 0 := not_not.mp went
      rw [if_neg (by decide)] at added
      obtain ⟨rc, s₂, appended, added⟩ := Prog.bind_eq_done.mp added
      split at added
      · exact absurd (Prog.pure_eq_done.mp added).1 (by decide)
      next fine =>
      obtain rfl : rc = 0 := not_not.mp fine
      exact ⟨⟨_, s₁, run, ufsDirAppend_allocates io after appended⟩, value.mp went⟩
    · obtain ⟨⟨_, s₂, ran, allocates⟩, last⟩ := cond.resolve_left slot
      cases run.symm.trans ran
      obtain rfl : r = 0 := value.mpr last
      rw [← size] at image' whole
      obtain ⟨s', appended, sizes, contains⟩ := ufsDirAppend_ok io after image' whole allocates ino flags name
      obtain ⟨image₂, entries₂⟩ := image'.append whole short named number flags
      rw [← sizes] at image₂
      refine ⟨s', _, _, ?_, contains, ?_, image₂, ?_⟩
      · rw [start, Prog.bind_of_done run]
        exact Prog.bind_of_done appended _
      · rw [sizes]
        exact (Nat.dvd_add_iff_left (dvd_refl _)).mp whole
      · rw [entries₂, entries]
        exact List.perm_append_singleton _ _

end

end Enter

/-! ## A full directory -/

/-- A record with a name of 250 characters. -/
def longRecord (k len : Nat) : Buf :=
  putName (setNamlen (setReclen (setIno (fun _ => 0) 0 (10 + k)) 0 len) 0 250) 8 250
    (List.replicate 250 (BitVec.ofNat 8 (0x61 + k)))

/-- Eight times 512 bytes with hardly any room; at the end a record of 248 bytes out of use. -/
def fullDir : Buf := fun a =>
  if a < 24 then setReclen (ufsNewDirBlock 3 2) 12 12 a
  else if a < 512 then longRecord 0 488 (a - 24)
  else if a < 3584 then longRecord (a / 512) 512 (a % 512)
  else setReclen (longRecord 7 264) 264 248 (a % 512)

def fullOffs : List Nat := [0, 12, 24, 512, 1024, 1536, 2048, 2560, 3072, 3584, 3848]

/-- The longest name. -/
def longName : List Byte := List.replicate 255 0x7a

theorem fullDir_canGrow : CanGrow calmEnv smallFs (dirState fullDir) 3 longName 5 ifreg := by
  have ran : (ufsDirIterate calmEnv smallFs 3 (linkProc longName 5 ifreg) false (dirState fullDir)).passes
      (fun _ s₁ => (vnodeGet calmEnv smallFs 3 s₁).passes fun _ t =>
        (appendLoad calmEnv smallFs 3 (s₁.dirSize 3 / 4096) (s₁.dirSize 3 % 4096) t).passes fun l t₁ =>
          decide (l.1 = 0) && (appendPlace calmEnv smallFs 3 (s₁.dirSize 3 / 4096)
            (smallFs.fragroundup (s₁.dirSize 3 % 4096))
            (smallFs.fragroundup ((s₁.dirSize 3 + dirblksiz - 1) % 4096 + 1)) l.2.1 t₁).passes
              fun r _ => decide (r.1 = 0)) = true := by decide +kernel
  unfold CanGrow AppendAllocates AppendPlaces
  obtain ⟨r, s₁, walk, ran⟩ := Outcome.done_of_passes ran
  obtain ⟨_, t, got, ran⟩ := Outcome.done_of_passes ran
  obtain ⟨⟨e, blkno, buf⟩, t₁, load, ran⟩ := Outcome.done_of_passes ran
  obtain ⟨ok, ran⟩ := Bool.and_eq_true_iff.mp ran
  obtain rfl : e = 0 := of_decide_eq_true ok
  obtain ⟨⟨e, w⟩, t₂, place, ok⟩ := Outcome.done_of_passes ran
  obtain rfl : e = 0 := of_decide_eq_true ok
  exact ⟨r, s₁, walk, t, got, blkno, buf, t₁, w, t₂, load, place⟩

end FuseUfs
