import FuseUfs.FileView

/-! # What a read returns

The loop of `ufs_file_read` loads one block after the other. A block that is entered at its
start is loaded as far as the file goes. The block in which the read starts is loaded from
its own start too, but only as many bytes as the file has from the read's offset on, so its
end may come from whatever the buffer held before.
-/

namespace FuseUfs

open Lib

variable {env : Env} {fs : Superblock}

/-- A file that can be read: its vnode is in core and up to date, and every block of addresses
    that its size needs exists. -/
structure Readable (fs : Superblock) (s : State) (ino : Nat) (v : Vnode) : Prop where
  there : s.vnodes ino = some v
  size : v.inode.iDin2.diSize = v.inode.iSize
  range : v.inode.iSize ≤ fs.maxBlocks * fs.fsBsize
  walk : ∀ fbn, fbn * fs.fsBsize < v.inode.iSize → WalkOk fs s.data v.inode.iDin2 fbn

/-- How many bytes of a block `load_buffer` brings in when the position is `pos`. -/
def loadLen (fs : Superblock) (size pos : Nat) : Nat :=
  if fs.fsBsize * ndaddr ≤ size then fs.fsBsize else min fs.fsBsize (fs.fragroundup (size - pos))

theorem le_fragroundup (n : Nat) : n ≤ fs.fragroundup n := by
  have pos := fs.fsize_pos
  rw [fs.fragroundup_eq]
  have := Nat.div_add_mod (n + (fs.fsFsize - 1)) fs.fsFsize
  have := Nat.mod_lt (n + (fs.fsFsize - 1)) pos
  rw [Nat.mul_comm]
  omega

theorem loadLen_le (size pos : Nat) : loadLen fs size pos ≤ fs.fsBsize := by
  unfold loadLen
  split
  · exact le_rfl
  · exact min_le_left _ _

theorem le_loadLen (size pos : Nat) : min fs.fsBsize (size - pos) ≤ loadLen fs size pos := by
  unfold loadLen
  split
  · exact min_le_left _ _
  · exact min_le_min le_rfl (le_fragroundup _)

/-- The read length, for a position inside the file. -/
theorem ioSize_read {inode : Inode} {pos : Nat} (size : inode.iDin2.diSize = inode.iSize)
    (inside : pos < inode.iSize) :
    ufsInodeIoSize fs inode (asInt32 pos) false = loadLen fs inode.iSize pos := by
  unfold ufsInodeIoSize loadLen
  rw [size]
  by_cases full : fs.fsBsize * ndaddr ≤ inode.iSize
  · rw [if_pos full, if_pos full]
  · have small : inode.iSize < 2 ^ 20 := by
      have := fs.bsize_le
      unfold ndaddr at full
      omega
    have fsize := fs.fsize_le_bsize
    have bsize := fs.bsize_le
    have rest : asU64 ((inode.iSize : Int) - asInt32 pos) = inode.iSize - pos := by
      rw [asInt32_of_lt (by omega), ← Int.natCast_sub inside.le]
      exact asU64_of_lt (by omega)
    rw [if_neg full, if_neg full, if_neg (by simp), rest, fs.fragroundup_eq]
    simp only [Superblock.fsQfmask]
    rw [Nat.mod_eq_of_lt (by omega)]

/-- Moving a clean handle to another block forgets the buffer and nothing else. -/
theorem syncBufferPosition_clean {s : State} {file : UfsFile} {v : Vnode}
    (there : s.vnodes file.ino = some v) (clean : file.bufDirty = false)
    (small : file.pos / fs.fsBsize < 2 ^ 32)
    (stale : file.bufValid = false ∨ file.blockno ≠ file.pos / fs.fsBsize) :
    syncBufferPosition env fs file s
      = .done (0, { file with bufValid := false, blockno := file.pos / fs.fsBsize }) s := by
  unfold syncBufferPosition
  rw [fs.lblkno_eq, Nat.mod_eq_of_lt small]
  by_cases move : file.pos / fs.fsBsize ≠ file.blockno
  · have flush : ufsFileFlush env fs file s = .done (0, file) s := by
      unfold ufsFileFlush
      rw [Prog.bind_of_done (vnode2inode_ok there), if_pos (.inr clean)]
      rfl
    simp only
    rw [if_pos move, Prog.bind_of_done flush]
    simp only
    rw [if_neg (by simp)]
    rfl
  · have same : file.blockno = file.pos / fs.fsBsize := by omega
    have invalid : file.bufValid = false := stale.resolve_right (by simpa using same)
    simp only
    rw [if_neg move, Prog.pure_apply, ← same, ← invalid]

theorem fillBuffer_ok (io : env.IoOk) (file : UfsFile) {len : Nat} (pos : 0 < len) (s : State) :
    ∃ t, fillBuffer env fs file len s = .done
      (0, { file with buf := fill file.buf (blockByte fs s.data file.physblock) len })
      (s.atTick t) := by
  unfold fillBuffer
  by_cases hole : file.physblock = 0
  · refine ⟨s.tick, ?_⟩
    have zeros : blockByte fs s.data file.physblock = fun _ => 0 := by
      funext j
      exact if_pos hole
    rw [if_neg (by simpa using hole), zeros, Int.toNat_natCast]
    rfl
  · refine ⟨s.tick + 1, ?_⟩
    have bytes : blockByte fs s.data file.physblock
        = fun j => s.data (file.physblock * fs.fsFsize + j) := by
      funext j
      exact if_neg hole
    rw [if_pos hole, bytes, Int.toNat_natCast, Prog.bind_of_done (blkread_ok io pos _ s)]
    simp only
    rw [if_neg (by omega)]
    rfl

section Loop

variable {s : State} {ino : Nat} {v : Vnode}

/-- Loading a block: the bytes up to `loadLen` come from the file, the others stay. -/
theorem loadBuffer_ok (io : env.IoOk) (ok : Readable fs s ino v) (file : UfsFile)
    (same : file.ino = ino) (invalid : file.bufValid = false)
    (block : file.blockno = file.pos / fs.fsBsize) (inside : file.pos < v.inode.iSize) :
    ∃ t, loadBuffer env fs file false s
      = if blockAt fs s.data v.inode.iDin2 file.blockno = poisonBlock then .halt (s.atTick t)
        else .done (0, { file with
          physblock := blockAt fs s.data v.inode.iDin2 file.blockno
          bufValid := true
          buf := fill file.buf (blockByte fs s.data (blockAt fs s.data v.inode.iDin2 file.blockno))
            (loadLen fs v.inode.iSize file.pos) }) (s.atTick t) := by
  subst same
  have bpos := fs.bsize_pos
  have low : file.blockno * fs.fsBsize < v.inode.iSize := by
    rw [block]
    exact (Nat.div_mul_le_self _ _).trans_lt inside
  have range : file.blockno < fs.maxBlocks :=
    Nat.lt_of_mul_lt_mul_right (low.trans_le ok.range)
  obtain ⟨t, bmap⟩ := ufsBmap_ok io ok.there range (ok.walk _ low)
  by_cases poison : blockAt fs s.data v.inode.iDin2 file.blockno = poisonBlock
  · rw [if_pos poison] at bmap
    refine ⟨t, ?_⟩
    unfold loadBuffer
    rw [if_neg (by simp [invalid]), if_pos poison, Prog.bind_apply, bmap]
  · rw [if_neg poison] at bmap
    have len : 0 < loadLen fs v.inode.iSize file.pos :=
      lt_of_lt_of_le (by omega) (@le_loadLen fs v.inode.iSize file.pos)
    unfold loadBuffer
    simp only [invalid, Bool.false_eq_true, if_false, if_neg poison]
    rw [Prog.bind_of_done bmap]
    simp only
    rw [Prog.bind_of_done (vnode2inode_ok (s := s.atTick t) ok.there), ioSize_read ok.size inside]
    simp only [if_neg (show ¬ (0 : Int) ≠ 0 by simp)]
    obtain ⟨u, filled⟩ := fillBuffer_ok io { file with
      physblock := blockAt fs s.data v.inode.iDin2 file.blockno, bufValid := false } len (s.atTick t)
    rw [Prog.bind_of_done filled]
    exact ⟨u, rfl⟩

/-- The buffer does not hold the block of the current position. -/
def UfsFile.Stale (fs : Superblock) (file : UfsFile) : Prop :=
  file.bufValid = false ∨ file.blockno ≠ file.pos / fs.fsBsize

instance (file : UfsFile) : Decidable (file.Stale fs) := inferInstanceAs (Decidable (_ ∨ _))

/-- Byte `p` of the file behind a vnode. -/
def State.byte (fs : Superblock) (s : State) (v : Vnode) (p : Nat) : Byte :=
  fileByte fs s.data v.inode.iDin2 p

/-- The buffer as it is once the block of the current position is in it. -/
def loadedBuf (fs : Superblock) (s : State) (v : Vnode) (file : UfsFile) : Buf :=
  if file.Stale fs then
    fill file.buf (blockByte fs s.data (blockAt fs s.data v.inode.iDin2 (file.pos / fs.fsBsize)))
      (loadLen fs v.inode.iSize file.pos)
  else file.buf

/-- The handle once the block of the current position is in its buffer. -/
def loadedFile (fs : Superblock) (s : State) (v : Vnode) (file : UfsFile) : UfsFile :=
  { file with
    bufValid := true
    blockno := file.pos / fs.fsBsize
    physblock := if file.Stale fs then blockAt fs s.data v.inode.iDin2 (file.pos / fs.fsBsize)
      else file.physblock
    buf := loadedBuf fs s v file }

/-- The address at which the code exits is not the one of this block. -/
def NotPoison (fs : Superblock) (s : State) (v : Vnode) (fbn : Nat) : Prop :=
  blockAt fs s.data v.inode.iDin2 fbn ≠ poisonBlock

/-- The number of bytes that one turn of the read loop copies. -/
def readTurn (fs : Superblock) (size pos wanted : Nat) : Nat :=
  min (min (fs.fsBsize - pos % fs.fsBsize) wanted) (size - pos)

theorem block_lt_maxBlocks (ok : Readable fs s ino v) {pos : Nat} (inside : pos < v.inode.iSize) :
    pos / fs.fsBsize < fs.maxBlocks := by
  refine Nat.div_lt_of_lt_mul ?_
  rw [Nat.mul_comm]
  exact inside.trans_le ok.range

/-- Synchronising and loading, for a clean handle inside the file. -/
theorem enterBlock_ok (io : env.IoOk) (ok : Readable fs s ino v) {file : UfsFile}
    (same : file.ino = ino) (clean : file.bufDirty = false) (inside : file.pos < v.inode.iSize)
    (safe : file.Stale fs → NotPoison fs s v (file.pos / fs.fsBsize)) :
    ∃ file₁ t, syncBufferPosition env fs file s = .done (0, file₁) s ∧
      loadBuffer env fs file₁ false s = .done (0, loadedFile fs s v file) (s.atTick t) := by
  have small : file.pos / fs.fsBsize < 2 ^ 32 :=
    (block_lt_maxBlocks ok inside).trans (maxBlocks_lt.trans (by norm_num))
  by_cases stale : file.Stale fs
  · have sync := @syncBufferPosition_clean env _ _ _ _ (same ▸ ok.there) clean small stale
    obtain ⟨t, load⟩ := loadBuffer_ok io ok
      { file with bufValid := false, blockno := file.pos / fs.fsBsize } same rfl rfl inside
    rw [if_neg (safe stale)] at load
    refine ⟨_, t, sync, load.trans ?_⟩
    simp only [loadedFile, loadedBuf, if_pos stale]
  · obtain ⟨valid, here⟩ := not_or.mp stale
    have valid : file.bufValid = true := by simpa using valid
    have here : file.blockno = file.pos / fs.fsBsize := by simpa using here
    have unchanged : loadedFile fs s v file = file := by
      simp only [loadedFile, loadedBuf, if_neg stale, ← valid, ← here]
    refine ⟨file, s.tick, ?_, ?_⟩
    · unfold syncBufferPosition
      simp only
      rw [fs.lblkno_eq, Nat.mod_eq_of_lt small, if_neg (by simpa using here.symm)]
      rfl
    · unfold loadBuffer
      rw [unchanged, if_pos valid]
      rfl

/-- One turn of the read loop. -/
theorem fileReadLoop_step (io : env.IoOk) (ok : Readable fs s ino v) {file : UfsFile}
    (same : file.ino = ino) (clean : file.bufDirty = false) (inside : file.pos < v.inode.iSize)
    {wanted : Nat} (more : 0 < wanted)
    (safe : file.Stale fs → NotPoison fs s v (file.pos / fs.fsBsize)) (left : Nat)
    (got : List Byte) :
    ∃ t, fileReadLoop env fs (left + 1) file wanted got s
      = fileReadLoop env fs left
          { loadedFile fs s v file with
            pos := file.pos + readTurn fs v.inode.iSize file.pos wanted }
          (wanted - readTurn fs v.inode.iSize file.pos wanted)
          (got ++ (List.range (readTurn fs v.inode.iSize file.pos wanted)).map fun j =>
            loadedBuf fs s v file (file.pos % fs.fsBsize + j)) (s.atTick t) := by
  obtain ⟨file₁, t, sync, load⟩ := enterBlock_ok io ok same clean inside safe
  refine ⟨t, ?_⟩
  have there : s.vnodes file.ino = some v := same ▸ ok.there
  rw [fileReadLoop, Prog.bind_of_done (vnode2inode_ok there), if_pos ⟨inside, more⟩]
  simp only
  rw [Prog.bind_of_done sync]
  simp only
  rw [if_neg (by simp), Prog.bind_of_done load]
  simp only
  rw [if_neg (by simp)]
  rfl

/-- The loop stops at once when nothing is wanted or the file is at its end. -/
theorem fileReadLoop_stop (ok : Readable fs s ino v) {file : UfsFile} (same : file.ino = ino)
    {wanted : Nat} (nothing : min wanted (v.inode.iSize - file.pos) = 0) (left : Nat)
    (got : List Byte) : fileReadLoop env fs left file wanted got s = .done (0, got, file) s := by
  have there : s.vnodes file.ino = some v := same ▸ ok.there
  rw [fileReadLoop, Prog.bind_of_done (vnode2inode_ok there), if_neg (by omega)]
  rfl

theorem Readable.atTick (ok : Readable fs s ino v) (t : Nat) : Readable fs (s.atTick t) ino v :=
  ⟨ok.there, ok.size, ok.range, ok.walk⟩

/-- Byte `j` of a read from the current position: what the buffer shows of the first block, and
    the file itself from the next block on. -/
def readByte (fs : Superblock) (s : State) (v : Vnode) (file : UfsFile) (j : Nat) : Byte :=
  if file.pos % fs.fsBsize + j < fs.fsBsize then
    loadedBuf fs s v file (file.pos % fs.fsBsize + j)
  else s.byte fs v (file.pos + j)

/-- What a valid buffer should hold: its block of the file, as far as the file goes. -/
def Holds (fs : Superblock) (s : State) (v : Vnode) (file : UfsFile) : Prop :=
  file.bufValid = true → file.physblock = blockAt fs s.data v.inode.iDin2 file.blockno ∧
    ∀ i < fs.fsBsize, file.blockno * fs.fsBsize + i < v.inode.iSize →
      file.buf i = s.byte fs v (file.blockno * fs.fsBsize + i)

/-- Loading brings in all that the file has in the block. -/
def LoadCovers (fs : Superblock) (v : Vnode) (file : UfsFile) : Prop :=
  file.Stale fs → min fs.fsBsize (v.inode.iSize - file.pos / fs.fsBsize * fs.fsBsize)
    ≤ loadLen fs v.inode.iSize file.pos

theorem byte_in_block {b i : Nat} (hi : i < fs.fsBsize) :
    s.byte fs v (b * fs.fsBsize + i)
      = blockByte fs s.data (blockAt fs s.data v.inode.iDin2 b) i := by
  unfold State.byte fileByte
  rw [Nat.mul_comm, Nat.mul_add_div fs.bsize_pos, Nat.div_eq_of_lt hi, Nat.mul_add_mod,
    Nat.mod_eq_of_lt hi, Nat.add_zero]

theorem loadCovers_of_aligned {file : UfsFile} (aligned : file.pos % fs.fsBsize = 0) :
    LoadCovers fs v file := by
  intro _
  have start : file.pos / fs.fsBsize * fs.fsBsize = file.pos := by
    have := Nat.div_add_mod' file.pos fs.fsBsize
    omega
  rw [start]
  exact le_loadLen _ _

/-- Loading makes the buffer hold its block, when it covers it. -/
theorem holds_loadedFile {file : UfsFile} (before : Holds fs s v file)
    (covers : LoadCovers fs v file) : Holds fs s v (loadedFile fs s v file) := by
  intro _
  by_cases stale : file.Stale fs
  · refine ⟨if_pos stale, fun i hi inside => ?_⟩
    have covered := covers stale
    change loadedBuf fs s v file i = s.byte fs v (file.pos / fs.fsBsize * fs.fsBsize + i)
    rw [byte_in_block hi, loadedBuf, if_pos stale]
    refine fill_inside (lt_of_lt_of_le ?_ covered)
    simp only [loadedFile] at inside
    omega
  · obtain ⟨valid, here⟩ := not_or.mp stale
    have valid : file.bufValid = true := by simpa using valid
    have here : file.blockno = file.pos / fs.fsBsize := by simpa using here
    have unchanged : loadedFile fs s v file = file := by
      simp only [loadedFile, loadedBuf, if_neg stale, ← valid, ← here]
    rw [unchanged]
    exact before valid

/-- From the start of a block that is not in the buffer, a read sees the file. -/
theorem readByte_of_aligned {file : UfsFile} (stale : file.Stale fs)
    (aligned : file.pos % fs.fsBsize = 0) {j : Nat} (inside : file.pos + j < v.inode.iSize) :
    readByte fs s v file j = s.byte fs v (file.pos + j) := by
  unfold readByte
  rw [aligned, Nat.zero_add]
  split
  · next hj =>
      have start : file.pos / fs.fsBsize * fs.fsBsize = file.pos := by
        have := Nat.div_add_mod' file.pos fs.fsBsize
        omega
      have covered := @le_loadLen fs v.inode.iSize file.pos
      rw [← start, byte_in_block hj, loadedBuf, if_pos stale]
      exact fill_inside (by omega)
  · rfl

/-- A turn ends the read or reaches the start of the next block. -/
theorem readTurn_cases {size pos wanted : Nat} (inside : pos < size) (more : 0 < wanted) :
    0 < readTurn fs size pos wanted ∧ readTurn fs size pos wanted ≤ min wanted (size - pos) ∧
      pos % fs.fsBsize + readTurn fs size pos wanted ≤ fs.fsBsize ∧
      (readTurn fs size pos wanted = min wanted (size - pos) ∨
        pos + readTurn fs size pos wanted = (pos / fs.fsBsize + 1) * fs.fsBsize) := by
  have bpos := fs.bsize_pos
  have off := Nat.mod_lt pos bpos
  have parts := Nat.div_add_mod' pos fs.fsBsize
  unfold readTurn
  rw [Nat.add_mul, Nat.one_mul]
  omega

/-- What the read loop returns, and the handle it leaves. -/
theorem fileReadLoop_done (io : env.IoOk) : ∀ (left : Nat) (file : UfsFile) (wanted : Nat)
    (got : List Byte) (s : State), Readable fs s ino v → file.ino = ino → file.bufDirty = false →
    min wanted (v.inode.iSize - file.pos) ≤ left →
    (∀ j < min wanted (v.inode.iSize - file.pos), NotPoison fs s v ((file.pos + j) / fs.fsBsize)) →
    ∃ t file', fileReadLoop env fs left file wanted got s
        = .done (0, got ++ (List.range (min wanted (v.inode.iSize - file.pos))).map
            (readByte fs s v file), file') (s.atTick t) ∧
      file'.ino = ino ∧ file'.bufDirty = false ∧
      file'.pos = file.pos + min wanted (v.inode.iSize - file.pos) ∧
      (Holds fs s v file → LoadCovers fs v file → Holds fs s v file') := by
  intro left
  induction left with
  | zero =>
      intro file wanted got s ok same clean fuel _
      have nothing : min wanted (v.inode.iSize - file.pos) = 0 := by omega
      refine ⟨s.tick, file, ?_, same, clean, by omega, fun h _ => h⟩
      rw [fileReadLoop_stop ok same nothing, nothing]
      simp [State.atTick_self]
  | succ left ih =>
      intro file wanted got s ok same clean fuel safe
      by_cases nothing : min wanted (v.inode.iSize - file.pos) = 0
      · refine ⟨s.tick, file, ?_, same, clean, by omega, fun h _ => h⟩
        rw [fileReadLoop_stop ok same nothing, nothing]
        simp [State.atTick_self]
      · have inside : file.pos < v.inode.iSize := by omega
        have more : 0 < wanted := by omega
        obtain ⟨t, step⟩ := fileReadLoop_step io ok same clean inside more
          (fun _ => safe 0 (by omega)) left got
        obtain ⟨cpos, cle, cfits, turn⟩ := readTurn_cases inside more
        rw [step]
        set c := readTurn fs v.inode.iSize file.pos wanted with hc
        set len := min wanted (v.inode.iSize - file.pos) with hlen
        have first : ∀ j < c, readByte fs s v file j
            = loadedBuf fs s v file (file.pos % fs.fsBsize + j) := by
          intro j hj
          exact if_pos (by omega)
        have rest : min (wanted - c) (v.inode.iSize - (file.pos + c)) = len - c := by omega
        obtain ⟨t', file', run, same', clean', pos', holds'⟩ := ih
          { loadedFile fs s v file with pos := file.pos + c } (wanted - c)
          (got ++ (List.range c).map fun j => loadedBuf fs s v file (file.pos % fs.fsBsize + j))
          (s.atTick t) (ok.atTick t) same clean
          (by change min (wanted - c) (v.inode.iSize - (file.pos + c)) ≤ left; omega)
          (fun j hj => by
            change j < min (wanted - c) (v.inode.iSize - (file.pos + c)) at hj
            have := safe (c + j) (by omega)
            rwa [← Nat.add_assoc] at this)
        simp only [rest] at run pos'
        refine ⟨t', file', ?_, same', clean', by rw [pos']; omega, fun before covers => ?_⟩
        · have split : len = c + (len - c) := by omega
          have list : ((List.range c).map fun j => loadedBuf fs s v file (file.pos % fs.fsBsize + j))
              ++ (List.range (len - c)).map (readByte fs (s.atTick t) v
                { loadedFile fs s v file with pos := file.pos + c })
              = (List.range len).map (readByte fs s v file) := by
            conv_rhs => rw [split, List.range_add, List.map_append, List.map_map]
            congr 1
            · exact List.map_congr_left fun j hj => (first j (List.mem_range.mp hj)).symm
            · refine List.map_congr_left fun j hj => ?_
              have hj := List.mem_range.mp hj
              have next := turn.resolve_left (by omega)
              have aligned : (file.pos + c) % fs.fsBsize = 0 := by
                rw [next]; exact Nat.mul_mod_left _ _
              have stale : ({ loadedFile fs s v file with pos := file.pos + c } : UfsFile).Stale fs := by
                right
                change file.pos / fs.fsBsize ≠ (file.pos + c) / fs.fsBsize
                rw [next, Nat.mul_div_cancel _ fs.bsize_pos]
                omega
              rw [readByte_of_aligned stale aligned (by simp only; omega)]
              simp only [Function.comp_apply]
              unfold readByte
              have parts := Nat.div_add_mod' file.pos fs.fsBsize
              rw [if_neg (by rw [Nat.add_mul] at next; omega), ← Nat.add_assoc]
              rfl
          rw [run, List.append_assoc, list]
          rfl
        · have loaded := holds_loadedFile before covers
          refine holds' loaded ?_
          -- the position is still in the block just loaded, or at the start of the next one
          intro stale
          rcases stale with invalid | moved
          · cases invalid
          · refine loadCovers_of_aligned ?_ (.inr moved)
            change file.pos / fs.fsBsize ≠ (file.pos + c) / fs.fsBsize at moved
            change (file.pos + c) % fs.fsBsize = 0
            have parts := Nat.div_add_mod' file.pos fs.fsBsize
            have next : file.pos + c = (file.pos / fs.fsBsize + 1) * fs.fsBsize := by
              by_contra short
              refine moved (Nat.div_eq_of_lt_le ?_ ?_).symm
              · omega
              · rw [Nat.add_mul] at short ⊢; omega
            rw [next]; exact Nat.mul_mod_left _ _

/-- The block in which the code exits ends the read, wherever it stands in the range. -/
theorem fileReadLoop_halt (io : env.IoOk) : ∀ (left : Nat) (file : UfsFile) (wanted : Nat)
    (got : List Byte) (s : State), Readable fs s ino v → file.ino = ino → file.bufDirty = false →
    file.Stale fs → min wanted (v.inode.iSize - file.pos) ≤ left →
    (∃ j < min wanted (v.inode.iSize - file.pos), ¬ NotPoison fs s v ((file.pos + j) / fs.fsBsize)) →
    ∃ t, fileReadLoop env fs left file wanted got s = .halt (s.atTick t) := by
  intro left
  induction left with
  | zero =>
      intro file wanted got s _ _ _ _ fuel found
      obtain ⟨j, hj, -⟩ := found
      omega
  | succ left ih =>
      intro file wanted got s ok same clean stale fuel found
      obtain ⟨j, hj, poison⟩ := found
      have inside : file.pos < v.inode.iSize := by omega
      have more : 0 < wanted := by omega
      have there : s.vnodes file.ino = some v := same ▸ ok.there
      have small : file.pos / fs.fsBsize < 2 ^ 32 :=
        (block_lt_maxBlocks ok inside).trans (maxBlocks_lt.trans (by norm_num))
      by_cases here : NotPoison fs s v (file.pos / fs.fsBsize)
      · obtain ⟨t, step⟩ := fileReadLoop_step io ok same clean inside more (fun _ => here) left got
        obtain ⟨cpos, cle, cfits, turn⟩ := readTurn_cases inside more
        set c := readTurn fs v.inode.iSize file.pos wanted with hc
        have parts := Nat.div_add_mod' file.pos fs.fsBsize
        have later : c ≤ j := by
          by_contra early
          have block : (file.pos + j) / fs.fsBsize = file.pos / fs.fsBsize :=
            Nat.div_eq_of_lt_le (by omega) (by rw [Nat.add_mul]; omega)
          rw [block] at poison
          exact poison here
        have next := turn.resolve_left (by omega)
        rw [step]
        refine ih { loadedFile fs s v file with pos := file.pos + c } (wanted - c) _ (s.atTick t)
          (ok.atTick t) same clean (.inr ?_) ?_ ⟨j - c, ?_, ?_⟩
        · change file.pos / fs.fsBsize ≠ (file.pos + c) / fs.fsBsize
          rw [next, Nat.mul_div_cancel _ fs.bsize_pos]
          omega
        · change min (wanted - c) (v.inode.iSize - (file.pos + c)) ≤ left
          omega
        · change j - c < min (wanted - c) (v.inode.iSize - (file.pos + c))
          omega
        · change ¬ NotPoison fs s v ((file.pos + c + (j - c)) / fs.fsBsize)
          rwa [show file.pos + c + (j - c) = file.pos + j by omega]
      · have sync := @syncBufferPosition_clean env _ _ _ _ there clean small stale
        obtain ⟨t, load⟩ := loadBuffer_ok io ok
          { file with bufValid := false, blockno := file.pos / fs.fsBsize } same rfl rfl
          inside
        rw [if_pos (not_not.mp here)] at load
        refine ⟨t, ?_⟩
        rw [fileReadLoop, Prog.bind_of_done (vnode2inode_ok there), if_pos ⟨inside, more⟩]
        simp only
        rw [Prog.bind_of_done sync]
        simp only
        rw [if_neg (by simp), Prog.bind_apply, load]

end Loop

/-! ## Reads through a fresh handle -/

section Fresh

variable {s : State} {ino : Nat} {v : Vnode}

/-- `op_read` returns the bytes of the file from `offset` on, whatever the buffer held. -/
def ReadsRight (fs : Superblock) (s : State) (ino : Nat) (v : Vnode) (offset count : Nat) : Prop :=
  ∀ env : Env, env.IoOk → ∀ (write : Bool) (buf : Buf), ∃ file' s',
    doRead env fs (freshFile ino write buf) count offset s
      = .done ((min count (v.inode.iSize - offset) : Nat),
          (List.range (min count (v.inode.iSize - offset))).map fun j => s.byte fs v (offset + j),
          file') s'

/-- The reads that come out right: those of nothing, and those whose count and result fit
    `ufs_file_read`'s 32 bits, that do not meet the address at which `ufs_bmap` exits, and whose
    part of the first block lies inside what `load_buffer` brings in. -/
def ReadFits (fs : Superblock) (s : State) (v : Vnode) (offset count : Nat) : Prop :=
  let len := min count (v.inode.iSize - offset)
  len = 0 ∨
    (min (count % 2 ^ 32) (v.inode.iSize - offset) = len ∧ len < 2 ^ 31 ∧
      (fs.fsBsize * ndaddr ≤ v.inode.iSize ∨
        offset % fs.fsBsize + min (fs.fsBsize - offset % fs.fsBsize) len
          ≤ fs.fragroundup (v.inode.iSize - offset)) ∧
      ∀ j < len, NotPoison fs s v ((offset + j) / fs.fsBsize))

/-- A read through a fresh handle that does not meet the exit. -/
private theorem doRead_fresh (io : env.IoOk) (ok : Readable fs s ino v) (write : Bool) (buf : Buf)
    (offset count : Nat)
    (safe : ∀ j < min (count % 2 ^ 32) (v.inode.iSize - offset),
      NotPoison fs s v ((offset + j) / fs.fsBsize)) :
    ∃ file' s', doRead env fs (freshFile ino write buf) count offset s
      = .done (asInt32 (min (count % 2 ^ 32) (v.inode.iSize - offset) : Nat),
          (List.range (min (count % 2 ^ 32) (v.inode.iSize - offset))).map
            (readByte fs s v { freshFile ino write buf with pos := offset }), file') s' := by
  obtain ⟨t, file', run, -⟩ := fileReadLoop_done io (count % 2 ^ 32)
    { freshFile ino write buf with pos := offset } (count % 2 ^ 32) [] s ok rfl rfl
    (min_le_left _ _) safe
  refine ⟨file', s.atTick t, ?_⟩
  unfold doRead ufsFileRead
  simp only
  rw [Prog.bind_of_done run]
  simp only
  rw [if_neg (by simp)]
  simp [freshFile]

private theorem asInt32_eq_self {n : Nat} (same : asInt32 n = n) : n < 2 ^ 31 := by
  unfold asInt32 at same
  have := Int.bmod_lt (x := (n : Int)) (m := 2 ^ 32) (by norm_num)
  omega

/-- The first block of a read through a fresh handle, up to what is loaded. -/
private theorem loadLen_of_short {offset : Nat} (short : ¬ fs.fsBsize * ndaddr ≤ v.inode.iSize) :
    loadLen fs v.inode.iSize offset
      = min fs.fsBsize (fs.fragroundup (v.inode.iSize - offset)) := if_neg short

theorem readFits_of_readsRight (ok : Readable fs s ino v) {offset count : Nat}
    (right : ReadsRight fs s ino v offset count) : ReadFits fs s v offset count := by
  have bpos := fs.bsize_pos
  have off := Nat.mod_lt offset bpos
  have parts := Nat.div_add_mod' offset fs.fsBsize
  set size := v.inode.iSize with hsize
  set len := min count (size - offset) with hlen
  by_cases nothing : len = 0
  · exact .inl nothing
  · refine .inr ?_
    -- a read that meets the exit does not return
    have safe : ∀ j < min (count % 2 ^ 32) (size - offset),
        NotPoison fs s v ((offset + j) / fs.fsBsize) := by
      by_contra met
      push Not at met
      obtain ⟨file', s', run⟩ := right calmEnv calmEnv_ioOk false fun _ => 0
      obtain ⟨t, stops⟩ := fileReadLoop_halt calmEnv_ioOk (count % 2 ^ 32)
        { freshFile ino false (fun _ => 0) with pos := offset } (count % 2 ^ 32) [] s ok rfl rfl
        (.inl rfl) (min_le_left _ _) met
      unfold doRead ufsFileRead at run
      simp only at run
      rw [Prog.bind_apply, stops] at run
      cases run
    have outcome : ∀ buf : Buf, asInt32 (min (count % 2 ^ 32) (size - offset) : Nat) = len ∧
        (List.range (min (count % 2 ^ 32) (size - offset))).map
          (readByte fs s v { freshFile ino false buf with pos := offset })
        = (List.range len).map fun j => s.byte fs v (offset + j) := by
      intro buf
      obtain ⟨file', s', run⟩ := right calmEnv calmEnv_ioOk false buf
      obtain ⟨file'', s'', ran⟩ := doRead_fresh calmEnv_ioOk ok false buf offset count safe
      rw [ran] at run
      injection run with pair
      simp only [Prod.mk.injEq] at pair
      exact ⟨pair.1, pair.2.1⟩
    have lengths : min (count % 2 ^ 32) (size - offset) = len := by
      have := congrArg List.length (outcome fun _ => 0).2
      simpa using this
    rw [lengths] at outcome safe
    refine ⟨lengths, asInt32_eq_self (outcome fun _ => 0).1, ?_, safe⟩
    by_contra short
    obtain ⟨small, cut⟩ := not_or.mp short
    -- the last byte taken from the first block was not loaded
    set c := min (fs.fsBsize - offset % fs.fsBsize) len with hc
    set wrong := s.byte fs v (offset + (c - 1)) + 1#8 with hw
    have lists := (outcome fun _ => wrong).2
    have last := congrArg (fun l => l[c - 1]?) lists
    simp only [List.getElem?_map] at last
    rw [List.getElem?_range (by omega)] at last
    simp only [Option.map_some, Option.some.injEq] at last
    have taken : readByte fs s v { freshFile ino false (fun _ => wrong) with pos := offset } (c - 1)
        = wrong := by
      unfold readByte loadedBuf
      simp only
      rw [if_pos (by omega), if_pos (.inl rfl), loadLen_of_short small]
      exact fill_outside (by omega)
    rw [taken, hw] at last
    simp at last

theorem readsRight_of_readFits (ok : Readable fs s ino v) {offset count : Nat}
    (fits : ReadFits fs s v offset count) : ReadsRight fs s ino v offset count := by
  have bpos := fs.bsize_pos
  have off := Nat.mod_lt offset bpos
  have parts := Nat.div_add_mod' offset fs.fsBsize
  set size := v.inode.iSize with hsize
  set len := min count (size - offset) with hlen
  intro env io write buf
  rcases fits with nothing | ⟨lengths, small, loaded, safe⟩
  · have none : min (count % 2 ^ 32) (size - offset) = 0 := by
      have := Nat.mod_le count (2 ^ 32)
      omega
    obtain ⟨file', s', ran⟩ := doRead_fresh io ok write buf offset count (by
      intro j hj
      rw [← hsize, none] at hj
      omega)
    refine ⟨file', s', ?_⟩
    have empty : min count (size - offset) = 0 := nothing
    rw [ran, ← hsize, none, empty]
    rfl
  · rw [← hlen] at safe small loaded lengths
    obtain ⟨file', s', ran⟩ := doRead_fresh io ok write buf offset count (by
      rw [← hsize, lengths]; exact safe)
    refine ⟨file', s', ?_⟩
    rw [ran, ← hsize, lengths, asInt32_of_lt small]
    congr 3
    refine List.map_congr_left fun j hj => ?_
    have hj := List.mem_range.mp hj
    unfold readByte
    simp only
    split
    · next first =>
        have covered : offset % fs.fsBsize + j < loadLen fs size offset := by
          rcases loaded with full | enough
          · rw [loadLen, if_pos full]; exact first
          · by_cases full : fs.fsBsize * ndaddr ≤ size
            · rw [loadLen, if_pos full]; exact first
            · rw [loadLen_of_short full]; omega
        have place : offset + j = offset / fs.fsBsize * fs.fsBsize + (offset % fs.fsBsize + j) := by
          omega
        rw [place, byte_in_block first, loadedBuf, if_pos (.inl rfl)]
        exact fill_inside covered
    · rfl

end Fresh

/-! ## A small mount with one file -/

/-- The group of the small mount with the first `k` fragments of block 4 and inode 3 in use. -/
def oneCg (k : Nat) : Cg :=
  { smallCg with
    cgCs := ⟨1, 11, 12, 8 - k⟩
    cgFrsum := fun i => if k < 8 ∧ i = 8 - k then 1 else 0
    cgInosused := fun i => if i = 0 then 0x0f#8 else 0
    cgBlksfree := fun i =>
      if i = 4 then BitVec.ofNat 8 (256 - 2 ^ k) else if 5 ≤ i ∧ i < 16 then 0xff#8 else 0 }

/-- A regular file of `size` bytes, at most a block, in block 4. -/
def oneDinode (size : Nat) : Dinode :=
  { blankDinode with
    diMode := ifreg
    diNlink := 1
    diSize := size
    diBlocks := 8
    diDb := Function.update (fun _ => 0) 0 32 }

def oneVnode (size : Nat) : Vnode := ⟨copyOndiskToIncore (oneDinode size) 3, 1⟩

/-- The small mount with that file, full of ones, open. -/
def oneState (size k : Nat) : State :=
  { smallState with
    cgs := Function.update (fun _ => { smallCg with cgBlksfree := fun _ => 0 }) 0 (oneCg k)
    dinodes := Function.update (fun _ => blankDinode) 3 (oneDinode size)
    data := fun a => if 32 * 512 ≤ a ∧ a < 32 * 512 + size then 1 else 0
    csumArea := fun _ => (oneCg k).cgCs
    sbCstotal := (oneCg k).cgCs
    fsCstotal := (oneCg k).cgCs
    fsCsp := fun _ => (oneCg k).cgCs
    vnodes := Function.update (fun _ => none) 3 (some (oneVnode size)) }

theorem oneState_readable : Readable smallFs (oneState 4096 8) 3 (oneVnode 4096) where
  there := by simp [oneState]
  size := rfl
  range := by decide
  walk := by
    intro fbn inside
    have : fbn * 4096 < 4096 := inside
    exact .inr (.inl (by unfold ndaddr; omega))

end FuseUfs
