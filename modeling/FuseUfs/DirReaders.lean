import FuseUfs.Lookup
import FuseUfs.Ops

/-! # The readers of a directory agree

`op_readdir`, `ufs_lookup` and `do_check_empty_dir` walk over a directory with procedures that only
read. What such a procedure does with a record in use depends on its name and inode, so the three
see one list of entries: the records in use, in the order in which they lie on the disk. A block at
the address at which `ufs_bmap` exits is the one thing that can come between.
-/

namespace FuseUfs

open Lib Prog

/-- `MAXDIRSIZE`: positions in a directory are 32-bit quantities. -/
def maxdirsize : Nat := 0x7fffffff

/-- The directory with this inode has these contents on the device, and no holes. -/
structure DirData (fs : Superblock) (data : Nat → Byte) (inode : Inode) (img : Buf) : Prop where
  dsize : inode.iDin2.diSize = inode.iSize
  size : inode.iSize ≤ maxdirsize
  /-- Every block is within the reach of the double tree. -/
  range : inode.iSize ≤ fs.maxBlocks * fs.fsBsize
  mapped : ∀ b, b * fs.fsBsize < inode.iSize → blockAt fs data inode.iDin2 b ≠ 0
  bytes : ∀ p < inode.iSize, fileByte fs data inode.iDin2 p = img p

/-- No block is at the address at which `ufs_bmap` exits. -/
def DirClean (fs : Superblock) (data : Nat → Byte) (inode : Inode) : Prop :=
  ∀ b, b * fs.fsBsize < inode.iSize → blockAt fs data inode.iDin2 b ≠ poisonBlock

/-- A directory that is in core or can be brought there, with these contents. -/
structure DirShown (fs : Superblock) (s : State) (dir : Nat) (img : Buf) : Prop where
  cache : InoCache fs s
  numbered : dir ≠ 0
  /-- A vnode in core is in use. -/
  held : ∀ v, s.vnodes dir = some v → 0 < v.count
  linked : 0 < (s.inCore dir).inode.iNlink
  data : DirData fs s.data (s.inCore dir).inode img

/-- A well-formed directory whose names are strings: the length of a name is that of the string. -/
structure DirWellFormed (img : Buf) (size : Nat) (offs : List Nat) : Prop extends DirImage img size offs where
  strings : ∀ off ∈ offs, dIno img off ≠ 0 → (0 : Byte) ∉ dName img off

/-! ## Procedures that read entries -/

section Entries

variable {σ : Type} {func : DirProc σ} {turn : σ → Entry → Bool × σ} {fs : Superblock} {img : Buf} {size : Nat}

theorem dirEntry_unused {buf : Buf} {off : Nat} (unused : dIno buf off = 0) : dirEntry buf off = none :=
  if_pos unused

theorem dirEntry_used {buf : Buf} {off : Nat} (used : dIno buf off ≠ 0) :
    dirEntry buf off = some (dName buf off, dIno buf off) := if_neg used

theorem dirEntry_named {buf : Buf} {off : Nat} {e : Entry} (entry : dirEntry buf off = some e) : e.2 ≠ 0 := by
  unfold dirEntry at entry
  split at entry
  · cases entry
  · cases entry
    assumption

/-- The procedure passes unused records over. Of a used one it looks at the entry, to end the walk
    or to change its private data. -/
def ReadsEntries (func : DirProc σ) (turn : σ → Entry → Bool × σ) : Prop :=
  ∀ buf off priv, (dIno buf off ≠ 0 → (0 : Byte) ∉ dName buf off) → func buf off priv =
    match dirEntry buf off with
    | none => some (0, buf, priv)
    | some entry => some (if (turn priv entry).1 then direntAbort else 0, buf, (turn priv entry).2)

/-- The private data after all entries, or after the one that ends the walk. -/
def readEntries (turn : σ → Entry → Bool × σ) : List Entry → σ → σ
  | [], priv => priv
  | entry :: rest, priv =>
      if (turn priv entry).1 then (turn priv entry).2 else readEntries turn rest (turn priv entry).2

/-- What a buffer has of a record in the directory has its entry. -/
theorem ShowsBlock.entry {buf : Buf} {p : Nat} (shows : ShowsBlock fs size (p / fs.fsBsize) img buf)
    (ok : RecordOk img p) (within : p + dReclen img p ≤ size) :
    dIno buf (p % fs.fsBsize) = dIno img p ∧ dirEntry buf (p % fs.fsBsize) = dirEntry img p ∧
      (dIno img p ≠ 0 → dName buf (p % fs.fsBsize) = dName img p) := by
  have head := ok.head
  have same := shows.record ok within
  have ino : dIno buf (p % fs.fsBsize) = dIno img p := dIno_congr fun i hi => same i (by omega)
  have name : dIno img p ≠ 0 → dName buf (p % fs.fsBsize) = dName img p := by
    intro used
    have inside := name_inside (ok.room used)
    refine dName_congr (same 7 (by omega)) fun i hi => ?_
    rw [Nat.add_assoc, Nat.add_assoc]
    exact same (8 + i) (by omega)
  refine ⟨ino, ?_, name⟩
  unfold dirEntry
  rw [ino]
  split
  · rfl
  · next used => rw [name used]

theorem RecordStep.reads (reads : ReadsEntries func turn) {p : Nat} (ok : RecordOk img p)
    (within : p + dReclen img p ≤ size) (named : dIno img p ≠ 0 → (0 : Byte) ∉ dName img p) (priv : σ)
    {ret : Int} {priv' : σ}
    (result : (ret, priv') = match dirEntry img p with
      | none => (0, priv)
      | some entry => (if (turn priv entry).1 then direntAbort else 0, (turn priv entry).2)) :
    RecordStep fs size func p img priv ret img priv' := by
  have calls : ∀ buf, ShowsBlock fs size (p / fs.fsBsize) img buf →
      func buf (p % fs.fsBsize) priv = some (ret, buf, priv') := by
    intro buf shows
    obtain ⟨ino, entry, name⟩ := shows.entry ok within
    have string : dIno buf (p % fs.fsBsize) ≠ 0 → (0 : Byte) ∉ dName buf (p % fs.fsBsize) := by
      intro used
      rw [ino] at used
      rw [name used]
      exact named used
    rw [reads buf _ priv string, entry]
    cases found : dirEntry img p with
    | none =>
        rw [found] at result
        obtain ⟨rfl, rfl⟩ := Prod.mk.inj result
        rfl
    | some e =>
        rw [found] at result
        obtain ⟨rfl, rfl⟩ := Prod.mk.inj result
        rfl
  exact ⟨fun buf shows => ⟨buf, calls buf shows, shows⟩, fun _ => rfl, fun _ _ => rfl⟩

/-- The walk over the records from `p` on. -/
theorem Scan.reads (fs : Superblock) (reads : ReadsEntries func turn) : ∀ {offs : List Nat} {p : Nat} (priv : σ),
    Tiles (dReclen img) p offs size → (∀ off ∈ offs, RecordOk img off) →
    (∀ off ∈ offs, dIno img off ≠ 0 → (0 : Byte) ∉ dName img off) →
    Scan fs size func p img priv 0 (0, img, readEntries turn (dirEntries img offs) priv) := by
  intro offs
  induction offs with
  | nil =>
      intro p priv tiles records named
      cases tiles
      exact .ends img priv 0
  | cons off rest ih =>
      intro p priv tiles records named
      obtain rfl := tiles.head_eq
      have ok := records off List.mem_cons_self
      have within := (tiles.bounds List.mem_cons_self).2.2
      have string := named off List.mem_cons_self
      have later : ∀ priv', Scan fs size func (off + dReclen img off) img priv' 0
          (0, img, readEntries turn (dirEntries img rest) priv') := fun priv' =>
        ih priv' tiles.tail (fun z mem => records z (List.mem_cons_of_mem _ mem))
          fun z mem => named z (List.mem_cons_of_mem _ mem)
      rw [dirEntries_cons]
      cases found : dirEntry img off with
      | none =>
          have step : RecordStep fs size func off img priv 0 img priv :=
            .reads reads ok within string priv (by rw [found])
          exact .goes ok within step (by decide) ok within (later priv)
      | some entry =>
          change Scan fs size func off img priv 0
            (0, img, readEntries turn (entry :: dirEntries img rest) priv)
          cases stop : (turn priv entry).1 with
          | true =>
              have step : RecordStep fs size func off img priv direntAbort img (turn priv entry).2 :=
                .reads reads ok within string priv (by rw [found]; simp [stop])
              rw [readEntries, if_pos stop]
              exact .stops ok within step (by decide)
          | false =>
              have step : RecordStep fs size func off img priv 0 img (turn priv entry).2 :=
                .reads reads ok within string priv (by rw [found]; simp [stop])
              rw [readEntries, if_neg (by rw [stop]; decide)]
              exact .goes ok within step (by decide) ok within (later _)

end Entries

/-! ## Walking over the directory -/

section Walks

variable {env : Env} {fs : Superblock} {σ : Type} {func : DirProc σ} {s : State} {dir : Nat} {img : Buf}
  {inode : Inode}

theorem DirData.small (data : DirData fs s.data inode img) : inode.iSize < 2 ^ 31 := by
  have most := data.size
  unfold maxdirsize at most
  omega

/-- A block that is mapped is found through blocks of addresses that are there. -/
theorem walkOk_of_mapped {data : Nat → Byte} {din : Dinode} {b : Nat} (mapped : blockAt fs data din b ≠ 0) :
    WalkOk fs data din b := by
  unfold blockAt at mapped
  right
  split at mapped
  · next direct => exact .inl direct
  · split at mapped
    · next single =>
      refine .inr (.inl ⟨single, fun none => mapped ?_⟩)
      rw [lookup, if_pos none]
    · next far =>
      split at mapped
      · refine .inr (.inr ⟨not_lt.mp far, fun none => mapped ?_, fun none => mapped ?_⟩)
        · rw [lookup, lookup, if_pos none, if_pos rfl]
        · have middle : lookup fs data (din.diIb 1) ((b - ndaddr - fs.fsNindir) / fs.fsNindir) = 0 := by
            unfold lookup
            split
            · rfl
            · exact none
          rw [middle, lookup, if_pos rfl]
      · exact absurd rfl mapped

/-- The bytes of block `i`. -/
theorem DirData.block_byte (data : DirData fs s.data inode img) {i j : Nat} (low : j < fs.fsBsize)
    (inside : i * fs.fsBsize + j < inode.iSize) :
    s.data (blockAt fs s.data inode.iDin2 i * fs.fsFsize + j) = img (i * fs.fsBsize + j) := by
  obtain ⟨block, place⟩ := block_parts fs i low
  have there := data.mapped i (by omega)
  rw [← data.bytes _ inside, fileByte, block, place, blockByte, if_neg there]

/-- A directory can be walked over by a procedure that does not write. -/
theorem DirData.carries (quiet : Quiet func) (io : env.IoOk) {v : Vnode} (there : s.vnodes dir = some v)
    (data : DirData fs s.data v.inode img) (clean : DirClean fs s.data v.inode) :
    Carries env fs func dir v.inode.iSize (blockAt fs s.data v.inode.iDin2)
      fun s' img' => img' = img ∧ ∃ t, s' = s.atTick t where
  small := data.small
  tick := by
    rintro _ _ ⟨rfl, t, rfl⟩ t'
    exact ⟨rfl, t', rfl⟩
  enter := by
    rintro _ _ i ⟨rfl, t, rfl⟩ inside n w
    obtain ⟨t', entered⟩ := dirBlocks_enter func io (show (s.atTick t).vnodes dir = some v from there) data.dsize
      data.range data.small inside (walkOk_of_mapped (data.mapped i inside)) (clean i inside) n w
    refine ⟨t', _, fun j low more => ?_, entered⟩
    rw [fill_inside (lt_dirLen low more)]
    exact data.block_byte low more
  turn := by
    rintro _ _ img' i off priv priv' ret' w ⟨rfl, t, rfl⟩ low ok within step shows same left
    have silent : hasBit ret' 0 = false := by
      obtain ⟨block, -⟩ := block_parts fs i low
      obtain ⟨buf', called, -⟩ := step.call w.buf (by rw [block]; exact shows)
      exact quiet _ _ _ _ _ _ called
    obtain rfl := step.quiet silent
    obtain ⟨buf', shows', turn⟩ := dirRecords_quiet data.small low ok within step silent shows same
      (blockAt fs s.data v.inode.iDin2 i) left (s.atTick t)
    exact ⟨buf', s.atTick t, shows', ⟨rfl, t, rfl⟩, .refl _, turn⟩

/-- A record starts at every multiple of 512. -/
theorem DirImage.starts {size : Nat} {offs : List Nat} (image : DirImage img size offs) {p : Nat}
    (aligned : dirblksiz ∣ p) (inside : p < size) : p ∈ offs := by
  refine image.tiles.mem_of_uncrossed (Nat.zero_le p) inside fun x mem less => ?_
  have block := (image.records x mem).block
  obtain ⟨k, rfl⟩ := aligned
  have below : x / dirblksiz < k := Nat.div_lt_of_lt_mul less
  have parts := Nat.div_add_mod x dirblksiz
  have room : dirblksiz * (x / dirblksiz + 1) ≤ dirblksiz * k := Nat.mul_le_mul_left _ below
  rw [Nat.mul_succ] at room
  omega

/-- A directory with a link that `ufs_dir_append` and `ufs_unlink` can work on can be read. -/
theorem DirAt.shown (at' : DirAt fs s dir img) {offs : List Nat} (image : DirImage img (s.dirSize dir) offs)
    (linked : 0 < (s.inCore dir).inode.iNlink) :
    DirShown fs s dir img ∧ DirClean fs s.data (s.inCore dir).inode := by
  have file := at'.file
  refine ⟨⟨at'.cache, at'.numbered, at'.held, linked, file.dsize, Nat.le_of_lt_succ file.small, file.range,
    fun b inside => ?_, file.bytes⟩, fun b _ => file.clean b⟩
  have aligned : dirblksiz ∣ b * fs.fsBsize := (dirblksiz_dvd fs).mul_left b
  have start := image.starts aligned inside
  have mapped := file.mapped (image.records _ start) (image.tiles.bounds start).2.2
  rwa [Nat.mul_div_cancel _ fs.bsize_pos] at mapped

theorem DirShown.lookable (shown : DirShown fs s dir img) : Lookable s dir :=
  ⟨shown.numbered, shown.held, .inl shown.linked⟩

/-- The whole of `ufs_dir_iterate`. -/
theorem ufsDirIterate_reads (quiet : Quiet func) (io : env.IoOk) (shown : DirShown fs s dir img)
    (clean : DirClean fs s.data (s.inCore dir).inode) {priv : σ} {final : Int × Buf × σ}
    (scan : Scan fs (s.dirSize dir) func 0 img priv 0 final) :
    ∃ s', ufsDirIterate env fs dir func priv s = .done (final.1, final.2.2) s' ∧ s'.vnodes = s.vnodes := by
  obtain ⟨t, l, b, lo, hi, got, cached⟩ := vnodeGet_ok io.toInoOk shown.cache shown.numbered
  set v : Vnode := ⟨(s.inCore dir).inode, (s.inCore dir).count + 1⟩ with hv
  set s₁ : State := { s with
    tick := t, log := l, dInoblock := b, dInomin := lo, dInomax := hi
    vnodes := Function.update s.vnodes dir (some v) } with hs₁
  have there : s₁.vnodes dir = some v := Function.update_self ..
  have data : DirData fs s₁.data v.inode img := shown.data
  obtain ⟨w, s₂, run, ⟨-, t', rfl⟩, -, ret, priv'⟩ :=
    Scan.run (data.carries quiet io there clean) scan ⟨rfl, s₁.tick, rfl⟩ env.heap
  refine ⟨{ s₁.atTick t' with vnodes := s.vnodes }, ?_, rfl⟩
  rw [ufsDirIterate_start got there]
  refine (Prog.bind_of_done run _).trans
    ((Prog.bind_of_done (vnodePut_returns env fs shown.lookable rfl) _).trans ?_)
  rw [ret, priv']
  rfl

end Walks

/-! ## The three readers -/

section Readers

variable {env : Env} {fs : Superblock} {s : State} {dir : Nat} {img : Buf} {offs : List Nat}

/-- `ufs_lookup` ends at the name. -/
def lookupTurn (name : List Byte) (found : Nat) (entry : Entry) : Bool × Nat :=
  if name = entry.1 then (true, entry.2) else (false, found)

theorem lookupProc_entries (name : List Byte) : ReadsEntries (lookupProc name) (lookupTurn name) := by
  intro buf off found string
  unfold lookupProc
  by_cases unused : dIno buf off = 0
  · rw [dirEntry_unused unused, if_pos unused]
  · rw [dirEntry_used unused, if_neg unused]
    by_cases same : name = dName buf off
    · have turn : lookupTurn name found (dName buf off, dIno buf off) = (true, dIno buf off) := if_pos same
      rw [if_pos same]
      dsimp only
      rw [turn, if_pos rfl]
    · have turn : lookupTurn name found (dName buf off, dIno buf off) = (false, found) := if_neg same
      rw [if_neg same]
      dsimp only
      rw [turn, if_neg Bool.false_ne_true]

/-- The name is `.` or `..`. -/
def Dots (name : List Byte) : Prop := name = [dot] ∨ name = [dot, dot]

instance (name : List Byte) : Decidable (Dots name) := inferInstanceAs (Decidable (_ ∨ _))

/-- `do_check_empty_dir` goes through all entries. -/
def rmdirTurn (empty : Bool) (entry : Entry) : Bool × Bool := (false, empty && decide (Dots entry.1))

theorem length_dName (buf : Buf) (off : Nat) : (dName buf off).length = dNamlen buf off := by
  rw [dName, List.length_map, List.length_range]

theorem dName_at {buf : Buf} {off i : Nat} (inside : i < dNamlen buf off) :
    (dName buf off).getD i 0 = buf (off + 8 + i) := by
  rw [List.getD_eq_getElem _ _ (by rwa [length_dName])]
  simp only [dName, List.getElem_map, List.getElem_range]

theorem dName_one (buf : Buf) (off : Nat) (c : Byte) :
    dName buf off = [c] ↔ dNamlen buf off = 1 ∧ buf (off + 8) = c := by
  have len := length_dName buf off
  constructor
  · intro one
    rw [one, List.length_singleton] at len
    have first := dName_at (show 0 < dNamlen buf off by omega)
    rw [one, List.getD_cons_zero] at first
    exact ⟨len.symm, first.symm⟩
  · rintro ⟨count, first⟩
    refine dName_eq count fun i hi => ?_
    obtain rfl : i = 0 := Nat.lt_one_iff.mp hi
    rw [List.getD_cons_zero]
    exact first

theorem dName_two (buf : Buf) (off : Nat) (c d : Byte) :
    dName buf off = [c, d] ↔ dNamlen buf off = 2 ∧ buf (off + 8) = c ∧ buf (off + 9) = d := by
  have len := length_dName buf off
  constructor
  · intro two
    rw [two, List.length_cons, List.length_singleton] at len
    have first := dName_at (show 0 < dNamlen buf off by omega)
    have second := dName_at (show 1 < dNamlen buf off by omega)
    rw [two, List.getD_cons_zero] at first
    rw [two, List.getD_cons_succ, List.getD_cons_zero] at second
    exact ⟨len.symm, first.symm, second.symm⟩
  · rintro ⟨count, first, second⟩
    refine dName_eq count fun i hi => ?_
    rcases Nat.lt_succ_iff_lt_or_eq.mp (show i < 1 + 1 from hi) with low | rfl
    · obtain rfl : i = 0 := Nat.lt_one_iff.mp low
      rw [List.getD_cons_zero]
      exact first
    · rw [List.getD_cons_succ, List.getD_cons_zero]
      exact second

theorem dots_dName (buf : Buf) (off : Nat) :
    Dots (dName buf off) ↔ (dNamlen buf off = 1 ∧ buf (off + 8) = dot) ∨
      (dNamlen buf off = 2 ∧ buf (off + 8) = dot ∧ buf (off + 9) = dot) := by
  unfold Dots
  rw [dName_one, dName_two]

theorem rmdirProc_entries : ReadsEntries rmdirProc rmdirTurn := by
  intro buf off empty string
  unfold rmdirProc
  by_cases unused : dIno buf off = 0
  · rw [dirEntry_unused unused, if_pos unused]
  · rw [dirEntry_used unused, if_neg unused]
    have turn : rmdirTurn empty (dName buf off, dIno buf off) = (false, empty && decide (Dots (dName buf off))) := rfl
    simp only [← dots_dName]
    rw [turn, if_neg Bool.false_ne_true]
    split
    · next dots => rw [decide_eq_true dots, Bool.and_true]
    · next other => rw [decide_eq_false other, Bool.and_false]

/-- A filler that always returns 0 is given every entry. -/
def walkTurn {ρ : Type} (filler : ρ → List Byte → Nat → Int × ρ) (r : ρ) (entry : Entry) : Bool × ρ :=
  (false, (filler r entry.1 entry.2).2)

/-- Without a zero in it the name is the string that starts there. -/
theorem cstring_eq {buf : Buf} {off : Nat} (string : (0 : Byte) ∉ dName buf off) :
    cstring buf (off + 8) (dNamlen buf off) = dName buf off := by
  unfold cstring
  apply List.takeWhile_eq_self_iff.mpr
  intro c mem
  rw [decide_eq_true_eq]
  rintro rfl
  exact string mem

theorem walkDir_entries {ρ : Type} {filler : ρ → List Byte → Nat → Int × ρ}
    (takes : ∀ r name ino, (filler r name ino).1 = 0) : ReadsEntries (walkDir filler) (walkTurn filler) := by
  intro buf off r string
  unfold walkDir
  by_cases unused : dIno buf off = 0
  · rw [dirEntry_unused unused, if_pos unused]
  · rw [dirEntry_used unused, if_neg unused]
    have turn : walkTurn filler r (dName buf off, dIno buf off) = (false, (filler r (dName buf off) (dIno buf off)).2) :=
      rfl
    rw [cstring_eq (string unused)]
    dsimp only
    rw [turn, if_neg Bool.false_ne_true, takes]

theorem lookupTurn_all (name : List Byte) (found : Nat) : ∀ entries : List Entry,
    readEntries (lookupTurn name) entries found
      = ((entries.find? fun e => e.1 = name).map Prod.snd).getD found := by
  intro entries
  induction entries with
  | nil => rfl
  | cons e rest ih =>
      rw [readEntries, lookupTurn]
      by_cases same : name = e.1
      · rw [if_pos same, if_pos rfl, List.find?_cons_of_pos (by simp [same])]
        rfl
      · rw [if_neg same, if_neg Bool.false_ne_true, List.find?_cons_of_neg (by simp [Ne.symm same]), ← ih]

theorem rmdirTurn_all : ∀ (entries : List Entry) (empty : Bool),
    readEntries rmdirTurn entries empty = (empty && decide (∀ e ∈ entries, Dots e.1)) := by
  intro entries
  induction entries with
  | nil => simp [readEntries]
  | cons e rest ih =>
      intro empty
      have goes : readEntries rmdirTurn (e :: rest) empty = readEntries rmdirTurn rest (empty && decide (Dots e.1)) :=
        if_neg Bool.false_ne_true
      rw [goes, ih, Bool.eq_iff_iff]
      simp only [Bool.and_eq_true, decide_eq_true_eq, List.forall_mem_cons, and_assoc]

theorem walkTurn_all {ρ : Type} (filler : ρ → List Byte → Nat → Int × ρ) : ∀ (entries : List Entry) (r : ρ),
    readEntries (walkTurn filler) entries r = entries.foldl (fun r e => (filler r e.1 e.2).2) r := by
  intro entries
  induction entries with
  | nil => exact fun _ => rfl
  | cons e rest ih =>
      intro r
      have goes : readEntries (walkTurn filler) (e :: rest) r
          = readEntries (walkTurn filler) rest (filler r e.1 e.2).2 := if_neg Bool.false_ne_true
      rw [goes, ih, List.foldl_cons]

theorem rmdirProc_quiet : Quiet rmdirProc := by
  intro buf off empty ret buf' empty' called
  unfold rmdirProc at called
  split at called
  · cases called
    decide
  · split at called
    · cases called
      decide
    · cases called
      decide

theorem walkDir_quiet {ρ : Type} {filler : ρ → List Byte → Nat → Int × ρ}
    (takes : ∀ r name ino, (filler r name ino).1 = 0) : Quiet (walkDir filler) := by
  intro buf off r ret buf' r' called
  unfold walkDir at called
  split at called
  · cases called
    decide
  · cases called
    rw [takes]
    decide

/-- What the three readers say about a directory with these entries. -/
structure ReadersAgree (env : Env) (fs : Superblock) (s : State) (dir : Nat) (entries : List Entry) : Prop where
  readdir : ∀ path s₀, doReadvnode env fs path s₀ = .done (0, dir) s →
    ∀ {ρ : Type} (filler : ρ → List Byte → Nat → Int × ρ) (r : ρ), (∀ r name ino, (filler r name ino).1 = 0) →
      ∃ s', opReaddir env fs path filler r s₀
        = .done (0, entries.foldl (fun r e => (filler r e.1 e.2).2) r) s'
  lookup : ∀ name, ∃ s', ufsLookup env fs dir name s = .done
    (match entries.find? fun e => e.1 = name with
      | some e => (0, e.2)
      | none => (enoent, 0)) s'
  empty : ∃ rc s', doCheckEmptyDir env fs dir s = .done rc s' ∧ (rc = 0 ↔ ∀ e ∈ entries, Dots e.1)

/-- A path that is found leads to a vnode in core. -/
theorem doReadvnode_there {path : List Byte} {s₀ : State} (found : doReadvnode env fs path s₀ = .done (0, dir) s) :
    ∃ v, s.vnodes dir = some v := by
  unfold doReadvnode at found
  obtain ⟨⟨rc, ino⟩, s₁, -, found⟩ := bind_eq_done.mp found
  dsimp only at found
  split at found
  · cases (pure_eq_done.mp found).1
  · obtain ⟨v, t, l, b, lo, hi, got, -⟩ := vnodeGet_total env fs ino s₁
    rw [Prog.bind_of_done got] at found
    obtain ⟨same, rfl⟩ := pure_eq_done.mp found
    cases same
    exact ⟨v, Function.update_self ..⟩

/-- With no block in the way the three readers agree. -/
theorem DirShown.agree (io : env.IoOk) (shown : DirShown fs s dir img) (ok : DirWellFormed img (s.dirSize dir) offs)
    (clean : DirClean fs s.data (s.inCore dir).inode) : ReadersAgree env fs s dir (dirEntries img offs) where
  readdir := by
    intro path s₀ found ρ filler r takes
    have scan := Scan.reads fs (walkDir_entries takes) r ok.tiles ok.records ok.strings
    obtain ⟨s₁, walked, same⟩ := ufsDirIterate_reads (walkDir_quiet takes) io shown clean scan
    obtain ⟨v, there⟩ := doReadvnode_there found
    have linked : 0 < v.inode.iNlink := by
      have some := shown.linked
      rwa [State.inCore, there] at some
    obtain ⟨s₂, put⟩ := vnodePut_clean env fs (by rw [same]; exact there) (.inl linked)
    refine ⟨s₂, ?_⟩
    unfold opReaddir
    rw [Prog.bind_of_done found]
    dsimp only
    rw [if_neg (by decide)]
    refine (Prog.bind_of_done walked _).trans ((Prog.bind_of_done put _).trans ?_)
    rw [walkTurn_all]
    rfl
  lookup := by
    intro name
    have scan := Scan.reads fs (lookupProc_entries name) 0 ok.tiles ok.records ok.strings
    obtain ⟨s₁, walked, -⟩ := ufsDirIterate_reads (lookupProc_quiet name) io shown clean scan
    refine ⟨s₁, ?_⟩
    unfold ufsLookup
    refine (Prog.bind_of_done walked _).trans ?_
    dsimp only
    rw [if_neg (by decide), lookupTurn_all]
    cases first : (dirEntries img offs).find? fun e => e.1 = name with
    | none => rfl
    | some e =>
        have used : e.2 ≠ 0 := by
          obtain ⟨off, -, entry⟩ := List.mem_filterMap.mp (List.mem_of_find?_eq_some first)
          exact dirEntry_named entry
        simp only [Option.map_some, Option.getD_some, if_pos used]
        rfl
  empty := by
    have scan := Scan.reads fs rmdirProc_entries true ok.tiles ok.records ok.strings
    obtain ⟨s₁, walked, -⟩ := ufsDirIterate_reads rmdirProc_quiet io shown clean scan
    rw [rmdirTurn_all, Bool.true_and] at walked
    by_cases all : ∀ e ∈ dirEntries img offs, Dots e.1
    · refine ⟨0, s₁, ?_, iff_of_true rfl all⟩
      unfold doCheckEmptyDir
      refine (Prog.bind_of_done walked _).trans ?_
      rw [decide_eq_true all]
      rfl
    · refine ⟨-enotempty, s₁, ?_, iff_of_false (by decide) all⟩
      unfold doCheckEmptyDir
      refine (Prog.bind_of_done walked _).trans ?_
      rw [decide_eq_false all]
      rfl

/-! ## The address at which the walk exits -/

/-- The positions of the blocks do not overflow. -/
theorem dirPos_eq {inode : Inode} (data : DirData fs s.data inode img) : ∀ i, i * fs.fsBsize < inode.iSize →
    dirPos fs inode i = (i * fs.fsBsize : Nat) := by
  intro i
  induction i with
  | zero => intro _; rw [dirPos, Nat.zero_mul]; rfl
  | succ i ih =>
      intro inside
      have small := data.small
      have before : i * fs.fsBsize < inode.iSize := by
        rw [Nat.succ_mul] at inside
        omega
      rw [dirPos, ih before, ioSize_dirLen data.dsize small before, dirLen_full fs inside.le, ← Int.natCast_add,
        ← Nat.succ_mul, asInt32_of_lt (Nat.lt_trans inside small)]

/-- A mapped block is where the walk looks for it. -/
theorem dirBlkno_eq (io : env.IoOk) {inode : Inode} (data : DirData fs s.data inode img) {b : Nat}
    (inside : b * fs.fsBsize < inode.iSize) : dirBlkno env fs inode s.data b = blockAt fs s.data inode.iDin2 b := by
  have counted : b < fs.maxBlocks := Nat.lt_of_mul_lt_mul_right (Nat.lt_of_lt_of_le inside data.range)
  obtain ⟨t, walked⟩ := bmapWalk_ok io counted (walkOk_of_mapped (data.mapped b inside))
  rcases bmapWalk_yields env inode.iDin2 b s with ⟨-, yields⟩ | ⟨-, rc, a, t', failed, nonzero⟩
  · rw [walked] at yields
    exact (Prod.mk.inj (Outcome.done.inj yields).1).2.symm
  · rw [walked] at failed
    cases failed
    exact absurd rfl nonzero

/-- If a walk over the whole directory returns, no block is in the way. -/
theorem DirShown.clean_of_empty (io : env.IoOk) (shown : DirShown fs s dir img) {rc : Int} {s' : State}
    (returned : doCheckEmptyDir env fs dir s = .done rc s') : DirClean fs s.data (s.inCore dir).inode := by
  unfold doCheckEmptyDir at returned
  obtain ⟨r, s₁, walked, -⟩ := bind_eq_done.mp returned
  obtain ⟨t, l, b, lo, hi, got, cached⟩ := vnodeGet_ok io.toInoOk shown.cache shown.numbered
  have ends := ufsDirIterate_ends io Reads.rmdir.reader rmdirProc_quiet got (Function.update_self ..) ⟨r, s₁, walked⟩
  intro b inside
  have passes : ∀ j < b, PassesBlock env fs (s.inCore dir).inode s.data (fun _ _ => false) j := by
    intro j less
    have before : j * fs.fsBsize < (s.inCore dir).inode.iSize :=
      Nat.lt_of_le_of_lt (Nat.mul_le_mul_right _ less.le) inside
    refine ⟨?_, fun ⟨_, _, _, stop⟩ => Bool.false_ne_true stop⟩
    rw [dirBlksize, dirPos_eq shown.data j before, ioSize_dirLen shown.data.dsize shown.data.small before]
    exact_mod_cast dirLen_pos fs before
  have address := (ends b (lt_howmany inside) passes).address
  rwa [dirBlkno_eq io shown.data inside] at address

/-- The three readers agree about a directory exactly when none of its blocks is at the address at
    which `ufs_bmap` exits. -/
theorem readersAgree_iff (io : env.IoOk) (shown : DirShown fs s dir img)
    (ok : DirWellFormed img (s.dirSize dir) offs) :
    ReadersAgree env fs s dir (dirEntries img offs) ↔ DirClean fs s.data (s.inCore dir).inode := by
  constructor
  · intro agree
    obtain ⟨rc, s', returned, -⟩ := agree.empty
    exact shown.clean_of_empty io returned
  · exact shown.agree io ok

end Readers

/-- The readers of an empty directory see its two entries. -/
theorem readersAgree_emptyDir :
    ReadersAgree calmEnv smallFs (dirState emptyDir) 3 [([dot], 3), ([dot, dot], 2)] := by
  have entries : dirEntries emptyDir emptyOffs = [([dot], 3), ([dot, dot], 2)] := by decide +kernel
  obtain ⟨shown, clean⟩ := (dirState_at emptyDir).shown emptyDir_image (show (0 : Int) < 2 by decide)
  have strings : ∀ off ∈ emptyOffs, dIno emptyDir off ≠ 0 → (0 : Byte) ∉ dName emptyDir off := by decide +kernel
  rw [← entries]
  exact (readersAgree_iff calmEnv_ioOk shown ⟨emptyDir_image, strings⟩).mpr clean

end FuseUfs
