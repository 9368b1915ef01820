import FuseUfs.DirHold

/-! # Entering a name into a directory

`link_proc` lets each record take in the unused one after it, and looks whether the name fits:
at the end of a record in use, which is split, or in an unused one, which is filled. The walk
goes on from a split record to its second half, and fills that.
-/

namespace FuseUfs

open Lib Prog

/-! ## The procedure at a place of the directory -/

section Place

variable {fs : Superblock} {img buf : Buf} {size p ino flags : Nat} {name : List Byte}

/-- Places of 512 bytes are in one block of the file, inside the directory. -/
theorem place_inside (fs : Superblock) {d : Nat} (whole : dirblksiz ∣ size) (inside : p < size)
    (low : p % dirblksiz + d ≤ dirblksiz) : p % fs.fsBsize + d ≤ fs.fsBsize ∧ p + d ≤ size := by
  obtain ⟨k, hk⟩ := dirblksiz_dvd fs
  obtain ⟨m, hm⟩ := whole
  have small : p % fs.fsBsize % dirblksiz = p % dirblksiz := Nat.mod_mod_of_dvd p (dirblksiz_dvd fs)
  have fits : ∀ {x n}, x < dirblksiz * n → x % dirblksiz + d ≤ dirblksiz → x + d ≤ dirblksiz * n := by
    intro x n below room
    have parts := Nat.div_add_mod x dirblksiz
    have less : x / dirblksiz < n := Nat.div_lt_of_lt_mul below
    have up : dirblksiz * (x / dirblksiz + 1) ≤ dirblksiz * n := Nat.mul_le_mul_left _ less
    rw [Nat.mul_add, Nat.mul_one] at up
    omega
  constructor
  · rw [hk]
    exact fits (hk ▸ Nat.mod_lt p fs.bsize_pos) (by rw [← hk, small]; exact low)
  · rw [hm]
    exact fits (hm ▸ inside) low

/-- What the procedure reads at a distance `d` from the record. -/
theorem ShowsBlock.header {d : Nat} (shows : ShowsBlock fs size (p / fs.fsBsize) img buf) (whole : dirblksiz ∣ size)
    (inside : p < size) (low : p % dirblksiz + (d + 8) ≤ dirblksiz) :
    dIno buf (p % fs.fsBsize + d) = dIno img (p + d) ∧ dReclen buf (p % fs.fsBsize + d) = dReclen img (p + d) ∧
      dNamlen buf (p % fs.fsBsize + d) = dNamlen img (p + d) := by
  obtain ⟨inBlock, within⟩ := place_inside fs whole inside low
  have parts := Nat.div_add_mod' p fs.fsBsize
  have same : ∀ k < 8, buf (p % fs.fsBsize + d + k) = img (p + d + k) := by
    intro k hk
    rw [Nat.add_assoc, shows _ (by omega) (by omega)]
    congr 1
    omega
  refine ⟨dIno_congr fun k hk => same k (by omega), dReclen_congr fun k hk => ?_, dNamlen_congr (same 7 (by decide))⟩
  rw [Nat.add_assoc, Nat.add_assoc (p + d)]
  exact same _ (by omega)

/-- A name written, in the buffer. -/
theorem ShowsBlock.putName (shows : ShowsBlock fs size (p / fs.fsBsize) img buf) (d k : Nat) (name : List Byte) :
    ShowsBlock fs size (p / fs.fsBsize) (putName img (p + d) k name)
      (putName buf (p % fs.fsBsize + d) k name) := by
  intro j low inside
  have parts := Nat.div_add_mod' p fs.fsBsize
  unfold FuseUfs.putName
  by_cases here : p % fs.fsBsize + d ≤ j ∧ j < p % fs.fsBsize + d + k
  · rw [if_pos here, if_pos (by omega)]
    congr 1
    omega
  · rw [if_neg here, if_neg (by omega)]
    exact shows j low inside

/-- The record takes in the unused one after it. -/
def Absorbs (img : Buf) (p : Nat) : Prop :=
  p % dirblksiz + dReclen img p < dirblksiz - 8 ∧ dIno img (p + dReclen img p) = 0 ∧
    p % dirblksiz + dReclen img p + dReclen img (p + dReclen img p) ≤ dirblksiz

instance (img : Buf) (p : Nat) : Decidable (Absorbs img p) := by
  unfold Absorbs
  infer_instance

/-- The record after that, its length and the value returned for it so far. -/
def absorbedLen (img : Buf) (p : Nat) : Nat :=
  if Absorbs img p then dReclen img p + dReclen img (p + dReclen img p) else dReclen img p

def absorbed (img : Buf) (p : Nat) : Buf :=
  if Absorbs img p then setReclen img p (absorbedLen img p) else img

def absorbRet (img : Buf) (p : Nat) : Int := if Absorbs img p then direntChanged else 0

theorem absorbNext_eq (img : Buf) (p : Nat) :
    absorbNext img p = (absorbRet img p, absorbedLen img p, absorbed img p) := by
  unfold absorbNext absorbRet absorbed absorbedLen
  by_cases absorbs : Absorbs img p
  · rw [if_pos absorbs, if_pos absorbs, if_pos absorbs]
    exact if_pos absorbs
  · rw [if_neg absorbs, if_neg absorbs, if_neg absorbs]
    exact if_neg absorbs

/-- It is the same in the buffer. -/
theorem ShowsBlock.absorbNext (shows : ShowsBlock fs size (p / fs.fsBsize) img buf) (whole : dirblksiz ∣ size)
    (inside : p < size) (ok : RecordOk img p) :
    ∃ buf', FuseUfs.absorbNext buf (p % fs.fsBsize) = (absorbRet img p, absorbedLen img p, buf') ∧
      ShowsBlock fs size (p / fs.fsBsize) (absorbed img p) buf' := by
  have head := ok.head
  have block := ok.block
  obtain ⟨-, len, -⟩ := shows.header (d := 0) whole inside (by omega)
  have place : p % fs.fsBsize % dirblksiz = p % dirblksiz := Nat.mod_mod_of_dvd p (dirblksiz_dvd fs)
  rw [Nat.add_zero, Nat.add_zero] at len
  have same : Absorbs buf (p % fs.fsBsize) ↔ Absorbs img p := by
    unfold Absorbs
    rw [len, place]
    by_cases room : p % dirblksiz + dReclen img p < dirblksiz - 8
    · obtain ⟨ino, next, -⟩ := shows.header (d := dReclen img p) whole inside (by unfold dirblksiz at *; omega)
      rw [ino, next]
    · simp [room]
  rw [absorbNext_eq]
  by_cases absorbs : Absorbs img p
  · obtain ⟨-, next, -⟩ := shows.header (d := dReclen img p) whole inside
      (by have := absorbs.1; unfold dirblksiz at *; omega)
    have lenSame : absorbedLen buf (p % fs.fsBsize) = absorbedLen img p := by
      rw [absorbedLen, absorbedLen, if_pos absorbs, if_pos (same.mpr absorbs), len, next]
    refine ⟨absorbed buf (p % fs.fsBsize), ?_, ?_⟩
    · rw [absorbRet, absorbRet, if_pos absorbs, if_pos (same.mpr absorbs), lenSame]
    · rw [absorbed, absorbed, if_pos absorbs, if_pos (same.mpr absorbs), lenSame]
      exact shows.putLe 4 2 _
  · have no := mt same.mp absorbs
    refine ⟨absorbed buf (p % fs.fsBsize), ?_, ?_⟩
    · rw [absorbRet, absorbRet, if_neg absorbs, if_neg no, absorbedLen, absorbedLen, if_neg absorbs, if_neg no, len]
    · rw [absorbed, absorbed, if_neg absorbs, if_neg no]
      exact shows

/-- The name fits: after what a record in use needs for itself, or in an unused one. -/
def Fits (img : Buf) (name : List Byte) (p : Nat) : Prop :=
  if dIno img p ≠ 0 then ufsDirRecLen (dNamlen img p) + ufsDirRecLen name.length ≤ absorbedLen img p
  else ufsDirRecLen name.length ≤ absorbedLen img p

instance (img : Buf) (name : List Byte) (p : Nat) : Decidable (Fits img name p) := by
  unfold Fits
  infer_instance

/-- Taking a record in changes the length only. -/
theorem absorbed_outside (img : Buf) {p x : Nat} (out : ¬ (p + 4 ≤ x ∧ x < p + 6)) : absorbed img p x = img x := by
  unfold absorbed
  split
  · exact putLe_outside out
  · rfl

theorem absorbed_dIno (img : Buf) (p : Nat) : dIno (absorbed img p) p = dIno img p :=
  dIno_congr fun _ hi => absorbed_outside img (by omega)

theorem absorbed_dNamlen (img : Buf) (p : Nat) : dNamlen (absorbed img p) p = dNamlen img p :=
  dNamlen_congr (absorbed_outside img (by omega))

theorem absorbedLen_le (ok : RecordOk img p) : p % dirblksiz + absorbedLen img p ≤ dirblksiz := by
  unfold absorbedLen
  split
  · next absorbs =>
    rw [← Nat.add_assoc]
    exact absorbs.2.2
  · exact ok.block

theorem le_absorbedLen (img : Buf) (p : Nat) : dReclen img p ≤ absorbedLen img p := by
  unfold absorbedLen
  split
  · exact Nat.le_add_right ..
  · exact Nat.le_refl _

theorem absorbed_dReclen (ok : RecordOk img p) : dReclen (absorbed img p) p = absorbedLen img p := by
  have le := absorbedLen_le ok
  unfold absorbed
  split
  · exact dReclen_setReclen img p (by unfold dirblksiz at le; omega)
  · next no => rw [absorbedLen, if_neg no]

/-- A change within the 512 bytes of a record is a change in no other block. -/
theorem frame_of_near {img' : Buf} (near : ∀ x, x < p ∨ p + (dirblksiz - p % dirblksiz) ≤ x → img' x = img x) :
    ∀ x, x / fs.fsBsize ≠ p / fs.fsBsize → img' x = img x := by
  intro x other
  by_contra changed
  have here : p ≤ x ∧ x < p + (dirblksiz - p % dirblksiz) := by
    by_contra out
    exact changed (near x (by omega))
  have low : p % dirblksiz < dirblksiz := Nat.mod_lt p (by decide)
  have whole : dirblksiz ∣ (p / dirblksiz + 1) * dirblksiz := Dvd.intro_left _ rfl
  have inside : p < (p / dirblksiz + 1) * dirblksiz := by
    have := Nat.div_add_mod' p dirblksiz
    rw [Nat.succ_mul]
    omega
  have inBlock : p % fs.fsBsize + (dirblksiz - p % dirblksiz) ≤ fs.fsBsize := (place_inside fs whole inside (by omega)).1
  have parts := Nat.div_add_mod' p fs.fsBsize
  obtain ⟨block, -⟩ := block_parts fs (p / fs.fsBsize) (show p % fs.fsBsize + (x - p) < fs.fsBsize by omega)
  rw [← Nat.add_assoc, parts, show p + (x - p) = x by omega] at block
  exact other block

theorem splitRecord_eq (buf : Buf) (off len : Nat) {minLen : Nat} (small : minLen < 2 ^ 16) :
    splitRecord buf off len minLen
      = setReclen (setNamlen (setIno (setReclen buf off minLen) (off + minLen) 0) (off + minLen) 0) (off + minLen)
          (len - minLen) := by
  unfold splitRecord
  simp only [dReclen_setReclen buf off small]

theorem splitRecord_outside (img : Buf) {p len minLen x : Nat} (small : minLen < 2 ^ 16)
    (out : ¬ (p + 4 ≤ x ∧ x < p + 6) ∧ ¬ (p + minLen ≤ x ∧ x < p + minLen + 8)) :
    splitRecord img p len minLen x = img x := by
  rw [splitRecord_eq img p len small, setReclen, putLe_outside (by omega), setNamlen, putLe_outside (by omega),
    setIno, putLe_outside (by omega), setReclen, putLe_outside (by omega)]

theorem ShowsBlock.splitRecord (shows : ShowsBlock fs size (p / fs.fsBsize) img buf) (len : Nat) {minLen : Nat}
    (small : minLen < 2 ^ 16) :
    ShowsBlock fs size (p / fs.fsBsize) (splitRecord img p len minLen)
      (splitRecord buf (p % fs.fsBsize) len minLen) := by
  rw [splitRecord_eq img p len small, splitRecord_eq buf _ len small]
  exact (((shows.putLe 4 2 minLen).putLe minLen 4 0).putLe (minLen + 7) 1 0).putLe (minLen + 4) 2 (len - minLen)

theorem fillRecord_outside (img : Buf) {p x : Nat} (name : List Byte) (ino flags : Nat)
    (out : ¬ (p ≤ x ∧ x < p + 4) ∧ ¬ (p + 6 ≤ x ∧ x < p + 9 + name.length)) :
    fillRecord img p name ino flags x = img x := by
  unfold fillRecord putName
  rw [if_neg (by omega), setType, putLe_outside (by omega), setNamlen, putLe_outside (by omega), setIno,
    putLe_outside (by omega)]

theorem ShowsBlock.fillRecord (shows : ShowsBlock fs size (p / fs.fsBsize) img buf) (name : List Byte)
    (ino flags : Nat) :
    ShowsBlock fs size (p / fs.fsBsize) (fillRecord img p name ino flags)
      (fillRecord buf (p % fs.fsBsize) name ino flags) :=
  (((shows.putLe 0 4 ino).putLe 7 1 name.length).putLe 6 1 (iftodt flags)).putName 8 (name.length + 1) name

section Steps

variable {done : Bool}

theorem linkProc_eq (name : List Byte) (ino flags : Nat) (done : Bool)
    (shows : ShowsBlock fs size (p / fs.fsBsize) img buf) (whole : dirblksiz ∣ size)
    (inside : p < size) (ok : RecordOk img p) :
    ∃ buf', ShowsBlock fs size (p / fs.fsBsize) (absorbed img p) buf' ∧
      linkProc name ino flags buf (p % fs.fsBsize) done
        = if dIno img p ≠ 0 then
            if Fits img name p then
              some (direntChanged, splitRecord buf' (p % fs.fsBsize) (absorbedLen img p)
                (ufsDirRecLen (dNamlen img p)), done)
            else some (absorbRet img p, buf', done)
          else if Fits img name p then
            some (direntAbort + direntChanged, fillRecord buf' (p % fs.fsBsize) name ino flags, true)
          else some (absorbRet img p, buf', done) := by
  have head := ok.head
  have block := ok.block
  obtain ⟨buf', eq, shows'⟩ := shows.absorbNext whole inside ok
  obtain ⟨sameIno, -, sameLen⟩ := shows'.header (d := 0) whole inside (by omega)
  rw [Nat.add_zero, Nat.add_zero] at sameIno sameLen
  rw [absorbed_dIno] at sameIno
  rw [absorbed_dNamlen] at sameLen
  refine ⟨buf', shows', ?_⟩
  unfold linkProc
  simp only [eq, sameIno, sameLen]
  unfold Fits
  by_cases used : dIno img p ≠ 0
  · simp only [if_pos used, ← Nat.not_le, ite_not]
  · simp only [if_neg used, ← Nat.not_le, ite_not]

/-- The name does not fit. -/
theorem linkProc_stays (whole : dirblksiz ∣ size) (inside : p < size) (ok : RecordOk img p)
    (none : ¬ Fits img name p) :
    RecordStep fs size (linkProc name ino flags) p img done (absorbRet img p) (absorbed img p) done := by
  refine ⟨fun buf shows => ?_, fun quiet => ?_, frame_of_near fun x far => absorbed_outside img ?_⟩
  · obtain ⟨buf', shows', eq⟩ := linkProc_eq name ino flags done shows whole inside ok
    refine ⟨buf', ?_, shows'⟩
    rw [eq, if_neg none, if_neg none, ite_self]
  · unfold absorbRet at quiet
    split at quiet
    · exact absurd quiet (by decide)
    · next no => exact if_neg no
  · have := ok.head
    have := ok.block
    omega

/-- The name fits after what the record in use needs. -/
theorem linkProc_splits (whole : dirblksiz ∣ size) (inside : p < size) (ok : RecordOk img p)
    (used : dIno img p ≠ 0) (fits : Fits img name p) :
    RecordStep fs size (linkProc name ino flags) p img done direntChanged
      (splitRecord (absorbed img p) p (absorbedLen img p) (ufsDirRecLen (dNamlen img p))) done := by
  have le := absorbedLen_le ok
  have head := ok.head
  have least : 12 ≤ ufsDirRecLen name.length := by
    unfold ufsDirRecLen
    omega
  have room : ufsDirRecLen (dNamlen img p) + ufsDirRecLen name.length ≤ absorbedLen img p := by
    rw [Fits, if_pos used] at fits
    exact fits
  have small : ufsDirRecLen (dNamlen img p) < 2 ^ 16 := by
    unfold dirblksiz at le
    omega
  refine ⟨fun buf shows => ?_, fun quiet => absurd quiet (by decide), frame_of_near fun x far => ?_⟩
  · obtain ⟨buf', shows', eq⟩ := linkProc_eq name ino flags done shows whole inside ok
    refine ⟨_, ?_, shows'.splitRecord _ small⟩
    rw [eq, if_pos used, if_pos fits]
  · rw [splitRecord_outside _ small (by omega), absorbed_outside img (by omega)]

/-- The name fits into the unused record. -/
theorem linkProc_fills (whole : dirblksiz ∣ size) (inside : p < size) (ok : RecordOk img p)
    (unused : dIno img p = 0) (fits : Fits img name p) :
    RecordStep fs size (linkProc name ino flags) p img done (direntAbort + direntChanged)
      (fillRecord (absorbed img p) p name ino flags) true := by
  have le := absorbedLen_le ok
  have head := ok.head
  have room : ufsDirRecLen name.length ≤ absorbedLen img p := by
    rw [Fits, if_neg (not_not.mpr unused)] at fits
    exact fits
  have name_lt : 9 + name.length ≤ ufsDirRecLen name.length := by
    unfold ufsDirRecLen
    omega
  refine ⟨fun buf shows => ?_, fun quiet => absurd quiet (by decide), frame_of_near fun x far => ?_⟩
  · obtain ⟨buf', shows', eq⟩ := linkProc_eq name ino flags done shows whole inside ok
    refine ⟨_, ?_, shows'.fillRecord name ino flags⟩
    rw [eq, if_neg (not_not.mpr unused), if_pos fits]
  · rw [fillRecord_outside _ name ino flags (by omega), absorbed_outside img (by omega)]

end Steps

end Place

/-! ## What it makes of the directory -/

section Images

variable {img : Buf} {size p ino flags : Nat} {name : List Byte} {xs ws : List Nat}

/-- The records that the walk comes to after this one. -/
def restAfter (img : Buf) (p : Nat) (ws : List Nat) : List Nat := if Absorbs img p then ws.tail else ws

/-- A record in the directory, with its place. -/
theorem DirImage.member (image : DirImage img size (xs ++ p :: ws)) : RecordOk img p ∧ p + dReclen img p ≤ size ∧ p < size := by
  have ok := image.records p (by simp)
  have head := ok.head
  have := image.tiles.split_at.2.2.le
  exact ⟨ok, by omega, by omega⟩

/-- A record that is taken in is one of the directory. -/
theorem DirImage.absorbs_next (image : DirImage img size (xs ++ p :: ws)) (whole : dirblksiz ∣ size)
    (absorbs : Absorbs img p) : ∃ q rest, ws = q :: rest ∧ q = p + dReclen img p ∧ q % dirblksiz ≠ 0 := by
  obtain ⟨ok, -, -⟩ := image.member
  have head := ok.head
  have room := absorbs.1
  have parts := Nat.div_add_mod' p dirblksiz
  have place : (p + dReclen img p) % dirblksiz = p % dirblksiz + dReclen img p := by
    rw [Nat.add_mod, Nat.mod_eq_of_lt (show dReclen img p < dirblksiz by unfold dirblksiz at *; omega),
      Nat.mod_eq_of_lt (by unfold dirblksiz at *; omega)]
  have rest := image.tiles.split_at.2.2
  cases ws with
  | nil =>
      exfalso
      cases rest
      rw [Nat.mod_eq_zero_of_dvd whole] at place
      omega
  | cons q rest' =>
      obtain rfl := rest.head_eq
      exact ⟨_, rest', rfl, rfl, by omega⟩

/-- Taking a record in leaves the directory as it was. -/
theorem DirImage.absorb (image : DirImage img size (xs ++ p :: ws)) (whole : dirblksiz ∣ size) :
    DirImage (absorbed img p) size (xs ++ p :: restAfter img p ws) ∧
      dirEntries (absorbed img p) (xs ++ p :: restAfter img p ws) = dirEntries img (xs ++ p :: ws) := by
  unfold restAfter
  by_cases absorbs : Absorbs img p
  · obtain ⟨q, rest, rfl, next, inner⟩ := image.absorbs_next whole absorbs
    obtain ⟨image', entries⟩ := image.merge inner
    have same : absorbed img p = setReclen img p (dReclen img p + dReclen img q) := by
      rw [absorbed, absorbedLen, if_pos absorbs, if_pos absorbs, next]
    rw [if_pos absorbs, List.tail_cons, same]
    refine ⟨image', entries.trans ?_⟩
    have unused : dirEntry img q = none := by
      rw [dirEntry, if_pos (by rw [next]; exact absorbs.2.1)]
    rw [dirEntries_append, dirEntries_cons, dirEntries_append, dirEntries_cons, dirEntries_cons, unused,
      Option.toList_none, List.nil_append]
  · have same : absorbed img p = img := if_neg absorbs
    rw [if_neg absorbs, same]
    exact ⟨image, rfl⟩

/-- An unused record is filled. -/
theorem DirImage.fill (image : DirImage img size (xs ++ p :: ws)) (short : name.length ≤ maxnamlen) (named : ino ≠ 0)
    (number : ino < 2 ^ 32) (unused : dIno img p = 0) (room : ufsDirRecLen name.length ≤ dReclen img p) :
    DirImage (fillRecord img p name ino flags) size (xs ++ p :: ws) ∧
      (dirEntries (fillRecord img p name ino flags) (xs ++ p :: ws)).Perm ((name, ino) :: dirEntries img (xs ++ p :: ws)) := by
  obtain ⟨start, pos, after⟩ := image.tiles.split_at
  have ok := image.records p (by simp)
  have head := ok.head
  set img' := fillRecord img p name ino flags with himg
  have name_lt : 9 + name.length ≤ ufsDirRecLen name.length := by
    unfold ufsDirRecLen
    omega
  have same : ∀ x, ¬ (p ≤ x ∧ x < p + 4) ∧ ¬ (p + 6 ≤ x ∧ x < p + 9 + name.length) → img' x = img x :=
    fun x out => fillRecord_outside img name ino flags out
  have len : dReclen img' p = dReclen img p := dReclen_congr fun i hi => same _ (by omega)
  have inode : dIno img' p = ino := by
    have stored : dIno (setIno img p ino) p = ino := dIno_setIno img p number
    rw [← stored]
    refine dIno_congr fun i hi => ?_
    rw [himg]
    unfold fillRecord putName
    rw [if_neg (by omega), setType, putLe_outside (by omega), setNamlen, putLe_outside (by omega)]
  have namlen : dNamlen img' p = name.length := by
    rw [himg, dNamlen]
    unfold fillRecord putName
    rw [if_neg (by omega), setType, putLe_outside (by omega), setNamlen, putLe, if_pos (by omega), Nat.sub_self]
    simp only [leByte, Nat.pow_zero, Nat.div_one, BitVec.toNat_ofNat]
    unfold maxnamlen at short
    omega
  have named' : dName img' p = name := by
    refine dName_eq namlen fun i hi => ?_
    rw [himg]
    unfold fillRecord putName
    rw [if_pos (by omega), Nat.add_sub_cancel_left]
  have fresh : RecordOk img' p :=
    ⟨by omega, by rw [len]; exact ok.block, fun _ => by rw [namlen, len]; exact room⟩
  have old : Tiles (dReclen img) p [p] (p + dReclen img p) := .cons pos (.nil _)
  have new : Tiles (dReclen img') p [p] (p + dReclen img p) := by
    refine .cons (by omega) ?_
    rw [len]
    exact .nil _
  obtain ⟨image', entries⟩ := DirImage.replace [p] [p] image old new start (fun x out => same x (by omega))
    fun z mem => by
      obtain rfl := List.mem_singleton.mp mem
      exact fresh
  refine ⟨image', ?_⟩
  have before : dirEntry img p = none := if_pos unused
  have entry : dirEntry img' p = some (name, ino) := by
    rw [dirEntry, inode, if_neg named, named']
  refine (List.Perm.of_eq entries).trans ?_
  rw [dirEntries_cons, entry, dirEntries_nil, dirEntries_append, dirEntries_cons, before]
  exact List.perm_middle

/-- A record in use gives its end away. -/
theorem DirImage.split {n : Nat} (image : DirImage img size (xs ++ p :: ws)) (used : dIno img p ≠ 0)
    (room : ufsDirRecLen (dNamlen img p) + n ≤ dReclen img p) (some : 12 ≤ n) :
    DirImage (splitRecord img p (dReclen img p) (ufsDirRecLen (dNamlen img p))) size
        (xs ++ p :: (p + ufsDirRecLen (dNamlen img p)) :: ws) ∧
      dirEntries (splitRecord img p (dReclen img p) (ufsDirRecLen (dNamlen img p)))
          (xs ++ p :: (p + ufsDirRecLen (dNamlen img p)) :: ws) = dirEntries img (xs ++ p :: ws) ∧
      dReclen (splitRecord img p (dReclen img p) (ufsDirRecLen (dNamlen img p))) p = ufsDirRecLen (dNamlen img p) ∧
      dIno (splitRecord img p (dReclen img p) (ufsDirRecLen (dNamlen img p))) (p + ufsDirRecLen (dNamlen img p)) = 0 ∧
      dReclen (splitRecord img p (dReclen img p) (ufsDirRecLen (dNamlen img p))) (p + ufsDirRecLen (dNamlen img p))
        = dReclen img p - ufsDirRecLen (dNamlen img p) := by
  obtain ⟨start, pos, after⟩ := image.tiles.split_at
  have ok := image.records p (by simp)
  have head := ok.head
  have block := ok.block
  have name_lt : 9 + dNamlen img p ≤ ufsDirRecLen (dNamlen img p) := by
    unfold ufsDirRecLen
    omega
  have least : 12 ≤ ufsDirRecLen (dNamlen img p) := by
    unfold ufsDirRecLen
    omega
  set m := ufsDirRecLen (dNamlen img p) with hm
  set img' := splitRecord img p (dReclen img p) m with himg
  have small : m < 2 ^ 16 := by
    unfold dirblksiz at block
    omega
  have rest : dReclen img p - m < 2 ^ 16 := by
    unfold dirblksiz at block
    omega
  have same : ∀ x, ¬ (p + 4 ≤ x ∧ x < p + 6) ∧ ¬ (p + m ≤ x ∧ x < p + m + 8) → img' x = img x :=
    fun x out => splitRecord_outside img small out
  have parts : img' = setReclen (setNamlen (setIno (setReclen img p m) (p + m) 0) (p + m) 0) (p + m) (dReclen img p - m) :=
    splitRecord_eq img p _ small
  have len : dReclen img' p = m := by
    rw [← dReclen_setReclen img p small]
    refine dReclen_congr fun i hi => ?_
    rw [parts, setReclen, putLe_outside (by omega), setNamlen, putLe_outside (by omega), setIno,
      putLe_outside (by omega)]
  have lenNext : dReclen img' (p + m) = dReclen img p - m := by
    rw [parts]
    exact dReclen_setReclen _ _ rest
  have inoNext : dIno img' (p + m) = 0 := by
    rw [← dIno_setIno (setReclen img p m) (p + m) (by decide : 0 < 2 ^ 32)]
    refine dIno_congr fun i hi => ?_
    rw [parts, setReclen, putLe_outside (by omega), setNamlen, putLe_outside (by omega)]
  have inode : dIno img' p = dIno img p := dIno_congr fun i hi => same _ (by omega)
  have namlen : dNamlen img' p = dNamlen img p := dNamlen_congr (same _ (by omega))
  have entry : dirEntry img' p = dirEntry img p :=
    dirEntry_congr (fun i hi => same _ (by omega)) (same _ (by omega)) fun _ i hi => same _ (by omega)
  have place : (p + m) % dirblksiz = p % dirblksiz + m := by
    rw [Nat.add_mod, Nat.mod_eq_of_lt (show m < dirblksiz by omega), Nat.mod_eq_of_lt (by omega)]
  have fresh : ∀ z ∈ [p, p + m], RecordOk img' z := by
    intro z mem
    rcases List.mem_pair.mp mem with rfl | rfl
    · refine ⟨by omega, by omega, fun _ => ?_⟩
      rw [namlen, len]
    · exact ⟨by omega, by omega, fun used => absurd inoNext used⟩
  have old : Tiles (dReclen img) p [p] (p + dReclen img p) := .cons pos (.nil _)
  have new : Tiles (dReclen img') p [p, p + m] (p + dReclen img p) := by
    refine .cons (by omega) ?_
    rw [len]
    refine .cons (by omega) ?_
    rw [lenNext, show p + m + (dReclen img p - m) = p + dReclen img p by omega]
    exact .nil _
  obtain ⟨image', entries⟩ := DirImage.replace [p] [p, p + m] image old new start (fun x out => same x (by omega)) fresh
  refine ⟨image', entries.trans ?_, len, inoNext, lenNext⟩
  have none : dirEntry img' (p + m) = none := if_pos inoNext
  rw [dirEntries_cons, dirEntries_cons, dirEntries_nil, none, entry, dirEntries_append, dirEntries_cons]
  simp

end Images

/-! ## The walk -/

/-- The records that the walk comes to as long as the name has not been entered. -/
def visited (img : Buf) : List Nat → List Nat
  | [] => []
  | [p] => [p]
  | p :: q :: rest => if Absorbs img p then p :: visited img rest else p :: visited img (q :: rest)

theorem visited_cons (img : Buf) (p : Nat) (ws : List Nat) :
    visited img (p :: ws) = p :: visited img (restAfter img p ws) := by
  unfold restAfter
  cases ws with
  | nil => simp [visited]
  | cons q rest =>
      rw [visited]
      split
      · rfl
      · rfl

/-- The last record that the walk comes to has taken another one in. -/
def LastAbsorbs (img : Buf) (offs : List Nat) : Prop := ∃ p ∈ (visited img offs).getLast?, Absorbs img p

section Scans

variable {fs : Superblock} {size ino flags : Nat} {name : List Byte}

/-- What is before a record does not matter to the procedure there. -/
theorem absorbs_congr {img img' : Buf} {z : Nat} (same : ∀ x, z ≤ x → img' x = img x) :
    Absorbs img' z ↔ Absorbs img z := by
  have len : ∀ y, z ≤ y → dReclen img' y = dReclen img y := fun y le => dReclen_congr fun i hi => same _ (by omega)
  have ino : ∀ y, z ≤ y → dIno img' y = dIno img y := fun y le => dIno_congr fun i hi => same _ (by omega)
  unfold Absorbs
  rw [len z (le_refl z), len _ (Nat.le_add_right ..), ino _ (Nat.le_add_right ..)]

theorem fits_congr {img img' : Buf} {z : Nat} (same : ∀ x, z ≤ x → img' x = img x) :
    Fits img' name z ↔ Fits img name z := by
  have len : ∀ y, z ≤ y → dReclen img' y = dReclen img y := fun y le => dReclen_congr fun i hi => same _ (by omega)
  have ino : dIno img' z = dIno img z := dIno_congr fun i hi => same _ (by omega)
  have nam : dNamlen img' z = dNamlen img z := dNamlen_congr (same _ (by omega))
  unfold Fits absorbedLen
  simp only [absorbs_congr same, ino, nam, len z (le_refl z), len _ (Nat.le_add_right ..)]

theorem visited_congr {img img' : Buf} (lo : Nat) (same : ∀ x, lo ≤ x → img' x = img x) : ∀ zs : List Nat,
    (∀ z ∈ zs, lo ≤ z) → visited img' zs = visited img zs
  | [], _ => rfl
  | [p], _ => rfl
  | p :: q :: rest, above => by
      have here : Absorbs img' p ↔ Absorbs img p :=
        absorbs_congr fun x le => same x ((above p List.mem_cons_self).trans le)
      rw [visited, visited, visited_congr lo same rest fun z mem => above z (by simp [mem]),
        visited_congr lo same (q :: rest) fun z mem => above z (List.mem_cons_of_mem _ mem)]
      simp only [here]

theorem mem_of_visited (img : Buf) : ∀ {zs : List Nat} {z}, z ∈ visited img zs → z ∈ zs
  | [], _, mem => mem
  | [p], _, mem => mem
  | p :: q :: rest, z, mem => by
      rw [visited] at mem
      split at mem
      · rcases List.mem_cons.mp mem with rfl | later
        · exact List.mem_cons_self
        · exact List.mem_cons_of_mem _ (List.mem_cons_of_mem _ (mem_of_visited img later))
      · rcases List.mem_cons.mp mem with rfl | later
        · exact List.mem_cons_self
        · exact List.mem_cons_of_mem _ (mem_of_visited img later)

/-- The walk comes to an unused record with room for the name. -/
theorem Scan.fill {img : Buf} {p : Nat} {xs ws : List Nat} {done : Bool} {ret : Int}
    (image : DirImage img size (xs ++ p :: ws)) (whole : dirblksiz ∣ size) (short : name.length ≤ maxnamlen)
    (named : ino ≠ 0) (number : ino < 2 ^ 32) (unused : dIno img p = 0) (fits : Fits img name p) :
    ∃ img' offs', Scan fs size (linkProc name ino flags) p img done ret (0, img', true) ∧ DirImage img' size offs' ∧
      (dirEntries img' offs').Perm ((name, ino) :: dirEntries img (xs ++ p :: ws)) := by
  obtain ⟨ok, within, inside⟩ := image.member
  obtain ⟨image₁, entries₁⟩ := image.absorb whole
  have room : ufsDirRecLen name.length ≤ dReclen (absorbed img p) p := by
    rw [absorbed_dReclen ok]
    rw [Fits, if_neg (not_not.mpr unused)] at fits
    exact fits
  obtain ⟨image₂, entries₂⟩ := image₁.fill short named number ((absorbed_dIno img p).trans unused) room
  exact ⟨_, _, .stops ok within (linkProc_fills whole inside ok unused fits) (by decide), image₂,
    entries₁ ▸ entries₂⟩

/-- The walk comes to a record with room for the name. -/
theorem Scan.enter {img : Buf} {p : Nat} {xs ws : List Nat} {ret : Int}
    (image : DirImage img size (xs ++ p :: ws)) (whole : dirblksiz ∣ size) (short : name.length ≤ maxnamlen)
    (named : ino ≠ 0) (number : ino < 2 ^ 32) (fits : Fits img name p) :
    ∃ img' offs', Scan fs size (linkProc name ino flags) p img false ret (0, img', true) ∧ DirImage img' size offs' ∧
      (dirEntries img' offs').Perm ((name, ino) :: dirEntries img (xs ++ p :: ws)) := by
  by_cases unused : dIno img p = 0
  · exact Scan.fill image whole short named number unused fits
  · obtain ⟨ok, within, inside⟩ := image.member
    obtain ⟨image₁, entries₁⟩ := image.absorb whole
    have room : ufsDirRecLen (dNamlen img p) + ufsDirRecLen name.length ≤ absorbedLen img p := by
      rw [Fits, if_pos unused] at fits
      exact fits
    have least : 12 ≤ ufsDirRecLen name.length := by
      unfold ufsDirRecLen
      omega
    have step : RecordStep fs size (linkProc name ino flags) p img false _ _ _ := linkProc_splits whole inside ok unused fits
    rw [← absorbed_dReclen ok, ← absorbed_dNamlen img p] at room step
    obtain ⟨image₂, entries₂, len, free, rest⟩ := image₁.split (by rw [absorbed_dIno]; exact unused) room least
    set m := ufsDirRecLen (dNamlen (absorbed img p) p) with hm
    set img₂ := splitRecord (absorbed img p) p (dReclen (absorbed img p) p) m with himg
    obtain ⟨ok₂, within₂, -⟩ := image₂.member
    have shape : xs ++ p :: (p + m) :: restAfter img p ws = (xs ++ [p]) ++ (p + m) :: restAfter img p ws := by simp
    rw [shape] at image₂ entries₂
    have fits₂ : Fits img₂ name (p + m) := by
      rw [Fits, if_neg (not_not.mpr free)]
      refine le_trans ?_ (le_absorbedLen img₂ (p + m))
      rw [rest]
      omega
    obtain ⟨img', offs', scan, image', entries'⟩ :=
      (Scan.fill image₂ whole short named number free fits₂ :
        ∃ img' offs', Scan fs size (linkProc name ino flags) (p + m) img₂ false direntChanged (0, img', true) ∧ _ ∧ _)
    rw [← len] at scan
    exact ⟨img', offs', .goes ok within step (by decide) ok₂ within₂ scan, image',
      entries'.trans (by rw [entries₂, entries₁])⟩

/-- What the walk does with the rest of the directory: it enters the name if it comes to a record with
    room, and otherwise only takes records in. -/
theorem link_scan (whole : dirblksiz ∣ size) (short : name.length ≤ maxnamlen) (named : ino ≠ 0)
    (number : ino < 2 ^ 32) : ∀ n (zs : List Nat), zs.length ≤ n → ∀ xs img p ret, DirImage img size (xs ++ zs) →
    Tiles (dReclen img) p zs size →
    ((∃ z ∈ visited img zs, Fits img name z) →
      ∃ img' offs', Scan fs size (linkProc name ino flags) p img false ret (0, img', true) ∧
        DirImage img' size offs' ∧ (dirEntries img' offs').Perm ((name, ino) :: dirEntries img (xs ++ zs))) ∧
    ((∀ z ∈ visited img zs, ¬ Fits img name z) →
      ∃ img' offs', Scan fs size (linkProc name ino flags) p img false ret
          (((visited img zs).getLast?.map (absorbRet img)).getD ret, img', false) ∧
        DirImage img' size offs' ∧ dirEntries img' offs' = dirEntries img (xs ++ zs)) := by
  intro n
  induction n with
  | zero =>
      intro zs none xs img p ret image tiles
      obtain rfl : zs = [] := List.length_eq_zero_iff.mp (by omega)
      cases tiles
      exact ⟨(fun ⟨z, mem, _⟩ => by cases mem), fun _ => ⟨img, _, .ends img false ret, image, rfl⟩⟩
  | succ n ih =>
      intro zs some xs img p ret image tiles
      cases zs with
      | nil =>
          cases tiles
          exact ⟨(fun ⟨z, mem, _⟩ => by cases mem), fun _ => ⟨img, _, .ends img false ret, image, rfl⟩⟩
      | cons q ws =>
          obtain rfl := tiles.head_eq
          by_cases fits : Fits img name q
          · refine ⟨fun _ => Scan.enter image whole short named number fits, fun all => ?_⟩
            rw [visited_cons] at all
            exact absurd fits (all q List.mem_cons_self)
          · obtain ⟨ok, within, inside⟩ := image.member
            obtain ⟨image', entries⟩ := image.absorb whole
            obtain ⟨ok', within', -⟩ := image'.member
            have step : RecordStep fs size (linkProc name ino flags) q img false _ _ _ := linkProc_stays whole inside ok fits
            have head := ok.head
            have same : ∀ x, q + 8 ≤ x → absorbed img q x = img x := fun x le => absorbed_outside img (by omega)
            have tail : ∀ z ∈ restAfter img q ws, z ∈ ws := by
              intro z mem
              unfold restAfter at mem
              split at mem
              · exact List.mem_of_mem_tail mem
              · exact mem
            have above : ∀ z ∈ restAfter img q ws, q + 8 ≤ z := fun z mem => by
              have := tiles.head_lt (tail z mem)
              omega
            have shape : xs ++ q :: restAfter img q ws = (xs ++ [q]) ++ restAfter img q ws := by simp
            rw [shape] at image' entries
            have fewer : (restAfter img q ws).length ≤ n := by
              have : (q :: ws).length = ws.length + 1 := List.length_cons
              unfold restAfter
              split
              · rw [List.length_tail]
                omega
              · omega
            have tiles' : Tiles (dReclen (absorbed img q)) (q + dReclen (absorbed img q) q) (restAfter img q ws) size := by
              rw [← shape] at image'
              exact image'.tiles.split_at.2.2
            obtain ⟨enters, passes⟩ := ih (restAfter img q ws) fewer (xs ++ [q]) (absorbed img q) _ (absorbRet img q)
              image' tiles'
            have fewerSame := visited_congr (q + 8) same (restAfter img q ws) above
            have fitsSame : ∀ z ∈ visited img (restAfter img q ws), (Fits (absorbed img q) name z ↔ Fits img name z) :=
              fun z mem => fits_congr fun x le => same x ((above z (mem_of_visited img mem)).trans le)
            have goes : hasBit (absorbRet img q) 1 = false := by
              unfold absorbRet
              split <;> decide
            rw [fewerSame] at enters passes
            rw [entries] at enters passes
            rw [visited_cons]
            refine ⟨fun slot => ?_, fun all => ?_⟩
            · obtain ⟨z, mem, fit⟩ := slot
              rcases List.mem_cons.mp mem with rfl | later
              · exact absurd fit fits
              · obtain ⟨img', offs', scan, rest⟩ := enters ⟨z, later, (fitsSame z later).mpr fit⟩
                exact ⟨img', offs', .goes ok within step goes ok' within' scan, rest⟩
            · obtain ⟨img', offs', scan, rest⟩ := passes fun z mem fit =>
                all z (List.mem_cons_of_mem _ mem) ((fitsSame z mem).mp fit)
              refine ⟨img', offs', .goes ok within step goes ok' within' ?_, rest⟩
              have value : (((q :: visited img (restAfter img q ws)).getLast?).map (absorbRet img)).getD ret
                  = ((visited img (restAfter img q ws)).getLast?.map (absorbRet (absorbed img q))).getD (absorbRet img q) := by
                rw [List.getLast?_cons]
                cases last : (visited img (restAfter img q ws)).getLast? with
                | none => rfl
                | some z =>
                    have le := (above z (mem_of_visited img (List.mem_of_getLast? last)))
                    have here := absorbs_congr fun x le' => same x (le.trans le')
                    simp only [Option.map_some, Option.getD_some, absorbRet, here]
              rw [value]
              exact scan

end Scans

end FuseUfs
