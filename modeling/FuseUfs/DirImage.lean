import FuseUfs.Lib.Tiling
import FuseUfs.Directory

/-! # The contents of a directory

A directory as a sequence of bytes: records one after the other, each of them inside one
block of 512 bytes, so that every such block is tiled by records of its own. What it says is
the list of its entries, the names and inodes of the records in use, in order.
-/

namespace FuseUfs

open Lib

/-- A name and the inode it is bound to. -/
abbrev Entry := List Byte × Nat

/-- The entry of a record in use. -/
def dirEntry (img : Buf) (off : Nat) : Option Entry :=
  if dIno img off = 0 then none else some (dName img off, dIno img off)

def dirEntries (img : Buf) (offs : List Nat) : List Entry := offs.filterMap (dirEntry img)

theorem dirEntries_nil (img : Buf) : dirEntries img [] = [] := rfl

theorem dirEntries_cons (img : Buf) (off : Nat) (offs : List Nat) :
    dirEntries img (off :: offs) = (dirEntry img off).toList ++ dirEntries img offs := by
  cases entry : dirEntry img off <;> simp [dirEntries, entry]

theorem dirEntries_append (img : Buf) (xs ys : List Nat) :
    dirEntries img (xs ++ ys) = dirEntries img xs ++ dirEntries img ys := List.filterMap_append ..

/-- A record with its header, inside its block of 512 bytes, and long enough for its name if it is
    in use. -/
structure RecordOk (img : Buf) (off : Nat) : Prop where
  head : 8 ≤ dReclen img off
  block : off % dirblksiz + dReclen img off ≤ dirblksiz
  room : dIno img off ≠ 0 → ufsDirRecLen (dNamlen img off) ≤ dReclen img off

/-- A well-formed directory of `size` bytes, with its records at `offs`. -/
structure DirImage (img : Buf) (size : Nat) (offs : List Nat) : Prop where
  tiles : Tiles (dReclen img) 0 offs size
  records : ∀ off ∈ offs, RecordOk img off

instance (img : Buf) (off : Nat) : Decidable (RecordOk img off) :=
  decidable_of_iff (8 ≤ dReclen img off ∧ off % dirblksiz + dReclen img off ≤ dirblksiz ∧
      (dIno img off ≠ 0 → ufsDirRecLen (dNamlen img off) ≤ dReclen img off))
    ⟨fun ⟨head, block, room⟩ => ⟨head, block, room⟩, fun ok => ⟨ok.head, ok.block, ok.room⟩⟩

instance (img : Buf) (size : Nat) (offs : List Nat) : Decidable (DirImage img size offs) :=
  decidable_of_iff (Tiles (dReclen img) 0 offs size ∧ ∀ off ∈ offs, RecordOk img off)
    ⟨fun ⟨tiles, records⟩ => ⟨tiles, records⟩, fun image => ⟨image.tiles, image.records⟩⟩

/-! ## The fields of a record -/

section Fields

variable {buf img img' : Buf} {off off' n : Nat}

theorem dIno_congr (same : ∀ i < 4, img' (off' + i) = img (off + i)) : dIno img' off' = dIno img off :=
  leGet_congr same

theorem dReclen_congr (same : ∀ i < 2, img' (off' + 4 + i) = img (off + 4 + i)) :
    dReclen img' off' = dReclen img off :=
  leGet_congr same

theorem dNamlen_congr (same : img' (off' + 7) = img (off + 7)) : dNamlen img' off' = dNamlen img off := by
  rw [dNamlen, dNamlen, same]

theorem dName_congr (len : img' (off' + 7) = img (off + 7))
    (same : ∀ i < dNamlen img off, img' (off' + 8 + i) = img (off + 8 + i)) :
    dName img' off' = dName img off := by
  rw [dName, dName, dNamlen_congr len]
  exact List.map_congr_left fun i mem => same i (List.mem_range.mp mem)

theorem dName_eq {name : List Byte} (len : dNamlen img off = name.length)
    (bytes : ∀ i < name.length, img (off + 8 + i) = name.getD i 0) : dName img off = name := by
  unfold dName
  rw [len]
  refine List.ext_getElem (by simp) fun i small inside => ?_
  simp only [List.getElem_map, List.getElem_range]
  rw [bytes i inside, List.getD_eq_getElem _ _ inside]

theorem dirEntry_congr (ino : ∀ i < 4, img' (off' + i) = img (off + i))
    (len : img' (off' + 7) = img (off + 7))
    (name : dIno img off ≠ 0 → ∀ i < dNamlen img off, img' (off' + 8 + i) = img (off + 8 + i)) :
    dirEntry img' off' = dirEntry img off := by
  unfold dirEntry
  rw [dIno_congr ino]
  split
  · rfl
  · next used => rw [dName_congr len (name used)]

theorem putLe_outside {k v a : Nat} (out : ¬ (off ≤ a ∧ a < off + k)) : putLe img off k v a = img a :=
  if_neg out

theorem leGet_putLe (img : Buf) (off k v : Nat) : leGet (fun i => putLe img off k v (off + i)) k = v % 256 ^ k := by
  rw [← leGet_leByte v k]
  refine leGet_congr fun i hi => ?_
  rw [putLe, if_pos ⟨by omega, by omega⟩, Nat.add_sub_cancel_left]

theorem dReclen_setReclen (img : Buf) (off : Nat) (small : n < 2 ^ 16) : dReclen (setReclen img off n) off = n := by
  have stored := leGet_putLe img (off + 4) 2 n
  rw [Nat.mod_eq_of_lt (by omega)] at stored
  exact stored

theorem dIno_setIno (img : Buf) (off : Nat) (small : n < 2 ^ 32) : dIno (setIno img off n) off = n := by
  have stored := leGet_putLe img off 4 n
  rw [Nat.mod_eq_of_lt (by omega)] at stored
  exact stored

/-- The name of a record in use lies inside the record. -/
theorem name_inside (room : ufsDirRecLen (dNamlen img off) ≤ dReclen img off) :
    8 + dNamlen img off < dReclen img off := by
  unfold ufsDirRecLen at room
  omega

end Fields

/-! ## Changing some records -/

section Change

variable {img img' : Buf} {size a b off : Nat} {offs xs ys : List Nat}

/-- What is outside of a record does not matter to it. -/
theorem RecordOk.congr (ok : RecordOk img off)
    (same : ∀ x, off ≤ x → x < off + dReclen img off → img' x = img x) :
    RecordOk img' off ∧ dReclen img' off = dReclen img off ∧ dirEntry img' off = dirEntry img off := by
  have head := ok.head
  have len : dReclen img' off = dReclen img off := dReclen_congr fun i hi => same _ (by omega) (by omega)
  have ino : dIno img' off = dIno img off := dIno_congr fun i hi => same _ (by omega) (by omega)
  have nam : dNamlen img' off = dNamlen img off := dNamlen_congr (same _ (by omega) (by omega))
  refine ⟨⟨by rw [len]; exact head, by rw [len]; exact ok.block, by rw [ino, nam, len]; exact ok.room⟩, len,
    dirEntry_congr (fun i hi => same _ (by omega) (by omega)) (same _ (by omega) (by omega))
      fun used i hi => ?_⟩
  have := name_inside (ok.room used)
  exact same _ (by omega) (by omega)

theorem RecordOk.le (ok : RecordOk img off) : dReclen img off ≤ 512 := by
  have within := ok.block
  unfold dirblksiz at within
  omega

/-- Records that are replaced by others over the same stretch. -/
theorem DirImage.replace (mid mid' : List Nat) (dir : DirImage img size (xs ++ (mid ++ ys)))
    (old : Tiles (dReclen img) a mid b) (new : Tiles (dReclen img') a mid' b)
    (start : Tiles (dReclen img) 0 xs a)
    (same : ∀ x, x < a ∨ b ≤ x → img' x = img x) (fresh : ∀ z ∈ mid', RecordOk img' z) :
    DirImage img' size (xs ++ (mid' ++ ys)) ∧
      dirEntries img' (xs ++ (mid' ++ ys))
        = dirEntries img xs ++ (dirEntries img' mid' ++ dirEntries img ys) := by
  obtain ⟨a', first, rest⟩ := dir.tiles.split
  obtain rfl : a' = a := start.end_unique first
  obtain ⟨b', second, last⟩ := rest.split
  obtain rfl : b' = b := old.end_unique second
  have early : ∀ z ∈ xs, RecordOk img' z ∧ dReclen img' z = dReclen img z ∧ dirEntry img' z = dirEntry img z := by
    intro z mem
    refine (dir.records z (List.mem_append_left _ mem)).congr fun x low high => same x (.inl ?_)
    have := (first.bounds mem).2.2
    omega
  have late : ∀ z ∈ ys, RecordOk img' z ∧ dReclen img' z = dReclen img z ∧ dirEntry img' z = dirEntry img z := by
    intro z mem
    refine (dir.records z (List.mem_append_right _ (List.mem_append_right _ mem))).congr
      fun x low high => same x (.inr ?_)
    have := (last.bounds mem).1
    omega
  refine ⟨⟨(first.congr fun z mem => (early z mem).2.1).append
    (new.append (last.congr fun z mem => (late z mem).2.1)), fun z mem => ?_⟩, ?_⟩
  · rcases List.mem_append.mp mem with mem | mem
    · exact (early z mem).1
    · rcases List.mem_append.mp mem with mem | mem
      · exact fresh z mem
      · exact (late z mem).1
  · rw [dirEntries, List.filterMap_append, List.filterMap_append]
    rw [List.filterMap_congr fun z mem => (early z mem).2.2,
      List.filterMap_congr (l := ys) fun z mem => (late z mem).2.2]
    rfl

/-- A record takes in the one after it in the same block. -/
theorem DirImage.merge {p q : Nat} (dir : DirImage img size (xs ++ p :: q :: ys))
    (inner : q % dirblksiz ≠ 0) :
    DirImage (setReclen img p (dReclen img p + dReclen img q)) size (xs ++ p :: ys) ∧
      dirEntries (setReclen img p (dReclen img p + dReclen img q)) (xs ++ p :: ys)
        = dirEntries img (xs ++ p :: ys) := by
  set n := dReclen img p + dReclen img q with hn
  obtain ⟨start, pos, after⟩ := dir.tiles.split_at
  have next : q = p + dReclen img p := after.head_eq
  have okP := dir.records p (by simp)
  have okQ := dir.records q (by simp)
  have within : p % dirblksiz + n ≤ dirblksiz := by
    have := okP.block
    have := okQ.block
    unfold dirblksiz at *
    omega
  have small : n < 2 ^ 16 := by
    unfold dirblksiz at within
    omega
  have headP := okP.head
  have headQ := okQ.head
  have same : ∀ x, ¬ (p + 4 ≤ x ∧ x < p + 6) → setReclen img p n x = img x := fun x out => putLe_outside out
  have len : dReclen (setReclen img p n) p = n := dReclen_setReclen img p small
  have ino : dIno (setReclen img p n) p = dIno img p := dIno_congr fun i hi => same _ (by omega)
  have nam : dNamlen (setReclen img p n) p = dNamlen img p := dNamlen_congr (same _ (by omega))
  have entry : dirEntry (setReclen img p n) p = dirEntry img p :=
    dirEntry_congr (fun i hi => same _ (by omega)) (same _ (by omega)) fun _ i hi => same _ (by omega)
  have fresh : RecordOk (setReclen img p n) p := by
    refine ⟨by omega, by rw [len]; exact within, fun used => ?_⟩
    rw [ino] at used
    rw [nam, len]
    exact (okP.room used).trans (by omega)
  have old : Tiles (dReclen img) p [p, q] (p + n) := by
    refine .cons pos (next ▸ .cons (by omega) ?_)
    rw [next, hn, next, Nat.add_assoc]
    exact .nil _
  have new : Tiles (dReclen (setReclen img p n)) p [p] (p + n) := by
    refine .cons (by omega) ?_
    rw [len]
    exact .nil _
  obtain ⟨ok, entries⟩ := DirImage.replace [p, q] [p] dir old new start
    (fun x out => same x (by omega)) fun z mem => by
      obtain rfl := List.mem_singleton.mp mem
      exact fresh
  refine ⟨ok, entries.trans ?_⟩
  rw [dirEntries_cons, dirEntries_nil, List.append_nil, entry, dirEntries_append, dirEntries_cons]

/-- A record falls out of use. -/
theorem DirImage.clear {p : Nat} (dir : DirImage img size (xs ++ p :: ys)) :
    DirImage (setIno img p 0) size (xs ++ p :: ys) ∧
      dirEntries (setIno img p 0) (xs ++ p :: ys) = dirEntries img xs ++ dirEntries img ys := by
  obtain ⟨start, pos, after⟩ := dir.tiles.split_at
  have ok := dir.records p (by simp)
  have head := ok.head
  have same : ∀ x, ¬ (p ≤ x ∧ x < p + 4) → setIno img p 0 x = img x := fun x out => putLe_outside out
  have len : dReclen (setIno img p 0) p = dReclen img p := dReclen_congr fun i hi => same _ (by omega)
  have ino : dIno (setIno img p 0) p = 0 := dIno_setIno img p (by norm_num)
  have fresh : RecordOk (setIno img p 0) p :=
    ⟨by omega, by rw [len]; exact ok.block, fun used => absurd ino used⟩
  have old : Tiles (dReclen img) p [p] (p + dReclen img p) := .cons pos (.nil _)
  have new : Tiles (dReclen (setIno img p 0)) p [p] (p + dReclen img p) := by
    refine .cons (by omega) ?_
    rw [len]
    exact .nil _
  obtain ⟨ok', entries⟩ := DirImage.replace [p] [p] dir old new start
    (fun x out => same x (by omega)) fun z mem => by
      obtain rfl := List.mem_singleton.mp mem
      exact fresh
  refine ⟨ok', entries.trans ?_⟩
  rw [dirEntries_cons, dirEntries_nil, dirEntry, if_pos ino]
  rfl

end Change

end FuseUfs
