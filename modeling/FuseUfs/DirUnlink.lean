import FuseUfs.DirHold

/-! # Removing a name from a directory

`ufs_unlink` gives the record of the name to the record before it, and remembers for that the
last record in use that it has seen. When the record directly before it is not in use, that is
another one: the record grows by the wrong amount, or there is none and the process dies.
-/

namespace FuseUfs

open Lib Prog

/-! ## One record -/

section Records

variable {fs : Superblock} {img buf : Buf} {size p ino : Nat} {name : List Byte} {prev : Option Nat}

/-- What the procedure reads of a record. -/
theorem ShowsBlock.fields (shows : ShowsBlock fs size (p / fs.fsBsize) img buf) (ok : RecordOk img p)
    (within : p + dReclen img p ≤ size) :
    dIno buf (p % fs.fsBsize) = dIno img p ∧ dReclen buf (p % fs.fsBsize) = dReclen img p ∧
      (dIno img p ≠ 0 → dName buf (p % fs.fsBsize) = dName img p) := by
  have same := shows.record ok within
  have head := ok.head
  refine ⟨dIno_congr fun k hk => same k (by omega), dReclen_congr fun k hk => ?_, fun used => ?_⟩
  · rw [Nat.add_assoc, Nat.add_assoc]
    exact same _ (by omega)
  · have room := name_inside (ok.room used)
    refine dName_congr (same 7 (by omega)) fun k hk => ?_
    rw [Nat.add_assoc, Nat.add_assoc]
    exact same _ (by omega)

/-- The last used record that the procedure has seen once it is past `p`. -/
def prevAfter (fs : Superblock) (img : Buf) (p : Nat) (prev : Option Nat) : Option Nat :=
  if dIno img p = 0 then prev else some (p % fs.fsBsize)

/-- The procedure goes on from a record of another entry. -/
theorem unlinkProc_goes (ok : RecordOk img p) (within : p + dReclen img p ≤ size)
    (other : dirEntry img p ≠ some (name, ino)) (named : ino ≠ 0) :
    RecordStep fs size (unlinkProc name ino) p img prev 0 img (prevAfter fs img p prev) := by
  refine ⟨fun buf shows => ⟨buf, ?_, shows⟩, fun _ => rfl, fun _ _ => rfl⟩
  obtain ⟨sameIno, -, sameName⟩ := shows.fields ok within
  unfold unlinkProc prevAfter
  by_cases unused : dIno img p = 0
  · rw [sameIno, if_pos unused, if_pos unused]
  · have differs : dName img p ≠ name ∨ (ino ≠ 0 ∧ dIno img p ≠ ino) := by
      rw [dirEntry, if_neg unused] at other
      by_cases same : dName img p = name
      · refine .inr ⟨named, fun e => other ?_⟩
        rw [same, e]
      · exact .inl same
    rw [sameIno, sameName unused, if_neg unused, if_neg unused, if_pos differs]

/-- The record of the name. -/
theorem unlinkProc_found (ok : RecordOk img p) (within : p + dReclen img p ≤ size) (named : ino ≠ 0)
    (entry : dirEntry img p = some (name, ino)) (shows : ShowsBlock fs size (p / fs.fsBsize) img buf) :
    unlinkProc name ino buf (p % fs.fsBsize) prev
      = if p % dirblksiz ≠ 0 then
          match prev with
          | none => none
          | some q => some (direntAbort + direntChanged,
              setReclen buf q (dReclen buf q + dReclen img p), some (p % fs.fsBsize))
        else some (direntAbort + direntChanged, setIno buf (p % fs.fsBsize) 0, some (p % fs.fsBsize)) := by
  obtain ⟨sameIno, sameLen, sameName⟩ := shows.fields ok within
  have used : dIno img p ≠ 0 := by
    intro unused
    rw [dirEntry, if_pos unused] at entry
    cases entry
  rw [dirEntry, if_neg used] at entry
  obtain ⟨rfl, rfl⟩ := Prod.mk.inj (Option.some.inj entry)
  have same : ¬ (dName img p ≠ dName img p ∨ (dIno img p ≠ 0 ∧ dIno img p ≠ dIno img p)) := by simp
  have first : p % fs.fsBsize % dirblksiz = p % dirblksiz := Nat.mod_mod_of_dvd p (dirblksiz_dvd fs)
  unfold unlinkProc
  cases prev with
  | none => simp only [sameIno, sameName used, if_neg used, if_neg same, sameLen, first]
  | some q => simp only [sameIno, sameName used, if_neg used, if_neg same, sameLen, first]

/-- The first record of 512 bytes falls out of use. -/
theorem unlinkProc_clears (ok : RecordOk img p) (within : p + dReclen img p ≤ size) (named : ino ≠ 0)
    (entry : dirEntry img p = some (name, ino)) (first : p % dirblksiz = 0) :
    RecordStep fs size (unlinkProc name ino) p img prev 3 (setIno img p 0) (some (p % fs.fsBsize)) := by
  have head := ok.head
  have inBlock := ok.inBlock fs
  refine ⟨fun buf shows => ⟨_, (unlinkProc_found ok within named entry shows).trans ?_, shows.putLe 0 4 0⟩,
    fun quiet => absurd quiet (by decide), fun x other => putLe_frame (d := 0) (by omega) other⟩
  rw [if_neg (by omega)]
  rfl

/-- Records that follow one another in 512 bytes are in one block of the file. -/
theorem RecordOk.next {q : Nat} (fs : Superblock) (ok : RecordOk img q) (next : q + dReclen img q = p)
    (inner : p % dirblksiz ≠ 0) : p / fs.fsBsize = q / fs.fsBsize ∧ p % fs.fsBsize = q % fs.fsBsize + dReclen img q := by
  have inBlock := ok.inBlock fs
  have parts := Nat.div_add_mod' q fs.fsBsize
  have short : q % fs.fsBsize + dReclen img q < fs.fsBsize := by
    refine Nat.lt_of_le_of_ne inBlock fun full => inner ?_
    have whole : p = (q / fs.fsBsize + 1) * fs.fsBsize := by
      rw [Nat.succ_mul]
      omega
    rw [whole]
    exact Nat.mod_eq_zero_of_dvd ((dirblksiz_dvd fs).mul_left _)
  have place := block_parts fs (q / fs.fsBsize) short
  rwa [← Nat.add_assoc, parts, next] at place

/-- Any other record goes to the one before it. -/
theorem unlinkProc_joins {q : Nat} (okQ : RecordOk img q) (next : q + dReclen img q = p) (ok : RecordOk img p)
    (within : p + dReclen img p ≤ size) (named : ino ≠ 0) (entry : dirEntry img p = some (name, ino))
    (inner : p % dirblksiz ≠ 0) :
    RecordStep fs size (unlinkProc name ino) p img (some (q % fs.fsBsize)) 3
      (setReclen img q (dReclen img q + dReclen img p)) (some (p % fs.fsBsize)) := by
  obtain ⟨block, place⟩ := okQ.next fs next inner
  have head := okQ.head
  have inBlock := okQ.inBlock fs
  refine ⟨fun buf shows => ?_, fun quiet => absurd quiet (by decide), fun x other => ?_⟩
  · rw [block] at shows ⊢
    have len := (shows.fields okQ (by omega)).2.1
    refine ⟨setReclen buf (q % fs.fsBsize) (dReclen img q + dReclen img p), ?_, ?_⟩
    · refine (unlinkProc_found ok within named entry (by rw [block]; exact shows)).trans ?_
      rw [if_pos inner]
      simp only [len]
      rfl
    · exact shows.putLe 4 2 _
  · rw [block] at other
    exact putLe_frame (by omega) other

end Records

/-! ## The walk to the record -/

section Walk

variable {fs : Superblock} {img : Buf} {size p t ino : Nat} {name : List Byte} {prev : Option Nat} {ret : Int}
  {final : Int × Buf × Option Nat}

/-- The walk over records that are not of this entry. -/
theorem Scan.skip (named : ino ≠ 0) : ∀ {zs p prev ret}, Tiles (dReclen img) p zs t → t ≤ size →
    (∀ z ∈ zs, RecordOk img z ∧ dirEntry img z ≠ some (name, ino)) →
    (∀ prev' ret', (zs = [] → prev' = prev) →
      (∀ ws q, zs = ws ++ [q] → dIno img q ≠ 0 → prev' = some (q % fs.fsBsize)) →
      Scan fs size (unlinkProc name ino) t img prev' ret' final) →
    Scan fs size (unlinkProc name ino) p img prev ret final
  | [], p, prev, ret, tiles, below, others, rest => by
      cases tiles with
      | nil => exact rest prev ret (fun _ => rfl) fun ws q none => by simp at none
  | z :: zs, p, prev, ret, tiles, below, others, rest => by
      obtain rfl := tiles.head_eq
      obtain ⟨ok, other⟩ := others z List.mem_cons_self
      have within : z + dReclen img z ≤ size := tiles.tail.le.trans below
      refine .goes ok within (unlinkProc_goes ok within other named) (by decide) ok within ?_
      refine skip named tiles.tail below (fun y mem => others y (List.mem_cons_of_mem _ mem))
        fun prev' ret' stays last => rest prev' ret' (fun none => by cases none) fun ws q parts used => ?_
      cases ws with
      | nil =>
          obtain ⟨rfl, rfl⟩ := List.cons.inj parts
          rw [stays rfl, prevAfter, if_neg used]
      | cons w ws => exact last ws q (List.cons.inj parts).2 used

end Walk

/-! ## The removal -/

/-- The entry is there once, and its record is the first one in 512 bytes or comes directly after a
    record in use. -/
structure Removable (img : Buf) (offs : List Nat) (e : Entry) : Prop where
  once : (dirEntries img offs).count e = 1
  reached : ∀ xs t ys, offs = xs ++ t :: ys → dirEntry img t = some e →
    t % dirblksiz = 0 ∨ ∃ ws q, xs = ws ++ [q] ∧ dIno img q ≠ 0

/-- A removal as it should be: 0 is returned, and the directory is left well-formed with the entry
    gone and the others as they were. -/
def Unlinks (env : Env) (fs : Superblock) (s : State) (dir : Nat) (img : Buf) (offs : List Nat) (e : Entry) : Prop :=
  ∃ s' img' offs', ufsUnlink env fs dir e.1 e.2 s = .done 0 s' ∧ DirAt fs s' dir img' ∧
    DirImage img' (s'.dirSize dir) offs' ∧ e ∉ dirEntries img' offs' ∧
    dirEntries img' offs' = (dirEntries img offs).erase e

section Remove

variable {env : Env} {fs : Superblock} {s : State} {dir size : Nat} {img : Buf} {offs : List Nat} {e : Entry}

/-- The only record of an entry. -/
theorem Removable.split (removable : Removable img offs e) :
    ∃ xs t ys, offs = xs ++ t :: ys ∧ dirEntry img t = some e ∧ e ∉ dirEntries img xs ∧ e ∉ dirEntries img ys := by
  have once := removable.once
  have bound : e ∈ dirEntries img offs := List.count_pos_iff.mp (by omega)
  obtain ⟨t, mem, entry⟩ := List.mem_filterMap.mp bound
  obtain ⟨xs, ys, rfl⟩ := List.append_of_mem mem
  rw [dirEntries_append, dirEntries_cons, entry, Option.toList_some, List.singleton_append, List.count_append,
    List.count_cons_self] at once
  exact ⟨xs, t, ys, rfl, entry, List.count_eq_zero.mp (by omega), List.count_eq_zero.mp (by omega)⟩

/-- What the walk leaves of the contents. -/
theorem unlink_scan {name : List Byte} {ino : Nat} (image : DirImage img size offs) (named : ino ≠ 0)
    (removable : Removable img offs (name, ino)) :
    ∃ img' offs' prev, Scan fs size (unlinkProc name ino) 0 img none 0 (0, img', prev) ∧ DirImage img' size offs' ∧
      (name, ino) ∉ dirEntries img' offs' ∧ dirEntries img' offs' = (dirEntries img offs).erase (name, ino) := by
  obtain ⟨xs, t, ys, rfl, entry, before, after⟩ := removable.split
  obtain ⟨start, pos, rest⟩ := image.tiles.split_at
  have ok := image.records t (by simp)
  have within := rest.le
  have others : ∀ z ∈ xs, RecordOk img z ∧ dirEntry img z ≠ some (name, ino) := fun z mem =>
    ⟨image.records z (List.mem_append_left _ mem), fun same => before (List.mem_filterMap.mpr ⟨z, mem, same⟩)⟩
  have erased : (dirEntries img (xs ++ t :: ys)).erase (name, ino) = dirEntries img xs ++ dirEntries img ys := by
    rw [dirEntries_append, dirEntries_cons, entry, Option.toList_some, List.singleton_append,
      List.erase_append_right _ before, List.erase_cons_head]
  have gone : (name, ino) ∉ dirEntries img xs ++ dirEntries img ys := by
    rw [List.mem_append]
    exact fun both => both.elim before after
  by_cases first : t % dirblksiz = 0
  · obtain ⟨image', entries⟩ := image.clear
    refine ⟨_, _, some (t % fs.fsBsize), ?_, image', by rw [entries]; exact gone, entries.trans erased.symm⟩
    refine Scan.skip named start (by omega) others fun prev' ret' _ _ => ?_
    exact .stops ok within (unlinkProc_clears ok within named entry first) (by decide)
  · obtain inner | ⟨ws, q, rfl, used⟩ := removable.reached xs t ys rfl entry
    · exact absurd inner first
    · have shape : ws ++ [q] ++ t :: ys = ws ++ q :: t :: ys := by simp
      rw [shape] at image
      obtain ⟨image', entries⟩ := image.merge first
      have okQ := image.records q (by simp)
      have next : q + dReclen img q = t := image.tiles.split_at.2.2.head_eq.symm
      have left : dirEntries img (ws ++ q :: ys) = dirEntries img (ws ++ [q]) ++ dirEntries img ys := by
        rw [← dirEntries_append, List.append_assoc, List.singleton_append]
      rw [left] at entries
      refine ⟨_, _, some (t % fs.fsBsize), ?_, image', by rw [entries]; exact gone, entries.trans erased.symm⟩
      refine Scan.skip named start (by omega) others fun prev' ret' _ last => ?_
      rw [last ws q rfl used]
      exact .stops ok within (unlinkProc_joins okQ next ok within named entry first) (by decide)

end Remove

/-- The second 512 bytes of a directory from which the first of two names has been removed. -/
def staleBlock : Buf :=
  let buf : Buf := fun _ => 0
  let buf := setReclen buf 0 12
  let buf := setIno buf 12 5
  let buf := setReclen buf 12 500
  let buf := setNamlen buf 12 1
  putName buf 20 1 [0x62]

def staleDir : Buf := fun a => if 512 ≤ a ∧ a < 1024 then staleBlock (a - 512) else emptyDir a

def staleOffs : List Nat := [0, 12, 512, 524, 1024, 1536, 2048, 2560, 3072, 3584]

end FuseUfs
