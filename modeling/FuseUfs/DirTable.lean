import FuseUfs.DirOwn
import FuseUfs.DirReaders
import FuseUfs.DirUnlink

/-! # A directory as a table of names

A directory is there to bind names to inodes. Names are entered and removed, with look-ups in between,
in any order and any number: what the readers see is the table of the names that have been entered and
not removed. A name goes into a record with room or into 512 bytes that the directory grows by, so that
the order of the entries is not that of the calls, and only their names keep them apart.
-/

namespace FuseUfs

open Lib Prog

/-! ## A directory in order -/

/-- A directory in order that can be changed, with its records at `offs`. -/
structure DirReady (fs : Superblock) (s : State) (dir : Nat) (img : Buf) (offs : List Nat) : Prop where
  owned : OwnedAt fs s dir img
  dsize : (s.inCore dir).inode.iDin2.diSize = s.dirSize dir
  /-- Positions are kept in an `int`. -/
  small : s.dirSize dir < 2 ^ 31
  /-- A vnode in core is in use. -/
  held : ∀ v, s.vnodes dir = some v → 0 < v.count
  linked : 0 < (s.inCore dir).inode.iNlink
  writable : s.fsRonly = false
  image : DirImage img (s.dirSize dir) offs

/-- A table of names: no name is bound twice, and every name is a string. -/
structure NameTable (table : List Entry) : Prop where
  distinct : (table.map Prod.fst).Nodup
  strings : ∀ e ∈ table, (0 : Byte) ∉ e.1

/-- The directory binds the names of the table, and no others. -/
def Binds (fs : Superblock) (s : State) (dir : Nat) (table : List Entry) : Prop :=
  NameTable table ∧ ∃ img offs, DirReady fs s dir img offs ∧ (dirEntries img offs).Perm table

section Ready

variable {env : Env} {fs : Superblock} {s s' : State} {dir size : Nat} {img img' : Buf} {offs offs' : List Nat}

/-- On a device this small no block is at the address at which `ufs_bmap` exits. -/
theorem OwnedDir.clean {v : Vnode} (device : fs.fsSize ≤ poisonBlock) (file : OwnedDir fs s dir v img) (b : Nat) :
    fileAddr fs s v (.data b) ≠ poisonBlock := by
  by_cases hole : fileAddr fs s v (.data b) = 0
  · rw [hole]
    decide
  · have inside : b * fs.fsBsize < v.inode.iSize := Nat.lt_of_not_le fun past => hole (file.ends b past)
    have width : 0 < slotWidth fs (fs.ownFrags v.inode.iSize) (.data b) := (dirLen_eq fs inside).1
    have used := file.owned.used (.data b) (fileAddr fs s v (.data b)) ⟨hole, le_rfl, Nat.lt_add_of_pos_right width⟩
    exact Nat.ne_of_lt (Nat.lt_of_lt_of_le used.2.2 device)

theorem DirReady.dirAt (device : fs.fsSize ≤ poisonBlock) (ready : DirReady fs s dir img offs) :
    DirAt fs s dir img where
  file := ⟨ready.owned.file.toFileInv, ready.dsize, ready.owned.file.range, ready.small,
    ready.owned.file.clean device, ready.owned.file.bytes⟩
  cache := ready.owned.cache
  numbered := ready.owned.numbered
  held := ready.held
  linked := .inl ready.linked

/-- The same bytes are the same records. -/
theorem DirImage.unique (image : DirImage img size offs) (image' : DirImage img' size offs')
    (same : ∀ p < size, img' p = img p) : offs' = offs ∧ dirEntries img' offs' = dirEntries img offs := by
  have alike : ∀ z ∈ offs, RecordOk img' z ∧ dReclen img' z = dReclen img z ∧ dirEntry img' z = dirEntry img z := by
    intro z mem
    refine (image.records z mem).congr fun x low high => same x ?_
    exact Nat.lt_of_lt_of_le high (image.tiles.bounds mem).2.2
  obtain rfl : offs' = offs := image'.tiles.unique (image.tiles.congr fun z mem => (alike z mem).2.1)
  exact ⟨rfl, List.filterMap_congr fun z mem => (alike z mem).2.2⟩

/-- A walk that changes records, and leaves the directory well-formed. -/
theorem DirReady.walked (ready : DirReady fs s dir img offs) (at' : DirAt fs s' dir img') (walked : Walked s s')
    (addr : fileAddr fs s' (s.inCore dir) = fileAddr fs s (s.inCore dir))
    (image : DirImage img' (s.dirSize dir) offs') : DirReady fs s' dir img' offs' := by
  have size : s'.dirSize dir = s.dirSize dir := walked.dirSize dir
  have same : s'.inCore dir = s.inCore dir := walked.inCore dir
  have file := ready.owned.file
  have there : fileAddr fs (s'.setVnode dir (s'.inCore dir)) (s'.inCore dir)
      = fileAddr fs (s.setVnode dir (s.inCore dir)) (s.inCore dir) := by
    rw [same]
    exact addr
  have owned : OwnedDir fs (s'.setVnode dir (s'.inCore dir)) dir (s'.inCore dir) img' := by
    refine ⟨at'.file.toFileInv, at'.file.range, ?_, ?_, ?_, at'.file.bytes⟩
    · rw [same]
      exact file.whole
    · rw [there, same]
      exact file.mapped
    · rw [there, same]
      exact file.ends
  refine ⟨⟨owned, at'.cache, at'.numbered, at'.linked⟩, at'.file.dsize, by rw [size]; exact ready.small, at'.held, ?_, ?_,
    by rw [size]; exact image⟩
  · rw [same]
    exact ready.linked
  · obtain ⟨t, l, d, b, lo, hi, rfl⟩ := walked
    exact ready.writable

/-- A look-up leaves the directory as it is. -/
theorem DirReady.looked (device : fs.fsSize ≤ poisonBlock) (ready : DirReady fs s dir img offs)
    (looked : Looked fs s s') : DirReady fs s' dir img offs := by
  have at' := ready.dirAt device
  have walked : Walked s s' := ⟨s'.tick, s'.log, s.data, s'.dInoblock, s'.dInomin, s'.dInomax, looked.frame⟩
  have data : s'.data = s.data := by rw [looked.frame]
  have file : DirFile fs (s'.setVnode dir (s'.inCore dir)) dir (s'.inCore dir) img := by
    refine at'.file.moved (Function.update_self ..) (by rw [looked.inCore]) ?_
    rw [looked.frame]
    rfl
  refine ready.walked ⟨file, looked.cache, at'.numbered, ?_, ?_⟩ walked ?_ ready.image
  · rw [looked.vnodes]
    exact at'.held
  · rw [looked.inCore]
    exact at'.linked
  · rw [fileAddr, data, fileAddr]

/-- The records do not depend on what is past the end. -/
theorem DirReady.seen (ready : DirReady fs s dir img offs) (contains : Contains fs s dir img')
    (image : DirImage img' (s.dirSize dir) offs') :
    DirReady fs s dir img' offs' ∧ dirEntries img' offs' = dirEntries img offs := by
  have file := ready.owned.file
  have same : ∀ p < s.dirSize dir, img' p = img p := fun p inside =>
    (contains p inside).symm.trans (file.bytes p inside)
  refine ⟨⟨⟨⟨file.toFileInv, file.range, file.whole, file.mapped, file.ends, contains⟩, ready.owned.cache,
    ready.owned.numbered, ready.owned.linked⟩, ready.dsize, ready.small, ready.held, ready.linked, ready.writable, image⟩,
    (ready.image.unique image same).2⟩

/-! ## Growing -/

/-- A directory that is given back dirty has its size on the device. -/
theorem vnodePut_synced (io : env.InoOk) {v : Vnode} {r : Int} (cache : InoCache fs s) (there : s.vnodes dir = some v)
    (linked : 0 < v.inode.iNlink) (run : vnodePut env fs dir true s = .done r s') :
    (s'.inCore dir).inode.iDin2.diSize = s'.dirSize dir ∧ (s'.inCore dir).inode.iNlink = v.inode.iNlink ∧
      (∀ w, s'.vnodes dir = some w → 0 < w.count) ∧ s'.fsRonly = s.fsRonly := by
  have here : (s.setVnode dir (v.dropped fs true)).vnodes dir = some (v.dropped fs true) := Function.update_self ..
  obtain ⟨s₁, wrote, written⟩ := ufsWriteInode_ok io (cache.core (setVnode_core _)) here
  have ronly : s₁.fsRonly = s.fsRonly := by
    rw [written.frame]
    rfl
  unfold vnodePut at run
  rw [Prog.get_bind_apply, there] at run
  simp only [Prog.modify_bind_apply] at run
  by_cases last : v.count - 1 = 0
  · have alive : ¬ (v.dropped fs true).inode.iNlink < 1 := by
      change ¬ v.inode.iNlink < 1
      omega
    rw [if_pos last, lastPut, if_neg alive, if_pos rfl, Prog.bind_of_done wrote] at run
    obtain rfl : s' = { s₁ with vnodes := Function.update s₁.vnodes dir none } := by
      cases run
      rfl
    have found : State.inCore { s₁ with vnodes := Function.update s₁.vnodes dir none } dir
        = ⟨copyOndiskToIncore (copyIncoreToOndisk fs (v.dropped fs true).inode).iDin2 dir, 0⟩ := by
      unfold State.inCore
      simp only [Function.update_self, Option.getD_none, written.dinodes]
    refine ⟨?_, ?_, fun w back => ?_, ronly⟩
    · rw [State.dirSize, found]
      rfl
    · rw [found]
      rfl
    · dsimp only at back
      rw [Function.update_self] at back
      cases back
  · rw [if_neg last] at run
    simp only [if_true] at run
    rw [wrote] at run
    obtain ⟨-, rfl⟩ := Outcome.done.inj run
    have back : s₁.vnodes dir = some ⟨copyIncoreToOndisk fs (v.dropped fs true).inode, v.count - 1⟩ := by
      rw [written.frame]
      exact Function.update_self ..
    have found : s₁.inCore dir = ⟨copyIncoreToOndisk fs (v.dropped fs true).inode, v.count - 1⟩ := by
      rw [State.inCore, back]
      rfl
    refine ⟨?_, ?_, fun w this => ?_, ronly⟩
    · rw [State.dirSize, found]
      rfl
    · rw [found]
      rfl
    · rw [back] at this
      cases this
      exact Nat.pos_of_ne_zero last

/-- 512 bytes more, with the name in them. -/
theorem DirReady.grow (io : env.IoOk) (ready : DirReady fs s dir img offs) (grows : GrowsExactly fs (s.dirSize dir))
    (room : s.dirSize dir + dirblksiz < 2 ^ 31) {name : List Byte} {ino flags : Nat} (short : name.length ≤ maxnamlen)
    (named : ino ≠ 0) (number : ino < 2 ^ 32) (run : ufsDirAppend env fs dir ino flags name s = .done 0 s') :
    ∃ img' offs', DirReady fs s' dir img' offs' ∧ (dirEntries img' offs').Perm ((name, ino) :: dirEntries img offs) := by
  obtain ⟨owned, size, -⟩ := ufsDirAppend_owned io ready.owned grows run
  obtain ⟨image, entries⟩ := ready.image.append ready.owned.file.whole short named number flags
  have left : (s'.inCore dir).inode.iDin2.diSize = s'.dirSize dir ∧ 0 < (s'.inCore dir).inode.iNlink ∧
      (∀ w, s'.vnodes dir = some w → 0 < w.count) ∧ s'.fsRonly = false := by
    obtain ⟨t, l, b, lo, hi, got, cached⟩ := vnodeGet_ok io.toInoOk ready.owned.cache ready.owned.numbered
    set v : Vnode := ⟨(s.inCore dir).inode, (s.inCore dir).count + 1⟩ with hv
    set s₁ : State := { s with
      tick := t, log := l, dInoblock := b, dInomin := lo, dInomax := hi
      vnodes := Function.update s.vnodes dir (some v) } with hs₁
    have file := ready.owned.file
    obtain ⟨inv, -⟩ := file.toFileInv.seen (show s₁.vnodes dir = some v from Function.update_self ..) file.number rfl (by
      rw [hs₁, State.setVnode])
    have file₁ : OwnedDir fs s₁ dir v img := ⟨inv, file.range, file.whole, file.mapped, file.ends, file.bytes⟩
    unfold ufsDirAppend at run
    rw [Prog.bind_of_done got] at run
    obtain ⟨rc, t₁, body, run⟩ := Prog.bind_eq_done.mp run
    obtain ⟨put, t₂, last, run⟩ := Prog.bind_eq_done.mp run
    obtain ⟨rfl, rfl⟩ := Prog.pure_eq_done.mp run
    obtain ⟨v', grown, core, -, -, nlink, -⟩ := appendBody_owned io file₁ grows body
    have alive : 0 < v'.inode.iNlink := by
      rw [nlink]
      exact ready.linked
    have cached₁ : InoCache fs s₁ := ⟨cached.aligned, cached.same⟩
    obtain ⟨dsize, links, held, ronly⟩ := vnodePut_synced io.toInoOk (cached₁.core core) grown.there alive last
    refine ⟨dsize, by rw [links]; exact alive, held, ?_⟩
    rw [ronly, core.ronly]
    exact ready.writable
  obtain ⟨dsize, linked, held, writable⟩ := left
  refine ⟨_, _, ⟨owned, dsize, by rw [size]; exact room, held, linked, writable, by rw [size]; exact image⟩, ?_⟩
  rw [entries]
  exact List.perm_append_singleton _ _

/-! ## Entering and removing -/

/-- A call that has entered the name. -/
theorem DirReady.enter (io : env.IoOk) (device : fs.fsSize ≤ poisonBlock) (ready : DirReady fs s dir img offs)
    (grows : GrowsExactly fs (s.dirSize dir)) (room : s.dirSize dir + dirblksiz < 2 ^ 31) {name : List Byte}
    {ino flags : Nat} (short : name.length ≤ maxnamlen) (named : ino ≠ 0) (number : ino < 2 ^ 32)
    (run : ufsAddnamedir env fs dir name ino flags s = .done 0 s') :
    ∃ img' offs', DirReady fs s' dir img' offs' ∧ (dirEntries img' offs').Perm ((name, ino) :: dirEntries img offs) := by
  obtain ⟨enters, passes⟩ := linkProc_walk io (ready.dirAt device) ready.image ready.owned.file.whole short named number flags
  unfold ufsAddnamedir at run
  rw [Prog.get_bind_apply, if_neg (by rw [ready.writable]; decide)] at run
  by_cases slot : HasSlot img offs name
  · obtain ⟨s₁, img', offs', walk, at', walked, addr, image, perm⟩ := enters slot
    rw [Prog.bind_of_done walk] at run
    cases run
    exact ⟨img', offs', ready.walked at' walked addr image, perm⟩
  · obtain ⟨r, s₁, img', offs', walk, at', walked, addr, image, entries, -⟩ := passes slot
    have ready₁ := ready.walked at' walked addr image
    have size := walked.dirSize dir
    rw [Prog.bind_of_done walk] at run
    dsimp only at run
    split at run
    · next failed => exact absurd (Prog.pure_eq_done.mp run).1 failed
    · rw [if_neg Bool.false_ne_true] at run
      obtain ⟨rc, s₂, appended, run⟩ := Prog.bind_eq_done.mp run
      split at run
      · exact absurd (Prog.pure_eq_done.mp run).1 (by decide)
      · next fine =>
        obtain ⟨-, rfl⟩ := Prog.pure_eq_done.mp run
        rw [not_not.mp fine] at appended
        rw [← entries]
        exact ready₁.grow io (by rw [size]; exact grows) (by rw [size]; exact room) short named number appended

/-- A call that removes an entry. -/
theorem DirReady.remove (io : env.IoOk) (device : fs.fsSize ≤ poisonBlock) (ready : DirReady fs s dir img offs) {e : Entry}
    (removable : Removable img offs e) {r : Int} (run : ufsUnlink env fs dir e.1 e.2 s = .done r s') :
    ∃ img' offs', DirReady fs s' dir img' offs' ∧ dirEntries img' offs' = (dirEntries img offs).erase e := by
  have named : e.2 ≠ 0 := by
    obtain ⟨-, t, -, -, entry, -, -⟩ := removable.split
    exact dirEntry_named entry
  obtain ⟨img', offs', prev, scan, image, -, entries⟩ := unlink_scan ready.image named removable
  obtain ⟨s₁, walk, at', walked, addr⟩ := ufsDirIterate_walks io (ready.dirAt device) scan
  unfold ufsUnlink at run
  rw [Prog.get_bind_apply, if_neg (by rw [ready.writable]; decide), Prog.bind_of_done walk] at run
  cases run
  exact ⟨img', offs', ready.walked at' walked addr image, entries⟩

end Ready

/-! ## Runs -/

/-- Names are entered in and removed from a directory and looked up in it, and it is asked whether it is
    empty. A name that is entered is not bound, and the record of one that is removed is the first in 512
    bytes or comes after one in use. -/
inductive DirRun (env : Env) (fs : Superblock) (dir : Nat) (s₀ : State) (table₀ : List Entry) :
    State → List Entry → Prop
  | start : DirRun env fs dir s₀ table₀ s₀ table₀
  | enter {s s' : State} {table : List Entry} {name : List Byte} {ino flags : Nat}
      (before : DirRun env fs dir s₀ table₀ s table) (fresh : ∀ e ∈ table, e.1 ≠ name) (string : (0 : Byte) ∉ name)
      (short : name.length ≤ maxnamlen) (named : ino ≠ 0) (number : ino < 2 ^ 32)
      (grows : GrowsExactly fs (s.dirSize dir)) (room : s.dirSize dir + dirblksiz < 2 ^ 31)
      (run : ufsAddnamedir env fs dir name ino flags s = .done 0 s') : DirRun env fs dir s₀ table₀ s' ((name, ino) :: table)
  | remove {s s' : State} {table : List Entry} {e : Entry} {r : Int} (before : DirRun env fs dir s₀ table₀ s table)
      (removable : ∃ img offs, Contains fs s dir img ∧ DirImage img (s.dirSize dir) offs ∧ Removable img offs e)
      (run : ufsUnlink env fs dir e.1 e.2 s = .done r s') : DirRun env fs dir s₀ table₀ s' (table.erase e)
  | lookup {s s' : State} {table : List Entry} {name : List Byte} {r : Int × Nat}
      (before : DirRun env fs dir s₀ table₀ s table) (run : ufsLookup env fs dir name s = .done r s') :
      DirRun env fs dir s₀ table₀ s' table
  | checkEmpty {s s' : State} {table : List Entry} {r : Int} (before : DirRun env fs dir s₀ table₀ s table)
      (run : doCheckEmptyDir env fs dir s = .done r s') : DirRun env fs dir s₀ table₀ s' table

/-- What the readers make of a directory with the bindings of a table. -/
structure Presents (env : Env) (fs : Superblock) (s : State) (dir : Nat) (table : List Entry) : Prop where
  /-- Every binding is listed once. -/
  listed : ∃ shown, shown.Perm table ∧ ReadersAgree env fs s dir shown
  bound : ∀ e ∈ table, ∃ s', ufsLookup env fs dir e.1 s = .done (0, e.2) s'
  unbound : ∀ name, (∀ e ∈ table, e.1 ≠ name) → ∃ s', ufsLookup env fs dir name s = .done (enoent, 0) s'

section Runs

variable {env : Env} {fs : Superblock} {s s' : State} {dir : Nat} {img : Buf} {offs : List Nat} {table : List Entry}

/-- No name is bound twice, so that a binding is the first of its name. -/
theorem find_bound {entries : List Entry} (distinct : (entries.map Prod.fst).Nodup) {e : Entry} (mem : e ∈ entries) :
    (entries.find? fun x => x.1 = e.1) = some e := by
  cases first : entries.find? fun x => x.1 = e.1 with
  | none => exact absurd (decide_eq_true rfl) (List.find?_eq_none.mp first e mem)
  | some x =>
      have same : x.1 = e.1 := by simpa using List.find?_some first
      rw [List.inj_on_of_nodup_map distinct (List.mem_of_find?_eq_some first) mem same]

theorem DirReady.wellFormed (ready : DirReady fs s dir img offs)
    (strings : ∀ e ∈ dirEntries img offs, (0 : Byte) ∉ e.1) : DirWellFormed img (s.dirSize dir) offs where
  toDirImage := ready.image
  strings := by
    intro off mem used
    exact strings _ (List.mem_filterMap.mpr ⟨off, mem, dirEntry_used used⟩)

theorem Binds.presents (io : env.IoOk) (device : fs.fsSize ≤ poisonBlock) (binds : Binds fs s dir table) :
    Presents env fs s dir table := by
  obtain ⟨names, img, offs, ready, perm⟩ := binds
  have strings : ∀ e ∈ dirEntries img offs, (0 : Byte) ∉ e.1 := fun e mem => names.strings e (perm.mem_iff.mp mem)
  obtain ⟨shown, clean⟩ := (ready.dirAt device).shown ready.image ready.linked
  have agree : ReadersAgree env fs s dir (dirEntries img offs) := shown.agree io (ready.wellFormed strings) clean
  have distinct : ((dirEntries img offs).map Prod.fst).Nodup := (perm.map Prod.fst).nodup_iff.mpr names.distinct
  refine ⟨⟨_, perm, agree⟩, fun e mem => ?_, fun name missing => ?_⟩
  · have answer := agree.lookup e.1
    rw [find_bound distinct (perm.mem_iff.mpr mem)] at answer
    exact answer
  · have answer := agree.lookup name
    rw [List.find?_eq_none.mpr fun e mem same => missing e (perm.mem_iff.mp mem) (of_decide_eq_true same)] at answer
    exact answer

theorem DirReady.lookable (ready : DirReady fs s dir img offs) : Lookable s dir :=
  ⟨ready.owned.numbered, ready.held, .inl ready.linked⟩

theorem doCheckEmptyDir_looked (io : env.InoOk) (cache : InoCache fs s) (ok : Lookable s dir) {r : Int}
    (run : doCheckEmptyDir env fs dir s = .done r s') : Looked fs s s' := by
  unfold doCheckEmptyDir at run
  obtain ⟨r, s₁, walked, run⟩ := Prog.bind_eq_done.mp run
  have looked := ufsDirIterate_looked io cache rmdirProc_quiet ok walked
  dsimp only at run
  split at run
  · obtain ⟨-, rfl⟩ := Prog.pure_eq_done.mp run
    exact looked
  · split at run
    · obtain ⟨-, rfl⟩ := Prog.pure_eq_done.mp run
      exact looked
    · obtain ⟨-, rfl⟩ := Prog.pure_eq_done.mp run
      exact looked

theorem Binds.looked (device : fs.fsSize ≤ poisonBlock) (binds : Binds fs s dir table) (looked : Looked fs s s') :
    Binds fs s' dir table := by
  obtain ⟨names, img, offs, ready, perm⟩ := binds
  exact ⟨names, img, offs, ready.looked device looked, perm⟩

theorem NameTable.cons (names : NameTable table) {name : List Byte} {ino : Nat} (fresh : ∀ e ∈ table, e.1 ≠ name)
    (string : (0 : Byte) ∉ name) : NameTable ((name, ino) :: table) where
  distinct := by
    refine List.nodup_cons.mpr ⟨fun mem => ?_, names.distinct⟩
    obtain ⟨e, entry, same⟩ := List.mem_map.mp mem
    exact fresh e entry same
  strings := by
    intro e mem
    rcases List.mem_cons.mp mem with rfl | mem
    · exact string
    · exact names.strings e mem

theorem NameTable.erase (names : NameTable table) (e : Entry) : NameTable (table.erase e) where
  distinct := names.distinct.sublist (List.erase_sublist.map _)
  strings := fun x mem => names.strings x (List.mem_of_mem_erase mem)

/-- Every call keeps the bindings, but for the one that it enters or removes. -/
theorem dirRun_binds {s₀ : State} {table₀ : List Entry} (io : env.IoOk) (device : fs.fsSize ≤ poisonBlock)
    (start : Binds fs s₀ dir table₀) (run : DirRun env fs dir s₀ table₀ s table) : Binds fs s dir table := by
  induction run with
  | start => exact start
  | enter before fresh string short named number grows room run ih =>
      obtain ⟨names, img, offs, ready, perm⟩ := ih
      obtain ⟨img', offs', ready', perm'⟩ := ready.enter io device grows room short named number run
      exact ⟨names.cons fresh string, img', offs', ready', perm'.trans (perm.cons _)⟩
  | remove before removable run ih =>
      obtain ⟨names, img, offs, ready, perm⟩ := ih
      obtain ⟨img₁, offs₁, contains, image, removable⟩ := removable
      obtain ⟨ready₁, entries₁⟩ := ready.seen contains image
      obtain ⟨img', offs', ready', entries⟩ := ready₁.remove io device removable run
      refine ⟨names.erase _, img', offs', ready', ?_⟩
      rw [entries, entries₁]
      exact perm.erase _
  | lookup before run ih =>
      obtain ⟨-, img, offs, ready, -⟩ := id ih
      exact ih.looked device (ufsLookup_looked io.toInoOk ready.owned.cache ready.lookable run).1
  | checkEmpty before run ih =>
      obtain ⟨-, img, offs, ready, -⟩ := id ih
      exact ih.looked device (doCheckEmptyDir_looked io.toInoOk ready.owned.cache ready.lookable run)

/-- However names have been entered and removed, the readers present the table of the names that are left. -/
theorem dirRun_presents {s₀ : State} {table₀ : List Entry} (io : env.IoOk) (device : fs.fsSize ≤ poisonBlock)
    (start : Binds fs s₀ dir table₀) (run : DirRun env fs dir s₀ table₀ s table) : Presents env fs s dir table :=
  (dirRun_binds io device start run).presents io device

end Runs

theorem emptyDir_binds : Binds smallFs (dirState emptyDir) 3 [([dot], 3), ([dot, dot], 2)] := by
  have ready : DirReady smallFs (dirState emptyDir) 3 emptyDir emptyOffs := by
    refine ⟨dirState_owned emptyDir, rfl, by decide, fun v there => ?_, by decide, rfl, emptyDir_image⟩
    obtain rfl : dirVnode = v := Option.some.inj there
    decide
  have entries : dirEntries emptyDir emptyOffs = [([dot], 3), ([dot, dot], 2)] := by decide +kernel
  refine ⟨⟨by decide, by decide⟩, emptyDir, emptyOffs, ready, ?_⟩
  rw [entries]

/-- `.` is removed and `b` entered. -/
theorem dirRun_presents_small : ∃ s, Presents calmEnv smallFs s 3 [([0x62], 5), ([dot, dot], 2)] := by
  have first : ∀ t ∈ emptyOffs, dirEntry emptyDir t = some ([dot], 3) → t % dirblksiz = 0 := by decide +kernel
  have removable : Removable emptyDir emptyOffs ([dot], 3) := by
    refine ⟨by decide +kernel, fun xs t ys parts entry => .inl (first t ?_ entry)⟩
    rw [parts]
    exact List.mem_append_right _ List.mem_cons_self
  have ran : (ufsUnlink calmEnv smallFs 3 [dot] 3 (dirState emptyDir)).passes
      (fun _ s₁ => decide (s₁.dirSize 3 = 4096) && (ufsAddnamedir calmEnv smallFs 3 [0x62] 5 ifreg s₁).passes
        fun r _ => decide (r = 0)) = true := by decide +kernel
  obtain ⟨r₁, s₁, removed, ran⟩ := Outcome.done_of_passes ran
  obtain ⟨size, more⟩ := Bool.and_eq_true_iff.mp ran
  obtain ⟨r₂, s₂, entered, last⟩ := Outcome.done_of_passes more
  have size : s₁.dirSize 3 = 4096 := of_decide_eq_true size
  obtain rfl : r₂ = 0 := of_decide_eq_true last
  have grows : GrowsExactly smallFs 4096 := by
    unfold GrowsExactly
    decide
  have run₁ : DirRun calmEnv smallFs 3 (dirState emptyDir) [([dot], 3), ([dot, dot], 2)] s₁ [([dot, dot], 2)] :=
    .remove .start ⟨emptyDir, emptyOffs, (dirState_at emptyDir).contains, emptyDir_image, removable⟩ removed
  have run₂ : DirRun calmEnv smallFs 3 (dirState emptyDir) [([dot], 3), ([dot, dot], 2)] s₂
      [([0x62], 5), ([dot, dot], 2)] :=
    .enter run₁ (by decide) (by decide) (by decide) (by decide) (by decide) (by rw [size]; exact grows)
      (by rw [size]; decide) entered
  exact ⟨s₂, dirRun_presents calmEnv_ioOk (by decide) emptyDir_binds run₂⟩

end FuseUfs
