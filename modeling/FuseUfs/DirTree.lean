import FuseUfs.DirReaders
import FuseUfs.PathSplit

/-! # Paths through a tree of directories

What a path leads to depends on the entries of the directories alone. With the entries of every
directory given, looking a path up is following its names from the root, and the callbacks that read
show the inode that the names lead to: its attributes, its permissions and, if it is a directory, its
entries. Nothing but the copies of inode blocks in memory has changed when they return.
-/

namespace FuseUfs

open Lib Prog

/-! ## The tree -/

/-- The entries of every directory, by its inode. -/
abbrev DirTree := Nat → List Entry

/-- What a name is bound to in a directory: its first entry counts. -/
def DirTree.child (tree : DirTree) (dir : Nat) (name : List Byte) : Option Nat :=
  ((tree dir).find? fun e => e.1 = name).map Prod.snd

/-- Where names lead from a directory. -/
def DirTree.follow (tree : DirTree) : Nat → List (List Byte) → Option Nat
  | ino, [] => some ino
  | ino, name :: rest => (tree.child ino name).bind fun next => tree.follow next rest

/-- Every name is looked up in one of these directories. -/
def DirTree.Through (tree : DirTree) (dirs : Nat → Prop) : Nat → List (List Byte) → Prop
  | _, [] => True
  | ino, name :: rest => dirs ino ∧ ∀ next, tree.child ino name = some next → tree.Through dirs next rest

/-- The components that are looked up. An empty one at the end is not. -/
def lookedUp : List Byte → List (List Byte) → List (List Byte)
  | name, [] => if name = [] then [] else [name]
  | name, next :: rest => name :: lookedUp next rest

def pathSteps (path : List Byte) : List (List Byte) := lookedUp (pathNames path).1 (pathNames path).2

/-- The directories are those of the tree, and what their entries name can be got and given back. -/
structure TreeShown (fs : Superblock) (s : State) (dirs : Nat → Prop) (tree : DirTree) : Prop where
  cache : InoCache fs s
  root : dirs rootino
  dir : ∀ d, dirs d → ∃ img offs, DirShown fs s d img ∧ DirClean fs s.data (s.inCore d).inode ∧
    DirWellFormed img (s.dirSize d) offs ∧ tree d = dirEntries img offs
  named : ∀ d, dirs d → ∀ e ∈ tree d, Lookable s e.2

section Follow

variable {env : Env} {fs : Superblock} {s s' : State} {dirs : Nat → Prop} {tree : DirTree}

theorem DirTree.child_mem {d ino : Nat} {name : List Byte} (found : tree.child d name = some ino) :
    ∃ e ∈ tree d, e.2 = ino := by
  obtain ⟨e, first, rfl⟩ := Option.map_eq_some_iff.mp found
  exact ⟨e, List.mem_of_find?_eq_some first, rfl⟩

theorem Lookable.looked (looked : Looked fs s s') {d : Nat} (ok : Lookable s d) : Lookable s' d := by
  obtain ⟨numbered, held, linked⟩ := ok
  rw [← looked.inCore] at linked
  rw [← looked.vnodes] at held
  exact ⟨numbered, held, linked⟩

/-- Looking something up leaves the tree as it is. -/
theorem TreeShown.looked (shown : TreeShown fs s dirs tree) (looked : Looked fs s s') : TreeShown fs s' dirs tree where
  cache := looked.cache
  root := shown.root
  dir := by
    intro d mem
    obtain ⟨img, offs, dir, clean, ok, entries⟩ := shown.dir d mem
    have same : s'.inCore d = s.inCore d := looked.inCore d
    have data : s'.data = s.data := by rw [looked.frame]
    refine ⟨img, offs, ⟨looked.cache, dir.numbered, ?_, ?_, ?_⟩, ?_, ?_, entries⟩
    · rw [looked.vnodes]
      exact dir.held
    · rw [same]
      exact dir.linked
    · rw [same, data]
      exact dir.data
    · rw [same, data]
      exact clean
    · rw [State.dirSize, same]
      exact ok
  named := fun d mem e entry => (shown.named d mem e entry).looked looked

theorem TreeShown.root_lookable (shown : TreeShown fs s dirs tree) : Lookable s rootino := by
  obtain ⟨img, offs, dir, -⟩ := shown.dir rootino shown.root
  exact dir.lookable

/-- How `ufs_lookup` and `ufs_namei` say what they have found. -/
def found : Option Nat → Int × Nat
  | some ino => (0, ino)
  | none => (enoent, 0)

theorem ufsLookup_child (io : env.IoOk) (shown : TreeShown fs s dirs tree) {d : Nat} (mem : dirs d) (name : List Byte) :
    ∃ s', ufsLookup env fs d name s = .done (found (tree.child d name)) s' ∧ Looked fs s s' := by
  obtain ⟨img, offs, dir, clean, ok, entries⟩ := shown.dir d mem
  obtain ⟨s', run⟩ := (dir.agree io ok clean).lookup name
  refine ⟨s', run.trans ?_, (ufsLookup_looked io.toInoOk shown.cache dir.lookable run).1⟩
  rw [DirTree.child, entries]
  cases (dirEntries img offs).find? fun e => e.1 = name with
  | none => rfl
  | some e => rfl

/-- The names lead to something that can be got. -/
theorem TreeShown.follow_lookable (shown : TreeShown fs s dirs tree) : ∀ (names : List (List Byte)) {d ino : Nat},
    Lookable s d → tree.Through dirs d names → tree.follow d names = some ino → Lookable s ino := by
  intro names
  induction names with
  | nil =>
      intro d ino ok through leads
      cases leads
      exact ok
  | cons name rest ih =>
      intro d ino ok through leads
      obtain ⟨next, child, leads⟩ := Option.bind_eq_some_iff.mp leads
      obtain ⟨e, entry, rfl⟩ := DirTree.child_mem child
      exact ih (shown.named d through.1 e entry) (through.2 _ child) leads

/-- The walk down and the look-up of the last component together follow the names. -/
theorem nameiWalk_follows (io : env.IoOk) : ∀ (rest : List (List Byte)) {s : State} {d : Nat} {name : List Byte},
    TreeShown fs s dirs tree → tree.Through dirs d (lookedUp name rest) →
    ∃ s', (nameiWalk env fs d name rest >>= openLast env fs) s
      = .done (found (tree.follow d (lookedUp name rest))) s' ∧ Looked fs s s' := by
  intro rest
  induction rest with
  | nil =>
      intro s d name shown through
      rw [nameiWalk, pure_bind]
      unfold openLast
      rw [if_neg (by simp)]
      by_cases last : name = []
      · rw [if_pos last, lookedUp, if_pos last]
        exact ⟨s, rfl, rfl, shown.cache⟩
      · rw [lookedUp, if_neg last] at through ⊢
        obtain ⟨s', run, looked⟩ := ufsLookup_child io shown through.1 name
        refine ⟨s', ?_, looked⟩
        rw [if_neg last]
        unfold lookupFrom
        rw [if_neg (by simp)]
        refine (Prog.bind_of_done run _).trans ?_
        cases child : tree.child d name with
        | none => simp [DirTree.follow, child, found, enoent]
        | some ino => simp [DirTree.follow, child, found]
  | cons next rest ih =>
      intro s d name shown through
      obtain ⟨s₁, run, looked⟩ := ufsLookup_child io shown through.1 name
      rw [nameiWalk, bind_assoc]
      cases child : tree.child d name with
      | none =>
          rw [child] at run
          refine ⟨s₁, (Prog.bind_of_done run _).trans ?_, looked⟩
          simp [DirTree.follow, lookedUp, child, found, enoent, openLast]
      | some ino =>
          rw [child] at run
          obtain ⟨s₂, later, looked'⟩ := ih (shown.looked looked) (through.2 ino child)
          refine ⟨s₂, (Prog.bind_of_done run _).trans ?_, looked.trans looked'⟩
          simp only [found, lookedUp, DirTree.follow, child]
          exact later

theorem ufsNamei_follows (io : env.IoOk) (shown : TreeShown fs s dirs tree) {path : List Byte}
    (through : tree.Through dirs rootino (pathSteps path)) :
    ∃ s', ufsNamei env fs rootino rootino path s = .done (found (tree.follow rootino (pathSteps path))) s' ∧
      Looked fs s s' := by
  unfold ufsNamei
  rw [ufsOpenNamei_eq, ufsDirNamei_root]
  exact nameiWalk_follows io _ shown through

end Follow

/-! ## The callbacks that read -/

/-- What the callbacks that read show of a path that leads to `target`. `access` is asked for nothing that a
    read-only mount refuses, and the filler of `readdir` always returns 0. -/
structure PathShows (env : Env) (fs : Superblock) (s : State) (dirs : Nat → Prop) (tree : DirTree) (path : List Byte)
    (target : Option Nat) : Prop where
  getattr : ∃ s', opGetattr env fs path s = .done (match target with
    | none => (-enoent, none)
    | some ino => (0, some (s.inCore ino).inode)) s' ∧ Looked fs s s'
  access : ∀ mask, (mask &&& wOk ≠ 0 → s.fsRonly = false) → ∃ s', opAccess env fs path mask s = .done (match target with
    | none => -enoent
    | some ino => inodeAccess env (s.inCore ino).inode mask) s'
  readdir : ∀ {ρ : Type} (filler : ρ → List Byte → Nat → Int × ρ) (r : ρ), (∀ r name ino, (filler r name ino).1 = 0) →
    match target with
    | none => ∃ s', opReaddir env fs path filler r s = .done (-enoent, r) s'
    | some ino => dirs ino → ∃ s', opReaddir env fs path filler r s
        = .done (0, (tree ino).foldl (fun r e => (filler r e.1 e.2).2) r) s'

section Readers

variable {env : Env} {fs : Superblock} {s s' : State} {dirs : Nat → Prop} {tree : DirTree} {path : List Byte}

/-- The inode has one reference more, and nothing else has changed. -/
structure Got (fs : Superblock) (ino : Nat) (s s' : State) : Prop where
  frame : s' = { s with
    tick := s'.tick, log := s'.log, dInoblock := s'.dInoblock, dInomin := s'.dInomin, dInomax := s'.dInomax
    vnodes := Function.update s.vnodes ino (some ⟨(s.inCore ino).inode, (s.inCore ino).count + 1⟩) }
  cache : InoCache fs s'

theorem Got.vnodes {ino : Nat} (got : Got fs ino s s') :
    s'.vnodes = Function.update s.vnodes ino (some ⟨(s.inCore ino).inode, (s.inCore ino).count + 1⟩) := by
  rw [got.frame]

theorem Got.there {ino : Nat} (got : Got fs ino s s') :
    s'.vnodes ino = some ⟨(s.inCore ino).inode, (s.inCore ino).count + 1⟩ := by
  rw [got.vnodes, Function.update_self]

theorem Got.inCore {ino : Nat} (got : Got fs ino s s') :
    s'.inCore ino = ⟨(s.inCore ino).inode, (s.inCore ino).count + 1⟩ := by
  rw [State.inCore, got.there]
  rfl

/-- Given back, it is as it was. -/
theorem Got.put (env : Env) {ino : Nat} (got : Got fs ino s s') (ok : Lookable s ino) :
    ∃ s'', vnodePut env fs ino false s' = .done 0 s'' ∧ Looked fs s s'' := by
  refine ⟨_, vnodePut_returns env fs ok got.vnodes, ?_, got.cache.aligned, got.cache.same⟩
  conv_lhs => rw [got.frame]

theorem Got.shown {ino : Nat} {img : Buf} (got : Got fs ino s s') (dir : DirShown fs s ino img) :
    DirShown fs s' ino img := by
  have data : s'.data = s.data := by rw [got.frame]
  refine ⟨got.cache, dir.numbered, fun v there => ?_, ?_, ?_⟩
  · rw [got.there] at there
    cases there
    exact Nat.succ_pos _
  · rw [got.inCore]
    exact dir.linked
  · rw [got.inCore, data]
    exact dir.data

/-- A path that leads somewhere gives a reference to that inode. -/
theorem doReadvnode_follows (io : env.IoOk) (shown : TreeShown fs s dirs tree)
    (through : tree.Through dirs rootino (pathSteps path)) :
    match tree.follow rootino (pathSteps path) with
    | none => ∃ s', doReadvnode env fs path s = .done (-enoent, 0) s' ∧ Looked fs s s'
    | some ino => Lookable s ino ∧ ∃ s', doReadvnode env fs path s = .done (0, ino) s' ∧ Got fs ino s s' := by
  obtain ⟨s₁, run, looked⟩ := ufsNamei_follows io shown through
  cases leads : tree.follow rootino (pathSteps path) with
  | none =>
      rw [leads] at run
      refine ⟨s₁, ?_, looked⟩
      unfold doReadvnode
      refine (Prog.bind_of_done run _).trans ?_
      rfl
  | some ino =>
      rw [leads] at run
      have ok := shown.follow_lookable _ shown.root_lookable through leads
      obtain ⟨t, l, b, lo, hi, got, cached⟩ := vnodeGet_ok io.toInoOk looked.cache ok.numbered
      refine ⟨ok, { s₁ with
        tick := t, log := l, dInoblock := b, dInomin := lo, dInomax := hi
        vnodes := Function.update s₁.vnodes ino (some ⟨(s₁.inCore ino).inode, (s₁.inCore ino).count + 1⟩) }, ?_, ?_,
        cached.aligned, cached.same⟩
      · have run : ufsNamei env fs rootino rootino path s = .done (0, ino) s₁ := run
        unfold doReadvnode
        rw [Prog.bind_of_done run]
        dsimp only
        rw [if_neg (by simp [ok.numbered])]
        exact Prog.bind_of_done got _
      · rw [looked.inCore, looked.vnodes]
        conv_lhs => rw [looked.frame]

/-- The callbacks that read show of a path what its names lead to in the tree. -/
theorem path_shows (io : env.IoOk) (shown : TreeShown fs s dirs tree)
    (through : tree.Through dirs rootino (pathSteps path)) (checked : doCheck path = 0) :
    PathShows env fs s dirs tree path (tree.follow rootino (pathSteps path)) := by
  have read := doReadvnode_follows io shown through
  have allowed : ∀ mask, (mask &&& wOk ≠ 0 → s.fsRonly = false) → ¬ (mask &&& wOk ≠ 0 ∧ s.fsRonly = true) := by
    rintro mask writable ⟨asked, readonly⟩
    rw [writable asked] at readonly
    cases readonly
  cases leads : tree.follow rootino (pathSteps path) with
  | none =>
      rw [leads] at read
      obtain ⟨s₁, run, looked⟩ := read
      refine ⟨⟨s₁, ?_, looked⟩, fun mask writable => ⟨s₁, ?_⟩, fun filler r takes => ⟨s₁, ?_⟩⟩
      · unfold opGetattr opFgetattr
        rw [if_neg (not_not.mpr checked)]
        exact (Prog.bind_of_done run _).trans rfl
      · unfold opAccess
        rw [Prog.get_bind_apply, if_neg (allowed mask writable), if_neg (not_not.mpr checked)]
        exact (Prog.bind_of_done run _).trans rfl
      · unfold opReaddir
        exact (Prog.bind_of_done run _).trans rfl
  | some ino =>
      rw [leads] at read
      obtain ⟨ok, s₁, run, got⟩ := read
      obtain ⟨s₂, put, looked⟩ := got.put env ok
      refine ⟨⟨s₂, ?_, looked⟩, fun mask writable => ⟨s₁, ?_⟩, fun filler r takes mem => ?_⟩
      · unfold opGetattr opFgetattr
        rw [if_neg (not_not.mpr checked), Prog.bind_of_done run]
        dsimp only
        rw [if_neg (by simp), Prog.bind_of_done (vnode2inode_ok got.there)]
        exact Prog.bind_of_done put _
      · unfold opAccess
        rw [Prog.get_bind_apply, if_neg (allowed mask writable), if_neg (not_not.mpr checked), Prog.bind_of_done run]
        dsimp only
        rw [if_neg (by simp)]
        exact Prog.bind_of_done (vnode2inode_ok got.there) _
      · obtain ⟨img, offs, dir, clean, wellFormed, entries⟩ := shown.dir ino mem
        have data : s₁.data = s.data := by rw [got.frame]
        have agree : ReadersAgree env fs s₁ ino (dirEntries img offs) := by
          refine (got.shown dir).agree io ?_ ?_
          · rw [State.dirSize, got.inCore]
            exact wellFormed
          · rw [got.inCore, data]
            exact clean
        rw [entries]
        exact agree.readdir path s run filler r takes

end Readers

/-! ## A root directory without files -/

def emptyRoot : State := rootState (ufsNewDirBlock rootino rootino)

def rootEntries : List Entry := [([dot], rootino), ([dot, dot], rootino)]

theorem emptyRoot_shown : TreeShown smallFs emptyRoot (· = rootino) fun _ => rootEntries := by
  have shown : DirShown smallFs emptyRoot rootino (ufsNewDirBlock rootino rootino) := by
    refine ⟨InoCache.empty rfl, by decide, fun v there => ?_, by decide, rfl, by decide, by decide,
      fun b inside => ?_, fun p inside => ?_⟩
    · cases there
    · have inside : b * 4096 < 512 := inside
      obtain rfl : b = 0 := by omega
      decide
    · have inside : p < 512 := inside
      have block : p / smallFs.fsBsize = 0 := Nat.div_eq_of_lt (Nat.lt_trans inside (by decide))
      have place : p % smallFs.fsBsize = p := Nat.mod_eq_of_lt (Nat.lt_trans inside (by decide))
      rw [fileByte, block, place]
      change (if 32 * 512 ≤ 32 * 512 + p ∧ 32 * 512 + p < 33 * 512 then ufsNewDirBlock rootino rootino (32 * 512 + p - 32 * 512)
        else 0) = _
      rw [if_pos ⟨by omega, by omega⟩, Nat.add_sub_cancel_left]
  refine ⟨shown.cache, rfl, fun d here => ?_, fun d here e entry => ?_⟩
  · obtain rfl : d = rootino := here
    refine ⟨_, [0, 12], shown, fun b inside => ?_, ⟨by decide +kernel, by decide +kernel⟩, by decide +kernel⟩
    have inside : b * 4096 < 512 := inside
    obtain rfl : b = 0 := by omega
    decide
  · have root : e.2 = rootino := by
      rcases List.mem_cons.mp entry with rfl | entry
      · rfl
      · rw [List.mem_singleton.mp entry]
    rw [root]
    exact shown.lookable

/-- The parent of the root is the root. -/
theorem path_shows_dotdot :
    PathShows calmEnv smallFs emptyRoot (· = rootino) (fun _ => rootEntries) [slash, dot, dot] (some rootino) := by
  have through : DirTree.Through (fun _ => rootEntries) (· = rootino) rootino (pathSteps [slash, dot, dot]) := by
    refine ⟨rfl, fun next _ => ?_⟩
    trivial
  exact path_shows calmEnv_ioOk emptyRoot_shown through (by decide)

end FuseUfs
