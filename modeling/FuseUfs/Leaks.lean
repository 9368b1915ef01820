import FuseUfs.Refs

/-! # References that stay behind

Most callbacks give back what they take. Those that make or remove a name do not always: some leave
through an error path past the `vnode_put`s, and `do_create` drops its second reference to the
parent in place of the first. Each of them is looked at here for what stays behind, and when.
-/

namespace FuseUfs

open Lib Prog

variable {env : Env} {fs : Superblock} {s s' : State} {base : Tally} {extra m : Multiset Nat}

/-- The references of `extra` are there after the call, and exactly when `lost` some others besides. -/
def Leaves (lost : Prop) (base : Tally) (extra : Multiset Nat) (s : State) : Prop :=
  ∃ leak : Multiset Nat, (leak ≠ 0 ↔ lost) ∧ Refs base (leak + extra) s

theorem Leaves.fine {lost : Prop} (not : ¬ lost) (refs : Refs base extra s) : Leaves lost base extra s :=
  ⟨0, ⟨fun h => absurd rfl h, fun h => absurd h not⟩, by rwa [Multiset.zero_add]⟩

theorem Leaves.leak {lost : Prop} {ino : Nat} (leak : lost) (refs : Refs base (ino ::ₘ extra) s) :
    Leaves lost base extra s :=
  ⟨{ino}, ⟨fun _ => leak, fun _ => Multiset.singleton_ne_zero ino⟩, by rwa [Multiset.singleton_add]⟩

theorem Leaves.congr {lost lost' : Prop} (same : lost ↔ lost') (leaves : Leaves lost base extra s) :
    Leaves lost' base extra s := by
  rwa [propext same] at leaves

/-- One start, one way to go on. -/
theorem done_unique {α : Type} {x : M α} {a b : α} {t t' : State} (one : x s = .done a t) (two : x s = .done b t') :
    a = b ∧ t = t' := by
  rw [one] at two
  cases two
  exact ⟨rfl, rfl⟩

theorem Held.refs_pos (held : Held s) {ino : Nat} (used : s.vnodes ino ≠ none) : 0 < s.refs ino := by
  unfold State.refs
  cases here : s.vnodes ino with
  | none => exact absurd here used
  | some v => exact held ino v here

/-- Reading the in-core inode of a vnode needs the vnode. -/
theorem vnode2inode_done {ino : Nat} {inode : Inode} (run : vnode2inode ino s = .done inode s') :
    ∃ v, s.vnodes ino = some v ∧ v.inode = inode ∧ s = s' := by
  unfold vnode2inode at run
  rw [Prog.get_bind_apply] at run
  cases here : s.vnodes ino with
  | none =>
      rw [here] at run
      cases run
  | some v =>
      rw [here] at run
      obtain ⟨rfl, rfl⟩ := Prog.pure_eq_done.mp run
      exact ⟨v, rfl, rfl, rfl⟩

/-- Work on an inode that was just made. -/
theorem Drops.made {β : Type} {parent mode : Nat} {f : Int × Nat → M β} (failed : ∀ rc x, rc ≠ 0 → Drops m (f (rc, x)))
    (rest : ∀ ino, Drops (ino ::ₘ m) (f (0, ino))) : Drops m (ufsValloc env fs parent mode >>= f) := by
  intro base extra s b s₂ run refs
  obtain ⟨⟨rc, ino⟩, s₁, made, run⟩ := Prog.bind_eq_done.mp run
  have refs₁ := ufsValloc_refs made refs
  by_cases good : rc = 0
  · subst good
    rw [if_pos rfl, ← Multiset.cons_add] at refs₁
    exact rest ino base extra s₁ b s₂ run refs₁
  · rw [if_neg good] at refs₁
    exact failed rc ino good base extra s₁ b s₂ run refs₁

/-! ## Making a file -/

/-- The directory is looked up a second time and not found, so that its first reference is given back. -/
def GivesBack (env : Env) (fs : Superblock) (pPath rPath : List Byte) (dir mode : Nat) (dev : Dev)
    (fastsymlink : Option (List Byte)) (s : State) : Prop :=
  ∃ ino s₁ s₂ s₃ rc x s₄, ufsValloc env fs dir mode s = .done (0, ino) s₁ ∧
    ufsLink env fs dir rPath ino mode s₁ = .done 0 s₂ ∧
    updateInode ino (newInode env fs mode dev fastsymlink) s₂ = .done () s₃ ∧
    doReadvnode env fs pPath s₃ = .done (rc, x) s₄ ∧ rc ≠ 0

/-- `do_create` finds the directory, and does not give its first reference back. -/
def CreateLeaks (env : Env) (fs : Superblock) (path : List Byte) (mode : Nat) (dev : Dev)
    (fastsymlink : Option (List Byte)) (s : State) : Prop :=
  ∃ pPath rPath dir s₁, doCheckSplit path = .ok (pPath, rPath) ∧ doReadvnode env fs pPath s = .done (0, dir) s₁ ∧
    ¬ GivesBack env fs pPath rPath dir mode dev fastsymlink s₁

theorem createIn_leaves {pPath rPath : List Byte} {dir mode : Nat} {dev : Dev} {fastsymlink : Option (List Byte)} {rc : Int}
    (run : createIn env fs pPath rPath dir mode dev fastsymlink s = .done rc s') (refs : Refs base (dir ::ₘ extra) s) :
    Leaves (¬ GivesBack env fs pPath rPath dir mode dev fastsymlink s) base extra s' := by
  obtain ⟨⟨rv, ino⟩, s₁, made, run⟩ := Prog.bind_eq_done.mp run
  have refs₁ := ufsValloc_refs made refs
  dsimp only at run refs₁
  split at run
  · next failed =>
    obtain ⟨-, rfl⟩ := Prog.pure_eq_done.mp run
    rw [if_neg failed] at refs₁
    refine .leak ?_ refs₁
    rintro ⟨ino', s₂, s₃, s₄, rc', x, s₅, made', -⟩
    have same := (done_unique made made').1
    rw [Prod.mk.injEq] at same
    exact failed same.1
  · next fine =>
    obtain rfl := not_not.mp fine
    rw [if_pos rfl] at refs₁
    obtain ⟨ret, s₂, entered, run⟩ := Prog.bind_eq_done.mp run
    obtain ⟨r₃, s₃, put, run⟩ := Prog.bind_eq_done.mp run
    obtain ⟨-, rfl⟩ := Prog.pure_eq_done.mp run
    obtain ⟨rl, t₁, linked, entered⟩ := Prog.bind_eq_done.mp entered
    have held := (ufsLink_balanced dir rPath ino mode).after linked refs₁
    split at entered
    · next failed =>
      obtain ⟨-, rfl⟩ := Prog.pure_eq_done.mp entered
      refine .leak ?_ (vnodePut_refs put held)
      rintro ⟨ino', a, b, c, rc', x, d, made', linked', -⟩
      obtain ⟨same, rfl⟩ := done_unique made made'
      cases same
      exact failed (done_unique linked linked').1
    · next fine =>
      obtain rfl := not_not.mp fine
      obtain ⟨⟨⟩, t₂, filled, entered⟩ := Prog.bind_eq_done.mp entered
      have held := (updateInode_balanced ino _).after filled held
      obtain ⟨⟨ra, again⟩, t₃, found, entered⟩ := Prog.bind_eq_done.mp entered
      have held := doReadvnode_refs found held
      dsimp only at entered held
      split at entered
      · next lost =>
        rw [if_neg lost, Multiset.cons_swap] at held
        obtain ⟨r₄, t₄, back, entered⟩ := Prog.bind_eq_done.mp entered
        obtain ⟨-, rfl⟩ := Prog.pure_eq_done.mp entered
        refine .fine (not_not.mpr ?_) (vnodePut_refs put (vnodePut_refs back held))
        exact ⟨ino, s₁, t₁, t₂, ra, again, t₃, made, linked, filled, found, lost⟩
      · next here =>
        rw [if_pos (not_not.mp here)] at held
        obtain ⟨⟨⟩, t₄, stamped, entered⟩ := Prog.bind_eq_done.mp entered
        have held := (updateInode_balanced again _).after stamped held
        obtain ⟨r₅, t₅, back, entered⟩ := Prog.bind_eq_done.mp entered
        obtain ⟨-, rfl⟩ := Prog.pure_eq_done.mp entered
        refine .leak ?_ (vnodePut_refs put (vnodePut_refs back held))
        rintro ⟨ino', a, b, c, rc', x, d, made', linked', filled', found', lost⟩
        obtain ⟨same, rfl⟩ := done_unique made made'
        cases same
        obtain ⟨-, rfl⟩ := done_unique linked linked'
        obtain ⟨-, rfl⟩ := done_unique filled filled'
        have same := (done_unique found found').1
        rw [Prod.mk.injEq] at same
        exact lost (same.1.symm.trans (not_not.mp here))

theorem doCreate_leaves {path : List Byte} {mode : Nat} {dev : Dev} {fastsymlink : Option (List Byte)} {rc : Int}
    (run : doCreate env fs path mode dev fastsymlink s = .done rc s') (refs : Refs base extra s) :
    Leaves (CreateLeaks env fs path mode dev fastsymlink s) base extra s' := by
  unfold doCreate at run
  cases halves : doCheckSplit path with
  | error e =>
      rw [halves] at run
      cases run
  | ok both =>
      obtain ⟨pPath, rPath⟩ := both
      rw [halves] at run
      obtain ⟨⟨rp, dir⟩, s₁, found, run⟩ := Prog.bind_eq_done.mp run
      have refs₁ := doReadvnode_refs found refs
      dsimp only at run refs₁
      split at run
      · next lost =>
        obtain ⟨-, rfl⟩ := Prog.pure_eq_done.mp run
        rw [if_neg lost] at refs₁
        refine .fine ?_ refs₁
        rintro ⟨p, r, d, t, split, found', -⟩
        rw [halves] at split
        cases split
        have same := (done_unique found found').1
        rw [Prod.mk.injEq] at same
        exact lost same.1
      · next here =>
        obtain rfl := not_not.mp here
        rw [if_pos rfl] at refs₁
        refine (createIn_leaves run refs₁).congr ⟨fun leaks => ⟨pPath, rPath, dir, s₁, halves, found, leaks⟩, ?_⟩
        rintro ⟨p, r, d, t, split, found', leaks⟩
        rw [halves] at split
        cases split
        obtain ⟨same, rfl⟩ := done_unique found found'
        cases same
        exact leaks

/-- A file that is made leaves the reference to its directory behind. -/
theorem doCreate_done {path : List Byte} {mode : Nat} {dev : Dev} {fastsymlink : Option (List Byte)}
    (run : doCreate env fs path mode dev fastsymlink s = .done 0 s') : CreateLeaks env fs path mode dev fastsymlink s := by
  unfold doCreate at run
  cases halves : doCheckSplit path with
  | error e =>
      rw [halves] at run
      cases run
  | ok both =>
      obtain ⟨pPath, rPath⟩ := both
      rw [halves] at run
      obtain ⟨⟨rp, dir⟩, s₁, found, run⟩ := Prog.bind_eq_done.mp run
      dsimp only at run
      split at run
      · next lost => exact absurd (Prog.pure_eq_done.mp run).1 lost
      · next here =>
        obtain rfl := not_not.mp here
        refine ⟨pPath, rPath, dir, s₁, halves, found, ?_⟩
        rintro ⟨ino, t₁, t₂, t₃, rc, x, t₄, made, linked, filled, again, lost⟩
        unfold createIn at run
        rw [Prog.bind_of_done made] at run
        dsimp only at run
        rw [if_neg (not_not.mpr rfl)] at run
        obtain ⟨ret, t₅, entered, run⟩ := Prog.bind_eq_done.mp run
        obtain ⟨rv, t₆, put, run⟩ := Prog.bind_eq_done.mp run
        obtain ⟨rfl, -⟩ := Prog.pure_eq_done.mp run
        unfold createEntry at entered
        rw [Prog.bind_of_done linked, if_neg (not_not.mpr rfl), Prog.bind_of_done filled, Prog.bind_of_done again] at entered
        dsimp only at entered
        rw [if_pos lost] at entered
        obtain ⟨rd, t₇, back, entered⟩ := Prog.bind_eq_done.mp entered
        cases (Prog.pure_eq_done.mp entered).1

theorem opMknod_leaves {path : List Byte} {mode : Nat} {dev : Dev} {rc : Int}
    (run : opMknod env fs path mode dev s = .done rc s') (refs : Refs base extra s) :
    Leaves (s.fsRonly = false ∧ CreateLeaks env fs path mode dev none s) base extra s' := by
  unfold opMknod at run
  rw [Prog.get_bind_apply] at run
  split at run
  · next ro =>
    obtain ⟨-, rfl⟩ := Prog.pure_eq_done.mp run
    exact .fine (fun leaks => by rw [leaks.1] at ro; cases ro) refs
  · next writable =>
    exact (doCreate_leaves run refs).congr ⟨fun leaks => ⟨by simpa using writable, leaks⟩, fun leaks => leaks.2⟩

/-- A target that cannot be written leaves the reference of its handle. -/
theorem writeTarget_refs {target path : List Byte} {rc : Int} (run : writeTarget env fs target path s = .done rc s')
    (refs : Refs base extra s) : ∃ leak : Multiset Nat, Refs base (leak + extra) s' := by
  obtain ⟨file, s₁, opened, run⟩ := Prog.bind_eq_done.mp run
  have refs₁ := doOpen_refs opened refs
  cases file with
  | none =>
      obtain ⟨-, rfl⟩ := Prog.pure_eq_done.mp run
      exact ⟨_, refs₁⟩
  | some file =>
      obtain ⟨⟨wr, f⟩, s₂, wrote, run⟩ := Prog.bind_eq_done.mp run
      have refs₂ := (doWrite_kept (refs_keptByInode base _) file _ _ _).after wrote refs₁
      have same : f.ino = file.ino := doWrite_ino file _ _ _ _ _ _ wrote
      dsimp only at run
      split at run
      · obtain ⟨-, rfl⟩ := Prog.pure_eq_done.mp run
        exact ⟨_, refs₂⟩
      · refine ⟨0, ?_⟩
        rw [Multiset.zero_add]
        refine doRelease_drops f base extra s₂ _ s' run ?_
        rw [same]
        exact refs₂

/-- The condition of `op_symlink` is that of the file it makes. -/
theorem opSymlink_leaves {target path : List Byte} {rc : Int} (run : opSymlink env fs target path s = .done rc s')
    (refs : Refs base extra s) :
    Leaves (CreateLeaks env fs path linkMode (0, 0)
      (if target.length < fs.fsMaxsymlinklen then some target else none) s) base extra s' := by
  unfold opSymlink at run
  split at run
  · next short =>
    rw [if_pos short]
    exact doCreate_leaves run refs
  · next long =>
    rw [if_neg long]
    obtain ⟨rd, s₁, made, run⟩ := Prog.bind_eq_done.mp run
    have leaves := doCreate_leaves made refs
    split at run
    · obtain ⟨-, rfl⟩ := Prog.pure_eq_done.mp run
      exact leaves
    · next fine =>
      obtain rfl := not_not.mp fine
      have leaks := doCreate_done made
      obtain ⟨leak, some, refs₁⟩ := leaves
      obtain ⟨more, refs₂⟩ := writeTarget_refs run refs₁
      refine ⟨more + leak, ⟨fun _ => leaks, fun _ => ?_⟩, by rwa [Multiset.add_assoc]⟩
      intro none
      exact some.mpr leaks (add_eq_zero.mp none).2

/-! ## Making a directory -/

theorem mkdirEntry_balanced (parent vnode : Nat) (name : List Byte) : Drops 0 (mkdirEntry env fs parent vnode name) :=
  .bind (ufsLookup_balanced parent name) fun _ => .ite (fun _ => .pure _) fun _ => .ite (fun _ => .pure _) fun _ =>
    .bind (ufsLink_balanced _ _ _ _) fun _ => .ite (fun _ => .pure _) fun _ =>
      .ite (fun _ => .bind (updateInode_balanced _ _) fun _ => .pure _) fun _ => .pure _

theorem mkdirBody_balanced (parent vnode : Nat) (name : List Byte) : Drops 0 (mkdirBody env fs parent vnode name) :=
  .bind (vnode2inode_balanced vnode) fun _ =>
    .bind (.keeps fun base extra => ufsBlockAlloc_kept (refs_keptByInode base extra 0).toKeptByGroups _ _) fun _ =>
      .ite (fun _ => .pure _) fun _ => .bind (vnode2inode_balanced parent) fun _ =>
        .bind (updateInode_balanced vnode _) fun _ =>
          .bind (.keeps fun base extra => blkwrite_kept (refs_keptByInode base extra 0).toKeptByAlloc _ _ _) fun _ =>
            .ite (fun _ => .pure _) fun _ => mkdirEntry_balanced _ _ _

theorem ufsMkdir_balanced (parent : Nat) (name : List Byte) : Drops 0 (ufsMkdir env fs parent name) := by
  refine .took (.made (fun rc x failed => ?_) fun ino => ?_)
  · exact .ite (fun _ => .put true fun _ => .pure _) fun fine => absurd failed fine
  · refine .ite (fun failed => absurd rfl failed) fun _ => .bind (m := ino ::ₘ parent ::ₘ 0) ?_ fun rc => ?_
    · exact mkdirBody_balanced parent ino name
    · exact .put true fun _ => .put true fun _ => .pure _

/-- `ufs_mkdir` makes the directory, which is found then. -/
def DirMade (env : Env) (fs : Superblock) (path rPath : List Byte) (parent : Nat) (s : State) : Prop :=
  ∃ s₁ child s₂, ufsMkdir env fs parent rPath s = .done 0 s₁ ∧ doReadvnode env fs path s₁ = .done (0, child) s₂

/-- `op_mkdir` finds the parent and then fails. -/
def MkdirLeaks (env : Env) (fs : Superblock) (path : List Byte) (s : State) : Prop :=
  s.fsRonly = false ∧ ∃ pPath rPath parent s₁, doCheckSplit path = .ok (pPath, rPath) ∧
    doReadvnode env fs pPath s = .done (0, parent) s₁ ∧ ¬ DirMade env fs path rPath parent s₁

theorem mkdirBelow_leaves {path rPath : List Byte} {parent mode : Nat} {rc : Int}
    (run : mkdirBelow env fs path rPath parent mode s = .done rc s') (refs : Refs base (parent ::ₘ extra) s) :
    Leaves (¬ DirMade env fs path rPath parent s) base extra s' := by
  obtain ⟨rm, s₁, made, run⟩ := Prog.bind_eq_done.mp run
  have refs₁ := (ufsMkdir_balanced parent rPath).after made refs
  split at run
  · next failed =>
    obtain ⟨-, rfl⟩ := Prog.pure_eq_done.mp run
    refine .leak ?_ refs₁
    rintro ⟨t₁, child, t₂, made', -⟩
    exact failed (done_unique made made').1
  · next fine =>
    obtain rfl := not_not.mp fine
    obtain ⟨⟨rf, child⟩, s₂, found, run⟩ := Prog.bind_eq_done.mp run
    have refs₂ := doReadvnode_refs found refs₁
    dsimp only at run refs₂
    split at run
    · next lost =>
      obtain ⟨-, rfl⟩ := Prog.pure_eq_done.mp run
      rw [if_neg lost] at refs₂
      refine .leak ?_ refs₂
      rintro ⟨t₁, c, t₂, made', found'⟩
      obtain ⟨-, rfl⟩ := done_unique made made'
      have same := (done_unique found found').1
      rw [Prod.mk.injEq] at same
      exact lost same.1
    · next here =>
      obtain rfl := not_not.mp here
      rw [if_pos rfl] at refs₂
      obtain ⟨⟨⟩, s₃, named, run⟩ := Prog.bind_eq_done.mp run
      have refs₃ := (updateInode_balanced child _).after named refs₂
      obtain ⟨r₄, s₄, put, run⟩ := Prog.bind_eq_done.mp run
      have refs₄ := vnodePut_refs put refs₃
      obtain ⟨⟨⟩, s₅, stamped, run⟩ := Prog.bind_eq_done.mp run
      have refs₅ := (updateInode_balanced parent _).after stamped refs₄
      obtain ⟨r₆, s₆, back, run⟩ := Prog.bind_eq_done.mp run
      obtain ⟨-, rfl⟩ := Prog.pure_eq_done.mp run
      exact .fine (not_not.mpr ⟨s₁, child, s₂, made, found⟩) (vnodePut_refs back refs₅)

theorem opMkdir_leaves {path : List Byte} {mode : Nat} {rc : Int} (run : opMkdir env fs path mode s = .done rc s')
    (refs : Refs base extra s) : Leaves (MkdirLeaks env fs path s) base extra s' := by
  unfold opMkdir at run
  rw [Prog.get_bind_apply] at run
  split at run
  · next ro =>
    obtain ⟨-, rfl⟩ := Prog.pure_eq_done.mp run
    exact .fine (fun leaks => by rw [leaks.1] at ro; cases ro) refs
  · next writable =>
    cases halves : doCheckSplit path with
    | error e =>
        rw [halves] at run
        obtain ⟨-, rfl⟩ := Prog.pure_eq_done.mp run
        refine .fine ?_ refs
        rintro ⟨-, p, r, d, t, split, -⟩
        rw [halves] at split
        cases split
    | ok both =>
        obtain ⟨pPath, rPath⟩ := both
        rw [halves] at run
        obtain ⟨⟨rp, parent⟩, s₁, found, run⟩ := Prog.bind_eq_done.mp run
        have refs₁ := doReadvnode_refs found refs
        dsimp only at run refs₁
        split at run
        · next lost =>
          rw [Prog.get_bind_apply] at run
          split at run
          · obtain ⟨-, rfl⟩ := Prog.pure_eq_done.mp run
            rw [if_neg lost] at refs₁
            refine .fine ?_ refs₁
            rintro ⟨-, p, r, d, t, split, found', -⟩
            rw [halves] at split
            cases split
            have same := (done_unique found found').1
            rw [Prod.mk.injEq] at same
            exact lost same.1
          · cases run
        · next here =>
          obtain rfl := not_not.mp here
          rw [if_pos rfl] at refs₁
          refine (mkdirBelow_leaves run refs₁).congr ⟨fun leaks => ?_, ?_⟩
          · exact ⟨by simpa using writable, pPath, rPath, parent, s₁, halves, found, leaks⟩
          · rintro ⟨-, p, r, d, t, split, found', leaks⟩
            rw [halves] at split
            cases split
            obtain ⟨same, rfl⟩ := done_unique found found'
            cases same
            exact leaks

/-! ## Unlinking -/

/-- The parent is found, and then the path is not, or it leads to a directory. -/
def UnlinkLeaks (env : Env) (fs : Superblock) (path : List Byte) (s : State) : Prop :=
  s.fsRonly = false ∧ ∃ pPath rPath p s₁ rc r s₂, doCheckSplit path = .ok (pPath, rPath) ∧
    doReadvnode env fs pPath s = .done (0, p) s₁ ∧ doReadvnode env fs path s₁ = .done (rc, r) s₂ ∧
      (rc ≠ 0 ∨ ∃ v, s₂.vnodes r = some v ∧ sIsdir v.inode.iMode = true)

theorem unlinkPut_drops (p r : Nat) : Drops (p ::ₘ r ::ₘ 0) (unlinkPut env fs p r) :=
  .bind (updateInode_balanced r _) fun _ => .bind (updateInode_balanced p _) fun _ => .put true fun _ => .ite
    (fun _ => .put true fun _ => .pure _) fun _ => .bind (updateInode_balanced r _) fun _ => .put true fun _ => .ite
      (fun _ => .pure _) fun _ => .pure _

theorem unlinkBelow_leaves {path rPath : List Byte} {p : Nat} {rc : Int}
    (run : unlinkBelow env fs path rPath p s = .done rc s') (refs : Refs base (p ::ₘ extra) s) :
    Leaves (∃ rc r s₂, doReadvnode env fs path s = .done (rc, r) s₂ ∧
      (rc ≠ 0 ∨ ∃ v, s₂.vnodes r = some v ∧ sIsdir v.inode.iMode = true)) base extra s' := by
  obtain ⟨⟨rf, r⟩, s₁, found, run⟩ := Prog.bind_eq_done.mp run
  have refs₁ := doReadvnode_refs found refs
  dsimp only at run refs₁
  split at run
  · next lost =>
    obtain ⟨-, rfl⟩ := Prog.pure_eq_done.mp run
    rw [if_neg lost] at refs₁
    exact .leak ⟨rf, r, s₁, found, .inl lost⟩ refs₁
  · next here =>
    obtain rfl := not_not.mp here
    rw [if_pos rfl] at refs₁
    obtain ⟨inode, s₂, read, run⟩ := Prog.bind_eq_done.mp run
    obtain ⟨v, there, rfl, rfl⟩ := vnode2inode_done read
    split at run
    · next dir =>
      obtain ⟨rp, s₃, put, run⟩ := Prog.bind_eq_done.mp run
      obtain ⟨-, rfl⟩ := Prog.pure_eq_done.mp run
      exact .leak ⟨0, r, _, found, .inr ⟨v, there, dir⟩⟩ (vnodePut_refs put refs₁)
    · next file =>
      refine .fine ?_ ?_
      · rintro ⟨rc', r', s₂', found', failed⟩
        obtain ⟨same, rfl⟩ := done_unique found found'
        cases same
        rcases failed with failed | ⟨w, there', dir⟩
        · exact failed rfl
        · rw [there] at there'
          cases there'
          exact file dir
      · obtain ⟨ru, s₃, gone, run⟩ := Prog.bind_eq_done.mp run
        have refs₃ := (ufsUnlink_balanced p rPath r).after gone refs₁
        split at run
        · obtain ⟨rr, s₄, put, run⟩ := Prog.bind_eq_done.mp run
          obtain ⟨rp, s₅, back, run⟩ := Prog.bind_eq_done.mp run
          obtain ⟨-, rfl⟩ := Prog.pure_eq_done.mp run
          exact vnodePut_refs back (vnodePut_refs put refs₃)
        · refine unlinkPut_drops p r base extra s₃ _ s' run ?_
          rw [Multiset.cons_swap] at refs₃
          rwa [Multiset.cons_add, Multiset.cons_add, Multiset.zero_add]

theorem opUnlink_leaves {path : List Byte} {rc : Int} (run : opUnlink env fs path s = .done rc s')
    (refs : Refs base extra s) : Leaves (UnlinkLeaks env fs path s) base extra s' := by
  unfold opUnlink at run
  rw [Prog.get_bind_apply] at run
  split at run
  · next ro =>
    obtain ⟨-, rfl⟩ := Prog.pure_eq_done.mp run
    exact .fine (fun leaks => by rw [leaks.1] at ro; cases ro) refs
  · next writable =>
    cases halves : doCheckSplit path with
    | error e =>
        rw [halves] at run
        obtain ⟨-, rfl⟩ := Prog.pure_eq_done.mp run
        refine .fine ?_ refs
        rintro ⟨-, a, b, c, d, e', f, g, split, -⟩
        rw [halves] at split
        cases split
    | ok both =>
        obtain ⟨pPath, rPath⟩ := both
        rw [halves] at run
        obtain ⟨⟨rp, p⟩, s₁, found, run⟩ := Prog.bind_eq_done.mp run
        have refs₁ := doReadvnode_refs found refs
        dsimp only at run refs₁
        split at run
        · next lost =>
          obtain ⟨-, rfl⟩ := Prog.pure_eq_done.mp run
          rw [if_neg lost] at refs₁
          refine .fine ?_ refs₁
          rintro ⟨-, a, b, c, d, e, f, g, split, found', -⟩
          rw [halves] at split
          cases split
          have same := (done_unique found found').1
          rw [Prod.mk.injEq] at same
          exact lost same.1
        · next here =>
          obtain rfl := not_not.mp here
          rw [if_pos rfl] at refs₁
          refine (unlinkBelow_leaves run refs₁).congr ⟨?_, ?_⟩
          · rintro ⟨rc', r, s₂, looked, failed⟩
            exact ⟨by simpa using writable, pPath, rPath, p, s₁, rc', r, s₂, halves, found, looked, failed⟩
          · rintro ⟨-, a, b, c, d, rc', r, s₂, split, found', looked, failed⟩
            rw [halves] at split
            cases split
            obtain ⟨same, rfl⟩ := done_unique found found'
            cases same
            exact ⟨rc', r, s₂, looked, failed⟩

/-! ## Access -/

/-- The path is looked at and found; nobody gives it back. -/
def AccessLeaks (env : Env) (fs : Superblock) (path : List Byte) (mask : Nat) (s : State) : Prop :=
  ¬ (mask &&& wOk ≠ 0 ∧ s.fsRonly = true) ∧ doCheck path = 0 ∧ ∃ ino s₁, doReadvnode env fs path s = .done (0, ino) s₁

theorem opAccess_leaves {path : List Byte} {mask : Nat} {rc : Int} (run : opAccess env fs path mask s = .done rc s')
    (refs : Refs base extra s) : Leaves (AccessLeaks env fs path mask s) base extra s' := by
  unfold opAccess at run
  rw [Prog.get_bind_apply] at run
  split at run
  · next ro =>
    obtain ⟨-, rfl⟩ := Prog.pure_eq_done.mp run
    exact .fine (fun leaks => leaks.1 ro) refs
  · next may =>
    split at run
    · next bad =>
      obtain ⟨-, rfl⟩ := Prog.pure_eq_done.mp run
      exact .fine (fun leaks => bad leaks.2.1) refs
    · next good =>
      obtain ⟨⟨rf, ino⟩, s₁, found, run⟩ := Prog.bind_eq_done.mp run
      have refs₁ := doReadvnode_refs found refs
      dsimp only at run refs₁
      split at run
      · next lost =>
        obtain ⟨-, rfl⟩ := Prog.pure_eq_done.mp run
        rw [if_neg lost] at refs₁
        refine .fine ?_ refs₁
        rintro ⟨-, -, i, t, found'⟩
        have same := (done_unique found found').1
        rw [Prod.mk.injEq] at same
        exact lost same.1
      · next here =>
        obtain rfl := not_not.mp here
        rw [if_pos rfl] at refs₁
        obtain ⟨inode, s₂, read, run⟩ := Prog.bind_eq_done.mp run
        obtain ⟨-, rfl⟩ := Prog.pure_eq_done.mp run
        have refs₂ := (vnode2inode_balanced ino).after read refs₁
        exact .leak ⟨may, not_not.mp good, ino, s₁, found⟩ refs₂

/-! ## Renaming -/

/-- The new name is entered, and then the old one cannot be taken out. -/
def OldNameStays (env : Env) (fs : Superblock) (rSrc rDest : List Byte) (r : Renamed) (s : State) : Prop :=
  ∃ v s₁ s₂ s₃ s₄ rc s₅, s.vnodes r.src = some v ∧
    ufsLink env fs r.dDest rDest r.src v.inode.iMode s = .done 0 s₁ ∧
    renameParents env fs v.inode.iMode r.dSrc r.dDest r.src s₁ = .done 0 s₂ ∧
    updateInode r.dDest (fun i => { i with iMtime := env.now, iCtime := env.now }) s₂ = .done () s₃ ∧
    updateInode r.src (fun i => { i with iCtime := env.now }) s₃ = .done () s₄ ∧
    ufsUnlink env fs r.dSrc rSrc r.src s₄ = .done rc s₅ ∧ rc ≠ 0

/-- What is in the way of the new name goes first. -/
def RenameStuck (env : Env) (fs : Superblock) (rSrc rDest : List Byte) (r : Renamed) (s : State) : Prop :=
  match r.dest with
  | none => OldNameStays env fs rSrc rDest r s
  | some dest => r.src ≠ dest ∧ ∃ v s₁ s₂, s.vnodes r.src = some v ∧
      renameCheck env fs v.inode.iMode dest s = .done 0 s₁ ∧
      renameReplace env fs rDest r.dDest dest s₁ = .done 0 s₂ ∧ OldNameStays env fs rSrc rDest r s₂

/-- `op_rename` gets as far as the old name, and leaves it. -/
def RenameLeaks (env : Env) (fs : Superblock) (source dest : List Byte) (s : State) : Prop :=
  ∃ pSrc rSrc pDest rDest dSrc dDest src rc found s₁ s₂ s₃ s₄, doCheckSplit source = .ok (pSrc, rSrc) ∧
    doCheckSplit dest = .ok (pDest, rDest) ∧ doReadvnode env fs pSrc s = .done (0, dSrc) s₁ ∧
    doReadvnode env fs pDest s₁ = .done (0, dDest) s₂ ∧ doReadvnode env fs source s₂ = .done (0, src) s₃ ∧
    doReadvnode env fs dest s₃ = .done (rc, found) s₄ ∧ (rc = 0 ∨ rc = -enoent) ∧
      RenameStuck env fs rSrc rDest ⟨dSrc, dDest, src, if rc = 0 then some found else none⟩ s₄

theorem renameCheck_balanced (srcMode dest : Nat) : Drops 0 (renameCheck env fs srcMode dest) :=
  .bind (vnode2inode_balanced dest) fun _ => .ite
    (fun _ => .ite (fun _ => .pure _) fun _ => doCheckEmptyDir_balanced dest)
    fun _ => .ite (fun _ => .pure _) fun _ => .pure _

theorem renameReplace_balanced (rDest : List Byte) (dDest dest : Nat) :
    Drops 0 (renameReplace env fs rDest dDest dest) :=
  .bind (ufsUnlink_balanced _ _ _) fun _ => .ite (fun _ => .pure _) fun _ => .bind (vnode2inode_balanced dest) fun _ =>
    .ite (fun _ => .bind (.keeps fun base extra => doKillfilebyinode_kept (refs_keptByInode base extra) dest) fun _ =>
        .ite (fun _ => .pure _) fun _ => .bind (updateInode_balanced _ _) fun _ => .pure _)
      fun _ => .bind (updateInode_balanced _ _) fun _ => .pure _

theorem renameParents_balanced (srcMode dSrc dDest src : Nat) :
    Drops 0 (renameParents env fs srcMode dSrc dDest src) :=
  .ite (fun _ => .bind (updateInode_balanced _ _) fun _ => .bind (updateInode_balanced _ _) fun _ =>
      .bind (.keeps fun base extra => ufsWriteInode_kept (refs_keptByInode base extra dSrc).toStore) fun _ =>
        .ite (fun _ => .pure _) fun _ => doFixDotdot_balanced _ _)
    fun _ => .pure _

theorem renameMove_balanced (rSrc rDest : List Byte) (r : Renamed) : Drops 0 (renameMove env fs rSrc rDest r) :=
  .bind (vnode2inode_balanced _) fun _ => .bind (ufsLink_balanced _ _ _ _) fun _ => .ite (fun _ => .pure _) fun _ =>
    .bind (renameParents_balanced _ _ _ _) fun _ => .ite (fun _ => .pure _) fun _ =>
      .bind (updateInode_balanced _ _) fun _ => .bind (updateInode_balanced _ _) fun _ =>
        .bind (ufsUnlink_balanced _ _ _) fun _ => .ite (fun _ => .pure _) fun _ =>
          .bind (updateInode_balanced _ _) fun _ => .pure _

theorem renameMove_leaves {rSrc rDest : List Byte} {r : Renamed} {rc : Int} {leaves : Bool}
    (run : renameMove env fs rSrc rDest r s = .done (rc, leaves) s') :
    leaves = true ↔ OldNameStays env fs rSrc rDest r s := by
  obtain ⟨inode, s₁, read, run⟩ := Prog.bind_eq_done.mp run
  obtain ⟨v, there, rfl, rfl⟩ := vnode2inode_done read
  obtain ⟨rl, s₂, linked, run⟩ := Prog.bind_eq_done.mp run
  split at run
  · next failed =>
    obtain ⟨same, -⟩ := Prog.pure_eq_done.mp run
    cases same
    refine ⟨fun h => (Bool.false_ne_true h).elim, ?_⟩
    rintro ⟨w, t₁, t₂, t₃, t₄, rc', t₅, there', linked', -⟩
    rw [there] at there'
    cases there'
    exact absurd (done_unique linked linked').1 failed
  · next fine =>
    obtain rfl := not_not.mp fine
    obtain ⟨rp, s₃, moved, run⟩ := Prog.bind_eq_done.mp run
    split at run
    · next failed =>
      obtain ⟨same, -⟩ := Prog.pure_eq_done.mp run
      cases same
      refine ⟨fun h => (Bool.false_ne_true h).elim, ?_⟩
      rintro ⟨w, t₁, t₂, t₃, t₄, rc', t₅, there', linked', moved', -⟩
      rw [there] at there'
      cases there'
      obtain ⟨-, rfl⟩ := done_unique linked linked'
      exact absurd (done_unique moved moved').1 failed
    · next fine =>
      obtain rfl := not_not.mp fine
      obtain ⟨⟨⟩, s₄, stamped, run⟩ := Prog.bind_eq_done.mp run
      obtain ⟨⟨⟩, s₅, touched, run⟩ := Prog.bind_eq_done.mp run
      obtain ⟨ru, s₆, gone, run⟩ := Prog.bind_eq_done.mp run
      split at run
      · next failed =>
        obtain ⟨same, -⟩ := Prog.pure_eq_done.mp run
        cases same
        exact ⟨fun _ => ⟨v, s₂, s₃, s₄, s₅, ru, s₆, there, linked, moved, stamped, touched, gone, failed⟩, fun _ => rfl⟩
      · next fine =>
        obtain ⟨⟨⟩, s₇, counted, run⟩ := Prog.bind_eq_done.mp run
        obtain ⟨same, -⟩ := Prog.pure_eq_done.mp run
        cases same
        refine ⟨fun h => (Bool.false_ne_true h).elim, ?_⟩
        rintro ⟨w, t₁, t₂, t₃, t₄, rc', t₅, there', linked', moved', stamped', touched', gone', failed⟩
        rw [there] at there'
        cases there'
        obtain ⟨-, rfl⟩ := done_unique linked linked'
        obtain ⟨-, rfl⟩ := done_unique moved moved'
        obtain ⟨-, rfl⟩ := done_unique stamped stamped'
        obtain ⟨-, rfl⟩ := done_unique touched touched'
        obtain ⟨rfl, -⟩ := done_unique gone gone'
        exact absurd failed fine

theorem renameBody_balanced (rSrc rDest : List Byte) (r : Renamed) : Drops 0 (renameBody env fs rSrc rDest r) := by
  unfold renameBody
  cases r.dest with
  | none => exact renameMove_balanced rSrc rDest r
  | some dest =>
      exact .ite (fun _ => .pure _) fun _ => .bind (vnode2inode_balanced _) fun _ => .bind (renameCheck_balanced _ _)
        fun _ => .ite (fun _ => .pure _) fun _ => .bind (renameReplace_balanced _ _ _) fun _ => .ite (fun _ => .pure _)
          fun _ => renameMove_balanced rSrc rDest r

theorem renameBody_leaves {rSrc rDest : List Byte} {r : Renamed} {rc : Int} {leaves : Bool}
    (run : renameBody env fs rSrc rDest r s = .done (rc, leaves) s') :
    leaves = true ↔ RenameStuck env fs rSrc rDest r s := by
  unfold renameBody at run
  unfold RenameStuck
  cases way : r.dest with
  | none =>
      rw [way] at run
      exact renameMove_leaves run
  | some dest =>
      rw [way] at run
      dsimp only at run ⊢
      split at run
      · next same =>
        obtain ⟨both, -⟩ := Prog.pure_eq_done.mp run
        cases both
        exact ⟨fun h => (Bool.false_ne_true h).elim, fun stuck => absurd same stuck.1⟩
      · next other =>
        obtain ⟨inode, s₁, read, run⟩ := Prog.bind_eq_done.mp run
        obtain ⟨v, there, rfl, rfl⟩ := vnode2inode_done read
        obtain ⟨rk, s₂, checked, run⟩ := Prog.bind_eq_done.mp run
        split at run
        · next failed =>
          obtain ⟨both, -⟩ := Prog.pure_eq_done.mp run
          cases both
          refine ⟨fun h => (Bool.false_ne_true h).elim, ?_⟩
          rintro ⟨-, w, t₁, t₂, there', checked', -⟩
          rw [there] at there'
          cases there'
          exact absurd (done_unique checked checked').1 failed
        · next fine =>
          obtain rfl := not_not.mp fine
          obtain ⟨rr, s₃, replaced, run⟩ := Prog.bind_eq_done.mp run
          split at run
          · next failed =>
            obtain ⟨both, -⟩ := Prog.pure_eq_done.mp run
            cases both
            refine ⟨fun h => (Bool.false_ne_true h).elim, ?_⟩
            rintro ⟨-, w, t₁, t₂, there', checked', replaced', -⟩
            rw [there] at there'
            cases there'
            obtain ⟨-, rfl⟩ := done_unique checked checked'
            exact absurd (done_unique replaced replaced').1 failed
          · next fine =>
            obtain rfl := not_not.mp fine
            rw [renameMove_leaves run]
            constructor
            · intro stays
              exact ⟨other, v, s₂, s₃, there, checked, replaced, stays⟩
            · rintro ⟨-, w, t₁, t₂, there', checked', replaced', stays⟩
              rw [there] at there'
              cases there'
              obtain ⟨-, rfl⟩ := done_unique checked checked'
              obtain ⟨-, rfl⟩ := done_unique replaced replaced'
              exact stays

/-- These besides. -/
def besides (held : List Nat) (extra : Multiset Nat) : Multiset Nat := held.foldr (· ::ₘ ·) extra

theorem besides_eq (held : List Nat) (extra : Multiset Nat) : besides held extra = held + extra := by
  induction held with
  | nil => exact (Multiset.zero_add extra).symm
  | cons ino rest ih => rw [← Multiset.cons_coe, Multiset.cons_add, ← ih]; rfl

theorem putAll_refs : ∀ {held : List Nat} {s : State}, putAll env fs held s = .done () s' →
    Refs base (besides held extra) s → Refs base extra s'
  | [], s, run, refs => by
      obtain ⟨-, rfl⟩ := Prog.pure_eq_done.mp run
      exact refs
  | ino :: rest, s, run, refs => by
      obtain ⟨r, s₁, put, run⟩ := Prog.bind_eq_done.mp run
      exact putAll_refs run (vnodePut_refs put refs)

theorem renameBelow_leaves {source dest pDest rSrc rDest : List Byte} {dSrc : Nat} {rc : Int}
    (run : renameBelow env fs source dest pDest rSrc rDest dSrc s = .done rc s') (refs : Refs base (dSrc ::ₘ extra) s) :
    Leaves (∃ dDest src rv found s₁ s₂ s₃, doReadvnode env fs pDest s = .done (0, dDest) s₁ ∧
      doReadvnode env fs source s₁ = .done (0, src) s₂ ∧ doReadvnode env fs dest s₂ = .done (rv, found) s₃ ∧
        (rv = 0 ∨ rv = -enoent) ∧ RenameStuck env fs rSrc rDest ⟨dSrc, dDest, src, if rv = 0 then some found else none⟩ s₃)
      base extra s' := by
  obtain ⟨⟨rd, dDest⟩, s₁, below, run⟩ := Prog.bind_eq_done.mp run
  have refs₁ := doReadvnode_refs below refs
  dsimp only at run refs₁
  split at run
  · next lost =>
    rw [if_neg lost] at refs₁
    obtain ⟨⟨⟩, s₂, put, run⟩ := Prog.bind_eq_done.mp run
    obtain ⟨-, rfl⟩ := Prog.pure_eq_done.mp run
    refine .fine ?_ (putAll_refs put refs₁)
    rintro ⟨a, b, c, d, e, f, g, below', -⟩
    have same := (done_unique below below').1
    rw [Prod.mk.injEq] at same
    exact lost same.1
  · next here =>
    obtain rfl := not_not.mp here
    rw [if_pos rfl] at refs₁
    obtain ⟨⟨rs, src⟩, s₂, looked, run⟩ := Prog.bind_eq_done.mp run
    have refs₂ := doReadvnode_refs looked refs₁
    dsimp only at run refs₂
    split at run
    · next lost =>
      rw [if_neg lost] at refs₂
      obtain ⟨⟨⟩, s₃, put, run⟩ := Prog.bind_eq_done.mp run
      obtain ⟨-, rfl⟩ := Prog.pure_eq_done.mp run
      refine .fine ?_ (putAll_refs put refs₂)
      rintro ⟨a, b, c, d, e, f, g, below', looked', -⟩
      obtain ⟨-, rfl⟩ := done_unique below below'
      have same := (done_unique looked looked').1
      rw [Prod.mk.injEq] at same
      exact lost same.1
    · next here =>
      obtain rfl := not_not.mp here
      rw [if_pos rfl] at refs₂
      obtain ⟨⟨rv, found⟩, s₃, way, run⟩ := Prog.bind_eq_done.mp run
      have refs₃ := doReadvnode_refs way refs₂
      dsimp only at run refs₃
      split at run
      · next failed =>
        rw [if_neg failed.1] at refs₃
        obtain ⟨⟨⟩, s₄, put, run⟩ := Prog.bind_eq_done.mp run
        obtain ⟨-, rfl⟩ := Prog.pure_eq_done.mp run
        refine .fine ?_ (putAll_refs put refs₃)
        rintro ⟨a, b, rv', d, e, f, g, below', looked', way', fine, -⟩
        obtain ⟨-, rfl⟩ := done_unique below below'
        obtain ⟨-, rfl⟩ := done_unique looked looked'
        have same := (done_unique way way').1
        rw [Prod.mk.injEq] at same
        rw [← same.1] at fine
        exact fine.elim failed.1 failed.2
      · next fine =>
        have known : rv = 0 ∨ rv = -enoent := by
          rw [not_and_or, not_not, not_not] at fine
          exact fine
        set r : Renamed := ⟨dSrc, dDest, src, if rv = 0 then some found else none⟩ with hr
        obtain ⟨⟨rb, leaves⟩, s₄, body, run⟩ := Prog.bind_eq_done.mp run
        have stuck := renameBody_leaves body
        have refs₄ := (renameBody_balanced rSrc rDest r).after body refs₃
        have held : Refs base (besides ((if rv = 0 then some found else none).toList ++ [src, dDest, dSrc]) extra) s₄ := by
          split at refs₄
          · next there =>
            rw [if_pos there]
            exact refs₄
          · next missing =>
            rw [if_neg missing]
            exact refs₄
        have same : (∃ dDest src rv found s₁ s₂ s₃, doReadvnode env fs pDest s = .done (0, dDest) s₁ ∧
            doReadvnode env fs source s₁ = .done (0, src) s₂ ∧ doReadvnode env fs dest s₂ = .done (rv, found) s₃ ∧
              (rv = 0 ∨ rv = -enoent) ∧
                RenameStuck env fs rSrc rDest ⟨dSrc, dDest, src, if rv = 0 then some found else none⟩ s₃) ↔
            leaves = true := by
          rw [stuck]
          constructor
          · rintro ⟨a, b, c, d, e, f, g, below', looked', way', -, stuck'⟩
            obtain ⟨both, rfl⟩ := done_unique below below'
            cases both
            obtain ⟨both, rfl⟩ := done_unique looked looked'
            cases both
            obtain ⟨both, rfl⟩ := done_unique way way'
            cases both
            exact stuck'
          · intro stuck'
            exact ⟨dDest, src, rv, found, s₁, s₂, s₃, below, looked, way, known, stuck'⟩
        dsimp only at run
        split at run
        · next left =>
          obtain ⟨-, rfl⟩ := Prog.pure_eq_done.mp run
          rw [besides_eq] at held
          refine ⟨_, ⟨fun _ => same.mpr left, fun _ empty => ?_⟩, held⟩
          have none := congrArg Multiset.card empty
          simp at none
        · next put =>
          obtain ⟨⟨⟩, s₅, back, run⟩ := Prog.bind_eq_done.mp run
          obtain ⟨-, rfl⟩ := Prog.pure_eq_done.mp run
          exact .fine (fun lost => put (same.mp lost)) (putAll_refs back held)

theorem opRename_leaves {source dest : List Byte} {rc : Int} (run : opRename env fs source dest s = .done rc s')
    (refs : Refs base extra s) : Leaves (RenameLeaks env fs source dest s) base extra s' := by
  unfold opRename at run
  cases halves : doCheckSplit source with
  | error e =>
      rw [halves] at run
      obtain ⟨-, rfl⟩ := Prog.pure_eq_done.mp run
      refine .fine ?_ refs
      rintro ⟨a, b, c, d, e', f, g, h, i, j, k, l, n, split, -⟩
      rw [halves] at split
      cases split
  | ok both =>
      obtain ⟨pSrc, rSrc⟩ := both
      rw [halves] at run
      dsimp only at run
      cases other : doCheckSplit dest with
      | error e =>
          rw [other] at run
          dsimp only at run
          rw [Prog.get_bind_apply] at run
          split at run
          · obtain ⟨-, rfl⟩ := Prog.pure_eq_done.mp run
            refine .fine ?_ refs
            rintro ⟨a, b, c, d, e', f, g, h, i, j, k, l, n, -, split, -⟩
            rw [other] at split
            cases split
          · cases run
      | ok both =>
          obtain ⟨pDest, rDest⟩ := both
          rw [other] at run
          obtain ⟨⟨rp, dSrc⟩, s₁, found, run⟩ := Prog.bind_eq_done.mp run
          have refs₁ := doReadvnode_refs found refs
          dsimp only at run refs₁
          split at run
          · next lost =>
            obtain ⟨-, rfl⟩ := Prog.pure_eq_done.mp run
            rw [if_neg lost] at refs₁
            refine .fine ?_ refs₁
            rintro ⟨a, b, c, d, e', f, g, h, i, j, k, l, n, split, -, found', -⟩
            rw [halves] at split
            cases split
            have same := (done_unique found found').1
            rw [Prod.mk.injEq] at same
            exact lost same.1
          · next here =>
            obtain rfl := not_not.mp here
            rw [if_pos rfl] at refs₁
            refine (renameBelow_leaves run refs₁).congr ⟨?_, ?_⟩
            · rintro ⟨dDest, src, rv, x, s₂, s₃, s₄, below, looked, way, fine, stuck⟩
              exact ⟨pSrc, rSrc, pDest, rDest, dSrc, dDest, src, rv, x, s₁, s₂, s₃, s₄, halves, other, found, below,
                looked, way, fine, stuck⟩
            · rintro ⟨a, b, c, d, e, dDest, src, rv, x, s₁', s₂, s₃, s₄, split, split', found', rest⟩
              rw [halves] at split
              cases split
              rw [other] at split'
              cases split'
              obtain ⟨both, rfl⟩ := done_unique found found'
              cases both
              exact ⟨dDest, src, rv, x, s₂, s₃, s₄, rest⟩

end FuseUfs
