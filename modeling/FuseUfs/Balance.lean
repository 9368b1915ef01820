import FuseUfs.Attributes
import FuseUfs.Callbacks
import FuseUfs.Leaks
import Mathlib.Data.Set.Card

/-! # The balance of references

A call is balanced when the counts after it are those before it, but for the handle that it has made
or released. A vnode then has as many references as its inode has handles, whatever calls went before.
-/

namespace FuseUfs

open Lib Prog

variable {env : Env} {fs : Superblock} {s s' : State} {base : Tally} {extra : Multiset Nat}

/-! ## Handles -/

/-- The new handle, if the open succeeds, and its reference. -/
theorem opOpen_refs {path : List Byte} {write : Bool} {fh : Nat} {rc : Int}
    (run : opOpen env fs path write fh s = .done rc s') (refs : Refs base extra s) :
    (rc ≠ 0 ∧ doOpen env fs path write s = .done none s' ∧ Refs base extra s') ∨
      ∃ ino, rc = 0 ∧ Refs { base with handles := Function.update base.handles fh (some ino) } (ino ::ₘ extra) s' := by
  obtain ⟨file, s₁, opened, run⟩ := Prog.bind_eq_done.mp run
  have refs₁ := doOpen_refs opened refs
  cases file with
  | none =>
      obtain ⟨rfl, rfl⟩ := Prog.pure_eq_done.mp run
      rw [Option.elim_none, Multiset.zero_add] at refs₁
      exact .inl ⟨by decide, opened, refs₁⟩
  | some file =>
      dsimp only at run
      rw [Prog.modify_bind_apply] at run
      obtain ⟨rfl, rfl⟩ := Prog.pure_eq_done.mp run
      refine .inr ⟨file.ino, rfl, refs₁.counted, fun i => ?_⟩
      dsimp only
      by_cases this : i = fh
      · subst this
        rw [Function.update_self, Function.update_self]
        rfl
      · rw [Function.update_of_ne this, Function.update_of_ne this]
        exact refs₁.handles i

/-- The reference of the handle at `fh`. -/
def State.handle (s : State) (fh : Nat) : Multiset Nat := (s.files fh).elim 0 fun file => {file.ino}

/-- The vnode that a successful call has opened. -/
def Callback.opened (c : Callback) (r : Int) (s' : State) : Multiset Nat :=
  if r = 0 then c.newHandle.elim 0 s'.handle else 0

/-- The vnode whose handle the call releases. -/
def Callback.closed (c : Callback) (s : State) : Multiset Nat :=
  match c with
  | .release fh => if fh = 0 then 0 else s.handle fh
  | _ => 0

/-- When a call keeps a reference that nobody will give back. -/
def Callback.Leaks (env : Env) (fs : Superblock) (s : State) : Callback → Prop
  | access path mask => AccessLeaks env fs path mask s
  | mknod path mode dev => s.fsRonly = false ∧ CreateLeaks env fs path mode dev none s
  | symlink target path => CreateLeaks env fs path linkMode (0, 0)
      (if target.length < fs.fsMaxsymlinklen then some target else none) s
  | create path mode w _ => ∃ s₁, doOpen env fs path w s = .done none s₁ ∧ CreateLeaks env fs path mode (0, 0) none s₁
  | mkdir path _ => MkdirLeaks env fs path s
  | unlink path => UnlinkLeaks env fs path s
  | rename source dest => RenameLeaks env fs source dest s
  | _ => False

/-- How a call ends: it has opened a handle, or released one, or neither. -/
inductive Booked (c : Callback) (s : State) (r : Int) (s' : State) (leak : Multiset Nat) : Prop
  | same (opened : c.opened r s' = 0) (closed : c.closed s = 0) (refs : Refs s.tally leak s')
  | opened {fh ino : Nat} (new : c.newHandle = some fh) (opened : c.opened r s' = {ino}) (closed : c.closed s = 0)
      (refs : Refs { s.tally with handles := Function.update s.tally.handles fh (some ino) } (ino ::ₘ leak) s')
  | closed {fh ino : Nat} {left : Nat → Nat} (opened : c.opened r s' = 0) (closed : c.closed s = {ino})
      (old : s.tally.handles fh = some ino) (counted : ∀ i, s.refs i = left i + ({ino} : Multiset Nat).count i)
      (refs : Refs ⟨left, Function.update s.tally.handles fh none⟩ leak s')

theorem handle_eq {fh ino : Nat} (there : s.tally.handles fh = some ino) : s.handle fh = {ino} := by
  change (s.files fh).map UfsFile.ino = some ino at there
  unfold State.handle
  cases here : s.files fh with
  | none =>
      rw [here] at there
      cases there
  | some file =>
      rw [here] at there
      cases there
      rfl

/-- A call that opens nothing, releases nothing and gives back what it takes. -/
theorem Booked.balanced {c : Callback} {α : Type} {x : M α} {a : α} {r : Int} (held : Held s) (drops : Drops 0 x)
    (run : x s = .done a s') (new : c.newHandle = none) (closed : c.closed s = 0) : Booked c s r s' 0 := by
  refine .same ?_ closed (drops.after run held.refs)
  rw [Callback.opened, new]
  exact ite_self 0

/-- One that opens and releases nothing. -/
theorem Booked.left {c : Callback} {lost : Prop} {r : Int} (leaves : Leaves lost s.tally 0 s')
    (new : c.newHandle = none) (closed : c.closed s = 0) : ∃ leak, (leak ≠ 0 ↔ lost) ∧ Booked c s r s' leak := by
  obtain ⟨leak, iff, refs⟩ := leaves
  rw [Multiset.add_zero] at refs
  refine ⟨leak, iff, .same ?_ closed refs⟩
  rw [Callback.opened, new]
  exact ite_self 0

theorem opOpen_booked {path : List Byte} {write : Bool} {fh : Nat} {r : Int} (held : Held s)
    (run : opOpen env fs path write fh s = .done r s') : Booked (.openFile path write fh) s r s' 0 := by
  rcases opOpen_refs run held.refs with ⟨failed, -, refs⟩ | ⟨ino, rfl, refs⟩
  · exact .same (if_neg failed) rfl refs
  · refine .opened rfl ?_ rfl refs
    rw [Callback.opened, if_pos rfl]
    refine handle_eq ?_
    rw [show s'.tally.handles fh = _ from refs.handles fh]
    exact Function.update_self ..

/-- An existing file is opened; otherwise it is made and opened then. -/
theorem opCreate_booked {path : List Byte} {mode : Nat} {write : Bool} {fh : Nat} {r : Int} (held : Held s)
    (run : opCreate env fs path mode write fh s = .done r s') :
    ∃ leak, (leak ≠ 0 ↔ (Callback.create path mode write fh).Leaks env fs s) ∧
      Booked (.create path mode write fh) s r s' leak := by
  obtain ⟨r₁, s₁, opened, run⟩ := Prog.bind_eq_done.mp run
  rcases opOpen_refs opened held.refs with ⟨failed, missing, refs⟩ | ⟨ino, rfl, refs⟩
  · rw [if_neg failed] at run
    obtain ⟨r₂, s₂, made, run⟩ := Prog.bind_eq_done.mp run
    obtain ⟨leak, iff, refs₂⟩ := doCreate_leaves made refs
    rw [Multiset.add_zero] at refs₂
    have leaks : leak ≠ 0 ↔ (Callback.create path mode write fh).Leaks env fs s := by
      rw [iff]
      constructor
      · intro leaks
        exact ⟨s₁, missing, leaks⟩
      · rintro ⟨t, missing', leaks⟩
        obtain ⟨-, rfl⟩ := done_unique missing missing'
        exact leaks
    refine ⟨leak, leaks, ?_⟩
    split at run
    · next failed =>
      obtain ⟨rfl, rfl⟩ := Prog.pure_eq_done.mp run
      exact .same (if_neg failed) rfl refs₂
    · obtain ⟨r₃, s₃, again, run⟩ := Prog.bind_eq_done.mp run
      rcases opOpen_refs again refs₂ with ⟨failed, -, refs₃⟩ | ⟨ino, rfl, refs₃⟩
      · rw [if_pos failed] at run
        obtain ⟨rfl, rfl⟩ := Prog.pure_eq_done.mp run
        exact .same (if_neg (by decide)) rfl refs₃
      · rw [if_neg (not_not.mpr rfl)] at run
        obtain ⟨rfl, rfl⟩ := Prog.pure_eq_done.mp run
        refine .opened rfl ?_ rfl refs₃
        rw [Callback.opened, if_pos rfl]
        refine handle_eq ?_
        rw [show s₃.tally.handles fh = _ from refs₃.handles fh]
        exact Function.update_self ..
  · rw [if_pos rfl] at run
    obtain ⟨rfl, rfl⟩ := Prog.pure_eq_done.mp run
    refine ⟨0, ⟨fun h => absurd rfl h, ?_⟩, .opened rfl ?_ rfl refs⟩
    · rintro ⟨t, missing, -⟩
      obtain ⟨file, t', ran, opened⟩ := Prog.bind_eq_done.mp opened
      obtain ⟨rfl, rfl⟩ := done_unique missing ran
      cases (Prog.pure_eq_done.mp opened).1
    · rw [Callback.opened, if_pos rfl]
      refine handle_eq ?_
      rw [show s₁.tally.handles fh = _ from refs.handles fh]
      exact Function.update_self ..

/-- Only a handle whose vnode is in core can be released. -/
theorem doRelease_used {file : UfsFile} {rc : Int} (run : doRelease env fs file s = .done rc s') :
    s.vnodes file.ino ≠ none := by
  intro missing
  obtain ⟨r₁, s₁, closed, -⟩ := Prog.bind_eq_done.mp run
  obtain ⟨r₂, s₂, flushed, -⟩ := Prog.bind_eq_done.mp closed
  obtain ⟨inode, s₃, read, -⟩ := Prog.bind_eq_done.mp flushed
  obtain ⟨v, there, -⟩ := vnode2inode_done read
  rw [missing] at there
  cases there

theorem opRelease_booked {fh : Nat} {r : Int} (held : Held s) (run : opRelease env fs fh s = .done r s') :
    Booked (.release fh) s r s' 0 := by
  have none : Callback.opened (.release fh) r s' = 0 := ite_self 0
  unfold opRelease at run
  split at run
  · next null =>
    obtain ⟨-, rfl⟩ := Prog.pure_eq_done.mp run
    exact .same none (if_pos null) held.refs
  · next pointer =>
    rw [Prog.get_bind_apply] at run
    cases here : s.files fh with
    | none =>
        rw [here] at run
        cases run
    | some file =>
        rw [here] at run
        obtain ⟨rc, s₁, released, run⟩ := Prog.bind_eq_done.mp run
        rw [Prog.modify_bind_apply] at run
        obtain ⟨-, rfl⟩ := Prog.pure_eq_done.mp run
        have old : s.tally.handles fh = some file.ino := by
          change (s.files fh).map UfsFile.ino = _
          rw [here]
          rfl
        have used := doRelease_used released
        set left : Nat → Nat := fun i => s.refs i - ({file.ino} : Multiset Nat).count i with hleft
        have counted : ∀ i, s.refs i = left i + ({file.ino} : Multiset Nat).count i := by
          intro i
          rw [hleft]
          dsimp only
          by_cases same : i = file.ino
          · rw [same, Multiset.count_singleton_self]
            have := held.refs_pos used
            omega
          · rw [Multiset.count_singleton, if_neg same]
            omega
        have refs : Refs ⟨left, s.tally.handles⟩ ({file.ino} + 0) s := by
          refine ⟨fun i => ?_, fun _ => rfl⟩
          have whole := held.refs.counted i
          rw [Multiset.count_zero, Nat.add_zero, show s.tally.refs i = s.refs i from rfl, counted i] at whole
          rw [Multiset.add_zero]
          exact whole
        have refs₁ := doRelease_drops file _ _ s rc s₁ released refs
        refine .closed none ?_ old counted ⟨refs₁.counted, fun i => ?_⟩
        · rw [Callback.closed, if_neg pointer, handle_eq old]
        · dsimp only
          by_cases this : i = fh
          · subst this
            rw [Function.update_self, Function.update_self]
            rfl
          · rw [Function.update_of_ne this, Function.update_of_ne this]
            exact refs₁.handles i

/-! ## Every callback -/

theorem flushCsum_balanced : ∀ left i, Drops 0 (flushCsum env fs left i)
  | 0, _ => .pure _
  | left + 1, i => by
      rw [flushCsum]
      refine .ite (fun _ => ?_) fun _ => .pure _
      have tried : Drops 0 (tryWrite env) :=
        .keeps fun base extra => tryWrite_kept (refs_keptByInode base extra 0).toKeptByGroups
      have rest : Drops 0 (if 2 ^ 31 ≤ i + fs.fsBsize then Prog.halt else flushCsum env fs left (i + fs.fsBsize)) :=
        .ite (fun _ => .halt) fun _ => flushCsum_balanced left _
      exact .bind tried fun _ => .ite
        (fun _ => .bind (.keeps fun _ _ => .modify fun _ h => ⟨h.counted, h.handles⟩) fun _ => rest)
        fun _ => rest

theorem opDestroy_balanced : Drops 0 (opDestroy env fs) :=
  .bind .get fun _ => .ite (fun _ => .bind (flushCsum_balanced _ _) fun _ => .bind (sbwrite_balanced true) fun _ => .pure _)
    fun _ => .pure _

theorem opRead_balanced (fh size offset : Nat) : Drops 0 (opRead env fs fh size offset) :=
  withFile_balanced fh
    (fun file => .bind (.keeps fun base extra => doRead_kept (fun i => (refs_keptByInode base extra i).toStore) file _ _)
      fun _ => .pure _)
    fun file => .bind (doRead_ino file size offset) fun _ same => .pure same

theorem opWrite_balanced (fh : Nat) (src : Buf) (size offset : Nat) : Drops 0 (opWrite env fs fh src size offset) :=
  withFile_balanced fh
    (fun file => .bind (.keeps fun base extra => doWrite_kept (refs_keptByInode base extra) file _ _ _) fun _ => .pure _)
    fun file => .bind (doWrite_ino file src size offset) fun _ same => .pure same

theorem opFlush_balanced (fh : Nat) : Drops 0 (opFlush env fs fh) :=
  .ite (fun _ => .pure _) fun _ => withFile_balanced fh
    (fun file => .bind (.keeps fun base extra => ufsFileFlush_kept (fun i => (refs_keptByInode base extra i).toStore) file)
      fun _ => .pure _)
    fun file => .bind (ufsFileFlush_ino file) fun _ same => .pure same

theorem opFtruncate_balanced (fh length : Nat) : Drops 0 (opFtruncate env fs fh length) :=
  withFile_balanced fh (fun file => .keeps fun base extra => ufsFileSetSize_kept (refs_keptByInode base extra) file length)
    fun file => ufsFileSetSize_ino file length

theorem callback_booked {c : Callback} {r : Int} (held : Held s) (run : c.run env fs s = .done r s') :
    ∃ leak, (leak ≠ 0 ↔ c.Leaks env fs s) ∧ Booked c s r s' leak := by
  have balanced : c.newHandle = none → c.closed s = 0 → ¬ c.Leaks env fs s → Drops 0 (c.run env fs) →
      ∃ leak, (leak ≠ 0 ↔ c.Leaks env fs s) ∧ Booked c s r s' leak := fun new closed never drops =>
    ⟨0, ⟨fun h => absurd rfl h, fun leaks => absurd leaks never⟩, .balanced held drops run new closed⟩
  cases c with
  | getattr path =>
      exact balanced rfl rfl id (.bind (.ite (fun _ => .pure _) fun _ => opFgetattr_balanced path) fun _ => .pure _)
  | readlink path size => exact balanced rfl rfl id (.bind (opReadlink_balanced path size) fun _ => .pure _)
  | mknod path mode dev => exact Booked.left (opMknod_leaves run held.refs) rfl rfl
  | mkdir path mode => exact Booked.left (opMkdir_leaves run held.refs) rfl rfl
  | unlink path => exact Booked.left (opUnlink_leaves run held.refs) rfl rfl
  | rmdir path => exact balanced rfl rfl id (opRmdir_balanced path)
  | symlink target path => exact Booked.left (opSymlink_leaves run held.refs) rfl rfl
  | rename source dest => exact Booked.left (opRename_leaves run held.refs) rfl rfl
  | link source dest => exact balanced rfl rfl id (opLink_balanced source dest)
  | chmod path mode =>
      exact balanced rfl rfl id (.bind .get fun _ => .ite (fun _ => .pure _) fun _ => .ite (fun _ => .pure _) fun _ =>
        changeAttr_balanced path _)
  | chown path uid gid =>
      exact balanced rfl rfl id (.bind .get fun _ => .ite (fun _ => .pure _) fun _ => changeAttr_balanced path _)
  | truncate path length => exact balanced rfl rfl id (opTruncate_balanced path length)
  | openFile path write fh => exact ⟨0, ⟨fun h => absurd rfl h, False.elim⟩, opOpen_booked held run⟩
  | read fh size offset => exact balanced rfl rfl id (.bind (opRead_balanced fh size offset) fun _ => .pure _)
  | write fh src size offset => exact balanced rfl rfl id (opWrite_balanced fh src size offset)
  | statfs path => exact balanced rfl rfl id (.pure _)
  | flush fh => exact balanced rfl rfl id (opFlush_balanced fh)
  | release fh => exact ⟨0, ⟨fun h => absurd rfl h, False.elim⟩, opRelease_booked held run⟩
  | fsync => exact balanced rfl rfl id opFsync_balanced
  | readdir path filler r => exact balanced rfl rfl id (.bind (opReaddir_balanced path filler r) fun _ => .pure _)
  | destroy => exact balanced rfl rfl id (.bind opDestroy_balanced fun _ => .pure _)
  | access path mask => exact Booked.left (opAccess_leaves run held.refs) rfl rfl
  | create path mode write fh => exact opCreate_booked held run
  | ftruncate fh length => exact balanced rfl rfl id (opFtruncate_balanced fh length)
  | fgetattr path => exact balanced rfl rfl id (.bind (opFgetattr_balanced path) fun _ => .pure _)
  | utimens path tv => exact balanced rfl rfl id (changeAttr_balanced path _)

/-- The counts after a call are those before it, with what it has opened and without what it has released. -/
def Callback.Balanced (c : Callback) (s : State) (r : Int) (s' : State) : Prop :=
  ∀ i, s'.refs i + (c.closed s).count i = s.refs i + (c.opened r s').count i

/-- What a call has lost comes on top. -/
theorem Booked.counts {c : Callback} {r : Int} {leak : Multiset Nat} (booked : Booked c s r s' leak) (i : Nat) :
    s'.refs i + (c.closed s).count i = s.refs i + (c.opened r s').count i + leak.count i := by
  cases booked with
  | same opened closed refs =>
      rw [opened, closed, refs.eq i, Multiset.count_zero]
      change s.refs i + _ + 0 = s.refs i + 0 + _
      omega
  | opened new opened closed refs =>
      rw [opened, closed, refs.eq i, Multiset.count_zero, ← Multiset.singleton_add, Multiset.count_add]
      change s.refs i + _ + 0 = _
      omega
  | closed opened closed old counted refs =>
      rw [opened, closed, refs.eq i, counted i, Multiset.count_zero]
      dsimp only
      omega

theorem Booked.balanced_iff {c : Callback} {r : Int} {leak : Multiset Nat} (booked : Booked c s r s' leak) :
    c.Balanced s r s' ↔ leak = 0 := by
  constructor
  · intro balanced
    refine Multiset.ext.mpr fun i => ?_
    have one := balanced i
    have two := booked.counts i
    rw [Multiset.count_zero]
    omega
  · rintro rfl i
    have := booked.counts i
    rw [Multiset.count_zero] at this
    exact this

/-! ## Runs -/

/-- The handles of an inode. -/
def State.handlesOn (s : State) (i : Nat) : Set Nat := {fh | s.tally.handles fh = some i}

/-- Runs of callbacks none of which leaks, from the mount on. A new handle is not null, and is put where none is. -/
inductive BalancedRun (env : Env) (fs : Superblock) : State → Prop
  | mount {s s' : State} {readonly : Bool} (run : opInit env fs readonly s = .done () s') : BalancedRun env fs s'
  | call {s s' : State} {c : Callback} {r : Int} (before : BalancedRun env fs s)
      (new : ∀ fh, c.newHandle = some fh → fh ≠ 0 ∧ s.files fh = none) (fine : ¬ c.Leaks env fs s)
      (run : c.run env fs s = .done r s') : BalancedRun env fs s'

/-- Every vnode in core is referenced, once for each of the handles of its inode. -/
structure Accounted (s : State) : Prop where
  held : Held s
  finite : ∀ i, (s.handlesOn i).Finite
  counted : ∀ i, s.refs i = (s.handlesOn i).ncard

/-- A place that is added to a table, for one of its values. -/
theorem ncard_update_some {f : Nat → Option Nat} {k a : Nat} (free : f k = none) (b : Nat)
    (finite : {x | f x = some b}.Finite) : {x | Function.update f k (some a) x = some b}.Finite ∧
      {x | Function.update f k (some a) x = some b}.ncard = {x | f x = some b}.ncard + ({a} : Multiset Nat).count b := by
  by_cases same : b = a
  · subst same
    have added : {x | Function.update f k (some b) x = some b} = insert k {x | f x = some b} := by
      ext x
      by_cases here : x = k
      · subst here
        simp
      · simp [here]
    rw [added, Multiset.count_singleton_self]
    exact ⟨finite.insert k, Set.ncard_insert_of_notMem (by simp [free]) finite⟩
  · have kept : {x | Function.update f k (some a) x = some b} = {x | f x = some b} := by
      ext x
      by_cases here : x = k
      · subst here
        simp [free, Ne.symm same]
      · simp [here]
    rw [kept, Multiset.count_singleton, if_neg same]
    exact ⟨finite, rfl⟩

theorem Booked.held {c : Callback} {r : Int} {leak : Multiset Nat} (booked : Booked c s r s' leak) : Held s' := by
  cases booked with
  | same opened closed refs => exact refs.held
  | opened new opened closed refs => exact refs.held
  | closed opened closed old counted refs => exact refs.held

/-- The handles of an inode after a call. -/
theorem Booked.handles {c : Callback} {r : Int} {leak : Multiset Nat} (booked : Booked c s r s' leak)
    (new : ∀ fh, c.newHandle = some fh → s.files fh = none) (i : Nat) (finite : (s.handlesOn i).Finite) :
    (s'.handlesOn i).Finite ∧
      (s'.handlesOn i).ncard + (c.closed s).count i = (s.handlesOn i).ncard + (c.opened r s').count i := by
  cases booked with
  | same opened closed refs =>
      have handles : s'.tally.handles = s.tally.handles := funext refs.handles
      rw [State.handlesOn, handles, opened, closed]
      exact ⟨finite, rfl⟩
  | @opened fh ino put opened closed refs =>
      have handles : s'.tally.handles = Function.update s.tally.handles fh (some ino) := funext refs.handles
      have free : s.tally.handles fh = none := by
        change (s.files fh).map UfsFile.ino = none
        rw [new fh put]
        rfl
      rw [State.handlesOn, handles, opened, closed]
      obtain ⟨still, grown⟩ := ncard_update_some (a := ino) free i finite
      exact ⟨still, grown⟩
  | @closed fh ino left opened closed old counted refs =>
      have handles : s'.tally.handles = Function.update s.tally.handles fh none := funext refs.handles
      have less : (s'.handlesOn i).Finite := finite.subset fun x member => by
        change s'.tally.handles x = some i at member
        rw [handles] at member
        by_cases here : x = fh
        · rw [here, Function.update_self] at member
          cases member
        · rwa [Function.update_of_ne here] at member
      -- the table before the release is the one after it with the handle put in
      have before : s.tally.handles = Function.update s'.tally.handles fh (some ino) := by
        rw [handles, Function.update_idem, ← old, Function.update_eq_self]
      have free : s'.tally.handles fh = none := by rw [handles, Function.update_self]
      have grown := (ncard_update_some free (a := ino) i less).2
      rw [← before] at grown
      refine ⟨less, ?_⟩
      rw [opened, closed]
      exact grown.symm

theorem Booked.accounted {c : Callback} {r : Int} (booked : Booked c s r s' 0) (ok : Accounted s)
    (new : ∀ fh, c.newHandle = some fh → s.files fh = none) : Accounted s' := by
  refine ⟨booked.held, fun i => (booked.handles new i (ok.finite i)).1, fun i => ?_⟩
  have counts := booked.counts i
  have handles := (booked.handles new i (ok.finite i)).2
  have before := ok.counted i
  rw [Multiset.count_zero] at counts
  omega

theorem opInit_accounted {readonly : Bool} (run : opInit env fs readonly s = .done () s') : Accounted s' := by
  have empty : s'.vnodes = (fun _ => none) ∧ s'.files = fun _ => none := by
    obtain ⟨ok, s₁, read, run⟩ := Prog.bind_eq_done.mp run
    split at run
    · rw [Prog.modify_bind_apply] at run
      split at run
      · cases run
      · obtain ⟨⟨⟩, s₂, loaded, run⟩ := Prog.bind_eq_done.mp run
        cases run
        have blank : s₂.vnodes = (fun _ => none) ∧ s₂.files = fun _ => none :=
          (loadCsum_kept _ (fun s => s.vnodes = (fun _ => none) ∧ s.files = fun _ => none) (fun _ _ _ h => h)
            _ _ _).after loaded ⟨rfl, rfl⟩
        exact blank
    · cases run
  obtain ⟨vnodes, files⟩ := empty
  have none : ∀ i, s'.handlesOn i = ∅ := by
    intro i
    ext fh
    change (s'.files fh).map UfsFile.ino = some i ↔ False
    rw [files]
    simp
  refine ⟨fun i v there => ?_, fun i => ?_, fun i => ?_⟩
  · rw [vnodes] at there
    cases there
  · rw [none i]
    exact Set.finite_empty
  · rw [none i, Set.ncard_empty, State.refs, vnodes]
    rfl

theorem balancedRun_accounted (run : BalancedRun env fs s) : Accounted s := by
  induction run with
  | mount run => exact opInit_accounted run
  | call before new fine run ih =>
      obtain ⟨leak, iff, booked⟩ := callback_booked ih.held run
      obtain rfl : leak = 0 := not_not.mp fun leaks => fine (iff.mp leaks)
      exact booked.accounted ih fun fh put => (new fh put).2

end FuseUfs
