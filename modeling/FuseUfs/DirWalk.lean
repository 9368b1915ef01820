import FuseUfs.BmapLookup
import FuseUfs.Directory

/-! # When a walk over a directory ends

A procedure that reads leaves the buffer alone and decides from the record alone whether to
end the walk. The offsets that such a walk visits in a block are then a sequence fixed by the
bytes of the block: each record's length leads to the next. The walk is caught in the block
exactly when the sequence comes to a record of length 0 and does not end there.
-/

namespace FuseUfs

open Lib Prog

/-! ## The offsets of a block -/

section Chain

variable (stops : Buf → Nat → Bool) (inside : Nat → Prop) (buf : Buf)

/-- The offset of turn `k`. -/
def chainAt : Nat → Nat
  | 0 => 0
  | k + 1 => chainAt k + dReclen buf (chainAt k)

/-- The first `k` turns are made, and none of them ends the walk. -/
def Turns (k : Nat) : Prop := ∀ j < k, inside (chainAt buf j) ∧ stops buf (chainAt buf j) = false

/-- The walk comes to a record of length 0 and does not end there. -/
def Caught : Prop := ∃ k, Turns stops inside buf (k + 1) ∧ dReclen buf (chainAt buf k) = 0

/-- The walk ends in this block, at some record. -/
def Aborts : Prop := ∃ k, Turns stops inside buf k ∧ inside (chainAt buf k) ∧ stops buf (chainAt buf k) = true

variable {stops inside buf}

theorem Turns.zero : Turns stops inside buf 0 := fun j hj => absurd hj (Nat.not_lt_zero j)

theorem Turns.succ {k : Nat} (turns : Turns stops inside buf k) (here : inside (chainAt buf k))
    (goes : stops buf (chainAt buf k) = false) : Turns stops inside buf (k + 1) := by
  intro j hj
  rcases Nat.lt_succ_iff_lt_or_eq.mp hj with early | rfl
  · exact turns j early
  · exact ⟨here, goes⟩

theorem Turns.less {j k : Nat} (turns : Turns stops inside buf k) (le : j ≤ k) : Turns stops inside buf j :=
  fun i hi => turns i (Nat.lt_of_lt_of_le hi le)

/-- From a record of length 0 on the offset stays. -/
theorem chainAt_stays {k : Nat} (zero : dReclen buf (chainAt buf k) = 0) : ∀ n,
    chainAt buf (k + n) = chainAt buf k
  | 0 => rfl
  | n + 1 => by
      rw [← Nat.add_assoc, chainAt, chainAt_stays zero n, zero, Nat.add_zero]

/-- A walk that is caught never ends. -/
theorem Caught.turns (caught : Caught stops inside buf) (n : Nat) : Turns stops inside buf n := by
  obtain ⟨k, turns, zero⟩ := caught
  intro j hj
  rcases Nat.lt_or_ge j (k + 1) with early | late
  · exact turns j early
  · have same : chainAt buf j = chainAt buf k := by
      obtain ⟨m, rfl⟩ := Nat.exists_eq_add_of_le (by omega : k ≤ j)
      exact chainAt_stays zero m
    rw [same]
    exact turns k (Nat.lt_succ_self k)

/-- A walk that is not caught moves by a byte at least with each turn. -/
theorem le_chainAt (free : ¬ Caught stops inside buf) : ∀ {k}, Turns stops inside buf k → k ≤ chainAt buf k
  | 0, _ => Nat.zero_le _
  | k + 1, turns => by
      have before := le_chainAt free (turns.less (Nat.le_succ k))
      have moves : dReclen buf (chainAt buf k) ≠ 0 := fun zero => free ⟨k, turns, zero⟩
      rw [chainAt]
      omega

theorem not_aborts_of_ended {k : Nat} (turns : Turns stops inside buf k) (ended : ¬ inside (chainAt buf k)) :
    ¬ Aborts stops inside buf := by
  rintro ⟨m, before, here, stop⟩
  rcases Nat.lt_trichotomy m k with early | rfl | late
  · rw [(turns m early).2] at stop
    cases stop
  · exact ended here
  · exact ended (before k late).1

end Chain

/-! ## The records of one block -/

section Records

variable {env : Env} {fs : Superblock} {σ : Type} {func : DirProc σ} {stops : Buf → Nat → Bool}

/-- The procedure leaves the buffer alone, and the record decides whether the walk ends. -/
def Reader (func : DirProc σ) (stops : Buf → Nat → Bool) : Prop :=
  ∀ buf off p, ∃ ret p', func buf off p = some (ret, buf, p') ∧ hasBit ret 1 = stops buf off

/-- The same state but for the transfers that have been made. -/
def SameStore (s s' : State) : Prop := ∃ t l, s' = { s with tick := t, log := l }

theorem SameStore.refl (s : State) : SameStore s s := ⟨s.tick, s.log, rfl⟩

theorem SameStore.trans {s s' s'' : State} (first : SameStore s s') (second : SameStore s' s'') :
    SameStore s s'' := by
  obtain ⟨t, l, rfl⟩ := first
  obtain ⟨t', l', rfl⟩ := second
  exact ⟨t', l', rfl⟩

theorem SameStore.atTick (s : State) (t : Nat) : SameStore s (s.atTick t) := ⟨t, s.log, rfl⟩

theorem SameStore.data {s s' : State} (same : SameStore s s') : s'.data = s.data := by
  obtain ⟨t, l, rfl⟩ := same
  rfl

theorem SameStore.vnodes {s s' : State} (same : SameStore s s') : s'.vnodes = s.vnodes := by
  obtain ⟨t, l, rfl⟩ := same
  rfl

/-- Writing back what was read changes nothing. -/
theorem store_same {data : Nat → Byte} {addr size : Nat} {buf : Buf}
    (same : ∀ j < size, buf j = data (addr + j)) : store data addr buf size = data := by
  funext a
  unfold store
  split
  · next inside =>
      rw [same _ (by omega)]
      congr 1
      omega
  · rfl

/-- The block in the buffer is the one on the device. -/
def Loaded (fs : Superblock) (s : State) (blkno : Nat) (blksize : Int) (buf : Buf) : Prop :=
  ∀ j < blksize.toNat, buf j = s.data (blkno * fs.fsFsize + j)

theorem Loaded.same {s s' : State} {blkno : Nat} {blksize : Int} {buf : Buf}
    (loaded : Loaded fs s blkno blksize buf) (same : SameStore s s') : Loaded fs s' blkno blksize buf := by
  intro j hj
  rw [same.data]
  exact loaded j hj

theorem writeChanged_same (env : Env) {s : State} {blkno : Nat} {blksize : Int} {buf : Buf}
    (loaded : Loaded fs s blkno blksize buf) (ret : Int) :
    ∃ rc s', writeChanged env fs blkno blksize ret buf s = .done rc s' ∧ SameStore s s' := by
  unfold writeChanged
  split
  · unfold blkwrite
    have tried : tryWrite env s
        = .done (env.writeOk s.tick) { s with tick := s.tick + 1, log := .bwrite :: s.log } := rfl
    rw [Prog.bind_of_done tried]
    split
    · rw [Prog.modify_bind_apply, Prog.pure_apply]
      refine ⟨_, _, rfl, s.tick + 1, .bwrite :: s.log, ?_⟩
      rw [store_same loaded]
    · exact ⟨_, _, rfl, s.tick + 1, .bwrite :: s.log, rfl⟩
  · exact ⟨_, s, rfl, .refl s⟩

/-- The walk has a record at this offset of the block. -/
def InRecords (dirSize : Nat) (pos blksize : Int) (off : Nat) : Prop :=
  (off : Int) < blksize ∧ asU64 (asInt32 (pos + off)) < dirSize

variable {dirSize blkno : Nat} {pos blksize : Int} {buf : Buf}

theorem dirRecords_past {left off : Nat} {w : Walk σ} {s : State}
    (past : ¬ InRecords dirSize pos blksize off) :
    dirRecords env fs func dirSize pos blkno blksize left off w s = .done w s := by
  unfold dirRecords
  rw [if_neg (show ¬ (_ ∧ _) from past)]
  rfl

/-- What a turn of the record loop does with a procedure that reads. -/
theorem dirRecords_turn (env : Env) (left : Nat) (reader : Reader func stops) {off : Nat} {w : Walk σ} {s : State}
    (here : InRecords dirSize pos blksize off) (loaded : Loaded fs s blkno blksize w.buf) :
    ∃ ret p rc s', hasBit ret 1 = stops w.buf off ∧ SameStore s s' ∧
      writeChanged env fs blkno blksize ret w.buf s = .done rc s' ∧
      func w.buf off w.priv = some (ret, w.buf, p) ∧
      dirRecords env fs func dirSize pos blkno blksize (left + 1) off w s
        = if rc = -1 then .done ⟨-eio, true, w.buf, p⟩ s'
          else if stops w.buf off then .done ⟨0, true, w.buf, p⟩ s'
          else dirRecords env fs func dirSize pos blkno blksize left (off + dReclen w.buf off)
            ⟨ret, false, w.buf, p⟩ s' := by
  obtain ⟨ret, p, called, abort⟩ := reader w.buf off w.priv
  obtain ⟨rc, s', wrote, same⟩ := writeChanged_same env loaded ret
  refine ⟨ret, p, rc, s', abort, same, wrote, called, ?_⟩
  rw [dirRecords, if_pos (show _ ∧ _ from here)]
  simp only [called]
  rw [Prog.bind_of_done wrote, abort]
  split
  · rfl
  · split
    · rfl
    · rfl

/-- A procedure that never asks for the block to be written. -/
def Quiet (func : DirProc σ) : Prop :=
  ∀ buf off p ret buf' p', func buf off p = some (ret, buf', p') → hasBit ret 0 = false

/-- A walk that is not caught in the block returns from it. -/
theorem dirRecords_returns (env : Env) (reader : Reader func stops)
    (free : ¬ Caught stops (InRecords dirSize pos blksize) buf) (fits : blksize ≤ fs.fsBsize) :
    ∀ left k (w : Walk σ) s, left + k = fs.fsBsize → Turns stops (InRecords dirSize pos blksize) buf k →
      w.buf = buf → w.out = false → Loaded fs s blkno blksize buf →
      ∃ w' s', dirRecords env fs func dirSize pos blkno blksize left (chainAt buf k) w s = .done w' s' ∧
        SameStore s s' ∧ w'.buf = buf ∧
        (w'.out = false → ¬ Aborts stops (InRecords dirSize pos blksize) buf) ∧
        (w'.out = true → Quiet func → Aborts stops (InRecords dirSize pos blksize) buf) := by
  intro left
  induction left with
  | zero =>
      intro k w s total turns same out loaded
      have far := le_chainAt free turns
      have past : ¬ InRecords dirSize pos blksize (chainAt buf k) := by
        intro here
        have := here.1
        omega
      exact ⟨w, s, dirRecords_past past, .refl s, same, fun _ => not_aborts_of_ended turns past,
        fun gone => by rw [out] at gone; cases gone⟩
  | succ left ih =>
      intro k w s total turns same out loaded
      subst same
      by_cases here : InRecords dirSize pos blksize (chainAt w.buf k)
      · obtain ⟨ret, p, rc, s', -, store, wrote, called, turn⟩ :=
          dirRecords_turn env left reader here loaded
        rw [turn]
        split
        · next failed =>
          refine ⟨_, s', rfl, store, rfl, (fun gone => by cases gone), fun _ quiet => ?_⟩
          rw [writeChanged, quiet _ _ _ _ _ _ called] at wrote
          cases wrote
          cases failed
        · split
          · next stop =>
            exact ⟨_, s', rfl, store, rfl, (fun gone => by cases gone), fun _ _ => ⟨k, turns, here, stop⟩⟩
          · next goes =>
            obtain ⟨w', s'', run, store', kept, after⟩ := ih (k + 1) ⟨ret, false, w.buf, p⟩ s' (by omega)
              (turns.succ here (by simpa using goes)) rfl rfl (loaded.same store)
            exact ⟨w', s'', run, store.trans store', kept, after⟩
      · exact ⟨w, s, dirRecords_past here, .refl s, rfl, fun _ => not_aborts_of_ended turns here,
          fun gone => by rw [out] at gone; cases gone⟩

/-- A walk that is caught never returns from the block. -/
theorem dirRecords_caught (env : Env) (reader : Reader func stops) (quiet : Quiet func)
    (caught : Caught stops (InRecords dirSize pos blksize) buf) :
    ∀ left k (w : Walk σ) s, w.buf = buf → Loaded fs s blkno blksize buf →
      ∃ s', dirRecords env fs func dirSize pos blkno blksize left (chainAt buf k) w s = .halt s' := by
  intro left
  induction left with
  | zero =>
      intro k w s same loaded
      refine ⟨s, ?_⟩
      rw [dirRecords, if_pos (show _ ∧ _ from (caught.turns (k + 1) k (Nat.lt_succ_self k)).1)]
      rfl
  | succ left ih =>
      intro k w s same loaded
      subst same
      have turn := caught.turns (k + 1) k (Nat.lt_succ_self k)
      obtain ⟨ret, p, rc, s', -, store, wrote, called, go⟩ :=
        dirRecords_turn env left reader turn.1 loaded
      rw [writeChanged, quiet _ _ _ _ _ _ called] at wrote
      cases wrote
      rw [go, if_neg (by decide), if_neg (by simp [turn.2])]
      exact ih (k + 1) _ s rfl loaded

end Records

/-! ## The blocks of a directory -/

section Blocks

variable (env : Env) (fs : Superblock) (inode : Inode) (data : Nat → Byte) (stops : Buf → Nat → Bool)

/-- The position of block `i`, as the walk counts it. -/
def dirPos : Nat → Int
  | 0 => 0
  | i + 1 => asInt32 (dirPos i + ufsInodeIoSize fs inode (dirPos i) false)

/-- How much of block `i` the walk reads. -/
def dirBlksize (i : Nat) : Int := ufsInodeIoSize fs inode (dirPos fs inode i) false

/-- Where the walk looks for block `i`. -/
def dirBlkno (i : Nat) : Nat := walkAt fs data inode.iDin2 i env.heap

/-- The buffer after `i` blocks have been read into it. -/
def dirBuf : Nat → Buf
  | 0 => env.heap
  | i + 1 => fill (dirBuf i) (fun j => data (dirBlkno env fs inode data i * fs.fsFsize + j))
      (dirBlksize fs inode i).toNat

/-- Block `i` is read and the walk goes on to the next one. -/
def PassesBlock (i : Nat) : Prop :=
  0 < dirBlksize fs inode i ∧ ¬ Aborts stops
    (InRecords inode.iSize (dirPos fs inode i) (dirBlksize fs inode i)) (dirBuf env fs inode data (i + 1))

/-- The walk gets through block `i`: its number is an `int`, it is not at the address at which
    `ufs_bmap` exits, and no record that the walk comes to and goes on from has length 0. -/
structure BlockEnds (i : Nat) : Prop where
  counted : i < 2 ^ 31
  address : dirBlkno env fs inode data i ≠ poisonBlock
  free : 0 < dirBlksize fs inode i → ¬ Caught stops
    (InRecords inode.iSize (dirPos fs inode i) (dirBlksize fs inode i)) (dirBuf env fs inode data (i + 1))

/-- The walk gets through every block that it comes to. -/
def WalkEnds : Prop :=
  ∀ i < howmany inode.iSize fs.fsBsize, (∀ j < i, PassesBlock env fs inode data stops j) →
    BlockEnds env fs inode data stops i

variable {env fs inode data stops}

theorem ioSize_le (pos : Int) : ufsInodeIoSize fs inode pos false ≤ fs.fsBsize := by
  unfold ufsInodeIoSize
  split
  · exact le_refl _
  · simp only [Bool.false_eq_true, if_false]
    exact_mod_cast Nat.min_le_left _ _

/-- `ufs_bmap`, whatever the block number. -/
theorem ufsBmap_cases (env : Env) {s : State} {ino : Nat} {v : Vnode} (there : s.vnodes ino = some v) (fbn : Nat) :
    (∃ rc a t, ufsBmap env fs ino fbn s = .done (rc, a) (s.atTick t) ∧ rc ≠ 0 ∧ ¬ env.IoOk) ∨
    (walkAt fs s.data v.inode.iDin2 fbn env.heap ≠ poisonBlock ∧ ∃ t, ufsBmap env fs ino fbn s
      = .done (0, walkAt fs s.data v.inode.iDin2 fbn env.heap) (s.atTick t)) ∨
    (walkAt fs s.data v.inode.iDin2 fbn env.heap = poisonBlock ∧
      ∃ s', ufsBmap env fs ino fbn s = .halt s') := by
  have start : ufsBmap env fs ino fbn s = (bmapWalk env fs v.inode.iDin2 fbn >>= fun r =>
      if r.1 = 0 ∧ r.2 = poisonBlock then Prog.halt else pure r) s :=
    Prog.bind_of_done (vnode2inode_ok there) _
  rw [start]
  rcases bmapWalk_yields env v.inode.iDin2 fbn s with ⟨-, run⟩ | ⟨⟨k, -, bad⟩, rc, a, t, run, failed⟩
  · rw [Prog.bind_of_done run]
    by_cases poison : walkAt fs s.data v.inode.iDin2 fbn env.heap = poisonBlock
    · rw [if_pos ⟨rfl, poison⟩]
      exact .inr (.inr ⟨poison, _, rfl⟩)
    · rw [if_neg fun both => poison both.2]
      exact .inr (.inl ⟨poison, _, rfl⟩)
  · rw [Prog.bind_of_done run, if_neg fun both => failed both.1]
    refine .inl ⟨rc, a, t, rfl, failed, fun io => ?_⟩
    rw [io.read] at bad
    cases bad

/-- Reading block `i`: the read fails, or the buffer is the one of the next block. -/
theorem readBlock_cases (env : Env) {s : State} (i : Nat) :
    (∃ buf t, blkread env fs (dirBlkno env fs inode s.data i) (dirBuf env fs inode s.data i)
        (dirBlksize fs inode i).toNat s = .done (-1, buf) (s.atTick t) ∧
      (env.IoOk → ¬ 0 < dirBlksize fs inode i)) ∨
    (0 < dirBlksize fs inode i ∧ ∃ n t, n ≠ -1 ∧
      blkread env fs (dirBlkno env fs inode s.data i) (dirBuf env fs inode s.data i)
        (dirBlksize fs inode i).toNat s = .done (n, dirBuf env fs inode s.data (i + 1)) (s.atTick t)) := by
  by_cases some : 0 < dirBlksize fs inode i
  · rw [blkread_run _ _ (by omega) s]
    cases ok : env.readOk s.tick with
    | true =>
        rw [if_pos rfl]
        exact .inr ⟨some, _, _, by omega, rfl⟩
    | false =>
        rw [if_neg (by simp)]
        refine .inl ⟨_, _, rfl, fun io => ?_⟩
        rw [io.read] at ok
        cases ok
  · have none : (dirBlksize fs inode i).toNat = 0 := by omega
    have tried : tryRead env s = .done (env.readOk s.tick) (s.atTick (s.tick + 1)) := rfl
    refine .inl ⟨fill (dirBuf env fs inode s.data i) (fun _ => 0) (dirBlksize fs inode i).toNat,
      s.tick + 1, ?_, fun _ => some⟩
    unfold blkread
    rw [Prog.bind_of_done tried, Prog.get_bind_apply, if_neg (by simp [none])]
    rfl

theorem loaded_dirBuf (s : State) (i : Nat) :
    Loaded fs s (dirBlkno env fs inode s.data i) (dirBlksize fs inode i) (dirBuf env fs inode s.data (i + 1)) :=
  fun _ hj => fill_inside hj

variable {σ : Type} {func : DirProc σ} {dir : Nat} {v : Vnode}

/-- Block `i` of the walk: a transfer fails or there is nothing to read, or `ufs_bmap` exits, or the
    records are walked and then the next blocks. -/
theorem dirBlocks_cases (env : Env) (left : Nat) {i : Nat} {w : Walk σ} {s : State} (counted : i < 2 ^ 31)
    (there : s.vnodes dir = some v) (same : w.buf = dirBuf env fs v.inode s.data i) :
    (∃ w' t, dirBlocks env fs func dir v.inode.iSize (left + 1) i (dirPos fs v.inode i) w s
        = .done w' (s.atTick t) ∧
      (env.IoOk → ¬ 0 < dirBlksize fs v.inode i ∧ dirBlkno env fs v.inode s.data i ≠ poisonBlock)) ∨
    (dirBlkno env fs v.inode s.data i = poisonBlock ∧
      ∃ s', dirBlocks env fs func dir v.inode.iSize (left + 1) i (dirPos fs v.inode i) w s = .halt s') ∨
    (0 < dirBlksize fs v.inode i ∧ dirBlkno env fs v.inode s.data i ≠ poisonBlock ∧ ∃ t,
      dirBlocks env fs func dir v.inode.iSize (left + 1) i (dirPos fs v.inode i) w s
        = (dirRecords env fs func v.inode.iSize (dirPos fs v.inode i) (dirBlkno env fs v.inode s.data i)
            (dirBlksize fs v.inode i) fs.fsBsize 0 ⟨0, false, dirBuf env fs v.inode s.data (i + 1), w.priv⟩ >>=
          fun w => if w.out then pure w
            else dirBlocks env fs func dir v.inode.iSize left (i + 1) (dirPos fs v.inode (i + 1)) w)
          (s.atTick t)) := by
  rcases ufsBmap_cases env there i with ⟨rc, a, t, run, failed, broken⟩ | ⟨clean, t, run⟩ | ⟨poison, s', run⟩
  · refine .inl ⟨{ w with ret := -eio, out := true }, t, ?_, fun io => absurd io broken⟩
    rw [dirBlocks, if_neg (by omega), Prog.bind_of_done run]
    simp only [ne_eq, failed, not_false_eq_true, if_true]
    rfl
  · have inode := vnode2inode_ok (show (s.atTick t).vnodes dir = some v from there)
    rcases readBlock_cases env (s := s.atTick t) i with ⟨buf, t', read, empty⟩ | ⟨some, n, t', fine, read⟩
    · refine .inl ⟨⟨-eio, true, buf, w.priv⟩, t', ?_, fun io => ⟨empty io, clean⟩⟩
      rw [dirBlocks, if_neg (by omega), Prog.bind_of_done run]
      simp only [ne_eq, not_true_eq_false, if_false]
      rw [Prog.bind_of_done inode, same]
      exact Prog.bind_of_done read _
    · refine .inr (.inr ⟨some, clean, t', ?_⟩)
      rw [dirBlocks, if_neg (by omega), Prog.bind_of_done run]
      simp only [ne_eq, not_true_eq_false, if_false]
      rw [Prog.bind_of_done inode, same]
      refine (Prog.bind_of_done read _).trans ?_
      simp only [if_neg fine]
      rfl
  · refine .inr (.inl ⟨poison, s', ?_⟩)
    rw [dirBlocks, if_neg (by omega), Prog.bind_apply, run]

/-- The records of block `i`, when the walk is not caught there. -/
theorem blockRecords_returns (reader : Reader func stops) {s : State} {i : Nat} (p : σ) (t : Nat)
    (free : ¬ Caught stops (InRecords inode.iSize (dirPos fs inode i) (dirBlksize fs inode i))
      (dirBuf env fs inode s.data (i + 1))) :
    ∃ w' s', dirRecords env fs func inode.iSize (dirPos fs inode i) (dirBlkno env fs inode s.data i)
        (dirBlksize fs inode i) fs.fsBsize 0 ⟨0, false, dirBuf env fs inode s.data (i + 1), p⟩ (s.atTick t)
          = .done w' s' ∧
      SameStore s s' ∧ w'.buf = dirBuf env fs inode s.data (i + 1) ∧
      (w'.out = false → ¬ Aborts stops (InRecords inode.iSize (dirPos fs inode i) (dirBlksize fs inode i))
        (dirBuf env fs inode s.data (i + 1))) ∧
      (w'.out = true → Quiet func → Aborts stops
        (InRecords inode.iSize (dirPos fs inode i) (dirBlksize fs inode i)) (dirBuf env fs inode s.data (i + 1))) := by
  obtain ⟨w', s', walked, store, rest⟩ := dirRecords_returns env reader free (ioSize_le _) fs.fsBsize 0
    ⟨0, false, dirBuf env fs inode s.data (i + 1), p⟩ (s.atTick t) rfl Turns.zero rfl rfl
    (loaded_dirBuf (s.atTick t) i)
  exact ⟨w', s', walked, (SameStore.atTick s t).trans store, rest⟩

/-- A walk that gets through its blocks returns, whatever the device does. -/
theorem dirBlocks_returns (reader : Reader func stops) (ends : WalkEnds env fs v.inode data stops) :
    ∀ left i (w : Walk σ) s, left + i = howmany v.inode.iSize fs.fsBsize → s.vnodes dir = some v →
      s.data = data → w.buf = dirBuf env fs v.inode data i → (∀ j < i, PassesBlock env fs v.inode data stops j) →
      ∃ w' s', dirBlocks env fs func dir v.inode.iSize left i (dirPos fs v.inode i) w s = .done w' s' ∧
        SameStore s s' := by
  intro left
  induction left with
  | zero => exact fun i w s _ _ _ _ _ => ⟨w, s, rfl, .refl s⟩
  | succ left ih =>
      rintro i w s total there rfl same passed
      have good := ends i (by omega) passed
      rcases dirBlocks_cases env left good.counted there same with
        ⟨w', t, run, -⟩ | ⟨poison, -⟩ | ⟨some, -, t, run⟩
      · exact ⟨w', _, run, .atTick s t⟩
      · exact absurd poison good.address
      · obtain ⟨w', s', walked, whole, kept, after, -⟩ :=
          blockRecords_returns reader w.priv t (good.free some)
        rw [run, Prog.bind_of_done walked]
        split
        · exact ⟨w', s', rfl, whole⟩
        · next goes =>
          have passes : PassesBlock env fs v.inode s.data stops i := ⟨some, after (by simpa using goes)⟩
          obtain ⟨w'', s'', run', store'⟩ := ih (i + 1) w' s' (by omega) (by rw [whole.vnodes]; exact there)
            whole.data kept fun j hj => by
              rcases Nat.lt_succ_iff_lt_or_eq.mp hj with early | rfl
              · exact passed j early
              · exact passes
          exact ⟨w'', s'', run', whole.trans store'⟩

/-- With a device that does not fail, a walk that returns has got through its blocks. -/
theorem dirBlocks_ends (io : env.IoOk) (reader : Reader func stops) (quiet : Quiet func) :
    ∀ left i (w : Walk σ) s, left + i = howmany v.inode.iSize fs.fsBsize → s.vnodes dir = some v →
      s.data = data → w.buf = dirBuf env fs v.inode data i → (∀ j < i, PassesBlock env fs v.inode data stops j) →
      (∃ w' s', dirBlocks env fs func dir v.inode.iSize left i (dirPos fs v.inode i) w s = .done w' s') →
      ∀ m < howmany v.inode.iSize fs.fsBsize, i ≤ m → (∀ j < m, PassesBlock env fs v.inode data stops j) →
        BlockEnds env fs v.inode data stops m := by
  intro left
  induction left with
  | zero =>
      intro i w s total _ _ _ _ _ m below above
      omega
  | succ left ih =>
      rintro i w s total there rfl same passed ⟨w', s', run⟩ m below above through
      have counted : i < 2 ^ 31 := by
        by_contra large
        rw [dirBlocks, if_pos (by omega)] at run
        cases run
      rcases dirBlocks_cases env left counted there same with
        ⟨w₁, t, -, why⟩ | ⟨poison, s₁, halted⟩ | ⟨some, clean, t, walk⟩
      · obtain ⟨empty, clean⟩ := why io
        rcases Nat.eq_or_lt_of_le above with rfl | later
        · exact ⟨counted, clean, fun some => absurd some empty⟩
        · exact absurd (through i later).1 empty
      · rw [halted] at run
        cases run
      · have free : ¬ Caught stops (InRecords v.inode.iSize (dirPos fs v.inode i) (dirBlksize fs v.inode i))
            (dirBuf env fs v.inode s.data (i + 1)) := by
          intro caught
          obtain ⟨s₁, stuck⟩ := dirRecords_caught env reader quiet caught fs.fsBsize 0
            ⟨0, false, dirBuf env fs v.inode s.data (i + 1), w.priv⟩ (s.atTick t) rfl
            (loaded_dirBuf (s.atTick t) i)
          have halted : dirBlocks env fs func dir v.inode.iSize (left + 1) i (dirPos fs v.inode i) w s
              = .halt s₁ := by
            rw [walk]
            exact Prog.bind_of_halt stuck _
          rw [halted] at run
          cases run
        rcases Nat.eq_or_lt_of_le above with rfl | later
        · exact ⟨counted, clean, fun _ => free⟩
        · obtain ⟨w₁, s₁, walked, whole, kept, -, stopped⟩ := blockRecords_returns reader w.priv t free
          rw [walk, Prog.bind_of_done walked] at run
          split at run
          · next gone => exact absurd (stopped gone quiet) (through i later).2
          · exact ih (i + 1) w₁ s₁ (by omega) (by rw [whole.vnodes]; exact there) whole.data kept
              (fun j hj => through j (by omega)) ⟨w', s', run⟩ m below later through

end Blocks

/-! ## The three procedures that read -/

/-- The procedures of `ufs_lookup`, `do_check_empty_dir` and `op_readdir`, each with the records at
    which it ends the walk. The filler that is given to `op_readdir` returns 0, or 1 when its
    buffer is full. -/
inductive Reads : {σ : Type} → DirProc σ → (Buf → Nat → Bool) → Prop
  | lookup (name : List Byte) :
      Reads (lookupProc name) fun buf off => decide (dIno buf off ≠ 0 ∧ name = dName buf off)
  | rmdir : Reads rmdirProc fun _ _ => false
  | walk {ρ : Type} (filler : ρ → List Byte → Nat → Int × ρ)
      (values : ∀ r name ino, (filler r name ino).1 = 0 ∨ (filler r name ino).1 = 1) :
      Reads (walkDir filler) fun _ _ => false

theorem hasBit_goes : hasBit 0 1 = false := by decide

theorem Reads.reader {σ : Type} {func : DirProc σ} {stops : Buf → Nat → Bool} (reads : Reads func stops) :
    Reader func stops := by
  intro buf off p
  cases reads with
  | lookup name =>
      unfold lookupProc
      by_cases unused : dIno buf off = 0
      · exact ⟨0, p, if_pos unused, by simp [unused, hasBit_goes]⟩
      · by_cases same : name = dName buf off
        · refine ⟨direntAbort, dIno buf off, by rw [if_neg unused, if_pos same], ?_⟩
          exact (by decide : hasBit direntAbort 1 = true).trans (decide_eq_true ⟨unused, same⟩).symm
        · exact ⟨0, p, by rw [if_neg unused, if_neg same], by simp [same, hasBit_goes]⟩
  | rmdir =>
      unfold rmdirProc
      split
      · exact ⟨0, p, rfl, hasBit_goes⟩
      · split
        · exact ⟨0, p, rfl, hasBit_goes⟩
        · exact ⟨0, false, rfl, hasBit_goes⟩
  | walk filler values =>
      unfold walkDir
      split
      · exact ⟨0, p, rfl, hasBit_goes⟩
      · refine ⟨_, _, rfl, ?_⟩
        rcases values p (cstring buf (off + 8) (dNamlen buf off)) (dIno buf off) with none | full
        · rw [none]
          exact hasBit_goes
        · rw [full]
          exact (by decide : hasBit 1 1 = false)

/-- Giving a linked directory back is no more than that. -/
theorem vnodePut_clean (env : Env) (fs : Superblock) {s : State} {ino : Nat} {v : Vnode}
    (there : s.vnodes ino = some v) (linked : 0 < v.inode.iNlink ∨ 1 < v.count) :
    ∃ s', vnodePut env fs ino false s = .done 0 s' := by
  unfold vnodePut
  rw [Prog.get_bind_apply, there]
  simp only [Prog.modify_bind_apply]
  by_cases last : v.count - 1 = 0
  · have alive : ¬ (v.dropped fs false).inode.iNlink < 1 := by
      have same : (v.dropped fs false).inode = v.inode := rfl
      rw [same]
      omega
    rw [if_pos last, lastPut, if_neg alive]
    exact ⟨_, rfl⟩
  · rw [if_neg last]
    exact ⟨_, rfl⟩

section Iterate

variable {env : Env} {fs : Superblock} {σ : Type} {func : DirProc σ} {stops : Buf → Nat → Bool} {s t : State}
  {dir : Nat} {v : Vnode}

theorem ufsDirIterate_start (got : vnodeGet env fs dir s = .done () t) (there : t.vnodes dir = some v)
    (p : σ) : ufsDirIterate env fs dir func p s = (do
      let w ← dirBlocks env fs func dir v.inode.iSize (howmany v.inode.iSize fs.fsBsize) 0 0
        ⟨0, false, env.heap, p⟩
      let _ ← vnodePut env fs dir false
      pure (w.ret, w.priv)) t := by
  unfold ufsDirIterate
  rw [Prog.bind_of_done got, Prog.bind_of_done (vnode2inode_ok there)]

theorem passesNone : ∀ j < 0, PassesBlock env fs v.inode t.data stops j :=
  fun j hj => absurd hj (Nat.not_lt_zero j)

theorem ufsDirIterate_ends (io : env.IoOk) (reader : Reader func stops) (quiet : Quiet func)
    (got : vnodeGet env fs dir s = .done () t) (there : t.vnodes dir = some v) {p : σ}
    (returned : ∃ r s', ufsDirIterate env fs dir func p s = .done r s') :
    WalkEnds env fs v.inode t.data stops := by
  intro m below through
  rw [ufsDirIterate_start got there] at returned
  obtain ⟨r, s', run⟩ := returned
  obtain ⟨w, s'', walked, -⟩ := bind_eq_done.mp run
  exact dirBlocks_ends io reader quiet _ 0 ⟨0, false, env.heap, p⟩ t (Nat.add_zero _) there rfl rfl
    passesNone ⟨w, s'', walked⟩ m below (Nat.zero_le m) through

/-- A walk with one of the three procedures returns if every record that it comes to and goes on
    from has a length, its block numbers fit an `int` and `ufs_bmap` does not exit. With a device
    that does not fail, and a procedure that does not write, it returns only then. The directory is
    to have a link or another reference: otherwise giving it back takes it apart. -/
theorem ufsDirIterate_returns (reads : Reads func stops) (got : vnodeGet env fs dir s = .done () t)
    (there : t.vnodes dir = some v) (p : σ) :
    (WalkEnds env fs v.inode t.data stops → 0 < v.inode.iNlink ∨ 1 < v.count →
      ∃ r s', ufsDirIterate env fs dir func p s = .done r s') ∧
    (env.IoOk → Quiet func → (∃ r s', ufsDirIterate env fs dir func p s = .done r s') →
      WalkEnds env fs v.inode t.data stops) := by
  refine ⟨fun ends linked => ?_, fun io quiet => ufsDirIterate_ends io reads.reader quiet got there⟩
  obtain ⟨w, s', walked, same⟩ := dirBlocks_returns reads.reader ends _ 0 ⟨0, false, env.heap, p⟩ t
    (Nat.add_zero _) there rfl rfl passesNone
  obtain ⟨s'', put⟩ := vnodePut_clean env fs (by rw [same.vnodes]; exact there) linked
  refine ⟨(w.ret, w.priv), s'', ?_⟩
  rw [ufsDirIterate_start got there]
  exact (Prog.bind_of_done walked _).trans (Prog.bind_of_done put _)

end Iterate

/-- The root directory: one block of 512 bytes at fragment 32. -/
def rootDinode : Dinode :=
  { blankDinode with
    diMode := ifdir ||| 0o755
    diNlink := 2
    diSize := dirblksiz
    diBlocks := 1
    diDb := fun k => if k = 0 then 32 else 0 }

/-- `smallFs` with a root directory whose block holds `block`. -/
def rootState (block : Buf) : State :=
  { smallState with
    dinodes := fun i => if i = rootino then rootDinode else blankDinode
    data := fun a => if 32 * 512 ≤ a ∧ a < 33 * 512 then block (a - 32 * 512) else 0 }

/-- The inode of the root directory once it is in core. -/
def rootVnode : Vnode := ⟨copyOndiskToIncore rootDinode rootino, 1⟩

theorem rootState_got (block : Buf) : ∃ t, vnodeGet calmEnv smallFs rootino (rootState block) = .done () t ∧
    t.vnodes rootino = some rootVnode ∧ t.data = (rootState block).data :=
  ⟨_, rfl, rfl, rfl⟩

/-- A walk over the two records of an empty root directory. -/
theorem ufsDirIterate_returns_root : ∃ r s', ufsDirIterate calmEnv smallFs rootino rmdirProc true
    (rootState (ufsNewDirBlock rootino rootino)) = .done r s' := by
  obtain ⟨t, got, there, same⟩ := rootState_got (ufsNewDirBlock rootino rootino)
  refine (ufsDirIterate_returns .rmdir got there true).1 (fun i below _ => ?_) (.inl (by decide))
  have only : howmany rootVnode.inode.iSize smallFs.fsBsize = 1 := by decide
  obtain rfl : i = 0 := by omega
  rw [same]
  refine ⟨Nat.two_pow_pos 31, by decide +kernel, ?_⟩
  intro _ caught
  obtain ⟨k, turns, zero⟩ := caught
  rcases k with _ | _ | k
  · exact absurd zero (by decide +kernel)
  · exact absurd zero (by decide +kernel)
  · exact absurd (turns 2 (by omega)).1.1 (by decide +kernel)

theorem lookupProc_quiet (name : List Byte) : Quiet (lookupProc name) := by
  intro buf off p ret buf' p' called
  unfold lookupProc at called
  split at called
  · cases called
    decide
  · split at called
    · cases called
      decide
    · cases called
      decide

/-- A root directory of zeros: its first record has length 0 and the look-up of a name never ends. -/
theorem ufsDirIterate_caught_zeros :
    ¬ ∃ r s', ufsDirIterate calmEnv smallFs rootino (lookupProc [0x61]) 0 (rootState fun _ => 0) = .done r s' := by
  rintro ⟨r, s', run⟩
  obtain ⟨t, got, there, same⟩ := rootState_got fun _ => 0
  have ends := ufsDirIterate_ends calmEnv_ioOk (Reads.lookup [0x61]).reader (lookupProc_quiet _) got there
    ⟨r, s', run⟩
  rw [same] at ends
  have free := (ends 0 (by decide) fun j hj => absurd hj (Nat.not_lt_zero j)).free (by decide +kernel)
  refine free ⟨0, fun j hj => ?_, by decide +kernel⟩
  obtain rfl : j = 0 := by omega
  exact ⟨⟨by decide +kernel, by decide +kernel⟩, by decide +kernel⟩

end FuseUfs
