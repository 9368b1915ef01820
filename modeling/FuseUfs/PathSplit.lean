import FuseUfs.Lookup

/-! # The two readings of a path

`ufs_namei` cuts a path into components from the front, `do_check_split` cuts it once at its last
slash. For a path without empty components both are one fold of `ufs_lookup` over the components,
so that looking a path up is looking its last component up in what its front half leads to.
-/

namespace FuseUfs

open Lib

variable (env : Env) (fs : Superblock)

/-- Go on from what has been reached: an error stays, a directory is searched for the name. -/
def lookupFrom (reached : Int × Nat) (name : List Byte) : M (Int × Nat) :=
  if reached.1 ≠ 0 then pure reached
  else do
    let (rc, ino) ← ufsLookup env fs reached.2 name
    pure (rc, if rc ≠ 0 then 0 else ino)

/-- What `ufs_open_namei` does with the last component and its directory. -/
def openLast (walked : Int × List Byte × Nat) : M (Int × Nat) :=
  if walked.1 ≠ 0 then pure (walked.1, 0)
  else if walked.2.1 = [] then pure (0, walked.2.2)
  else lookupFrom env fs (0, walked.2.2) walked.2.1

section Components

theorem ufsOpenNamei_eq (root base : Nat) (path : List Byte) :
    ufsOpenNamei env fs root base path = ufsDirNamei env fs root base path >>= openLast env fs := by
  unfold ufsOpenNamei openLast
  congr
  funext ⟨rc, name, dir⟩
  dsimp only
  split
  · rfl
  · split
    · rfl
    · unfold lookupFrom
      rw [if_neg (by simp)]
      congr
      funext ⟨rc', ino⟩
      dsimp only
      split
      · rfl
      · rw [not_not.mp ‹¬ rc' ≠ 0›]

theorem lookupFrom_failed {rc : Int} (failed : rc ≠ 0) (names : List (List Byte)) :
    names.foldlM (lookupFrom env fs) (rc, 0) = pure (rc, 0) := by
  induction names with
  | nil => rfl
  | cons name rest ih =>
      have stays : lookupFrom env fs (rc, 0) name = pure (rc, 0) := if_pos failed
      rw [List.foldlM_cons, stays, pure_bind, ih]

/-- The walk and the look-up of the last component together go over all components. -/
theorem nameiWalk_fold (rest : List (List Byte)) (dir : Nat) (name : List Byte)
    (named : ∀ n ∈ name :: rest, n ≠ []) :
    nameiWalk env fs dir name rest >>= openLast env fs
      = (name :: rest).foldlM (lookupFrom env fs) (0, dir) := by
  induction rest generalizing dir name with
  | nil =>
      have last : openLast env fs (0, name, dir) = lookupFrom env fs (0, dir) name := by
        unfold openLast
        rw [if_neg (by simp), if_neg (named name List.mem_cons_self)]
      rw [nameiWalk, pure_bind, last, List.foldlM_cons]
      simp only [List.foldlM_nil, bind_pure]
  | cons next rest ih =>
      have step : lookupFrom env fs (0, dir) name
          = ufsLookup env fs dir name >>= fun r => pure (r.1, if r.1 ≠ 0 then 0 else r.2) := rfl
      rw [nameiWalk, List.foldlM_cons, step, bind_assoc, bind_assoc]
      congr
      funext r
      obtain ⟨rc, ino⟩ := r
      dsimp only
      rw [pure_bind]
      by_cases failed : rc ≠ 0
      · rw [if_pos failed, if_pos failed, pure_bind, lookupFrom_failed env fs failed]
        exact if_pos failed
      · rw [if_neg failed, if_neg failed, not_not.mp failed]
        exact ih ino next fun n mem => named n (List.mem_cons_of_mem _ mem)

/-- An absolute path is resolved component by component. -/
theorem ufsNamei_absolute (root : Nat) {rest : List Byte} (named : ∀ name ∈ rest.splitOn slash, name ≠ []) :
    ufsNamei env fs root root (slash :: rest)
      = (rest.splitOn slash).foldlM (lookupFrom env fs) (0, root) := by
  obtain ⟨name, more, parts⟩ := List.exists_cons_of_ne_nil (List.splitOn_ne_nil slash rest)
  have names : components rest = (name, more) := by rw [components, parts]
  have start : ufsDirNamei env fs root root (slash :: rest) = nameiWalk env fs root name more := by
    rw [ufsDirNamei, if_pos rfl, names]
  rw [parts] at named ⊢
  unfold ufsNamei
  rw [ufsOpenNamei_eq, start]
  exact nameiWalk_fold env fs more root name named

/-- The empty path is where the look-up starts. -/
theorem ufsNamei_nil (root cur : Nat) : ufsNamei env fs root cur [] = pure (0, cur) := by
  unfold ufsNamei
  rw [ufsOpenNamei_eq, ufsDirNamei, nameiWalk, pure_bind]
  rfl

end Components

section Split

variable (front : List Byte) {base : List Byte}

theorem basename_append (plain : slash ∉ base) : basename (front ++ slash :: base) = base := by
  have all : ∀ c ∈ base.reverse, (decide (c ≠ slash)) = true := by
    intro c mem
    rw [decide_eq_true_eq]
    rintro rfl
    exact plain (List.mem_reverse.mp mem)
  unfold basename
  rw [List.reverse_append, List.reverse_cons, List.append_assoc, List.takeWhile_append_of_pos all]
  simp

theorem dirname_append (plain : slash ∉ base) : dirname (front ++ slash :: base) = front := by
  unfold dirname
  rw [basename_append front plain, List.length_append, List.length_cons]
  have place : front.length + (base.length + 1) - base.length - 1 = front.length := by omega
  rw [place, List.take_left]

/-- A path with a slash in front of a short last component is split at it. -/
theorem doCheckSplit_append (plain : slash ∉ base) (short : base.length ≤ maxnamlen) :
    doCheckSplit (front ++ slash :: base) = .ok (front, base) := by
  have there : slash ∈ front ++ slash :: base := by simp
  have fine : doCheck (front ++ slash :: base) = 0 := by
    unfold doCheck
    rw [if_neg (not_not.mpr there), basename_append front plain, if_neg (by omega)]
  unfold doCheckSplit
  rw [if_neg (not_not.mpr fine), dirname_append front plain, basename_append front plain]

/-- Whatever has a slash has a last one. -/
theorem last_slash {path : List Byte} (there : slash ∈ path) :
    ∃ front base, path = front ++ slash :: base ∧ slash ∉ base := by
  obtain ⟨back, early, parts, plain⟩ := List.eq_append_cons_of_mem (List.mem_reverse.mpr there)
  refine ⟨early.reverse, back.reverse, ?_, fun mem => plain (List.mem_reverse.mp mem)⟩
  have turned := congrArg List.reverse parts
  simpa using turned

theorem splitOn_plain (plain : slash ∉ base) : base.splitOn slash = [base] := by
  rw [List.splitOn_eq_splitOnP]
  apply List.splitOnP_eq_singleton
  intro c mem
  rw [beq_eq_false_iff_ne]
  rintro rfl
  exact plain mem

theorem splitOn_last (plain : slash ∉ base) :
    (front ++ slash :: base).splitOn slash = front.splitOn slash ++ [base] := by
  rw [← splitOn_plain plain, List.splitOn_eq_splitOnP, List.splitOn_eq_splitOnP, List.splitOn_eq_splitOnP]
  exact List.splitOnP_append_cons front base (beq_self_eq_true slash)

/-- The two readings of an absolute path agree: its last component is looked up in what the half
    before the last slash leads to, and both go over the components from the root. -/
theorem ufsNamei_split {rest : List Byte} (named : ∀ name ∈ rest.splitOn slash, name ≠ [])
    (short : ∀ name ∈ (rest.splitOn slash).getLast?, name.length ≤ maxnamlen) :
    ufsNamei env fs rootino rootino [] = pure (0, rootino) ∧
    ufsNamei env fs rootino rootino (slash :: rest)
      = (rest.splitOn slash).foldlM (lookupFrom env fs) (0, rootino) ∧
    ∃ parent base, doCheckSplit (slash :: rest) = .ok (parent, base) ∧
      ufsNamei env fs rootino rootino (slash :: rest)
        = ufsNamei env fs rootino rootino parent >>= fun reached => lookupFrom env fs reached base := by
  refine ⟨ufsNamei_nil env fs rootino rootino, ufsNamei_absolute env fs rootino named, ?_⟩
  by_cases deep : slash ∈ rest
  · obtain ⟨front, base, rfl, plain⟩ := last_slash deep
    rw [splitOn_last front plain] at named short
    have split := doCheckSplit_append (slash :: front) plain
      (short base (by rw [List.getLast?_append_cons]; rfl))
    refine ⟨slash :: front, base, split, ?_⟩
    have before : ∀ name ∈ front.splitOn slash, name ≠ [] :=
      fun name mem => named name (List.mem_append_left _ mem)
    rw [ufsNamei_absolute env fs rootino (by rwa [splitOn_last front plain]), splitOn_last front plain,
      List.foldlM_append, ufsNamei_absolute env fs rootino before]
    simp only [List.foldlM_cons, List.foldlM_nil, bind_pure]
  · rw [splitOn_plain deep] at named short
    have split := doCheckSplit_append [] deep (short rest rfl)
    refine ⟨[], rest, split, ?_⟩
    rw [ufsNamei_absolute env fs rootino (by rwa [splitOn_plain deep]), splitOn_plain deep,
      ufsNamei_nil, pure_bind]
    simp only [List.foldlM_cons, List.foldlM_nil, bind_pure]

/-- `/a/b` is split into `/a` and `b`. -/
theorem ufsNamei_split_two : ∃ parent base,
    doCheckSplit [slash, 0x61, slash, 0x62] = .ok (parent, base) ∧
      ufsNamei calmEnv smallFs rootino rootino [slash, 0x61, slash, 0x62]
        = ufsNamei calmEnv smallFs rootino rootino parent
          >>= fun reached => lookupFrom calmEnv smallFs reached base := by
  have named : ∀ name ∈ [0x61, slash, 0x62].splitOn slash, name ≠ [] := by decide
  exact (ufsNamei_split calmEnv smallFs named (by decide)).2.2

end Split

end FuseUfs
