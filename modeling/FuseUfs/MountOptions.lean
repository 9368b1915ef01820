import FuseUfs.Path

/-! # The options of the mount

`parse_mount_options` cuts the text after `-o` at its commas, keeps the options that are the
driver's own and copies the others into the text that FUSE gets. Both sides end up with an
opinion on whether the mount is read-only: the driver in `readonly`, which `op_init` copies to
`fs_ronly`, and FUSE from the last `ro` or `rw` of the text. Memory is never short, and the
device is opened for writing exactly when `openable` says so.
-/

namespace FuseUfs

open Lib

def eperm : Int := 1

def comma : Byte := 0x2c

def equals : Byte := 0x3d

/-- `PATH_MAX`. -/
def pathMax : Nat := 4096

def text (chars : List Char) : List Byte := chars.map fun c => BitVec.ofNat 8 c.toNat

def defOpts : List Byte := text ['u', 's', 'e', '_', 'i', 'n', 'o', ',']

/-- The string up to the first `delim`, and what is behind it. Without a `delim` nothing is. -/
def strsep (delim : Byte) : List Byte → List Byte × Option (List Byte)
  | [] => ([], none)
  | c :: rest =>
      if c = delim then ([], some rest)
      else (c :: (strsep delim rest).1, (strsep delim rest).2)

/-- The fields of `struct ufs_data` that the options set, and the device. -/
structure UfsData where
  device : List Byte
  force : Bool
  readonly : Bool
  debug : Bool
  silent : Bool
  deriving DecidableEq

/-- The options that the driver keeps for itself. -/
inductive OwnOption where
  | ro
  | rw
  | rwPlus
  | debug
  | silent
  deriving DecidableEq

namespace OwnOption

def name : OwnOption → List Byte
  | ro => text ['r', 'o']
  | rw => text ['r', 'w']
  | rwPlus => text ['r', 'w', '+']
  | debug => text ['d', 'e', 'b', 'u', 'g']
  | silent => text ['s', 'i', 'l', 'e', 'n', 't']

def set : OwnOption → UfsData → UfsData
  | ro, opts => { opts with readonly := true }
  | rw, opts => { opts with readonly := false }
  | rwPlus, opts => { opts with readonly := false, force := true }
  | debug, opts => { opts with debug := true }
  | silent, opts => { opts with silent := true }

/-- What FUSE is told. -/
def shown : OwnOption → List Byte
  | ro => text ['r', 'o', ',']
  | rw => text ['r', 'w', ',']
  | rwPlus => text ['r', 'w', ',']
  | debug => text ['d', 'e', 'b', 'u', 'g', ',']
  | silent => []

/-- The chain of comparisons. -/
def find (opt : List Byte) : Option OwnOption :=
  [ro, rw, rwPlus, debug, silent].find? fun o => o.name = opt

end OwnOption

/-- The data and the text so far. -/
structure Parse where
  opts : UfsData
  ret : List Byte
  deriving DecidableEq

/-- One option. An own option with a value is an error, and leaves everything as it is. -/
def takeOption (opt : List Byte) (val : Option (List Byte)) (p : Parse) : Except Parse Parse :=
  match OwnOption.find opt with
  | some o =>
      if val.isSome then .error p else .ok { opts := o.set p.opts, ret := p.ret ++ o.shown }
  | none =>
      .ok { p with ret := p.ret ++ opt ++ val.elim [] (equals :: ·) ++ [comma] }

/-- The loop over the options. A turn takes at least one byte off the text, so `left` turns are
enough for `left` bytes. -/
def optionLoop : (left : Nat) → (s : Option (List Byte)) → Parse → Except Parse Parse
  | 0, _, p => .ok p
  | left + 1, s, p =>
      match s with
      | none => .ok p
      | some [] => .ok p
      | some (c :: rest) =>
          let cut := strsep comma (c :: rest)
          let option := strsep equals cut.1
          match takeOption option.1 option.2 p with
          | .error p => .error p
          | .ok p => optionLoop left cut.2 p

/-- The text for FUSE, or `NULL`, with the data and the error number afterwards. -/
structure Parsed where
  ret : Option (List Byte)
  opts : UfsData
  err : Int
  deriving DecidableEq

def parseMountOptions (openable : List Byte → Bool) (origOpts : List Byte) (opts : UfsData) (err : Int) :
    Parsed :=
  match optionLoop origOpts.length (some origOpts) { opts := { opts with readonly := true }, ret := [] } with
  | .error p => { ret := none, opts := p.opts, err := err }
  | .ok p =>
      if !p.opts.readonly && !openable p.opts.device then { ret := none, opts := p.opts, err := eperm }
      else
        { ret := some (p.ret ++ defOpts ++ (if p.opts.readonly then text ['r', 'o', ','] else [])
            ++ text ['f', 's', 'n', 'a', 'm', 'e', '='] ++ p.opts.device)
          opts := p.opts
          err := err }

/-! ## Cutting the text -/

theorem strsep_splitOn (delim : Byte) (s : List Byte) :
    s.splitOn delim = (strsep delim s).1 :: (strsep delim s).2.elim [] (·.splitOn delim) := by
  induction s with
  | nil => simp [strsep, List.splitOn_eq_splitOnP]
  | cons c rest ih =>
    by_cases cut : c = delim
    · subst cut
      simp [strsep, List.splitOn_eq_splitOnP, List.splitOnP_cons]
    · rw [List.splitOn_eq_splitOnP, List.splitOnP_cons, ← List.splitOn_eq_splitOnP, ih]
      simp [strsep, cut]

theorem strsep_join (delim : Byte) (s : List Byte) :
    (strsep delim s).1 ++ (strsep delim s).2.elim [] (delim :: ·) = s := by
  induction s with
  | nil => rfl
  | cons c rest ih =>
    by_cases cut : c = delim
    · simp [strsep, cut]
    · simpa [strsep, cut] using ih

theorem strsep_plain (delim : Byte) (s : List Byte) : delim ∉ (strsep delim s).1 := by
  induction s with
  | nil => simp [strsep]
  | cons c rest ih =>
    by_cases cut : c = delim
    · simp [strsep, cut]
    · have other : delim ≠ c := Ne.symm cut
      simp [strsep, cut, other, ih]

/-- The options of a text: what stands between its commas, but for nothing behind the last. -/
def tokens (s : List Byte) : List (List Byte) :=
  if (s.splitOn comma).getLast? = some [] then (s.splitOn comma).dropLast else s.splitOn comma

theorem tokens_nil : tokens [] = [] := by
  simp [tokens, List.splitOn_eq_splitOnP]

theorem tokens_cons {s : List Byte} (more : s ≠ []) :
    tokens s = (strsep comma s).1 :: (strsep comma s).2.elim [] tokens := by
  have whole := strsep_join comma s
  rw [tokens, strsep_splitOn comma s]
  cases behind : (strsep comma s).2 with
  | none =>
    simp only [behind, Option.elim_none, List.append_nil] at whole
    simp [whole, more]
  | some rest =>
    have parts : rest.splitOn comma ≠ [] := List.splitOn_ne_nil comma rest
    simp only [Option.elim_some, tokens, List.getLast?_cons_of_ne_nil parts, List.dropLast_cons_of_ne_nil parts]
    split <;> rfl

/-- The options one after the other. -/
def takeTokens (ts : List (List Byte)) (p : Parse) : Except Parse Parse :=
  match ts with
  | [] => .ok p
  | t :: rest =>
      match takeOption (strsep equals t).1 (strsep equals t).2 p with
      | .error p => .error p
      | .ok p => takeTokens rest p

theorem optionLoop_tokens (left : Nat) : ∀ (s : List Byte) (p : Parse), s.length ≤ left →
    optionLoop left (some s) p = takeTokens (tokens s) p := by
  induction left with
  | zero =>
    intro s p short
    have empty : s = [] := List.length_eq_zero_iff.mp (Nat.le_zero.mp short)
    rw [empty, tokens_nil]
    rfl
  | succ left ih =>
    intro s p short
    cases s with
    | nil =>
      rw [tokens_nil]
      rfl
    | cons c rest =>
      rw [tokens_cons (List.cons_ne_nil c rest), optionLoop, takeTokens]
      have whole := congrArg List.length (strsep_join comma (c :: rest))
      cases takeOption (strsep equals (strsep comma (c :: rest)).1).1
          (strsep equals (strsep comma (c :: rest)).1).2 p with
      | error q => rfl
      | ok q =>
        cases behind : (strsep comma (c :: rest)).2 with
        | none => cases left <;> rfl
        | some s =>
          simp only [behind, Option.elim_some, List.length_append, List.length_cons] at whole short
          exact ih s q (by omega)

/-- A property of a text that follows from the same of what is behind its first comma. -/
theorem strsep_induct (delim : Byte) {motive : List Byte → Prop} (empty : motive [])
    (cut : ∀ s ≠ [], (∀ rest ∈ (strsep delim s).2, motive rest) → motive s) (s : List Byte) : motive s := by
  induction len : s.length using Nat.strong_induction_on generalizing s with
  | _ n ih =>
    by_cases more : s = []
    · rw [more]
      exact empty
    · apply cut s more
      intro rest behind
      have whole := congrArg List.length (strsep_join delim s)
      rw [Option.mem_def.mp behind, Option.elim_some, List.length_append, List.length_cons] at whole
      exact ih rest.length (by omega) rest rfl

theorem comma_notMem_token (s : List Byte) : ∀ t ∈ tokens s, comma ∉ t := by
  induction s using strsep_induct comma with
  | empty =>
    rw [tokens_nil]
    exact fun t mem => absurd mem List.not_mem_nil
  | cut s more ih =>
    intro t mem
    rw [tokens_cons more] at mem
    obtain first | mem := List.mem_cons.mp mem
    · rw [first]
      exact strsep_plain comma s
    · cases behind : (strsep comma s).2 with
      | none => simp [behind] at mem
      | some rest => exact ih rest behind t (by simpa [behind] using mem)

/-- The options with a comma behind each are at most one byte longer than the text. -/
theorem tokens_length (s : List Byte) : ((tokens s).map fun t => t.length + 1).sum ≤ s.length + 1 := by
  induction s using strsep_induct comma with
  | empty => simp [tokens_nil]
  | cut s more ih =>
    have whole := congrArg List.length (strsep_join comma s)
    rw [tokens_cons more]
    cases behind : (strsep comma s).2 with
    | none =>
      simp only [behind, Option.elim_none, List.append_nil] at whole
      simp [whole]
    | some rest =>
      have shorter := ih rest behind
      simp only [behind, Option.elim_some, List.length_append, List.length_cons] at whole
      simp only [Option.elim_some, List.map_cons, List.sum_cons]
      omega

/-! ## What becomes of the options -/

/-- The driver's option that a token is, if it is one. -/
def ownOf (t : List Byte) : Option OwnOption := OwnOption.find (strsep equals t).1

/-- An option of the driver's that comes with a value. -/
def Valued (t : List Byte) : Prop := (ownOf t).isSome ∧ (strsep equals t).2.isSome

instance (t : List Byte) : Decidable (Valued t) := inferInstanceAs (Decidable (_ ∧ _))

/-- What FUSE gets to see of a token. -/
def tokenText (t : List Byte) : List Byte := (ownOf t).elim (t ++ [comma]) OwnOption.shown

/-- All tokens, taken one after the other. -/
def taken (ts : List (List Byte)) (p : Parse) : Parse where
  opts := (ts.filterMap ownOf).foldl (fun opts o => o.set opts) p.opts
  ret := p.ret ++ ts.flatMap tokenText

theorem takeOption_token {t : List Byte} (p : Parse) (bare : ¬Valued t) :
    takeOption (strsep equals t).1 (strsep equals t).2 p = .ok (taken [t] p) := by
  have whole := strsep_join equals t
  unfold takeOption
  cases own : OwnOption.find (strsep equals t).1 with
  | none =>
    simp only [taken, tokenText, ownOf, own, List.filterMap_cons, List.filterMap_nil, List.foldl_nil,
      List.flatMap_cons, List.flatMap_nil, List.append_nil, Option.elim_none]
    rw [← List.append_assoc, List.append_assoc p.ret, whole]
  | some o =>
    have none : ¬(strsep equals t).2.isSome := fun valued => bare ⟨by rw [ownOf, own]; rfl, valued⟩
    simp only [if_neg none]
    simp [taken, tokenText, ownOf, own]

theorem takeOption_valued {t : List Byte} (p : Parse) (valued : Valued t) :
    takeOption (strsep equals t).1 (strsep equals t).2 p = .error p := by
  obtain ⟨o, own⟩ := Option.isSome_iff_exists.mp valued.1
  unfold takeOption
  rw [show OwnOption.find (strsep equals t).1 = some o from own]
  exact if_pos valued.2

theorem takeTokens_ok {ts : List (List Byte)} (p : Parse) (bare : ∀ t ∈ ts, ¬Valued t) :
    takeTokens ts p = .ok (taken ts p) := by
  induction ts generalizing p with
  | nil => simp [takeTokens, taken]
  | cons t rest ih =>
    rw [takeTokens, takeOption_token p (bare t List.mem_cons_self)]
    simp only
    rw [ih _ fun u mem => bare u (List.mem_cons_of_mem t mem)]
    simp only [taken, List.filterMap_cons, List.filterMap_nil]
    cases ownOf t <;> simp

theorem takeTokens_error {ts : List (List Byte)} (p : Parse) (valued : ∃ t ∈ ts, Valued t) :
    ∃ q, takeTokens ts p = .error q := by
  induction ts generalizing p with
  | nil => simp at valued
  | cons t rest ih =>
    rw [takeTokens]
    by_cases own : Valued t
    · exact ⟨p, by rw [takeOption_valued p own]⟩
    · rw [takeOption_token p own]
      apply ih
      simpa [own] using valued

/-! ## Who may write -/

/-- Whether an option of the driver's makes the mount read-only. -/
def OwnOption.mode : OwnOption → Option Bool
  | ro => some true
  | rw => some false
  | rwPlus => some false
  | debug => none
  | silent => none

/-- The modes that the driver's options in a text name, in order. -/
def driverModes (s : List Byte) : List Bool := ((tokens s).filterMap ownOf).filterMap OwnOption.mode

/-- The mode of an option that FUSE sees. -/
def modeOf (piece : List Byte) : Option Bool :=
  if piece = text ['r', 'o'] then some true
  else if piece = text ['r', 'w'] then some false
  else none

/-- The modes that the options of a text name, in order. The last one counts. -/
def modes (s : List Byte) : List Bool := (s.splitOn comma).filterMap modeOf

theorem splitOn_cut (delim : Byte) (a b : List Byte) :
    (a ++ delim :: b).splitOn delim = a.splitOn delim ++ b.splitOn delim := by
  simp only [List.splitOn_eq_splitOnP]
  exact List.splitOnP_append_cons a b (beq_self_eq_true delim)

theorem modes_append (a b : List Byte) : modes (a ++ comma :: b) = modes a ++ modes b := by
  rw [modes, splitOn_cut, List.filterMap_append]
  rfl

theorem splitOn_plainAt {delim : Byte} {s : List Byte} (plain : delim ∉ s) : s.splitOn delim = [s] := by
  rw [List.splitOn_eq_splitOnP]
  apply List.splitOnP_eq_singleton
  intro c mem
  have other : c ≠ delim := ne_of_mem_of_not_mem mem plain
  simpa using other

theorem modes_plain {s : List Byte} (plain : comma ∉ s) : modes s = (modeOf s).toList := by
  rw [modes, splitOn_plainAt plain]
  cases mode : modeOf s <;> simp [mode]

/-- The options that FUSE reads in the text of one of the driver's. -/
def OwnOption.pieces : OwnOption → List (List Byte)
  | ro => [text ['r', 'o']]
  | rw => [text ['r', 'w']]
  | rwPlus => [text ['r', 'w']]
  | debug => [text ['d', 'e', 'b', 'u', 'g']]
  | silent => []

/-- The options that FUSE reads in the text of a token. -/
def tokenPieces (t : List Byte) : List (List Byte) := (ownOf t).elim [t] OwnOption.pieces

theorem splitOn_token {t : List Byte} (rest : List Byte) (plain : comma ∉ t) :
    (tokenText t ++ rest).splitOn comma = tokenPieces t ++ rest.splitOn comma := by
  unfold tokenText tokenPieces
  cases ownOf t with
  | none =>
    rw [Option.elim_none, Option.elim_none, List.append_assoc, List.singleton_append, splitOn_cut,
      splitOn_plainAt plain]
  | some o =>
    cases o with
    | silent => rfl
    | ro => exact splitOn_cut comma (text ['r', 'o']) rest
    | rw => exact splitOn_cut comma (text ['r', 'w']) rest
    | rwPlus => exact splitOn_cut comma (text ['r', 'w']) rest
    | debug => exact splitOn_cut comma (text ['d', 'e', 'b', 'u', 'g']) rest

theorem splitOn_tokens {ts : List (List Byte)} (rest : List Byte) (plain : ∀ t ∈ ts, comma ∉ t) :
    (ts.flatMap tokenText ++ rest).splitOn comma = ts.flatMap tokenPieces ++ rest.splitOn comma := by
  induction ts with
  | nil => rfl
  | cons t more ih =>
    rw [List.flatMap_cons, List.append_assoc, splitOn_token _ (plain t List.mem_cons_self),
      ih fun u mem => plain u (List.mem_cons_of_mem t mem), List.flatMap_cons, List.append_assoc]

/-- FUSE sees the mode of every token that has one, and no other. -/
theorem modeOf_pieces (t : List Byte) :
    (tokenPieces t).filterMap modeOf = ((ownOf t).bind OwnOption.mode).toList := by
  cases own : ownOf t with
  | none =>
    have absent : ∀ o : OwnOption, t ≠ o.name := by
      rintro o rfl
      have found : ownOf o.name = some o := by cases o <;> decide
      rw [found] at own
      cases own
    have foreign : modeOf t = none := (if_neg (absent .ro)).trans (if_neg (absent .rw))
    simp [tokenPieces, own, foreign]
  | some o =>
    rw [tokenPieces, own, Option.elim_some, Option.bind_some]
    cases o <;> decide

theorem modes_tokens {ts : List (List Byte)} (rest : List Byte) (plain : ∀ t ∈ ts, comma ∉ t) :
    modes (ts.flatMap tokenText ++ rest) = (ts.filterMap ownOf).filterMap OwnOption.mode ++ modes rest := by
  rw [modes, splitOn_tokens rest plain, List.filterMap_append, List.filterMap_filterMap]
  congr 1
  induction ts with
  | nil => rfl
  | cons t more ih =>
    rw [List.flatMap_cons, List.filterMap_append, modeOf_pieces, ih fun u mem => plain u (List.mem_cons_of_mem t mem)]
    cases own : (ownOf t).bind OwnOption.mode <;> simp [own]

/-- The name of the device may go on with options of its own. -/
theorem modes_fsname (device : List Byte) :
    modes (text ['f', 's', 'n', 'a', 'm', 'e', '='] ++ device)
      = (strsep comma device).2.elim [] modes := by
  have first (name : List Byte) : modeOf (text ['f', 's', 'n', 'a', 'm', 'e', '='] ++ name) = none := by
    rw [modeOf, if_neg, if_neg] <;> simp [text]
  have plain : comma ∉ text ['f', 's', 'n', 'a', 'm', 'e', '='] ++ (strsep comma device).1 := by
    simp only [List.mem_append, strsep_plain comma device, or_false]
    decide
  have whole := strsep_join comma device
  cases behind : (strsep comma device).2 with
  | none =>
    rw [behind, Option.elim_none, List.append_nil] at whole
    rw [whole] at plain
    rw [modes_plain plain, first]
    rfl
  | some rest =>
    rw [behind, Option.elim_some] at whole
    rw [← whole, ← List.append_assoc, modes_append, modes_plain plain, first]
    rfl

/-- The mode that the driver's options leave. -/
theorem readonly_foldl (os : List OwnOption) (opts : UfsData) :
    (os.foldl (fun opts o => o.set opts) opts).readonly
      = ((os.filterMap OwnOption.mode).getLast?).getD opts.readonly := by
  induction os generalizing opts with
  | nil => rfl
  | cons o rest ih =>
    rw [List.foldl_cons, ih]
    cases o <;> simp [OwnOption.set, OwnOption.mode, List.getLast?_cons]

theorem device_foldl (os : List OwnOption) (opts : UfsData) :
    (os.foldl (fun opts o => o.set opts) opts).device = opts.device := by
  induction os generalizing opts with
  | nil => rfl
  | cons o rest ih =>
    rw [List.foldl_cons, ih]
    cases o <;> rfl

theorem tokenText_length (t : List Byte) : (tokenText t).length ≤ t.length + 1 := by
  have whole := congrArg List.length (strsep_join equals t)
  rw [List.length_append] at whole
  cases own : ownOf t with
  | none => simp [tokenText, own]
  | some o =>
    have named : o.name = (strsep equals t).1 := by simpa using List.find?_some own
    have shorter : o.shown.length ≤ o.name.length + 1 := by cases o <;> decide
    rw [tokenText, own, Option.elim_some]
    rw [named] at shorter
    omega

theorem tokenTexts_length (ts : List (List Byte)) :
    (ts.flatMap tokenText).length ≤ (ts.map fun t => t.length + 1).sum := by
  induction ts with
  | nil => simp
  | cons t rest ih =>
    have one := tokenText_length t
    simp only [List.flatMap_cons, List.length_append, List.map_cons, List.sum_cons]
    omega

/-- The data when every option is taken. -/
def optsOf (origOpts : List Byte) (opts : UfsData) : UfsData :=
  ((tokens origOpts).filterMap ownOf).foldl (fun opts o => o.set opts) { opts with readonly := true }

/-- The text for FUSE when every option is taken. -/
def textOf (origOpts : List Byte) (opts : UfsData) : List Byte :=
  (tokens origOpts).flatMap tokenText ++ defOpts
    ++ (if (optsOf origOpts opts).readonly then text ['r', 'o', ','] else [])
    ++ text ['f', 's', 'n', 'a', 'm', 'e', '='] ++ opts.device

section

variable {openable : List Byte → Bool} {origOpts : List Byte} {opts : UfsData} {err : Int}

theorem parseMountOptions_bare (bare : ∀ t ∈ tokens origOpts, ¬Valued t) :
    parseMountOptions openable origOpts opts err
      = if !(optsOf origOpts opts).readonly && !openable opts.device then
          { ret := none, opts := optsOf origOpts opts, err := eperm }
        else { ret := some (textOf origOpts opts), opts := optsOf origOpts opts, err := err } := by
  have same : (optsOf origOpts opts).device = opts.device := device_foldl _ _
  unfold parseMountOptions
  rw [optionLoop_tokens _ origOpts _ le_rfl, takeTokens_ok _ bare]
  have shape : taken (tokens origOpts) { opts := { opts with readonly := true }, ret := [] }
      = { opts := optsOf origOpts opts, ret := (tokens origOpts).flatMap tokenText } := rfl
  rw [shape]
  simp only [same]
  rfl

theorem parseMountOptions_valued (valued : ∃ t ∈ tokens origOpts, Valued t) :
    (parseMountOptions openable origOpts opts err).ret = none ∧
      (parseMountOptions openable origOpts opts err).err = err := by
  obtain ⟨q, failed⟩ := takeTokens_error { opts := { opts with readonly := true }, ret := [] } valued
  unfold parseMountOptions
  rw [optionLoop_tokens _ origOpts _ le_rfl, failed]
  exact ⟨rfl, rfl⟩

/-- A default that is not taken. -/
theorem getLast?_of_getD {l : List Bool} (last : l.getLast?.getD true = false) : l.getLast? = some false := by
  cases found : l.getLast? with
  | none => simp [found] at last
  | some b =>
    rw [found] at last
    rw [← last]
    rfl

/-- FUSE finds the driver's mode in the text, unless the name of the device goes on with options. -/
theorem modes_textOf (origOpts : List Byte) (opts : UfsData) :
    (modes (textOf origOpts opts)).getLast?
      = ((strsep comma opts.device).2.elim [] modes).getLast?.or (some (optsOf origOpts opts).readonly) := by
  have last : (optsOf origOpts opts).readonly = (driverModes origOpts).getLast?.getD true := readonly_foldl _ _
  unfold textOf
  rw [List.append_assoc, List.append_assoc, List.append_assoc, modes_tokens _ (comma_notMem_token origOpts),
    ← driverModes]
  cases mode : (optsOf origOpts opts).readonly with
  | true =>
    have seen : modes (defOpts ++ (text ['r', 'o', ','] ++ (text ['f', 's', 'n', 'a', 'm', 'e', '='] ++ opts.device)))
        = [true] ++ (strsep comma opts.device).2.elim [] modes := by
      rw [← modes_fsname]
      exact modes_append (text ['u', 's', 'e', '_', 'i', 'n', 'o']) _ |>.trans (modes_append (text ['r', 'o']) _)
    rw [if_pos rfl, seen, ← List.append_assoc, List.getLast?_append, List.getLast?_concat]
  | false =>
    have seen : modes (defOpts ++ ([] ++ (text ['f', 's', 'n', 'a', 'm', 'e', '='] ++ opts.device)))
        = (strsep comma opts.device).2.elim [] modes := by
      rw [← modes_fsname]
      exact modes_append (text ['u', 's', 'e', '_', 'i', 'n', 'o']) _
    rw [if_neg Bool.false_ne_true, seen, List.getLast?_append]
    -- a mount is writable only after an option that says so
    rw [mode] at last
    rw [getLast?_of_getD last.symm]

/-- An option that is not the driver's reaches FUSE as it is. -/
theorem foreign_mem {ts : List (List Byte)} {t : List Byte} (rest : List Byte) (plain : ∀ t ∈ ts, comma ∉ t)
    (foreign : ownOf t = none) (mem : t ∈ ts) : t ∈ (ts.flatMap tokenText ++ rest).splitOn comma := by
  rw [splitOn_tokens rest plain]
  apply List.mem_append_left
  exact List.mem_flatMap.mpr ⟨t, mem, by simp [tokenPieces, foreign]⟩

/-- The buffer of `parse_mount_options` has room for the text and its terminating zero. -/
theorem textOf_length (path : opts.device.length ≤ pathMax) :
    (textOf origOpts opts).length + 1 ≤ defOpts.length + origOpts.length + 256 + pathMax := by
  have cut := tokens_length origOpts
  have shown := tokenTexts_length (tokens origOpts)
  have mark : (if (optsOf origOpts opts).readonly then text ['r', 'o', ','] else []).length ≤ 3 := by
    cases (optsOf origOpts opts).readonly <;> decide
  have label : (text ['f', 's', 'n', 'a', 'm', 'e', '=']).length = 7 := rfl
  simp only [textOf, List.length_append]
  omega

theorem parseMountOptions_agrees (path : opts.device.length ≤ pathMax) :
    ((parseMountOptions openable origOpts opts err).ret = none ↔
      (∃ t ∈ tokens origOpts, Valued t) ∨
        (driverModes origOpts).getLast? = some false ∧ openable opts.device = false) ∧
    ∀ text, (parseMountOptions openable origOpts opts err).ret = some text →
      (∀ t ∈ tokens origOpts, ownOf t = none → t ∈ text.splitOn comma) ∧
      (parseMountOptions openable origOpts opts err).opts.readonly
        = (driverModes origOpts).getLast?.getD true ∧
      (modes text).getLast? = ((strsep comma opts.device).2.elim [] modes).getLast?.or
        (some (parseMountOptions openable origOpts opts err).opts.readonly) ∧
      text.length + 1 ≤ defOpts.length + origOpts.length + 256 + pathMax := by
  have last : (optsOf origOpts opts).readonly = (driverModes origOpts).getLast?.getD true := readonly_foldl _ _
  by_cases bare : ∀ t ∈ tokens origOpts, ¬Valued t
  · have clean : ¬∃ t ∈ tokens origOpts, Valued t := by
      rintro ⟨t, mem, valued⟩
      exact bare t mem valued
    rw [parseMountOptions_bare bare]
    by_cases refused : (!(optsOf origOpts opts).readonly && !openable opts.device) = true
    · rw [if_pos refused]
      simp only [Bool.and_eq_true, Bool.not_eq_true'] at refused
      rw [last] at refused
      refine ⟨⟨fun _ => .inr ⟨getLast?_of_getD refused.1, refused.2⟩, fun _ => rfl⟩, fun text shown => ?_⟩
      cases shown
    · rw [if_neg refused]
      simp only [Bool.and_eq_true, Bool.not_eq_true', not_and] at refused
      refine ⟨⟨fun failed => ?_, fun why => ?_⟩, ?_⟩
      · cases failed
      · obtain valued | ⟨asked, closed⟩ := why
        · exact absurd valued clean
        · rw [last, asked] at refused
          exact absurd closed (refused rfl)
      · intro text shown
        obtain rfl := Option.some.inj shown
        refine ⟨fun t mem foreign => ?_, last, modes_textOf origOpts opts, textOf_length path⟩
        unfold textOf
        rw [List.append_assoc, List.append_assoc, List.append_assoc]
        exact foreign_mem _ (comma_notMem_token origOpts) foreign mem
  · have valued : ∃ t ∈ tokens origOpts, Valued t := by simpa using bare
    have failed : (parseMountOptions openable origOpts opts err).ret = none := (parseMountOptions_valued valued).1
    refine ⟨⟨fun _ => .inl valued, fun _ => failed⟩, fun text shown => ?_⟩
    rw [failed] at shown
    cases shown

/-- A read-write mount with an option for FUSE, of a device whose name has a comma in it. -/
theorem parseMountOptions_agrees_rw :
    let opts : UfsData :=
      { device := text ['/', 'a', ',', 'r', 'o'], force := false, readonly := false, debug := false, silent := false }
    let parsed := parseMountOptions (fun _ => true) (text ['r', 'w', '+', ',', 'u', '=', '0', ',']) opts 0
    opts.device.length ≤ pathMax ∧ parsed.ret.isSome ∧ parsed.opts.readonly = false ∧ parsed.opts.force = true ∧
      ∀ s, parsed.ret = some s → (modes s).getLast? = some true := by
  intro opts parsed
  have path : opts.device.length ≤ pathMax := by decide
  have mode : parsed.opts.readonly = false := by decide
  refine ⟨path, by decide, mode, by decide, fun s shown => ?_⟩
  obtain ⟨-, -, seen, -⟩ := (parseMountOptions_agrees path).2 s shown
  exact seen.trans (by decide)

end

end FuseUfs
