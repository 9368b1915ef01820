import FuseUfs.Directory

/-! # Paths

A path is a string of bytes without the terminating zero. `ufs_dir_namei` takes one slash
off the front and looks the components up one after the other, empty ones included, up to
the last, which is handed back. The other routines split a path at its last slash.
-/

namespace FuseUfs

open Lib

def slash : Byte := 0x2f

/-- The part after the last slash. -/
def basename (path : List Byte) : List Byte := (path.reverse.takeWhile (· ≠ slash)).reverse

/-- The part before the last slash. -/
def dirname (path : List Byte) : List Byte := path.take (path.length - (basename path).length - 1)

def doCheck (path : List Byte) : Int :=
  if slash ∉ path then -enoent
  else if maxnamlen < (basename path).length then -enametoolong
  else 0

/-- The two halves of a path. With an error they are not stored. -/
def doCheckSplit (path : List Byte) : Except Int (List Byte × List Byte) :=
  if doCheck path ≠ 0 then .error (doCheck path) else .ok (dirname path, basename path)

section

variable (env : Env) (fs : Superblock)

/-- Look the components up but for the last: the error, the last component and its directory. -/
def nameiWalk (dir : Nat) (name : List Byte) : List (List Byte) → M (Int × List Byte × Nat)
  | [] => pure (0, name, dir)
  | next :: rest => do
      let (rc, ino) ← ufsLookup env fs dir name
      if rc ≠ 0 then pure (rc, name, dir) else nameiWalk ino next rest

/-- The components of a path, at least one. -/
def components (path : List Byte) : List Byte × List (List Byte) :=
  match path.splitOn slash with
  | [] => ([], [])
  | name :: rest => (name, rest)

def ufsDirNamei (root dir : Nat) (path : List Byte) : M (Int × List Byte × Nat) :=
  match path with
  | [] => nameiWalk env fs dir [] []
  | c :: rest =>
      if c = slash then nameiWalk env fs root (components rest).1 (components rest).2
      else nameiWalk env fs dir (components path).1 (components path).2

/-- The error and the inode. -/
def ufsOpenNamei (root base : Nat) (path : List Byte) : M (Int × Nat) := do
  let (rc, name, dir) ← ufsDirNamei env fs root base path
  if rc ≠ 0 then pure (rc, 0)
  else if name = [] then pure (0, dir)
  else do
    let (rc, ino) ← ufsLookup env fs dir name
    if rc ≠ 0 then pure (rc, 0) else pure (0, ino)

def ufsNamei (root cur : Nat) (path : List Byte) : M (Int × Nat) := ufsOpenNamei env fs root cur path

/-- The error, and with 0 the inode whose vnode is referenced. -/
def doReadvnode (path : List Byte) : M (Int × Nat) := do
  let (rc, ino) ← ufsNamei env fs rootino rootino path
  if rc ≠ 0 ∨ ino = 0 then pure (-enoent, 0)
  else do
    vnodeGet env fs ino
    pure (0, ino)

end

end FuseUfs
