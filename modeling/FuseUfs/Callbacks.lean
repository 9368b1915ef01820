import FuseUfs.Ops

/-! # The callbacks as requests

The table `ufs_ops` as data: one request for each entry, with the arguments it is called with.
`opendir`, `releasedir` and `fsyncdir` are the entries of files. `op_init` is not among them, as it
makes the state that the others work on.
-/

namespace FuseUfs

open Lib

/-- A call of an entry of `ufs_ops`. A new handle is put at `fh`, which `malloc` has chosen. -/
inductive Callback : Type 1
  | getattr (path : List Byte)
  | readlink (path : List Byte) (size : Nat)
  | mknod (path : List Byte) (mode : Nat) (dev : Dev)
  | mkdir (path : List Byte) (mode : Nat)
  | unlink (path : List Byte)
  | rmdir (path : List Byte)
  | symlink (target path : List Byte)
  | rename (source dest : List Byte)
  | link (source dest : List Byte)
  | chmod (path : List Byte) (mode : Nat)
  | chown (path : List Byte) (uid gid : Nat)
  | truncate (path : List Byte) (length : Nat)
  | openFile (path : List Byte) (write : Bool) (fh : Nat)
  | read (fh size offset : Nat)
  | write (fh : Nat) (src : Buf) (size offset : Nat)
  | statfs (path : List Byte)
  | flush (fh : Nat)
  | release (fh : Nat)
  | fsync
  | readdir {ρ : Type} (path : List Byte) (filler : ρ → List Byte → Nat → Int × ρ) (r : ρ)
  | destroy
  | access (path : List Byte) (mask : Nat)
  | create (path : List Byte) (mode : Nat) (write : Bool) (fh : Nat)
  | ftruncate (fh length : Nat)
  | fgetattr (path : List Byte)
  | utimens (path : List Byte) (tv : Int × Int)

/-- What the call does, and the number it returns. `op_statfs` copies numbers of the superblock. -/
def Callback.run (env : Env) (fs : Superblock) : Callback → M Int
  | getattr path => do
      let r ← opGetattr env fs path
      pure r.1
  | readlink path size => do
      let r ← opReadlink env fs path size
      pure r.1
  | mknod path mode dev => opMknod env fs path mode dev
  | mkdir path mode => opMkdir env fs path mode
  | unlink path => opUnlink env fs path
  | rmdir path => opRmdir env fs path
  | symlink target path => opSymlink env fs target path
  | rename source dest => opRename env fs source dest
  | link source dest => opLink env fs source dest
  | chmod path mode => opChmod env fs path mode
  | chown path uid gid => opChown env fs path uid gid
  | truncate path length => opTruncate env fs path length
  | openFile path w fh => opOpen env fs path w fh
  | read fh size offset => do
      let r ← opRead env fs fh size offset
      pure r.1
  | write fh src size offset => opWrite env fs fh src size offset
  | statfs _ => pure 0
  | flush fh => opFlush env fs fh
  | release fh => opRelease env fs fh
  | fsync => opFsync env fs
  | readdir path filler r => do
      let r ← opReaddir env fs path filler r
      pure r.1
  | destroy => do
      opDestroy env fs
      pure 0
  | access path mask => opAccess env fs path mask
  | create path mode w fh => opCreate env fs path mode w fh
  | ftruncate fh length => opFtruncate env fs fh length
  | fgetattr path => do
      let r ← opFgetattr env fs path
      pure r.1
  | utimens path tv => opUtimens env fs path tv

/-- Where the call puts a handle that it makes. -/
def Callback.newHandle : Callback → Option Nat
  | openFile _ _ fh => some fh
  | create _ _ _ fh => some fh
  | _ => none

end FuseUfs
