import VeratyFS.OperationSpec

/-!
# Namespace operations (`class Operations` of `VeratyFS.py`)

The handlers that look names up and change them, over the inode table (`Fs`), and those that also
count open files (`Vfs`).

* `findEntry`, `Fs.lookup` — the search through the table, and its effect on `lookup_count`.
* `unlink`, `rmdir`, `rename`, `replace`, `link`, `symlink`, `mkdir`, `mknod`, `forget`, `readdir`.
* `Vfs` — with `inode_open_count`: `create`, `openFile`, `release`.

`pyfuse3.invalidate_entry_async` only tells the kernel and is left out.  Names are bytes, so the
branches of `lookup` for the strings `'.'` and `'..'` are never taken.
-/

set_option autoImplicit false

namespace VeratyFS

open Pylib

/-- `stat.S_ISDIR`. -/
def S_ISDIR (mode : Nat) : Bool := mode &&& 61440 = 16384

/-- The inode of a key changed in place. -/
def updateInode {H : Type} (fh : Nat) (f : FileInode H) : Op H Unit :=
  Fs.onInodes (Py.modify fun t => t.update fh f)

/-! ## Lookups -/

/-- An inode is a visible entry of a directory under a name. -/
def FileInode.named {H : Type} (f : FileInode H) (inodeP : Nat) (name : Bytes) : Bool :=
  f.parentInode = inodeP ∧ f.name = name ∧ f.listOnDirLookup

/-- The loop of `lookup`: the first matching inode in the order of the table. -/
def findEntry {H : Type} (t : FSMeta H) (inodeP : Nat) (name : Bytes) :
    Option (Nat × FileInode H) :=
  t.d.entries.find? fun e => e.2.named inodeP name

/-- `lookup`. -/
def Fs.lookup {H : Type} (inodeP : Nat) (name : Bytes) : Op H EntryAttributes := do
  let s ← Py.read
  match findEntry s.inodes inodeP name with
  | none => Py.raise (.fuseError .ENOENT)
  | some (x, f) =>
    updateInode x { f with lookupCount := f.lookupCount + 1 }
    getattr f.inode

/-- The inodes that `readdir` lists. -/
def dirEntries {H : Type} (t : FSMeta H) (inode : Nat) : List (FileInode H) :=
  (t.d.entries.map Prod.snd).filter fun f => f.parentInode = inode ∧ f.listOnDirLookup

/-- `readdir`: the name, the attributes and the next offset of the one entry that it gives to
    `readdir_reply`. -/
def readdir {H : Type} (inode off : Nat) : Op H (Option (Bytes × EntryAttributes × Nat)) := do
  let s ← Py.read
  match (dirEntries s.inodes inode)[off]? with
  | none => return none
  | some f =>
    let entry ← getattr f.inode
    return some (f.name, entry, off + 1)

/-- `unlink`. -/
def unlink {H : Type} (inodeP : Nat) (name : Bytes) : Op H Unit := do
  let entry ← Fs.lookup inodeP name
  if S_ISDIR entry.stMode then
    Py.raise (.fuseError .EISDIR)
  else
    let i ← inodeAt entry.stIno
    setInode entry.stIno { i with
      lookupCount := i.lookupCount - 1
      stNlink := i.stNlink - 1
      listOnDirLookup := false }
    commitInodes

/-- `rmdir`. -/
def rmdir {H : Type} (inodeP : Nat) (name : Bytes) : Op H Unit := do
  let entry ← Fs.lookup inodeP name
  if S_ISDIR entry.stMode then
    let s ← Py.read
    if dirEntries s.inodes entry.stIno = [] then
      delInode entry.stIno
      commitInodes
    else
      Py.raise (.fuseError .ENOTEMPTY)
  else
    Py.raise (.fuseError .ENOTDIR)

/-- `_replace`.  Every exception is logged.  The inode of the new name is read again after the move:
    when the two names are one entry, it is the moved one. -/
def replace {H : Type} (inodePNew : Nat) (nameNew : Bytes) (entryOld entryNew : Nat) : Op H Unit := do
  let inodeMoved ← inodeAt entryOld
  let inodeDeref ← inodeAt entryNew
  Py.attempt
    (do
      setInode entryOld { inodeMoved with name := nameNew, parentInode := inodePNew }
      if inodeDeref.lookupCount > 0 then
        let inodeDeref ← inodeAt entryNew
        setInode entryNew { inodeDeref with
          listOnDirLookup := false
          stNlink := inodeDeref.stNlink - 1 }
      else
        delInode entryNew)
    (fun _ => return ())

/-- The second search of `rename`: a missing target is no error. -/
def lookupTarget {H : Type} (inodePNew : Nat) (nameNew : Bytes) : Op H (Option EntryAttributes) :=
  Py.attempt
    (do
      let entryNew ← Fs.lookup inodePNew nameNew
      return some entryNew)
    (fun exc => if exc = .fuseError .ENOENT then return none else Py.raise exc)

/-- `rename`. -/
def rename {H : Type} (inodePOld : Nat) (nameOld : Bytes) (inodePNew : Nat) (nameNew : Bytes)
    (flags : Nat) : Op H Unit :=
  if flags ≠ 0 then
    Py.raise (.fuseError .EINVAL)
  else do
    let entryOld ← Fs.lookup inodePOld nameOld
    match ← lookupTarget inodePNew nameNew with
    | none =>
      let old ← inodeAt entryOld.stIno
      setInode entryOld.stIno { old with name := nameNew, parentInode := inodePNew }
    | some entryNew => replace inodePNew nameNew entryOld.stIno entryNew.stIno
    commitInodes

/-! ## Adding names -/

/-- `mknod`. -/
def mknod {H : Type} (a : CreateArgs) (rdev : Nat) (now : Time) : Op H EntryAttributes :=
  create { a with rdev := rdev } now

/-- `mkdir`. -/
def mkdir {H : Type} (a : CreateArgs) (now : Time) : Op H EntryAttributes := create a now

/-- The arguments of `_create` for a symbolic link; the mode is `0o120777`. -/
def symlinkArgs (inodeP : Nat) (name target : Bytes) (uid gid : Nat) : CreateArgs where
  parent := inodeP
  name := name
  mode := 41471
  uid := uid
  gid := gid
  target := some target

/-- `symlink`. -/
def symlink {H : Type} (inodeP : Nat) (name target : Bytes) (uid gid : Nat) (now : Time) :
    Op H EntryAttributes := do
  let entry ← create (symlinkArgs inodeP name target uid gid) now
  let i ← inodeAt entry.stIno
  setInode entry.stIno { i with lookupCount := i.lookupCount + 1 }
  commitInodes
  return entry

/-- `link`: a new inode that names the old one. -/
def link {H : Type} (inode newInodeP : Nat) (newName : Bytes) (now : Time) :
    Op H EntryAttributes := do
  let entryP ← getattr newInodeP
  if entryP.stNlink = 0 then
    Py.raise (.fuseError .EINVAL)
  else
    let ni ← genInodeNumber
    setInode ni {
      inode := ni
      name := newName
      parentInode := newInodeP
      mtimeNs := timeNs now
      atimeNs := timeNs now
      ctimeNs := timeNs now
      lookupCount := 1
      hardLink := inode }
    let i ← inodeAt inode
    setInode inode { i with stNlink := i.stNlink + 1 }
    commitInodes
    getattr inode

/-! ## Forgetting -/

/-- One round of the loop of `forget`; every exception is dropped. -/
def forgetOne {H : Type} [DecidableEq H] (cfg : Config) (clock : Nat → Time) (inode nlookup : Nat) :
    Op H Unit :=
  Py.attempt
    (do
      let i ← inodeAt inode
      if i.inode ≠ ROOT_INODE then
        setInode inode { i with lookupCount := i.lookupCount - nlookup }
        if i.stNlink ≤ 0 then
          let entry ← getattr inode
          removeInode cfg clock i.parentInode i.name entry.stIno
        else
          return ()
      else
        setInode inode { i with lookupCount := 1 })
    (fun _ => return ())

/-- `forget`; the `i`-th round reads `clock i`. -/
def forget {H : Type} [DecidableEq H] (cfg : Config) (clock : Nat → Nat → Time)
    (inodeList : List (Nat × Nat)) : Op H Unit := do
  Py.forEach (fun n => forgetOne cfg (clock n.2) n.1.1 n.1.2) inodeList.zipIdx
  commitInodes

/-! ## Open files -/

structure Vfs (H : Type) where
  fs : Fs H
  inodeOpenCount : Dict Nat Int

namespace Vfs

variable {H α : Type}

def onFs (m : Op H α) : Py PyError (Vfs H) α := Py.zoom fs (fun s v => { v with fs := s }) m

/-- `inode_open_count[inode]` of a `defaultdict(int)`. -/
def openCount (v : Vfs H) (inode : Nat) : Int := (v.inodeOpenCount.get? inode).getD 0

/-- `inode_open_count[inode] += n`. -/
def addOpen (inode : Nat) (n : Int) : Py PyError (Vfs H) Unit :=
  Py.modify fun v => { v with inodeOpenCount := v.inodeOpenCount.set inode (v.openCount inode + n) }

/-- `open`; the handle is the inode number. -/
def openFile (inode : Nat) : Py PyError (Vfs H) Nat := do
  addOpen inode 1
  return inode

/-- `create`. -/
def create (a : CreateArgs) (now : Time) : Py PyError (Vfs H) EntryAttributes := do
  let entry ← onFs (VeratyFS.create a now)
  addOpen entry.stIno 1
  return entry

/-- The end of the last open file of an inode: without links, it is removed. -/
def removeUnlinked [DecidableEq H] (cfg : Config) (clock : Nat → Time) (fh : Nat) : Op H Unit := do
  let i ← inodeAt fh
  if i.stNlink = 0 then
    let entry ← getattr fh
    removeInode cfg clock i.parentInode i.name entry.stIno
  else
    return ()

/-- `release`. -/
def release [DecidableEq H] (cfg : Config) (clock : Nat → Time) (fh : Nat) :
    Py PyError (Vfs H) Unit := do
  addOpen fh (-1)
  let v ← Py.read
  if v.openCount fh = 0 then
    Py.modify fun v => { v with inodeOpenCount := v.inodeOpenCount.erase fh }
    onFs (removeUnlinked cfg clock fh)
    onFs commitInodes
  else
    onFs commitInodes

end Vfs

end VeratyFS
