import VeratyFS.FsMeta
import VeratyFS.Collector

/-!
# File operations (`class Operations` of `VeratyFS.py`)

The operations that change file contents, over the inode table and the module state (`Fs`).

* `takeClosest`, `calcOffsets`, `retrieveData`, `read` — reading through the offset cache.
* `write` — the append branch and the mid-file branch (`writeMiddle`).
* `truncateDown`, `setattr` — resizing.
* `create`, `removeInode`, `flush`.

`time.time()` and `time_ns()` are read from `clock`; the `i`-th `update_index` of a call reads
`clock i`.
-/

set_option autoImplicit false

namespace VeratyFS

open Pylib

structure Fs (H : Type) where
  inodes : FSMeta H
  globals : Globals H

/-- The computations of this module. -/
abbrev Op (H α : Type) := Py PyError (Fs H) α

variable {H : Type} [DecidableEq H]

namespace Fs

def onGlobals {H α : Type} (m : Task H α) : Op H α :=
  Py.zoom globals (fun g s => { s with globals := g }) m

def onInodes {H α : Type} (m : Py PyError (FSMeta H) α) : Op H α :=
  Py.zoom inodes (fun t s => { s with inodes := t }) m

end Fs

/-- `self.inodes[fh]`. -/
def inodeAt {H : Type} (fh : Nat) : Op H (FileInode H) := do
  let s ← Py.read
  Py.ofOption .keyError (s.inodes.getItem? fh)

def setInode {H : Type} (fh : Nat) (f : FileInode H) : Op H Unit :=
  Fs.onInodes (Py.modify fun t => t.setItem fh f)

def delInode {H : Type} (fh : Nat) : Op H Unit := Fs.onInodes fun t => t.delItem fh

def commitInodes {H : Type} : Op H Unit := Fs.onInodes (Py.modify FSMeta.commit)

/-- `time_ns()` of a clock that counts microseconds. -/
def timeNs (t : Time) : Int := t * 1000

/-! ## Reading -/

/-- `take_closest(ordList, myNumber, left=True)`; `none` is the `IndexError` of an empty list. -/
def takeClosest (ordList : List Nat) (myNumber : Nat) : Option (Nat × Nat) :=
  let pos := bisectLeft ordList myNumber
  if pos = 0 then ordList.head?.map (·, pos)
  else if pos = ordList.length then ordList.getLast?.map (·, pos - 1)
  else ordList[pos]?.map (·, pos)

/-- The running sums of the raw sizes. -/
def runningSums {H : Type} (base : Nat) : List (FileBlock H) → List Nat
  | [] => []
  | b :: rest => (base + b.rawSize) :: runningSums (base + b.rawSize) rest

/-- `calc_offsets`: the inode is taken out of the table and set again. -/
def calcOffsets {H : Type} (fh : Nat) : Op H Unit := do
  let f ← inodeAt fh
  let i := { f with offsets := runningSums 0 f.data }
  Fs.onInodes (Py.modify fun t => t.update fh i)
  delInode fh
  setInode fh i

/-- What `retrieve_data` returns: bytes, or the tuple of `whole=True`. -/
inductive Retrieved where
  | data (d : Bytes)
  | whole (startDiff startBlk endBlk : Int) (d : Bytes)

def Retrieved.bytes : Retrieved → Bytes
  | .data d => d
  | .whole _ _ _ d => d

/-- Where a range starts: block and difference. -/
def startOf (offsets : List Nat) (offset : Nat) (blk blkNumber : Nat) : Option (Int × Int) :=
  if offset = 0 then some (0, 0)
  else if blk = offset then some (blkNumber + 1, 0)
  else if blk < offset then
    (getAt? offsets ((blkNumber : Int) - 1)).map fun o => ((blkNumber : Int) - 1, (o : Int) - offset)
  else some (blkNumber, (blk : Int) - offset)

/-- The cut of the bytes of several blocks. -/
def cutBlocks {H : Type} (f : FileInode H) (offset endOffset : Nat) (startBlk startDiff endDiff : Int)
    (data : Bytes) : Option Bytes :=
  if f.size = endOffset then
    some (sliceFrom data (-((endOffset : Int) - offset)))
  else do
    let data ←
      if startBlk = 0 then some (sliceFrom data offset)
      else if 0 < offset ∧ 0 < startDiff then
        (getAt? f.data startBlk).map fun b => sliceFrom data ((b.rawSize : Int) - startDiff)
      else some data
    if endDiff ≠ 0 ∧ (endOffset : Int) - offset < data.length then
      some (sliceTo data (-endDiff))
    else
      some data

/-- The offsets of a file, computed when there are none. -/
def ensureOffsets {H : Type} (fh : Nat) (f : FileInode H) : Op H (FileInode H) :=
  if f.offsets = [] then do
    calcOffsets fh
    commitInodes
    inodeAt fh
  else
    return f

/-- `retrieve_data` of a file with blocks. -/
def retrieveBlocks (cfg : Config) (P : Packages H) (f : FileInode H) (offset length : Nat)
    (whole : Bool) : Op H Retrieved := do
  let endOffset := min f.size (offset + length)
  let (blk, blkNumber) ← Py.ofOption .indexError (takeClosest f.offsets offset)
  let (startBlk, startDiff) ← Py.ofOption .indexError (startOf f.offsets offset blk blkNumber)
  let (blkE, blkNumberE) ← Py.ofOption .indexError (takeClosest f.offsets endOffset)
  let endDiff := if blkE = endOffset then (0 : Int) else (blkE : Int) - endOffset
  let endBlk : Int := blkNumberE
  if startBlk = 0 ∧ endBlk = 0 then
    let data ← Fs.onGlobals (getFileData cfg P f.data startBlk (endBlk + 1))
    if whole then
      return .whole startDiff startBlk endBlk data
    else
      return .data (slice data offset endOffset)
  else
    let data ← Fs.onGlobals (getFileData cfg P f.data startBlk endBlk)
    if whole then
      return .whole startDiff (if startDiff < 0 then max 0 (startBlk - 1) else startBlk) endBlk data
    else
      let data ← Py.ofOption .indexError (cutBlocks f offset endOffset startBlk startDiff endDiff data)
      return .data data

/-- `retrieve_data`; a file that is not in the table reads as no bytes. -/
def retrieveData (cfg : Config) (P : Packages H) (fh offset length : Nat) (whole : Bool) :
    Op H Retrieved := do
  let s ← Py.read
  match s.inodes.getItem? fh with
  | none => return .data []
  | some f =>
    if f.data = [] then
      return .data []
    else do
      let f ← ensureOffsets fh f
      retrieveBlocks cfg P f offset length whole

/-- `read`; its parameter `whole` is not used. -/
def read (cfg : Config) (P : Packages H) (fh offset length : Nat) (now : Time) : Op H Bytes := do
  let r ← retrieveData cfg P fh offset length false
  let f ← inodeAt fh
  setInode fh { f with atimeNs := timeNs now }
  return r.bytes

/-! ## Writing -/

/-- `for i in range(start_block, end_block+1): f.data.pop(i)`, ended by an `IndexError`. -/
def popBlocks {H : Type} (data : List (FileBlock H)) (i : Int) : Nat → List (FileBlock H)
  | 0 => data
  | n + 1 =>
    match popAt? data i with
    | none => data
    | some data => popBlocks data (i + 1) n

/-- `for d in new_data: f.data.insert(start_block, d); start_block += 1`. -/
def insertBlocks {H : Type} (data : List (FileBlock H)) (startBlock : Int) :
    List (FileBlock H) → List (FileBlock H)
  | [] => data
  | d :: rest => insertBlocks (insertAt data startBlock d) (startBlock + 1) rest

/-- The block list after `start_block` to `end_block` were replaced. -/
def replaceBlocks {H : Type} (data : List (FileBlock H)) (startBlock endBlock : Int)
    (newData : List (FileBlock H)) : List (FileBlock H) :=
  insertBlocks (popBlocks data startBlock (endBlock + 1 - startBlock).toNat) startBlock newData

/-- The end of `write`: size, time stamp, and the inode set. -/
def finishWrite {H : Type} (fh offset len : Nat) (now : Time) (f : FileInode H) : Op H Nat := do
  setInode fh { f with size := max f.size (offset + len), mtimeNs := timeNs now }
  return len

/-- The condition of the mid-file branch. -/
def inMiddle {H : Type} (f : FileInode H) (offset len : Nat) : Prop :=
  f.data ≠ [] ∧ f.size ≠ 0 ∧ offset + len < f.size

instance {H : Type} [DecidableEq H] (f : FileInode H) (offset len : Nat) :
    Decidable (inMiddle f offset len) := inferInstanceAs (Decidable (_ ∧ _))

/-- The mid-file branch: the blocks that the range touches are read, changed, stored again, and
    replaced in the block list. -/
def writeMiddle (cfg : Config) (P : Packages H) (fh offset : Nat) (buf : Bytes) :
    Op H (FileInode H) := do
  match ← retrieveData cfg P fh offset buf.length true with
  | .data _ => Py.raise .valueError
  | .whole startDiff startBlock endBlock data =>
    let newData ← Fs.onGlobals (dedup cfg P
      (spliceAt data (max 0 startDiff) ((buf.length : Int) + max 0 startDiff) buf))
    let f ← inodeAt fh
    return { f with data := replaceBlocks f.data startBlock endBlock newData }

/-- `write`. -/
def write (cfg : Config) (P : Packages H) (fh offset : Nat) (buf : Bytes) (now : Time) :
    Op H Nat := do
  let f ← inodeAt fh
  if inMiddle f offset buf.length then
    let written ← Py.attempt
      (do
        let f ← writeMiddle cfg P fh offset buf
        return some f)
      (fun e => if e = .valueError then return none else Py.raise e)
    match written with
    | none => return 0
    | some f => finishWrite fh offset buf.length now f
  else
    let blocks ← Fs.onGlobals (dedup cfg P buf)
    finishWrite fh offset buf.length now { f with data := f.data ++ blocks }

/-! ## Resizing -/

/-- `max + 1`. -/
def genInodeNumber {H : Type} : Op H Nat := do
  let s ← Py.read
  let m ← Py.ofOption .valueError s.inodes.max
  return m + 1

/-- `update_index(i.hash, add=False)` for each block. -/
def dropBlocks (cfg : Config) (clock : Nat → Time) (blocks : List (FileBlock H)) : Task H Unit :=
  Py.forEach (fun i => updateIndexRemove cfg (clock i.2) i.1.hash) blocks.zipIdx

/-- The copy loop of `truncate_down`. -/
def copyBlocks (cfg : Config) (P : Packages H) (now : Time) (fh tempIno newSize : Nat) :
    List (FileBlock H) → Nat → Op H Unit
  | [], _ => return ()
  | i :: rest, offset =>
    if i.rawSize + offset ≤ newSize then do
      let dat ← read cfg P fh offset i.rawSize now
      let written ← write cfg P tempIno offset dat now
      if offset + written = newSize then return ()
      else copyBlocks cfg P now fh tempIno newSize rest (offset + written)
    else do
      let dat ← read cfg P fh offset (newSize - offset) now
      let _written ← write cfg P tempIno offset dat now
      return ()

/-- The order in which a set of blocks is iterated. -/
structure SetOrder (H : Type) where
  run : List (FileBlock H) → List (FileBlock H)
  perm : ∀ l, (run l).Perm l

/-- A set that is iterated as it was filled. -/
def SetOrder.listed (H : Type) : SetOrder H := ⟨id, fun l => .refl l⟩

/-- What the environment supplies to a call: its clock and the iteration order of sets. -/
structure CallEnv (H : Type) where
  clock : Nat → Time
  order : SetOrder H

/-- The start of `truncate_down`: a copy of the inode without contents, under a new number. -/
def copyInode {H : Type} (fh : Nat) : Op H Nat := do
  let f ← inodeAt fh
  let tempIno ← genInodeNumber
  setInode tempIno { f with data := [], offsets := [], size := 0 }
  return tempIno

/-- The end of `truncate_down`: the old blocks are dropped and the copy takes the inode's place.
    File blocks are compared by identity and the copies are new objects, so the set difference has
    every block of the file. -/
def replaceInode (cfg : Config) (env : CallEnv H) (fh tempIno : Nat) : Op H Unit := do
  let f ← inodeAt fh
  Fs.onGlobals (dropBlocks cfg env.clock (env.order.run f.data))
  let fNew ← inodeAt tempIno
  setInode fh fNew
  delInode tempIno

/-- `truncate_down`. -/
def truncateDown (cfg : Config) (P : Packages H) (env : CallEnv H) (fh newSize : Nat) : Op H Unit := do
  let tempIno ← copyInode fh
  Py.attempt
    (do
      let f ← inodeAt fh
      copyBlocks cfg P (env.clock 0) fh tempIno newSize f.data 0
      replaceInode cfg env fh tempIno)
    (fun _ => return ())

/-- The attributes that a `setattr` call updates. -/
structure SetattrFields where
  stSize : Option Nat := none
  stMode : Option Nat := none
  stUid : Option Nat := none
  stGid : Option Nat := none
  stAtimeNs : Option Int := none
  stMtimeNs : Option Int := none
  stCtimeNs : Option Int := none

/-- The size part of `setattr`. -/
def resize (cfg : Config) (P : Packages H) (env : CallEnv H) (f : FileInode H) (size : Nat) :
    Op H Unit :=
  if f.size < size then do
    let _written ← write cfg P f.inode f.size (List.replicate (size - f.size) 0) (env.clock 0)
    return ()
  else if size < f.size then
    truncateDown cfg P env f.inode size
  else
    return ()

/-- The attributes other than the size. -/
def FileInode.withAttributes {H : Type} (f : FileInode H) (a : SetattrFields) (now : Time) :
    FileInode H :=
  { f with
    mode := a.stMode.getD f.mode
    uid := a.stUid.getD f.uid
    gid := a.stGid.getD f.gid
    atimeNs := a.stAtimeNs.getD f.atimeNs
    mtimeNs := a.stMtimeNs.getD f.mtimeNs
    ctimeNs := a.stCtimeNs.getD (timeNs now) }

/-- The end of `setattr`. -/
def setAttributes {H : Type} (inode : Nat) (a : SetattrFields) (now : Time) : Op H Unit := do
  let f ← inodeAt inode
  setInode inode (f.withAttributes a now)

/-- What `getattr` reports of an inode. -/
structure EntryAttributes where
  stIno : Nat
  stMode : Nat
  stNlink : Int
  stUid : Nat
  stGid : Nat
  stRdev : Nat
  stSize : Nat
  stAtimeNs : Int
  stMtimeNs : Int
  stCtimeNs : Int
  deriving DecidableEq, Repr

def getattr {H : Type} (inode : Nat) : Op H EntryAttributes :=
  Py.attempt
    (do
      let f ← inodeAt inode
      return ⟨inode, f.mode, f.stNlink, f.uid, f.gid, f.rdev, f.size, f.atimeNs, f.mtimeNs, f.ctimeNs⟩)
    (fun e => Py.raise (if e = .keyError then .fuseError .ENOENT else e))

/-- What resizing raises is logged, and `setattr` goes on. -/
def updateSize (cfg : Config) (P : Packages H) (env : CallEnv H) (f : FileInode H) :
    Option Nat → Op H Unit
  | none => return ()
  | some size => Py.attempt (resize cfg P env f size) (fun _ => return ())

/-- `setattr`. -/
def setattr (cfg : Config) (P : Packages H) (env : CallEnv H) (inode : Nat) (a : SetattrFields) :
    Op H EntryAttributes := do
  let old ← inodeAt inode
  updateSize cfg P env old a.stSize
  setAttributes inode a (env.clock 0)
  getattr inode

/-! ## Creating, removing, closing -/

/-- `pyfuse3.ROOT_INODE`. -/
def ROOT_INODE : Nat := 1

/-- `init_file_system`: the root directory, with mode `0o40755`. -/
def initFileSystem {H : Type} (uid gid : Nat) (now : Time) (t : FSMeta H) : FSMeta H :=
  t.setItem ROOT_INODE {
    inode := ROOT_INODE
    mode := 16877
    uid := uid
    gid := gid
    mtimeNs := timeNs now
    atimeNs := timeNs now
    ctimeNs := timeNs now
    name := [46, 46]
    parentInode := ROOT_INODE }

/-- A new file system over given stores. -/
def Fs.fresh {H : Type} (cacheSize : Nat) (h : 0 < cacheSize)
    (datastore mirrorDatastore : List (DataStore H)) : Fs H :=
  ⟨initFileSystem 0 0 0 (.new true), .fresh cacheSize h datastore mirrorDatastore⟩

/-- The arguments of `_create`. -/
structure CreateArgs where
  parent : Nat
  name : Bytes
  mode : Nat
  uid : Nat
  gid : Nat
  rdev : Nat := 0
  target : Option Bytes := none

/-- `_create`. -/
def create {H : Type} (a : CreateArgs) (now : Time) : Op H EntryAttributes := do
  let p ← getattr a.parent
  if p.stNlink = 0 then
    Py.raise (.fuseError .EINVAL)
  else
    let ino ← genInodeNumber
    setInode ino {
      inode := ino
      mode := a.mode
      uid := a.uid
      gid := a.gid
      mtimeNs := timeNs now
      atimeNs := timeNs now
      ctimeNs := timeNs now
      rdev := a.rdev
      name := a.name
      parentInode := a.parent
      target := a.target.getD [] }
    commitInodes
    getattr ino

/-- `_remove(inode_p, name, entry)`; the first test reads the parent outside the `try`. -/
def removeInode (cfg : Config) (clock : Nat → Time) (inodeP : Nat) (name : Bytes) (stIno : Nat) :
    Op H Unit := do
  let p ← inodeAt inodeP
  if p.inode ≠ inodeP ∧ p.parentInode = inodeP ∧ p.name ≠ name then
    Py.raise (.fuseError .ENOTEMPTY)
  else
    Py.attempt
      (do
        let f ← inodeAt stIno
        Fs.onGlobals (dropBlocks cfg clock f.data)
        delInode stIno)
      (fun e => if e = .keyError then return () else Py.raise e)

/-- `flush`. -/
def flush {H : Type} [DecidableEq H] : Op H Unit := do
  commitInodes
  Fs.onGlobals (Py.modify fun g => { g with hashTable := g.hashTable.commit })

end VeratyFS
