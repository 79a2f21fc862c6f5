import VeratyFS.Session
import VeratyFS.Lib.Observed

/-!
# The calls of the metadata database

The operations once more, with the database of `FSMeta` as it is after each call that writes to it:
`ht.delete` of `del self.inodes[..]`, and `ht.write` of `commit`.

* `Traffic.calcOffsets` to `Traffic.setattr` — the file operations; an operation with one such call
  at most is taken whole.
* `Traffic.rmdir`, `Traffic.rename`, `Traffic.forget`, `Traffic.release` — the handlers that make
  more than one.
* `Operation`, `Operation.points` — an operation, and the databases that a crash in it can leave.
* `Operation.traffic_follows` — what is observed is what the operations do.
-/

set_option autoImplicit false

namespace VeratyFS

open Pylib

/-- The records of the metadata database. -/
abbrev MetaStore (H : Type) := Dict Bytes (FileInode H)

/-- An operation on the file system, observed at the metadata database. -/
abbrev Traffic (H α : Type) := Py PyError (Observed (Fs H) (MetaStore H)) α

namespace Traffic

variable {H : Type} [DecidableEq H]

/-- No call of the database. -/
def quiet {H α : Type} (m : Op H α) : Traffic H α := Py.quiet m

/-- One call of the database at most. -/
def noting {H α : Type} (m : Op H α) : Traffic H α := Py.noting (fun s => s.inodes.ht) m

/-! ## File operations -/

/-- `calc_offsets`: `del` takes the record out, and the assignment does not put it back. -/
def calcOffsets {H : Type} (fh : Nat) : Traffic H Unit := do
  let f ← quiet (inodeAt fh)
  quiet (updateInode fh { f with offsets := runningSums 0 f.data })
  noting (delInode fh)
  quiet (setInode fh { f with offsets := runningSums 0 f.data })

def ensureOffsets {H : Type} (fh : Nat) (f : FileInode H) : Traffic H (FileInode H) :=
  if f.offsets = [] then do
    calcOffsets fh
    noting commitInodes
    quiet (inodeAt fh)
  else
    return f

def retrieveData (cfg : Config) (P : Packages H) (fh offset length : Nat) (whole : Bool) :
    Traffic H Retrieved := do
  let s ← quiet Py.read
  match s.inodes.getItem? fh with
  | none => return .data []
  | some f =>
    if f.data = [] then
      return .data []
    else do
      let f ← ensureOffsets fh f
      quiet (retrieveBlocks cfg P f offset length whole)

def read (cfg : Config) (P : Packages H) (fh offset length : Nat) (now : Time) :
    Traffic H Bytes := do
  let r ← retrieveData cfg P fh offset length false
  let f ← quiet (inodeAt fh)
  quiet (setInode fh { f with atimeNs := timeNs now })
  return r.bytes

def writeMiddle (cfg : Config) (P : Packages H) (fh offset : Nat) (buf : Bytes) :
    Traffic H (FileInode H) := do
  match ← retrieveData cfg P fh offset buf.length true with
  | .data _ => Py.raise .valueError
  | .whole startDiff startBlock endBlock data =>
    let newData ← quiet (Fs.onGlobals (dedup cfg P
      (spliceAt data (max 0 startDiff) ((buf.length : Int) + max 0 startDiff) buf)))
    let f ← quiet (inodeAt fh)
    return { f with data := replaceBlocks f.data startBlock endBlock newData }

def write (cfg : Config) (P : Packages H) (fh offset : Nat) (buf : Bytes) (now : Time) :
    Traffic H Nat := do
  let f ← quiet (inodeAt fh)
  if inMiddle f offset buf.length then
    let written ← Py.attempt
      (do
        let f ← writeMiddle cfg P fh offset buf
        return some f)
      (fun e => if e = .valueError then return none else Py.raise e)
    match written with
    | none => return 0
    | some f => quiet (finishWrite fh offset buf.length now f)
  else
    let blocks ← quiet (Fs.onGlobals (dedup cfg P buf))
    quiet (finishWrite fh offset buf.length now { f with data := f.data ++ blocks })

def copyBlocks (cfg : Config) (P : Packages H) (now : Time) (fh tempIno newSize : Nat) :
    List (FileBlock H) → Nat → Traffic H Unit
  | [], _ => return ()
  | i :: rest, offset =>
    if i.rawSize + offset ≤ newSize then do
      let dat ← read cfg P fh offset i.rawSize now
      let written ← write cfg P tempIno offset dat now
      if offset + written = newSize then return ()
      else copyBlocks cfg P now fh tempIno newSize rest (offset + written)
    else do
      let dat ← read cfg P fh offset (newSize - offset) now
      let _written ← write cfg P tempIno offset dat now
      return ()

def truncateDown (cfg : Config) (P : Packages H) (env : CallEnv H) (fh newSize : Nat) :
    Traffic H Unit := do
  let tempIno ← quiet (copyInode fh)
  Py.attempt
    (do
      let f ← quiet (inodeAt fh)
      copyBlocks cfg P (env.clock 0) fh tempIno newSize f.data 0
      noting (replaceInode cfg env fh tempIno))
    (fun _ => return ())

def resize (cfg : Config) (P : Packages H) (env : CallEnv H) (f : FileInode H) (size : Nat) :
    Traffic H Unit :=
  if f.size < size then do
    let _written ← write cfg P f.inode f.size (List.replicate (size - f.size) 0) (env.clock 0)
    return ()
  else if size < f.size then
    truncateDown cfg P env f.inode size
  else
    return ()

def updateSize (cfg : Config) (P : Packages H) (env : CallEnv H) (f : FileInode H) :
    Option Nat → Traffic H Unit
  | none => return ()
  | some size => Py.attempt (resize cfg P env f size) (fun _ => return ())

def setattr (cfg : Config) (P : Packages H) (env : CallEnv H) (inode : Nat) (a : SetattrFields) :
    Traffic H EntryAttributes := do
  let old ← quiet (inodeAt inode)
  updateSize cfg P env old a.stSize
  quiet (setAttributes inode a (env.clock 0))
  quiet (getattr inode)

/-! ## Names -/

def rmdir {H : Type} (inodeP : Nat) (name : Bytes) : Traffic H Unit := do
  let entry ← quiet (Fs.lookup inodeP name)
  if S_ISDIR entry.stMode then
    let s ← quiet Py.read
    if dirEntries s.inodes entry.stIno = [] then
      noting (delInode entry.stIno)
      noting commitInodes
    else
      Py.raise (.fuseError .ENOTEMPTY)
  else
    Py.raise (.fuseError .ENOTDIR)

/-- `rename` after its source was found. -/
def renameTo {H : Type} (inodePNew : Nat) (nameNew : Bytes) (entryOld : Nat) : Traffic H Unit := do
  match ← quiet (lookupTarget inodePNew nameNew) with
  | none =>
    let old ← quiet (inodeAt entryOld)
    quiet (setInode entryOld { old with name := nameNew, parentInode := inodePNew })
  | some entryNew => noting (replace inodePNew nameNew entryOld entryNew.stIno)
  noting commitInodes

def rename {H : Type} (inodePOld : Nat) (nameOld : Bytes) (inodePNew : Nat) (nameNew : Bytes)
    (flags : Nat) : Traffic H Unit :=
  if flags ≠ 0 then
    Py.raise (.fuseError .EINVAL)
  else do
    let entryOld ← quiet (Fs.lookup inodePOld nameOld)
    renameTo inodePNew nameNew entryOld.stIno

def symlink {H : Type} (inodeP : Nat) (name target : Bytes) (uid gid : Nat) (now : Time) :
    Traffic H EntryAttributes := do
  let entry ← noting (VeratyFS.create (symlinkArgs inodeP name target uid gid) now)
  let i ← quiet (inodeAt entry.stIno)
  quiet (setInode entry.stIno { i with lookupCount := i.lookupCount + 1 })
  noting commitInodes
  return entry

def forget (cfg : Config) (clock : Nat → Nat → Time) (inodeList : List (Nat × Nat)) :
    Traffic H Unit := do
  Py.forEach (fun n => noting (forgetOne cfg (clock n.2) n.1.1 n.1.2)) inodeList.zipIdx
  noting commitInodes

/-! ## The handlers -/

/-- An operation of the file system in one of the handlers. -/
def onFs {H α : Type} (m : Traffic H α) : Py PyError (Observed (Vfs H) (MetaStore H)) α :=
  Py.within Vfs.fs (fun s v => { v with fs := s }) m

def answer {H α : Type} (reply : α → Reply) (m : Traffic H α) :
    Py PyError (Observed (Vfs H) (MetaStore H)) Reply := do
  let a ← onFs m
  return reply a

def release (cfg : Config) (clock : Nat → Time) (fh : Nat) :
    Py PyError (Observed (Vfs H) (MetaStore H)) Unit := do
  Py.quiet (Vfs.addOpen fh (-1))
  let v ← Py.quiet Py.read
  if v.openCount fh = 0 then
    Py.quiet (Py.modify fun v => { v with inodeOpenCount := v.inodeOpenCount.erase fh })
    onFs (noting (Vfs.removeUnlinked cfg clock fh))
    onFs (noting commitInodes)
  else
    onFs (noting commitInodes)

def create {H : Type} (a : CreateArgs) (now : Time) :
    Py PyError (Observed (Vfs H) (MetaStore H)) EntryAttributes := do
  let entry ← onFs (noting (VeratyFS.create a now))
  Py.quiet (Vfs.addOpen entry.stIno 1)
  return entry

/-- The answer to a request. -/
def handle (cfg : Config) (clock : Nat → Nat → Time) :
    Request → Py PyError (Observed (Vfs H) (MetaStore H)) Reply
  | .lookup inodeP name => answer .entry (quiet (Fs.lookup inodeP name))
  | .create a => do
    let e ← create a (clock 0 0)
    return .entry e
  | .mkdir a => answer .entry (noting (mkdir a (clock 0 0)))
  | .mknod a rdev => answer .entry (noting (mknod a rdev (clock 0 0)))
  | .symlink inodeP name target uid gid =>
    answer .entry (symlink inodeP name target uid gid (clock 0 0))
  | .link inode newInodeP newName => answer .entry (noting (link inode newInodeP newName (clock 0 0)))
  | .unlink inodeP name => answer (fun _ => .done) (noting (unlink inodeP name))
  | .rmdir inodeP name => answer (fun _ => .done) (rmdir inodeP name)
  | .rename inodePOld nameOld inodePNew nameNew flags =>
    answer (fun _ => .done) (rename inodePOld nameOld inodePNew nameNew flags)
  | .readdir inode off _ => answer .listing (quiet (readdir inode off))
  | .forget inodeList => answer (fun _ => .done) (forget cfg clock inodeList)
  | .openFile inode => do
    let _fh ← Py.quiet (Vfs.openFile inode)
    return .done
  | .release fh => do
    release cfg (clock 0) fh
    return .done

end Traffic

/-! ## Operations -/

variable {H : Type} [DecidableEq H] {cfg : Config} {P : Packages H}

/-- A request, a call of one of the file operations, or a turn of a thread. -/
inductive Operation (H : Type) where
  | request (c : Call)
  | read (fh offset length : Nat) (now : Time)
  | retrieveData (fh offset length : Nat) (whole : Bool)
  | calcOffsets (fh : Nat)
  | write (fh offset : Nat) (buf : Bytes) (now : Time)
  | setattr (inode : Nat) (a : SetattrFields) (env : CallEnv H)
  | flush
  | writerStep (env : CommitEnv)
  | collect (clock : Nat → Time)

namespace Operation

/-- What an operation does; what the file operations return is left out. -/
def handle (cfg : Config) (P : Packages H) : Operation H → Py PyError (Vfs H) Reply
  | .request c => c.request.handle cfg c.clock
  | .read fh offset length now => Vfs.answer (fun _ => .done) (VeratyFS.read cfg P fh offset length now)
  | .retrieveData fh offset length whole =>
    Vfs.answer (fun _ => .done) (VeratyFS.retrieveData cfg P fh offset length whole)
  | .calcOffsets fh => Vfs.answer (fun _ => .done) (VeratyFS.calcOffsets fh)
  | .write fh offset buf now =>
    Vfs.answer (fun _ => .done) (VeratyFS.write cfg P fh offset buf now)
  | .setattr inode a env => Vfs.answer (fun _ => .done) (VeratyFS.setattr cfg P env inode a)
  | .flush => Vfs.answer (fun _ => .done) VeratyFS.flush
  | .writerStep env => Vfs.answer (fun _ => .done) (Fs.onGlobals (writeNewBlock cfg env))
  | .collect clock => Vfs.answer (fun _ => .done) (Fs.onGlobals (garbageCollector cfg clock))

def traffic (cfg : Config) (P : Packages H) :
    Operation H → Py PyError (Observed (Vfs H) (MetaStore H)) Reply
  | .request c => Traffic.handle cfg c.clock c.request
  | .read fh offset length now =>
    Traffic.answer (fun _ => .done) (Traffic.read cfg P fh offset length now)
  | .retrieveData fh offset length whole =>
    Traffic.answer (fun _ => .done) (Traffic.retrieveData cfg P fh offset length whole)
  | .calcOffsets fh => Traffic.answer (fun _ => .done) (Traffic.calcOffsets fh)
  | .write fh offset buf now =>
    Traffic.answer (fun _ => .done) (Traffic.write cfg P fh offset buf now)
  | .setattr inode a env => Traffic.answer (fun _ => .done) (Traffic.setattr cfg P env inode a)
  | .flush => Traffic.answer (fun _ => .done) (Traffic.noting VeratyFS.flush)
  | .writerStep env =>
    Traffic.answer (fun _ => .done) (Traffic.quiet (Fs.onGlobals (writeNewBlock cfg env)))
  | .collect clock =>
    Traffic.answer (fun _ => .done) (Traffic.quiet (Fs.onGlobals (garbageCollector cfg clock)))

def exec (cfg : Config) (P : Packages H) (e : Operation H) (v : Vfs H) : Vfs H :=
  (e.handle cfg P v).2

/-- The databases that a crash can leave: as before the operation, and after each of its calls. -/
def points (cfg : Config) (P : Packages H) (e : Operation H) (v : Vfs H) : List (MetaStore H) :=
  (e.traffic cfg P ⟨v, [v.fs.inodes.ht]⟩).2.seen

end Operation

/-! ## What is observed is what is done -/

section

open Py

omit [DecidableEq H] in
theorem calcOffsets_follows (fh : Nat) :
    Follows (Traffic.calcOffsets fh) (calcOffsets (H := H) fh) := by
  refine follows_bind (follows_quiet _) fun f => ?_
  refine follows_bind (follows_quiet _) fun _ => ?_
  exact follows_bind (follows_noting _ _) fun _ => follows_quiet _

omit [DecidableEq H] in
theorem ensureOffsets_follows (fh : Nat) (f : FileInode H) :
    Follows (Traffic.ensureOffsets fh f) (ensureOffsets fh f) := by
  unfold Traffic.ensureOffsets ensureOffsets
  split
  · refine follows_bind (calcOffsets_follows fh) fun _ => ?_
    exact follows_bind (follows_noting _ _) fun _ => follows_quiet _
  · exact follows_pure _

theorem retrieveData_follows (cfg : Config) (P : Packages H) (fh offset length : Nat) (whole : Bool) :
    Follows (Traffic.retrieveData cfg P fh offset length whole)
      (retrieveData cfg P fh offset length whole) := by
  refine follows_bind (follows_quiet _) fun s => ?_
  cases s.inodes.getItem? fh with
  | none => exact follows_pure _
  | some f =>
    by_cases h : f.data = []
    · simp only [h, if_true]
      exact follows_pure _
    · simp only [h, if_false]
      exact follows_bind (ensureOffsets_follows fh f) fun _ => follows_quiet _

theorem read_follows (cfg : Config) (P : Packages H) (fh offset length : Nat) (now : Time) :
    Follows (Traffic.read cfg P fh offset length now) (read cfg P fh offset length now) := by
  refine follows_bind (retrieveData_follows cfg P fh offset length false) fun r => ?_
  refine follows_bind (follows_quiet _) fun f => ?_
  exact follows_bind (follows_quiet _) fun _ => follows_pure _

theorem writeMiddle_follows (cfg : Config) (P : Packages H) (fh offset : Nat) (buf : Bytes) :
    Follows (Traffic.writeMiddle cfg P fh offset buf) (writeMiddle cfg P fh offset buf) := by
  refine follows_bind (retrieveData_follows cfg P fh offset buf.length true) fun r => ?_
  split
  · exact follows_raise _
  · refine follows_bind (follows_quiet _) fun newData => ?_
    exact follows_bind (follows_quiet _) fun f => follows_pure _

theorem write_follows (cfg : Config) (P : Packages H) (fh offset : Nat) (buf : Bytes) (now : Time) :
    Follows (Traffic.write cfg P fh offset buf now) (write cfg P fh offset buf now) := by
  refine follows_bind (follows_quiet _) fun f => ?_
  split
  · refine follows_bind (follows_attempt (follows_bind (writeMiddle_follows cfg P fh offset buf)
      fun _ => follows_pure _) fun e => ?_) fun written => ?_
    · split
      · exact follows_pure _
      · exact follows_raise _
    · split
      · exact follows_pure _
      · exact follows_quiet _
  · exact follows_bind (follows_quiet _) fun _ => follows_quiet _

theorem copyBlocks_follows (cfg : Config) (P : Packages H) (now : Time) (fh tempIno newSize : Nat) :
    ∀ (rest : List (FileBlock H)) (offset : Nat),
      Follows (Traffic.copyBlocks cfg P now fh tempIno newSize rest offset)
        (copyBlocks cfg P now fh tempIno newSize rest offset)
  | [], _ => follows_pure _
  | i :: rest, offset => by
    unfold Traffic.copyBlocks copyBlocks
    split
    · refine follows_bind (read_follows cfg P fh offset i.rawSize now) fun dat => ?_
      refine follows_bind (write_follows cfg P tempIno offset dat now) fun written => ?_
      split
      · exact follows_pure _
      · exact copyBlocks_follows cfg P now fh tempIno newSize rest (offset + written)
    · refine follows_bind (read_follows cfg P fh offset (newSize - offset) now) fun dat => ?_
      exact follows_bind (write_follows cfg P tempIno offset dat now) fun _ => follows_pure _

theorem truncateDown_follows (cfg : Config) (P : Packages H) (env : CallEnv H) (fh newSize : Nat) :
    Follows (Traffic.truncateDown cfg P env fh newSize) (truncateDown cfg P env fh newSize) := by
  refine follows_bind (follows_quiet _) fun tempIno => ?_
  refine follows_attempt (follows_bind (follows_quiet _) fun f => ?_) fun _ => follows_pure _
  exact follows_bind (copyBlocks_follows cfg P (env.clock 0) fh tempIno newSize f.data 0) fun _ =>
    follows_noting _ _

theorem resize_follows (cfg : Config) (P : Packages H) (env : CallEnv H) (f : FileInode H)
    (size : Nat) : Follows (Traffic.resize cfg P env f size) (resize cfg P env f size) := by
  unfold Traffic.resize resize
  split
  · exact follows_bind (write_follows cfg P f.inode f.size _ _) fun _ => follows_pure _
  · split
    · exact truncateDown_follows cfg P env f.inode size
    · exact follows_pure _

theorem setattr_follows (cfg : Config) (P : Packages H) (env : CallEnv H) (inode : Nat)
    (a : SetattrFields) : Follows (Traffic.setattr cfg P env inode a) (setattr cfg P env inode a) := by
  refine follows_bind (follows_quiet _) fun old => ?_
  refine follows_bind ?_ fun _ => follows_bind (follows_quiet _) fun _ => follows_quiet _
  cases a.stSize with
  | none => exact follows_pure _
  | some size => exact follows_attempt (resize_follows cfg P env old size) fun _ => follows_pure _

omit [DecidableEq H] in
theorem rmdir_follows (p : Nat) (n : Bytes) :
    Follows (Traffic.rmdir p n) (rmdir (H := H) p n) := by
  refine follows_bind (follows_quiet _) fun entry => ?_
  split
  · refine follows_bind (follows_quiet _) fun s => ?_
    split
    · exact follows_bind (follows_noting _ _) fun _ => follows_noting _ _
    · exact follows_raise _
  · exact follows_raise _

omit [DecidableEq H] in
theorem rename_follows (pOld : Nat) (nOld : Bytes) (pNew : Nat) (nNew : Bytes) (flags : Nat) :
    Follows (Traffic.rename pOld nOld pNew nNew flags)
      (rename (H := H) pOld nOld pNew nNew flags) := by
  unfold Traffic.rename rename
  split
  · exact follows_raise _
  · refine follows_bind (follows_quiet _) fun entryOld => ?_
    refine follows_bind (follows_quiet _) fun target => ?_
    cases target with
    | none =>
      refine follows_bind (follows_quiet _) fun old => ?_
      exact follows_bind (follows_quiet _) fun _ => follows_noting _ _
    | some entryNew => exact follows_bind (follows_noting _ _) fun _ => follows_noting _ _

omit [DecidableEq H] in
theorem symlink_follows (p : Nat) (n target : Bytes) (uid gid : Nat) (now : Time) :
    Follows (Traffic.symlink p n target uid gid now) (symlink (H := H) p n target uid gid now) := by
  refine follows_bind (follows_noting _ _) fun entry => ?_
  refine follows_bind (follows_quiet _) fun i => ?_
  refine follows_bind (follows_quiet _) fun _ => ?_
  exact follows_bind (follows_noting _ _) fun _ => follows_pure _

theorem forget_follows (cfg : Config) (clock : Nat → Nat → Time) (l : List (Nat × Nat)) :
    Follows (Traffic.forget cfg clock l) (forget (H := H) cfg clock l) :=
  follows_bind (follows_forEach fun _ => follows_noting _ _) fun _ => follows_noting _ _

omit [DecidableEq H] in
theorem answer_follows {α : Type} (reply : α → Reply) {m' : Traffic H α} {m : Op H α}
    (h : Follows m' m) : Follows (Traffic.answer reply m') (Vfs.answer reply m) :=
  follows_bind (follows_within h) fun _ => follows_pure _

theorem release_follows (cfg : Config) (clock : Nat → Time) (fh : Nat) :
    Follows (Traffic.release cfg clock fh) (Vfs.release (H := H) cfg clock fh) := by
  have hcommit : Follows (Traffic.onFs (Traffic.noting commitInodes)) (Vfs.onFs (H := H) commitInodes) :=
    follows_within (follows_noting _ _)
  refine follows_bind (follows_quiet _) fun _ => ?_
  refine follows_bind (follows_quiet _) fun v => ?_
  split
  · refine follows_bind (follows_quiet _) fun _ => ?_
    exact follows_bind (follows_within (follows_noting _ _)) fun _ => hcommit
  · exact hcommit

theorem handle_follows (cfg : Config) (clock : Nat → Nat → Time) (q : Request) :
    Follows (Traffic.handle cfg clock q) (q.handle (H := H) cfg clock) := by
  cases q with
  | create a =>
    refine follows_bind (follows_bind (follows_within (follows_noting _ _)) fun entry => ?_) fun _ =>
      follows_pure _
    exact follows_bind (follows_quiet _) fun _ => follows_pure _
  | symlink p n target uid gid => exact answer_follows _ (symlink_follows p n target uid gid _)
  | rmdir p n => exact answer_follows _ (rmdir_follows p n)
  | rename pOld nOld pNew nNew flags => exact answer_follows _ (rename_follows pOld nOld pNew nNew flags)
  | forget l => exact answer_follows _ (forget_follows cfg clock l)
  | openFile inode => exact follows_bind (follows_quiet _) fun _ => follows_pure _
  | release fh => exact follows_bind (release_follows cfg (clock 0) fh) fun _ => follows_pure _
  | lookup p n => exact answer_follows _ (follows_quiet _)
  | readdir inode off accepted => exact answer_follows _ (follows_quiet _)
  | mkdir a => exact answer_follows _ (follows_noting _ _)
  | mknod a rdev => exact answer_follows _ (follows_noting _ _)
  | link inode p n => exact answer_follows _ (follows_noting _ _)
  | unlink p n => exact answer_follows _ (follows_noting _ _)

/-- **What is observed is what the operations do.** -/
theorem Operation.traffic_follows (e : Operation H) :
    Follows (e.traffic cfg P) (e.handle cfg P) := by
  cases e with
  | request c => exact handle_follows cfg c.clock c.request
  | read fh offset length now => exact answer_follows _ (read_follows cfg P fh offset length now)
  | retrieveData fh offset length whole =>
    exact answer_follows _ (retrieveData_follows cfg P fh offset length whole)
  | calcOffsets fh => exact answer_follows _ (calcOffsets_follows fh)
  | write fh offset buf now => exact answer_follows _ (write_follows cfg P fh offset buf now)
  | setattr inode a env => exact answer_follows _ (setattr_follows cfg P env inode a)
  | flush => exact answer_follows _ (follows_noting _ _)
  | writerStep env => exact answer_follows _ (follows_quiet _)
  | collect clock => exact answer_follows _ (follows_quiet _)

end

/-- Operations in any order. -/
def operationRuns (cfg : Config) (P : Packages H) : System (Vfs H) (Operation H) :=
  .ofFun (Operation.exec cfg P)

end VeratyFS
