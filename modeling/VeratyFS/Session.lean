import VeratyFS.NamespaceSpec
import VeratyFS.Lib.Runs

/-!
# Requests of the kernel

The handlers one after the other, and the references to inodes that the kernel holds.

* `Request`, `Reply`, `Request.handle` — a request and the handler that answers it.
* `Session` — the file system and the kernel's references: a reply with an entry gives one, an
  accepted directory entry gives one, `forget` takes some back.
* `sessions` — any requests in any order.
-/

set_option autoImplicit false

namespace VeratyFS

open Pylib

variable {H : Type} [DecidableEq H]

inductive Request where
  | lookup (inodeP : Nat) (name : Bytes)
  | create (a : CreateArgs)
  | mkdir (a : CreateArgs)
  | mknod (a : CreateArgs) (rdev : Nat)
  | symlink (inodeP : Nat) (name target : Bytes) (uid gid : Nat)
  | link (inode newInodeP : Nat) (newName : Bytes)
  | unlink (inodeP : Nat) (name : Bytes)
  | rmdir (inodeP : Nat) (name : Bytes)
  | rename (inodePOld : Nat) (nameOld : Bytes) (inodePNew : Nat) (nameNew : Bytes) (flags : Nat)
  | readdir (inode off : Nat) (accepted : Bool)
  | forget (inodeList : List (Nat × Nat))
  | openFile (inode : Nat)
  | release (fh : Nat)

inductive Reply where
  | entry (e : EntryAttributes)
  | listing (o : Option (Bytes × EntryAttributes × Nat))
  | done

/-- A reply from what a handler of the file system returns. -/
def Vfs.answer {α : Type} (reply : α → Reply) (m : Op H α) : Py PyError (Vfs H) Reply := do
  let a ← Vfs.onFs m
  return reply a

/-- The answer to a request.  `clock` is read as by `forget`; a handler that reads the time once
    reads `clock 0 0`. -/
def Request.handle (cfg : Config) (clock : Nat → Nat → Time) : Request → Py PyError (Vfs H) Reply
  | .lookup inodeP name => Vfs.answer .entry (Fs.lookup inodeP name)
  | .create a => do
    let e ← Vfs.create a (clock 0 0)
    return .entry e
  | .mkdir a => Vfs.answer .entry (VeratyFS.mkdir a (clock 0 0))
  | .mknod a rdev => Vfs.answer .entry (VeratyFS.mknod a rdev (clock 0 0))
  | .symlink inodeP name target uid gid =>
    Vfs.answer .entry (VeratyFS.symlink inodeP name target uid gid (clock 0 0))
  | .link inode newInodeP newName =>
    Vfs.answer .entry (VeratyFS.link inode newInodeP newName (clock 0 0))
  | .unlink inodeP name => Vfs.answer (fun _ => .done) (VeratyFS.unlink inodeP name)
  | .rmdir inodeP name => Vfs.answer (fun _ => .done) (VeratyFS.rmdir inodeP name)
  | .rename inodePOld nameOld inodePNew nameNew flags =>
    Vfs.answer (fun _ => .done) (VeratyFS.rename inodePOld nameOld inodePNew nameNew flags)
  | .readdir inode off _ => Vfs.answer .listing (VeratyFS.readdir inode off)
  | .forget inodeList => Vfs.answer (fun _ => .done) (VeratyFS.forget cfg clock inodeList)
  | .openFile inode => do
    let _fh ← Vfs.openFile inode
    return .done
  | .release fh => do
    Vfs.release cfg (clock 0) fh
    return .done

/-- The inode to which a reply gives the kernel a reference. -/
def Request.grants : Request → Except PyError Reply → Option Nat
  | .readdir _ _ accepted, .ok (.listing (some (_, e, _))) => if accepted then some e.stIno else none
  | _, .ok (.entry e) => some e.stIno
  | _, _ => none

/-- The references that the kernel takes back. -/
def Request.returns : Request → Nat → Int
  | .forget inodeList, k => (inodeList.map fun n => if n.1 = k then (n.2 : Int) else 0).sum
  | _, _ => 0

structure Session (H : Type) where
  vfs : Vfs H
  /-- How many references to an inode the kernel holds. -/
  references : Nat → Int

structure Call where
  request : Request
  clock : Nat → Nat → Time

namespace Session

def inodes (s : Session H) : FSMeta H := s.vfs.fs.inodes

/-- The handler's outcome. -/
def outcome (cfg : Config) (c : Call) (s : Session H) : Except PyError Reply × Vfs H :=
  c.request.handle cfg c.clock s.vfs

def exec (cfg : Config) (c : Call) (s : Session H) : Session H where
  vfs := (s.outcome cfg c).2
  references k :=
    s.references k + (if c.request.grants (s.outcome cfg c).1 = some k then 1 else 0) -
      c.request.returns k

/-- A new file system, and a kernel that holds no reference. -/
def fresh (cacheSize : Nat) (h : 0 < cacheSize) (datastore mirrorDatastore : List (DataStore H)) :
    Session H :=
  ⟨⟨.fresh cacheSize h datastore mirrorDatastore, Dict.empty⟩, fun _ => 0⟩

end Session

def sessions (cfg : Config) : System (Session H) Call := .ofFun (Session.exec cfg)

/-! ## What a request does -/

variable {cfg : Config} {clock : Nat → Nat → Time} {v : Vfs H}

/-- The file system after a request. -/
inductive Handled (v : Vfs H) (now : Time) : Request → Except PyError Reply → Fs H → Prop
  | lookup {p : Nat} {n : Bytes} {r : Except PyError EntryAttributes} {s : Fs H}
      (run : LookupRun v.fs p n r s) : Handled v now (.lookup p n) (r.map .entry) s
  | create {a : CreateArgs} {r : Except PyError EntryAttributes} {s : Fs H}
      (run : CreateRun v.fs a now r s) : Handled v now (.create a) (r.map .entry) s
  | mkdir {a : CreateArgs} {r : Except PyError EntryAttributes} {s : Fs H}
      (run : CreateRun v.fs a now r s) : Handled v now (.mkdir a) (r.map .entry) s
  | mknod {a : CreateArgs} {rdev : Nat} {r : Except PyError EntryAttributes} {s : Fs H}
      (run : CreateRun v.fs { a with rdev := rdev } now r s) :
      Handled v now (.mknod a rdev) (r.map .entry) s
  | symlink {p : Nat} {n target : Bytes} {uid gid : Nat} {r : Except PyError EntryAttributes}
      {s : Fs H} (run : SymlinkRun v.fs (symlinkArgs p n target uid gid) now r s) :
      Handled v now (.symlink p n target uid gid) (r.map .entry) s
  | link {inode p : Nat} {n : Bytes} {r : Except PyError EntryAttributes} {s : Fs H}
      (run : LinkRun v.fs inode p n now r s) : Handled v now (.link inode p n) (r.map .entry) s
  | unlink {p : Nat} {n : Bytes} {r : Except PyError Unit} {s : Fs H}
      (run : UnlinkRun v.fs p n r s) : Handled v now (.unlink p n) (r.map fun _ => .done) s
  | rmdir {p : Nat} {n : Bytes} {r : Except PyError Unit} {s : Fs H}
      (run : RmdirRun v.fs p n r s) : Handled v now (.rmdir p n) (r.map fun _ => .done) s
  | rename {pOld pNew flags : Nat} {nOld nNew : Bytes} {r : Except PyError Unit} {s : Fs H}
      (run : RenameRun v.fs pOld nOld pNew nNew flags r s) :
      Handled v now (.rename pOld nOld pNew nNew flags) (r.map fun _ => .done) s
  | readdir {inode off : Nat} {accepted : Bool}
      {r : Except PyError (Option (Bytes × EntryAttributes × Nat))}
      (run : ReaddirRun v.fs inode off r) :
      Handled v now (.readdir inode off accepted) (r.map .listing) v.fs
  | forget {l : List (Nat × Nat)} {s : Fs H} (rounds : ForgetRounds l v.fs s) :
      Handled v now (.forget l) (.ok .done) (s.withInodes s.inodes.commit)
  | openFile {inode : Nat} : Handled v now (.openFile inode) (.ok .done) v.fs
  | release {fh : Nat} {r : Except PyError Unit} {v' : Vfs H} (run : ReleaseRun v fh v') :
      Handled v now (.release fh) (r.map fun _ => .done) v'.fs

omit [DecidableEq H] in
theorem bind_reply {α : Type} (reply : α → Reply) (m : Py PyError (Vfs H) α) (v : Vfs H) :
    (m >>= fun a => return reply a) v = ((m v).1.map reply, (m v).2) := by
  cases hm : m v with
  | mk r v' =>
    cases r with
    | error e => exact Py.run_bind_error hm
    | ok a => exact Py.run_bind_ok hm

omit [DecidableEq H] in
theorem answer_run {α : Type} (reply : α → Reply) (m : Op H α) (v : Vfs H) :
    Vfs.answer reply m v = ((m v.fs).1.map reply, { v with fs := (m v.fs).2 }) :=
  bind_reply reply (Vfs.onFs m) v

omit [DecidableEq H] in
/-- The handler `create` is `_create`, and counts the open file. -/
theorem Vfs.create_run (a : CreateArgs) (now : Time) (v : Vfs H) :
    (Vfs.create a now v).1 = (VeratyFS.create a now v.fs).1 ∧
      (Vfs.create a now v).2.fs = (VeratyFS.create a now v.fs).2 ∧
      ∀ k, (Vfs.create a now v).2.openCount k = v.openCount k +
        match (VeratyFS.create a now v.fs).1 with
        | .ok e => if e.stIno = k then 1 else 0
        | .error _ => 0 := by
  cases hm : VeratyFS.create a now v.fs with
  | mk r s' =>
    have hfs : Vfs.onFs (VeratyFS.create a now) v = (r, { v with fs := s' }) := by
      show ((VeratyFS.create a now v.fs).1,
        ({ v with fs := (VeratyFS.create a now v.fs).2 } : Vfs H)) = _
      rw [hm]
    unfold Vfs.create
    cases r with
    | error e =>
      rw [Py.run_bind_error hfs]
      exact ⟨rfl, rfl, fun k => (Int.add_zero _).symm⟩
    | ok e =>
      rw [Py.run_bind_ok hfs]
      refine ⟨rfl, rfl, fun k => ?_⟩
      show (Vfs.addOpen e.stIno 1 { v with fs := s' }).2.openCount k = _
      rw [addOpen_openCount]
      by_cases hk : e.stIno = k
      · subst hk
        simp
        rfl
      · simp [hk]
        rfl

/-- **Every request is handled as `Handled` says.** -/
theorem handle_run (cfg : Config) (clock : Nat → Nat → Time) (q : Request)
    (hs : SelfNumbered v.fs.inodes) :
    Handled v (clock 0 0) q (q.handle cfg clock v).1 (q.handle cfg clock v).2.fs := by
  cases q with
  | create a =>
    obtain ⟨hr, hfs, _⟩ := Vfs.create_run a (clock 0 0) v
    rw [Request.handle, bind_reply, hr]
    show Handled v _ _ _ (Vfs.create a (clock 0 0) v).2.fs
    rw [hfs]
    exact .create (create_run a _ _)
  | forget l =>
    obtain ⟨s₁, hrounds, hrun⟩ := forget_run cfg clock l v.fs
    rw [Request.handle, answer_run, hrun]
    exact .forget hrounds
  | openFile inode => exact .openFile
  | release fh =>
    rw [Request.handle, bind_reply]
    exact .release (release_run cfg (clock 0) fh v).1
  | readdir inode off accepted =>
    have hrun := readdir_run inode off v.fs
    rw [Request.handle, answer_run, hrun.2]
    exact .readdir hrun.1
  | lookup p n =>
    rw [Request.handle, answer_run]
    exact .lookup (lookup_run hs p n)
  | mkdir a =>
    rw [Request.handle, answer_run]
    exact .mkdir (create_run a _ _)
  | mknod a rdev =>
    rw [Request.handle, answer_run]
    exact .mknod (create_run _ _ _)
  | symlink p n target uid gid =>
    rw [Request.handle, answer_run]
    exact .symlink (symlink_run p n target uid gid _ _)
  | link inode p n =>
    rw [Request.handle, answer_run]
    exact .link (link_run inode p n _ _)
  | unlink p n =>
    rw [Request.handle, answer_run]
    exact .unlink (unlink_run hs p n)
  | rmdir p n =>
    rw [Request.handle, answer_run]
    exact .rmdir (rmdir_run hs p n)
  | rename pOld nOld pNew nNew flags =>
    rw [Request.handle, answer_run]
    exact .rename (rename_run hs pOld nOld pNew nNew flags)

/-! ## Moves of the table -/

omit [DecidableEq H] in
theorem ForgetOneRun.moves {s s' : Fs H} {k n : Nat} (h : ForgetOneRun s k n s')
    (hs : SelfNumbered s.inodes) : TableMoves s.inodes s'.inodes := by
  cases h with
  | missing found => exact .refl _
  | root found root => exact (TableMoves.refl _).set (by have hself := hs k _ found; exact hself)
  | kept found notRoot => exact (TableMoves.refl _).set (by have hself := hs k _ found; exact hself)
  | removed found notRoot links =>
    exact TableMoves.delete ((TableMoves.refl _).set (by have hself := hs k _ found; exact hself)) k

omit [DecidableEq H] in
theorem ForgetRounds.moves {l : List (Nat × Nat)} {s s' : Fs H} (h : ForgetRounds l s s')
    (hs : SelfNumbered s.inodes) : TableMoves s.inodes s'.inodes := by
  induction h with
  | nil s => exact .refl _
  | cons first rest ih =>
    have hfirst := first.moves hs
    exact hfirst.trans (ih (hs.moves hfirst))

omit [DecidableEq H] in
theorem CreateRun.moves {a : CreateArgs} {now : Time} {r : Except PyError EntryAttributes}
    {s s' : Fs H} (h : CreateRun s a now r s') : TableMoves s.inodes s'.inodes := by
  cases h with
  | orphan parent => exact .refl _
  | unlinkedParent parent links => exact .refl _
  | done parent links number => exact TableMoves.commit ((TableMoves.refl _).set (by rfl))

omit [DecidableEq H] in
theorem LinkRun.moves {inode p : Nat} {n : Bytes} {now : Time} {r : Except PyError EntryAttributes}
    {s s' : Fs H} (h : LinkRun s inode p n now r s') (hs : SelfNumbered s.inodes) :
    TableMoves s.inodes s'.inodes := by
  cases h with
  | orphan parent => exact .refl _
  | unlinkedParent parent links => exact .refl _
  | dangling parent links number target => exact (TableMoves.refl _).set (by rfl)
  | @done _ _ ni parent links number target =>
    have hnew := TableMoves.set (v := linkInode inode p n ni now) (.refl s.inodes) rfl
    have hself := hs.moves hnew _ _ target
    apply TableMoves.commit
    exact TableMoves.set hnew hself

omit [DecidableEq H] in
/-- **Every request moves the table.** -/
theorem Handled.moves {now : Time} {q : Request} {r : Except PyError Reply} {s : Fs H}
    (h : Handled v now q r s) (hs : SelfNumbered v.fs.inodes) :
    TableMoves v.fs.inodes s.inodes := by
  have hlookup : ∀ {p : Nat} {n : Bytes} {k : Nat} {f : FileInode H},
      findEntry v.fs.inodes p n = some (k, f) →
      TableMoves v.fs.inodes (v.fs.inodes.update k f.lookedUp) :=
    fun found => (TableMoves.refl _).lookedUp (findEntry_some found).1
  cases h with
  | lookup run =>
    cases run with
    | missing found => exact .refl _
    | done found => exact hlookup found
  | create run => exact run.moves
  | mkdir run => exact run.moves
  | mknod run => exact run.moves
  | symlink run =>
    cases run with
    | failed created => exact .refl _
    | done parent links number =>
      apply TableMoves.commit
      apply TableMoves.set (TableMoves.commit ((TableMoves.refl _).set (by rfl)))
      rfl
  | link run => exact run.moves hs
  | unlink run =>
    cases run with
    | missing found => exact .refl _
    | directory found dir => exact hlookup found
    | done found file =>
      apply TableMoves.commit
      exact TableMoves.set (hlookup found) (by have hself := hs _ _ (findEntry_some found).1; exact hself)
  | rmdir run =>
    cases run with
    | missing found => exact .refl _
    | file found file => exact hlookup found
    | notEmpty found dir children => exact hlookup found
    | done found dir empty => exact ((hlookup found).delete _).commit
  | @rename _ pNew _ _ nNew _ _ run =>
    cases run with
    | flags h => exact .refl _
    | missing h found => exact .refl _
    | moved h found free =>
      apply TableMoves.commit
      exact TableMoves.set (hlookup found) (by have hself := hs _ _ (findEntry_some found).1; exact hself)
    | replaced h found target moved count deref =>
      have h₂ := (hlookup found).lookedUp (findEntry_some target).1
      have hself := hs.moves h₂ _ _ moved
      have h₃ := TableMoves.set h₂ (v := FileInode.movedTo _ pNew nNew) hself
      have hself' := hs.moves h₃ _ _ deref
      apply TableMoves.commit
      exact TableMoves.set h₃ hself'
    | deleted h found target moved count =>
      have h₂ := (hlookup found).lookedUp (findEntry_some target).1
      apply TableMoves.commit
      apply TableMoves.delete
      exact TableMoves.set h₂ (by have hself := hs.moves h₂ _ _ moved; exact hself)
  | readdir run => exact .refl _
  | forget rounds => exact (rounds.moves hs).commit
  | openFile => exact .refl _
  | release run =>
    cases run with
    | kept same =>
      rcases same with rfl | rfl
      · exact .refl _
      · exact (TableMoves.refl _).commit
    | removed last found links gone =>
      rcases gone with rfl | rfl
      · exact (TableMoves.refl _).delete _
      · exact ((TableMoves.refl _).delete _).commit

/-- The inodes stay under their numbers. -/
theorem Session.selfNumbered_exec {s : Session H} (hs : SelfNumbered s.inodes) (c : Call) :
    SelfNumbered (s.exec cfg c).inodes :=
  hs.moves ((handle_run cfg c.clock c.request hs).moves hs)

theorem Session.selfNumbered_run {s s' : Session H} {cs : List Call} (hs : SelfNumbered s.inodes)
    (hrun : (sessions cfg).Run s cs s') : SelfNumbered s'.inodes := by
  refine hrun.invariant (I := fun s => SelfNumbered s.inodes) ?_ hs
  rintro s c _ hs rfl
  exact Session.selfNumbered_exec hs c

end VeratyFS
