import VeratyFS.PersistedTable
import VeratyFS.SpaceReclaim

/-!
# Threads that a crash can stop

The main task, the collector's thread and the writers, one operation of a store at a time: a crash
leaves what the stores hold in some state of a run.

* `Saving`, `CollectorAt`, `WriterAt` — where a thread is between two operations.
* `Machine`, `MachineMove`, `Machine.exec` — the threads over the file system; `crash` stops them, and
  the next mount reads the databases.
* `flush_alone`, `writer_alone`, `pass_alone` — a thread that nothing interrupts does what `flush`,
  `writeNewBlock` and `garbageCollector` do.
-/

set_option autoImplicit false

namespace VeratyFS

open Pylib

variable {H : Type} [DecidableEq H] {cfg : Config} {P : Packages H}

/-! ## Positions -/

/-- A commit of the hash table: its batch goes to the database, then to the mirror. -/
inductive Saving (H : Type) where
  /-- `entered` is history: the hashes whose block a writer had entered when the batch was built. -/
  | database (batch : Dict H (Block H)) (entered : List H)
  | mirror (batch : Dict H (Block H))

inductive CollectorAt (H : Type) where
  | idle
  | collecting
  | committing (c : Saving H)

/-- The next operation of a writer: `popleft`, the put of the bytes, the put of the replica, the
    assignment of the entry. -/
inductive WriterAt (H : Type) where
  | popleft
  | commit (q : QueuedWrite H)
  | replicate (q : QueuedWrite H)
  | install (q : QueuedWrite H)

/-- The block that a writer works on. -/
def WriterAt.item? {H : Type} : WriterAt H → Option (QueuedWrite H)
  | .popleft => none
  | .commit q => some q
  | .replicate q => some q
  | .install q => some q

structure Machine (H : Type) where
  fs : Fs H
  /-- `none`: the main task waits for a call. -/
  main : Option (Saving H)
  collector : CollectorAt H
  writers : List (WriterAt H)
  /-- History: the hashes whose block a writer entered into the table, and those whose record was
      written with such an entry.  No operation reads them. -/
  entered : List H
  recorded : List H

/-- One operation of a thread, or a crash and the next mount.  `call` are the operations that do not
    commit the table. -/
inductive MachineMove (H : Type) where
  | call (e : FsStep H)
  | flush
  | main
  | collector (now : Time)
  | writer (i : Nat) (env : CommitEnv)
  | crash (uid gid : Nat) (now : Time)

/-! ## A commit -/

namespace HashTable

variable (t : HashTable H)

/-- The batch is built. -/
def takePending {H : Type} (t : HashTable H) : HashTable H := { t with pending := Dict.empty }

/-- `self.ht.write(batch)`. -/
def writeBatch (batch : Dict H (Block H)) : HashTable H := { t with ht := t.ht.update batch }

/-- `self.mirror.write(batch)`. -/
def mirrorBatch (batch : Dict H (Block H)) : HashTable H :=
  { t with mirror := if t.replication then t.mirror.update batch else t.mirror }

theorem commit_eq : t.commit = (t.takePending.writeBatch t.pending).mirrorBatch t.pending := rfl

end HashTable

namespace Machine

def onGlobals {H : Type} (f : Globals H → Globals H) (s : Machine H) : Machine H :=
  { s with fs := { s.fs with globals := f s.fs.globals } }

def onTable {H : Type} (f : HashTable H → HashTable H) : Machine H → Machine H :=
  onGlobals fun g => { g with hashTable := f g.hashTable }

/-- The first operation of a commit is next. -/
def toSave {H : Type} (s : Machine H) : Saving H :=
  .database s.fs.globals.hashTable.pending s.entered

/-- The records of a batch: those that a writer's entry was the source of. -/
def recordedBy (s : Machine H) (batch : Dict H (Block H)) (entered : List H) : List H :=
  s.recorded.filter (fun h => !batch.contains h) ++ entered.filter fun h => batch.contains h

/-- The next operation of a commit. -/
def save (s : Machine H) : Saving H → Machine H
  | .database batch entered =>
    { s.onTable fun t => t.writeBatch batch with recorded := s.recordedBy batch entered }
  | .mirror batch => s.onTable fun t => t.mirrorBatch batch

end Machine

/-- Where a commit is after its next operation. -/
def Saving.next {H : Type} : Saving H → Option (Saving H)
  | .database batch _ => some (.mirror batch)
  | .mirror _ => none

/-! ## The collector's thread -/

namespace Machine

def collectorCommits {H : Type} (s : Machine H) : Machine H :=
  { s.onTable HashTable.takePending with collector := .committing s.toSave }

/-- The next operation of a pass: a round for one hash, or one of the commit at its end. -/
def collectorStep (cfg : Config) (now : Time) (s : Machine H) : Machine H :=
  match s.collector with
  | .idle => { s with collector := .collecting }
  | .collecting =>
    match s.fs.globals.removeUses with
    | [] => s.collectorCommits
    | remove :: rest =>
      match collectHash cfg now remove { s.fs.globals with removeUses := rest } with
      | (.ok _, g) => s.onGlobals fun _ => g
      | (.error e, g) =>
        if e = .indexError then (s.onGlobals fun _ => g).collectorCommits
        else { s.onGlobals fun _ => g with collector := .idle }
  | .committing c =>
    { s.save c with
      collector := match c.next with
        | some c => .committing c
        | none => .idle }

end Machine

/-! ## A writer -/

/-- The next operation of a writer.  A block whose commit raises is logged and gone. -/
def WriterAt.exec (cfg : Config) (env : CommitEnv) :
    WriterAt H → Globals H → WriterAt H × Globals H
  | .popleft, g =>
    match g.writeBuffer.popleft with
    | none => (.popleft, g)
    | some (q, rest) => (.commit q, { g with writeBuffer := rest })
  | .commit q, g =>
    if isSmallBlock cfg q then
      match Globals.onSmallBlocks (writeSmallBlock cfg q.hash q.payload) g with
      | (.ok _, g) => (.install { q with chunk := -1, block := -1 }, g)
      | (.error _, g) => (.popleft, g)
    else
      match cfg.backend with
      | .rocksdb =>
        match Globals.onDatastore (writeData cfg.writeSpread env.primary q q.payload false) g with
        | (.ok q, g) => (if cfg.replicateData then .replicate q else .install q, g)
        | (.error _, g) => (.popleft, g)
      | .mmap | .unset => (.popleft, g)
  | .replicate q, g =>
    match Globals.onMirror (writeData cfg.writeSpread env.mirror q q.payload true) g with
    | (.ok q, g) => (.install q, g)
    | (.error _, g) => (.popleft, g)
  | .install q, g => (.popleft, (installBlock cfg q g).2)

/-- The hash that a writer's next operation enters. -/
def WriterAt.enters {H : Type} : WriterAt H → List H
  | .install q => [q.hash]
  | _ => []

/-! ## A mount -/

/-- The module state over the stores that a crash left: `HashTable.init_from_disk`, and everything
    else new. -/
def Globals.mounted (g : Globals H) : Globals H :=
  { g with
    hashTable := g.hashTable.initFromDisk
    readCache := .new g.readCache.maxlen g.readCache.maxlen_pos
    smallBlockReadCache := .new g.smallBlockReadCache.maxlen g.smallBlockReadCache.maxlen_pos
    writeReadCache := Dict.empty
    writeBuffer := { g.writeBuffer with d := [] }
    freeBlocks := g.freeBlocks.map fun _ => Dict.empty
    fragmentation := ⟨0, 0⟩
    removeUses := [] }

/-- `FSMeta()`, and the root of an empty table. -/
def FSMeta.opened {H : Type} (uid gid : Nat) (now : Time) (t : FSMeta H) : FSMeta H :=
  if t.initFromDisk.d.size = 0 then initFileSystem uid gid now t.initFromDisk else t.initFromDisk

/-! ## Moves -/

namespace Machine

def mounted (uid gid : Nat) (now : Time) (s : Machine H) : Machine H where
  fs := ⟨s.fs.inodes.opened uid gid now, s.fs.globals.mounted⟩
  main := none
  collector := .idle
  writers := s.writers.map fun _ => .popleft
  entered := s.recorded
  recorded := s.recorded

/-- One operation; a thread that is elsewhere does nothing. -/
def exec (cfg : Config) (P : Packages H) : MachineMove H → Machine H → Machine H
  | .call e, s =>
    match s.main with
    | none => if e.isCall then { s with fs := e.exec cfg P s.fs } else s
    | some _ => s
  | .flush, s =>
    match s.main with
    | none =>
      let s := { s with fs := (commitInodes s.fs).2 }
      { s.onTable HashTable.takePending with main := some s.toSave }
    | some _ => s
  | .main, s =>
    match s.main with
    | none => s
    | some c => { s.save c with main := c.next }
  | .collector now, s => s.collectorStep cfg now
  | .writer i env, s =>
    match s.writers[i]? with
    | none => s
    | some w =>
      { s.onGlobals fun g => (w.exec cfg env g).2 with
        writers := s.writers.set i (w.exec cfg env s.fs.globals).1
        entered := w.enters ++ s.entered }
  | .crash uid gid now, s => s.mounted uid gid now

end Machine

/-- The interleavings, crashes among them. -/
def machine (cfg : Config) (P : Packages H) : System (Machine H) (MachineMove H) :=
  .ofFun (Machine.exec cfg P)

/-! ## A thread alone -/

/-- A `flush` that nothing interrupts. -/
theorem flush_alone {s : Machine H} (hmain : s.main = none) :
    (System.after (Machine.exec cfg P) s [.flush, .main, .main]).fs = (flush s.fs).2 := by
  simp only [System.after, Machine.exec, hmain]
  rfl

/-- The operations of one writer, one after the other. -/
def writerRun (cfg : Config) (env : CommitEnv) :
    Nat → WriterAt H → Globals H → WriterAt H × Globals H
  | 0, w, g => (w, g)
  | n + 1, w, g => writerRun cfg env n (w.exec cfg env g).1 (w.exec cfg env g).2

section

variable {env : CommitEnv} {g : Globals H} {q : QueuedWrite H}

theorem exec_popleft {rest : WriteCache (QueuedWrite H)}
    (hp : g.writeBuffer.popleft = some (q, rest)) :
    WriterAt.popleft.exec cfg env g = (.commit q, { g with writeBuffer := rest }) := by
  simp only [WriterAt.exec, hp]

/-- From the put of the bytes on, a writer commits the block and installs it, or it is gone. -/
theorem writerRun_commit (cfg : Config) (env : CommitEnv) (q : QueuedWrite H) (g : Globals H) :
    ∃ n, (∃ e g', commitBlock cfg env q g = (.error e, g') ∧
        writerRun cfg env n (.commit q) g = (.popleft, g')) ∨
      ∃ q' g', commitBlock cfg env q g = (.ok q', g') ∧
        writerRun cfg env n (.commit q) g = (.popleft, installed cfg q' g') := by
  have hinstall : ∀ (q' : QueuedWrite H) (g' : Globals H), writerRun cfg env 1 (.install q') g' =
      (.popleft, installed cfg q' g') := fun q' g' => by
    simp only [writerRun, WriterAt.exec, installBlock_run]
  by_cases hs : isSmallBlock cfg q
  · -- small blocks: one put
    cases hw : Globals.onSmallBlocks (writeSmallBlock cfg q.hash q.payload) g with
    | mk r g' =>
      cases r with
      | error e =>
        refine ⟨1, .inl ⟨e, g', ?_, ?_⟩⟩
        · unfold commitBlock
          rw [if_pos hs, Py.run_bind_error hw]
        · simp only [writerRun, WriterAt.exec, if_pos hs, hw]
      | ok n =>
        refine ⟨2, .inr ⟨{ q with chunk := -1, block := -1 }, g', ?_, ?_⟩⟩
        · unfold commitBlock
          rw [if_pos hs, Py.run_bind_ok hw]
          rfl
        · rw [← hinstall]
          simp only [writerRun, WriterAt.exec, if_pos hs, hw]
  · have hcommit : commitBlock cfg env q =
        Py.attempt (commitData cfg env q) fun _ => Py.raise (.fuseError .ENOSPC) := by
      unfold commitBlock
      rw [if_neg hs]
    cases hb : cfg.backend with
    | mmap =>
      refine ⟨1, .inl ⟨.fuseError .ENOSPC, g, ?_, ?_⟩⟩
      · rw [hcommit]
        unfold commitData
        rw [hb]
        rfl
      · simp only [writerRun, WriterAt.exec, if_neg hs, hb]
    | unset =>
      refine ⟨1, .inl ⟨.fuseError .ENOSPC, g, ?_, ?_⟩⟩
      · rw [hcommit]
        unfold commitData
        rw [hb]
        rfl
      · simp only [writerRun, WriterAt.exec, if_neg hs, hb]
    | rocksdb =>
      have hdata : commitData cfg env q = rocksdbCommit cfg env q := by
        unfold commitData
        rw [hb]
      rw [hcommit, hdata]
      unfold rocksdbCommit
      cases hw : Globals.onDatastore (writeData cfg.writeSpread env.primary q q.payload false) g with
      | mk r g₁ =>
        cases r with
        | error e =>
          refine ⟨1, .inl ⟨.fuseError .ENOSPC, g₁, ?_, ?_⟩⟩
          · exact Py.run_attempt_error (Py.run_bind_error hw)
          · simp only [writerRun, WriterAt.exec, if_neg hs, hb, hw]
        | ok q₁ =>
          by_cases hr : cfg.replicateData = true
          · -- the replica is another put
            cases hm : Globals.onMirror (writeData cfg.writeSpread env.mirror q₁ q₁.payload true) g₁ with
            | mk r' g₂ =>
              cases r' with
              | error e =>
                refine ⟨2, .inl ⟨.fuseError .ENOSPC, g₂, ?_, ?_⟩⟩
                · exact Py.run_attempt_error ((Py.run_bind_ok hw).trans
                    ((congrFun (if_pos hr) g₁).trans hm))
                · simp only [writerRun, WriterAt.exec, if_neg hs, hb, hw, if_pos hr, hm]
              | ok q₂ =>
                refine ⟨3, .inr ⟨q₂, g₂, ?_, ?_⟩⟩
                · exact Py.run_attempt_ok ((Py.run_bind_ok hw).trans
                    ((congrFun (if_pos hr) g₁).trans hm))
                · rw [← hinstall]
                  simp only [writerRun, WriterAt.exec, if_neg hs, hb, hw, if_pos hr, hm]
          · refine ⟨2, .inr ⟨q₁, g₁, ?_, ?_⟩⟩
            · exact Py.run_attempt_ok ((Py.run_bind_ok hw).trans (congrFun (if_neg hr) g₁))
            · rw [← hinstall]
              simp only [writerRun, WriterAt.exec, if_neg hs, hb, hw, if_neg hr]

/-- **A writer alone** does what `writeNewBlock` does. -/
theorem writerRun_alone (cfg : Config) (env : CommitEnv) (g : Globals H) :
    ∃ n, writerRun cfg env n .popleft g = (.popleft, (writeNewBlock cfg env g).2) := by
  cases hp : g.writeBuffer.popleft with
  | none => exact ⟨0, by rw [writeNewBlock_idle hp]; rfl⟩
  | some p =>
    obtain ⟨q, rest⟩ := p
    obtain ⟨n, hn⟩ := writerRun_commit cfg env q { g with writeBuffer := rest }
    refine ⟨n + 1, ?_⟩
    rw [writerRun, exec_popleft hp]
    rcases hn with ⟨e, g', hc, hrun⟩ | ⟨q', g', hc, hrun⟩
    · rw [writeNewBlock_failed hp hc]
      exact hrun
    · rw [writeNewBlock_committed hp hc]
      exact hrun

end

theorem writer_moves {i : Nat} {env : CommitEnv} (n : Nat) {s : Machine H} {w : WriterAt H}
    (hi : s.writers[i]? = some w) :
    (System.after (Machine.exec cfg P) s (List.replicate n (.writer i env))).fs.globals =
      (writerRun cfg env n w s.fs.globals).2 := by
  induction n generalizing s w with
  | zero => rfl
  | succ n ih =>
    have hlt := (List.getElem?_eq_some_iff.mp hi).1
    have hnext : ((Machine.exec cfg P (.writer i env) s).writers)[i]? =
        some (w.exec cfg env s.fs.globals).1 := by
      simp only [Machine.exec, hi, List.getElem?_set_self hlt]
    have hstate : (Machine.exec cfg P (.writer i env) s).fs.globals =
        (w.exec cfg env s.fs.globals).2 := by
      simp only [Machine.exec, hi]
      rfl
    rw [List.replicate_succ, System.after, ih hnext, hstate]
    rfl

theorem writer_alone {i : Nat} {env : CommitEnv} {s : Machine H}
    (hi : s.writers[i]? = some .popleft) :
    ∃ n, (System.after (Machine.exec cfg P) s (List.replicate n (.writer i env))).fs.globals =
      (writeNewBlock cfg env s.fs.globals).2 := by
  obtain ⟨n, hn⟩ := writerRun_alone cfg env s.fs.globals
  refine ⟨n, ?_⟩
  rw [writer_moves n hi, hn]

/-- The state in which a pass ends after its loop. -/
def afterLoop : Except PyError Unit × Globals H → Globals H
  | (.ok _, g) => { g with hashTable := g.hashTable.commit }
  | (.error e, g) => if e = .indexError then { g with hashTable := g.hashTable.commit } else g

theorem garbageCollector_state (cfg : Config) (clock : Nat → Time) (g : Globals H) :
    (garbageCollector cfg clock g).2 =
      afterLoop (collectLoop cfg clock g.removeUses.length g) := by
  unfold garbageCollector
  show ((Py.attempt (collectLoop cfg clock g.removeUses.length)
    (fun e => if e = .indexError then return () else Py.raise e) >>= _) g).2 = _
  cases hr : collectLoop cfg clock g.removeUses.length g with
  | mk r g₁ =>
    cases r with
    | ok _ =>
      rw [Py.run_bind_ok (Py.run_attempt_ok hr)]
      rfl
    | error e =>
      have htry := Py.run_attempt_error
        (f := fun e => if e = PyError.indexError then return () else Py.raise e) hr
      unfold afterLoop
      by_cases he : e = .indexError
      · rw [if_pos he] at htry
        rw [Py.run_bind_ok htry]
        exact (if_pos he).symm
      · rw [if_neg he] at htry
        rw [Py.run_bind_error htry]
        exact (if_neg he).symm

/-- The commit at the end of a pass. -/
theorem collectorCommits_alone (s : Machine H) :
    (System.after (Machine.exec cfg P) s.collectorCommits [.collector 0, .collector 0]).fs.globals =
      { s.fs.globals with hashTable := s.fs.globals.hashTable.commit } := rfl

theorem pass_rounds (cfg : Config) (P : Packages H) (clock : Nat → Time) (n : Nat) {s : Machine H} (hs : s.collector = .collecting)
    (hn : s.fs.globals.removeUses.length = n) :
    ∃ nows : List Time,
      (System.after (Machine.exec cfg P) s (nows.map MachineMove.collector)).fs.globals =
        afterLoop (collectLoop cfg clock n s.fs.globals) := by
  induction n generalizing s with
  | zero =>
    have hq : s.fs.globals.removeUses = [] := List.length_eq_zero_iff.mp hn
    refine ⟨[0, 0, 0], ?_⟩
    rw [collectLoop_empty cfg clock 0 hq]
    have hstep : Machine.exec cfg P (.collector 0) s = s.collectorCommits := by
      simp only [Machine.exec, Machine.collectorStep, hs, hq]
    rw [List.map_cons, System.after, hstep]
    exact collectorCommits_alone s
  | succ n ih =>
    cases hq : s.fs.globals.removeUses with
    | nil =>
      rw [hq] at hn
      cases hn
    | cons remove rest =>
      have hkept : (collectHash cfg (clock n) remove
          { s.fs.globals with removeUses := rest }).2.removeUses = rest :=
        (collectHash_inPlace cfg (clock n) remove _).removeUses
      rw [collectLoop_next cfg clock n hq]
      cases hr : collectHash cfg (clock n) remove { s.fs.globals with removeUses := rest } with
      | mk r g =>
        rw [hr] at hkept
        cases r with
        | ok _ =>
          have hstep : Machine.exec cfg P (.collector (clock n)) s = s.onGlobals fun _ => g := by
            simp only [Machine.exec, Machine.collectorStep, hs, hq, hr]
          have hlen : rest.length = n := by
            rw [hq] at hn
            exact Nat.succ.inj hn
          obtain ⟨nows, hrun⟩ := ih (s := s.onGlobals fun _ => g) hs (by rw [← hlen, ← hkept]; rfl)
          refine ⟨clock n :: nows, ?_⟩
          rw [List.map_cons, System.after, hstep, hrun, Py.run_bind_ok hr]
          rfl
        | error e =>
          rw [Py.run_bind_error hr]
          unfold afterLoop
          by_cases he : e = .indexError
          · have hstep : Machine.exec cfg P (.collector (clock n)) s =
                (s.onGlobals fun _ => g).collectorCommits := by
              simp only [Machine.exec, Machine.collectorStep, hs, hq, hr, if_pos he]
            refine ⟨[clock n, 0, 0], ?_⟩
            rw [List.map_cons, System.after, hstep]
            exact (collectorCommits_alone _).trans (if_pos he).symm
          · have hstep : Machine.exec cfg P (.collector (clock n)) s =
                { s.onGlobals fun _ => g with collector := .idle } := by
              simp only [Machine.exec, Machine.collectorStep, hs, hq, hr, if_neg he]
            refine ⟨[clock n], ?_⟩
            rw [List.map_cons, System.after, hstep]
            exact (if_neg he).symm

/-- **A pass alone** does what `garbageCollector` does. -/
theorem pass_alone (clock : Nat → Time) {s : Machine H} (hs : s.collector = .idle) :
    ∃ nows : List Time,
      (System.after (Machine.exec cfg P) s (nows.map MachineMove.collector)).fs.globals =
        (garbageCollector cfg clock s.fs.globals).2 := by
  have hstep : Machine.exec cfg P (.collector 0) s = { s with collector := .collecting } := by
    simp only [Machine.exec, Machine.collectorStep, hs]
  obtain ⟨nows, hrun⟩ := pass_rounds cfg P clock _
    (s := { s with collector := .collecting }) rfl rfl
  refine ⟨0 :: nows, ?_⟩
  rw [List.map_cons, System.after, hstep, hrun, garbageCollector_state]

end VeratyFS
