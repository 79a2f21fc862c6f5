import VeratyFS.Dedup
import VeratyFS.Lib.Runs

/-!
# dedup and the writer threads, statement by statement (`VeratyFS.py`)

The rocksdb backend with one statement a step: the main task runs one call of `dedup` at a time,
every writer runs its own loop of `write_new_blocks`, and the statements interleave.  Statements
that only touch locals go with the statement before them.

* `Shared` — what the threads share.  The hash table holds references, as Python's does: an entry
  that `update_index` fetched is written back as the object it was, not as the entry it became.
* `IndexPc`, `ChunkPc`, `MainPc`, `WriterPc` — the statement that comes next.
* `Threads.exec` — one statement of the main task or of one writer.
-/

set_option autoImplicit false

namespace VeratyFS

open Pylib

structure Shared (H : Type) where
  /-- Every `Block` made so far; a reference is a position in this list. -/
  objects : List (Block H)
  hashTable : Dict H Nat
  readCache : LRU H Bytes
  smallBlockReadCache : LRU H (Option Bytes)
  writeReadCache : Dict H Bytes
  writeBuffer : WriteCache (QueuedWrite H)
  datastore : List (DataStore H)
  mirrorDatastore : List (DataStore H)

variable {H : Type} [DecidableEq H]

/-- `hash_table[k]`; `none` is `KeyError`. -/
def Shared.entry? (s : Shared H) (k : H) : Option (Block H) :=
  (s.hashTable.get? k).bind (s.objects[·]?)

/-- `hash_table[k] = b` for a `Block` that was just made. -/
def Shared.enter (s : Shared H) (k : H) (b : Block H) : Shared H :=
  { s with objects := s.objects ++ [b], hashTable := s.hashTable.set k s.objects.length }

/-! ## `update_index` -/

/-- The statements of `update_index(idx, add=True)`: `h = hash_table[idx]`,
    `h.uses = h.uses + 1`, `hash_table[idx] = h`. -/
inductive IndexPc where
  | fetch
  | count (h : Nat)
  | store (h : Nat)
  | done
  deriving DecidableEq, Repr

/-- One statement of `update_index(idx, add=True)`; `none` is `KeyError`. -/
def IndexPc.exec (idx : H) : IndexPc → Shared H → Option (IndexPc × Shared H)
  | .fetch, s => (s.hashTable.get? idx).map fun h => (.count h, s)
  | .count h, s =>
    some (.store h, { s with objects := s.objects.modify h fun b => { b with uses := b.uses + 1 } })
  | .store h, s => some (.done, { s with hashTable := s.hashTable.set idx h })
  | .done, s => some (.done, s)

/-! ## The main task -/

/-- The statements of one round of the loop of `dedup`: the test, then those of a known hash
    (`fileBlock` to `updateIndex`) or those of a new one.  `wait` is the loop of
    `WriteCache.append` on a full buffer. -/
inductive ChunkPc (H : Type) where
  | test
  | fileBlock
  | readCache
  | updateIndex (pc : IndexPc)
  | writeReadCache (q : QueuedWrite H)
  | append (q : QueuedWrite H)
  | wait (q : QueuedWrite H)
  | placeholder (q : QueuedWrite H)
  deriving DecidableEq, Repr

/-- Outside `dedup`, at the head of its loop with the chunks left, or in a round. -/
inductive MainPc (H : Type) where
  | idle
  | loop (blkList : List (FileBlock H)) (ch : List Bytes)
  | chunk (blkList : List (FileBlock H)) (c : Bytes) (ch : List Bytes) (pc : ChunkPc H)
  deriving DecidableEq, Repr

/-- One statement of a round; a `KeyError` leaves `dedup`. -/
def chunkStmt (P : Packages H) (blkList : List (FileBlock H)) (c : Bytes) (ch : List Bytes) :
    ChunkPc H → Shared H → MainPc H × Shared H
  | .test, s =>
    if s.hashTable.contains (P.xxh3_64 c) then (.chunk blkList c ch .fileBlock, s)
    else
      let q := queueItem P (compressData P) c
      (.chunk (blkList ++ [⟨q.hash, q.compressedData.length, q.data.length⟩]) c ch
        (.writeReadCache q), s)
  | .fileBlock, s =>
    match s.entry? (P.xxh3_64 c) with
    | some b => (.chunk (blkList ++ [⟨P.xxh3_64 c, b.size, b.deflatedSize⟩]) c ch .readCache, s)
    | none => (.idle, s)
  | .readCache, s =>
    (.chunk blkList c ch (.updateIndex .fetch),
      { s with readCache := s.readCache.set (P.xxh3_64 c) c })
  | .updateIndex pc, s =>
    match pc.exec (P.xxh3_64 c) s with
    | none => (.idle, s)
    | some (.done, s) => (.loop blkList ch, s)
    | some (pc, s) => (.chunk blkList c ch (.updateIndex pc), s)
  | .writeReadCache q, s =>
    (.chunk blkList c ch (.append q),
      { s with writeReadCache := s.writeReadCache.set q.hash q.data })
  | .append q, s =>
    if s.writeBuffer.d.length < s.writeBuffer.capacity then
      (.chunk blkList c ch (.placeholder q), { s with writeBuffer := s.writeBuffer.append q })
    else (.chunk blkList c ch (.wait q), s)
  | .wait q, s =>
    if s.writeBuffer.d.length ≥ s.writeBuffer.capacity / 5 then (.chunk blkList c ch (.wait q), s)
    else (.chunk blkList c ch (.placeholder q), { s with writeBuffer := s.writeBuffer.append q })
  | .placeholder q, s => (.loop blkList ch, s.enter q.hash (VeratyFS.placeholder q))

/-! ## A writer -/

/-- The statements of the loop of `write_new_blocks`: `popleft`, `commit_data`,
    `del write_read_cache[q['hash']]`, `hash_table[q['hash']] = b`, `update_index` and the small
    block cache.  `ended` is a thread that a `KeyError` ended. -/
inductive WriterPc (H : Type) where
  | popleft
  | commit (q : QueuedWrite H)
  | uncache (q : QueuedWrite H)
  | install (q : QueuedWrite H)
  | updateIndex (q : QueuedWrite H) (pc : IndexPc)
  | readCache (q : QueuedWrite H)
  | ended
  deriving DecidableEq, Repr

/-- `commit_data` when it succeeds. -/
def Shared.commitData (cfg : Config) (env : CommitEnv) (q : QueuedWrite H) (s : Shared H) :
    Option (QueuedWrite H × Shared H) :=
  match writeData cfg.writeSpread env.primary q q.payload false s.datastore with
  | (.error _, _) => none
  | (.ok q, ds) =>
    if cfg.replicateData then
      match writeData cfg.writeSpread env.mirror q q.payload true s.mirrorDatastore with
      | (.error _, _) => none
      | (.ok q, mds) => some (q, { s with datastore := ds, mirrorDatastore := mds })
    else some (q, { s with datastore := ds })

/-- One statement of a writer.  A commit that fails is no step. -/
def writerStmt (cfg : Config) (env : CommitEnv) : WriterPc H → Shared H → WriterPc H × Shared H
  | .popleft, s =>
    match s.writeBuffer.popleft with
    | none => (.popleft, s)
    | some (q, rest) => (.commit q, { s with writeBuffer := rest })
  | .commit q, s =>
    match s.commitData cfg env q with
    | none => (.commit q, s)
    | some (q, s) => (.uncache q, s)
  | .uncache q, s => (.install q, { s with writeReadCache := s.writeReadCache.erase q.hash })
  | .install q, s => (.updateIndex q .fetch, s.enter q.hash (committedEntry q))
  | .updateIndex q pc, s =>
    match pc.exec q.hash s with
    | none => (.ended, s)
    | some (.done, s) => (.readCache q, s)
    | some (pc, s) => (.updateIndex q pc, s)
  | .readCache q, s =>
    if q.compressedData.length ≤ cfg.smallBlockLimit then
      (.popleft, { s with smallBlockReadCache := s.smallBlockReadCache.set q.hash (some q.data) })
    else (.popleft, s)
  | .ended, s => (.ended, s)

/-! ## The threads together -/

structure Threads (H : Type) where
  shared : Shared H
  main : MainPc H
  writers : List (WriterPc H)
  /-- History: the hashes of the `FileBlock`s that `dedup` returned.  No statement reads it. -/
  returned : List H

/-- A call of `dedup`, the next statement of the call, or the next statement of one writer. -/
inductive Move where
  | dedup (data : Bytes)
  | main
  | writer (i : Nat) (env : CommitEnv)

namespace Threads

def mainStmt (P : Packages H) (s : Threads H) : Threads H :=
  match s.main with
  | .idle => s
  | .loop blkList [] =>
    { s with main := .idle, returned := s.returned ++ blkList.map FileBlock.hash }
  | .loop blkList (c :: ch) => { s with main := .chunk blkList c ch .test }
  | .chunk blkList c ch pc =>
    { s with
      main := (chunkStmt P blkList c ch pc s.shared).1
      shared := (chunkStmt P blkList c ch pc s.shared).2 }

/-- A move of the threads; one that is not enabled leaves them as they are. -/
def exec (cfg : Config) (P : Packages H) : Move → Threads H → Threads H
  | .dedup data, s =>
    match s.main with
    | .idle => { s with main := .loop [] (P.fastcdc data) }
    | _ => s
  | .main, s => s.mainStmt P
  | .writer i env, s =>
    match s.writers[i]? with
    | none => s
    | some pc =>
      { s with
        shared := (writerStmt cfg env pc s.shared).2
        writers := s.writers.set i (writerStmt cfg env pc s.shared).1 }

end Threads

/-- The interleavings. -/
def threads (cfg : Config) (P : Packages H) : System (Threads H) Move :=
  .ofFun (Threads.exec cfg P)

end VeratyFS
