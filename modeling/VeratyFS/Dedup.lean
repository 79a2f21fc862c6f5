import VeratyFS.Cache
import VeratyFS.Storage

/-!
# The dedup pipeline (`VeratyFS.py`)

`Globals` is the module state shared by the tasks and threads.

* `updateIndexAdd`, `updateIndexRemove` — `update_index` with `add=True` and `add=False`.
* `dedup` — cut a buffer into chunks and queue the ones whose hash is new.
* `writeNewBlock` — one iteration of the loop of `write_new_blocks`: `commitBlock` stores the
  bytes, `installBlock` puts the final entry into the hash table.
* `seekInCache`, `fetchBlock`, `getFileData` — the reader.

Statistics messages and log lines are left out.
-/

set_option autoImplicit false

namespace VeratyFS

open Pylib

structure Fragmentation where
  freeSize : Int
  freeCount : Int
  deriving DecidableEq, Repr

structure Globals (H : Type) where
  hashTable : HashTable H
  readCache : LRU H Bytes
  smallBlockReadCache : LRU H (Option Bytes)
  writeReadCache : Dict H Bytes
  writeBuffer : WriteCache (QueuedWrite H)
  datastore : List (DataStore H)
  mirrorDatastore : List (DataStore H)
  smallBlocks : Dict H Bytes
  freeBlocks : List IOBTree
  fragmentation : Fragmentation
  /-- `GC.remove_uses`. -/
  removeUses : List H
  /-- History: the hashes whose deletion branch ran in the collector, oldest first.  No function
      reads it. -/
  reclaimed : List H

/-- The module state over given stores when nothing was written yet. -/
def Globals.fresh {H : Type} (cacheSize : Nat) (h : 0 < cacheSize)
    (datastore mirrorDatastore : List (DataStore H)) : Globals H where
  hashTable := .new true
  readCache := .new cacheSize h
  smallBlockReadCache := .new cacheSize h
  writeReadCache := Dict.empty
  writeBuffer := ⟨[], 30000⟩
  datastore := datastore
  mirrorDatastore := mirrorDatastore
  smallBlocks := Dict.empty
  freeBlocks := (datastore ++ mirrorDatastore).map fun _ => Dict.empty
  fragmentation := ⟨0, 0⟩
  removeUses := []
  reclaimed := []

/-- The computations of this module. -/
abbrev Task (H α : Type) := Py PyError (Globals H) α

variable {H : Type} [DecidableEq H]

namespace Globals

def onDatastore {H α : Type} (m : Py PyError (List (DataStore H)) α) : Task H α :=
  Py.zoom datastore (fun ds g => { g with datastore := ds }) m

def onMirror {H α : Type} (m : Py PyError (List (DataStore H)) α) : Task H α :=
  Py.zoom mirrorDatastore (fun ds g => { g with mirrorDatastore := ds }) m

def onSmallBlocks {H α : Type} (m : Py PyError (Dict H Bytes) α) : Task H α :=
  Py.zoom smallBlocks (fun smbs g => { g with smallBlocks := smbs }) m

def onFreeBlocks {H α : Type} (m : Py PyError (List IOBTree) α) : Task H α :=
  Py.zoom freeBlocks (fun fb g => { g with freeBlocks := fb }) m

end Globals

/-! ## Reference counting -/

/-- `update_index(idx, add=True)`. -/
def updateIndexAdd (idx : H) : Task H Unit := do
  let g ← Py.read
  let h ← Py.ofOption .keyError (g.hashTable.getItem? idx)
  Py.modify fun g => { g with hashTable := g.hashTable.setItem idx { h with uses := h.uses + 1 } }

/-- `chunk in free_blocks`: the list holds trees, and no integer equals a tree. -/
def chunkInFreeBlocks (_chunk : Int) (_freeBlocks : List IOBTree) : Bool := false

/-- The removal is queued and the entry flagged. -/
def flagDeleted (now : Time) (idx : H) (h : Block H) (g : Globals H) : Globals H :=
  { g with
    removeUses := g.removeUses ++ [idx]
    hashTable := g.hashTable.setItem idx { h with DELETED := true, DELETION_TIME := some now } }

/-- A flagged block leaves one of the read caches. -/
def uncache (cfg : Config) (idx : H) (h : Block H) (g : Globals H) : Globals H :=
  if h.size ≥ cfg.smallBlockLimit then
    { g with smallBlockReadCache := g.smallBlockReadCache.erase idx }
  else
    { g with readCache := g.readCache.erase idx }

/-- `update_index(idx, add=False)`. -/
def updateIndexRemove (cfg : Config) (now : Time) (idx : H) : Task H Unit :=
  Py.attempt
    (do
      let g ← Py.read
      if g.hashTable.contains idx then
        let h ← Py.ofOption .keyError (g.hashTable.getItem? idx)
        -- the source subtracts the counter from itself, so this branch is always taken
        if h.uses - h.uses ≤ 0 then
          Globals.onFreeBlocks
            (if chunkInFreeBlocks h.chunk g.freeBlocks then appendExtent h else insertExtent h)
          Py.modify (flagDeleted now idx h)
          Py.modify (uncache cfg idx h)
        else
          Py.modify fun g => { g with
            hashTable := g.hashTable.setItem idx { h with uses := h.uses - 1 } }
      else
        return ())
    (fun _ => Py.raise .ioError)

/-! ## Dedup -/

/-- The chunk is known: another reference to its entry. -/
def dedupKnown (c : Bytes) (h : H) (b : Block H) : Task H (FileBlock H) := do
  Py.modify fun g => { g with readCache := g.readCache.set h c }
  updateIndexAdd h
  return ⟨h, b.size, b.deflatedSize⟩

/-- The placeholder entry of a queued block, created "in advance, so we can identify duplicated
    data before running write_new_data". -/
def placeholder {H : Type} (q : QueuedWrite H) : Block H :=
  { hash := q.hash, size := q.compressedData.length, deflatedSize := q.data.length,
    compressed := q.compressed }

/-- The chunk is new: cache its bytes, queue them, create the placeholder entry. -/
def dedupNew (q : QueuedWrite H) : Task H (FileBlock H) := do
  Py.modify fun g => { g with
    writeReadCache := g.writeReadCache.set q.hash q.data
    writeBuffer := g.writeBuffer.append q
    hashTable := g.hashTable.setItem q.hash (placeholder q) }
  return ⟨q.hash, q.compressedData.length, q.data.length⟩

/-- The queue item of a chunk. -/
def queueItem (P : Packages H) (compress : Bytes → Bool × Bytes) (c : Bytes) : QueuedWrite H :=
  { hash := P.xxh3_64 c, data := c, compressed := (compress c).1, compressedData := (compress c).2 }

def dedupChunk (P : Packages H) (compress : Bytes → Bool × Bytes) (c : Bytes) :
    Task H (FileBlock H) := do
  let g ← Py.read
  match g.hashTable.d.get? (P.xxh3_64 c) with
  | some b => dedupKnown c (P.xxh3_64 c) b
  | none => dedupNew (queueItem P compress c)

def dedupChunks (P : Packages H) (compress : Bytes → Bool × Bytes) :
    List Bytes → Task H (List (FileBlock H))
  | [] => return []
  | c :: rest => do
    let b ← dedupChunk P compress c
    let bs ← dedupChunks P compress rest
    return b :: bs

/-- The pieces `dedup` cuts its data into: one uncut and uncompressed block for small data on a
    backend other than rocksdb, else the chunks. -/
def dedupPieces {H : Type} (cfg : Config) (P : Packages H) (data : Bytes) :
    List Bytes × (Bytes → Bool × Bytes) :=
  if cfg.backend ≠ .rocksdb ∧ data.length ≤ cfg.minBlkSize then ([data], fun c => (false, c))
  else (P.fastcdc data, compressData P)

/-- `dedup`. -/
def dedup (cfg : Config) (P : Packages H) (data : Bytes) : Task H (List (FileBlock H)) :=
  dedupChunks P (dedupPieces cfg P data).2 (dedupPieces cfg P data).1

/-! ## The writer -/

/-- What the environment supplies to a commit: one choice of store for the data, one for the
    replica. -/
structure CommitEnv where
  primary : PickEnv
  mirror : PickEnv

/-- `rocksdb_commit`. -/
def rocksdbCommit (cfg : Config) (env : CommitEnv) (q : QueuedWrite H) : Task H (QueuedWrite H) := do
  let q' ← Globals.onDatastore (writeData cfg.writeSpread env.primary q q.payload false)
  if cfg.replicateData then
    Globals.onMirror (writeData cfg.writeSpread env.mirror q' q'.payload true)
  else
    return q'

/-- `commit_data`.  `mm_commit` is a coroutine function that nobody awaits: unpacking what the
    call returns is a `TypeError`. -/
def commitData (cfg : Config) (env : CommitEnv) (q : QueuedWrite H) : Task H (QueuedWrite H) :=
  match cfg.backend with
  | .rocksdb => rocksdbCommit cfg env q
  | .mmap | .unset => Py.raise .typeError

/-- A block for the small-block database. -/
def isSmallBlock {H : Type} (cfg : Config) (q : QueuedWrite H) : Prop :=
  cfg.backend ≠ .rocksdb ∧ q.compressedData.length ≤ cfg.smallBlockLimit

instance {H : Type} (cfg : Config) (q : QueuedWrite H) : Decidable (isSmallBlock cfg q) :=
  inferInstanceAs (Decidable (_ ∧ _))

/-- The store half of an iteration: the bytes reach the small-block database or a datastore. -/
def commitBlock (cfg : Config) (env : CommitEnv) (q : QueuedWrite H) : Task H (QueuedWrite H) :=
  if isSmallBlock cfg q then do
    let _written ← Globals.onSmallBlocks (writeSmallBlock cfg q.hash q.payload)
    return { q with chunk := -1, block := -1 }
  else
    Py.attempt (commitData cfg env q) fun _ => Py.raise (.fuseError .ENOSPC)

/-- The entry of a committed block. -/
def committedEntry {H : Type} (q : QueuedWrite H) : Block H :=
  { hash := q.hash, chunk := q.chunk, offset := q.block, size := q.compressedData.length,
    deflatedSize := q.data.length, compressed := q.compressed }

/-- The memory half of an iteration. -/
def installBlock (cfg : Config) (q : QueuedWrite H) : Task H Unit := do
  Py.modify fun g => { g with
    writeReadCache := g.writeReadCache.erase q.hash
    hashTable := g.hashTable.setItem q.hash (committedEntry q) }
  updateIndexAdd q.hash
  if q.compressedData.length ≤ cfg.smallBlockLimit then
    Py.modify fun g => { g with
      smallBlockReadCache := g.smallBlockReadCache.set q.hash (some q.data) }
  else
    return ()

/-- One iteration of the loop of `write_new_blocks`.  An empty queue is an idle round; a block
    whose commit raises is logged and gone; a `KeyError` ends the thread. -/
def writeNewBlock (cfg : Config) (env : CommitEnv) : Task H Unit := do
  let g ← Py.read
  match g.writeBuffer.popleft with
  | none => return ()
  | some (q, rest) =>
    Py.modify fun g => { g with writeBuffer := rest }
    Py.attempt
      (do
        let q' ← commitBlock cfg env q
        installBlock cfg q')
      (fun e => if e = .keyError then Py.raise (.fuseError .ENOSPC) else Py.ret ())

/-- The commit of the block at the head of the queue succeeds. -/
def commitsHead (cfg : Config) (env : CommitEnv) (g : Globals H) : Bool :=
  match g.writeBuffer.popleft with
  | none => true
  | some (q, rest) =>
    match (commitBlock cfg env q { g with writeBuffer := rest }).1 with
    | .ok _ => true
    | .error _ => false

/-! ## The reader -/

/-- `seek_in_cache`. -/
def seekInCache (g : Globals H) (hash : H) : Option Bytes :=
  match g.readCache.get? hash with
  | some r => some r
  | none =>
    match g.smallBlockReadCache.get? hash with
    | some r => r
    | none => g.writeReadCache.get? hash

/-- `read_data`. -/
def readData (cfg : Config) (P : Packages H) (hash : H) (offset : Int) (ds : DataStore H)
    (readSize : Nat) (hashTable : HashTable H) : Option Bytes :=
  match cfg.backend with
  | .rocksdb => some (rocksdbRead P hash ds hashTable)
  | .mmap | .unset => mmRead P hash offset ds readSize hashTable

/-- The cached bytes of a block; an entry of the wrong length is dropped. -/
def cachedBlock (b : FileBlock H) : Task H (Option Bytes) := do
  let g ← Py.read
  match seekInCache g b.hash with
  | some d =>
    if d.length ≠ b.rawSize then
      Py.modify fun g => { g with readCache := g.readCache.erase b.hash }
      return none
    else
      return some d
  | none => return none

/-- The small-block branch of `get_file_data`; every exception becomes an `IOError`. -/
def readSmall (cfg : Config) (P : Packages H) (b : FileBlock H) : Task H (Option Bytes) :=
  Py.attempt
    (do
      let d ← Globals.onSmallBlocks (readSmallBlock cfg b.hash)
      let g ← Py.read
      let e ← Py.ofOption .keyError (g.hashTable.getItem? b.hash)
      let d ←
        if e.compressed then do
          -- decompressing `None` is a `TypeError`
          let d ← Py.ofOption .typeError d
          pure (some (decompressData P d))
        else pure d
      Py.modify fun g => { g with smallBlockReadCache := g.smallBlockReadCache.set b.hash d }
      return d)
    (fun _ => Py.raise .ioError)

/-- `read_data(hash_table[b.hash].hash, …, datastore[hash_table[b.hash].chunk], …)`. -/
def readStored (cfg : Config) (P : Packages H) (b : FileBlock H) : Task H (Option Bytes) := do
  let g ← Py.read
  let e ← Py.ofOption .keyError (g.hashTable.getItem? b.hash)
  let ds ← Py.ofOption .indexError (getAt? g.datastore e.chunk)
  return readData cfg P e.hash e.offset ds b.size g.hashTable

/-- What one round of the loop of `get_file_data` finds; `leave` is its `break`. -/
inductive Fetched where
  | bytes (d : Option Bytes)
  | leave
  deriving DecidableEq, Repr

/-- The location of a block that no cache holds. -/
def fetchUncached (cfg : Config) (P : Packages H) (b : FileBlock H) : Task H Fetched := do
  let g ← Py.read
  let e ← Py.ofOption .keyError (g.hashTable.getItem? b.hash)
  let d ← if e.chunk = -1 then readSmall cfg P b else pure none
  match d with
  | some d => return .bytes (some d)
  | none =>
    Py.attempt
      (do
        let d ← readStored cfg P b
        return .bytes d)
      (fun err =>
        if err = .keyError then do
          let g ← Py.read
          match seekInCache g b.hash with
          | some _ => return .leave
          | none =>
            let d ← readStored cfg P b
            return .bytes d
        else Py.raise err)

/-- `fetchUncached` where the small blocks have nothing. -/
def fetchStored (cfg : Config) (P : Packages H) (b : FileBlock H) : Task H Fetched :=
  Py.attempt
    (do
      let d ← readStored cfg P b
      return .bytes d)
    (fun err =>
      if err = .keyError then do
        let g ← Py.read
        match seekInCache g b.hash with
        | some _ => return .leave
        | none =>
          let d ← readStored cfg P b
          return .bytes d
      else Py.raise err)

def fetchBlock (cfg : Config) (P : Packages H) (b : FileBlock H) : Task H Fetched := do
  match ← cachedBlock b with
  | some d => return .bytes (some d)
  | none => fetchUncached cfg P b

/-- The loop of `get_file_data`: a block counts only if its bytes have its hash. -/
def readBlocks (cfg : Config) (P : Packages H) : List (FileBlock H) → Bytes → Task H Bytes
  | [], data => return data
  | b :: rest, data => do
    match ← fetchBlock cfg P b with
    | .leave => return data
    | .bytes none => Py.raise .ioError
    | .bytes (some d) =>
      if b.hash = P.xxh3_64 d then
        Py.modify fun g => { g with readCache := g.readCache.set b.hash d }
        readBlocks cfg P rest (data ++ d)
      else
        Py.raise .ioError

/-- `get_file_data(…, blklst, start_block, end_block)`. -/
def getFileData (cfg : Config) (P : Packages H) (blklst : List (FileBlock H))
    (startBlock endBlock : Int) : Task H Bytes :=
  readBlocks cfg P (slice blklst startBlock (endBlock + 1)) []

end VeratyFS
