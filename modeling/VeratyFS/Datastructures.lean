import VeratyFS.Lib.Dict
import VeratyFS.Lib.PyList
import VeratyFS.Lib.Py

/-!
# Configuration and data structures

The records of `datastructures.py`, the options of `config.yaml` that the modelled functions read,
and the third-party packages (`fastcdc`, `xxhash`, `lz4.frame`) as a parameter of the model.

* `Packages` — the package functions; `Packages.Lawful` is what the code relies on.
* `compressData`, `decompressData` — `compression.py`, format 1 (the only one in use).
* `Block`, `FileBlock`, `DataStore`, `QueuedWrite`, `WriteCache` — as in the source.

`H` is the type of hash values (`hexdigest` strings in the source).
-/

set_option autoImplicit false

namespace VeratyFS

open Pylib

abbrev Bytes := List UInt8

/-- A reading of `time.time()`, in microseconds. -/
abbrev Time := Int

def seconds (n : Int) : Time := n * 1000000

inductive Errno where
  | ENOSPC
  | ENOENT
  | EINVAL
  | EISDIR
  | ENOTDIR
  | ENOTEMPTY
  deriving DecidableEq, Repr

inductive PyError where
  | keyError
  | indexError
  | valueError
  | typeError
  | attributeError
  | ioError
  | fuseError (errno : Errno)
  deriving DecidableEq, Repr

/-! ## Configuration -/

/-- The `backend` option; `unset` is an empty value (`None`). -/
inductive Backend where
  | rocksdb
  | mmap
  | unset
  deriving DecidableEq, Repr

/-- A path option of `config.yaml`: one path, or a list of them. -/
inductive ConfPath where
  | path
  | list
  deriving DecidableEq, Repr

structure Config where
  backend : Backend
  smallBlockLimit : Nat
  minBlkSize : Nat
  writeSpread : Bool
  replicateData : Bool
  smallBlockDbPath : ConfPath
  deriving DecidableEq, Repr

/-- The values of `config.yaml` as the repository ships it. -/
def Config.shipped : Config where
  backend := .rocksdb
  smallBlockLimit := 8388608
  minBlkSize := 16384
  writeSpread := true
  replicateData := true
  smallBlockDbPath := .list

/-! ## Packages and compression -/

/-- The functions of `fastcdc`, `xxhash` and `lz4.frame` that the program calls.
    `lz4Decompress` is `none` where `decompress_chunk` raises. -/
structure Packages (H : Type) where
  xxh3_64 : Bytes → H
  fastcdc : Bytes → List Bytes
  lz4Compress : Bytes → Bytes
  lz4Decompress : Bytes → Option Bytes

/-- What the program relies on: the chunks are non-empty and concatenate to the input, and
    decompression undoes compression. -/
structure Packages.Lawful {H : Type} (P : Packages H) : Prop where
  chunk_ne_nil : ∀ data, ∀ c ∈ P.fastcdc data, c ≠ []
  chunks_flatten : ∀ data, (P.fastcdc data).flatten = data
  lz4_roundtrip : ∀ data, P.lz4Decompress (P.lz4Compress data) = some data

/-- Small incompressible inputs: one chunk, a frame longer than its content, and the content
    itself as its hash. -/
def Packages.plain : Packages Bytes where
  xxh3_64 := id
  fastcdc data := if data = [] then [] else [data]
  lz4Compress data := 4 :: data
  lz4Decompress data := data.tail?

theorem Packages.plain_lawful : Packages.plain.Lawful where
  chunk_ne_nil := by
    intro data c hc
    unfold plain at hc
    dsimp only at hc
    split at hc
    · cases hc
    · rename_i h
      rw [List.mem_singleton] at hc
      exact hc ▸ h
  chunks_flatten := by
    intro data
    unfold plain
    dsimp only
    split
    · rename_i h; exact h.symm
    · simp
  lz4_roundtrip _ := rfl

variable {H : Type}

/-- `compress_data(data, 1)`: the flag and the bytes to store. -/
def compressData (P : Packages H) (data : Bytes) : Bool × Bytes :=
  let cp := P.lz4Compress data
  if cp.length < data.length then (true, cp) else (false, data)

/-- `decompress_data(data, 1)`: what lz4 refuses is returned as it is. -/
def decompressData (P : Packages H) (data : Bytes) : Bytes := (P.lz4Decompress data).getD data

theorem decompressData_compressData {P : Packages H} (hP : P.Lawful) (data : Bytes) :
    (if (compressData P data).1 then decompressData P (compressData P data).2
      else (compressData P data).2) = data := by
  unfold compressData decompressData
  dsimp only
  by_cases h : (P.lz4Compress data).length < data.length
  · simp [h, hP.lz4_roundtrip]
  · simp [h]

/-! ## Records -/

/-- A hash-table entry. -/
structure Block (H : Type) where
  hash : H
  chunk : Int := 0
  offset : Int := 0
  size : Nat := 0
  deflatedSize : Nat := 0
  uses : Int := 0
  compressed : Bool := false
  DELETED : Bool := false
  DELETION_TIME : Option Time := none
  deriving DecidableEq, Repr

/-- A block of a file: its hash, stored size and raw size. -/
structure FileBlock (H : Type) where
  hash : H
  size : Nat
  rawSize : Nat
  deriving DecidableEq, Repr

/-- A datastore: a RocksDB database, or a chunk file of the mmap backend (`file` is its content
    when `path` is a regular file). -/
structure DataStore (H : Type) where
  chunk : Int
  size : Nat
  nextWritePosition : Nat
  db : Dict H Bytes
  file : Option Bytes

/-- An empty database of the size that `config.yaml` gives. -/
def DataStore.fresh {H : Type} (chunk : Int) : DataStore H := ⟨chunk, 8589934592, 0, Dict.empty, none⟩

/-- An item of `write_buffer` (the dictionary `q`). -/
structure QueuedWrite (H : Type) where
  hash : H
  data : Bytes
  compressed : Bool
  compressedData : Bytes
  chunk : Int := 0
  block : Int := 0
  deriving DecidableEq, Repr

/-- The bytes a commit stores. -/
def QueuedWrite.payload (q : QueuedWrite H) : Bytes := if q.compressed then q.compressedData else q.data

/-- The free extents of one datastore: size ↦ offsets. -/
abbrev IOBTree := Dict Nat (List Int)

/-- `IOBTree.insert`: an existing key keeps its value. -/
def IOBTree.insert (t : IOBTree) (size : Nat) (offsets : List Int) : IOBTree :=
  if t.contains size then t else t.set size offsets

/-- `WriteCache`: the queue between `dedup` and the writers.  `append` waits while the queue is
    full; what it appends in the end is the same. -/
structure WriteCache (α : Type) where
  d : List α
  capacity : Nat

namespace WriteCache

variable {α : Type}

def append (w : WriteCache α) (val : α) : WriteCache α := { w with d := w.d ++ [val] }

/-- `popleft`; `none` is the `IndexError` of an empty queue. -/
def popleft (w : WriteCache α) : Option (α × WriteCache α) :=
  match w.d with
  | [] => none
  | val :: rest => some (val, { w with d := rest })

@[simp] theorem append_d (w : WriteCache α) (val : α) : (w.append val).d = w.d ++ [val] := rfl

theorem popleft_eq_some {w w' : WriteCache α} {val : α} (h : w.popleft = some (val, w')) :
    w.d = val :: w'.d ∧ w'.capacity = w.capacity := by
  unfold popleft at h
  split at h
  · cases h
  · rename_i v rest hd
    cases h
    exact ⟨hd, rfl⟩

end WriteCache

end VeratyFS
