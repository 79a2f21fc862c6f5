import VeratyFS.HashTable

/-!
# Storage (`storage/rocksdb_backend.py`, `storage/mmap_backend.py`, `smbs.py`)

* `pickDatastore` — the choice of a store; `PickEnv` is what the environment supplies (measured
  directory sizes and random choices).
* `writeData`, `rocksdbRead`, `rocksdbDelete` — the RocksDB stores; `mmRead` — the mmap reader.
* `writeSmallBlock`, `readSmallBlock`, `deleteSmallBlock` — the small-block database.

`writeData_spec`: a write that succeeds adds one record to one store and reports that store's
chunk; a write that fails changes no record.
-/

set_option autoImplicit false

namespace VeratyFS

open Pylib

variable {H : Type} [DecidableEq H]

/-! ## RocksDB datastores -/

/-- The measured size of each store's directory, the outcomes of `random.choice`, and whether the
    `put` into the chosen store raises. -/
structure PickEnv where
  dirSize : Nat → Nat
  choice : Nat → Nat
  putRaises : Bool

/-- The loop of `pick_datastore`; `l` are the candidates left, one fewer in each round. -/
def pickLoop {H : Type} (writeSpread : Bool) (env : PickEnv) :
    Nat → Nat → List Nat → List (DataStore H) → Option Nat × List (DataStore H)
  | 0, _, _, ds => (none, ds)
  | fuel + 1, round, l, ds =>
    match if writeSpread then l[env.choice round % l.length]? else l.head? with
    | none => (none, ds)
    | some store =>
      let ds := ds.modify store fun d => { d with nextWritePosition := env.dirSize store }
      match ds[store]? with
      | none => (none, ds)
      | some d =>
        if d.nextWritePosition < d.size then (some store, ds)
        else pickLoop writeSpread env fuel (round + 1) (l.erase store) ds

/-- `pick_datastore`: the index of a store with room (`none` is -1). -/
def pickDatastore {H : Type} (writeSpread : Bool) (env : PickEnv) (ds : List (DataStore H)) :
    Option Nat × List (DataStore H) :=
  pickLoop writeSpread env ds.length 0 (List.range ds.length) ds

/-- `write_data`: the block with its chunk and position filled in, unless it is a replica; what the
    `put` raises becomes an `IOError`. -/
def writeData (writeSpread : Bool) (env : PickEnv) (q : QueuedWrite H) (data : Bytes)
    (replica : Bool) : Py PyError (List (DataStore H)) (QueuedWrite H) := fun ds =>
  match pickDatastore writeSpread env ds with
  | (none, ds) => (.error (.fuseError .ENOSPC), ds)
  | (some store, ds) =>
    match ds[store]? with
    | none => (.error .ioError, ds)
    | some d =>
      if env.putRaises then (.error .ioError, ds)
      else
        (.ok (if replica then q else { q with chunk := d.chunk, block := d.nextWritePosition }),
          ds.modify store fun d => { d with db := d.db.set q.hash data })

/-- `rocksdb_read`: every failure is caught and read as no bytes. -/
def rocksdbRead (P : Packages H) (hash : H) (ds : DataStore H) (hashTable : HashTable H) : Bytes :=
  match ds.db.get? hash, hashTable.getItem? hash with
  | some data, some b => if b.compressed then decompressData P data else data
  | _, _ => []

/-- `rocksdb_delete`. -/
def rocksdbDelete (hash : H) (ds : DataStore H) : DataStore H := { ds with db := ds.db.erase hash }

/-- `mm_read`: `None` when the chunk file is missing or shorter than the mapping, or the position
    or the hash is unknown. -/
def mmRead (P : Packages H) (hash : H) (block : Int) (ds : DataStore H) (readSize : Nat)
    (hashTable : HashTable H) : Option Bytes :=
  match ds.file, hashTable.getItem? hash with
  | some f, some b =>
    if ds.size ≤ f.length ∧ 0 ≤ block ∧ block ≤ ds.size then
      let d := ((f.take ds.size).drop block.toNat).take readSize
      some (if b.compressed then decompressData P d else d)
    else none
  | _, _ => none

/-! ### What a write does to the records -/

/-- `datastore[i].chunk == i`. -/
def Numbered {H : Type} (ds : List (DataStore H)) : Prop :=
  ∀ (j : Nat) (chunk : Int), (ds.map DataStore.chunk)[j]? = some chunk → chunk = j

/-- The record of `h` in the `j`-th store. -/
def stored (ds : List (DataStore H)) (j : Nat) (h : H) : Option Bytes :=
  ds[j]?.bind fun d => d.db.get? h

/-- The same stores with the same records; only measurements differ. -/
structure SameRecords (ds ds' : List (DataStore H)) : Prop where
  chunks : ds'.map DataStore.chunk = ds.map DataStore.chunk
  stored : ∀ j h, stored ds' j h = stored ds j h

namespace SameRecords

variable {ds ds' ds'' : List (DataStore H)}

theorem refl (ds : List (DataStore H)) : SameRecords ds ds := ⟨rfl, fun _ _ => rfl⟩

theorem trans (h : SameRecords ds ds') (h' : SameRecords ds' ds'') : SameRecords ds ds'' :=
  ⟨h'.chunks.trans h.chunks, fun j k => (h'.stored j k).trans (h.stored j k)⟩

theorem length (h : SameRecords ds ds') : ds'.length = ds.length := by
  simpa using congrArg List.length h.chunks

theorem measure (ds : List (DataStore H)) (store n : Nat) :
    SameRecords ds (ds.modify store fun d => { d with nextWritePosition := n }) := by
  refine ⟨List.ext_getElem? fun j => ?_, fun j h => ?_⟩
  · rw [List.getElem?_map, List.getElem?_map, List.getElem?_modify]
    cases ds[j]? with
    | none => rfl
    | some d => by_cases e : store = j <;> simp [e]
  · unfold VeratyFS.stored
    rw [List.getElem?_modify]
    cases ds[j]? with
    | none => rfl
    | some d => by_cases e : store = j <;> simp [e]

end SameRecords

/-- Picking a store only measures, and what it returns is the index of a store. -/
theorem pickLoop_spec (writeSpread : Bool) (env : PickEnv) :
    ∀ (fuel round : Nat) (l : List Nat) (ds : List (DataStore H)),
      SameRecords ds (pickLoop writeSpread env fuel round l ds).2 ∧
      ∀ store, (pickLoop writeSpread env fuel round l ds).1 = some store →
        ∃ d, (pickLoop writeSpread env fuel round l ds).2[store]? = some d
  | 0, _, _, ds => ⟨.refl ds, fun _ h => by cases h⟩
  | fuel + 1, round, l, ds => by
    rw [pickLoop]
    split
    · exact ⟨.refl ds, fun _ h => by cases h⟩
    · rename_i store _
      have hm := SameRecords.measure ds store (env.dirSize store)
      dsimp only
      split
      · exact ⟨hm, fun _ h => by cases h⟩
      · rename_i d hd
        split
        · refine ⟨hm, fun _ h => ?_⟩
          cases h
          exact ⟨d, hd⟩
        · obtain ⟨h₁, h₂⟩ := pickLoop_spec writeSpread env fuel (round + 1) (l.erase store)
            (ds.modify store fun d => { d with nextWritePosition := env.dirSize store })
          exact ⟨hm.trans h₁, h₂⟩

/-- The stores after one record was put. -/
structure PutRecord (ds ds' : List (DataStore H)) (store : Nat) (h : H) (data : Bytes) : Prop where
  chunks : ds'.map DataStore.chunk = ds.map DataStore.chunk
  stored : ∀ j h', stored ds' j h' = if j = store ∧ h = h' then some data else stored ds j h'

theorem PutRecord.length {ds ds' : List (DataStore H)} {store : Nat} {h : H} {data : Bytes}
    (p : PutRecord ds ds' store h data) : ds'.length = ds.length := by
  simpa using congrArg List.length p.chunks

theorem putRecord_modify {ds : List (DataStore H)} {store : Nat} {d : DataStore H}
    (hd : ds[store]? = some d) (h : H) (data : Bytes) :
    PutRecord ds (ds.modify store fun d => { d with db := d.db.set h data }) store h data := by
  refine ⟨List.ext_getElem? fun j => ?_, fun j h' => ?_⟩
  · rw [List.getElem?_map, List.getElem?_map, List.getElem?_modify]
    cases ds[j]? with
    | none => rfl
    | some d => by_cases e : store = j <;> simp [e]
  · unfold stored
    rw [List.getElem?_modify]
    by_cases e : store = j
    · subst e
      simp [hd]
    · have e' : ¬ j = store := fun x => e x.symm
      cases ds[j]? <;> simp [e, e']

theorem PutRecord.of_same {ds ds' ds'' : List (DataStore H)} {store : Nat} {h : H} {data : Bytes}
    (hs : SameRecords ds ds') (p : PutRecord ds' ds'' store h data) :
    PutRecord ds ds'' store h data :=
  ⟨p.chunks.trans hs.chunks, fun j h' => by rw [p.stored, hs.stored]⟩

/-- **A write that succeeds puts one record in one store and reports that store's chunk; one that
fails changes no record.** -/
theorem writeData_spec (writeSpread : Bool) (env : PickEnv) (q : QueuedWrite H) (data : Bytes)
    (replica : Bool) (ds : List (DataStore H)) :
    (writeData writeSpread env q data replica).wp
      (Py.post
        (fun q' ds' => ∃ store chunk block, PutRecord ds ds' store q.hash data ∧
          (ds.map DataStore.chunk)[store]? = some chunk ∧
          q' = if replica then q else { q with chunk := chunk, block := block })
        (fun _ ds' => SameRecords ds ds')) ds := by
  obtain ⟨hs, hi⟩ := pickLoop_spec writeSpread env ds.length 0 (List.range ds.length) ds
  unfold Py.wp writeData pickDatastore
  generalize pickLoop writeSpread env ds.length 0 (List.range ds.length) ds = r at hs hi
  obtain ⟨_ | store, ds₁⟩ := r
  · exact hs
  · obtain ⟨d, hd⟩ := hi store rfl
    dsimp only at hd hs ⊢
    rw [hd]
    cases env.putRaises with
    | true => exact hs
    | false =>
      refine ⟨store, d.chunk, d.nextWritePosition,
        .of_same hs (putRecord_modify hd q.hash data), ?_, rfl⟩
      rw [← hs.chunks, List.getElem?_map, hd]
      rfl

/-! ## The small-block database -/

/-- `rocksdb.DB(small_block_db_path, …)`: `path_to_string` refuses a list. -/
def openSmallBlockDb (cfg : Config) : Py PyError (Dict H Bytes) Unit :=
  match cfg.smallBlockDbPath with
  | .path => Py.ret ()
  | .list => Py.raise .typeError

/-- `write_small_block`. -/
def writeSmallBlock (cfg : Config) (hash : H) (data : Bytes) : Py PyError (Dict H Bytes) Nat := do
  openSmallBlockDb cfg
  Py.modify fun smbs => smbs.set hash data
  return data.length

/-- `read_small_block`. -/
def readSmallBlock (cfg : Config) (hash : H) : Py PyError (Dict H Bytes) (Option Bytes) := do
  openSmallBlockDb cfg
  let smbs ← Py.read
  return smbs.get? hash

/-- `delete_small_block`: only the deletion is inside the `try`. -/
def deleteSmallBlock (cfg : Config) (hash : H) : Py PyError (Dict H Bytes) Bool := do
  openSmallBlockDb cfg
  Py.modify fun smbs => smbs.erase hash
  return true

/-! ## Free extents -/

/-- `free_blocks[chunk].insert(size, [offset])`. -/
def insertExtent {H : Type} (b : Block H) : Py PyError (List IOBTree) Unit := do
  let fb ← Py.read
  let tree ← Py.ofOption .indexError (getAt? fb b.chunk)
  Py.modify fun fb => setAt fb b.chunk (tree.insert b.size [b.offset])

/-- `free_blocks[chunk].get(size).append(offset)`. -/
def appendExtent {H : Type} (b : Block H) : Py PyError (List IOBTree) Unit := do
  let fb ← Py.read
  let tree ← Py.ofOption .indexError (getAt? fb b.chunk)
  let offsets ← Py.ofOption .attributeError (tree.get? b.size)
  Py.modify fun fb => setAt fb b.chunk (tree.set b.size (offsets ++ [b.offset]))

end VeratyFS
