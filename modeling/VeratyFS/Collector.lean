import VeratyFS.Pipeline

/-!
# The collector (`garbage_collector`, `get_usage`)

* `deleteBlock` — the three branches of a physical deletion.
* `collectHash` — one round of the loop, for the hash popped from `GC.remove_uses`.
* `garbageCollector` — the loop, the `except IndexError` around it, and the final `commit`.
* `getUsage` — the space totals.

`clock n` is the reading of `time.time()` in the round that starts with `n + 1` hashes queued.
-/

set_option autoImplicit false

namespace VeratyFS

open Pylib

variable {H : Type} [DecidableEq H]

/-! ## Physical deletion -/

/-- `delete_small_block` and the cache entry; what it returns only decides on a log line. -/
def deleteFromSmallBlocks (cfg : Config) (remove : H) : Task H Unit := do
  let _deleted ← Globals.onSmallBlocks (deleteSmallBlock cfg remove)
  Py.modify fun g => { g with smallBlockReadCache := g.smallBlockReadCache.erase remove }

/-- `datastore.commit_next_write_position - size`, a bound method minus an integer. -/
def methodMinusSize {H α : Type} (_ds : DataStore H) (_size : Nat) : Task H α := Py.raise .typeError

/-- The rocksdb branch. -/
def deleteFromDatastore (remove : H) (b : Block H) : Task H Unit := do
  let g ← Py.read
  let ds ← Py.ofOption .indexError (getAt? g.datastore b.chunk)
  let nextWritePosition ← methodMinusSize ds b.size
  Py.modify fun g => { g with
    datastore := setAt g.datastore b.chunk
      (rocksdbDelete remove { ds with nextWritePosition := nextWritePosition })
    fragmentation := ⟨0, 0⟩ }

/-- The extent goes back to the free list; the counters change in any case. -/
def freeExtent (b : Block H) : Task H Unit :=
  Py.ensuring
    (Globals.onFreeBlocks (Py.attempt (appendExtent b)
      (fun e => if e = .attributeError then insertExtent b else Py.raise e)))
    (fun g => { g with
      fragmentation := ⟨g.fragmentation.freeSize + b.size, g.fragmentation.freeCount + 1⟩ })

/-- The deletion of the bytes of a hash. -/
def deleteBlock (cfg : Config) (remove : H) (b : Block H) : Task H Unit := do
  Py.modify fun g => { g with reclaimed := g.reclaimed ++ [remove] }
  if b.size ≤ cfg.smallBlockLimit then
    deleteFromSmallBlocks cfg remove
  else
    match cfg.backend with
    | .rocksdb => deleteFromDatastore remove b
    | .mmap | .unset => freeExtent b

/-! ## A pass -/

/-- The grace period of an entry is over. -/
def graceOver {H : Type} (now : Time) (b : Block H) : Prop :=
  ∃ t, b.DELETION_TIME = some t ∧ seconds 5 < now - t

instance {H : Type} (now : Time) (b : Block H) : Decidable (graceOver now b) :=
  match h : b.DELETION_TIME with
  | none => .isFalse fun ⟨t, ht, _⟩ => by rw [h] at ht; cases ht
  | some t =>
    if ht : seconds 5 < now - t then .isTrue ⟨t, h, ht⟩
    else .isFalse fun ⟨t', ht', hlt⟩ => by rw [h] at ht'; cases ht'; exact ht hlt

/-- A field of an entry is set in place. -/
def mutateEntry (remove : H) (f : Block H → Block H) : Task H Unit :=
  Py.modify fun g => { g with hashTable := g.hashTable.mutate remove f }

/-- The round of a hash whose counter fell below zero: the entry is flagged, and its bytes are
    deleted once the grace period is over. -/
def collectUnused (cfg : Config) (now : Time) (remove : H) (b : Block H) : Task H Unit := do
  mutateEntry remove fun b => { b with DELETED := true }
  if graceOver now b then
    deleteBlock cfg remove b
  else if b.DELETION_TIME = none then
    mutateEntry remove fun b => { b with DELETION_TIME := some now }
  else
    return ()

/-- One round: the entry loses a use. -/
def collectHash (cfg : Config) (now : Time) (remove : H) : Task H Unit := do
  let g ← Py.read
  let b ← Py.ofOption .keyError (g.hashTable.getItem? remove)
  mutateEntry remove fun b => { b with uses := b.uses - 1 }
  if b.uses - 1 ≤ -1 then
    collectUnused cfg now remove b
  else
    return ()

/-- The loop, for at most so many rounds. -/
def collectLoop (cfg : Config) (clock : Nat → Time) : Nat → Task H Unit
  | 0 => return ()
  | n + 1 => do
    let g ← Py.read
    match g.removeUses with
    | [] => return ()
    | remove :: rest =>
      Py.modify fun g => { g with removeUses := rest }
      collectHash cfg (clock n) remove
      collectLoop cfg clock n

/-- `garbage_collector`. -/
def garbageCollector (cfg : Config) (clock : Nat → Time) : Task H Bool := do
  let g ← Py.read
  Py.attempt (collectLoop cfg clock g.removeUses.length)
    (fun e => if e = .indexError then return () else Py.raise e)
  Py.modify fun g => { g with hashTable := g.hashTable.commit }
  return true

/-! ## What a pass does -/

/-- The entry after a round. -/
def collected {H : Type} (now : Time) (b : Block H) : Block H :=
  { b with
    uses := b.uses - 1
    DELETED := if b.uses - 1 ≤ -1 then true else b.DELETED
    DELETION_TIME := if b.uses - 1 ≤ -1 ∧ b.DELETION_TIME = none then some now else b.DELETION_TIME }

/-- A physical deletion touches neither the table nor the queues. -/
structure StorageOnly (g g' : Globals H) : Prop where
  hashTable : g'.hashTable = g.hashTable
  writeBuffer : g'.writeBuffer = g.writeBuffer
  removeUses : g'.removeUses = g.removeUses
  datastore : g'.datastore = g.datastore
  freeBlocks : g'.freeBlocks.length = g.freeBlocks.length
  reclaimed : g'.reclaimed = g.reclaimed

omit [DecidableEq H] in
instance : Py.Frame (@StorageOnly H) := by
  refine ⟨fun s => ?_, fun h h' => ?_⟩
  · constructor <;> rfl
  · constructor
    · exact h'.hashTable.trans h.hashTable
    · exact h'.writeBuffer.trans h.writeBuffer
    · exact h'.removeUses.trans h.removeUses
    · exact h'.datastore.trans h.datastore
    · exact h'.freeBlocks.trans h.freeBlocks
    · exact h'.reclaimed.trans h.reclaimed

theorem deleteFromSmallBlocks_keeps (cfg : Config) (remove : H) :
    Py.Keeps StorageOnly (deleteFromSmallBlocks cfg remove) := by
  refine Py.keeps_bind ?_ fun _ => Py.keeps_modify fun s => ?_
  · intro s
    constructor <;> rfl
  · constructor <;> rfl

/-- On rocksdb the branch ends before it deletes anything. -/
theorem deleteFromDatastore_state (remove : H) (b : Block H) (g : Globals H) :
    (deleteFromDatastore remove b g).2 = g ∧ (deleteFromDatastore remove b g).1 ≠ .ok () := by
  unfold deleteFromDatastore
  change ((Py.ofOption PyError.indexError (getAt? g.datastore b.chunk) >>= _) g).2 = g ∧
    ((Py.ofOption PyError.indexError (getAt? g.datastore b.chunk) >>= _) g).1 ≠ .ok ()
  cases getAt? g.datastore b.chunk with
  | none => exact ⟨rfl, fun h => by cases h⟩
  | some ds => exact ⟨rfl, fun h => by cases h⟩

omit [DecidableEq H] in
theorem insertExtent_keeps (b : Block H) :
    Py.Keeps (fun fb fb' => fb'.length = fb.length) (insertExtent b) := by
  intro fb
  unfold insertExtent
  change ((Py.ofOption PyError.indexError (getAt? fb b.chunk) >>= _) fb).2.length = _
  cases getAt? fb b.chunk with
  | none => rfl
  | some tree => exact length_setAt _ _ _

omit [DecidableEq H] in
theorem appendExtent_keeps (b : Block H) :
    Py.Keeps (fun fb fb' => fb'.length = fb.length) (appendExtent b) := by
  intro fb
  unfold appendExtent
  change ((Py.ofOption PyError.indexError (getAt? fb b.chunk) >>= _) fb).2.length = _
  cases getAt? fb b.chunk with
  | none => rfl
  | some tree =>
    change ((Py.ofOption PyError.attributeError (tree.get? b.size) >>= _) fb).2.length = _
    cases tree.get? b.size with
    | none => rfl
    | some offsets => exact length_setAt _ _ _

instance : Py.Frame (fun fb fb' : List IOBTree => fb'.length = fb.length) :=
  ⟨fun _ => rfl, fun h h' => h'.trans h⟩

omit [DecidableEq H] in
theorem freeExtent_keeps (b : Block H) : Py.Keeps StorageOnly (freeExtent b) := by
  refine Py.keeps_ensuring (Py.keeps_zoom (S := fun fb fb' => fb'.length = fb.length)
    (Py.keeps_attempt (appendExtent_keeps b) fun e => ?_) fun s fb h => ?_) fun s => ?_
  · split
    · exact insertExtent_keeps b
    · exact Py.keeps_raise e
  · constructor <;> first | exact h | rfl
  · constructor <;> rfl

theorem deleteBlock_small {cfg : Config} {remove : H} {b : Block H}
    (h : b.size ≤ cfg.smallBlockLimit) (g : Globals H) :
    deleteBlock cfg remove b g =
      deleteFromSmallBlocks cfg remove { g with reclaimed := g.reclaimed ++ [remove] } := by
  unfold deleteBlock
  exact congrFun (if_pos h) _

theorem deleteBlock_rocksdb {cfg : Config} {remove : H} {b : Block H}
    (h : ¬ b.size ≤ cfg.smallBlockLimit) (hb : cfg.backend = .rocksdb) (g : Globals H) :
    deleteBlock cfg remove b g =
      deleteFromDatastore remove b { g with reclaimed := g.reclaimed ++ [remove] } := by
  unfold deleteBlock
  rw [hb]
  exact congrFun (if_neg h) _

theorem deleteBlock_extent {cfg : Config} {remove : H} {b : Block H}
    (h : ¬ b.size ≤ cfg.smallBlockLimit) (hb : cfg.backend ≠ .rocksdb) (g : Globals H) :
    deleteBlock cfg remove b g = freeExtent b { g with reclaimed := g.reclaimed ++ [remove] } := by
  unfold deleteBlock
  cases hc : cfg.backend with
  | rocksdb => exact absurd hc hb
  | mmap => exact congrFun (if_neg h) _
  | unset => exact congrFun (if_neg h) _

/-- **A deletion is recorded and touches the storage only**, whichever branch it takes and whether
the branch raises. -/
theorem deleteBlock_effect (cfg : Config) (remove : H) (b : Block H) (g : Globals H) :
    StorageOnly { g with reclaimed := g.reclaimed ++ [remove] } (deleteBlock cfg remove b g).2 := by
  by_cases hsize : b.size ≤ cfg.smallBlockLimit
  · rw [deleteBlock_small hsize]
    exact deleteFromSmallBlocks_keeps cfg remove _
  · by_cases hb : cfg.backend = .rocksdb
    · rw [deleteBlock_rocksdb hsize hb]
      refine (deleteFromDatastore_state remove b _).1 ▸ ?_
      exact Py.Frame.refl _
    · rw [deleteBlock_extent hsize hb]
      exact freeExtent_keeps b _

/-- The small-block branch, with one path and with a list. -/
theorem deleteFromSmallBlocks_run {cfg : Config} (hpath : cfg.smallBlockDbPath = .path) (remove : H)
    (g : Globals H) :
    deleteFromSmallBlocks cfg remove g = (.ok (), { g with
      smallBlocks := g.smallBlocks.erase remove
      smallBlockReadCache := g.smallBlockReadCache.erase remove }) := by
  unfold deleteFromSmallBlocks deleteSmallBlock openSmallBlockDb
  rw [hpath]
  rfl

theorem deleteFromSmallBlocks_list {cfg : Config} (hpath : cfg.smallBlockDbPath = .list) (remove : H)
    (g : Globals H) : deleteFromSmallBlocks cfg remove g = (.error .typeError, g) := by
  unfold deleteFromSmallBlocks deleteSmallBlock openSmallBlockDb
  rw [hpath]
  rfl

/-- A deletion removes the record from the small-block database when it gets there. -/
theorem deleteBlock_smallBlocks (cfg : Config) (remove : H) (b : Block H) (g : Globals H) :
    (deleteBlock cfg remove b g).2.smallBlocks =
      if b.size ≤ cfg.smallBlockLimit ∧ cfg.smallBlockDbPath = .path then g.smallBlocks.erase remove
      else g.smallBlocks := by
  by_cases hsize : b.size ≤ cfg.smallBlockLimit
  · rw [deleteBlock_small hsize]
    cases hp : cfg.smallBlockDbPath with
    | path => rw [deleteFromSmallBlocks_run hp, if_pos ⟨hsize, rfl⟩]
    | list => rw [deleteFromSmallBlocks_list hp, if_neg fun h => by cases h.2]
  · rw [if_neg fun h => hsize h.1]
    by_cases hb : cfg.backend = .rocksdb
    · rw [deleteBlock_rocksdb hsize hb, (deleteFromDatastore_state remove b _).1]
    · rw [deleteBlock_extent hsize hb]
      rfl

omit [DecidableEq H] in
/-- An extent goes back to a free list that exists. -/
theorem freeExtent_ok {b : Block H} {g : Globals H}
    (hplaced : (index? g.freeBlocks.length b.chunk).isSome) : (freeExtent b g).1 = .ok () := by
  obtain ⟨fb', hins, _⟩ := insertExtent_run hplaced
  obtain ⟨tree, ht⟩ := Option.isSome_iff_exists.mp (getAt?_isSome hplaced)
  have happend : appendExtent b g.freeBlocks =
      (Py.ofOption PyError.attributeError (tree.get? b.size) >>= fun offsets =>
        Py.modify fun fb => setAt fb b.chunk (tree.set b.size (offsets ++ [b.offset]))) g.freeBlocks := by
    unfold appendExtent
    change (Py.ofOption PyError.indexError (getAt? g.freeBlocks b.chunk) >>= _) g.freeBlocks = _
    rw [ht]
    rfl
  change (Py.attempt (appendExtent b)
    (fun e => if e = .attributeError then insertExtent b else Py.raise e) g.freeBlocks).1 = _
  cases hget : tree.get? b.size with
  | some offsets =>
    rw [hget] at happend
    rw [Py.run_attempt_ok happend]
  | none =>
    rw [hget] at happend
    rw [Py.run_attempt_error happend]
    exact congrArg Prod.fst hins

/-- Outside rocksdb, with one path for the small blocks, a deletion does not raise. -/
theorem deleteBlock_ok {cfg : Config} (hbackend : cfg.backend ≠ .rocksdb)
    (hpath : cfg.smallBlockDbPath = .path) (remove : H) {b : Block H} {g : Globals H}
    (hplaced : (index? g.freeBlocks.length b.chunk).isSome) :
    (deleteBlock cfg remove b g).1 = .ok () := by
  by_cases hsize : b.size ≤ cfg.smallBlockLimit
  · rw [deleteBlock_small hsize, deleteFromSmallBlocks_run hpath]
  · rw [deleteBlock_extent hsize hbackend]
    exact freeExtent_ok hplaced

/-- The deletion condition: the counter falls below zero, and the grace period is over. -/
def due {H : Type} (now : Time) (b : Block H) : Prop := b.uses - 1 ≤ -1 ∧ graceOver now b

instance {H : Type} (now : Time) (b : Block H) : Decidable (due now b) :=
  inferInstanceAs (Decidable (_ ∧ _))

/-- The table of a round that deletes: a use less, and the flag. -/
def HashTable.takeBack (t : HashTable H) (remove : H) : HashTable H :=
  (t.mutate remove fun b => { b with uses := b.uses - 1 }).mutate remove
    fun b => { b with DELETED := true }

/-- **A round whose deletion condition holds** is the deletion. -/
theorem collectHash_deletes {cfg : Config} {now : Time} {remove : H} {b : Block H} {g : Globals H}
    (hb : g.hashTable.getItem? remove = some b) (hdue : due now b) :
    collectHash cfg now remove g =
      deleteBlock cfg remove b { g with hashTable := g.hashTable.takeBack remove } := by
  have hget : Py.ofOption PyError.keyError (g.hashTable.getItem? remove) g = (.ok b, g) := by
    rw [hb]
    rfl
  refine (Py.run_bind_ok hget).trans ?_
  refine (congrFun (if_pos hdue.1) _).trans ?_
  exact congrFun (if_pos hdue.2) _

theorem collectHash_due {cfg : Config} {now : Time} {remove : H} {b : Block H} {g : Globals H}
    (hb : g.hashTable.d.get? remove = some b) (hdue : due now b) :
    collectHash cfg now remove g =
      deleteBlock cfg remove b { g with hashTable := g.hashTable.takeBack remove } :=
  collectHash_deletes (HashTable.getItem?_of_d _ hb) hdue

/-- A round whose deletion condition does not hold changes the table only. -/
theorem collectHash_spares (cfg : Config) {now : Time} {remove : H} {b : Block H} {g : Globals H}
    (hb : g.hashTable.getItem? remove = some b) (hdue : ¬ due now b) :
    ∃ t : HashTable H, collectHash cfg now remove g = (.ok (), { g with hashTable := t }) := by
  have hget : Py.ofOption PyError.keyError (g.hashTable.getItem? remove) g = (.ok b, g) := by
    rw [hb]
    rfl
  by_cases hu : b.uses - 1 ≤ -1
  · have hgrace : ¬ graceOver now b := fun h => hdue ⟨hu, h⟩
    by_cases htime : b.DELETION_TIME = none
    · exact ⟨_, (Py.run_bind_ok hget).trans ((congrFun (if_pos hu) _).trans
        ((congrFun (if_neg hgrace) _).trans (congrFun (if_pos htime) _)))⟩
    · exact ⟨_, (Py.run_bind_ok hget).trans ((congrFun (if_pos hu) _).trans
        ((congrFun (if_neg hgrace) _).trans (congrFun (if_neg htime) _)))⟩
  · exact ⟨_, (Py.run_bind_ok hget).trans (congrFun (if_neg hu) _)⟩

/-- A round of a hash that the table does not know. -/
theorem collectHash_unknown {cfg : Config} {now : Time} {remove : H} {g : Globals H}
    (hb : g.hashTable.getItem? remove = none) :
    collectHash cfg now remove g = (.error .keyError, g) := by
  show Py.andThen (Py.ofOption PyError.keyError (g.hashTable.getItem? remove)) _ g = _
  rw [hb]
  rfl

theorem takeBack_d_get? {now : Time} {remove : H} {b : Block H} {t : HashTable H}
    (hb : t.d.get? remove = some b) (hdue : due now b) (k : H) :
    (t.takeBack remove).d.get? k = if remove = k then some (collected now b) else t.d.get? k := by
  obtain ⟨hu, τ, hτ, _⟩ := hdue
  unfold HashTable.takeBack
  rw [HashTable.mutate_d_get?, HashTable.mutate_d_get?]
  split
  · rename_i hk
    rw [← hk, hb]
    simp [collected, hu, hτ]
  · rfl

/-- **Any other round** changes the entry, and nothing else. -/
theorem collectHash_notDue (cfg : Config) {now : Time} {remove : H} {b : Block H} {g : Globals H}
    (hb : g.hashTable.d.get? remove = some b) (hdue : ¬ due now b) :
    ∃ t : HashTable H, collectHash cfg now remove g = (.ok (), { g with hashTable := t }) ∧
      ∀ k, t.d.get? k = if remove = k then some (collected now b) else g.hashTable.d.get? k := by
  have hget : Py.ofOption PyError.keyError (g.hashTable.getItem? remove) g = (.ok b, g) := by
    rw [HashTable.getItem?_of_d _ hb]
    rfl
  by_cases hu : b.uses - 1 ≤ -1
  · have hgrace : ¬ graceOver now b := fun h => hdue ⟨hu, h⟩
    by_cases htime : b.DELETION_TIME = none
    · refine ⟨_, (Py.run_bind_ok hget).trans ((congrFun (if_pos hu) _).trans
        ((congrFun (if_neg hgrace) _).trans (congrFun (if_pos htime) _))), fun k => ?_⟩
      rw [HashTable.mutate_d_get?, HashTable.mutate_d_get?, HashTable.mutate_d_get?]
      split
      · rename_i hk
        rw [← hk, hb]
        simp [collected, hu, htime]
      · rfl
    · refine ⟨_, (Py.run_bind_ok hget).trans ((congrFun (if_pos hu) _).trans
        ((congrFun (if_neg hgrace) _).trans (congrFun (if_neg htime) _))), fun k => ?_⟩
      rw [HashTable.mutate_d_get?, HashTable.mutate_d_get?]
      split
      · rename_i hk
        rw [← hk, hb]
        simp [collected, hu, htime]
      · rfl
  · refine ⟨_, (Py.run_bind_ok hget).trans (congrFun (if_neg hu) _), fun k => ?_⟩
    rw [HashTable.mutate_d_get?]
    split
    · rename_i hk
      rw [← hk, hb]
      simp [collected, hu]
    · rfl

/-- **What a round does**, whether it returns or raises. -/
structure Collected (cfg : Config) (now : Time) (h : H) (b : Block H) (g g' : Globals H) : Prop where
  table : ∀ k, g'.hashTable.d.get? k = if h = k then some (collected now b) else g.hashTable.d.get? k
  writeBuffer : g'.writeBuffer = g.writeBuffer
  removeUses : g'.removeUses = g.removeUses
  datastore : g'.datastore = g.datastore
  smallBlocks : g'.smallBlocks =
    if due now b ∧ b.size ≤ cfg.smallBlockLimit ∧ cfg.smallBlockDbPath = .path then
      g.smallBlocks.erase h
    else g.smallBlocks
  freeBlocks : g'.freeBlocks.length = g.freeBlocks.length
  reclaimed : g'.reclaimed = g.reclaimed ++ if due now b then [h] else []

theorem collectHash_effect (cfg : Config) (now : Time) {remove : H} {b : Block H} {g : Globals H}
    (hb : g.hashTable.d.get? remove = some b) :
    Collected cfg now remove b g (collectHash cfg now remove g).2 := by
  by_cases hdue : due now b
  · rw [collectHash_due hb hdue]
    have hdel := deleteBlock_effect cfg remove b
      { g with hashTable := g.hashTable.takeBack remove }
    refine ⟨fun k => ?_, hdel.writeBuffer, hdel.removeUses, hdel.datastore, ?_, hdel.freeBlocks, ?_⟩
    · rw [hdel.hashTable]
      exact takeBack_d_get? hb hdue k
    · rw [deleteBlock_smallBlocks]
      simp [hdue]
    · rw [hdel.reclaimed, if_pos hdue]
  · obtain ⟨t, hrun, ht⟩ := collectHash_notDue cfg hb hdue
    rw [hrun]
    refine ⟨ht, rfl, rfl, rfl, ?_, rfl, ?_⟩
    · rw [if_neg fun h => hdue h.1]
    · rw [if_neg hdue, List.append_nil]

/-- Outside rocksdb, with one path for the small blocks, no round raises. -/
theorem collectHash_ok {cfg : Config} (hbackend : cfg.backend ≠ .rocksdb)
    (hpath : cfg.smallBlockDbPath = .path) {now : Time} {remove : H} {b : Block H} {g : Globals H}
    (hb : g.hashTable.d.get? remove = some b)
    (hplaced : (index? g.freeBlocks.length b.chunk).isSome) :
    (collectHash cfg now remove g).1 = .ok () := by
  by_cases hdue : due now b
  · rw [collectHash_due hb hdue]
    exact deleteBlock_ok hbackend hpath remove hplaced
  · obtain ⟨t, hrun, _⟩ := collectHash_notDue cfg hb hdue
    rw [hrun]

theorem collectLoop_empty (cfg : Config) (clock : Nat → Time) (n : Nat) {g : Globals H}
    (hq : g.removeUses = []) : collectLoop cfg clock n g = (.ok (), g) := by
  cases n with
  | zero => rfl
  | succ n =>
    change (match g.removeUses with
      | [] => (return () : Task H Unit)
      | remove :: rest => _) g = _
    rw [hq]
    rfl

theorem collectLoop_next (cfg : Config) (clock : Nat → Time) (n : Nat) {g : Globals H} {remove : H}
    {rest : List H} (hq : g.removeUses = remove :: rest) :
    collectLoop cfg clock (n + 1) g =
      (collectHash cfg (clock n) remove >>= fun _ => collectLoop cfg clock n)
        { g with removeUses := rest } := by
  change (match g.removeUses with
    | [] => (return () : Task H Unit)
    | remove :: rest => _) g = _
  rw [hq]
  rfl

/-- A pass ends with a commit of the table that its loop leaves, or it raised. -/
theorem garbageCollector_cases (cfg : Config) (clock : Nat → Time) (g : Globals H) :
    (∃ g₁, g₁ = (collectLoop cfg clock g.removeUses.length g).2 ∧
      garbageCollector cfg clock g = (.ok true, { g₁ with hashTable := g₁.hashTable.commit })) ∨
    ∃ e, garbageCollector cfg clock g =
      (.error e, (collectLoop cfg clock g.removeUses.length g).2) := by
  unfold garbageCollector
  show (∃ g₁, _ ∧ (Py.attempt (collectLoop cfg clock g.removeUses.length)
    (fun e => if e = .indexError then return () else Py.raise e) >>= _) g = _) ∨
    ∃ e, (Py.attempt (collectLoop cfg clock g.removeUses.length)
      (fun e => if e = .indexError then return () else Py.raise e) >>= _) g = _
  cases hr : collectLoop cfg clock g.removeUses.length g with
  | mk r g₁ =>
    cases r with
    | ok _ => exact .inl ⟨g₁, rfl, Py.run_bind_ok (Py.run_attempt_ok hr)⟩
    | error e =>
      have htry := Py.run_attempt_error
        (f := fun e => if e = PyError.indexError then return () else Py.raise e) hr
      by_cases he : e = .indexError
      · rw [if_pos he] at htry
        exact .inl ⟨g₁, rfl, Py.run_bind_ok htry⟩
      · rw [if_neg he] at htry
        exact .inr ⟨e, Py.run_bind_error htry⟩

/-- **Rule for passes**: an invariant that every round keeps, with the known hashes queued. -/
theorem garbageCollector_invariant (cfg : Config) (clock : Nat → Time) {I : Globals H → Prop}
    (hknown : ∀ g, I g → ∀ h ∈ g.removeUses, ∃ b, g.hashTable.d.get? h = some b)
    (hround : ∀ g g' now h rest b, I g → g.removeUses = h :: rest →
      g.hashTable.d.get? h = some b → Collected cfg now h b { g with removeUses := rest } g' → I g')
    (hcommit : ∀ g, I g → I { g with hashTable := g.hashTable.commit }) {g : Globals H} (h : I g) :
    I (garbageCollector cfg clock g).2 := by
  have hloop : ∀ n g, I g → I (collectLoop cfg clock n g).2 := by
    intro n
    induction n with
    | zero => exact fun g h => h
    | succ n ih =>
      intro g h
      cases hq : g.removeUses with
      | nil =>
        rw [collectLoop_empty cfg clock (n + 1) hq]
        exact h
      | cons remove rest =>
        obtain ⟨b, hb⟩ := hknown g h remove (by rw [hq]; exact List.mem_cons_self)
        have hI := hround g _ (clock n) remove rest b h hq hb
          (collectHash_effect cfg (clock n) (g := { g with removeUses := rest }) hb)
        rw [collectLoop_next cfg clock n hq]
        cases hr : collectHash cfg (clock n) remove { g with removeUses := rest } with
        | mk r g₁ =>
          rw [hr] at hI
          cases r with
          | error e =>
            rw [Py.run_bind_error hr]
            exact hI
          | ok _ =>
            rw [Py.run_bind_ok hr]
            exact ih g₁ hI
  have hpass := hloop g.removeUses.length g h
  rcases garbageCollector_cases cfg clock g with ⟨g₁, rfl, heq⟩ | ⟨e, heq⟩
  · rw [heq]
    exact hcommit _ hpass
  · rw [heq]
    exact hpass

/-! ## Usage -/

/-- What `get_usage` returns, without the compression rate. -/
structure Usage where
  undedupedUncompressed : Nat
  undedupedCompressed : Nat
  dedupedCompressed : Nat
  deriving DecidableEq, Repr

/-- The share of an entry in a total: nothing once it is flagged. -/
def counted {H : Type} (f : Block H → Nat) (b : Block H) : Nat := if b.DELETED then 0 else f b

/-- `get_usage`. -/
def getUsage (g : Globals H) : Usage where
  undedupedUncompressed := g.hashTable.d.total (counted fun b => b.uses.toNat * b.deflatedSize)
  undedupedCompressed := g.hashTable.d.total (counted fun b => b.uses.toNat * b.size)
  dedupedCompressed := g.hashTable.d.total (counted Block.size)

end VeratyFS
