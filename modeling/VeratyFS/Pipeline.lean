import VeratyFS.Dedup

/-!
# What the functions of the dedup pipeline do

One lemma for each function; later proofs use these and never unfold the functions.

* `updateIndexAdd_run`, `dedupChunk_known`, `dedupChunk_new` — the outcome as an equation.
* `commitBlock_spec` — a commit touches the stores only (`StoresOnly`); `Committed` says where the
  bytes went.
* `installBlock_run`, `writeNewBlock_idle`, `writeNewBlock_cases` — the writer.
-/

set_option autoImplicit false

namespace VeratyFS

open Pylib

variable {H : Type} [DecidableEq H] {cfg : Config} {P : Packages H} {g g' : Globals H}

/-! ## Dedup -/

theorem updateIndexAdd_run (idx : H) {b : Block H} (h : g.hashTable.getItem? idx = some b) :
    updateIndexAdd idx g =
      (.ok (), { g with hashTable := g.hashTable.setItem idx { b with uses := b.uses + 1 } }) := by
  change Py.andThen (Py.ofOption PyError.keyError (g.hashTable.getItem? idx)) _ g = _
  rw [h]
  rfl

/-- A chunk whose hash is in the table: one more use, and its bytes go into `read_cache`. -/
theorem dedupChunk_known {compress : Bytes → Bool × Bytes} {c : Bytes} {b : Block H}
    (h : g.hashTable.d.get? (P.xxh3_64 c) = some b) :
    dedupChunk P compress c g =
      (.ok ⟨P.xxh3_64 c, b.size, b.deflatedSize⟩,
        { g with
          readCache := g.readCache.set (P.xxh3_64 c) c
          hashTable := g.hashTable.setItem (P.xxh3_64 c) { b with uses := b.uses + 1 } }) := by
  have hrun := updateIndexAdd_run (P.xxh3_64 c)
    (g := { g with readCache := g.readCache.set (P.xxh3_64 c) c })
    (g.hashTable.getItem?_of_d h)
  have hstep : dedupChunk P compress c g = dedupKnown c (P.xxh3_64 c) b g := by
    unfold dedupChunk
    rw [Py.run_bind_ok (Py.run_read g), h]
  rw [hstep]
  change Py.andThen (updateIndexAdd (P.xxh3_64 c)) _ _ = _
  unfold Py.andThen
  rw [hrun]
  rfl

/-- A chunk whose hash is not in the table: cached, queued, and entered with a placeholder. -/
theorem dedupChunk_new {compress : Bytes → Bool × Bytes} {c : Bytes}
    (h : g.hashTable.d.get? (P.xxh3_64 c) = none) :
    dedupChunk P compress c g =
      (.ok ⟨P.xxh3_64 c, (compress c).2.length, c.length⟩,
        { g with
          writeReadCache := g.writeReadCache.set (P.xxh3_64 c) c
          writeBuffer := g.writeBuffer.append (queueItem P compress c)
          hashTable := g.hashTable.setItem (P.xxh3_64 c) (placeholder (queueItem P compress c)) }) := by
  unfold dedupChunk
  rw [Py.run_bind_ok (Py.run_read g), h]
  rfl

/-- `dedup` never raises: a hash that is in the table has an entry to count up. -/
theorem dedupChunks_total (compress : Bytes → Bool × Bytes) :
    ∀ (cs : List Bytes) (g : Globals H), ∃ bs g', dedupChunks P compress cs g = (.ok bs, g')
  | [], g => ⟨[], g, rfl⟩
  | c :: cs, g => by
    have hone : ∃ b g₁, dedupChunk P compress c g = (.ok b, g₁) := by
      cases hb : g.hashTable.d.get? (P.xxh3_64 c) with
      | some b => exact ⟨_, _, dedupChunk_known hb⟩
      | none => exact ⟨_, _, dedupChunk_new hb⟩
    obtain ⟨b, g₁, h₁⟩ := hone
    obtain ⟨bs, g₂, h₂⟩ := dedupChunks_total compress cs g₁
    refine ⟨b :: bs, g₂, ?_⟩
    rw [dedupChunks, Py.run_bind_ok h₁, Py.run_bind_ok h₂]
    rfl

theorem dedup_total (cfg : Config) (P : Packages H) (data : Bytes) (g : Globals H) :
    ∃ bs g', dedup cfg P data g = (.ok bs, g') := dedupChunks_total _ _ g

/-- Nothing but the table, the queue and the caches differs. -/
structure StoresKept (g g' : Globals H) : Prop where
  datastore : g'.datastore = g.datastore
  smallBlocks : g'.smallBlocks = g.smallBlocks
  freeBlocks : g'.freeBlocks = g.freeBlocks
  removeUses : g'.removeUses = g.removeUses
  reclaimed : g'.reclaimed = g.reclaimed

/-- **What one chunk of `dedup` does to the table and the queue**: a known hash gets one more use; a
new one gets a placeholder and is queued. -/
inductive Refers (h : H) (g g' : Globals H) : Prop
  | known (b : Block H) (entry : g.hashTable.d.get? h = some b)
      (table : ∀ k, g'.hashTable.d.get? k =
        if h = k then some { b with uses := b.uses + 1 } else g.hashTable.d.get? k)
      (queue : g'.writeBuffer.d = g.writeBuffer.d) (kept : StoresKept g g')
  | new (q : QueuedWrite H) (entry : g.hashTable.d.get? h = none) (hash : q.hash = h)
      (table : ∀ k, g'.hashTable.d.get? k =
        if h = k then some (placeholder q) else g.hashTable.d.get? k)
      (queue : g'.writeBuffer.d = g.writeBuffer.d ++ [q]) (kept : StoresKept g g')

theorem dedupChunk_refers (P : Packages H) (compress : Bytes → Bool × Bytes) (c : Bytes)
    (g : Globals H) :
    ∃ b g', dedupChunk P compress c g = (.ok b, g') ∧ b.hash = P.xxh3_64 c ∧
      Refers (P.xxh3_64 c) g g' := by
  cases hb : g.hashTable.d.get? (P.xxh3_64 c) with
  | some b =>
    exact ⟨_, _, dedupChunk_known hb, rfl, .known b hb (fun k => HashTable.setItem_d_get? _ _ _ _)
      rfl (by constructor <;> rfl)⟩
  | none =>
    exact ⟨_, _, dedupChunk_new hb, rfl, .new (queueItem P compress c) hb rfl
      (fun k => HashTable.setItem_d_get? _ _ _ _) rfl (by constructor <;> rfl)⟩

/-- An invariant of the list of hashes that `dedup` still has to list and has listed. -/
theorem dedupChunks_invariant (P : Packages H) (compress : Bytes → Bool × Bytes) (cs : List Bytes)
    (done : List H) {I : List H → Globals H → Prop} {g : Globals H} (h : I done g)
    (hstep : ∀ done c g g', c ∈ cs → I done g → Refers (P.xxh3_64 c) g g' →
      I (P.xxh3_64 c :: done) g') :
    ∃ bs g' done', dedupChunks P compress cs g = (.ok bs, g') ∧ I done' g' ∧
      done' = (bs.map FileBlock.hash).reverse ++ done ∧ bs.map FileBlock.hash = cs.map P.xxh3_64 := by
  induction cs generalizing g done with
  | nil => exact ⟨[], g, done, rfl, h, rfl, rfl⟩
  | cons c cs ih =>
    obtain ⟨b, g₁, hrun, hbh, href⟩ := dedupChunk_refers P compress c g
    obtain ⟨bs, g₂, done', hrest, hI, hd, hmap⟩ := ih _ (hstep done c g g₁ List.mem_cons_self h href)
      fun done x g g' hx => hstep done x g g' (List.mem_cons_of_mem _ hx)
    refine ⟨b :: bs, g₂, done', ?_, hI, ?_, ?_⟩
    · rw [dedupChunks, Py.run_bind_ok hrun, Py.run_bind_ok hrest]
      rfl
    · rw [hd, List.map_cons, List.reverse_cons, List.append_assoc, hbh]
      rfl
    · rw [List.map_cons, List.map_cons, hmap, hbh]

theorem dedup_rocksdb (hb : cfg.backend = .rocksdb) (data : Bytes) :
    dedup cfg P data = dedupChunks P (compressData P) (P.fastcdc data) := by
  simp [dedup, dedupPieces, hb]

/-! ## Dropping a reference -/

/-- Nothing but the read caches differs. -/
structure CachesOnly (g g' : Globals H) : Prop where
  hashTable : g'.hashTable = g.hashTable
  writeReadCache : g'.writeReadCache = g.writeReadCache
  writeBuffer : g'.writeBuffer = g.writeBuffer
  datastore : g'.datastore = g.datastore
  mirrorDatastore : g'.mirrorDatastore = g.mirrorDatastore
  smallBlocks : g'.smallBlocks = g.smallBlocks
  freeBlocks : g'.freeBlocks = g.freeBlocks
  fragmentation : g'.fragmentation = g.fragmentation
  removeUses : g'.removeUses = g.removeUses
  reclaimed : g'.reclaimed = g.reclaimed

omit [DecidableEq H] in
instance : Py.Frame (@CachesOnly H) := by
  refine ⟨fun s => ?_, fun h h' => ?_⟩
  · constructor <;> rfl
  · constructor
    · exact h'.hashTable.trans h.hashTable
    · exact h'.writeReadCache.trans h.writeReadCache
    · exact h'.writeBuffer.trans h.writeBuffer
    · exact h'.datastore.trans h.datastore
    · exact h'.mirrorDatastore.trans h.mirrorDatastore
    · exact h'.smallBlocks.trans h.smallBlocks
    · exact h'.freeBlocks.trans h.freeBlocks
    · exact h'.fragmentation.trans h.fragmentation
    · exact h'.removeUses.trans h.removeUses
    · exact h'.reclaimed.trans h.reclaimed

omit [DecidableEq H] in
theorem CachesOnly.update (g : Globals H) (rc : LRU H Bytes) (sc : LRU H (Option Bytes)) :
    CachesOnly g { g with readCache := rc, smallBlockReadCache := sc } := by
  constructor <;> rfl

/-- **What `update_index(add=False)` does to a known hash**: the entry is flagged, whatever its
counter, and the collector is asked to take a use back. -/
structure Dropped (now : Time) (h : H) (b : Block H) (g g' : Globals H) : Prop where
  table : ∀ k, g'.hashTable.d.get? k =
    if h = k then some { b with DELETED := true, DELETION_TIME := some now }
    else g.hashTable.d.get? k
  removeUses : g'.removeUses = g.removeUses ++ [h]
  freeBlocks : g'.freeBlocks.length = g.freeBlocks.length
  writeBuffer : g'.writeBuffer = g.writeBuffer
  datastore : g'.datastore = g.datastore
  smallBlocks : g'.smallBlocks = g.smallBlocks
  reclaimed : g'.reclaimed = g.reclaimed

omit [DecidableEq H] in
theorem insertExtent_eq {b : Block H} {fb : List IOBTree} {tree : IOBTree}
    (h : getAt? fb b.chunk = some tree) :
    insertExtent b fb = (.ok (), setAt fb b.chunk (tree.insert b.size [b.offset])) := by
  unfold insertExtent
  change (Py.ofOption PyError.indexError (getAt? fb b.chunk) >>= _) fb = _
  rw [h]
  rfl

omit [DecidableEq H] in
theorem insertExtent_run {b : Block H} {fb : List IOBTree}
    (h : (index? fb.length b.chunk).isSome) :
    ∃ fb', insertExtent b fb = (.ok (), fb') ∧ fb'.length = fb.length := by
  obtain ⟨tree, ht⟩ := Option.isSome_iff_exists.mp (getAt?_isSome h)
  exact ⟨_, insertExtent_eq ht, length_setAt _ _ _⟩

/-- A drop as an equation: the extent goes to a free list, the entry is flagged. -/
theorem updateIndexRemove_insert (cfg : Config) (now : Time) {h : H} {b : Block H} {tree : IOBTree}
    (hb : g.hashTable.d.get? h = some b) (ht : getAt? g.freeBlocks b.chunk = some tree) :
    updateIndexRemove cfg now h g = (.ok (), uncache cfg h b (flagDeleted now h b
      { g with freeBlocks := setAt g.freeBlocks b.chunk (tree.insert b.size [b.offset]) })) := by
  have hzoom : Globals.onFreeBlocks (insertExtent b) g =
      (.ok (), { g with freeBlocks := setAt g.freeBlocks b.chunk (tree.insert b.size [b.offset]) }) :=
    Py.run_zoom (insertExtent_eq ht)
  have hget : Py.ofOption PyError.keyError (g.hashTable.getItem? h) g = (.ok b, g) := by
    rw [HashTable.getItem?_of_d _ hb]
    rfl
  refine Py.run_attempt_ok ?_
  refine (congrFun (if_pos ((Dict.contains_iff _).mpr ⟨b, hb⟩)) g).trans ?_
  refine (Py.run_bind_ok hget).trans ?_
  refine (congrFun (if_pos (by omega)) g).trans ?_
  exact Py.run_bind_ok hzoom

theorem updateIndexRemove_eq (cfg : Config) (now : Time) {h : H} {b : Block H}
    (hb : g.hashTable.d.get? h = some b) (hplaced : (index? g.freeBlocks.length b.chunk).isSome) :
    ∃ fb', fb'.length = g.freeBlocks.length ∧ updateIndexRemove cfg now h g =
      (.ok (), uncache cfg h b (flagDeleted now h b { g with freeBlocks := fb' })) := by
  obtain ⟨tree, ht⟩ := Option.isSome_iff_exists.mp (getAt?_isSome hplaced)
  exact ⟨_, length_setAt _ _ _, updateIndexRemove_insert cfg now hb ht⟩

/-- `uncache` touches the read caches only. -/
theorem uncache_keeps (cfg : Config) (h : H) (b : Block H) (g : Globals H) :
    CachesOnly g (uncache cfg h b g) := by
  unfold uncache
  split
  · exact .update ..
  · exact .update ..

theorem flagged_dropped (cfg : Config) (now : Time) (h : H) (b : Block H) {fb' : List IOBTree}
    (hlen : fb'.length = g.freeBlocks.length) :
    Dropped now h b g (uncache cfg h b (flagDeleted now h b { g with freeBlocks := fb' })) := by
  have hc := uncache_keeps cfg h b (flagDeleted now h b { g with freeBlocks := fb' })
  refine ⟨fun k => ?_, hc.removeUses, ?_, hc.writeBuffer, hc.datastore, hc.smallBlocks, hc.reclaimed⟩
  · rw [hc.hashTable]
    exact HashTable.setItem_d_get? _ _ _ _
  · rw [hc.freeBlocks]
    exact hlen

theorem updateIndexRemove_run (cfg : Config) (now : Time) {h : H} {b : Block H}
    (hb : g.hashTable.d.get? h = some b) (hplaced : (index? g.freeBlocks.length b.chunk).isSome) :
    ∃ g', updateIndexRemove cfg now h g = (.ok (), g') ∧ Dropped now h b g g' := by
  obtain ⟨fb', hlen, hrun⟩ := updateIndexRemove_eq cfg now hb hplaced
  exact ⟨_, hrun, flagged_dropped cfg now h b hlen⟩

/-- A drop of an unknown hash changes nothing. -/
theorem updateIndexRemove_unknown (cfg : Config) (now : Time) {h : H}
    (hb : g.hashTable.d.get? h = none) : updateIndexRemove cfg now h g = (.ok (), g) := by
  have hno : ¬ g.hashTable.contains h = true := fun hc => by
    obtain ⟨b, hb'⟩ := (Dict.contains_iff _).mp hc
    rw [hb] at hb'
    cases hb'
  exact Py.run_attempt_ok (congrFun (if_neg hno) g)

/-- A drop of an unknown hash, or of one whose chunk has no free list, changes nothing. -/
theorem updateIndexRemove_state (cfg : Config) (now : Time) (h : H) (g : Globals H) :
    (updateIndexRemove cfg now h g).2 = g ∨
      ∃ b tree, g.hashTable.d.get? h = some b ∧ getAt? g.freeBlocks b.chunk = some tree ∧
        (updateIndexRemove cfg now h g).2 = uncache cfg h b (flagDeleted now h b
          { g with freeBlocks := setAt g.freeBlocks b.chunk (tree.insert b.size [b.offset]) }) := by
  cases hb : g.hashTable.d.get? h with
  | none => exact .inl (congrArg Prod.snd (updateIndexRemove_unknown cfg now hb))
  | some b =>
    cases hat : getAt? g.freeBlocks b.chunk with
    | some tree =>
      exact .inr ⟨b, tree, rfl, hat, congrArg Prod.snd (updateIndexRemove_insert cfg now hb hat)⟩
    | none =>
      have hins : insertExtent b g.freeBlocks = (.error .indexError, g.freeBlocks) := by
        unfold insertExtent
        change (Py.ofOption PyError.indexError (getAt? g.freeBlocks b.chunk) >>= _) g.freeBlocks = _
        rw [hat]
        rfl
      have hzoom : Globals.onFreeBlocks (insertExtent b) g = (.error .indexError, g) :=
        Py.run_zoom hins
      have hget : Py.ofOption PyError.keyError (g.hashTable.getItem? h) g = (.ok b, g) := by
        rw [HashTable.getItem?_of_d _ hb]
        rfl
      have hrun : updateIndexRemove cfg now h g = (.error .ioError, g) := by
        refine (Py.run_attempt_error (e := .indexError) (t := g) ?_).trans rfl
        refine (congrFun (if_pos ((Dict.contains_iff _).mpr ⟨b, hb⟩)) g).trans ?_
        refine (Py.run_bind_ok hget).trans ?_
        refine (congrFun (if_pos (by omega)) g).trans ?_
        exact Py.run_bind_error hzoom
      exact .inl (congrArg Prod.snd hrun)

theorem updateIndexRemove_outcome (cfg : Config) (now : Time) (h : H) (g : Globals H) :
    (updateIndexRemove cfg now h g).2 = g ∨
      ∃ b fb', g.hashTable.d.get? h = some b ∧ fb'.length = g.freeBlocks.length ∧
        (updateIndexRemove cfg now h g).2 =
          uncache cfg h b (flagDeleted now h b { g with freeBlocks := fb' }) := by
  rcases updateIndexRemove_state cfg now h g with hsame | ⟨b, tree, hb, _, hrun⟩
  · exact .inl hsame
  · exact .inr ⟨b, _, hb, length_setAt _ _ _, hrun⟩

theorem updateIndexRemove_cases (cfg : Config) (now : Time) (h : H) (g : Globals H) :
    (updateIndexRemove cfg now h g).2 = g ∨
      ∃ b, g.hashTable.d.get? h = some b ∧ Dropped now h b g (updateIndexRemove cfg now h g).2 := by
  rcases updateIndexRemove_outcome cfg now h g with hsame | ⟨b, fb', hb, hlen, hrun⟩
  · exact .inl hsame
  · rw [hrun]
    exact .inr ⟨b, hb, flagged_dropped cfg now h b hlen⟩

/-! ## The writer -/

/-- Nothing but the stores differs. -/
structure StoresOnly (g g' : Globals H) : Prop where
  hashTable : g'.hashTable = g.hashTable
  readCache : g'.readCache = g.readCache
  smallBlockReadCache : g'.smallBlockReadCache = g.smallBlockReadCache
  writeReadCache : g'.writeReadCache = g.writeReadCache
  writeBuffer : g'.writeBuffer = g.writeBuffer
  freeBlocks : g'.freeBlocks = g.freeBlocks
  fragmentation : g'.fragmentation = g.fragmentation
  removeUses : g'.removeUses = g.removeUses
  reclaimed : g'.reclaimed = g.reclaimed
  chunks : g'.datastore.map DataStore.chunk = g.datastore.map DataStore.chunk

omit [DecidableEq H] in
theorem StoresOnly.update {g : Globals H} {ds mds : List (DataStore H)} {smbs : Dict H Bytes}
    (h : ds.map DataStore.chunk = g.datastore.map DataStore.chunk) :
    StoresOnly g { g with datastore := ds, mirrorDatastore := mds, smallBlocks := smbs } := by
  constructor <;> first | exact h | rfl

/-- Where a commit that succeeds puts the bytes, and what it reports. -/
inductive Committed (cfg : Config) (q : QueuedWrite H) (g : Globals H) :
    QueuedWrite H → Globals H → Prop
  | smallBlock {g' : Globals H} (small : isSmallBlock cfg q) (path : cfg.smallBlockDbPath = .path)
      (state : g' = { g with smallBlocks := g.smallBlocks.set q.hash q.payload }) :
      Committed cfg q g { q with chunk := -1, block := -1 } g'
  | datastore {g' : Globals H} {store : Nat} {chunk block : Int} (rocksdb : cfg.backend = .rocksdb)
      (put : PutRecord g.datastore g'.datastore store q.hash q.payload)
      (named : (g.datastore.map DataStore.chunk)[store]? = some chunk)
      (smallBlocks : g'.smallBlocks = g.smallBlocks) :
      Committed cfg q g { q with chunk := chunk, block := block } g'

theorem Committed.exists_location {q q' : QueuedWrite H} (h : Committed cfg q g q' g') :
    ∃ chunk block, q' = { q with chunk := chunk, block := block } := by
  cases h with
  | smallBlock => exact ⟨_, _, rfl⟩
  | datastore => exact ⟨_, _, rfl⟩

theorem rocksdbCommit_spec (cfg : Config) (env : CommitEnv) (q : QueuedWrite H) (g : Globals H)
    (hb : cfg.backend = .rocksdb) :
    (rocksdbCommit cfg env q).wp
      (Py.post (fun q' g' => StoresOnly g g' ∧ Committed cfg q g q' g')
        (fun _ g' => StoresOnly g g')) g := by
  unfold rocksdbCommit
  rw [Py.wp_bind]
  refine (Py.wp_zoom).mpr (Py.wp_mono
    (writeData_spec cfg.writeSpread env.primary q q.payload false g.datastore) fun r ds hr => ?_)
  cases r with
  | error e => exact .update hr.chunks
  | ok q₁ =>
    obtain ⟨store, chunk, block, hput, hchunk, rfl⟩ := hr
    rw [Py.post_ok]
    split
    · refine (Py.wp_zoom).mpr (Py.wp_mono
        (writeData_spec cfg.writeSpread env.mirror _ _ true _) fun r' mds hr' => ?_)
      cases r' with
      | error e => exact .update hput.chunks
      | ok q₂ =>
        obtain ⟨_, _, _, _, _, rfl⟩ := hr'
        exact ⟨.update hput.chunks, .datastore hb hput hchunk rfl⟩
    · exact ⟨.update hput.chunks, .datastore hb hput hchunk rfl⟩

/-- **A commit touches the stores only; one that succeeds puts the bytes where `Committed` says.** -/
theorem commitBlock_spec (cfg : Config) (env : CommitEnv) (q : QueuedWrite H) (g : Globals H) :
    (commitBlock cfg env q).wp
      (Py.post (fun q' g' => StoresOnly g g' ∧ Committed cfg q g q' g')
        (fun _ g' => StoresOnly g g')) g := by
  unfold commitBlock
  split
  · rename_i hs
    rw [Py.wp_bind]
    unfold Globals.onSmallBlocks writeSmallBlock openSmallBlockDb
    cases hp : cfg.smallBlockDbPath with
    | list => exact .update rfl
    | path => exact ⟨.update rfl, .smallBlock hs hp rfl⟩
  · rw [Py.wp_attempt]
    unfold commitData
    cases hb : cfg.backend with
    | rocksdb =>
      refine Py.wp_mono (rocksdbCommit_spec cfg env q g hb) fun r g' hr => ?_
      cases r with
      | error e => exact hr
      | ok q' => exact hr
    | mmap => exact .update rfl
    | unset => exact .update rfl

/-- The state after the memory half of an iteration. -/
def installed (cfg : Config) (q : QueuedWrite H) (g : Globals H) : Globals H :=
  { g with
    writeReadCache := g.writeReadCache.erase q.hash
    hashTable := (g.hashTable.setItem q.hash (committedEntry q)).setItem q.hash
      { committedEntry q with uses := 1 }
    smallBlockReadCache :=
      if q.compressedData.length ≤ cfg.smallBlockLimit then
        g.smallBlockReadCache.set q.hash (some q.data)
      else g.smallBlockReadCache }

theorem installBlock_run (cfg : Config) (q : QueuedWrite H) (g : Globals H) :
    installBlock cfg q g = (.ok (), installed cfg q g) := by
  have hrun := updateIndexAdd_run q.hash
    (g := { g with
      writeReadCache := g.writeReadCache.erase q.hash
      hashTable := g.hashTable.setItem q.hash (committedEntry q) })
    (b := committedEntry q)
    (HashTable.getItem?_of_d _ (by simp))
  change Py.andThen (updateIndexAdd q.hash) _ _ = _
  unfold Py.andThen installed
  rw [hrun]
  by_cases h : q.compressedData.length ≤ cfg.smallBlockLimit
  · simp only [h, ite_true]
    rfl
  · simp only [h, ite_false]
    rfl

theorem writeNewBlock_idle {env : CommitEnv} (h : g.writeBuffer.popleft = none) :
    writeNewBlock cfg env g = (.ok (), g) := by
  unfold writeNewBlock
  rw [Py.run_bind_ok (Py.run_read g), h]
  rfl

section Next

variable {env : CommitEnv} {q q' : QueuedWrite H} {rest : WriteCache (QueuedWrite H)} {e : PyError}
  (hp : g.writeBuffer.popleft = some (q, rest))
include hp

theorem commitsHead_eq_true (hc : commitBlock cfg env q { g with writeBuffer := rest } = (.ok q', g')) :
    commitsHead cfg env g = true := by
  unfold commitsHead
  rw [hp]
  dsimp only
  rw [hc]

theorem commitsHead_eq_false
    (hc : commitBlock cfg env q { g with writeBuffer := rest } = (.error e, g')) :
    commitsHead cfg env g = false := by
  unfold commitsHead
  rw [hp]
  dsimp only
  rw [hc]

theorem writeNewBlock_next :
    writeNewBlock cfg env g =
      Py.attempt (do installBlock cfg (← commitBlock cfg env q))
        (fun e => if e = .keyError then Py.raise (.fuseError .ENOSPC) else Py.ret ())
        { g with writeBuffer := rest } := by
  unfold writeNewBlock
  rw [Py.run_bind_ok (Py.run_read g), hp]
  rfl

/-- A commit that succeeds is installed. -/
theorem writeNewBlock_committed
    (hc : commitBlock cfg env q { g with writeBuffer := rest } = (.ok q', g')) :
    (writeNewBlock cfg env g).2 = installed cfg q' g' := by
  have hrun := (Py.run_bind_ok (f := installBlock cfg) hc).trans (installBlock_run cfg q' g')
  rw [writeNewBlock_next hp, Py.run_attempt_ok hrun]

/-- A block whose commit fails is gone. -/
theorem writeNewBlock_failed
    (hc : commitBlock cfg env q { g with writeBuffer := rest } = (.error e, g')) :
    (writeNewBlock cfg env g).2 = g' := by
  have hrun := Py.run_bind_error (f := installBlock cfg) hc
  rw [writeNewBlock_next hp, Py.run_attempt_error hrun]
  split <;> rfl

end Next

/-- **One iteration of the writer**: an idle round; or the head of the queue is taken and, when its
commit succeeds, installed; when it fails, the block is gone and only the stores differ. -/
theorem writeNewBlock_cases (cfg : Config) (env : CommitEnv) (g : Globals H) :
    (g.writeBuffer.d = [] ∧ (writeNewBlock cfg env g).2 = g) ∨
    ∃ q rest, g.writeBuffer.d = q :: rest.d ∧
      ((∃ q' g₁, commitsHead cfg env g = true ∧
        StoresOnly { g with writeBuffer := rest } g₁ ∧
        Committed cfg q { g with writeBuffer := rest } q' g₁ ∧
        (writeNewBlock cfg env g).2 = installed cfg q' g₁) ∨
      (commitsHead cfg env g = false ∧
        StoresOnly { g with writeBuffer := rest } (writeNewBlock cfg env g).2)) := by
  cases hp : g.writeBuffer.popleft with
  | none =>
    refine .inl ⟨?_, congrArg Prod.snd (writeNewBlock_idle hp)⟩
    unfold WriteCache.popleft at hp
    split at hp
    · assumption
    · cases hp
  | some p =>
    obtain ⟨q, rest⟩ := p
    refine .inr ⟨q, rest, (WriteCache.popleft_eq_some hp).1, ?_⟩
    have hspec := commitBlock_spec cfg env q { g with writeBuffer := rest }
    unfold Py.wp at hspec
    cases hc : commitBlock cfg env q { g with writeBuffer := rest } with
    | mk r g₁ =>
      rw [hc] at hspec
      cases r with
      | error e =>
        refine .inr ⟨commitsHead_eq_false hp hc, ?_⟩
        rw [writeNewBlock_failed hp hc]
        exact hspec
      | ok q' =>
        exact .inl ⟨q', g₁, commitsHead_eq_true hp hc, hspec.1, hspec.2,
          writeNewBlock_committed hp hc⟩

/-- **What an iteration of the writer does to the table and the queue.** -/
inductive WriterEffect (cfg : Config) (env : CommitEnv) (g g' : Globals H) : Prop
  | idle (queue : g.writeBuffer.d = []) (same : g' = g)
  | lost (q : QueuedWrite H) (queue : g.writeBuffer.d = q :: g'.writeBuffer.d)
      (failed : commitsHead cfg env g = false) (table : g'.hashTable = g.hashTable)
      (stores : StoresOnly { g with writeBuffer := g'.writeBuffer } g')
  | installed (q : QueuedWrite H) (b : Block H) (queue : g.writeBuffer.d = q :: g'.writeBuffer.d)
      (committed : commitsHead cfg env g = true)
      (table : ∀ k, g'.hashTable.d.get? k = if q.hash = k then some b else g.hashTable.d.get? k)
      (uses : b.uses = 1) (flag : b.DELETED = false) (time : b.DELETION_TIME = none)
      (size : b.size = q.compressedData.length)
      (chunk : b.chunk = -1 ∨
        ∃ j : Nat, (g.datastore.map DataStore.chunk)[j]? = some b.chunk)
      (chunks : g'.datastore.map DataStore.chunk = g.datastore.map DataStore.chunk)
      (freeBlocks : g'.freeBlocks = g.freeBlocks) (removeUses : g'.removeUses = g.removeUses)
      (reclaimed : g'.reclaimed = g.reclaimed)

theorem writeNewBlock_effect (cfg : Config) (env : CommitEnv) (g : Globals H) :
    WriterEffect cfg env g (writeNewBlock cfg env g).2 := by
  rcases writeNewBlock_cases cfg env g with
    ⟨hd, hidle⟩ | ⟨q, rest, hd, ⟨q', g₁, hok, hs, hc, hrun⟩ | ⟨hno, hs⟩⟩
  · exact .idle hd hidle
  · rw [hrun]
    obtain ⟨chunk, block, rfl⟩ := hc.exists_location
    refine .installed q { committedEntry { q with chunk := chunk, block := block } with uses := 1 }
      ?_ hok (fun k => ?_) rfl rfl rfl rfl ?_ hs.chunks hs.freeBlocks hs.removeUses hs.reclaimed
    · change g.writeBuffer.d = q :: g₁.writeBuffer.d
      rw [hs.writeBuffer]
      exact hd
    · unfold installed
      dsimp only
      rw [HashTable.setItem_d_get?]
      split
      · rfl
      · rename_i hk
        rw [HashTable.setItem_d_get?, if_neg hk, hs.hashTable]
    · change chunk = -1 ∨ ∃ j : Nat, (g.datastore.map DataStore.chunk)[j]? = some chunk
      cases hc with
      | smallBlock => exact .inl rfl
      | @datastore _ store _ _ _ _ named => exact .inr ⟨store, named⟩
  · refine .lost q ?_ hno hs.hashTable ?_
    · rw [hs.writeBuffer]
      exact hd
    · rw [hs.writeBuffer]
      exact hs

/-! ## The reader -/

theorem cachedBlock_keeps (b : FileBlock H) : Py.Keeps CachesOnly (cachedBlock b) := by
  refine Py.keeps_bind (Py.keeps_read) fun g => ?_
  split
  · split
    · exact Py.keeps_bind (Py.keeps_modify fun s => .update ..) fun _ => Py.keeps_pure _
    · exact Py.keeps_pure _
  · exact Py.keeps_pure _

theorem readSmallBlock_keeps (cfg : Config) (h : H) : Py.Keeps (· = ·) (readSmallBlock cfg h) := by
  intro s
  unfold readSmallBlock openSmallBlockDb
  cases cfg.smallBlockDbPath <;> rfl

theorem readSmall_keeps (cfg : Config) (P : Packages H) (b : FileBlock H) :
    Py.Keeps CachesOnly (readSmall cfg P b) := by
  refine Py.keeps_attempt ?_ fun _ => Py.keeps_raise _
  have hread : Py.Keeps CachesOnly (Globals.onSmallBlocks (readSmallBlock cfg b.hash)) :=
    Py.keeps_zoom (readSmallBlock_keeps cfg b.hash) fun s t h => by
      subst h
      exact .update ..
  refine Py.keeps_bind hread fun d => ?_
  refine Py.keeps_bind (Py.keeps_read) fun g => ?_
  refine Py.keeps_bind (Py.keeps_ofOption _ _) fun e => ?_
  have hstore : ∀ d, Py.Keeps CachesOnly (do
      Py.modify fun g => { g with smallBlockReadCache := g.smallBlockReadCache.set b.hash d }
      return d : Task H (Option Bytes)) := fun d =>
    Py.keeps_bind (Py.keeps_modify fun s => .update ..) fun _ => Py.keeps_pure _
  dsimp only
  split
  · exact Py.keeps_bind (Py.keeps_ofOption _ _) fun d => Py.keeps_bind (Py.keeps_pure _) hstore
  · exact Py.keeps_bind (Py.keeps_pure _) hstore

theorem readStored_keeps (cfg : Config) (P : Packages H) (b : FileBlock H) :
    Py.Keeps CachesOnly (readStored cfg P b) :=
  Py.keeps_bind (Py.keeps_read) fun _ =>
    Py.keeps_bind (Py.keeps_ofOption _ _) fun _ =>
      Py.keeps_bind (Py.keeps_ofOption _ _) fun _ => Py.keeps_pure _

theorem fetchStored_keeps (cfg : Config) (P : Packages H) (b : FileBlock H) :
    Py.Keeps CachesOnly (fetchStored cfg P b) := by
  have hstored : Py.Keeps CachesOnly (do
      let d ← readStored cfg P b
      return Fetched.bytes d) :=
    Py.keeps_bind (readStored_keeps cfg P b) fun _ => Py.keeps_pure _
  refine Py.keeps_attempt hstored fun err => ?_
  split
  · refine Py.keeps_bind Py.keeps_read fun g => ?_
    split
    · exact Py.keeps_pure _
    · exact hstored
  · exact Py.keeps_raise _

theorem fetchUncached_keeps (cfg : Config) (P : Packages H) (b : FileBlock H) :
    Py.Keeps CachesOnly (fetchUncached cfg P b) := by
  refine Py.keeps_bind Py.keeps_read fun g => ?_
  refine Py.keeps_bind (Py.keeps_ofOption _ _) fun e => ?_
  dsimp only
  split
  · refine Py.keeps_bind (readSmall_keeps cfg P b) fun d => ?_
    cases d with
    | some d => exact Py.keeps_pure _
    | none => exact fetchStored_keeps cfg P b
  · exact Py.keeps_bind (Py.keeps_pure none) fun d => by
      cases d with
      | some d => exact Py.keeps_pure _
      | none => exact fetchStored_keeps cfg P b

theorem fetchBlock_keeps (cfg : Config) (P : Packages H) (b : FileBlock H) :
    Py.Keeps CachesOnly (fetchBlock cfg P b) := by
  refine Py.keeps_bind (cachedBlock_keeps b) fun o => ?_
  cases o with
  | some d => exact Py.keeps_pure _
  | none => exact fetchUncached_keeps cfg P b

theorem readBlocks_keeps (cfg : Config) (P : Packages H) :
    ∀ (bs : List (FileBlock H)) (data : Bytes), Py.Keeps CachesOnly (readBlocks cfg P bs data)
  | [], _ => Py.keeps_pure _
  | b :: bs, data => by
    rw [readBlocks]
    refine Py.keeps_bind (fetchBlock_keeps cfg P b) fun r => ?_
    split
    · exact Py.keeps_pure _
    · exact Py.keeps_raise _
    · split
      · exact Py.keeps_bind (Py.keeps_modify fun s => .update ..) fun _ =>
          readBlocks_keeps cfg P bs _
      · exact Py.keeps_raise _

/-- **A read changes nothing but the read caches.** -/
theorem getFileData_keeps (cfg : Config) (P : Packages H) (blklst : List (FileBlock H))
    (startBlock endBlock : Int) :
    Py.Keeps CachesOnly (getFileData cfg P blklst startBlock endBlock) :=
  readBlocks_keeps cfg P _ _

end VeratyFS
