import VeratyFS.Availability
import VeratyFS.Crashes
import VeratyFS.Lib.WriteBack

/-!
# The backlog of the writers

What every run with the rocksdb backend keeps of the module state, whatever the read caches hold.

* `Regular` — the queue, what the writers have in hand, `write_read_cache` and the table go together;
  no entry names the small blocks; the entries in memory are the pending ones over the stored ones, up
  to counters and flags.
* `regular_calls` — every call keeps it, whatever it raises.
* `WriterStep`, `WriterAt.exec_step` — what an operation of a writer does; `Regular.pop`,
  `Regular.putBlock`, `Regular.putReplica`, `Regular.install` — those of a commit that succeeds.
* `Remarked` — what the rounds of the collector do: counters and flags in place, and cache entries
  lost; `collectNext` — a round, or the commit at the end of a pass.
* `Regular.commit`, `Regular.mounted` — a commit of the table, and a mount of a committed one.
-/

set_option autoImplicit false

namespace VeratyFS

open Pylib

variable {H : Type} [DecidableEq H] {cfg : Config} {P : Packages H} {g g' : Globals H}
variable {ws ws' : List (WriterAt H)}

/-- The stored bytes of a queued block give its data back. -/
def QueuedWrite.Unpacks {H : Type} (P : Packages H) (q : QueuedWrite H) : Prop :=
  (if q.compressed then decompressData P q.payload else q.payload) = q.data

omit [DecidableEq H] in
theorem queueItem_unpacks (hP : P.Lawful) (c : Bytes) :
    (queueItem P (compressData P) c).Unpacks P := by
  have hdec := decompressData_compressData hP c
  unfold QueuedWrite.Unpacks QueuedWrite.payload queueItem
  dsimp only
  split
  · rename_i h
    rwa [if_pos h] at hdec
  · rfl

omit [DecidableEq H] in
/-- Both forms in which `dedup` queues a chunk unpack. -/
theorem dedupPieces_unpacks (hP : P.Lawful) (cfg : Config) (data c : Bytes) :
    (queueItem P (dedupPieces cfg P data).2 c).Unpacks P := by
  unfold dedupPieces
  split
  · rfl
  · exact queueItem_unpacks hP c

/-- An entry of a dictionary of the table, without its counter and its flag. -/
def located (d : Dict H (Block H)) (h : H) : Option (Block H) := (d.get? h).map Block.stripped

/-- The block that a writer has put in a store and not entered into the table yet. -/
def WriterAt.stored? {H : Type} : WriterAt H → Option (QueuedWrite H)
  | .replicate q => some q
  | .install q => some q
  | _ => none

/-- The blocks that the writers work on, and those in the queue. -/
def waiting (ws : List (WriterAt H)) (g : Globals H) : List (QueuedWrite H) :=
  ws.filterMap WriterAt.item? ++ g.writeBuffer.d

/-- The store that the block names has its bytes. -/
def PutAt (g : Globals H) (q : QueuedWrite H) : Prop :=
  ∃ store : Nat, (g.datastore.map DataStore.chunk)[store]? = some q.chunk ∧
    stored g.datastore store q.hash = some q.payload

structure Regular (P : Packages H) (ws : List (WriterAt H)) (g : Globals H) : Prop where
  unpacks : ∀ q ∈ waiting ws g, q.Unpacks P
  cached : ∀ q ∈ waiting ws g, g.writeReadCache.get? q.hash = some q.data
  known : ∀ q ∈ waiting ws g,
    ∃ b, g.hashTable.d.get? q.hash = some b ∧ b.compressed = q.compressed
  distinct : ((waiting ws g).map QueuedWrite.hash).Nodup
  unwritten : ∀ h d, g.writeReadCache.get? h = some d → ∃ q ∈ waiting ws g, q.hash = h
  put : ∀ w ∈ ws, ∀ q, w.stored? = some q → PutAt g q
  notSmall : ∀ h b, g.hashTable.d.get? h = some b → b.chunk ≠ -1
  numbered : Numbered g.datastore
  backed : Overlay (located g.hashTable.d) (located g.hashTable.pending) (located g.hashTable.ht)

omit [DecidableEq H] in
theorem waiting_congr (hqueue : g'.writeBuffer = g.writeBuffer) : waiting ws g' = waiting ws g := by
  unfold waiting
  rw [hqueue]

theorem PutAt.congr {q : QueuedWrite H} (hds : g'.datastore = g.datastore) (h : PutAt g q) :
    PutAt g' q := by
  unfold PutAt
  rw [hds]
  exact h

/-! ## Lookups -/

theorem located_set (d : Dict H (Block H)) (k h : H) (b : Block H) :
    located (d.set k b) h = if k = h then some b.stripped else located d h := by
  unfold located
  rw [Dict.get?_set]
  split <;> rfl

/-- A change in place of counters and flags. -/
theorem located_modify {f : Block H → Block H} (hf : ∀ b, (f b).stripped = b.stripped)
    (d : Dict H (Block H)) (k h : H) : located (d.modify k f) h = located d h := by
  unfold located
  rw [Dict.get?_modify]
  split
  · cases d.get? h with
    | none => rfl
    | some b => exact congrArg some (hf b)
  · rfl

theorem located_some {d d' : Dict H (Block H)} {h : H} {b : Block H}
    (hd : located d' h = located d h) (hb : d'.get? h = some b) :
    ∃ e, d.get? h = some e ∧ b.stripped = e.stripped := by
  unfold located at hd
  rw [hb] at hd
  obtain ⟨e, he, heq⟩ := Option.map_eq_some_iff.mp hd.symm
  exact ⟨e, he, heq.symm⟩

/-- A pending hash is in the dictionary, so that a lookup need not look for it. -/
theorem Regular.getItem? (hg : Regular P ws g) (h : H) :
    g.hashTable.getItem? h = g.hashTable.d.get? h := by
  unfold HashTable.getItem?
  cases hd : g.hashTable.d.get? h with
  | some b => rfl
  | none =>
    have hback := hg.backed h
    unfold located at hback
    rw [hd] at hback
    cases hp : g.hashTable.pending.get? h with
    | none => rfl
    | some b =>
      rw [hp] at hback
      cases hback

/-! ## Calls -/

/-- An entry is set that says the same of the bytes. -/
theorem Regular.setEntry (hg : Regular P ws g) {k : H} {b e : Block H}
    (hb : g.hashTable.d.get? k = some b) (he : e.stripped = b.stripped)
    (htable : g'.hashTable = g.hashTable.setItem k e) (hqueue : g'.writeBuffer = g.writeBuffer)
    (hcache : g'.writeReadCache = g.writeReadCache) (hds : g'.datastore = g.datastore) :
    Regular P ws g' where
  unpacks := by rw [waiting_congr hqueue]; exact hg.unpacks
  cached := by rw [waiting_congr hqueue, hcache]; exact hg.cached
  known q hq := by
    rw [waiting_congr hqueue] at hq
    obtain ⟨x, hx, hcompressed⟩ := hg.known q hq
    rw [htable, HashTable.setItem_d_get?]
    split
    · rename_i hk
      rw [← hk, hb] at hx
      cases hx
      exact ⟨e, rfl, (congrArg (·.compressed) he).trans hcompressed⟩
    · exact ⟨x, hx, hcompressed⟩
  distinct := by rw [waiting_congr hqueue]; exact hg.distinct
  unwritten := by rw [waiting_congr hqueue, hcache]; exact hg.unwritten
  put w hw q hq := (hg.put w hw q hq).congr hds
  notSmall h x hx := by
    rw [htable, HashTable.setItem_d_get?] at hx
    split at hx
    · cases hx
      have hchunk : e.chunk = b.chunk := congrArg (·.chunk) he
      rw [hchunk]
      exact hg.notSmall k b hb
    · exact hg.notSmall h x hx
  numbered := by rw [hds]; exact hg.numbered
  backed := by
    rw [htable]
    exact hg.backed.set (located_set _ k · e) (located_set _ k · e)

theorem Regular.caches (hg : Regular P ws g) (hc : CachesOnly g g') : Regular P ws g' where
  unpacks := by rw [waiting_congr hc.writeBuffer]; exact hg.unpacks
  cached := by rw [waiting_congr hc.writeBuffer, hc.writeReadCache]; exact hg.cached
  known := by rw [waiting_congr hc.writeBuffer, hc.hashTable]; exact hg.known
  distinct := by rw [waiting_congr hc.writeBuffer]; exact hg.distinct
  unwritten := by rw [waiting_congr hc.writeBuffer, hc.writeReadCache]; exact hg.unwritten
  put w hw q hq := (hg.put w hw q hq).congr hc.datastore
  notSmall := by rw [hc.hashTable]; exact hg.notSmall
  numbered := by rw [hc.datastore]; exact hg.numbered
  backed := by rw [hc.hashTable]; exact hg.backed

/-- A chunk whose hash is new is queued. -/
theorem Regular.queue (hg : Regular P ws g) {q : QueuedWrite H} (hq : q.Unpacks P)
    (hnew : g.hashTable.d.get? q.hash = none) :
    Regular P ws { g with
      writeReadCache := g.writeReadCache.set q.hash q.data
      writeBuffer := g.writeBuffer.append q
      hashTable := g.hashTable.setItem q.hash (placeholder q) } := by
  generalize hset : ({ g with
      writeReadCache := g.writeReadCache.set q.hash q.data
      writeBuffer := g.writeBuffer.append q
      hashTable := g.hashTable.setItem q.hash (placeholder q) } : Globals H) = g'
  have hcache : g'.writeReadCache = g.writeReadCache.set q.hash q.data := by rw [← hset]
  have htable : g'.hashTable = g.hashTable.setItem q.hash (placeholder q) := by rw [← hset]
  have hwaiting : waiting ws g' = waiting ws g ++ [q] := by
    rw [← hset]
    exact (List.append_assoc _ _ _).symm
  -- a waiting hash is known, so no other block that waits has this one
  have hfresh : ∀ x ∈ waiting ws g, q.hash ≠ x.hash := by
    intro x hx heq
    obtain ⟨b, hb, _⟩ := hg.known x hx
    rw [← heq, hnew] at hb
    cases hb
  refine ⟨fun x hx => ?_, fun x hx => ?_, fun x hx => ?_, ?_, fun h d hd => ?_, fun w hw x hx => ?_,
    fun h b hb => ?_, ?_, ?_⟩
  · rw [hwaiting] at hx
    rcases List.mem_append.mp hx with hx | hx
    · exact hg.unpacks x hx
    · rw [List.mem_singleton.mp hx]
      exact hq
  · rw [hwaiting] at hx
    rw [hcache]
    rcases List.mem_append.mp hx with hx | hx
    · exact (Dict.get?_set_ne _ _ (hfresh x hx)).trans (hg.cached x hx)
    · rw [List.mem_singleton.mp hx]
      exact Dict.get?_set_self _ _ _
  · rw [hwaiting] at hx
    rw [htable, HashTable.setItem_d_get?]
    rcases List.mem_append.mp hx with hx | hx
    · rw [if_neg (hfresh x hx)]
      exact hg.known x hx
    · rw [List.mem_singleton.mp hx, if_pos rfl]
      exact ⟨_, rfl, rfl⟩
  · rw [hwaiting, List.map_append, List.nodup_append]
    refine ⟨hg.distinct, List.nodup_singleton _, fun a ha a' ha' heq => ?_⟩
    obtain ⟨x, hx, rfl⟩ := List.mem_map.mp ha
    rw [List.map_singleton, List.mem_singleton] at ha'
    exact hfresh x hx (heq.trans ha').symm
  · rw [hcache, Dict.get?_set] at hd
    rw [hwaiting]
    split at hd
    · rename_i e
      exact ⟨q, List.mem_append_right _ (List.mem_singleton_self _), e⟩
    · obtain ⟨x, hx, hxh⟩ := hg.unwritten h d hd
      exact ⟨x, List.mem_append_left _ hx, hxh⟩
  · exact (hg.put w hw x hx).congr (by rw [← hset])
  · rw [htable, HashTable.setItem_d_get?] at hb
    split at hb
    · cases hb
      intro h
      cases h
    · exact hg.notSmall h b hb
  · rw [← hset]
    exact hg.numbered
  · rw [htable]
    exact hg.backed.set (located_set _ _ · _) (located_set _ _ · _)

/-- **Rule for `dedup`**: what each chunk keeps. -/
theorem dedupChunks_keeps {R : Globals H → Globals H → Prop} [Py.Frame R]
    {compress : Bytes → Bool × Bytes} (hone : ∀ c, Py.Keeps R (dedupChunk P compress c)) :
    ∀ cs : List Bytes, Py.Keeps R (dedupChunks P compress cs)
  | [] => Py.keeps_pure _
  | c :: cs => Py.keeps_bind (hone c) fun _ =>
      Py.keeps_bind (dedupChunks_keeps hone cs) fun _ => Py.keeps_pure _

theorem dedupChunk_regular {compress : Bytes → Bool × Bytes}
    (hcompress : ∀ c, (queueItem P compress c).Unpacks P) (c : Bytes) :
    Py.Keeps (Py.Stays (Regular P ws)) (dedupChunk P compress c) := by
  intro g hg
  cases hb : g.hashTable.d.get? (P.xxh3_64 c) with
  | some b =>
    rw [dedupChunk_known hb]
    exact hg.setEntry (e := { b with uses := b.uses + 1 }) hb rfl rfl rfl rfl rfl
  | none =>
    rw [dedupChunk_new hb]
    exact hg.queue (hcompress c) hb

/-- A drop, whatever it raises. -/
theorem Regular.drop (hg : Regular P ws g) (cfg : Config) (now : Time) (h : H) :
    Regular P ws (updateIndexRemove cfg now h g).2 := by
  rcases updateIndexRemove_outcome cfg now h g with hsame | ⟨b, fb', hb, _, hrun⟩
  · rw [hsame]
    exact hg
  · rw [hrun]
    refine Regular.caches ?_ (uncache_keeps cfg h b _)
    exact hg.setEntry (e := { b with DELETED := true, DELETION_TIME := some now }) hb rfl rfl rfl rfl rfl

/-- **Every call keeps the module state regular.** -/
theorem regular_calls (hP : P.Lawful) : CallsKeep cfg P (Regular P ws) where
  caches hc hg := hg.caches hc
  dedup data g hg :=
    dedupChunks_keeps (dedupChunk_regular (dedupPieces_unpacks hP cfg data)) _ g hg
  drop now h _ hg := hg.drop cfg now h

/-! ## The writers -/

/-- What an operation of a writer does, also one whose commit fails. -/
inductive WriterStep (cfg : Config) (g : Globals H) : WriterAt H → WriterAt H → Globals H → Prop
  | idle (empty : g.writeBuffer.popleft = none) : WriterStep cfg g .popleft .popleft g
  | pop {q : QueuedWrite H} {rest : WriteCache (QueuedWrite H)}
      (head : g.writeBuffer.popleft = some (q, rest)) :
      WriterStep cfg g .popleft (.commit q) { g with writeBuffer := rest }
  | putSmall {q : QueuedWrite H} {smallBlocks : Dict H Bytes} (small : isSmallBlock cfg q) :
      WriterStep cfg g (.commit q) (.install { q with chunk := -1, block := -1 })
        { g with smallBlocks := smallBlocks }
  | put {q : QueuedWrite H} {w : WriterAt H} {ds : List (DataStore H)} {store : Nat}
      {chunk block : Int} (record : PutRecord g.datastore ds store q.hash q.payload)
      (named : (g.datastore.map DataStore.chunk)[store]? = some chunk)
      (next : w.stored? = some { q with chunk := chunk, block := block }) :
      WriterStep cfg g (.commit q) w { g with datastore := ds }
  | lost {q : QueuedWrite H} {ds : List (DataStore H)} (same : SameRecords g.datastore ds) :
      WriterStep cfg g (.commit q) .popleft { g with datastore := ds }
  | putReplica {q : QueuedWrite H} {mds : List (DataStore H)} :
      WriterStep cfg g (.replicate q) (.install q) { g with mirrorDatastore := mds }
  | lostReplica {q : QueuedWrite H} {mds : List (DataStore H)} :
      WriterStep cfg g (.replicate q) .popleft { g with mirrorDatastore := mds }
  | install {q : QueuedWrite H} : WriterStep cfg g (.install q) .popleft (installed cfg q g)

theorem exec_commit_step (cfg : Config) (env : CommitEnv) (q : QueuedWrite H) (g : Globals H) :
    WriterStep cfg g (.commit q) ((WriterAt.commit q).exec cfg env g).1
      ((WriterAt.commit q).exec cfg env g).2 := by
  have hlost : WriterStep cfg g (.commit q) .popleft g := .lost (.refl g.datastore)
  by_cases hs : isSmallBlock cfg q
  · simp only [WriterAt.exec, if_pos hs]
    unfold Globals.onSmallBlocks writeSmallBlock openSmallBlockDb
    cases cfg.smallBlockDbPath with
    | list => exact hlost
    | path => exact .putSmall hs
  · cases hb : cfg.backend with
    | mmap =>
      simp only [WriterAt.exec, if_neg hs, hb]
      exact hlost
    | unset =>
      simp only [WriterAt.exec, if_neg hs, hb]
      exact hlost
    | rocksdb =>
      have hspec := writeData_spec cfg.writeSpread env.primary q q.payload false g.datastore
      unfold Py.wp at hspec
      cases hw : writeData cfg.writeSpread env.primary q q.payload false g.datastore with
      | mk r ds =>
        rw [hw] at hspec
        have hrun : Globals.onDatastore (writeData cfg.writeSpread env.primary q q.payload false) g =
            (r, { g with datastore := ds }) := Py.run_zoom hw
        cases r with
        | error e =>
          simp only [WriterAt.exec, if_neg hs, hb, hrun]
          exact .lost hspec
        | ok q' =>
          obtain ⟨store, chunk, block, hput, hnamed, rfl⟩ := hspec
          simp only [WriterAt.exec, if_neg hs, hb, hrun]
          have hnext : ∀ replicated : Bool, (if replicated = true then
              WriterAt.replicate { q with chunk := chunk, block := block }
              else .install { q with chunk := chunk, block := block }).stored? =
                some { q with chunk := chunk, block := block } := fun replicated => by
            cases replicated <;> rfl
          exact .put hput hnamed (hnext cfg.replicateData)

/-- **What a writer's next operation does.** -/
theorem WriterAt.exec_step (cfg : Config) (env : CommitEnv) (w : WriterAt H) (g : Globals H) :
    WriterStep cfg g w (w.exec cfg env g).1 (w.exec cfg env g).2 := by
  cases w with
  | popleft =>
    cases hp : g.writeBuffer.popleft with
    | none =>
      simp only [WriterAt.exec, hp]
      exact .idle hp
    | some p =>
      rw [exec_popleft hp]
      exact .pop hp
  | commit q => exact exec_commit_step cfg env q g
  | replicate q =>
    have hspec := writeData_spec cfg.writeSpread env.mirror q q.payload true g.mirrorDatastore
    unfold Py.wp at hspec
    cases hw : writeData cfg.writeSpread env.mirror q q.payload true g.mirrorDatastore with
    | mk r mds =>
      rw [hw] at hspec
      have hrun : Globals.onMirror (writeData cfg.writeSpread env.mirror q q.payload true) g =
          (r, { g with mirrorDatastore := mds }) := Py.run_zoom hw
      cases r with
      | error e =>
        simp only [WriterAt.exec, hrun]
        exact .lostReplica
      | ok q' =>
        obtain ⟨_, _, _, _, _, rfl⟩ := hspec
        simp only [WriterAt.exec, hrun]
        exact .putReplica
  | install q =>
    simp only [WriterAt.exec, installBlock_run]
    exact .install

/-- The block that a writer commits is still in its hand. -/
def WriterAt.keeps {H : Type} : WriterAt H → WriterAt H → Bool
  | .commit _, w => w.item?.isSome
  | .replicate _, w => w.item?.isSome
  | _, _ => true

/-- The operation does not fail. -/
def WriterAt.succeeds (cfg : Config) (env : CommitEnv) (w : WriterAt H) (g : Globals H) : Bool :=
  w.keeps (w.exec cfg env g).1

/-- A block, but for where it was put. -/
def QueuedWrite.unplaced {H : Type} (q : QueuedWrite H) : QueuedWrite H := { q with chunk := 0, block := 0 }

omit [DecidableEq H] in
theorem WriterAt.item_of_stored {w : WriterAt H} {q : QueuedWrite H} (h : w.stored? = some q) :
    w.item? = some q := by
  cases w <;> first | exact h | cases h

omit [DecidableEq H] in
theorem waiting_perm (hp : ws'.Perm ws) (g : Globals H) : (waiting ws' g).Perm (waiting ws g) :=
  (hp.filterMap _).append_right _

/-- **Rule for writers**: the blocks that wait are the same, but for where they were put. -/
theorem Regular.moves (hg : Regular P ws g)
    (hsame : ((waiting ws' g').map QueuedWrite.unplaced).Perm
      ((waiting ws g).map QueuedWrite.unplaced))
    (htable : g'.hashTable = g.hashTable) (hcache : g'.writeReadCache = g.writeReadCache)
    (hn : Numbered g'.datastore) (hput : ∀ w ∈ ws', ∀ q, w.stored? = some q → PutAt g' q) :
    Regular P ws' g' := by
  have hold : ∀ q ∈ waiting ws' g', ∃ p ∈ waiting ws g, p.unplaced = q.unplaced := fun q hq =>
    List.mem_map.mp (hsame.mem_iff.mp (List.mem_map_of_mem hq))
  have hhash : ∀ l : List (QueuedWrite H),
      l.map QueuedWrite.hash = (l.map QueuedWrite.unplaced).map QueuedWrite.hash := fun l => by
    rw [List.map_map]
    rfl
  refine ⟨fun q hq => ?_, fun q hq => ?_, fun q hq => ?_, ?_, fun h d hd => ?_, hput, ?_, hn, ?_⟩
  · obtain ⟨p, hp, heq⟩ := hold q hq
    have hunpacks : p.unplaced.Unpacks P := hg.unpacks p hp
    rw [heq] at hunpacks
    exact hunpacks
  · obtain ⟨p, hp, heq⟩ := hold q hq
    have hcached : g.writeReadCache.get? p.unplaced.hash = some p.unplaced.data := hg.cached p hp
    rw [heq, ← hcache] at hcached
    exact hcached
  · obtain ⟨p, hp, heq⟩ := hold q hq
    have hknown : ∃ b, g.hashTable.d.get? p.unplaced.hash = some b ∧
        b.compressed = p.unplaced.compressed := hg.known p hp
    rw [heq, ← htable] at hknown
    exact hknown
  · have hdistinct := hg.distinct
    rw [hhash] at hdistinct ⊢
    exact ((hsame.map _).nodup_iff).mpr hdistinct
  · rw [hcache] at hd
    obtain ⟨p, hp, hph⟩ := hg.unwritten h d hd
    obtain ⟨q, hq, heq⟩ := List.mem_map.mp (hsame.mem_iff.mpr (List.mem_map_of_mem hp))
    have hhash : q.unplaced.hash = p.unplaced.hash := by rw [heq]
    exact ⟨q, hq, hhash.trans hph⟩
  · rw [htable]
    exact hg.notSmall
  · rw [htable]
    exact hg.backed

/-- The order of the writers does not matter. -/
theorem Regular.perm (hg : Regular P ws g) (hp : ws'.Perm ws) : Regular P ws' g :=
  hg.moves ((waiting_perm hp g).map _) rfl rfl hg.numbered fun w hw => hg.put w (hp.mem_iff.mp hw)

section

variable {q : QueuedWrite H}

/-- A writer takes the head of the queue. -/
theorem Regular.pop {rest : WriteCache (QueuedWrite H)} (hg : Regular P (.popleft :: ws) g)
    (hp : g.writeBuffer.popleft = some (q, rest)) :
    Regular P (.commit q :: ws) { g with writeBuffer := rest } := by
  have hwaiting : waiting (.popleft :: ws) g = ws.filterMap WriterAt.item? ++ q :: rest.d := by
    unfold waiting
    rw [(WriteCache.popleft_eq_some hp).1]
    rfl
  have hperm : (waiting (.commit q :: ws) { g with writeBuffer := rest }).Perm
      (waiting (.popleft :: ws) g) := by
    rw [hwaiting]
    exact List.perm_middle.symm
  refine hg.moves (hperm.map _) rfl rfl hg.numbered fun w hw x hx => ?_
  rcases List.mem_cons.mp hw with rfl | hw
  · cases hx
  · exact (hg.put w (List.mem_cons_of_mem _ hw) x hx).congr rfl

/-- A block that waits in the hand of a writer is not in another's. -/
theorem Regular.others {w : WriterAt H} (hg : Regular P (w :: ws) g) (hw : w.item? = some q)
    {x : QueuedWrite H} (hx : x ∈ waiting ws g) : q.hash ≠ x.hash := by
  have hwaiting : waiting (w :: ws) g = q :: waiting ws g := by
    unfold waiting
    rw [List.filterMap_cons_some hw]
    rfl
  have hnd := hg.distinct
  rw [hwaiting, List.map_cons, List.nodup_cons] at hnd
  exact fun heq => hnd.1 (List.mem_map.mpr ⟨x, hx, heq.symm⟩)

theorem PutAt.stored_ne {ds' : List (DataStore H)} {store : Nat} {h : H} {data : Bytes}
    (hq : PutAt g q) (hput : PutRecord g.datastore ds' store h data) (hne : h ≠ q.hash)
    (hds : g'.datastore = ds') : PutAt g' q := by
  obtain ⟨holder, hnamed, hstored⟩ := hq
  refine ⟨holder, by rw [hds, hput.chunks]; exact hnamed, ?_⟩
  rw [hds, hput.stored, if_neg fun e => hne e.2]
  exact hstored

/-- **A writer puts the bytes** of its block into a store; nothing names the store yet. -/
theorem Regular.putBlock {ds : List (DataStore H)} {store : Nat} {chunk block : Int} {w : WriterAt H}
    (hg : Regular P (.commit q :: ws) g)
    (hput : PutRecord g.datastore ds store q.hash q.payload)
    (hnamed : (g.datastore.map DataStore.chunk)[store]? = some chunk)
    (hw : w.stored? = some { q with chunk := chunk, block := block }) :
    Regular P (w :: ws) { g with datastore := ds } := by
  have hwaiting : waiting (w :: ws) { g with datastore := ds } =
      { q with chunk := chunk, block := block } :: waiting ws g := by
    unfold waiting
    rw [List.filterMap_cons_some (WriterAt.item_of_stored hw)]
    rfl
  refine hg.moves ?_ rfl rfl ?_ fun x hx y hy => ?_
  · rw [hwaiting]
    exact .refl _
  · intro j c hc
    exact hg.numbered j c (by rw [← hput.chunks]; exact hc)
  · rcases List.mem_cons.mp hx with rfl | hx
    · rw [hw] at hy
      cases hy
      refine ⟨store, by rw [hput.chunks]; exact hnamed, ?_⟩
      rw [hput.stored, if_pos ⟨rfl, rfl⟩]
      rfl
    · have hitem : y ∈ waiting ws g := List.mem_append_left _
        (List.mem_filterMap.mpr ⟨x, hx, WriterAt.item_of_stored hy⟩)
      exact (hg.put x (List.mem_cons_of_mem _ hx) y hy).stored_ne hput (hg.others rfl hitem) rfl

/-- The put of the replica. -/
theorem Regular.putReplica (hg : Regular P (.replicate q :: ws) g) (mds : List (DataStore H)) :
    Regular P (.install q :: ws) { g with mirrorDatastore := mds } := by
  refine hg.moves (.refl _) rfl rfl hg.numbered fun w hw x hx => ?_
  rcases List.mem_cons.mp hw with rfl | hw
  · exact (hg.put (.replicate q) List.mem_cons_self x hx).congr rfl
  · exact (hg.put w (List.mem_cons_of_mem _ hw) x hx).congr rfl

theorem installed_get? (cfg : Config) (q : QueuedWrite H) (g : Globals H) (k : H) :
    (installed cfg q g).hashTable.d.get? k =
      if q.hash = k then some { committedEntry q with uses := 1 } else g.hashTable.d.get? k := by
  unfold installed
  dsimp only
  rw [HashTable.setItem_d_get?]
  split
  · rfl
  · rename_i hk
    rw [HashTable.setItem_d_get?, if_neg hk]

/-- **A writer enters its block**: the block leaves `write_read_cache` for the store that its entry
names. -/
theorem Regular.install (hg : Regular P (.install q :: ws) g) :
    Regular P (.popleft :: ws) (installed cfg q g) := by
  have hold : ∀ x ∈ waiting ws g, x ∈ waiting (.install q :: ws) g := fun x hx =>
    List.mem_cons_of_mem _ hx
  have hother : ∀ x ∈ waiting ws g, q.hash ≠ x.hash := fun x hx => hg.others rfl hx
  refine ⟨fun x hx => hg.unpacks x (hold x hx), fun x hx => ?_, fun x hx => ?_, ?_,
    fun h d hcache => ?_, fun w hw x hx => ?_, fun h e he => ?_, hg.numbered, ?_⟩
  · refine (Dict.get?_erase _ _ _).trans ?_
    rw [if_neg (hother x hx)]
    exact hg.cached x (hold x hx)
  · rw [installed_get?, if_neg (hother x hx)]
    exact hg.known x (hold x hx)
  · exact (List.nodup_cons.mp hg.distinct).2
  · replace hcache : (g.writeReadCache.erase q.hash).get? h = some d := hcache
    rw [Dict.get?_erase] at hcache
    split at hcache
    · cases hcache
    · rename_i hne
      obtain ⟨x, hx, hxh⟩ := hg.unwritten h d hcache
      refine ⟨x, ?_, hxh⟩
      exact (List.mem_cons.mp hx).resolve_left fun e => hne (by rw [← e, hxh])
  · rcases List.mem_cons.mp hw with rfl | hw
    · cases hx
    · exact (hg.put w (List.mem_cons_of_mem _ hw) x hx).congr rfl
  · rw [installed_get?] at he
    split at he
    · cases he
      obtain ⟨store, hnamed, _⟩ := hg.put (.install q) List.mem_cons_self q rfl
      change q.chunk ≠ -1
      rw [hg.numbered store q.chunk hnamed]
      omega
    · exact hg.notSmall h e he
  · -- the entry is set twice: with no use, and with one
    have hset := fun (b : Block H) {t : HashTable H}
      (h : Overlay (located t.d) (located t.pending) (located t.ht)) =>
      h.set (located_set t.d q.hash · b) (located_set t.pending q.hash · b)
    exact hset _ (t := g.hashTable.setItem q.hash _) (hset _ hg.backed)

end

/-! ## The collector -/

/-- Counters and flags differ, the read caches may have lost entries, and the small blocks, the free
lists and the collector's own lists are any. -/
structure Remarked (g g' : Globals H) : Prop where
  entries : ∀ h, located g'.hashTable.d h = located g.hashTable.d h
  pending : ∀ h, located g'.hashTable.pending h = located g.hashTable.pending h
  ht : g'.hashTable.ht = g.hashTable.ht
  writeReadCache : g'.writeReadCache = g.writeReadCache
  writeBuffer : g'.writeBuffer = g.writeBuffer
  datastore : g'.datastore = g.datastore
  readCache : ∀ h d, g'.readCache.get? h = some d → g.readCache.get? h = some d
  smallCache : ∀ h d, g'.smallBlockReadCache.get? h = some d → g.smallBlockReadCache.get? h = some d

instance : Py.Frame (@Remarked H _) where
  refl _ := ⟨fun _ => rfl, fun _ => rfl, rfl, rfl, rfl, rfl, fun _ _ h => h, fun _ _ h => h⟩
  trans h h' := ⟨fun k => (h'.entries k).trans (h.entries k),
    fun k => (h'.pending k).trans (h.pending k), h'.ht.trans h.ht,
    h'.writeReadCache.trans h.writeReadCache, h'.writeBuffer.trans h.writeBuffer,
    h'.datastore.trans h.datastore, fun k d hd => h.readCache k d (h'.readCache k d hd),
    fun k d hd => h.smallCache k d (h'.smallCache k d hd)⟩

theorem Regular.remarked (hg : Regular P ws g) (hr : Remarked g g') : Regular P ws g' where
  unpacks := by rw [waiting_congr hr.writeBuffer]; exact hg.unpacks
  cached := by rw [waiting_congr hr.writeBuffer, hr.writeReadCache]; exact hg.cached
  known q hq := by
    rw [waiting_congr hr.writeBuffer] at hq
    obtain ⟨b, hb, hcompressed⟩ := hg.known q hq
    obtain ⟨e, he, heq⟩ := located_some (hr.entries q.hash).symm hb
    exact ⟨e, he, (congrArg (·.compressed) heq).symm.trans hcompressed⟩
  distinct := by rw [waiting_congr hr.writeBuffer]; exact hg.distinct
  unwritten := by rw [waiting_congr hr.writeBuffer, hr.writeReadCache]; exact hg.unwritten
  put w hw q hq := (hg.put w hw q hq).congr hr.datastore
  notSmall h b hb := by
    obtain ⟨e, he, heq⟩ := located_some (hr.entries h) hb
    have hchunk : b.chunk = e.chunk := congrArg (·.chunk) heq
    rw [hchunk]
    exact hg.notSmall h e he
  numbered := by rw [hr.datastore]; exact hg.numbered
  backed h := by rw [hr.entries, hr.pending, hr.ht]; exact hg.backed h

theorem mutateEntry_remarks {f : Block H → Block H} (hf : ∀ b, (f b).stripped = b.stripped)
    (remove : H) : Py.Keeps Remarked (mutateEntry remove f) := fun g =>
  ⟨fun h => located_modify hf g.hashTable.d remove h,
    fun h => located_modify hf g.hashTable.pending remove h, rfl, rfl, rfl, rfl,
    fun _ _ h => h, fun _ _ h => h⟩

theorem deleteBlock_remarks (cfg : Config) (remove : H) (b : Block H) :
    Py.Keeps Remarked (deleteBlock cfg remove b) := by
  refine Py.keeps_bind (fun g => ⟨fun _ => rfl, fun _ => rfl, rfl, rfl, rfl, rfl, fun _ _ h => h,
    fun _ _ h => h⟩) fun _ => ?_
  split
  · refine Py.keeps_bind (fun g => ⟨fun _ => rfl, fun _ => rfl, rfl, rfl, rfl, rfl, fun _ _ h => h,
      fun _ _ h => h⟩) fun _ => fun g => ⟨fun _ => rfl, fun _ => rfl, rfl, rfl, rfl, rfl,
      fun _ _ h => h, fun h d hd => ?_⟩
    replace hd : (g.smallBlockReadCache.erase remove).get? h = some d := hd
    rw [LRU.get?_erase] at hd
    split at hd
    · cases hd
    · exact hd
  · split
    · intro g
      rw [(deleteFromDatastore_state remove b g).1]
      exact Py.Frame.refl g
    all_goals
      exact fun g => ⟨fun _ => rfl, fun _ => rfl, rfl, rfl, rfl, rfl, fun _ _ h => h,
        fun _ _ h => h⟩

theorem collectHash_remarks (cfg : Config) (now : Time) (remove : H) :
    Py.Keeps Remarked (collectHash cfg now remove) := by
  refine Py.keeps_bind Py.keeps_read fun g => Py.keeps_bind (Py.keeps_ofOption _ _) fun b =>
    Py.keeps_bind (mutateEntry_remarks (fun _ => by rfl) remove) fun _ => ?_
  split
  · refine Py.keeps_bind (mutateEntry_remarks (fun _ => by rfl) remove) fun _ => ?_
    split
    · exact deleteBlock_remarks cfg remove b
    · split
      · exact mutateEntry_remarks (fun _ => by rfl) remove
      · exact Py.keeps_pure _
  · exact Py.keeps_pure _

/-- A commit of the table. -/
theorem Regular.commit (hg : Regular P ws g) :
    Regular P ws { g with hashTable := g.hashTable.commit } := by
  refine ⟨hg.unpacks, hg.cached, hg.known, hg.distinct, hg.unwritten, hg.put, hg.notSmall, hg.numbered,
    ?_⟩
  refine .of_stored (fun h => hg.backed.commit (fun x => ?_) h) fun h => rfl
  unfold located
  rw [HashTable.commit_ht_get?]
  cases g.hashTable.pending.get? x <;> rfl

/-- What the collector does next: a round for the first hash, or, when none is left or an
    `IndexError` ends the pass, the commit of the table. -/
def collectNext (cfg : Config) (now : Time) (g : Globals H) : Globals H :=
  match g.removeUses with
  | [] => { g with hashTable := g.hashTable.commit }
  | remove :: rest =>
    match collectHash cfg now remove { g with removeUses := rest } with
    | (.ok _, g) => g
    | (.error e, g) => if e = .indexError then { g with hashTable := g.hashTable.commit } else g

/-- A round remarks, and may be followed by a commit. -/
theorem collectNext_cases (cfg : Config) (now : Time) (g : Globals H) :
    ∃ g₁, ((g₁ = g ∨ ∃ remove rest, g.removeUses = remove :: rest ∧
        g₁ = (collectHash cfg now remove { g with removeUses := rest }).2) ∧ Remarked g g₁) ∧
      (collectNext cfg now g = g₁ ∨
        collectNext cfg now g = { g₁ with hashTable := g₁.hashTable.commit }) := by
  unfold collectNext
  split
  · exact ⟨g, ⟨.inl rfl, Py.Frame.refl g⟩, .inr rfl⟩
  · rename_i remove rest hq
    have hrest : Remarked g { g with removeUses := rest } :=
      ⟨fun _ => rfl, fun _ => rfl, rfl, rfl, rfl, rfl, fun _ _ h => h, fun _ _ h => h⟩
    refine ⟨_, ⟨.inr ⟨remove, rest, hq, rfl⟩,
      Py.Frame.trans hrest (collectHash_remarks cfg now remove _)⟩, ?_⟩
    cases hr : collectHash cfg now remove { g with removeUses := rest } with
    | mk r g₁ =>
      cases r with
      | ok _ => exact .inl rfl
      | error e =>
        dsimp only
        split
        · exact .inr rfl
        · exact .inl rfl

theorem Regular.collect (hg : Regular P ws g) (cfg : Config) (now : Time) :
    Regular P ws (collectNext cfg now g) := by
  obtain ⟨g₁, ⟨_, hr⟩, heq | heq⟩ := collectNext_cases cfg now g
  · rw [heq]
    exact hg.remarked hr
  · rw [heq]
    exact (hg.remarked hr).commit

/-! ## Starting -/

omit [DecidableEq H] in
/-- Nothing waits while the queue is empty and the writers are idle. -/
theorem waiting_idle (hqueue : g.writeBuffer.d = []) (hidle : ∀ w ∈ ws, w = .popleft) :
    waiting ws g = [] := by
  have hnone : ws.filterMap WriterAt.item? = [] := List.filterMap_eq_nil_iff.mpr fun w hw => by
    rw [hidle w hw]
    rfl
  unfold waiting
  rw [hnone, hqueue]
  rfl

theorem Regular.fresh {cacheSize : Nat} (h : 0 < cacheSize) {ds mds : List (DataStore H)}
    (hn : Numbered ds) (hidle : ∀ w ∈ ws, w = .popleft) :
    Regular P ws (.fresh cacheSize h ds mds) := by
  have hwaiting : waiting ws (.fresh cacheSize h ds mds) = [] := waiting_idle rfl hidle
  refine ⟨?_, ?_, ?_, ?_, fun _ _ hd => (by cases hd), fun w hw q hq => ?_, fun _ _ hb => (by cases hb),
    hn, fun _ => rfl⟩
  · rw [hwaiting]
    exact fun _ hq => by cases hq
  · rw [hwaiting]
    exact fun _ hq => by cases hq
  · rw [hwaiting]
    exact fun _ hq => by cases hq
  · rw [hwaiting]
    exact List.nodup_nil
  · rw [hidle w hw] at hq
    cases hq

/-- Everything that is in memory is in the databases, and nothing waits. -/
structure WrittenOut (ws : List (WriterAt H)) (g : Globals H) : Prop where
  pending : ∀ h, g.hashTable.pending.get? h = none
  queue : g.writeBuffer.d = []
  idle : ∀ w ∈ ws, w = .popleft

/-- What a mount of a settled state finds. -/
theorem Regular.mounted_entries (hg : Regular P ws g) (hs : WrittenOut ws g) (h : H) :
    located g.mounted.hashTable.d h = located g.hashTable.d h := by
  have hback := hg.backed h
  unfold located at hback ⊢
  rw [hs.pending h] at hback
  rw [hback]
  exact congrArg _ (HashTable.initFromDisk_d_get? g.hashTable h)

theorem Regular.mounted (hg : Regular P ws g) (hs : WrittenOut ws g)
    (hidle : ∀ w ∈ ws', w = .popleft) : Regular P ws' g.mounted := by
  have hwaiting : waiting ws' g.mounted = [] := waiting_idle rfl hidle
  refine ⟨?_, ?_, ?_, ?_, fun _ _ hd => (by cases hd), fun w hw q hq => ?_, fun h b hb => ?_,
    hg.numbered, .of_stored (fun h => congrArg _ (HashTable.initFromDisk_d_get? g.hashTable h).symm)
    fun h => rfl⟩
  · rw [hwaiting]
    exact fun _ hq => by cases hq
  · rw [hwaiting]
    exact fun _ hq => by cases hq
  · rw [hwaiting]
    exact fun _ hq => by cases hq
  · rw [hwaiting]
    exact List.nodup_nil
  · rw [hidle w hw] at hq
    cases hq
  · obtain ⟨e, he, heq⟩ := located_some (hg.mounted_entries hs h) hb
    have hchunk : b.chunk = e.chunk := congrArg (·.chunk) heq
    rw [hchunk]
    exact hg.notSmall h e he

end VeratyFS
