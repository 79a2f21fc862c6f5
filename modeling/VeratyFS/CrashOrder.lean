import VeratyFS.Crashes
import VeratyFS.Reclaimed

/-!
# What a mount finds after a crash

Does every record of the hash table have its bytes?

* `HasBytes` — the store that an entry names has the bytes of its hash.
* `Sourced`, `Ordered` — an entry that a writer made has its bytes, until the collector deletes them
  from the small-block database; any other entry is the one that `dedup` made in advance.
* `callsKeep_ordered`, `collectHash_ordered`, `Ordered.writer`, `Ordered.save` — what keeps it.
* `records_have_bytes` — every record, at every point of every run.
* `placeholder_recorded` — a record of an entry made in advance, and a record whose bytes the
  collector deleted.
-/

set_option autoImplicit false
set_option maxRecDepth 1024

namespace VeratyFS

open Pylib

variable {H : Type} [DecidableEq H] {cfg : Config} {P : Packages H} {s : Machine H}
  {g g' : Globals H}

/-! ## Bytes -/

/-- The store that the entry names has the bytes of the hash. -/
def HasBytes (P : Packages H) (g : Globals H) (h : H) (b : Block H) : Prop :=
  ∃ loc data, b.location g.datastore.length = some loc ∧ bytesAt g loc h = some data ∧
    P.xxh3_64 (if b.compressed then decompressData P data else data) = h

/-- The bytes of these hashes are where they were, but for the small blocks that the collector
    deleted. -/
structure BytesKept (K : H → Prop) (g g' : Globals H) : Prop where
  length : g'.datastore.length = g.datastore.length
  reclaimed : ∀ h ∈ g.reclaimed, h ∈ g'.reclaimed
  bytes : ∀ h, K h → ∀ loc, (loc = .smallBlocks → h ∉ g'.reclaimed) →
    bytesAt g' loc h = bytesAt g loc h

theorem BytesKept.of_same {K : H → Prop} (hds : g'.datastore = g.datastore)
    (hsm : g'.smallBlocks = g.smallBlocks) (hre : g'.reclaimed = g.reclaimed) :
    BytesKept K g g' := by
  refine ⟨by rw [hds], fun h hh => hre ▸ hh, fun h _ loc _ => ?_⟩
  cases loc with
  | smallBlocks => rw [bytesAt_smallBlocks, bytesAt_smallBlocks, hsm]
  | datastore j => rw [bytesAt_datastore, bytesAt_datastore, hds]

omit [DecidableEq H] in
theorem location_smallBlocks {n : Nat} {b : Block H} (h : b.location n = some .smallBlocks) :
    b.chunk = -1 := by
  unfold Block.location at h
  split at h
  · assumption
  · obtain ⟨j, _, hj⟩ := Option.map_eq_some_iff.mp h
    cases hj

theorem HasBytes.kept {K : H → Prop} (hk : BytesKept K g g') {h : H} {b : Block H} (hK : K h)
    (hre : b.chunk = -1 → h ∉ g'.reclaimed) (hb : HasBytes P g h b) : HasBytes P g' h b := by
  obtain ⟨loc, data, hloc, hdata, hhash⟩ := hb
  refine ⟨loc, data, by rw [hk.length]; exact hloc, ?_, hhash⟩
  rw [hk.bytes h hK loc fun e => hre (location_smallBlocks (e ▸ hloc))]
  exact hdata

/-! ## Entries -/

/-- What an entry says: `source` are the hashes whose entry a writer made. -/
structure Sourced (P : Packages H) (g : Globals H) (source : List H) (h : H) (b : Block H) : Prop where
  written : h ∈ source → (b.chunk = -1 → h ∉ g.reclaimed) → HasBytes P g h b
  advance : h ∉ source → b.chunk = 0 ∧ b.offset = 0

def Entries (P : Packages H) (g : Globals H) (source : List H) (d : Dict H (Block H)) : Prop :=
  ∀ h b, d.get? h = some b → Sourced P g source h b

section Entries

variable {source : List H} {d : Dict H (Block H)} {h : H} {b : Block H}

theorem Sourced.kept {K : H → Prop} (hk : BytesKept K g g') (hK : ∀ h ∈ source, K h)
    (hb : Sourced P g source h b) : Sourced P g' source h b :=
  ⟨fun hmem hre => (hb.written hmem fun hc hh => hre hc (hk.reclaimed h hh)).kept hk (hK h hmem) hre,
    hb.advance⟩

theorem Entries.kept {K : H → Prop} (hk : BytesKept K g g') (hK : ∀ h ∈ source, K h)
    (hd : Entries P g source d) : Entries P g' source d :=
  fun h b hb => (hd h b hb).kept hk hK

theorem Entries.set (hd : Entries P g source d) (hb : Sourced P g source h b) :
    Entries P g source (d.set h b) := d.forall_set hd hb

/-- A change that leaves the location and the compression flag. -/
theorem Entries.modify {f : Block H → Block H} (hf : ∀ b, Sourced P g source h b →
    Sourced P g source h (f b)) (hd : Entries P g source d) : Entries P g source (d.modify h f) := by
  intro k c hk
  rw [Dict.get?_modify] at hk
  split at hk
  · rename_i e
    subst e
    obtain ⟨b, hb, rfl⟩ := Option.map_eq_some_iff.mp hk
    exact hf b (hd h b hb)
  · exact hd k c hk

/-- A writer makes the entry of a hash. -/
theorem Entries.enter (hd : ∀ k c, h ≠ k → d.get? k = some c → Sourced P g source k c)
    (hb : (b.chunk = -1 → h ∉ g.reclaimed) → HasBytes P g h b) :
    Entries P g (h :: source) (d.set h b) := by
  intro k c hk
  rw [Dict.get?_set] at hk
  split at hk
  · rename_i e
    subst e
    cases hk
    exact ⟨fun _ hre => hb hre, fun hmem => absurd List.mem_cons_self hmem⟩
  · rename_i hne
    have hold := hd k c hne hk
    refine ⟨fun hmem hre => ?_, fun hmem => ?_⟩
    · rcases List.mem_cons.mp hmem with e | hmem
      · exact absurd e.symm hne
      · exact hold.written hmem hre
    · exact hold.advance fun hk => hmem (List.mem_cons_of_mem _ hk)

end Entries

/-! ## The invariant -/

/-- The bytes of a block that waits are those of its hash. -/
structure ItemOf (P : Packages H) (q : QueuedWrite H) : Prop where
  hash : P.xxh3_64 q.data = q.hash
  payload : (if q.compressed then decompressData P q.payload else q.payload) = q.data

namespace Machine

/-- A commit is about to write the batch to the database. -/
def Saves {H : Type} (s : Machine H) (batch : Dict H (Block H)) (entered : List H) : Prop :=
  s.main = some (.database batch entered) ∨ s.collector = .committing (.database batch entered)

/-- The blocks that wait for a writer, and those that writers work on. -/
def items {H : Type} (s : Machine H) (g : Globals H) : List (QueuedWrite H) :=
  g.writeBuffer.d ++ s.writers.filterMap WriterAt.item?

/-- A writer has put the bytes of the block. -/
def Put {H : Type} (s : Machine H) (q : QueuedWrite H) : Prop :=
  .replicate q ∈ s.writers ∨ .install q ∈ s.writers

end Machine

/-- **The invariant**, for the threads `s` over the module state `g`. -/
structure Ordered (P : Packages H) (s : Machine H) (g : Globals H) : Prop where
  numbered : Numbered g.datastore
  table : Entries P g s.entered g.hashTable.d
  pending : Entries P g s.entered g.hashTable.pending
  records : Entries P g s.recorded g.hashTable.ht
  batches : ∀ batch source, s.Saves batch source →
    (∀ h ∈ source, h ∈ s.entered) ∧ Entries P g source batch
  recorded : ∀ h ∈ s.recorded, h ∈ s.entered
  kept : ∀ h ∈ s.recorded, g.hashTable.ht.contains h = true
  known : ∀ h ∈ s.entered, g.hashTable.contains h = true
  items : ∀ q ∈ s.items g, ItemOf P q ∧ q.hash ∉ s.entered ∧ g.hashTable.contains q.hash = true
  distinct : ((s.items g).map QueuedWrite.hash).Nodup
  put : ∀ q, s.Put q → (q.chunk = -1 → q.hash ∉ g.reclaimed) →
    HasBytes P g q.hash (committedEntry q)

/-- The bytes are kept, the queue is the same, and the entries are sourced as before. -/
theorem Ordered.transfer {K : H → Prop} (hg : Ordered P s g) (hk : BytesKept K g g')
    (hentered : ∀ h ∈ s.entered, K h) (hput : ∀ q, s.Put q → K q.hash)
    (hchunks : g'.datastore.map DataStore.chunk = g.datastore.map DataStore.chunk)
    (hqueue : g'.writeBuffer.d = g.writeBuffer.d) (hht : g'.hashTable.ht = g.hashTable.ht)
    (hd : Entries P g s.entered g'.hashTable.d)
    (hpending : Entries P g s.entered g'.hashTable.pending)
    (hkeys : ∀ h, g.hashTable.contains h = true → g'.hashTable.contains h = true) :
    Ordered P s g' := by
  have hitems : s.items g' = s.items g := by
    unfold Machine.items
    rw [hqueue]
  refine ⟨?_, hd.kept hk hentered, hpending.kept hk hentered, ?_, fun batch source hb => ?_,
    hg.recorded, ?_, fun h hh => hkeys h (hg.known h hh), fun q hq => ?_, ?_, fun q hq hre => ?_⟩
  · unfold Numbered
    rw [hchunks]
    exact hg.numbered
  · rw [hht]
    exact hg.records.kept hk fun h hh => hentered h (hg.recorded h hh)
  · obtain ⟨hsub, hbatch⟩ := hg.batches batch source hb
    exact ⟨hsub, hbatch.kept hk fun h hh => hentered h (hsub h hh)⟩
  · rw [hht]
    exact hg.kept
  · obtain ⟨hitem, hnew, hknown⟩ := hg.items q (hitems ▸ hq)
    exact ⟨hitem, hnew, hkeys _ hknown⟩
  · rw [hitems]
    exact hg.distinct
  · exact (hg.put q hq fun hc hh => hre hc (hk.reclaimed _ hh)).kept hk (hput q hq) hre

/-- The table is the same too. -/
theorem Ordered.of_kept {K : H → Prop} (hg : Ordered P s g) (hk : BytesKept K g g')
    (hentered : ∀ h ∈ s.entered, K h) (hput : ∀ q, s.Put q → K q.hash)
    (hchunks : g'.datastore.map DataStore.chunk = g.datastore.map DataStore.chunk)
    (htable : g'.hashTable = g.hashTable) (hqueue : g'.writeBuffer.d = g.writeBuffer.d) :
    Ordered P s g' := by
  refine hg.transfer hk hentered hput hchunks hqueue (by rw [htable]) ?_ ?_ fun h => ?_
  · rw [htable]
    exact hg.table
  · rw [htable]
    exact hg.pending
  · rw [htable]
    exact id

/-- Only entries of the table change. -/
theorem Ordered.of_table (hg : Ordered P s g) {t : HashTable H} (ht : t.ht = g.hashTable.ht)
    (hd : Entries P g s.entered t.d) (hp : Entries P g s.entered t.pending)
    (hkeys : ∀ h, g.hashTable.contains h = true → t.contains h = true) :
    Ordered P s { g with hashTable := t } :=
  hg.transfer (K := fun _ => True) (.of_same rfl rfl rfl) (fun _ _ => trivial) (fun _ _ => trivial)
    rfl rfl ht hd hp hkeys

/-! ## Calls -/

/-- An entry whose location is left as it was. -/
theorem Sourced.relabel {source : List H} {h : H} {b b' : Block H} (hb : Sourced P g source h b)
    (hchunk : b'.chunk = b.chunk) (hoffset : b'.offset = b.offset)
    (hcompressed : b'.compressed = b.compressed) : Sourced P g source h b' := by
  refine ⟨fun hmem hre => ?_, fun hmem => ?_⟩
  · obtain ⟨loc, data, hloc, hdata, hhash⟩ := hb.written hmem fun hc => hre (hchunk.trans hc)
    refine ⟨loc, data, ?_, hdata, by rw [hcompressed]; exact hhash⟩
    unfold Block.location at hloc ⊢
    rw [hchunk]
    exact hloc
  · rw [hchunk, hoffset]
    exact hb.advance hmem

theorem contains_setItem_of {t : HashTable H} (k : H) (b : Block H) {h : H}
    (hh : t.contains h = true) : (t.setItem k b).contains h = true := by
  obtain ⟨e, he⟩ := (contains_iff_get? _ _).mp hh
  rw [contains_iff_get?, HashTable.setItem_d_get?]
  split
  · exact ⟨b, rfl⟩
  · exact ⟨e, he⟩

/-- An entry is set again, with another counter or flag. -/
theorem Ordered.setItem (hg : Ordered P s g) {h : H} {b : Block H}
    (hb : g.hashTable.d.get? h = some b) (b' : Block H) (hchunk : b'.chunk = b.chunk)
    (hoffset : b'.offset = b.offset) (hcompressed : b'.compressed = b.compressed) :
    Ordered P s { g with hashTable := g.hashTable.setItem h b' } := by
  have hsourced := (hg.table h b hb).relabel hchunk hoffset hcompressed
  exact hg.of_table rfl (hg.table.set hsourced) (hg.pending.set hsourced)
    fun k hk => contains_setItem_of h b' hk

/-- `compress` can be undone. -/
def Undone (P : Packages H) (compress : Bytes → Bool × Bytes) : Prop :=
  ∀ c, (compress c).1 = true → decompressData P (compress c).2 = c

omit [DecidableEq H] in
theorem itemOf_queueItem {compress : Bytes → Bool × Bytes} (hundone : Undone P compress) (c : Bytes) :
    ItemOf P (queueItem P compress c) := by
  refine ⟨rfl, ?_⟩
  unfold QueuedWrite.payload queueItem
  cases hc : (compress c).1 with
  | true => exact hundone c hc
  | false => rfl

omit [DecidableEq H] in
theorem dedupPieces_undone (hP : P.Lawful) (cfg : Config) (data : Bytes) :
    Undone P (dedupPieces cfg P data).2 := by
  intro c hc
  unfold dedupPieces at hc ⊢
  split at hc
  · cases hc
  · rename_i hcase
    rw [if_neg hcase]
    have hround := decompressData_compressData hP c
    rw [hc] at hround
    exact hround

/-- A new item is queued. -/
theorem Ordered.append (hg : Ordered P s g) {q : QueuedWrite H} (hitem : ItemOf P q)
    (hnew : q.hash ∉ s.entered) (hknown : g.hashTable.contains q.hash = true)
    (hother : ∀ x ∈ s.items g, x.hash ≠ q.hash) :
    Ordered P s { g with writeBuffer := g.writeBuffer.append q } := by
  have hk : BytesKept (fun _ => True) g { g with writeBuffer := g.writeBuffer.append q } :=
    .of_same rfl rfl rfl
  have hperm : (s.items { g with writeBuffer := g.writeBuffer.append q }).Perm (q :: s.items g) := by
    unfold Machine.items
    rw [WriteCache.append_d, List.append_assoc]
    exact List.perm_middle
  have hall : ∀ (source : List H) (d : Dict H (Block H)), Entries P g source d →
      Entries P { g with writeBuffer := g.writeBuffer.append q } source d :=
    fun source d hd => hd.kept hk fun _ _ => trivial
  refine ⟨hg.numbered, hall _ _ hg.table, hall _ _ hg.pending, hall _ _ hg.records,
    fun batch source hb => ⟨(hg.batches batch source hb).1, hall _ _ (hg.batches batch source hb).2⟩,
    hg.recorded, hg.kept, hg.known, fun x hx => ?_, ?_, fun x hx hre => (hg.put x hx hre).kept hk
      trivial hre⟩
  · rcases List.mem_cons.mp (hperm.mem_iff.mp hx) with rfl | hx
    · exact ⟨hitem, hnew, hknown⟩
    · exact hg.items x hx
  · rw [(hperm.map QueuedWrite.hash).nodup_iff, List.map_cons, List.nodup_cons]
    refine ⟨fun hmem => ?_, hg.distinct⟩
    obtain ⟨x, hx, hxq⟩ := List.mem_map.mp hmem
    exact hother x hx hxq

/-- **A chunk of `dedup`**: an entry is counted up, or one is made in advance for a new item. -/
theorem dedupChunk_ordered {compress : Bytes → Bool × Bytes} (hundone : Undone P compress)
    (c : Bytes) : Py.Keeps (Py.Stays (Ordered P s)) (dedupChunk P compress c) := by
  intro g hg
  cases hb : g.hashTable.d.get? (P.xxh3_64 c) with
  | some b =>
    rw [dedupChunk_known hb]
    have hset := hg.setItem hb { b with uses := b.uses + 1 } rfl rfl rfl
    exact hset.of_kept (K := fun _ => True) (.of_same rfl rfl rfl) (fun _ _ => trivial)
      (fun _ _ => trivial) rfl rfl rfl
  | none =>
    rw [dedupChunk_new hb]
    have hunknown : g.hashTable.contains (P.xxh3_64 c) = false := (Dict.contains_eq_false _).mpr hb
    have hnew : P.xxh3_64 c ∉ s.entered := fun hmem => by
      rw [hg.known _ hmem] at hunknown
      cases hunknown
    have hother : ∀ q ∈ s.items g, q.hash ≠ P.xxh3_64 c := fun q hq e => by
      rw [← e, (hg.items q hq).2.2] at hunknown
      cases hunknown
    have hplaceholder : Sourced P g s.entered (P.xxh3_64 c) (placeholder (queueItem P compress c)) :=
      ⟨fun hmem => absurd hmem hnew, fun _ => ⟨rfl, rfl⟩⟩
    have hset : Ordered P s { g with
        hashTable := g.hashTable.setItem (P.xxh3_64 c) (placeholder (queueItem P compress c)) } :=
      hg.of_table rfl (hg.table.set hplaceholder) (hg.pending.set hplaceholder)
        fun k hk => contains_setItem_of _ _ hk
    exact (hset.append (itemOf_queueItem hundone c) hnew
      ((contains_iff_get? _ _).mpr ⟨_, Dict.get?_set_self _ _ _⟩) hother).of_kept
      (K := fun _ => True) (.of_same rfl rfl rfl) (fun _ _ => trivial) (fun _ _ => trivial) rfl rfl rfl

theorem dedup_ordered (hP : P.Lawful) (cfg : Config) (data : Bytes) :
    Py.Keeps (Py.Stays (Ordered P s)) (dedup cfg P data) := by
  have hundone := dedupPieces_undone hP cfg data
  unfold dedup
  induction (dedupPieces cfg P data).1 with
  | nil => exact Py.keeps_pure _
  | cons c cs ih =>
    refine Py.keeps_bind (dedupChunk_ordered hundone c) fun b => ?_
    exact Py.keeps_bind ih fun _ => Py.keeps_pure _

/-- **Calls keep the order.** -/
theorem callsKeep_ordered (hP : P.Lawful) (cfg : Config) : CallsKeep cfg P (Ordered P s) where
  caches hc hg := by
    refine hg.of_kept (K := fun _ => True) (.of_same hc.datastore hc.smallBlocks hc.reclaimed)
      (fun _ _ => trivial) (fun _ _ => trivial) ?_ hc.hashTable ?_
    · rw [hc.datastore]
    · rw [hc.writeBuffer]
  dedup data {g} hg := dedup_ordered hP cfg data g hg
  drop now h {g} hg := by
    rcases updateIndexRemove_outcome cfg now h g with hsame | ⟨b, fb', hb, _, hrun⟩
    · rw [hsame]
      exact hg
    · have hset := hg.setItem hb { b with DELETED := true, DELETION_TIME := some now }
        rfl rfl rfl
      have hc := uncache_keeps cfg h b (flagDeleted now h b { g with freeBlocks := fb' })
      rw [hrun]
      refine hset.of_kept (K := fun _ => True) (.of_same hc.datastore hc.smallBlocks hc.reclaimed)
        (fun _ _ => trivial) (fun _ _ => trivial) ?_ hc.hashTable ?_
      · rw [hc.datastore]
        rfl
      · rw [hc.writeBuffer]
        rfl

/-! ## Rounds of the collector -/

theorem mutateEntry_ordered (h : H) {f : Block H → Block H}
    (hf : ∀ b, (f b).chunk = b.chunk ∧ (f b).offset = b.offset ∧ (f b).compressed = b.compressed) :
    Py.Keeps (Py.Stays (Ordered P s)) (mutateEntry h f) := by
  have hsourced : ∀ (g : Globals H) (source : List H) (b : Block H), Sourced P g source h b →
      Sourced P g source h (f b) := fun g source b hb =>
    hb.relabel (hf b).1 (hf b).2.1 (hf b).2.2
  intro g hg
  refine hg.of_table rfl (hg.table.modify (hsourced g _)) (hg.pending.modify (hsourced g _)) ?_
  intro k hk
  exact (contains_modify g.hashTable.d h k f).trans hk

theorem deleteBlock_ordered (cfg : Config) (h : H) (b : Block H) :
    Py.Keeps (Py.Stays (Ordered P s)) (deleteBlock cfg h b) := by
  intro g hg
  have hdel := deleteBlock_effect cfg h b g
  have hsmall := deleteBlock_smallBlocks cfg h b g
  have hk : BytesKept (fun _ => True) g (deleteBlock cfg h b g).2 := by
    refine ⟨by rw [hdel.datastore], fun k hk => ?_, fun k _ loc hre => ?_⟩
    · rw [hdel.reclaimed]
      exact List.mem_append_left _ hk
    · cases loc with
      | datastore j => rw [bytesAt_datastore, bytesAt_datastore, hdel.datastore]
      | smallBlocks =>
        have hne : h ≠ k := by
          rintro rfl
          refine hre rfl ?_
          rw [hdel.reclaimed]
          exact List.mem_append_right _ List.mem_cons_self
        rw [bytesAt_smallBlocks, bytesAt_smallBlocks, hsmall]
        split
        · rw [Dict.get?_erase, if_neg hne]
        · rfl
  refine hg.of_kept hk (fun _ _ => trivial) (fun _ _ => trivial) ?_ hdel.hashTable ?_
  · rw [hdel.datastore]
  · rw [hdel.writeBuffer]

/-- **A round keeps the order**, whatever it raises. -/
theorem collectHash_ordered (cfg : Config) (now : Time) (h : H) :
    Py.Keeps (Py.Stays (Ordered P s)) (collectHash cfg now h) := by
  refine Py.keeps_bind Py.keeps_read fun g => Py.keeps_bind (Py.keeps_ofOption _ _) fun b => ?_
  refine Py.keeps_bind (mutateEntry_ordered h fun _ => ⟨rfl, rfl, rfl⟩) fun _ => ?_
  split
  · refine Py.keeps_bind (mutateEntry_ordered h fun _ => ⟨rfl, rfl, rfl⟩) fun _ => ?_
    split
    · exact deleteBlock_ordered cfg h b
    · split
      · exact mutateEntry_ordered h fun _ => ⟨rfl, rfl, rfl⟩
      · exact Py.keeps_pure _
  · exact Py.keeps_pure _

/-! ## Writers -/

section Writers

variable {i : Nat} {w w' : WriterAt H} {q : QueuedWrite H}

/-- No other item has the hash of the one that a writer works on. -/
theorem Ordered.others (hg : Ordered P s g) (hi : s.writers[i]? = some w) (hw : w.item? = some q) :
    ∀ x ∈ g.writeBuffer.d ++ (s.writers.set i .popleft).filterMap WriterAt.item?,
      x.hash ≠ q.hash := by
  have hperm : (s.items g).Perm
      (q :: (g.writeBuffer.d ++ (s.writers.set i .popleft).filterMap WriterAt.item?)) :=
    ((filterMap_set_none hi hw rfl).append_left _).trans List.perm_middle
  have hnd := (hperm.map QueuedWrite.hash).nodup_iff.mp hg.distinct
  rw [List.map_cons, List.nodup_cons] at hnd
  intro x hx e
  exact hnd.1 (List.mem_map.mpr ⟨x, hx, e⟩)

omit [DecidableEq H] in
theorem mem_set_of_ne {x : WriterAt H} (hx : x ∈ s.writers) (hi : s.writers[i]? = some w)
    (hne : x ≠ w) (y : WriterAt H) : x ∈ s.writers.set i y := by
  obtain ⟨j, hj⟩ := List.mem_iff_getElem?.mp hx
  refine List.mem_iff_getElem?.mpr ⟨j, ?_⟩
  rw [getElem?_set_of hi, if_neg, hj]
  rintro rfl
  rw [hi] at hj
  exact hne (Option.some.inj hj).symm

/-- The bytes that others put are those of other hashes. -/
theorem Ordered.put_ne (hg : Ordered P s g) (hi : s.writers[i]? = some (.commit q))
    {x : QueuedWrite H} (hx : s.Put x) : x.hash ≠ q.hash := by
  refine hg.others hi rfl x (List.mem_append_right _ (List.mem_filterMap.mpr ?_))
  rcases hx with hx | hx
  · exact ⟨_, mem_set_of_ne hx hi (fun e => by cases e) _, rfl⟩
  · exact ⟨_, mem_set_of_ne hx hi (fun e => by cases e) _, rfl⟩

/-- A writer moves on: it keeps its item, at another location, or lets go of it. -/
theorem Ordered.setWriter (hg : Ordered P s g) (hi : s.writers[i]? = some w)
    (hitem : ∀ q', w'.item? = some q' → ∃ q, w.item? = some q ∧ q'.hash = q.hash ∧ ItemOf P q')
    (hput : ∀ q', w' = .replicate q' ∨ w' = .install q' →
      (q'.chunk = -1 → q'.hash ∉ g.reclaimed) → HasBytes P g q'.hash (committedEntry q')) :
    Ordered P { s with writers := s.writers.set i w' } g := by
  have hmem : ∀ x ∈ s.writers.set i w', x = w' ∨ x ∈ s.writers := fun x hx =>
    (List.mem_or_eq_of_mem_set hx).symm
  refine ⟨hg.numbered, hg.table, hg.pending, hg.records, hg.batches, hg.recorded, hg.kept,
    hg.known, fun x hx => ?_, ?_, fun x hx hre => ?_⟩
  · rcases List.mem_append.mp hx with hx | hx
    · exact hg.items x (List.mem_append_left _ hx)
    · obtain ⟨y, hy, hyx⟩ := List.mem_filterMap.mp hx
      rcases hmem y hy with rfl | hy
      · obtain ⟨q, hq, hhash, hitem⟩ := hitem x hyx
        obtain ⟨_, hnew, hknown⟩ := hg.items q (List.mem_append_right _
          (List.mem_filterMap.mpr ⟨w, List.mem_of_getElem? hi, hq⟩))
        rw [← hhash] at hnew hknown
        exact ⟨hitem, hnew, hknown⟩
      · exact hg.items x (List.mem_append_right _ (List.mem_filterMap.mpr ⟨y, hy, hyx⟩))
  · have hdistinct := hg.distinct
    unfold Machine.items at hdistinct ⊢
    show ((g.writeBuffer.d ++ (s.writers.set i w').filterMap WriterAt.item?).map
      QueuedWrite.hash).Nodup
    cases hw : w.item? with
    | none =>
      have hw' : w'.item? = w.item? := by
        cases hw' : w'.item? with
        | none => exact hw.symm
        | some q' =>
          obtain ⟨q, hq, _⟩ := hitem q' hw'
          rw [hw] at hq
          cases hq
      rw [filterMap_set_same hi hw']
      exact hdistinct
    | some q =>
      have hlost : (s.items g).Perm
          (q :: (g.writeBuffer.d ++ (s.writers.set i .popleft).filterMap WriterAt.item?)) :=
        ((filterMap_set_none hi hw rfl).append_left _).trans List.perm_middle
      have hrest := (hlost.map QueuedWrite.hash).nodup_iff.mp hg.distinct
      rw [List.map_cons, List.nodup_cons] at hrest
      have hset : (s.writers.set i WriterAt.popleft)[i]? = some .popleft := by
        rw [getElem?_set_of hi, if_pos rfl]
      have hback : (s.writers.set i WriterAt.popleft).set i w' = s.writers.set i w' := by simp
      rw [← hback]
      cases hw' : w'.item? with
      | none =>
        rw [filterMap_set_same hset hw']
        exact hrest.2
      | some q' =>
        obtain ⟨q₁, hq₁, hhash, _⟩ := hitem q' hw'
        rw [hw] at hq₁
        cases hq₁
        have hgained := ((filterMap_set_some hset rfl hw').append_left g.writeBuffer.d).trans
          List.perm_middle
        rw [(hgained.map QueuedWrite.hash).nodup_iff, List.map_cons, List.nodup_cons, hhash]
        exact hrest
  · have hput' : (∃ y, y ∈ s.writers.set i w' ∧ (y = .replicate x ∨ y = .install x)) := by
      rcases hx with hx | hx
      · exact ⟨_, hx, .inl rfl⟩
      · exact ⟨_, hx, .inr rfl⟩
    obtain ⟨y, hy, hyx⟩ := hput'
    rcases hmem y hy with rfl | hy
    · exact hput x hyx hre
    · refine hg.put x ?_ hre
      rcases hyx with rfl | rfl
      · exact .inl hy
      · exact .inr hy

/-- A writer takes the first item of the queue. -/
theorem Ordered.pop (hg : Ordered P s g) (hi : s.writers[i]? = some .popleft)
    {rest : WriteCache (QueuedWrite H)} (hp : g.writeBuffer.popleft = some (q, rest)) :
    Ordered P { s with writers := s.writers.set i (.commit q) } { g with writeBuffer := rest } := by
  have hk : BytesKept (fun _ => True) g { g with writeBuffer := rest } := .of_same rfl rfl rfl
  have hall : ∀ (source : List H) (d : Dict H (Block H)), Entries P g source d →
      Entries P { g with writeBuffer := rest } source d := fun source d hd =>
    hd.kept hk fun _ _ => trivial
  have hperm : (Machine.items { s with writers := s.writers.set i (.commit q) }
      { g with writeBuffer := rest }).Perm (s.items g) := by
    unfold Machine.items
    rw [(WriteCache.popleft_eq_some hp).1]
    exact ((filterMap_set_some (f := WriterAt.item?) (y := .commit q) hi rfl rfl).append_left
      rest.d).trans List.perm_middle
  refine ⟨hg.numbered, hall _ _ hg.table, hall _ _ hg.pending, hall _ _ hg.records,
    fun batch source hb => ⟨(hg.batches batch source hb).1, hall _ _ (hg.batches batch source hb).2⟩,
    hg.recorded, hg.kept, hg.known, fun x hx => hg.items x (hperm.mem_iff.mp hx), ?_,
    fun x hx hre => ?_⟩
  · rw [(hperm.map QueuedWrite.hash).nodup_iff]
    exact hg.distinct
  · refine (hg.put x ?_ hre).kept hk trivial hre
    rcases hx with hx | hx
    · rcases List.mem_or_eq_of_mem_set hx with hx | hx
      · exact .inl hx
      · cases hx
    · rcases List.mem_or_eq_of_mem_set hx with hx | hx
      · exact .inr hx
      · cases hx

/-- A writer enters a block whose bytes it put. -/
theorem Ordered.enter (cfg : Config) (hg : Ordered P s g) (hother : ∀ x ∈ s.items g, x.hash ≠ q.hash)
    (hbytes : (q.chunk = -1 → q.hash ∉ g.reclaimed) → HasBytes P g q.hash (committedEntry q)) :
    Ordered P { s with entered := q.hash :: s.entered } (installed cfg q g) := by
  have hk : BytesKept (fun _ => True) g (installed cfg q g) := .of_same rfl rfl rfl
  have hentered : ∀ d : Dict H (Block H), Entries P g s.entered d →
      Entries P (installed cfg q g) (q.hash :: s.entered)
        ((d.set q.hash (committedEntry q)).set q.hash { committedEntry q with uses := 1 }) := by
    intro d hd
    have hnew : Entries P g (q.hash :: s.entered)
        ((d.set q.hash (committedEntry q)).set q.hash { committedEntry q with uses := 1 }) := by
      refine Entries.enter (fun k c hne hk => ?_) hbytes
      rw [Dict.get?_set_ne _ _ hne] at hk
      exact hd k c hk
    exact hnew.kept hk fun _ _ => trivial
  refine ⟨hg.numbered, hentered _ hg.table, hentered _ hg.pending,
    hg.records.kept hk fun _ _ => trivial, fun batch source hb => ?_,
    fun h hh => List.mem_cons_of_mem _ (hg.recorded h hh), hg.kept, fun h hh => ?_,
    fun x hx => ?_, hg.distinct, fun x hx hre => (hg.put x hx hre).kept hk trivial hre⟩
  · obtain ⟨hsub, hbatch⟩ := hg.batches batch source hb
    exact ⟨fun h hh => List.mem_cons_of_mem _ (hsub h hh), hbatch.kept hk fun _ _ => trivial⟩
  · refine (contains_iff_get? _ _).mpr ?_
    rcases List.mem_cons.mp hh with rfl | hh
    · exact ⟨_, Dict.get?_set_self _ _ _⟩
    · exact (contains_iff_get? _ _).mp (contains_setItem_of _ _ (contains_setItem_of _ _ (hg.known h hh)))
  · obtain ⟨hitem, hnew, hknown⟩ := hg.items x hx
    refine ⟨hitem, fun hmem => ?_, contains_setItem_of _ _ (contains_setItem_of _ _ hknown)⟩
    rcases List.mem_cons.mp hmem with e | hmem
    · exact hother x hx e
    · exact hnew hmem

/-- The put of a small block. -/
theorem Ordered.putSmall (hg : Ordered P s g) (hi : s.writers[i]? = some (.commit q)) :
    Ordered P { s with writers := s.writers.set i (.install { q with chunk := -1, block := -1 }) }
      { g with smallBlocks := g.smallBlocks.set q.hash q.payload } := by
  have hq := hg.items q (List.mem_append_right _ (List.mem_filterMap.mpr
    ⟨_, List.mem_of_getElem? hi, rfl⟩))
  have hk : BytesKept (fun h => h ≠ q.hash) g
      { g with smallBlocks := g.smallBlocks.set q.hash q.payload } := by
    refine ⟨rfl, fun h hh => hh, fun h hne loc _ => ?_⟩
    cases loc with
    | smallBlocks => exact Dict.get?_set_ne _ _ (Ne.symm hne)
    | datastore j => rfl
  have hkept : Ordered P s { g with smallBlocks := g.smallBlocks.set q.hash q.payload } :=
    hg.of_kept hk (fun h hh e => hq.2.1 (e ▸ hh)) (fun x hx => hg.put_ne hi hx) rfl rfl rfl
  refine hkept.setWriter hi (fun q' hq' => ?_) fun q' hq' _ => ?_
  · cases hq'
    exact ⟨q, rfl, rfl, hq.1.hash, hq.1.payload⟩
  · rcases hq' with hq' | hq' <;> cases hq'
    refine ⟨.smallBlocks, q.payload, rfl, Dict.get?_set_self _ _ _, ?_⟩
    have hpayload := hq.1.payload
    show P.xxh3_64 (if q.compressed = true then decompressData P q.payload else q.payload) = q.hash
    rw [hpayload]
    exact hq.1.hash

/-- The put of a block in a datastore. -/
theorem Ordered.putStore (hg : Ordered P s g) (block : Int) (hi : s.writers[i]? = some (.commit q))
    {ds : List (DataStore H)} {store : Nat} {chunk : Int}
    (hput : PutRecord g.datastore ds store q.hash q.payload)
    (hnamed : (g.datastore.map DataStore.chunk)[store]? = some chunk)
    (hw' : w' = .replicate { q with chunk := chunk, block := block } ∨
      w' = .install { q with chunk := chunk, block := block }) :
    Ordered P { s with writers := s.writers.set i w' } { g with datastore := ds } := by
  have hq := hg.items q (List.mem_append_right _ (List.mem_filterMap.mpr
    ⟨_, List.mem_of_getElem? hi, rfl⟩))
  have hk : BytesKept (fun h => h ≠ q.hash) g { g with datastore := ds } := by
    refine ⟨hput.length, fun h hh => hh, fun h hne loc _ => ?_⟩
    cases loc with
    | smallBlocks => rfl
    | datastore j =>
      show stored ds j h = stored g.datastore j h
      rw [hput.stored, if_neg fun e => hne e.2.symm]
  have hkept : Ordered P s { g with datastore := ds } :=
    hg.of_kept hk (fun h hh e => hq.2.1 (e ▸ hh)) (fun x hx => hg.put_ne hi hx) hput.chunks rfl rfl
  have hbytes : HasBytes P { g with datastore := ds } q.hash
      (committedEntry { q with chunk := chunk, block := block }) := by
    have hchunk : chunk = store := hg.numbered store chunk hnamed
    have hlt : store < ds.length := by
      rw [hput.length]
      obtain ⟨hlt, _⟩ := List.getElem?_eq_some_iff.mp hnamed
      simpa using hlt
    refine ⟨.datastore store, q.payload, ?_, ?_, ?_⟩
    · show (if chunk = -1 then some Location.smallBlocks
        else (index? ds.length chunk).map .datastore) = some (.datastore store)
      rw [if_neg (by omega), hchunk, index?_natCast hlt]
      rfl
    · show stored ds store q.hash = some q.payload
      rw [hput.stored, if_pos ⟨rfl, rfl⟩]
    · have hpayload := hq.1.payload
      show P.xxh3_64 (if q.compressed = true then decompressData P q.payload else q.payload) = q.hash
      rw [hpayload]
      exact hq.1.hash
  have hitem : w'.item? = some { q with chunk := chunk, block := block } := by
    rcases hw' with rfl | rfl <;> rfl
  refine hkept.setWriter hi (fun q' hq' => ?_) fun q' hq' _ => ?_
  · rw [hitem] at hq'
    cases hq'
    exact ⟨q, rfl, rfl, hq.1.hash, hq.1.payload⟩
  · have hq'' : w'.item? = some q' := by
      rcases hq' with rfl | rfl <;> rfl
    rw [hitem] at hq''
    cases hq''
    exact hbytes

/-- A writer whose commit fails lets go of its block. -/
theorem Ordered.giveUp (hg : Ordered P s g) (hi : s.writers[i]? = some w) :
    Ordered P { s with writers := s.writers.set i .popleft } g :=
  hg.setWriter hi (fun q' hq' => by cases hq') fun q' hq' => by rcases hq' with hq' | hq' <;> cases hq'

/-- The bytes go to a store, or the write is given up. -/
theorem Ordered.execCommit (cfg : Config) (env : CommitEnv) (hg : Ordered P s g)
    (hi : s.writers[i]? = some (.commit q)) :
    Ordered P { s with
      writers := s.writers.set i ((WriterAt.commit q).exec cfg env g).1
      entered := (WriterAt.commit q).enters ++ s.entered }
      ((WriterAt.commit q).exec cfg env g).2 := by
  by_cases hs : isSmallBlock cfg q
  · cases hp : cfg.smallBlockDbPath with
    | path =>
      have hrun : (WriterAt.commit q).exec cfg env g =
          (.install { q with chunk := -1, block := -1 },
            { g with smallBlocks := g.smallBlocks.set q.hash q.payload }) := by
        simp only [WriterAt.exec, if_pos hs]
        unfold Globals.onSmallBlocks writeSmallBlock openSmallBlockDb
        rw [hp]
        rfl
      rw [hrun]
      exact hg.putSmall hi
    | list =>
      have hrun : (WriterAt.commit q).exec cfg env g = (.popleft, g) := by
        simp only [WriterAt.exec, if_pos hs]
        unfold Globals.onSmallBlocks writeSmallBlock openSmallBlockDb
        rw [hp]
        rfl
      rw [hrun]
      exact hg.giveUp hi
  · cases hb : cfg.backend with
    | mmap =>
      have hrun : (WriterAt.commit q).exec cfg env g = (.popleft, g) := by
        simp only [WriterAt.exec, if_neg hs, hb]
      rw [hrun]
      exact hg.giveUp hi
    | unset =>
      have hrun : (WriterAt.commit q).exec cfg env g = (.popleft, g) := by
        simp only [WriterAt.exec, if_neg hs, hb]
      rw [hrun]
      exact hg.giveUp hi
    | rocksdb =>
      have hspec := writeData_spec cfg.writeSpread env.primary q q.payload false g.datastore
      unfold Py.wp at hspec
      cases hw : writeData cfg.writeSpread env.primary q q.payload false g.datastore with
      | mk r ds =>
        rw [hw] at hspec
        have hzoom : Globals.onDatastore
            (writeData cfg.writeSpread env.primary q q.payload false) g =
            (r, { g with datastore := ds }) := Py.run_zoom hw
        cases r with
        | error e =>
          have hrun : (WriterAt.commit q).exec cfg env g = (.popleft, { g with datastore := ds }) := by
            simp only [WriterAt.exec, if_neg hs, hb, hzoom]
          have hsame : SameRecords g.datastore ds := hspec
          have hk : BytesKept (fun _ => True) g { g with datastore := ds } := by
            refine ⟨hsame.length, fun h hh => hh, fun h _ loc _ => ?_⟩
            cases loc with
            | smallBlocks => rfl
            | datastore j => exact hsame.stored j h
          rw [hrun]
          exact (hg.of_kept hk (fun _ _ => trivial) (fun _ _ => trivial) hsame.chunks rfl rfl).giveUp hi
        | ok q₁ =>
          obtain ⟨store, chunk, block, hput, hnamed, hq₁⟩ := hspec
          rw [if_neg Bool.false_ne_true] at hq₁
          subst hq₁
          have hrun : (WriterAt.commit q).exec cfg env g =
              (if cfg.replicateData then .replicate { q with chunk := chunk, block := block }
                else .install { q with chunk := chunk, block := block },
                { g with datastore := ds }) := by
            simp only [WriterAt.exec, if_neg hs, hb, hzoom]
          rw [hrun]
          refine hg.putStore block hi hput hnamed ?_
          by_cases hr : cfg.replicateData = true
          · exact .inl (if_pos hr)
          · exact .inr (if_neg hr)

theorem Ordered.execReplicate (cfg : Config) (env : CommitEnv) (hg : Ordered P s g)
    (hi : s.writers[i]? = some (.replicate q)) :
    Ordered P { s with
      writers := s.writers.set i ((WriterAt.replicate q).exec cfg env g).1
      entered := (WriterAt.replicate q).enters ++ s.entered }
      ((WriterAt.replicate q).exec cfg env g).2 := by
  have hspec := writeData_spec cfg.writeSpread env.mirror q q.payload true g.mirrorDatastore
  unfold Py.wp at hspec
  cases hw : writeData cfg.writeSpread env.mirror q q.payload true g.mirrorDatastore with
  | mk r mds =>
    rw [hw] at hspec
    have hzoom : Globals.onMirror (writeData cfg.writeSpread env.mirror q q.payload true) g =
        (r, { g with mirrorDatastore := mds }) := Py.run_zoom hw
    have hkept : Ordered P s { g with mirrorDatastore := mds } :=
      hg.of_kept (K := fun _ => True) (.of_same rfl rfl rfl) (fun _ _ => trivial)
        (fun _ _ => trivial) rfl rfl rfl
    cases r with
    | error e =>
      have hrun : (WriterAt.replicate q).exec cfg env g =
          (.popleft, { g with mirrorDatastore := mds }) := by
        simp only [WriterAt.exec, hzoom]
      rw [hrun]
      exact hkept.giveUp hi
    | ok q₁ =>
      obtain ⟨_, _, _, _, _, hq₁⟩ := hspec
      rw [if_pos rfl] at hq₁
      subst hq₁
      have hrun : (WriterAt.replicate q₁).exec cfg env g =
          (.install q₁, { g with mirrorDatastore := mds }) := by
        simp only [WriterAt.exec, hzoom]
      rw [hrun]
      refine hkept.setWriter hi (fun q' hq' => ?_) fun q' hq' hre => ?_
      · cases hq'
        exact ⟨q₁, rfl, rfl, (hkept.items q₁ (List.mem_append_right _ (List.mem_filterMap.mpr
          ⟨_, List.mem_of_getElem? hi, rfl⟩))).1⟩
      · rcases hq' with hq' | hq' <;> cases hq'
        exact hkept.put q₁ (.inl (List.mem_of_getElem? hi)) hre

/-- **An operation of a writer keeps the order.** -/
theorem Ordered.writer (cfg : Config) (env : CommitEnv) (hg : Ordered P s g)
    (hi : s.writers[i]? = some w) :
    Ordered P { s with
      writers := s.writers.set i (w.exec cfg env g).1
      entered := w.enters ++ s.entered } (w.exec cfg env g).2 := by
  cases w with
  | popleft =>
    cases hp : g.writeBuffer.popleft with
    | none =>
      have hrun : WriterAt.popleft.exec cfg env g = (.popleft, g) := by
        simp only [WriterAt.exec, hp]
      rw [hrun]
      exact hg.giveUp hi
    | some p =>
      obtain ⟨q, rest⟩ := p
      rw [exec_popleft hp]
      exact hg.pop hi hp
  | commit q => exact hg.execCommit cfg env hi
  | replicate q => exact hg.execReplicate cfg env hi
  | install q =>
    have hrun : (WriterAt.install q).exec cfg env g = (.popleft, installed cfg q g) := by
      simp only [WriterAt.exec, installBlock_run]
    rw [hrun]
    exact (hg.giveUp hi).enter cfg (hg.others hi rfl)
      (hg.put q (.inr (List.mem_of_getElem? hi)))

end Writers

/-! ## Commits -/

/-- The threads move; table, queue and writers are the same. -/
theorem Ordered.of_threads (hg : Ordered P s g) {s' : Machine H} (hwriters : s'.writers = s.writers)
    (hentered : s'.entered = s.entered) (hrecorded : s'.recorded = s.recorded)
    (hsaves : ∀ batch source, s'.Saves batch source → s.Saves batch source) : Ordered P s' g := by
  have hitems : s'.items g = s.items g := by
    unfold Machine.items
    rw [hwriters]
  refine ⟨hg.numbered, ?_, ?_, ?_, fun batch source hb => ?_, ?_, ?_, ?_, ?_, ?_, ?_⟩
  · rw [hentered]
    exact hg.table
  · rw [hentered]
    exact hg.pending
  · rw [hrecorded]
    exact hg.records
  · rw [hentered]
    exact hg.batches batch source (hsaves batch source hb)
  · rw [hrecorded, hentered]
    exact hg.recorded
  · rw [hrecorded]
    exact hg.kept
  · rw [hentered]
    exact hg.known
  · rw [hitems, hentered]
    exact hg.items
  · rw [hitems]
    exact hg.distinct
  · unfold Machine.Put
    rw [hwriters]
    exact hg.put

/-- A commit builds its batch. -/
theorem Ordered.takeBatch (hg : Ordered P s g) {s' : Machine H} (hwriters : s'.writers = s.writers)
    (hentered : s'.entered = s.entered) (hrecorded : s'.recorded = s.recorded)
    (hsaves : ∀ batch source, s'.Saves batch source →
      s.Saves batch source ∨ batch = g.hashTable.pending ∧ source = s.entered) :
    Ordered P s' { g with hashTable := g.hashTable.takePending } := by
  have hk : BytesKept (fun _ => True) g { g with hashTable := g.hashTable.takePending } :=
    .of_same rfl rfl rfl
  have hempty : Entries P g s.entered Dict.empty := fun h b hb => by cases hb
  have hold : Ordered P s { g with hashTable := g.hashTable.takePending } :=
    hg.of_table rfl hg.table hempty fun _ hh => hh
  refine ⟨hold.numbered, ?_, ?_, ?_, fun batch source hb => ?_, ?_, ?_, ?_, ?_, ?_, ?_⟩
  · rw [hentered]
    exact hold.table
  · rw [hentered]
    exact hold.pending
  · rw [hrecorded]
    exact hold.records
  · rw [hentered]
    rcases hsaves batch source hb with hb | ⟨rfl, rfl⟩
    · exact hold.batches batch source hb
    · exact ⟨fun h hh => hh, hg.pending.kept hk fun _ _ => trivial⟩
  · rw [hrecorded, hentered]
    exact hold.recorded
  · rw [hrecorded]
    exact hold.kept
  · rw [hentered]
    exact hold.known
  · unfold Machine.items
    rw [hwriters, hentered]
    exact hold.items
  · unfold Machine.items
    rw [hwriters]
    exact hold.distinct
  · unfold Machine.Put
    rw [hwriters]
    exact hold.put

theorem mem_recordedBy {batch : Dict H (Block H)} {source : List H} {h : H} :
    h ∈ s.recordedBy batch source ↔
      if batch.contains h = true then h ∈ source else h ∈ s.recorded := by
  unfold Machine.recordedBy
  rw [List.mem_append, List.mem_filter, List.mem_filter]
  cases batch.contains h with
  | true => simp
  | false => simp

/-- **A batch reaches the database.** -/
theorem Ordered.writeBatch (hg : Ordered P s g) {batch : Dict H (Block H)} {source : List H}
    (hb : s.Saves batch source) :
    Ordered P { s with recorded := s.recordedBy batch source }
      { g with hashTable := g.hashTable.writeBatch batch } := by
  obtain ⟨hsub, hbatch⟩ := hg.batches batch source hb
  have hk : BytesKept (fun _ => True) g { g with hashTable := g.hashTable.writeBatch batch } :=
    .of_same rfl rfl rfl
  have hall : ∀ (source : List H) (d : Dict H (Block H)), Entries P g source d →
      Entries P { g with hashTable := g.hashTable.writeBatch batch } source d :=
    fun source d hd => hd.kept hk fun _ _ => trivial
  have hget : ∀ h, (g.hashTable.writeBatch batch).ht.get? h =
      (batch.get? h).orElse fun _ => g.hashTable.ht.get? h := fun h => Dict.get?_update _ _ h
  have hrecords : Entries P g (s.recordedBy batch source) (g.hashTable.writeBatch batch).ht := by
    intro h b hh
    rw [hget] at hh
    cases hbh : batch.get? h with
    | some b' =>
      rw [hbh] at hh
      cases hh
      have hc : batch.contains h = true := (Dict.contains_iff _).mpr ⟨b, hbh⟩
      have hold := hbatch h b hbh
      refine ⟨fun hmem => hold.written ?_, fun hmem => hold.advance fun hs => hmem ?_⟩
      · rw [mem_recordedBy, if_pos hc] at hmem
        exact hmem
      · rw [mem_recordedBy, if_pos hc]
        exact hs
    | none =>
      rw [hbh] at hh
      have hc : ¬ batch.contains h = true := by
        rw [(Dict.contains_eq_false _).mpr hbh]
        exact Bool.false_ne_true
      have hold := hg.records h b hh
      refine ⟨fun hmem => hold.written ?_, fun hmem => hold.advance fun hs => hmem ?_⟩
      · rw [mem_recordedBy, if_neg hc] at hmem
        exact hmem
      · rw [mem_recordedBy, if_neg hc]
        exact hs
  refine ⟨hg.numbered, hall _ _ hg.table, hall _ _ hg.pending, hall _ _ hrecords,
    fun b' source' hb' => ⟨(hg.batches b' source' hb').1, hall _ _ (hg.batches b' source' hb').2⟩,
    fun h hh => ?_, fun h hh => ?_, hg.known, hg.items, hg.distinct,
    fun x hx hre => (hg.put x hx hre).kept hk trivial hre⟩
  · rw [mem_recordedBy] at hh
    split at hh
    · exact hsub h hh
    · exact hg.recorded h hh
  · rw [mem_recordedBy] at hh
    refine (Dict.contains_iff _).mpr ?_
    show ∃ b, (g.hashTable.writeBatch batch).ht.get? h = some b
    rw [hget]
    split at hh
    · rename_i hc
      obtain ⟨b, hbh⟩ := (Dict.contains_iff _).mp hc
      exact ⟨b, by rw [hbh]; rfl⟩
    · rename_i hc
      obtain ⟨b, hbh⟩ := (Dict.contains_iff _).mp (hg.kept h hh)
      refine ⟨b, ?_⟩
      rw [(Dict.contains_eq_false _).mp (Bool.not_eq_true _ ▸ hc)]
      exact hbh

/-! ## Mounts -/

/-- A new file system over given stores: nothing was written, and no thread has begun. -/
structure Machine.New (s : Machine H) : Prop where
  numbered : Numbered s.fs.globals.datastore
  table : ∀ h, s.fs.globals.hashTable.d.get? h = none
  pending : ∀ h, s.fs.globals.hashTable.pending.get? h = none
  records : ∀ h, s.fs.globals.hashTable.ht.get? h = none
  queue : s.fs.globals.writeBuffer.d = []
  main : s.main = none
  collector : s.collector = .idle
  writers : ∀ w ∈ s.writers, w = .popleft
  entered : s.entered = []
  recorded : s.recorded = []

omit [DecidableEq H] in
/-- No thread works on a block. -/
theorem items_idle (hqueue : g.writeBuffer.d = []) (hwriters : ∀ w ∈ s.writers, w = .popleft) :
    s.items g = [] := by
  unfold Machine.items
  rw [hqueue, List.nil_append, List.filterMap_eq_nil_iff]
  intro w hw
  rw [hwriters w hw]
  rfl

omit [DecidableEq H] in
theorem put_idle (hwriters : ∀ w ∈ s.writers, w = .popleft) (q : QueuedWrite H) : ¬ s.Put q := by
  rintro (hq | hq) <;> cases hwriters _ hq

omit [DecidableEq H] in
theorem saves_idle (hmain : s.main = none) (hcollector : s.collector = .idle)
    (batch : Dict H (Block H)) (source : List H) : ¬ s.Saves batch source := by
  rintro (hb | hb)
  · rw [hmain] at hb
    cases hb
  · rw [hcollector] at hb
    cases hb

theorem Machine.New.ordered (hs : s.New) : Ordered P s s.fs.globals := by
  have hitems : s.items s.fs.globals = [] := items_idle hs.queue hs.writers
  have hempty : ∀ (d : Dict H (Block H)) source, (∀ h, d.get? h = none) →
      Entries P s.fs.globals source d := fun d source hd h b hb => by
    rw [hd] at hb
    cases hb
  refine ⟨hs.numbered, hempty _ _ hs.table, hempty _ _ hs.pending, hempty _ _ hs.records,
    fun batch source hb => absurd hb (saves_idle hs.main hs.collector batch source), ?_, ?_, ?_, ?_, ?_,
    fun q hq => absurd hq (put_idle hs.writers q)⟩
  · rw [hs.recorded]
    exact fun h hh => by cases hh
  · rw [hs.recorded]
    exact fun h hh => by cases hh
  · rw [hs.entered]
    exact fun h hh => by cases hh
  · rw [hitems]
    exact fun q hq => by cases hq
  · rw [hitems]
    exact List.nodup_nil

/-- **The next mount**: the table is what was recorded. -/
theorem Ordered.mounted (hg : Ordered P s s.fs.globals) (uid gid : Nat) (now : Time) :
    Ordered P (s.mounted uid gid now) (s.mounted uid gid now).fs.globals := by
  have hk : BytesKept (fun _ => True) s.fs.globals s.fs.globals.mounted := .of_same rfl rfl rfl
  have hidle : ∀ w ∈ (s.mounted uid gid now).writers, w = .popleft := fun w hw => by
    obtain ⟨_, _, rfl⟩ := List.mem_map.mp hw
    rfl
  have hitems : (s.mounted uid gid now).items s.fs.globals.mounted = [] := items_idle rfl hidle
  have hrecords : Entries P s.fs.globals.mounted s.recorded s.fs.globals.hashTable.ht :=
    hg.records.kept hk fun _ _ => trivial
  have hget : ∀ h, s.fs.globals.mounted.hashTable.d.get? h = s.fs.globals.hashTable.ht.get? h :=
    fun h => s.fs.globals.hashTable.initFromDisk_d_get? h
  refine ⟨hg.numbered, fun h b hb => hrecords h b ((hget h).symm.trans hb), (fun h b hb => by cases hb),
    hrecords, fun batch source hb => absurd hb (saves_idle rfl rfl batch source), fun h hh => hh,
    hg.kept, fun h hh => ?_, ?_, ?_, fun q hq => absurd hq (put_idle hidle q)⟩
  · obtain ⟨b, hb⟩ := (Dict.contains_iff _).mp (hg.kept h hh)
    exact (contains_iff_get? _ _).mpr ⟨b, (hget h).trans hb⟩
  · show ∀ q ∈ (s.mounted uid gid now).items s.fs.globals.mounted, _
    rw [hitems]
    exact fun q hq => by cases hq
  · show (((s.mounted uid gid now).items s.fs.globals.mounted).map QueuedWrite.hash).Nodup
    rw [hitems]
    exact List.nodup_nil

/-! ## Runs -/

/-- An operation of a commit. -/
theorem Ordered.save (hg : Ordered P s s.fs.globals) {c : Saving H}
    (hc : s.main = some c ∨ s.collector = .committing c) :
    Ordered P (s.save c) (s.save c).fs.globals := by
  cases c with
  | database batch source =>
    have hb : s.Saves batch source := hc
    exact (hg.writeBatch hb).of_threads rfl rfl rfl fun _ _ h => h
  | mirror batch =>
    have hkept : Ordered P s (s.save (.mirror batch)).fs.globals :=
      hg.of_table rfl hg.table hg.pending fun _ hh => hh
    exact hkept.of_threads rfl rfl rfl fun _ _ h => h

/-- The end of a pass. -/
theorem Ordered.collectorCommits (hg : Ordered P s s.fs.globals) :
    Ordered P s.collectorCommits s.collectorCommits.fs.globals := by
  refine hg.takeBatch rfl rfl rfl fun batch source hb => ?_
  rcases hb with hb | hb
  · exact .inl (.inl hb)
  · cases hb
    exact .inr ⟨rfl, rfl⟩

omit [DecidableEq H] in
theorem next_eq_mirror {c : Saving H} {batch : Dict H (Block H)} {source : List H} :
    c.next ≠ some (.database batch source) := by
  cases c <;> intro h <;> cases h

/-- **An operation of the collector's thread keeps the order.** -/
theorem Ordered.collector (cfg : Config) (now : Time) (hg : Ordered P s s.fs.globals) :
    Ordered P (s.collectorStep cfg now) (s.collectorStep cfg now).fs.globals := by
  unfold Machine.collectorStep
  cases hcollector : s.collector with
  | idle =>
    refine hg.of_threads rfl rfl rfl fun batch source hb => ?_
    rcases hb with hb | hb
    · exact .inl hb
    · cases hb
  | committing c =>
    refine (hg.save (.inr hcollector)).of_threads rfl rfl rfl fun batch source hb => ?_
    rcases hb with hb | hb
    · exact .inl (by cases c <;> exact hb)
    · cases c with
      | database b src => cases hb
      | mirror b => cases hb
  | collecting =>
    dsimp only
    cases hq : s.fs.globals.removeUses with
    | nil => exact hg.collectorCommits
    | cons remove rest =>
      have hpop : Ordered P s { s.fs.globals with removeUses := rest } :=
        hg.of_kept (K := fun _ => True) (.of_same rfl rfl rfl) (fun _ _ => trivial)
          (fun _ _ => trivial) rfl rfl rfl
      have hround := collectHash_ordered cfg now remove _ hpop
      dsimp only
      cases hr : collectHash cfg now remove { s.fs.globals with removeUses := rest } with
      | mk r g =>
        rw [hr] at hround
        have hnext : Ordered P (s.onGlobals fun _ => g) (s.onGlobals fun _ => g).fs.globals :=
          hround.of_threads rfl rfl rfl fun _ _ h => h
        cases r with
        | ok _ => exact hnext
        | error e =>
          dsimp only
          split
          · exact hnext.collectorCommits
          · refine hnext.of_threads rfl rfl rfl fun batch source hb => ?_
            rcases hb with hb | hb
            · exact .inl hb
            · cases hb

/-- **Every move keeps the order.** -/
theorem Ordered.exec (hP : P.Lawful) (cfg : Config) (hg : Ordered P s s.fs.globals)
    (m : MachineMove H) :
    Ordered P (Machine.exec cfg P m s) (Machine.exec cfg P m s).fs.globals := by
  cases m with
  | call e =>
    cases hmain : s.main with
    | some c =>
      have hrun : Machine.exec cfg P (.call e) s = s := by simp only [Machine.exec, hmain]
      rw [hrun]
      exact hg
    | none =>
      have hrun : Machine.exec cfg P (.call e) s =
          if e.isCall then { s with fs := e.exec cfg P s.fs } else s := by
        simp only [Machine.exec, hmain]
      rw [hrun]
      by_cases he : e.isCall = true
      · rw [if_pos he]
        exact ((callsKeep_ordered hP cfg).call hg he).of_threads rfl rfl rfl fun _ _ h => h
      · rw [if_neg he]
        exact hg
  | flush =>
    cases hmain : s.main with
    | some c =>
      have hrun : Machine.exec cfg P .flush s = s := by simp only [Machine.exec, hmain]
      rw [hrun]
      exact hg
    | none =>
      have hrun : Machine.exec cfg P .flush s =
          { Machine.onTable HashTable.takePending { s with fs := (commitInodes s.fs).2 } with
            main := some (Machine.toSave { s with fs := (commitInodes s.fs).2 }) } := by
        simp only [Machine.exec, hmain]
      rw [hrun]
      refine hg.takeBatch rfl rfl rfl fun batch source hb => ?_
      rcases hb with hb | hb
      · cases hb
        exact .inr ⟨rfl, rfl⟩
      · exact .inl (.inr hb)
  | main =>
    cases hmain : s.main with
    | none =>
      have hrun : Machine.exec cfg P .main s = s := by simp only [Machine.exec, hmain]
      rw [hrun]
      exact hg
    | some c =>
      have hrun : Machine.exec cfg P .main s = { s.save c with main := c.next } := by
        simp only [Machine.exec, hmain]
      rw [hrun]
      refine (hg.save (.inl hmain)).of_threads rfl rfl rfl fun batch source hb => ?_
      rcases hb with hb | hb
      · exact absurd hb next_eq_mirror
      · exact .inr (by cases c <;> exact hb)
  | collector now => exact hg.collector cfg now
  | writer i env =>
    cases hi : s.writers[i]? with
    | none =>
      have hrun : Machine.exec cfg P (.writer i env) s = s := by simp only [Machine.exec, hi]
      rw [hrun]
      exact hg
    | some w =>
      have hrun : Machine.exec cfg P (.writer i env) s =
          { s.onGlobals fun g => (w.exec cfg env g).2 with
            writers := s.writers.set i (w.exec cfg env s.fs.globals).1
            entered := w.enters ++ s.entered } := by
        simp only [Machine.exec, hi]
      rw [hrun]
      exact (hg.writer cfg env hi).of_threads rfl rfl rfl fun _ _ h => h
  | crash uid gid now => exact hg.mounted uid gid now

/-- **What a mount finds after a crash**, at every point of every run: a record of an entry that a
writer made has its bytes, unless they were small blocks that the collector deleted, and any other
record is the one of an entry that `dedup` made in advance. -/
theorem records_have_bytes (hP : P.Lawful) {s s' : Machine H} {ms : List (MachineMove H)}
    (hs : s.New) (hrun : (machine cfg P).Run s ms s') (h : H) (b : Block H)
    (hb : s'.fs.globals.hashTable.initFromDisk.d.get? h = some b) :
    (h ∈ s'.recorded → (b.chunk = -1 → h ∉ s'.fs.globals.reclaimed) →
      HasBytes P s'.fs.globals h b) ∧
    (h ∉ s'.recorded → b.chunk = 0 ∧ b.offset = 0) := by
  have hordered : Ordered P s' s'.fs.globals := by
    refine hrun.invariant (I := fun s => Ordered P s s.fs.globals) (fun s m s' hs hstep => ?_)
      hs.ordered
    subst hstep
    exact hs.exec hP cfg m
  rw [HashTable.initFromDisk_d_get?] at hb
  have hsourced := hordered.records h b hb
  exact ⟨hsourced.written, hsourced.advance⟩

/-! ## Sample runs -/

/-- One writer over a new file system. -/
def sampleMachine : Machine Bytes := ⟨sampleFs, none, .idle, [.popleft], [], []⟩

theorem sampleMachine_new : sampleMachine.New where
  numbered := sampleStores_numbered
  table _ := rfl
  pending _ := rfl
  records _ := rfl
  queue := rfl
  main := rfl
  collector := rfl
  writers _ hw := List.mem_singleton.mp hw
  entered := rfl
  recorded := rfl

/-- A file is written and flushed before a writer runs. -/
def flushedEarly : List (MachineMove Bytes) :=
  [.call (.create ⟨1, [97], 33188, 0, 0, 0, none⟩ 0), .call (.write 2 0 [7] 0), .flush, .main, .main]

/-- The writer's operations on one block. -/
def writerMoves : List (MachineMove Bytes) :=
  List.replicate 4 (.writer 0 ⟨⟨fun _ => 0, fun _ => 0, false⟩, ⟨fun _ => 0, fun _ => 0, false⟩⟩)

/-- It is flushed again, and the machine stops. -/
def flushedLate : List (MachineMove Bytes) :=
  flushedEarly ++ writerMoves ++ [.flush, .main, .crash 0 0 0]

theorem records_have_bytes_sample :
    let s := System.after (Machine.exec .shipped .plain) sampleMachine flushedLate
    ∃ b, s.fs.globals.hashTable.initFromDisk.d.get? [7] = some b ∧
      HasBytes Packages.plain s.fs.globals [7] b := by
  intro s
  have hrun : (machine .shipped .plain).Run sampleMachine flushedLate s :=
    System.run_after (Machine.exec .shipped .plain) flushedLate sampleMachine
  have hchunk : (s.fs.globals.hashTable.initFromDisk.d.get? [7]).map Block.chunk = some 0 := by
    decide
  obtain ⟨b, hb, hzero⟩ := Option.map_eq_some_iff.mp hchunk
  refine ⟨b, hb, ?_⟩
  exact (records_have_bytes Packages.plain_lawful sampleMachine_new hrun [7] b hb).1
    (by decide) fun hc => by rw [hc] at hzero; cases hzero

/-- Two files with one block, stored and recorded; both are removed, and the pass has not come to its
    commit. -/
def deletedEarly : List (MachineMove Bytes) :=
  [.call (.create ⟨1, [97], 33188, 0, 0, 0, none⟩ 0),
    .call (.create ⟨1, [98], 33188, 0, 0, 0, none⟩ 0), .call (.write 2 0 [7] 0),
    .call (.write 3 0 [7] 0)] ++ writerMoves ++
  [.flush, .main, .main, .call (.remove 1 [97] 2 fun _ => 0), .call (.remove 1 [98] 3 fun _ => 0)] ++
    List.replicate 3 (.collector (seconds 10))

/-- The store that the entry names has no record of the hash. -/
def unstored (g : Globals H) (h : H) (b : Block H) : Bool :=
  ((b.location g.datastore.length).bind fun loc => bytesAt g loc h).isNone

theorem not_hasBytes {h : H} {b : Block H} (hnone : unstored g h b = true) : ¬ HasBytes P g h b := by
  rintro ⟨loc, data, hloc, hdata, _⟩
  unfold unstored at hnone
  rw [hloc, Option.bind_some, hdata] at hnone
  cases hnone

/-- A record of an entry that `dedup` made in advance has no bytes; neither has a record, made by a
writer's entry, whose small block the collector deleted before its commit. -/
theorem placeholder_recorded :
    (¬ ∀ (s s' : Machine Bytes) (ms : List (MachineMove Bytes)), s.New →
      (machine .shipped .plain).Run s ms s' → ∀ h b,
        s'.fs.globals.hashTable.initFromDisk.d.get? h = some b → b.DELETED = false →
          HasBytes Packages.plain s'.fs.globals h b) ∧
    ¬ ∀ (cfg : Config) (s s' : Machine Bytes) (ms : List (MachineMove Bytes)), s.New →
      (machine cfg .plain).Run s ms s' → ∀ h b,
        s'.fs.globals.hashTable.initFromDisk.d.get? h = some b → b.DELETED = false →
          h ∈ s'.recorded → HasBytes Packages.plain s'.fs.globals h b := by
  refine ⟨fun h => ?_, fun h => ?_⟩
  · have hrun := System.run_after (Machine.exec .shipped .plain) flushedEarly sampleMachine
    have hlost : ∃ e ∈ (System.after (Machine.exec .shipped .plain) sampleMachine
        flushedEarly).fs.globals.hashTable.initFromDisk.d.entries, e.2.DELETED = false ∧
        unstored (System.after (Machine.exec .shipped .plain) sampleMachine flushedEarly).fs.globals
          e.1 e.2 = true := by
      decide
    obtain ⟨⟨k, b⟩, hmem, hflag, hnone⟩ := hlost
    exact not_hasBytes hnone (h _ _ _ sampleMachine_new hrun k b ((Dict.mem_entries_iff _).mp hmem) hflag)
  · have hrun := System.run_after (Machine.exec smallBlocksOnly .plain) deletedEarly sampleMachine
    have hlost : ∃ e ∈ (System.after (Machine.exec smallBlocksOnly .plain) sampleMachine
        deletedEarly).fs.globals.hashTable.initFromDisk.d.entries, e.2.DELETED = false ∧
        e.1 ∈ (System.after (Machine.exec smallBlocksOnly .plain) sampleMachine
          deletedEarly).recorded ∧
        unstored (System.after (Machine.exec smallBlocksOnly .plain) sampleMachine
          deletedEarly).fs.globals e.1 e.2 = true := by
      decide
    obtain ⟨⟨k, b⟩, hmem, hflag, hrec, hnone⟩ := hlost
    exact not_hasBytes hnone
      (h _ _ _ _ sampleMachine_new hrun k b ((Dict.mem_entries_iff _).mp hmem) hflag hrec)

end VeratyFS
