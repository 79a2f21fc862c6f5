import Mathlib.Data.Set.Function
import VeratyFS.Lib.Runs
import VeratyFS.Pipeline

/-!
# Round trip of the dedup pipeline

What `dedup` stored, `get_file_data` returns, for the rocksdb backend and any order of calls,
writer steps and reads.

* `Coherent` — the invariant that ties queue, caches, table and stores together: a chunk in the
  table has its bytes in the queue (and then in `write_read_cache`) or in the store its entry names,
  and no cache holds anything but the chunk of its key.
* `dedupChunks_spec`, `writeNewBlock_coherent`, `readBlocks_spec` — its preservation.
* `getFileData_dedup` — the round trip over every run.
-/

set_option autoImplicit false

namespace VeratyFS

open Pylib

variable {H : Type} [DecidableEq H] {cfg : Config} {P : Packages H} {C : Set Bytes}
  {g g' : Globals H}

/-! ## The invariant -/

/-- The queue item of a chunk of the rocksdb backend. -/
abbrev itemOf (P : Packages H) (c : Bytes) : QueuedWrite H := queueItem P (compressData P) c

/-- The table entry of a chunk: what it says of the chunk is right, and the bytes are where a reader
    looks for them. -/
structure EntryOf (P : Packages H) (queue : List (QueuedWrite H)) (ds : List (DataStore H))
    (c : Bytes) (b : Block H) : Prop where
  hash : b.hash = P.xxh3_64 c
  deflatedSize : b.deflatedSize = c.length
  compressed : b.compressed = (compressData P c).1
  held : itemOf P c ∈ queue ∨
    ∃ j : Nat, b.chunk = j ∧ stored ds j (P.xxh3_64 c) = some (itemOf P c).payload

/-- `C` are the chunks that occur in the run. -/
structure Coherent (P : Packages H) (C : Set Bytes) (g : Globals H) : Prop where
  numbered : ∀ (j : Nat) (chunk : Int),
    (g.datastore.map DataStore.chunk)[j]? = some chunk → chunk = j
  readCache : ∀ h d, g.readCache.get? h = some d → d ∈ C ∧ P.xxh3_64 d = h
  smallCache : ∀ h o, g.smallBlockReadCache.get? h = some o →
    ∃ d ∈ C, o = some d ∧ P.xxh3_64 d = h
  writeCache : ∀ h d, g.writeReadCache.get? h = some d → d ∈ C ∧ P.xxh3_64 d = h
  queued : ∀ q ∈ g.writeBuffer.d, ∃ c ∈ C, q = itemOf P c ∧
    (g.writeReadCache.get? (P.xxh3_64 c)).isSome ∧ g.hashTable.contains (P.xxh3_64 c)
  distinct : (g.writeBuffer.d.map QueuedWrite.hash).Nodup
  known : ∀ h b, g.hashTable.d.get? h = some b →
    ∃ c ∈ C, P.xxh3_64 c = h ∧ EntryOf P g.writeBuffer.d g.datastore c b

/-- The file block of a chunk that is in the table. -/
structure Described (P : Packages H) (C : Set Bytes) (g : Globals H) (c : Bytes)
    (b : FileBlock H) : Prop where
  mem : c ∈ C
  hash : b.hash = P.xxh3_64 c
  rawSize : b.rawSize = c.length
  known : g.hashTable.contains (P.xxh3_64 c) = true

/-- A known hash stays known. -/
def Grows (g g' : Globals H) : Prop := ∀ h, g.hashTable.contains h → g'.hashTable.contains h

theorem Grows.refl (g : Globals H) : Grows g g := fun _ h => h

theorem Grows.trans {g'' : Globals H} (h : Grows g g') (h' : Grows g' g'') : Grows g g'' :=
  fun k hk => h' k (h k hk)

theorem Grows.of_eq (h : g'.hashTable = g.hashTable) : Grows g g' := fun k hk => by rw [h]; exact hk

theorem Described.grow {c : Bytes} {b : FileBlock H} (hd : Described P C g c b) (h : Grows g g') :
    Described P C g' c b := ⟨hd.mem, hd.hash, hd.rawSize, h _ hd.known⟩

theorem contains_setItem (t : HashTable H) (k k' : H) (b : Block H) :
    (t.setItem k b).contains k' = (decide (k = k') || t.contains k') := by
  by_cases h : k = k' <;> simp [HashTable.contains, Dict.contains, h]

/-! ## Dedup -/

/-- Only the caches and the counters change when the table's answers stay the same. -/
theorem Coherent.known_of_uses {h : H} {b : Block H} {n : Int} (hg : Coherent P C g)
    (hb : g.hashTable.d.get? h = some b) (k : H) (b' : Block H)
    (hk : (g.hashTable.setItem h { b with uses := n }).d.get? k = some b') :
    ∃ c ∈ C, P.xxh3_64 c = k ∧ EntryOf P g.writeBuffer.d g.datastore c b' := by
  rw [HashTable.setItem_d_get?] at hk
  split at hk
  · rename_i hkk
    subst hkk
    cases hk
    obtain ⟨c, hc, hck, he⟩ := hg.known h b hb
    exact ⟨c, hc, hck, ⟨he.hash, he.deflatedSize, he.compressed, he.held⟩⟩
  · exact hg.known k b' hk

/-- **One chunk**: the block that `dedup` lists for it describes it, and coherence is kept. -/
theorem dedupChunk_spec (hg : Coherent P C g) (hinj : Set.InjOn P.xxh3_64 C) {c : Bytes}
    (hc : c ∈ C) :
    (dedupChunk P (compressData P) c).wp
      (Py.post (fun b g' => Coherent P C g' ∧ Grows g g' ∧ Described P C g' c b)
        (fun _ _ => False)) g := by
  cases hb : g.hashTable.d.get? (P.xxh3_64 c) with
  | some b =>
    rw [Py.wp_of_run (dedupChunk_known hb), Py.post_ok]
    obtain ⟨c', hc', hcc, he⟩ := hg.known _ _ hb
    have hcc : c' = c := hinj hc' hc hcc
    subst hcc
    have hgrow : Grows g { g with
        readCache := g.readCache.set (P.xxh3_64 c') c'
        hashTable := g.hashTable.setItem (P.xxh3_64 c') { b with uses := b.uses + 1 } } := by
      intro k hk
      rw [contains_setItem, hk, Bool.or_true]
    refine ⟨?_, hgrow, hc, rfl, he.deflatedSize, ?_⟩
    · refine ⟨hg.numbered, ?_, hg.smallCache, hg.writeCache, ?_, hg.distinct,
        fun k b' hk => hg.known_of_uses hb k b' hk⟩
      · intro k d hd
        rcases LRU.get?_set hd with ⟨rfl, rfl⟩ | hd
        · exact ⟨hc, rfl⟩
        · exact hg.readCache k d hd
      · intro q hq
        obtain ⟨x, hx, hqx, hw, ht⟩ := hg.queued q hq
        exact ⟨x, hx, hqx, hw, hgrow _ ht⟩
    · exact hgrow _ ((Dict.contains_iff _).mpr ⟨b, hb⟩)
  | none =>
    rw [Py.wp_of_run (dedupChunk_new hb), Py.post_ok]
    have hgrow : Grows g { g with
        writeReadCache := g.writeReadCache.set (P.xxh3_64 c) c
        writeBuffer := g.writeBuffer.append (itemOf P c)
        hashTable := g.hashTable.setItem (P.xxh3_64 c) (placeholder (itemOf P c)) } := by
      intro k hk
      rw [contains_setItem, hk, Bool.or_true]
    -- a queued hash is known, so this one is not queued yet
    have hfresh : ∀ q ∈ g.writeBuffer.d, q.hash ≠ P.xxh3_64 c := by
      intro q hq hqc
      obtain ⟨x, _, rfl, _, ht⟩ := hg.queued q hq
      obtain ⟨b, hb'⟩ := (Dict.contains_iff _).mp ht
      have : g.hashTable.d.get? (P.xxh3_64 c) = some b := hqc ▸ hb'
      rw [hb] at this
      cases this
    refine ⟨⟨hg.numbered, hg.readCache, hg.smallCache, ?_, ?_, ?_, ?_⟩, hgrow, hc, rfl, rfl, ?_⟩
    · exact g.writeReadCache.forall_set hg.writeCache ⟨hc, rfl⟩
    · intro q hq
      rw [WriteCache.append_d, List.mem_append, List.mem_singleton] at hq
      rcases hq with hq | rfl
      · obtain ⟨x, hx, hqx, hw, ht⟩ := hg.queued q hq
        refine ⟨x, hx, hqx, ?_, hgrow _ ht⟩
        rw [Dict.get?_set]
        split
        · rfl
        · exact hw
      · refine ⟨c, hc, rfl, ?_, ?_⟩
        · rw [Dict.get?_set_self]; rfl
        · rw [contains_setItem]; simp
    · rw [WriteCache.append_d, List.map_append, List.nodup_append]
      refine ⟨hg.distinct, List.nodup_singleton _, ?_⟩
      intro a ha a' ha' haa
      obtain ⟨q, hq, rfl⟩ := List.mem_map.mp ha
      rw [List.map_singleton, List.mem_singleton] at ha'
      exact hfresh q hq (haa.trans ha')
    · intro k b' hk
      rw [HashTable.setItem_d_get?] at hk
      split at hk
      · rename_i hck
        cases hk
        refine ⟨c, hc, hck, rfl, rfl, rfl, .inl ?_⟩
        simp
      · obtain ⟨x, hx, hxk, he⟩ := hg.known k b' hk
        refine ⟨x, hx, hxk, he.hash, he.deflatedSize, he.compressed, ?_⟩
        rcases he.held with hq | hs
        · exact .inl (by rw [WriteCache.append_d]; exact List.mem_append_left _ hq)
        · exact .inr hs
    · rw [contains_setItem]; simp

/-- **A list of chunks**: each is described by its block. -/
theorem dedupChunks_spec (hinj : Set.InjOn P.xxh3_64 C) :
    ∀ (cs : List Bytes) {g : Globals H}, Coherent P C g → (∀ c ∈ cs, c ∈ C) →
      (dedupChunks P (compressData P) cs).wp
        (Py.post (fun bs g' => Coherent P C g' ∧ Grows g g' ∧ List.Forall₂ (Described P C g') cs bs)
          (fun _ _ => False)) g
  | [], g, hg, _ => ⟨hg, Grows.refl g, .nil⟩
  | c :: cs, g, hg, hcs => by
    rw [dedupChunks, Py.wp_bind]
    refine Py.wp_mono (dedupChunk_spec hg hinj (hcs c List.mem_cons_self)) fun r g₁ hr => ?_
    cases r with
    | error e => exact hr
    | ok b =>
      obtain ⟨hg₁, hgrow₁, hd⟩ := hr
      rw [Py.post_ok, Py.wp_bind]
      refine Py.wp_mono (dedupChunks_spec hinj cs hg₁ fun x hx => hcs x (List.mem_cons_of_mem _ hx))
        fun r' g₂ hr' => ?_
      cases r' with
      | error e => exact hr'
      | ok bs =>
        obtain ⟨hg₂, hgrow₂, hds⟩ := hr'
        exact ⟨hg₂, hgrow₁.trans hgrow₂, .cons (hd.grow hgrow₂) hds⟩

/-! ## The writer -/

/-- **A writer step whose commit succeeds**: the bytes leave the queue for the store that the new
entry names. -/
theorem writeNewBlock_coherent (hb : cfg.backend = .rocksdb) (hg : Coherent P C g)
    {env : CommitEnv} (hok : commitsHead cfg env g = true) :
    Coherent P C (writeNewBlock cfg env g).2 ∧ Grows g (writeNewBlock cfg env g).2 := by
  rcases writeNewBlock_cases cfg env g with ⟨_, hidle⟩ | ⟨q, rest, hd, ⟨q', g₁, _, hs, hc, hrun⟩ | ⟨hno, _⟩⟩
  · rw [hidle]
    exact ⟨hg, Grows.refl g⟩
  · rw [hrun]
    cases hc with
    | smallBlock small => exact absurd hb small.1
    | @datastore _ store chunk block _ hput hnamed _ =>
      obtain ⟨c, hcC, hqc, _, hknown⟩ := hg.queued q (by rw [hd]; exact List.mem_cons_self)
      have hqh : q.hash = P.xxh3_64 c := congrArg QueuedWrite.hash hqc
      have hchunk : chunk = store := hg.numbered store chunk hnamed
      have hnd := hg.distinct
      rw [hd, List.map_cons, List.nodup_cons] at hnd
      -- no other queued block has the hash of the one that was taken
      have hother : ∀ x ∈ rest.d, x.hash ≠ q.hash := fun x hx hxq =>
        hnd.1 (List.mem_map.mpr ⟨x, hx, hxq⟩)
      have hgrow : Grows g (installed cfg { q with chunk := chunk, block := block } g₁) := by
        intro k hk
        unfold installed
        dsimp only
        rw [contains_setItem, contains_setItem, hs.hashTable, hk]
        simp
      refine ⟨⟨?_, ?_, ?_, ?_, ?_, ?_, ?_⟩, hgrow⟩
      · intro j x hx
        exact hg.numbered j x (by rw [← hput.chunks]; exact hx)
      · intro k d hk
        exact hg.readCache k d (by rw [← hs.readCache]; exact hk)
      · intro k o hk
        change (if _ then _ else _ : LRU H (Option Bytes)).get? k = some o at hk
        split at hk
        · rcases LRU.get?_set hk with ⟨rfl, rfl⟩ | hk
          · exact ⟨c, hcC, by rw [hqc]; rfl, hqh.symm⟩
          · exact hg.smallCache k o (by rw [← hs.smallBlockReadCache]; exact hk)
        · exact hg.smallCache k o (by rw [← hs.smallBlockReadCache]; exact hk)
      · intro k d hk
        change (g₁.writeReadCache.erase q.hash).get? k = some d at hk
        rw [Dict.get?_erase] at hk
        split at hk
        · cases hk
        · exact hg.writeCache k d (by rw [← hs.writeReadCache]; exact hk)
      · intro x hx
        replace hx : x ∈ rest.d := by
          have : x ∈ g₁.writeBuffer.d := hx
          rwa [hs.writeBuffer] at this
        obtain ⟨y, hy, hxy, hw, ht⟩ := hg.queued x (by rw [hd]; exact List.mem_cons_of_mem _ hx)
        refine ⟨y, hy, hxy, ?_, hgrow _ ht⟩
        have hne : ¬ q.hash = P.xxh3_64 y := fun e =>
          hother x hx (by rw [hxy]; exact e.symm)
        change ((g₁.writeReadCache.erase q.hash).get? _).isSome
        rw [Dict.get?_erase, if_neg hne, hs.writeReadCache]
        exact hw
      · change (g₁.writeBuffer.d.map _).Nodup
        rw [hs.writeBuffer]
        exact hnd.2
      · intro k b hk
        change (HashTable.d _).get? k = some b at hk
        unfold installed at hk
        dsimp only at hk
        rw [HashTable.setItem_d_get?] at hk
        split at hk
        · rename_i hkq
          cases hk
          refine ⟨c, hcC, hqh.symm.trans hkq, hqh, ?_, ?_, .inr ⟨store, hchunk, ?_⟩⟩
          · rw [hqc]; rfl
          · rw [hqc]; rfl
          · change stored g₁.datastore store _ = _
            rw [hput.stored, if_pos ⟨rfl, hqh⟩, hqc]
        · rename_i hkq
          rw [HashTable.setItem_d_get?, if_neg hkq, hs.hashTable] at hk
          obtain ⟨x, hx, hxk, he⟩ := hg.known k b hk
          refine ⟨x, hx, hxk, he.hash, he.deflatedSize, he.compressed, ?_⟩
          have hqx : ¬ q.hash = P.xxh3_64 x := fun e => hkq (e.trans hxk)
          rcases he.held with hq | ⟨j, hj, hst⟩
          · left
            change _ ∈ g₁.writeBuffer.d
            rw [hs.writeBuffer]
            rw [hd, List.mem_cons] at hq
            rcases hq with hq | hq
            · exact absurd (congrArg QueuedWrite.hash hq).symm hqx
            · exact hq
          · right
            refine ⟨j, hj, ?_⟩
            change stored g₁.datastore j _ = _
            rw [hput.stored, if_neg fun e => hqx e.2]
            exact hst
  · rw [hok] at hno
    cases hno

/-! ## The reader -/

/-- A cache answers with the chunk itself. -/
theorem seekInCache_eq (hg : Coherent P C g) (hinj : Set.InjOn P.xxh3_64 C) {c d : Bytes}
    (hc : c ∈ C) (hd : seekInCache g (P.xxh3_64 c) = some d) : d = c := by
  unfold seekInCache at hd
  split at hd
  · rename_i r hr
    cases hd
    obtain ⟨hrC, hrh⟩ := hg.readCache _ _ hr
    exact hinj hrC hc hrh
  · split at hd
    · rename_i o ho
      obtain ⟨x, hx, hox, hxh⟩ := hg.smallCache _ _ ho
      rw [hd] at hox
      cases hox
      exact hinj hx hc hxh
    · obtain ⟨hdC, hdh⟩ := hg.writeCache _ _ hd
      exact hinj hdC hc hdh

/-- A known chunk that no cache holds is in the store that its entry names. -/
theorem stored_of_uncached (hg : Coherent P C g) (hinj : Set.InjOn P.xxh3_64 C) {c : Bytes}
    (hc : c ∈ C) (hknown : g.hashTable.contains (P.xxh3_64 c) = true)
    (hmiss : seekInCache g (P.xxh3_64 c) = none) :
    ∃ b, g.hashTable.getItem? (P.xxh3_64 c) = some b ∧ b.hash = P.xxh3_64 c ∧
      b.compressed = (compressData P c).1 ∧
      ∃ j : Nat, b.chunk = j ∧ stored g.datastore j (P.xxh3_64 c) = some (itemOf P c).payload := by
  obtain ⟨b, hb⟩ := (Dict.contains_iff _).mp hknown
  obtain ⟨c', hc', hcc, he⟩ := hg.known _ _ hb
  have hcc : c' = c := hinj hc' hc hcc
  subst hcc
  refine ⟨b, HashTable.getItem?_of_d _ hb, he.hash, he.compressed, ?_⟩
  rcases he.held with hq | hs
  · -- a queued chunk is in `write_read_cache`
    exfalso
    obtain ⟨x, hx, hqx, hw, _⟩ := hg.queued _ hq
    have hxc : P.xxh3_64 c' = P.xxh3_64 x := congrArg QueuedWrite.hash hqx
    rw [← hxc] at hw
    unfold seekInCache at hmiss
    split at hmiss
    · cases hmiss
    · split at hmiss
      · rename_i o ho
        obtain ⟨y, _, hoy, _⟩ := hg.smallCache _ _ ho
        rw [hoy] at hmiss
        cases hmiss
      · rw [hmiss] at hw
        cases hw
  · exact hs

/-- Reading the store of a chunk gives the chunk. -/
theorem readStored_run (hP : P.Lawful) (hb : cfg.backend = .rocksdb) {c : Bytes} {b : Block H}
    {blk : FileBlock H} {j : Nat} (hblk : blk.hash = P.xxh3_64 c)
    (hget : g.hashTable.getItem? (P.xxh3_64 c) = some b) (hhash : b.hash = P.xxh3_64 c)
    (hcomp : b.compressed = (compressData P c).1) (hchunk : b.chunk = j)
    (hst : stored g.datastore j (P.xxh3_64 c) = some (itemOf P c).payload) :
    readStored cfg P blk g = (.ok (some c), g) := by
  obtain ⟨ds, hds, hrec⟩ := Option.bind_eq_some_iff.mp hst
  have hat : getAt? g.datastore b.chunk = some ds := by
    rw [hchunk, getAt?_natCast]
    exact hds
  have hread : rocksdbRead P b.hash ds g.hashTable = c := by
    unfold rocksdbRead
    rw [hhash, hrec, hget]
    dsimp only
    rw [hcomp]
    have hdec := decompressData_compressData hP c
    unfold QueuedWrite.payload itemOf queueItem
    dsimp only
    split
    · rename_i h
      rwa [if_pos h] at hdec
    · rfl
  change Py.andThen (Py.ofOption PyError.keyError (g.hashTable.getItem? blk.hash)) _ g = _
  rw [hblk, hget]
  change Py.andThen (Py.ofOption PyError.indexError (getAt? g.datastore b.chunk)) _ g = _
  rw [hat]
  change (Except.ok (readData cfg P b.hash b.offset ds blk.size g.hashTable), g) = _
  unfold readData
  rw [hb]
  dsimp only
  rw [hread]

/-- **One block**: the reader finds its chunk. -/
theorem fetchBlock_run (hP : P.Lawful) (hb : cfg.backend = .rocksdb) (hg : Coherent P C g)
    (hinj : Set.InjOn P.xxh3_64 C) {c : Bytes} {b : FileBlock H} (hd : Described P C g c b) :
    fetchBlock cfg P b g = (.ok (.bytes (some c)), g) := by
  have hcached : cachedBlock b g = (.ok (seekInCache g b.hash), g) := by
    unfold cachedBlock
    rw [Py.run_bind_ok (Py.run_read g)]
    cases hseek : seekInCache g b.hash with
    | none => rfl
    | some d =>
      rw [hd.hash] at hseek
      have hdc := seekInCache_eq hg hinj hd.mem hseek
      dsimp only
      rw [if_neg (by rw [hdc, hd.rawSize]; exact fun h => h rfl)]
      rfl
  change Py.andThen (cachedBlock b) _ g = _
  unfold Py.andThen
  rw [hcached]
  dsimp only
  cases hseek : seekInCache g b.hash with
  | some d =>
    rw [hd.hash] at hseek
    rw [seekInCache_eq hg hinj hd.mem hseek]
    rfl
  | none =>
    rw [hd.hash] at hseek
    obtain ⟨e, hget, hhash, hcomp, j, hchunk, hst⟩ :=
      stored_of_uncached hg hinj hd.mem hd.known hseek
    have hread := readStored_run hP hb hd.hash hget hhash hcomp hchunk hst
    change Py.andThen (Py.ofOption PyError.keyError (g.hashTable.getItem? b.hash)) _ g = _
    rw [hd.hash, hget]
    have hne : ¬ e.chunk = -1 := by rw [hchunk]; omega
    change (if e.chunk = -1 then _ else _ : Task H Fetched) g = _
    rw [if_neg hne]
    change Py.attempt (Py.andThen (readStored cfg P b) _) _ g = _
    unfold Py.attempt Py.andThen
    rw [hread]
    rfl

theorem Coherent.cache_read (hg : Coherent P C g) {c : Bytes} (hc : c ∈ C) :
    Coherent P C { g with readCache := g.readCache.set (P.xxh3_64 c) c } := by
  refine ⟨hg.numbered, ?_, hg.smallCache, hg.writeCache, hg.queued, hg.distinct, hg.known⟩
  intro k d hd
  rcases LRU.get?_set hd with ⟨rfl, rfl⟩ | hd
  · exact ⟨hc, rfl⟩
  · exact hg.readCache k d hd

/-- **A list of blocks**: the reader returns the concatenation of their chunks. -/
theorem readBlocks_spec (hP : P.Lawful) (hb : cfg.backend = .rocksdb)
    (hinj : Set.InjOn P.xxh3_64 C) {cs : List Bytes} {bs : List (FileBlock H)} {g : Globals H}
    (hds : List.Forall₂ (Described P C g) cs bs) (hg : Coherent P C g) (data : Bytes) :
    (readBlocks cfg P bs data).wp
      (fun r g' => r = .ok (data ++ cs.flatten) ∧ Coherent P C g' ∧ Grows g g') g := by
  induction bs generalizing cs data g with
  | nil =>
    cases hds
    exact ⟨by simp; rfl, hg, Grows.refl g⟩
  | cons b bs ih =>
    cases hds with
    | @cons c _ cs _ hd hds =>
      rw [readBlocks, Py.wp_bind, Py.wp_of_run (fetchBlock_run hP hb hg hinj hd), Py.post_ok]
      dsimp only
      rw [if_pos hd.hash, Py.wp_bind, Py.wp_modify, Py.post_ok, hd.hash]
      have hgrow : Grows g { g with readCache := g.readCache.set (P.xxh3_64 c) c } :=
        Grows.of_eq rfl
      refine Py.wp_mono (ih (hds.imp fun _ _ h => h.grow hgrow) (hg.cache_read hd.mem) (data ++ c))
        fun r g' hr => ⟨?_, hr.2.1, hgrow.trans hr.2.2⟩
      rw [hr.1, List.flatten_cons, List.append_assoc]

/-! ## Runs -/

/-- The pipeline and the history of its `dedup` calls: data and returned file blocks. -/
structure Pipeline (H : Type) where
  globals : Globals H
  files : List (Bytes × List (FileBlock H))

/-- The steps: a call of `dedup`, one iteration of a writer, a call of `get_file_data`. -/
inductive PipelineStep (H : Type) where
  | dedupCall (data : Bytes)
  | writerStep (env : CommitEnv)
  | readerCall (blklst : List (FileBlock H)) (startBlock endBlock : Int)

/-- Writer steps succeed; readers pass blocks that `dedup` returned. -/
def PipelineStep.enabled (cfg : Config) (s : Pipeline H) : PipelineStep H → Prop
  | .dedupCall _ => True
  | .writerStep env => commitsHead cfg env s.globals = true
  | .readerCall blklst _ _ => ∀ b ∈ blklst, ∃ f ∈ s.files, b ∈ f.2

def PipelineStep.exec (cfg : Config) (P : Packages H) (s : Pipeline H) : PipelineStep H → Pipeline H
  | .dedupCall data =>
    match dedup cfg P data s.globals with
    | (.ok blklst, g) => ⟨g, s.files ++ [(data, blklst)]⟩
    | (.error _, g) => { s with globals := g }
  | .writerStep env => { s with globals := (writeNewBlock cfg env s.globals).2 }
  | .readerCall blklst startBlock endBlock =>
    { s with globals := (getFileData cfg P blklst startBlock endBlock s.globals).2 }

theorem PipelineStep.exec_dedupCall {s : Pipeline H} {data : Bytes} {blklst : List (FileBlock H)}
    (h : dedup cfg P data s.globals = (.ok blklst, g')) :
    (PipelineStep.dedupCall data).exec cfg P s = ⟨g', s.files ++ [(data, blklst)]⟩ := by
  unfold exec
  dsimp only
  rw [h]

def pipeline (cfg : Config) (P : Packages H) : System (Pipeline H) (PipelineStep H) where
  step s e s' := e.enabled cfg s ∧ s' = e.exec cfg P s

/-- Empty hash table, buffer and caches, and no call made yet. -/
structure Pipeline.Fresh (s : Pipeline H) : Prop where
  hashTable : s.globals.hashTable.d = Dict.empty
  writeBuffer : s.globals.writeBuffer.d = []
  readCache : s.globals.readCache.d = Dict.empty
  smallBlockReadCache : s.globals.smallBlockReadCache.d = Dict.empty
  writeReadCache : s.globals.writeReadCache = Dict.empty
  files : s.files = []

/-- The data of the `dedup` calls among some steps. -/
def dedupData (es : List (PipelineStep H)) : List Bytes :=
  es.filterMap fun e => match e with
    | .dedupCall data => some data
    | _ => none

/-- The chunks involved in a list of steps. -/
def chunksOf (P : Packages H) (es : List (PipelineStep H)) : Set Bytes :=
  { c | ∃ data ∈ dedupData es, c ∈ P.fastcdc data }

/-- The invariant of a run. -/
structure Pipeline.Inv (P : Packages H) (C : Set Bytes) (s : Pipeline H) : Prop where
  coherent : Coherent P C s.globals
  files : ∀ f ∈ s.files, List.Forall₂ (Described P C s.globals) (P.fastcdc f.1) f.2

theorem Pipeline.Fresh.inv {s : Pipeline H} (h : s.Fresh) (hn : Numbered s.globals.datastore)
    (C : Set Bytes) : s.Inv P C := by
  refine ⟨⟨hn, ?_, ?_, ?_, ?_, ?_, ?_⟩, ?_⟩
  · intro k d hd
    unfold LRU.get? at hd
    rw [h.readCache] at hd
    cases hd
  · intro k o ho
    unfold LRU.get? at ho
    rw [h.smallBlockReadCache] at ho
    cases ho
  · intro k d hd
    rw [h.writeReadCache] at hd
    cases hd
  · intro q hq
    rw [h.writeBuffer] at hq
    cases hq
  · rw [h.writeBuffer]
    exact List.nodup_nil
  · intro k b hk
    rw [h.hashTable] at hk
    cases hk
  · intro f hf
    rw [h.files] at hf
    cases hf

theorem Pipeline.Inv.grow {s : Pipeline H} (h : s.Inv P C) (hg : Coherent P C g')
    (hgrow : Grows s.globals g') : Pipeline.Inv P C { s with globals := g' } :=
  ⟨hg, fun f hf => (h.files f hf).imp fun _ _ hd => hd.grow hgrow⟩

/-- Blocks that `dedup` returned describe chunks. -/
theorem Pipeline.Inv.exists_chunks {s : Pipeline H} (h : s.Inv P C) {bs : List (FileBlock H)}
    (hbs : ∀ b ∈ bs, ∃ f ∈ s.files, b ∈ f.2) :
    ∃ cs, List.Forall₂ (Described P C s.globals) cs bs := by
  induction bs with
  | nil => exact ⟨[], .nil⟩
  | cons b bs ih =>
    obtain ⟨cs, hcs⟩ := ih fun x hx => hbs x (List.mem_cons_of_mem _ hx)
    obtain ⟨f, hf, hbf⟩ := hbs b List.mem_cons_self
    obtain ⟨i, hi, rfl⟩ := List.mem_iff_getElem.mp hbf
    have hlen := (h.files f hf).length_eq
    exact ⟨(P.fastcdc f.1)[i] :: cs, .cons ((h.files f hf).get (by omega) hi) hcs⟩

/-- **Each step keeps the invariant**, and a `dedup` step records its call. -/
theorem Pipeline.Inv.step (hP : P.Lawful) (hb : cfg.backend = .rocksdb)
    (hinj : Set.InjOn P.xxh3_64 C) {s s' : Pipeline H} {e : PipelineStep H} (h : s.Inv P C)
    (he : ∀ c ∈ chunksOf P [e], c ∈ C) (hs : (pipeline cfg P).step s e s') :
    s'.Inv P C ∧ s'.files.map Prod.fst = s.files.map Prod.fst ++ dedupData [e] := by
  obtain ⟨hen, rfl⟩ := hs
  cases e with
  | dedupCall data =>
    have hspec := dedupChunks_spec hinj (P.fastcdc data) h.coherent fun c hc =>
      he c ⟨data, by simp [dedupData], hc⟩
    rw [← dedup_rocksdb hb] at hspec
    cases hout : dedup cfg P data s.globals with
    | mk r g' =>
      rw [Py.wp_of_run hout] at hspec
      cases r with
      | error _ => exact hspec.elim
      | ok blklst =>
        obtain ⟨hg, hgrow, hds⟩ := hspec
        rw [PipelineStep.exec_dedupCall hout]
        refine ⟨⟨hg, fun f hf => ?_⟩, by simp [dedupData]⟩
        rcases List.mem_append.mp hf with hf | hf
        · exact (h.files f hf).imp fun _ _ hd => hd.grow hgrow
        · rw [List.mem_singleton] at hf
          subst hf
          exact hds
  | writerStep env =>
    obtain ⟨hg, hgrow⟩ := writeNewBlock_coherent hb h.coherent hen
    exact ⟨h.grow hg hgrow, by simp [PipelineStep.exec, dedupData]⟩
  | readerCall blklst startBlock endBlock =>
    obtain ⟨cs, hcs⟩ := h.exists_chunks fun b hb' => hen b (mem_of_mem_slice
      (a := startBlock) (b := endBlock + 1) hb')
    obtain ⟨_, hg, hgrow⟩ := readBlocks_spec hP hb hinj hcs h.coherent []
    exact ⟨h.grow hg hgrow, by simp [PipelineStep.exec, dedupData]⟩

/-- **Each `dedup` call of a run is answered by blocks that describe its chunks.** -/
theorem pipeline_inv (hP : P.Lawful) (hb : cfg.backend = .rocksdb) {s s' : Pipeline H}
    {es : List (PipelineStep H)} (hrun : (pipeline cfg P).Run s es s') (h : s.Inv P C)
    (hC : ∀ c ∈ chunksOf P es, c ∈ C) (hinj : Set.InjOn P.xxh3_64 C) :
    s'.Inv P C ∧ s'.files.map Prod.fst = s.files.map Prod.fst ++ dedupData es := by
  induction hrun with
  | nil => exact ⟨h, by simp [dedupData]⟩
  | @cons s s₁ s' e es hs _ ih =>
    have hsplit : dedupData (e :: es) = dedupData [e] ++ dedupData es := by
      unfold dedupData
      rw [← List.filterMap_append]
      rfl
    obtain ⟨h₁, hf₁⟩ := h.step hP hb hinj (e := e) (fun c hc => hC c (by
      obtain ⟨data, hd, hdc⟩ := hc
      exact ⟨data, by rw [hsplit]; exact List.mem_append_left _ hd, hdc⟩)) hs
    obtain ⟨h₂, hf₂⟩ := ih h₁ fun c hc => hC c (by
      obtain ⟨data, hd, hdc⟩ := hc
      exact ⟨data, by rw [hsplit]; exact List.mem_append_right _ hd, hdc⟩)
    exact ⟨h₂, by rw [hf₂, hf₁, hsplit, List.append_assoc]⟩

/-- **Round trip.**  After any run of `dedup` calls, successful writer steps and reads from an empty
pipeline, every `dedup` call of the run returned a block list, and `get_file_data` over that whole
list returns exactly the data of the call. -/
theorem getFileData_dedup (hP : P.Lawful) (hb : cfg.backend = .rocksdb) {s s' : Pipeline H}
    {es : List (PipelineStep H)} (hfresh : s.Fresh) (hnum : Numbered s.globals.datastore)
    (hrun : (pipeline cfg P).Run s es s') (hinj : Set.InjOn P.xxh3_64 (chunksOf P es)) :
    s'.files.map Prod.fst = dedupData es ∧
    ∀ f ∈ s'.files, ∀ endBlock : Int, f.2.length ≤ endBlock + 1 →
      (getFileData cfg P f.2 0 endBlock s'.globals).1 = .ok f.1 := by
  obtain ⟨hinv, hfiles⟩ := pipeline_inv hP hb hrun (hfresh.inv hnum _) (fun _ h => h) hinj
  refine ⟨by rw [hfiles, hfresh.files]; rfl, fun f hf endBlock hend => ?_⟩
  have hread := readBlocks_spec hP hb hinj (hinv.files f hf) hinv.coherent []
  unfold getFileData
  rw [slice_all hend, ← hP.chunks_flatten f.1]
  exact hread.1

/-- Two calls with the same data, and between them a read and an iteration of the writer. -/
def sampleSteps : List (PipelineStep Bytes) :=
  [.dedupCall [7], .readerCall [⟨[7], 1, 1⟩] 0 0,
    .writerStep ⟨⟨fun _ => 0, fun _ => 1, false⟩, ⟨fun _ => 0, fun _ => 0, false⟩⟩, .dedupCall [7]]

theorem getFileData_dedup_sample :
    ∃ s' : Pipeline Bytes, s'.files.map Prod.fst = [[7], [7]] ∧
      ∀ f ∈ s'.files, ∀ endBlock : Int, f.2.length ≤ endBlock + 1 →
        (getFileData .shipped .plain f.2 0 endBlock s'.globals).1 = .ok f.1 := by
  have hrun : (pipeline .shipped .plain).Run
      ⟨.fresh 1 Nat.one_pos [.fresh 0, .fresh 1] [.fresh 0], []⟩ sampleSteps _ :=
    .cons ⟨trivial, rfl⟩ (.cons ⟨fun b hb => ⟨([7], [⟨[7], 1, 1⟩]), .head _, hb⟩, rfl⟩
      (.cons ⟨rfl, rfl⟩ (.cons ⟨trivial, rfl⟩ (.nil _))))
  refine ⟨_, getFileData_dedup Packages.plain_lawful rfl ⟨rfl, rfl, rfl, rfl, rfl, rfl⟩ ?_ hrun
    (Function.injective_id.injOn)⟩
  intro j chunk hj
  match j, hj with
  | 0, hj => exact (Option.some.inj hj).symm
  | 1, hj => exact (Option.some.inj hj).symm

end VeratyFS
