import VeratyFS.Backlog
import VeratyFS.Resizing

/-!
# What is served stays served

The module state of a run with the rocksdb backend, and what each operation of the threads keeps of
it: a block that a reader finds is found after any step, and every chunk of `C` can still be stored.

* `Stocked` — the invariant of the module state; `Carries` — what a step keeps of it.
* `Unmoved` — the stores and the entries are the same, and caches only lose entries;
  `Carries.unmoved` — drops, rounds of the collector, commits and mounts are such steps.
* `recordAt`, `fetch_iff` — what a reader of the stores finds.
* `put_carries`, `install_carries` — the steps of a writer that move a block to a store.
* `writer_carries` — every operation of a writer whose commit succeeds.
* `Kept.carries` — reads, and calls of `dedup` on chunks of `C`.
-/

set_option autoImplicit false

namespace VeratyFS

open Pylib

variable {H : Type} [DecidableEq H] {cfg : Config} {P : Packages H} {content : H → Bytes}
  {C : Set Bytes} {g g' : Globals H} {ws ws' : List (WriterAt H)}

structure Stocked (cfg : Config) (P : Packages H) (content : H → Bytes) (C : Set Bytes)
    (ws : List (WriterAt H)) (g : Globals H) : Prop where
  regular : Regular P ws g
  placed : Placed g
  remembered : Remembered g
  storable : ∀ c ∈ C, Storable cfg P content g c

/-- A step from a stocked state ends in one, and serves what was served. -/
def Carries (cfg : Config) (P : Packages H) (content : H → Bytes) (C : Set Bytes)
    (ws ws' : List (WriterAt H)) (g g' : Globals H) : Prop :=
  Stocked cfg P content C ws g →
    Stocked cfg P content C ws' g' ∧ ∀ b, Served cfg P content g b → Served cfg P content g' b

instance : Py.Frame (Carries (H := H) cfg P content C ws ws) where
  refl _ h := ⟨h, fun _ hb => hb⟩
  trans h h' hg := ⟨(h' (h hg).1).1, fun b hb => (h' (h hg).1).2 b ((h hg).2 b hb)⟩

theorem Carries.all {bs : List (FileBlock H)} (h : Carries cfg P content C ws ws' g g')
    (hg : Stocked cfg P content C ws g) (hbs : AllServed cfg P content bs g) :
    AllServed cfg P content bs g' := fun b hb => (h hg).2 b (hbs b hb)

/-! ## Steps that move no bytes -/

/-- The stores, the entries but for counters and flags, and the cache of unwritten blocks answer
alike; the read caches may have lost entries. -/
structure Unmoved (g g' : Globals H) : Prop where
  entries : ∀ h, located g'.hashTable.d h = located g.hashTable.d h
  writeReadCache : ∀ h, g'.writeReadCache.get? h = g.writeReadCache.get? h
  datastore : g'.datastore = g.datastore
  readCache : ∀ h d, g'.readCache.get? h = some d → g.readCache.get? h = some d
  smallCache : ∀ h d, g'.smallBlockReadCache.get? h = some d → g.smallBlockReadCache.get? h = some d

instance : Py.Frame (@Unmoved H _) where
  refl _ := ⟨fun _ => rfl, fun _ => rfl, rfl, fun _ _ h => h, fun _ _ h => h⟩
  trans h h' := ⟨fun k => (h'.entries k).trans (h.entries k),
    fun k => (h'.writeReadCache k).trans (h.writeReadCache k), h'.datastore.trans h.datastore,
    fun k d hd => h.readCache k d (h'.readCache k d hd),
    fun k d hd => h.smallCache k d (h'.smallCache k d hd)⟩

theorem Remarked.unmoved (h : Remarked g g') : Unmoved g g' :=
  ⟨h.entries, fun k => by rw [h.writeReadCache], h.datastore, h.readCache, h.smallCache⟩

theorem Unmoved.commit (g : Globals H) : Unmoved g { g with hashTable := g.hashTable.commit } :=
  ⟨fun _ => rfl, fun _ => rfl, rfl, fun _ _ h => h, fun _ _ h => h⟩

/-- A block that is fetched from the stores is fetched from them again: its entry names one. -/
theorem Unmoved.fetch (hg : Regular P ws g) (hg' : Regular P ws' g') (hu : Unmoved g g') {b : FileBlock H}
    {d : Bytes} (hd : (fetchUncached cfg P b g).1 = .ok (.bytes (some d))) :
    (fetchUncached cfg P b g').1 = .ok (.bytes (some d)) := by
  -- the same state, with the small blocks and the cache of before
  let g₁ : Globals H := { g' with smallBlocks := g.smallBlocks, writeReadCache := g.writeReadCache }
  have hsame : SameBytes g g₁ := by
    refine ⟨fun h => ?_, rfl, hu.datastore, rfl⟩
    change (g'.hashTable.getItem? h).map Block.stripped = _
    rw [hg'.getItem?, hg.getItem?]
    exact hu.entries h
  have hfetch := hsame.fetchUncached hd
  cases he : g'.hashTable.getItem? b.hash with
  | none =>
    rw [fetchUncached_missing cfg P b (show g₁.hashTable.getItem? b.hash = none from he)] at hfetch
    cases hfetch
  | some e =>
    have hchunk : e.chunk ≠ -1 := hg'.notSmall b.hash e (by rw [← hg'.getItem?, he])
    rw [fetchUncached_fst cfg P b (show g₁.hashTable.getItem? b.hash = some e from he),
      if_neg hchunk] at hfetch
    rw [fetchUncached_fst cfg P b he, if_neg hchunk]
    exact hfetch

theorem Served.unmoved (hg : Regular P ws g) (hg' : Regular P ws' g') (hu : Unmoved g g')
    {b : FileBlock H} (hb : Served cfg P content g b) : Served cfg P content g' b := by
  refine ⟨⟨hb.size, hb.hash, fun d hd => hb.readCache d (hu.readCache _ _ hd),
    fun d hd => hb.smallCache d (hu.smallCache _ _ hd),
    fun d hd => hb.writeCache d (by rw [← hu.writeReadCache]; exact hd), ?_⟩, fun e he => ?_⟩
  · rcases hb.held with ⟨hw, hn⟩ | hf
    · exact .inl ⟨by rw [hu.writeReadCache]; exact hw, fun hc => hn (hu.smallCache _ _ hc)⟩
    · exact .inr (hu.fetch hg hg' hf)
  · rw [hg'.getItem?] at he
    obtain ⟨e₀, he₀, heq⟩ := located_some (hu.entries b.hash) he
    have hhash : e.hash = e₀.hash := congrArg (·.hash) heq
    rw [hhash]
    exact hb.own e₀ (by rw [hg.getItem?, he₀])

theorem Storable.unmoved (hg : Regular P ws g) (hg' : Regular P ws' g') (hu : Unmoved g g') {c : Bytes}
    (hc : Storable cfg P content g c) : Storable cfg P content g' c := by
  refine ⟨hc.content_eq, fun e he => ?_, fun hnone => ?_⟩
  · obtain ⟨e₀, he₀, heq⟩ := located_some (hu.entries _) he
    have hsize : e.size = e₀.size := congrArg (·.size) heq
    have hraw : e.deflatedSize = e₀.deflatedSize := congrArg (·.deflatedSize) heq
    rw [hsize, hraw]
    exact (hc.known e₀ he₀).unmoved hg hg' hu
  · have hentry := hu.entries (P.xxh3_64 c)
    unfold located at hentry
    rw [hnone] at hentry
    have hun := hc.unknown (Option.map_eq_none_iff.mp hentry.symm)
    refine ⟨fun d hd => hun.readCache d (hu.readCache _ _ hd),
      fun o ho => hun.smallCache o (hu.smallCache _ _ ho), fun e he => ?_⟩
    rw [hg'.getItem?, hnone] at he
    cases he

/-- **A step that moves no bytes.** -/
theorem Carries.unmoved (hu : Unmoved g g') (hregular : Regular P ws g → Regular P ws' g')
    (hplaced : Placed g ∧ Remembered g → Placed g' ∧ Remembered g') :
    Carries cfg P content C ws ws' g g' := by
  intro hg
  have hg' := hregular hg.regular
  obtain ⟨hp, hr⟩ := hplaced ⟨hg.placed, hg.remembered⟩
  exact ⟨⟨hg', hp, hr, fun c hc => (hg.storable c hc).unmoved hg.regular hg' hu⟩,
    fun b hb => hb.unmoved hg.regular hg' hu⟩

theorem updateIndexRemove_unmoved (cfg : Config) (now : Time) (h : H) :
    Py.Keeps Unmoved (updateIndexRemove cfg now h) := by
  intro g
  rcases updateIndexRemove_outcome cfg now h g with hsame | ⟨b, fb', hb, _, hrun⟩
  · rw [hsame]
    exact Py.Frame.refl g
  · have hw := uncache_withdrawn cfg h b (flagDeleted now h b { g with freeBlocks := fb' })
    have hc := uncache_keeps cfg h b (flagDeleted now h b { g with freeBlocks := fb' })
    rw [hrun]
    refine ⟨fun k => ?_, fun k => by rw [hc.writeReadCache]; rfl, hc.datastore, hw.readCache,
      hw.smallCache⟩
    rw [hc.hashTable]
    refine (located_set g.hashTable.d h k _).trans ?_
    split
    · rename_i e
      unfold located
      rw [← e, hb]
      rfl
    · rfl

/-- A drop. -/
theorem updateIndexRemove_carries (now : Time) (h : H) :
    Py.Keeps (Carries cfg P content C ws ws) (updateIndexRemove cfg now h) := fun g =>
  .unmoved (updateIndexRemove_unmoved cfg now h g) (fun hg => hg.drop cfg now h)
    ((placed_preserved cfg).drop now h)

theorem dropBlocks_carries (clock : Nat → Time) (bs : List (FileBlock H)) :
    Py.Keeps (Carries cfg P content C ws ws) (dropBlocks cfg clock bs) :=
  Py.keeps_forEach fun _ => updateIndexRemove_carries _ _

/-- The record that a store has, whichever way the store is named. -/
def recordAt (ds : List (DataStore H)) (i : Int) (h : H) : Option (Option Bytes) :=
  (getAt? ds i).map fun d => d.db.get? h

/-- The bytes that a reader makes of a record. -/
def unpacked (P : Packages H) (e : Block H) : Option Bytes → Bytes
  | some data => if e.compressed then decompressData P data else data
  | none => []

theorem recordAt_congr {ds ds' : List (DataStore H)} {h : H} (hlen : ds'.length = ds.length)
    (hstored : ∀ j, stored ds' j h = stored ds j h) (i : Int) : recordAt ds' i h = recordAt ds i h := by
  unfold recordAt getAt?
  rw [hlen]
  cases hi : index? ds.length i with
  | none => rfl
  | some j =>
    have hj := index?_lt hi
    have hj' : j < ds'.length := hlen ▸ hj
    have hrec := hstored j
    unfold VeratyFS.stored at hrec
    rw [List.getElem?_eq_getElem hj, List.getElem?_eq_getElem hj'] at hrec
    change (ds'[j]?).map _ = (ds[j]?).map _
    rw [List.getElem?_eq_getElem hj, List.getElem?_eq_getElem hj']
    exact congrArg some hrec

theorem PutRecord.stored_ne {ds ds' : List (DataStore H)} {store : Nat} {k h : H} {data : Bytes}
    (hput : PutRecord ds ds' store k data) (hne : k ≠ h) (j : Nat) :
    VeratyFS.stored ds' j h = VeratyFS.stored ds j h := by
  rw [hput.stored, if_neg fun e => hne e.2]

/-- The record of the block that was put is the old one, or the new one. -/
theorem PutRecord.recordAt_self {ds ds' : List (DataStore H)} {store : Nat} {h : H} {data : Bytes}
    (hput : PutRecord ds ds' store h data) {i : Int} {r : Option Bytes}
    (hr : recordAt ds i h = some r) :
    recordAt ds' i h = some r ∨ recordAt ds' i h = some (some data) := by
  unfold recordAt getAt? at hr ⊢
  rw [hput.length]
  cases hi : index? ds.length i with
  | none =>
    rw [hi] at hr
    cases hr
  | some j =>
    rw [hi] at hr
    have hrec : VeratyFS.stored ds j h = r := by
      obtain ⟨d, hd, rfl⟩ := Option.map_eq_some_iff.mp hr
      exact (congrArg (·.bind fun d => d.db.get? h) hd).trans rfl
    have hj : j < ds'.length := hput.length ▸ index?_lt hi
    have hrec' := hput.stored j h
    rw [hrec] at hrec'
    change (ds'[j]?).map _ = _ ∨ (ds'[j]?).map _ = _
    unfold VeratyFS.stored at hrec'
    rw [List.getElem?_eq_getElem hj] at hrec' ⊢
    split at hrec'
    · exact .inr (congrArg some hrec')
    · exact .inl (congrArg some hrec')

/-- A block that was put is found under the number of its chunk. -/
theorem PutAt.recordAt {q : QueuedWrite H} (hq : PutAt g q) (hn : Numbered g.datastore) :
    VeratyFS.recordAt g.datastore q.chunk q.hash = some (some q.payload) := by
  obtain ⟨store, hnamed, hstored⟩ := hq
  obtain ⟨d, hd, hget⟩ := Option.bind_eq_some_iff.mp hstored
  unfold VeratyFS.recordAt
  rw [hn store q.chunk hnamed, getAt?_natCast, hd]
  exact congrArg some hget

/-- What the stores have for an entry is its record, unpacked as the entry says. -/
theorem fetch_iff (hb : cfg.backend = .rocksdb) (P : Packages H) {b : FileBlock H} {e : Block H}
    (he : g.hashTable.getItem? b.hash = some e) (hown : e.hash = b.hash) (hchunk : e.chunk ≠ -1)
    {c : Bytes} : (fetchUncached cfg P b g).1 = .ok (.bytes (some c)) ↔
      ∃ r, recordAt g.datastore e.chunk b.hash = some r ∧ unpacked P e r = c := by
  have hstored : storedAt cfg P b e g = (recordAt g.datastore e.chunk b.hash).elim
      (.error .indexError) fun r => .ok (some (unpacked P e r)) := by
    unfold storedAt readData rocksdbRead recordAt
    rw [hb]
    cases getAt? g.datastore e.chunk with
    | none => rfl
    | some d =>
      dsimp only [Option.map_some]
      rw [hown, he]
      cases d.db.get? b.hash with
      | none => rfl
      | some data => rfl
  rw [fetchUncached_fst cfg P b he, if_neg hchunk, hstored]
  cases recordAt g.datastore e.chunk b.hash with
  | none =>
    refine ⟨fun h => (by cases h), ?_⟩
    rintro ⟨r, hr, _⟩
    cases hr
  | some r =>
    refine ⟨fun h => ⟨r, rfl, Option.some.inj (Fetched.bytes.inj (Except.ok.inj h))⟩, ?_⟩
    rintro ⟨r', hr', rfl⟩
    cases hr'
    rfl

/-! ## The writers -/

section

variable {q : QueuedWrite H}

/-- **A put** overwrites no record with other bytes. -/
theorem Served.put (hb : cfg.backend = .rocksdb) (hg : Regular P (.commit q :: ws) g)
    {ds : List (DataStore H)} {store : Nat} (hput : PutRecord g.datastore ds store q.hash q.payload)
    {b : FileBlock H} (hs : Served cfg P content g b) :
    Served cfg P content { g with datastore := ds } b := by
  have hhead : q ∈ waiting (.commit q :: ws) g := List.mem_cons_self
  refine ⟨⟨hs.size, hs.hash, hs.readCache, hs.smallCache, hs.writeCache, ?_⟩, hs.own⟩
  rcases hs.held with hcached | hf
  · exact .inl hcached
  · refine .inr ?_
    cases he : g.hashTable.getItem? b.hash with
    | none =>
      rw [fetchUncached_missing cfg P b he] at hf
      cases hf
    | some e =>
      have hown := hs.own e he
      have hchunk : e.chunk ≠ -1 := hg.notSmall b.hash e (by rw [← hg.getItem?, he])
      obtain ⟨r, hr, hbytes⟩ := (fetch_iff hb P he hown hchunk).mp hf
      refine (fetch_iff (g := { g with datastore := ds }) hb P he hown hchunk).mpr ?_
      by_cases hq : q.hash = b.hash
      · rw [hq] at hput
        rcases hput.recordAt_self hr with hsame | hnew
        · exact ⟨r, hsame, hbytes⟩
        · -- the entry says of the bytes what the block says, and these are the bytes in the cache
          refine ⟨_, hnew, ?_⟩
          obtain ⟨x, hx, hcompressed⟩ := hg.known q hhead
          rw [hq, ← hg.getItem?, he] at hx
          cases hx
          have hdata : q.data = content b.hash := hs.writeCache q.data (hq ▸ hg.cached q hhead)
          rw [← hdata]
          unfold unpacked
          dsimp only
          rw [hcompressed]
          exact hg.unpacks q hhead
      · exact ⟨r, (recordAt_congr hput.length (hput.stored_ne hq) _).trans hr, hbytes⟩

theorem put_carries (hb : cfg.backend = .rocksdb) {ds : List (DataStore H)} {store : Nat}
    {chunk block : Int} {w : WriterAt H}
    (hput : PutRecord g.datastore ds store q.hash q.payload)
    (hnamed : (g.datastore.map DataStore.chunk)[store]? = some chunk)
    (hw : w.stored? = some { q with chunk := chunk, block := block }) :
    Carries cfg P content C (.commit q :: ws) (w :: ws) g { g with datastore := ds } := by
  intro hg
  have hserved : ∀ b, Served cfg P content g b → Served cfg P content { g with datastore := ds } b :=
    fun b hs => hs.put hb hg.regular hput
  refine ⟨⟨hg.regular.putBlock hput hnamed hw, ⟨hg.placed.entries, ?_, hg.placed.nonempty⟩,
    ⟨hg.remembered.removeUses, hg.remembered.reclaimed⟩, fun c hc => ?_⟩, hserved⟩
  · intro j x hx
    exact hg.placed.stores j x (by rw [← hput.chunks]; exact hx)
  · have hst := hg.storable c hc
    refine ⟨hst.content_eq, fun e he => hserved _ (hst.known e he), fun hnone => ?_⟩
    have hun := hst.unknown hnone
    exact ⟨hun.readCache, hun.smallCache, hun.chunk⟩

/-- What the read cache of the small blocks holds after an install: what it held, or the bytes of the
block. -/
theorem installed_smallCache {h : H} {o : Option Bytes}
    (ho : (installed cfg q g).smallBlockReadCache.get? h = some o) :
    (q.hash = h ∧ o = some q.data) ∨ g.smallBlockReadCache.get? h = some o := by
  replace ho : (if q.compressedData.length ≤ cfg.smallBlockLimit then
      g.smallBlockReadCache.set q.hash (some q.data) else g.smallBlockReadCache).get? h = some o := ho
  split at ho
  · rcases LRU.get?_set ho with ⟨hk, rfl⟩ | ho
    · exact .inl ⟨hk, rfl⟩
    · exact .inr ho
  · exact .inr ho

/-- A block of another hash is served as before. -/
theorem Served.install_other (hb : cfg.backend = .rocksdb) (hg : Regular P (.install q :: ws) g)
    {b : FileBlock H} (hne : q.hash ≠ b.hash) (hs : Served cfg P content g b) :
    Served cfg P content (installed cfg q g) b := by
  have hg' : Regular P (.popleft :: ws) (installed cfg q g) := hg.install
  have htable : (installed cfg q g).hashTable.getItem? b.hash = g.hashTable.getItem? b.hash := by
    rw [hg'.getItem?, hg.getItem?, installed_get?, if_neg hne]
  have hsmall : ∀ o, (installed cfg q g).smallBlockReadCache.get? b.hash = some o →
      g.smallBlockReadCache.get? b.hash = some o := fun o ho =>
    (installed_smallCache ho).resolve_left fun h => hne h.1
  have hwrite : (installed cfg q g).writeReadCache.get? b.hash = g.writeReadCache.get? b.hash :=
    (Dict.get?_erase _ _ _).trans (if_neg hne)
  refine ⟨⟨hs.size, hs.hash, hs.readCache, fun d hd => hs.smallCache d (hsmall _ hd),
    fun d hd => hs.writeCache d (hwrite ▸ hd), ?_⟩, fun e he => hs.own e (htable ▸ he)⟩
  rcases hs.held with ⟨hw, hn⟩ | hf
  · exact .inl ⟨hwrite.trans hw, fun hc => hn (hsmall _ hc)⟩
  · refine .inr ?_
    cases he : g.hashTable.getItem? b.hash with
    | none =>
      rw [fetchUncached_missing cfg P b he] at hf
      cases hf
    | some e =>
      have hown := hs.own e he
      have hchunk : e.chunk ≠ -1 := hg.notSmall b.hash e (by rw [← hg.getItem?, he])
      exact (fetch_iff hb P (htable.trans he) hown hchunk).mpr ((fetch_iff hb P he hown hchunk).mp hf)

/-- The block that was entered is served from its store. -/
theorem served_installed (hb : cfg.backend = .rocksdb) (hg : Regular P (.install q :: ws) g)
    (hcontent : content q.hash = q.data) {b : FileBlock H} (hhash : b.hash = q.hash)
    (hsize : (content b.hash).length = b.rawSize) (hxxh : b.hash = P.xxh3_64 (content b.hash))
    (hread : ∀ d, g.readCache.get? b.hash = some d → d = content b.hash)
    (hsmall : ∀ d, g.smallBlockReadCache.get? b.hash = some (some d) → d = content b.hash) :
    Served cfg P content (installed cfg q g) b := by
  have hg' : Regular P (.popleft :: ws) (installed cfg q g) := hg.install
  have hentry : (installed cfg q g).hashTable.getItem? b.hash =
      some { committedEntry q with uses := 1 } := by
    rw [hg'.getItem?, installed_get?, if_pos hhash.symm]
  have hwrite : (installed cfg q g).writeReadCache.get? b.hash = none := by
    rw [hhash]
    exact (Dict.get?_erase _ _ _).trans (if_pos rfl)
  have hdata : content b.hash = q.data := by rw [hhash, hcontent]
  refine ⟨⟨hsize, hxxh, hread, fun d hd => ?_, fun d hd => ?_, .inr ?_⟩, fun e he => ?_⟩
  · rcases installed_smallCache hd with ⟨_, ho⟩ | ho
    · cases ho
      exact hdata.symm
    · exact hsmall d ho
  · rw [hwrite] at hd
    cases hd
  · have hnotSmall := hg'.notSmall b.hash _ (by rw [← hg'.getItem?, hentry])
    have hrecord := (hg.put (.install q) List.mem_cons_self q rfl).recordAt hg.numbered
    refine (fetch_iff hb P hentry hhash.symm hnotSmall).mpr ⟨_, hhash ▸ hrecord, ?_⟩
    rw [hdata]
    exact hg.unpacks q List.mem_cons_self
  · rw [hentry] at he
    cases he
    exact hhash.symm

/-- **An install carries** what was served and what can be stored. -/
theorem install_carries (hb : cfg.backend = .rocksdb) :
    Carries cfg P content C (.install q :: ws) (.popleft :: ws) g (installed cfg q g) := by
  intro hg
  have hr := hg.regular
  have hhead : q ∈ waiting (.install q :: ws) g := List.mem_cons_self
  -- a served block of the hash has the data of the block
  have hself : ∀ b : FileBlock H, q.hash = b.hash → Served cfg P content g b →
      content q.hash = q.data := fun b h hs => by
    rw [h]
    exact (hs.writeCache q.data (h ▸ hr.cached q hhead)).symm
  have hserved : ∀ b, Served cfg P content g b → Served cfg P content (installed cfg q g) b := by
    intro b hs
    by_cases h : q.hash = b.hash
    · exact served_installed hb hr (hself b h hs) h.symm hs.size hs.hash hs.readCache hs.smallCache
    · exact hs.install_other hb hr h
  obtain ⟨store, hnamed, _⟩ := hr.put (.install q) List.mem_cons_self q rfl
  refine ⟨⟨hr.install, ?_, ?_, fun c hc => ?_⟩, hserved⟩
  · exact hg.placed.setEntry (b := { committedEntry q with uses := 1 })
      (hg.placed.stores store q.chunk hnamed) (installed_get? cfg q g) rfl rfl
  · exact hg.remembered.grow (contains_of_table (installed_get? cfg q g)) rfl rfl
  · have hst := hg.storable c hc
    refine ⟨hst.content_eq, fun e he => ?_, fun hnone => ?_⟩
    · rw [installed_get?] at he
      split at he
      · rename_i h
        cases he
        obtain ⟨e₀, he₀, _⟩ := hr.known q hhead
        have hs := hst.known e₀ (h ▸ he₀)
        have hdata := hself _ h hs
        refine served_installed hb hr hdata h.symm ?_ hs.hash hs.readCache hs.smallCache
        change (content (P.xxh3_64 c)).length = q.data.length
        rw [← h, hdata]
      · exact hserved _ (hst.known e he)
    · have hne : ¬ q.hash = P.xxh3_64 c := by
        intro h
        rw [installed_get?, if_pos h] at hnone
        cases hnone
      rw [installed_get?, if_neg hne] at hnone
      have hun := hst.unknown hnone
      refine ⟨hun.readCache, fun o ho => hun.smallCache o
        ((installed_smallCache ho).resolve_left fun h => hne h.1), fun e he => ?_⟩
      rw [hr.install.getItem?, installed_get?, if_neg hne, hnone] at he
      cases he

end

theorem Stocked.perm (hg : Stocked cfg P content C ws g) (hp : ws'.Perm ws) :
    Stocked cfg P content C ws' g :=
  ⟨hg.regular.perm hp, hg.placed, hg.remembered, hg.storable⟩

/-- **An operation of a writer** that does not fail. -/
theorem WriterStep.carries (hb : cfg.backend = .rocksdb) {w w' : WriterAt H}
    (h : WriterStep cfg g w w' g') (hok : w.keeps w' = true) :
    Carries cfg P content C (w :: ws) (w' :: ws) g g' := by
  cases h with
  | idle => exact Py.Frame.refl g
  | pop head =>
    exact .unmoved ⟨fun _ => rfl, fun _ => rfl, rfl, fun _ _ h => h, fun _ _ h => h⟩
      (fun hg => hg.pop head) fun hg => ⟨⟨hg.1.entries, hg.1.stores, hg.1.nonempty⟩,
        ⟨hg.2.removeUses, hg.2.reclaimed⟩⟩
  | putSmall small => exact absurd hb small.1
  | put record named next => exact put_carries hb record named next
  | lost => cases hok
  | putReplica =>
    exact .unmoved ⟨fun _ => rfl, fun _ => rfl, rfl, fun _ _ h => h, fun _ _ h => h⟩
      (fun hg => hg.putReplica _) fun hg => ⟨⟨hg.1.entries, hg.1.stores, hg.1.nonempty⟩,
        ⟨hg.2.removeUses, hg.2.reclaimed⟩⟩
  | lostReplica => cases hok
  | install => exact install_carries hb

/-- Reads of served blocks, and calls of `dedup` on chunks that can be stored. -/
theorem Kept.carries (h : Kept cfg P content g g') (hregular : Regular P ws g → Regular P ws g')
    (hremembered : Remembered g → Remembered g') : Carries cfg P content C ws ws g g' := fun hg =>
  ⟨⟨hregular hg.regular, h.placed hg.placed, hremembered hg.remembered,
    fun c hc => h.storable c (hg.storable c hc)⟩, h.served⟩

/-- A new module state can store every chunk. -/
theorem Stocked.fresh (hC : ∀ c ∈ C, content (P.xxh3_64 c) = c) {cacheSize : Nat}
    (h : 0 < cacheSize) {ds mds : List (DataStore H)} (hn : Numbered ds) (hne : ds ≠ [])
    (hidle : ∀ w ∈ ws, w = .popleft) :
    Stocked cfg P content C ws (.fresh cacheSize h ds mds) := by
  have hsound : Sound (Fs.fresh cacheSize h ds mds) := .fresh hne hn
  refine ⟨.fresh h hn hidle, hsound.placed, hsound.remembered, fun c hc => ⟨hC c hc, fun e he => ?_,
    fun _ => ⟨fun d hd => ?_, fun o ho => ?_, fun e he => ?_⟩⟩⟩
  · cases he
  · cases hd
  · cases ho
  · cases he

end VeratyFS
