import VeratyFS.Serving
import VeratyFS.InUse

/-!
# Blocks that are on their store

A block whose entry is in the database and whose record is in a store stays there, whatever else the
program does, and whenever it dies.

* `OnStore` — the entry is the same in memory, in the database and among the pending ones, and the
  store that it names has the record.
* `onStore_calls`, `OnStore.writer`, `OnStore.collect`, `OnStore.commit`, `OnStore.mounted` — calls,
  the writers, the collector, commits of the table and mounts keep it, also when they fail.
* `Served.onStore` — a served block that does not wait is on its store after a commit.
* `OnStore.served` — the next mount serves it.
-/

set_option autoImplicit false

namespace VeratyFS

open Pylib

variable {H : Type} [DecidableEq H] {cfg : Config} {P : Packages H} {content : H → Bytes}
  {g g' : Globals H} {ws ws' : List (WriterAt H)} {h : H} {e : Block H} {r : Option Bytes}

/-- The block `h` has the entry `e`, in memory and in the database, and the record `r` in the store
that the entry names; it does not wait, so that no writer will replace the entry. -/
structure OnStore (h : H) (e : Block H) (r : Option Bytes) (ws : List (WriterAt H)) (g : Globals H) :
    Prop where
  entry : located g.hashTable.d h = some e
  pending : ∀ p, located g.hashTable.pending h = some p → p = e
  saved : located g.hashTable.ht h = some e
  idle : ∀ q ∈ waiting ws g, q.hash ≠ h
  record : recordAt g.datastore e.chunk h = some r

namespace OnStore

/-! ## Calls -/

theorem caches (hs : OnStore h e r ws g) (hc : CachesOnly g g') : OnStore h e r ws g' where
  entry := by rw [hc.hashTable]; exact hs.entry
  pending := by rw [hc.hashTable]; exact hs.pending
  saved := by rw [hc.hashTable]; exact hs.saved
  idle := by rw [waiting_congr hc.writeBuffer]; exact hs.idle
  record := by rw [hc.datastore]; exact hs.record

/-- An entry is set: one that says the same of the bytes, or that of another block. -/
theorem setEntry (hs : OnStore h e r ws g) {k : H} {b : Block H} (hb : k = h → b.stripped = e)
    (htable : g'.hashTable = g.hashTable.setItem k b)
    (hidle : ∀ q ∈ waiting ws' g', q ∈ waiting ws g ∨ q.hash ≠ h)
    (hds : g'.datastore = g.datastore) : OnStore h e r ws' g' := by
  have hset : ∀ d : Dict H (Block H), ∀ p, located (d.set k b) h = some p →
      located d h = some p ∨ p = e := fun d p hp => by
    rw [located_set] at hp
    split at hp
    · rename_i hk
      cases hp
      exact .inr (hb hk)
    · exact .inl hp
  refine ⟨?_, fun p hp => ?_, by rw [htable]; exact hs.saved,
    fun q hq => (hidle q hq).elim (hs.idle q) id, by rw [hds]; exact hs.record⟩
  · rw [htable]
    refine (located_set g.hashTable.d k h b).trans ?_
    split
    · rename_i hk
      rw [hb hk]
    · exact hs.entry
  · rw [htable] at hp
    exact (hset g.hashTable.pending p hp).elim (hs.pending p) id

/-- The entry in memory, with a counter and a flag. -/
theorem stripped (hs : OnStore h e r ws g) {b : Block H} (hb : g.hashTable.d.get? h = some b) :
    b.stripped = e := by
  have hentry := hs.entry
  unfold located at hentry
  rw [hb] at hentry
  exact Option.some.inj hentry

theorem dedupChunk (hs : OnStore h e r ws g) (compress : Bytes → Bool × Bytes) (c : Bytes) :
    OnStore h e r ws (dedupChunk P compress c g).2 := by
  cases hb : g.hashTable.d.get? (P.xxh3_64 c) with
  | some b =>
    rw [dedupChunk_known hb]
    exact hs.setEntry (b := { b with uses := b.uses + 1 })
      (fun hk => (hs.stripped (hk ▸ hb) : b.stripped = e)) rfl (fun q hq => .inl hq) rfl
  | none =>
    -- a block that is stored has an entry
    have hne : P.xxh3_64 c ≠ h := fun hk => by
      have hentry := hs.entry
      unfold located at hentry
      rw [← hk, hb] at hentry
      cases hentry
    rw [dedupChunk_new hb]
    refine hs.setEntry (fun hk => absurd hk hne) rfl (fun q hq => ?_) rfl
    rcases List.mem_append.mp hq with hq | hq
    · exact .inl (List.mem_append_left _ hq)
    · rcases List.mem_append.mp hq with hq | hq
      · exact .inl (List.mem_append_right _ hq)
      · rw [List.mem_singleton.mp hq]
        exact .inr hne

theorem drop (hs : OnStore h e r ws g) (cfg : Config) (now : Time) (k : H) :
    OnStore h e r ws (updateIndexRemove cfg now k g).2 := by
  rcases updateIndexRemove_outcome cfg now k g with hsame | ⟨b, fb', hb, _, hrun⟩
  · rw [hsame]
    exact hs
  · rw [hrun]
    refine caches ?_ (uncache_keeps cfg k b _)
    exact hs.setEntry (b := { b with DELETED := true, DELETION_TIME := some now })
      (fun hk => (hs.stripped (hk ▸ hb) : b.stripped = e)) rfl (fun q hq => .inl hq) rfl

end OnStore

/-- **Calls** leave a stored block where it is, whatever they raise. -/
theorem onStore_calls (cfg : Config) (P : Packages H) (h : H) (e : Block H) (r : Option Bytes)
    (ws : List (WriterAt H)) : CallsKeep cfg P (OnStore h e r ws) where
  caches hc hs := hs.caches hc
  dedup data g hs := by
    have hone : ∀ c, Py.Keeps (Py.Stays (OnStore h e r ws))
        (dedupChunk P (dedupPieces cfg P data).2 c) := fun c _ hs => hs.dedupChunk _ c
    exact dedupChunks_keeps hone _ g hs
  drop now k _ hs := hs.drop cfg now k

namespace OnStore

/-! ## The writers -/

theorem perm (hs : OnStore h e r ws g) (hp : ws'.Perm ws) : OnStore h e r ws' g :=
  ⟨hs.entry, hs.pending, hs.saved, fun q hq => hs.idle q ((waiting_perm hp g).mem_iff.mp hq), hs.record⟩

/-- Other blocks wait, and the stores have the same records of the block. -/
theorem moves (hs : OnStore h e r ws g) (htable : g'.hashTable = g.hashTable)
    (hidle : ∀ q ∈ waiting ws' g', ∃ p ∈ waiting ws g, p.hash = q.hash)
    (hlen : g'.datastore.length = g.datastore.length)
    (hstored : ∀ j, stored g'.datastore j h = stored g.datastore j h) : OnStore h e r ws' g' := by
  refine ⟨by rw [htable]; exact hs.entry, by rw [htable]; exact hs.pending,
    by rw [htable]; exact hs.saved, fun q hq heq => ?_, ?_⟩
  · obtain ⟨p, hp, hpq⟩ := hidle q hq
    exact hs.idle p hp (hpq.trans heq)
  · exact (recordAt_congr hlen hstored e.chunk).trans hs.record

/-- **An operation of a writer**, also one that loses its block. -/
theorem writerStep {w w' : WriterAt H} (hs : OnStore h e r (w :: ws) g)
    (hstep : WriterStep cfg g w w' g') : OnStore h e r (w' :: ws) g' := by
  have hrest : ∀ x ∈ waiting ws g, x ∈ waiting (w :: ws) g := fun x hx => by
    rcases List.mem_append.mp hx with hx | hx
    · exact List.mem_append_left _ (((List.sublist_cons_self w ws).filterMap _).mem hx)
    · exact List.mem_append_right _ hx
  cases hstep with
  | idle => exact hs
  | pop head =>
    refine hs.moves rfl (fun x hx => ⟨x, ?_, rfl⟩) rfl fun _ => rfl
    have hqueue := (WriteCache.popleft_eq_some head).1
    rcases List.mem_cons.mp hx with rfl | hx
    · refine List.mem_append_right _ ?_
      rw [hqueue]
      exact List.mem_cons_self
    · rcases List.mem_append.mp hx with hx | hx
      · exact List.mem_append_left _ hx
      · refine List.mem_append_right _ ?_
        rw [hqueue]
        exact List.mem_cons_of_mem _ hx
  | @putSmall q _ small =>
    refine hs.moves rfl (fun x hx => ?_) rfl fun _ => rfl
    rcases List.mem_cons.mp hx with rfl | hx
    · exact ⟨q, List.mem_cons_self, rfl⟩
    · exact ⟨x, List.mem_cons_of_mem _ hx, rfl⟩
  | @put q _ ds store chunk block record named next =>
    have hne : q.hash ≠ h := hs.idle q List.mem_cons_self
    refine hs.moves rfl (fun x hx => ?_) record.length (record.stored_ne hne)
    unfold waiting at hx
    rw [List.filterMap_cons_some (WriterAt.item_of_stored next)] at hx
    rcases List.mem_cons.mp hx with rfl | hx
    · exact ⟨q, List.mem_cons_self, rfl⟩
    · exact ⟨x, List.mem_cons_of_mem _ hx, rfl⟩
  | lost same =>
    exact hs.moves rfl (fun x hx => ⟨x, List.mem_cons_of_mem _ hx, rfl⟩) same.length fun j => same.stored j h
  | putReplica => exact hs.moves rfl (fun x hx => ⟨x, hx, rfl⟩) rfl fun _ => rfl
  | lostReplica => exact hs.moves rfl (fun x hx => ⟨x, List.mem_cons_of_mem _ hx, rfl⟩) rfl fun _ => rfl
  | @install q =>
    have hne : q.hash ≠ h := hs.idle q List.mem_cons_self
    have hgone : OnStore h e r (.popleft :: ws) g :=
      hs.moves rfl (fun x hx => ⟨x, List.mem_cons_of_mem _ hx, rfl⟩) rfl fun _ => rfl
    -- the entry of the block that was written is set twice
    have hfirst : OnStore h e r (.popleft :: ws) { g with
        hashTable := g.hashTable.setItem q.hash (committedEntry q) } :=
      hgone.setEntry (fun hk => absurd hk hne) rfl (fun x hx => .inl hx) rfl
    exact hfirst.setEntry (fun hk => absurd hk hne) rfl (fun x hx => .inl hx) rfl

/-- **The writers**, at any point of their iterations. -/
theorem writer (hs : OnStore h e r ws g) (cfg : Config) (env : CommitEnv) {i : Nat} {w : WriterAt H}
    (hi : ws[i]? = some w) : OnStore h e r (ws.set i (w.exec cfg env g).1) (w.exec cfg env g).2 := by
  obtain ⟨hlt, rfl⟩ := List.getElem?_eq_some_iff.mp hi
  have hstep := (hs.perm (List.getElem_cons_eraseIdx_perm hlt)).writerStep (ws[i].exec_step cfg env g)
  exact hstep.perm (List.set_perm_cons_eraseIdx hlt _)

/-! ## The collector, commits and mounts -/

theorem remarked (hs : OnStore h e r ws g) (hr : Remarked g g') : OnStore h e r ws g' where
  entry := by rw [hr.entries]; exact hs.entry
  pending := by rw [hr.pending]; exact hs.pending
  saved := by rw [hr.ht]; exact hs.saved
  idle := by rw [waiting_congr hr.writeBuffer]; exact hs.idle
  record := by rw [hr.datastore]; exact hs.record

theorem commit (hs : OnStore h e r ws g) :
    OnStore h e r ws { g with hashTable := g.hashTable.commit } := by
  refine ⟨hs.entry, fun p hp => (by cases hp), ?_, hs.idle, hs.record⟩
  have hsaved := hs.saved
  have hpending := hs.pending
  change located g.hashTable.commit.ht h = some e
  unfold located at *
  rw [HashTable.commit_ht_get?]
  cases hp : g.hashTable.pending.get? h with
  | none => exact hsaved
  | some b =>
    rw [hp] at hpending
    exact congrArg some (hpending _ rfl)

theorem collect (hs : OnStore h e r ws g) (cfg : Config) (now : Time) :
    OnStore h e r ws (collectNext cfg now g) := by
  obtain ⟨g₁, ⟨_, hr⟩, heq | heq⟩ := collectNext_cases cfg now g
  · rw [heq]
    exact hs.remarked hr
  · rw [heq]
    exact (hs.remarked hr).commit

/-- **A mount**, whatever was lost in the crash before it. -/
theorem mounted (hs : OnStore h e r ws g) (hidle : ∀ w ∈ ws', w = .popleft) :
    OnStore h e r ws' g.mounted where
  entry := (congrArg (Option.map Block.stripped)
    (HashTable.initFromDisk_d_get? g.hashTable h)).trans hs.saved
  pending _ hp := by cases hp
  saved := hs.saved
  idle := by
    rw [waiting_idle (g := g.mounted) rfl hidle]
    exact fun _ hq => by cases hq
  record := hs.record

end OnStore

/-! ## What a mount serves -/

/-- The entry and the record of a block give its bytes. -/
structure Unpacks (P : Packages H) (content : H → Bytes) (b : FileBlock H) (e : Block H)
    (r : Option Bytes) : Prop where
  size : (content b.hash).length = b.rawSize
  hash : b.hash = P.xxh3_64 (content b.hash)
  own : e.hash = b.hash
  notSmall : e.chunk ≠ -1
  bytes : unpacked P e r = content b.hash

variable {b : FileBlock H}

/-- **The next mount serves the block.** -/
theorem OnStore.served (hb : cfg.backend = .rocksdb) (hs : OnStore b.hash e r ws g)
    (hu : Unpacks P content b e r) : Served cfg P content g.mounted b := by
  have hidle : ∀ w ∈ ([] : List (WriterAt H)), w = .popleft := fun w hw => by cases hw
  obtain ⟨e₀, he₀, heq⟩ := Option.map_eq_some_iff.mp (hs.mounted hidle).entry
  have hget : g.mounted.hashTable.getItem? b.hash = some e₀ := g.mounted.hashTable.getItem?_of_d he₀
  have hown : e₀.hash = b.hash := (congrArg (·.hash) heq).trans hu.own
  have hchunk : e₀.chunk = e.chunk := congrArg (·.chunk) heq
  have hcompressed : e₀.compressed = e.compressed := congrArg (·.compressed) heq
  have hfetch : (fetchUncached cfg P b g.mounted).1 = .ok (.bytes (some (content b.hash))) := by
    refine (fetch_iff hb P hget hown (hchunk ▸ hu.notSmall)).mpr ⟨r, ?_, ?_⟩
    · rw [hchunk]
      exact hs.record
    · rw [← hu.bytes]
      unfold unpacked
      rw [hcompressed]
  exact ⟨⟨hu.size, hu.hash, fun _ hd => (by cases hd), fun _ hd => (by cases hd),
    fun _ hd => (by cases hd), .inr hfetch⟩, fun x hx => by
      rw [hget] at hx
      cases hx
      exact hown⟩

/-- **A served block that does not wait** is on its store once the table is committed. -/
theorem Served.onStore (hb : cfg.backend = .rocksdb) (hg : Regular P ws g)
    (hs : Served cfg P content g b) (hidle : ∀ q ∈ waiting ws g, q.hash ≠ b.hash) :
    ∃ e r, OnStore b.hash e r ws { g with hashTable := g.hashTable.commit } ∧
      Unpacks P content b e r := by
  rcases hs.held with ⟨hw, _⟩ | hf
  · obtain ⟨q, hq, hqh⟩ := hg.unwritten _ _ hw
    exact absurd hqh (hidle q hq)
  · cases he : g.hashTable.getItem? b.hash with
    | none =>
      rw [fetchUncached_missing cfg P b he] at hf
      cases hf
    | some e =>
      have hd : g.hashTable.d.get? b.hash = some e := by rw [← hg.getItem?, he]
      have hown := hs.own e he
      have hchunk := hg.notSmall b.hash e hd
      have hentry : located g.hashTable.d b.hash = some e.stripped := by
        unfold located
        rw [hd]
        rfl
      obtain ⟨r, hrecord, hbytes⟩ := (fetch_iff hb P he hown hchunk).mp hf
      refine ⟨e.stripped, r, ⟨hentry, fun p hp => (by cases hp), ?_, hidle, hrecord⟩,
        hs.size, hs.hash, hown, hchunk, hbytes⟩
      exact (hg.commit.backed b.hash).symm.trans hentry

end VeratyFS
