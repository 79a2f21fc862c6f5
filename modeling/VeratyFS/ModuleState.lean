import VeratyFS.FileSystem

/-!
# Invariants of the module state

* `CallsKeep` — the rule for calls; `Preserved` — the rule: an invariant that the tasks keep holds in
  every state of a run.
* `Remembered` — the hashes that wait for the collector or were deleted by it are in the table.
* `Placed` — every entry's chunk has a free list.
-/

set_option autoImplicit false

namespace VeratyFS

open Pylib

variable {H : Type} [DecidableEq H] {cfg : Config} {P : Packages H}

/-! ## The rule -/

/-- What an invariant of the module state must survive in a call: a cache update, a call of `dedup`,
a drop. -/
structure CallsKeep (cfg : Config) (P : Packages H) (I : Globals H → Prop) : Prop where
  caches : ∀ {g g'}, CachesOnly g g' → I g → I g'
  dedup : ∀ data {g}, I g → I (dedup cfg P data g).2
  drop : ∀ now h {g}, I g → I (updateIndexRemove cfg now h g).2

/-- A call, not a step of a thread or a commit of the hash table. -/
def FsStep.isCall {H : Type} : FsStep H → Bool
  | .flush => false
  | .writerStep _ => false
  | .collect _ => false
  | _ => true

namespace CallsKeep

variable {I : Globals H → Prop} (hI : CallsKeep cfg P I)
include hI

theorem dedup_kept {data : Bytes} {bs : List (FileBlock H)} {g g' : Globals H}
    (hrun : VeratyFS.dedup cfg P data g = (.ok bs, g')) (hg : I g) : I g' := by
  have hd := hI.dedup data hg
  rwa [hrun] at hd

theorem dropBlocks_kept {clock : Nat → Time} {bs : List (FileBlock H)} {g g' : Globals H}
    {r : Except PyError Unit} (hrun : dropBlocks cfg clock bs g = (r, g')) (hg : I g) : I g' := by
  have hloop : (dropBlocks cfg clock bs).wp (fun _ => I) g :=
    Py.wp_forEach_inv (fun i _ g hg => hI.drop (clock i.2) i.1.hash hg) hg
  exact (Py.wp_of_run hrun).mp hloop

theorem write_kept (fh offset : Nat) (buf : Bytes) (now : Time) {s : Fs H} (hs : I s.globals) :
    I (write cfg P fh offset buf now s).2.globals := by
  cases hf : s.inodes.d.get? fh with
  | none =>
    rw [write_missing hf]
    exact hs
  | some f =>
    by_cases hm : inMiddle f offset buf.length
    · rcases write_middle cfg P now hf hm with
        ⟨_, hk⟩ | ⟨sd, sb, eb, data, s₁, f₁, blks, g', _, hk, _, _, hd, hw⟩
      · exact hI.caches hk.caches hs
      · rw [hw]
        exact hI.dedup_kept hd (hI.caches hk.caches hs)
    · obtain ⟨blks, g', hd, hw⟩ := write_append cfg P now hf hm
      rw [hw]
      exact hI.dedup_kept hd hs

/-- **Each call keeps the invariant**, whatever it raises. -/
theorem call {s : Fs H} (hs : I s.globals) {e : FsStep H} (he : e.isCall = true) :
    I (e.exec cfg P s).globals := by
  cases e with
  | create a now =>
    change I (VeratyFS.create a now s).2.globals
    rcases create_cases a now s with heq | ⟨ino, f, _, _, _, _, heq⟩ <;> rw [heq] <;> exact hs
  | read fh offset length now =>
    exact hI.caches (read_keeps cfg P fh offset length now s).caches hs
  | write fh offset buf now => exact hI.write_kept fh offset buf now hs
  | copyInode fh =>
    change I (VeratyFS.copyInode fh s).2.globals
    cases hf : s.inodes.d.get? fh with
    | none =>
      rw [copyInode_missing hf]
      exact hs
    | some f =>
      obtain ⟨tempIno, _, hrun⟩ := copyInode_run hf
      rw [hrun]
      exact hs
  | replaceInode fh tempIno env =>
    change I (VeratyFS.replaceInode cfg env fh tempIno s).2.globals
    rcases replaceInode_cases cfg env fh tempIno s with heq | ⟨f, r, g', _, hdrop, hrest⟩
    · rw [heq]
      exact hs
    · have hg := hI.dropBlocks_kept hdrop hs
      rcases hrest with ⟨_, heq⟩ | ⟨_, _, _, heq⟩ <;> rw [heq] <;> exact hg
  | setAttributes inode a now =>
    change I (VeratyFS.setAttributes inode a now s).2.globals
    unfold VeratyFS.setAttributes
    cases hf : s.inodes.d.get? inode with
    | none =>
      rw [Py.run_bind_error (inodeAt_missing hf)]
      exact hs
    | some f =>
      rw [Py.run_bind_ok (inodeAt_run hf)]
      exact hs
  | remove inodeP name stIno clock =>
    change I (removeInode cfg clock inodeP name stIno s).2.globals
    rcases removeInode_cases cfg clock inodeP name stIno s with
      heq | ⟨f, r, g', _, _, hdrop, hrest⟩
    · rw [heq]
      exact hs
    · have hg := hI.dropBlocks_kept hdrop hs
      rcases hrest with ⟨_, heq⟩ | ⟨_, heq⟩ <;> rw [heq] <;> exact hg
  | flush => cases he
  | writerStep env => cases he
  | collect clock => cases he

end CallsKeep

/-- What an invariant of the module state must survive: a cache update, a chunk of `dedup`, a drop,
an iteration of the writer, a pass of the collector, a commit of the hash table. -/
structure Preserved (cfg : Config) (I : Globals H → Prop) : Prop where
  caches : ∀ {g g'}, CachesOnly g g' → I g → I g'
  refers : ∀ {h g g'}, Refers h g g' → I g → I g'
  dropped : ∀ {now h b g g'}, g.hashTable.d.get? h = some b → Dropped now h b g g' → I g → I g'
  writer : ∀ env {g}, I g → I (writeNewBlock cfg env g).2
  collect : ∀ clock {g}, I g → I (garbageCollector cfg clock g).2
  commit : ∀ {g}, I g → I { g with hashTable := g.hashTable.commit }

namespace Preserved

variable {I : Globals H → Prop} (hI : Preserved cfg I)
include hI

theorem drop (now : Time) (h : H) {g : Globals H} (hg : I g) : I (updateIndexRemove cfg now h g).2 := by
  rcases updateIndexRemove_cases cfg now h g with hsame | ⟨b, hb, hd⟩
  · rw [hsame]
    exact hg
  · exact hI.dropped hb hd hg

theorem calls : CallsKeep cfg P I where
  caches := hI.caches
  dedup data {g} hg := by
    obtain ⟨bs, g', _, hrun, hg', _, _⟩ :=
      dedupChunks_invariant P (dedupPieces cfg P data).2 (dedupPieces cfg P data).1 []
        (I := fun _ g => I g) hg
        fun _ _ _ _ _ hg href => hI.refers href hg
    have heq : dedup cfg P data g = (.ok bs, g') := hrun
    rw [heq]
    exact hg'
  drop := hI.drop

/-- **Each step of the file system keeps the invariant**, whatever it raises. -/
theorem step {s : Fs H} (hs : I s.globals) (e : FsStep H) : I (e.exec cfg P s).globals := by
  cases e with
  | flush => exact hI.commit hs
  | writerStep env => exact hI.writer env hs
  | collect clock => exact hI.collect clock hs
  | create a now => exact hI.calls.call hs rfl
  | read fh offset length now => exact hI.calls.call hs rfl
  | write fh offset buf now => exact hI.calls.call hs rfl
  | copyInode fh => exact hI.calls.call hs rfl
  | replaceInode fh tempIno env => exact hI.calls.call hs rfl
  | setAttributes inode a now => exact hI.calls.call hs rfl
  | remove inodeP name stIno clock => exact hI.calls.call hs rfl

/-- An invariant of the module state holds in every state of a run. -/
theorem run {s s' : Fs H} {es : List (FsStep H)} (h : (fileSystem cfg P).Run s es s')
    (hs : I s.globals) : I s'.globals := by
  refine h.invariant (I := fun s => I s.globals) (fun s e s' hs hstep => ?_) hs
  subst hstep
  exact hI.step hs e

end Preserved

/-! ## What the collector has to do with -/

variable {g g' : Globals H}

/-- The hashes that the collector has to do with are in the table. -/
structure Remembered (g : Globals H) : Prop where
  removeUses : ∀ h ∈ g.removeUses, g.hashTable.contains h = true
  reclaimed : ∀ h ∈ g.reclaimed, g.hashTable.contains h = true

theorem contains_iff_get? (t : HashTable H) (h : H) :
    t.contains h = true ↔ ∃ b, t.d.get? h = some b := Dict.contains_iff _

/-- The table grew, and the collector's lists are the same. -/
theorem Remembered.grow (hg : Remembered g)
    (ht : ∀ h, g.hashTable.contains h = true → g'.hashTable.contains h = true)
    (hr : g'.removeUses = g.removeUses) (hc : g'.reclaimed = g.reclaimed) : Remembered g' := by
  refine ⟨fun h hh => ht h ?_, fun h hh => ht h ?_⟩
  · exact hg.removeUses h (hr ▸ hh)
  · exact hg.reclaimed h (hc ▸ hh)

/-- A table with one entry more, or one changed. -/
theorem contains_of_table {h : H} {b : Block H}
    (ht : ∀ k, g'.hashTable.d.get? k = if h = k then some b else g.hashTable.d.get? k) (k : H)
    (hk : g.hashTable.contains k = true) : g'.hashTable.contains k = true := by
  obtain ⟨e, he⟩ := (contains_iff_get? _ _).mp hk
  rw [contains_iff_get?, ht]
  split
  · exact ⟨b, rfl⟩
  · exact ⟨e, he⟩

theorem Collected.remembered {now : Time} {h : H} {rest : List H} {b : Block H}
    (hc : Collected cfg now h b { g with removeUses := rest } g') (hq : g.removeUses = h :: rest)
    (hb : g.hashTable.d.get? h = some b) (hg : Remembered g) : Remembered g' := by
  have hkeep : ∀ k, g.hashTable.contains k = true → g'.hashTable.contains k = true :=
    contains_of_table (g := g) hc.table
  refine ⟨fun k hk => hkeep k (hg.removeUses k ?_), fun k hk => ?_⟩
  · rw [hc.removeUses] at hk
    rw [hq]
    exact List.mem_cons_of_mem _ hk
  · rw [hc.reclaimed] at hk
    rcases List.mem_append.mp hk with hk | hk
    · exact hkeep k (hg.reclaimed k hk)
    · split at hk
      · rw [List.mem_singleton] at hk
        rw [hk]
        exact hkeep h ((contains_iff_get? _ _).mpr ⟨b, hb⟩)
      · cases hk

/-- **Every step remembers** what waits for the collector and what it deleted. -/
theorem remembered_preserved (cfg : Config) : Preserved (H := H) cfg Remembered where
  caches hc hg := hg.grow (fun h => by rw [hc.hashTable]; exact id) hc.removeUses hc.reclaimed
  refers hr hg := by
    cases hr with
    | known b _ table _ kept => exact hg.grow (contains_of_table table) kept.removeUses kept.reclaimed
    | new q _ _ table _ kept => exact hg.grow (contains_of_table table) kept.removeUses kept.reclaimed
  dropped {now h b g g'} hb hd hg := by
    have hkeep : ∀ k, g.hashTable.contains k = true → g'.hashTable.contains k = true :=
      contains_of_table hd.table
    refine ⟨fun k hk => hkeep k ?_, fun k hk => hkeep k (hg.reclaimed k (hd.reclaimed ▸ hk))⟩
    rw [hd.removeUses] at hk
    rcases List.mem_append.mp hk with hk | hk
    · exact hg.removeUses k hk
    · rw [List.mem_singleton] at hk
      exact hk ▸ (contains_iff_get? _ _).mpr ⟨b, hb⟩
  writer env {g} hg := by
    cases writeNewBlock_effect cfg env g with
    | idle _ same => rw [same]; exact hg
    | lost q _ _ table stores =>
      exact hg.grow (fun h => by rw [table]; exact id) stores.removeUses stores.reclaimed
    | installed q b _ _ table _ _ _ _ _ _ _ removeUses reclaimed =>
      exact hg.grow (contains_of_table table) removeUses reclaimed
  collect clock {g} hg := by
    refine garbageCollector_invariant cfg clock
      (fun g hg h hh => (contains_iff_get? _ _).mp (hg.removeUses h hh))
      (fun g g' now h rest b hg hq hb hc => hc.remembered hq hb hg)
      (fun g hg => ⟨hg.removeUses, hg.reclaimed⟩) hg
  commit hg := ⟨hg.removeUses, hg.reclaimed⟩

/-! ## Free lists -/

/-- Every entry's chunk has a free list, and so have the stores and the small blocks. -/
structure Placed (g : Globals H) : Prop where
  entries : ∀ h b, g.hashTable.d.get? h = some b → (index? g.freeBlocks.length b.chunk).isSome
  stores : ∀ (j : Nat) chunk, (g.datastore.map DataStore.chunk)[j]? = some chunk →
    (index? g.freeBlocks.length chunk).isSome
  nonempty : 0 < g.freeBlocks.length

theorem Placed.of_caches {g g' : Globals H} (hp : Placed g) (hc : CachesOnly g g') : Placed g' := by
  refine ⟨?_, ?_, ?_⟩
  · rw [hc.hashTable, hc.freeBlocks]
    exact hp.entries
  · rw [hc.datastore, hc.freeBlocks]
    exact hp.stores
  · rw [hc.freeBlocks]
    exact hp.nonempty

/-- One entry is set, and its chunk has a free list. -/
theorem Placed.setEntry {g g' : Globals H} {k : H} {b : Block H} (hp : Placed g)
    (hchunk : (index? g.freeBlocks.length b.chunk).isSome)
    (htable : ∀ h, g'.hashTable.d.get? h = if k = h then some b else g.hashTable.d.get? h)
    (hfree : g'.freeBlocks.length = g.freeBlocks.length)
    (hchunks : g'.datastore.map DataStore.chunk = g.datastore.map DataStore.chunk) : Placed g' := by
  refine ⟨fun h b' hb' => ?_, ?_, ?_⟩
  · rw [hfree]
    rw [htable] at hb'
    split at hb'
    · cases hb'
      exact hchunk
    · exact hp.entries h b' hb'
  · rw [hfree, hchunks]
    exact hp.stores
  · rw [hfree]
    exact hp.nonempty

theorem Refers.placed {c : H} (hr : Refers c g g') (hp : Placed g) : Placed g' := by
  cases hr with
  | known b entry table _ kept =>
    exact hp.setEntry (b := { b with uses := b.uses + 1 }) (hp.entries c b entry) table
      (by rw [kept.freeBlocks]) (by rw [kept.datastore])
  | new q _ _ table _ kept =>
    -- the placeholder names chunk 0
    have hchunk : (index? g.freeBlocks.length (placeholder q).chunk).isSome :=
      Option.isSome_iff_exists.mpr ⟨0, index?_natCast hp.nonempty⟩
    exact hp.setEntry hchunk table (by rw [kept.freeBlocks]) (by rw [kept.datastore])

theorem Dropped.placed {now : Time} {k : H} {b : Block H} (hd : Dropped now k b g g')
    (hb : g.hashTable.d.get? k = some b) (hp : Placed g) : Placed g' :=
  hp.setEntry (b := { b with DELETED := true, DELETION_TIME := some now }) (hp.entries k b hb)
    hd.table hd.freeBlocks (by rw [hd.datastore])

theorem Collected.placed {now : Time} {k : H} {b : Block H} (hc : Collected cfg now k b g g')
    (hb : g.hashTable.d.get? k = some b) (hp : Placed g) : Placed g' :=
  hp.setEntry (b := collected now b) (hp.entries k b hb) hc.table hc.freeBlocks (by rw [hc.datastore])

theorem WriterEffect.placed {env : CommitEnv} (hw : WriterEffect cfg env g g') (hp : Placed g) :
    Placed g' := by
  cases hw with
  | idle _ same => rw [same]; exact hp
  | lost q _ _ table stores =>
    refine ⟨fun h b hb => ?_, ?_, ?_⟩
    · rw [stores.freeBlocks]
      rw [table] at hb
      exact hp.entries h b hb
    · rw [stores.freeBlocks, stores.chunks]
      exact hp.stores
    · rw [stores.freeBlocks]
      exact hp.nonempty
  | installed q b _ _ table _ _ _ _ chunk chunks freeBlocks =>
    have hchunk : (index? g.freeBlocks.length b.chunk).isSome := by
      rcases chunk with hc | ⟨j, hj⟩
      · -- the small blocks have the last list
        have hpos := hp.nonempty
        rw [hc]
        unfold index?
        rw [if_neg (by omega), if_pos (by omega)]
        rfl
      · exact hp.stores j _ hj
    exact hp.setEntry hchunk table (by rw [freeBlocks]) chunks

/-- **Every step keeps the entries placed**, and remembers. -/
theorem placed_preserved (cfg : Config) : Preserved (H := H) cfg fun g => Placed g ∧ Remembered g where
  caches hc hg := ⟨hg.1.of_caches hc, (remembered_preserved cfg).caches hc hg.2⟩
  refers hr hg := ⟨hr.placed hg.1, (remembered_preserved cfg).refers hr hg.2⟩
  dropped hb hd hg := ⟨hd.placed hb hg.1, (remembered_preserved cfg).dropped hb hd hg.2⟩
  writer env {g} hg :=
    ⟨(writeNewBlock_effect cfg env g).placed hg.1, (remembered_preserved cfg).writer env hg.2⟩
  collect clock {g} hg := by
    refine ⟨?_, (remembered_preserved cfg).collect clock hg.2⟩
    refine (garbageCollector_invariant cfg clock (I := fun g => Placed g ∧ Remembered g)
      (fun g hg h hh => (contains_iff_get? _ _).mp (hg.2.removeUses h hh))
      (fun g g' now h rest b hg hq hb hc => ⟨?_, hc.remembered hq hb hg.2⟩)
      (fun g hg => ⟨⟨hg.1.entries, hg.1.stores, hg.1.nonempty⟩,
        ⟨hg.2.removeUses, hg.2.reclaimed⟩⟩) hg).1
    have hp : Placed { g with removeUses := rest } :=
      ⟨hg.1.entries, hg.1.stores, hg.1.nonempty⟩
    exact hc.placed hb hp
  commit hg := ⟨⟨hg.1.entries, hg.1.stores, hg.1.nonempty⟩, ⟨hg.2.removeUses, hg.2.reclaimed⟩⟩

end VeratyFS
