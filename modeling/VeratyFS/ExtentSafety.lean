import VeratyFS.MmapBackend
import VeratyFS.Lib.Runs

/-!
# Extents that overlap

The mmap backend hands out extents of the chunk files, and takes them back at two places:
`update_index(add=False)` and the collector.

* `PartitionCall` — a chunk is deduplicated, the writer writes a block, a file gives up a block, the
  collector makes a round.
* `Partition.space` — what these do to the extents, as an allocator: `ExtentsApart.exec` shows that each
  call that `keepsApart` is a step of it.
* `extents_safe` — then every extent handed out lies in its chunk file, behind the header, and is
  disjoint from the extent of every block that a file refers to.
* `ExtentsApart.fits_of_margin` — blocks of at most 1 MiB always fit.
* `shared_extent_reused` — the drop of a shared block frees its extent.
-/

set_option autoImplicit false

namespace VeratyFS

open Pylib
open scoped List

variable {H : Type}

/-! ## Extents of a partition -/

/-- The extent of a block in the chunk files.  A block in the small-block database has none, nor has
one that waits in the queue, with the offset 0. -/
def Block.extent? (cfg : Config) (b : Block H) : Option Extent :=
  if cfg.smallBlockLimit < b.size ∧ b.offset ≠ 0 then some ⟨b.chunk, b.offset, b.size⟩ else none

/-- Where the free part of a chunk file begins. -/
def filesTop (datastore : List ChunkFile) (c : Int) : Option Int :=
  if 0 ≤ c then
    (datastore[c.toNat]?).map fun ds => ((min ds.nextWritePosition ds.size : Nat) : Int)
  else none

namespace Partition

variable [DecidableEq H]

/-- The extent of a block that a file refers to. -/
def used (cfg : Config) (p : Partition H) (h : H) : Option Extent :=
  if 0 < p.references h then (p.globals.hashTable.d.get? h).bind (Block.extent? cfg) else none

def space (cfg : Config) (p : Partition H) : Space H where
  top := filesTop p.datastore
  free := freeExtents cfg.smallBlockLimit 0 p.globals.freeBlocks
  used := p.used cfg

/-- Another file refers to the hash. -/
def refers (p : Partition H) (h : H) : Partition H :=
  { p with references := fun k => if k = h then p.references k + 1 else p.references k }

/-- A file refers to the hash no more. -/
def forgets (p : Partition H) (h : H) : Partition H :=
  { p with references := fun k => if k = h then p.references k - 1 else p.references k }

end Partition

/-! ## Calls -/

inductive PartitionCall (H : Type) where
  | dedup (raw : Bool) (c : Bytes)
  | writeNewBlock
  | updateIndex (h : H) (now : Time)
  | collect (now : Time)

/-- How `dedup` compresses: small data stays as it is. -/
def compressor (P : Packages H) (raw : Bool) : Bytes → Bool × Bytes :=
  if raw then fun c => (false, c) else compressData P

variable [DecidableEq H]

namespace PartitionCall

def exec (cfg : Config) (P : Packages H) : PartitionCall H → Partition H → Partition H
  | .dedup raw c, p => { p.refers (P.xxh3_64 c) with
      globals := (dedupChunk P (compressor P raw) c p.globals).2 }
  | .writeNewBlock, p => (writeExtent cfg p).2
  | .updateIndex h now, p => { p.forgets h with globals := (updateIndexRemove cfg now h p.globals).2 }
  | .collect now, p =>
    match p.globals.removeUses with
    | [] => p
    | h :: rest =>
      { p with globals := (collectHash cfg now h { p.globals with removeUses := rest }).2 }

/-- The extent of a hash that `update_index(add=False)` puts into a free list: an `insert` under a
size that is there changes nothing. -/
def inserts (cfg : Config) (g : Globals H) (h : H) : Option Extent :=
  (g.hashTable.d.get? h).bind fun b => (getAt? g.freeBlocks b.chunk).bind fun tree =>
    if cfg.smallBlockLimit < b.size ∧ tree.contains b.size = false then
      some ⟨b.chunk, b.offset, b.size⟩ else none

/-- The extent that a round of the collector puts into a free list. -/
def appends (cfg : Config) (now : Time) (g : Globals H) : Option Extent :=
  match g.removeUses with
  | [] => none
  | h :: _ => (g.hashTable.d.get? h).bind fun b => (getAt? g.freeBlocks b.chunk).bind fun _ =>
    if due now b ∧ cfg.smallBlockLimit < b.size then some ⟨b.chunk, b.offset, b.size⟩ else none

/-- The next block of the queue fits into the chunk file that it is for. -/
def fits (cfg : Config) (p : Partition H) : Bool :=
  match p.globals.writeBuffer.popleft, openStore p.datastore with
  | some (q, _), some (ds, _) =>
    decide (isSmallBlock cfg q) || decide (ds.nextWritePosition + q.payload.length ≤ ds.size)
  | _, _ => true

end PartitionCall

namespace Partition

/-- The extent lies in its chunk file, behind the header, and meets no free extent and none in
use. -/
def clear (cfg : Config) (p : Partition H) (e : Extent) : Bool :=
  ((filesTop p.datastore e.file).any fun t => decide (64 ≤ e.start) && decide (e.stop ≤ t)) &&
    (freeExtents cfg.smallBlockLimit 0 p.globals.freeBlocks).all (fun e' => decide (e.Disjoint e')) &&
    p.globals.hashTable.d.keys.all fun h => (p.used cfg h).all fun e' => decide (e.Disjoint e')

/-- A call puts nothing into a free list that is in use or free, lets a file refer to no block whose
extent is, and writes no block over the end of a chunk file. -/
def keepsApart (cfg : Config) (P : Packages H) (p : Partition H) : PartitionCall H → Bool
  | .dedup _ c =>
    decide (0 < p.references (P.xxh3_64 c)) ||
      ((p.globals.hashTable.d.get? (P.xxh3_64 c)).bind (Block.extent? cfg)).all (p.clear cfg)
  | .writeNewBlock => PartitionCall.fits cfg p
  | .updateIndex h _ => (PartitionCall.inserts cfg p.globals h).all ((p.forgets h).clear cfg)
  | .collect now => (PartitionCall.appends cfg now p.globals).all (p.clear cfg)

end Partition

def partitions (cfg : Config) (P : Packages H) : System (Partition H) (PartitionCall H) :=
  .ofFun (PartitionCall.exec cfg P)

/-! ## Runs -/

/-- A partition of some chunk files, before anything is written. -/
def Partition.fresh (cacheSize : Nat) (hpos : 0 < cacheSize) (chunkSize chunks trees : Nat) :
    Partition H where
  globals := { Globals.fresh cacheSize hpos [] [] with freeBlocks := .replicate trees Dict.empty }
  datastore := (List.range chunks).map fun i : Nat => ChunkFile.new i chunkSize 65
  references _ := 0

/-- The invariant of these runs. -/
structure ExtentsApart (cfg : Config) (p : Partition H) : Prop where
  sound : (p.space cfg).Sound 64
  numbered : ∀ (i : Nat) (ds : ChunkFile), p.datastore[i]? = some ds → ds.chunk = i
  behind : ∀ (i : Nat) (ds : ChunkFile), p.datastore[i]? = some ds → 64 ≤ ds.nextWritePosition
  margin : ∀ (i : Nat) (ds : ChunkFile), p.datastore[i]? = some ds → ds.IS_FULL = false →
    ds.nextWritePosition + 1024 * 1024 ≤ ds.size
  payloads : ∀ q ∈ p.globals.writeBuffer.d, q.payload = q.compressedData
  known : ∀ h ∈ p.globals.removeUses, ∃ b, p.globals.hashTable.d.get? h = some b

section

variable {cfg : Config} {P : Packages H} {p p' : Partition H} {h : H} {e : Extent}

theorem used_eq_some : p.used cfg h = some e ↔
    0 < p.references h ∧ ∃ b, p.globals.hashTable.d.get? h = some b ∧ b.extent? cfg = some e := by
  unfold Partition.used
  split
  · rename_i href
    rw [Option.bind_eq_some_iff]
    exact (and_iff_right href).symm
  · rename_i href
    exact ⟨fun h => (by cases h), fun h => absurd h.1 href⟩

theorem clear_spec (hclear : p.clear cfg e = true) : (p.space cfg).Clear 64 e := by
  unfold Partition.clear at hclear
  rw [Bool.and_eq_true, Bool.and_eq_true] at hclear
  obtain ⟨⟨hwithin, hfree⟩, hused⟩ := hclear
  refine ⟨?_, fun e' he' => ?_, fun k e' hk => ?_⟩
  · obtain ⟨t, ht, hle⟩ := (Option.any_eq_true _ _).mp hwithin
    rw [Bool.and_eq_true] at hle
    exact ⟨t, ht, of_decide_eq_true hle.1, of_decide_eq_true hle.2⟩
  · exact of_decide_eq_true (List.all_eq_true.mp hfree e' he')
  · obtain ⟨_, b, hb, _⟩ := used_eq_some.mp hk
    have hall := List.all_eq_true.mp hused k ((Dict.mem_keys_iff _).mpr ⟨b, hb⟩)
    have hk' : p.used cfg k = some e' := hk
    rw [hk'] at hall
    exact of_decide_eq_true hall

/-- A call changes the extent of one hash. -/
theorem ExtentsApart.of_step (hp : ExtentsApart cfg p) (hstep : Space.Step 64 (p.space cfg) (p'.space cfg))
    (hdatastore : p'.datastore = p.datastore)
    (hqueue : ∀ q ∈ p'.globals.writeBuffer.d, q.payload = q.compressedData)
    (hknown : ∀ h ∈ p'.globals.removeUses, ∃ b, p'.globals.hashTable.d.get? h = some b) :
    ExtentsApart cfg p' :=
  ⟨hp.sound.step hstep, hdatastore ▸ hp.numbered, hdatastore ▸ hp.behind, hdatastore ▸ hp.margin, hqueue,
    hknown⟩

/-- The queued removals stay known when one entry is set. -/
theorem ExtentsApart.known_set (hp : ExtentsApart cfg p) {b : Block H} {t : HashTable H} {l : List H}
    (ht : ∀ k, t.d.get? k = if h = k then some b else p.globals.hashTable.d.get? k)
    (hl : ∀ k ∈ l, k = h ∨ k ∈ p.globals.removeUses) : ∀ k ∈ l, ∃ b, t.d.get? k = some b := by
  intro k hk
  rw [ht]
  split
  · exact ⟨b, rfl⟩
  · rename_i hne
    exact hp.known k ((hl k hk).resolve_left (Ne.symm hne))

/-- One entry of the table is set. -/
theorem used_cases {b : Block H} {k : H} (hk : p'.used cfg k = some e)
    (href : ∀ k, k ≠ h → p'.references k = p.references k)
    (ht : ∀ k, p'.globals.hashTable.d.get? k = if h = k then some b else p.globals.hashTable.d.get? k) :
    k = h ∧ b.extent? cfg = some e ∧ 0 < p'.references h ∨ k ≠ h ∧ p.used cfg k = some e := by
  obtain ⟨hpos, b', hb', he⟩ := used_eq_some.mp hk
  rw [ht] at hb'
  split at hb'
  · rename_i hkey
    cases hb'
    exact .inl ⟨hkey.symm, he, hkey ▸ hpos⟩
  · rename_i hkey
    have hne : k ≠ h := Ne.symm hkey
    rw [href k hne] at hpos
    exact .inr ⟨hne, used_eq_some.mpr ⟨hpos, b', hb', he⟩⟩

/-! ### Deduplication -/

omit [DecidableEq H] in
theorem queueItem_payload (P : Packages H) (raw : Bool) (c : Bytes) :
    (queueItem P (compressor P raw) c).payload = (queueItem P (compressor P raw) c).compressedData := by
  unfold QueuedWrite.payload queueItem compressor compressData
  cases raw with
  | true => rfl
  | false =>
    dsimp only
    rw [if_neg Bool.false_ne_true]
    split <;> rfl

omit [DecidableEq H] in
/-- A block that waits in the queue has no extent. -/
theorem placeholder_extent (cfg : Config) (q : QueuedWrite H) : (placeholder q).extent? cfg = none :=
  if_neg fun h => h.2 rfl

theorem ExtentsApart.dedup (hp : ExtentsApart cfg p) {raw : Bool} {c : Bytes}
    (happart : p.keepsApart cfg P (.dedup raw c) = true) :
    ExtentsApart cfg { p.refers (P.xxh3_64 c) with
      globals := (dedupChunk P (compressor P raw) c p.globals).2 } := by
  have href : ∀ k, k ≠ P.xxh3_64 c → (p.refers (P.xxh3_64 c)).references k = p.references k :=
    fun k hk => if_neg hk
  cases hb : p.globals.hashTable.d.get? (P.xxh3_64 c) with
  | none =>
    rw [dedupChunk_new hb]
    refine hp.of_step (.forget rfl (.refl _) fun k e hk => ?_) rfl (fun q hq => ?_)
      (hp.known_set (fun k => HashTable.setItem_d_get? _ _ _ _) fun k hk => .inr hk)
    · rcases used_cases hk href fun k => HashTable.setItem_d_get? _ _ _ _ with ⟨_, he, _⟩ | ⟨_, hold⟩
      · rw [placeholder_extent] at he
        cases he
      · exact hold
    · rcases List.mem_append.mp hq with hold | hnew
      · exact hp.payloads q hold
      · rw [List.mem_singleton.mp hnew]
        exact queueItem_payload P raw c
  | some b =>
    rw [dedupChunk_known hb]
    have hgives : ∀ k e, Partition.used cfg { p.refers (P.xxh3_64 c) with
        globals := { p.globals with
          readCache := p.globals.readCache.set (P.xxh3_64 c) c
          hashTable := p.globals.hashTable.setItem (P.xxh3_64 c) { b with uses := b.uses + 1 } } } k = some e →
        k = P.xxh3_64 c ∧ b.extent? cfg = some e ∨ p.used cfg k = some e := by
      intro k e hk
      rcases used_cases hk href fun k => HashTable.setItem_d_get? _ _ _ _ with ⟨hkey, he, _⟩ | ⟨_, hold⟩
      · exact .inl ⟨hkey, he⟩
      · exact .inr hold
    refine hp.of_step ?_ rfl hp.payloads
      (hp.known_set (fun k => HashTable.setItem_d_get? _ _ _ _) fun k hk => .inr hk)
    unfold Partition.keepsApart at happart
    dsimp only at happart
    rw [hb] at happart
    by_cases hreferred : 0 < p.references (P.xxh3_64 c)
    · refine .forget rfl (.refl _) fun k e hk => ?_
      rcases hgives k e hk with ⟨rfl, he⟩ | hold
      · exact used_eq_some.mpr ⟨hreferred, b, hb, he⟩
      · exact hold
    · rw [decide_eq_false hreferred, Bool.false_or, Option.bind_some] at happart
      cases hextent : b.extent? cfg with
      | none =>
        refine .forget rfl (.refl _) fun k e hk => ?_
        rcases hgives k e hk with ⟨_, he⟩ | hold
        · rw [hextent] at he
          cases he
        · exact hold
      | some e =>
        rw [hextent] at happart
        refine .hold (P.xxh3_64 c) e (clear_spec happart) rfl rfl fun k e' hk => ?_
        rcases hgives k e' hk with ⟨hkey, he⟩ | hold
        · rw [hextent] at he
          exact .inl ⟨hkey, (Option.some.inj he).symm⟩
        · exact .inr hold

/-! ### Blocks that are given back -/

omit [DecidableEq H] in
theorem getAt?_index {α : Type} {l : List α} {i : Int} {x : α} (hx : getAt? l i = some x) :
    ∃ j : Nat, (0 ≤ i → (j : Int) = i) ∧ l[j]? = some x ∧ ∀ y, setAt l i y = l.set j y := by
  unfold getAt? at hx
  obtain ⟨j, hj, hx⟩ := Option.bind_eq_some_iff.mp hx
  refine ⟨j, fun hi => ?_, hx, fun y => ?_⟩
  · unfold index? at hj
    split at hj
    · cases hj
      exact Int.toNat_of_nonneg hi
    · rw [if_neg fun h => by omega] at hj
      cases hj
  · unfold setAt
    rw [hj]

/-- The free lists with other offsets for the size of a block. -/
theorem ExtentsApart.put (hp : ExtentsApart cfg p) (t' : IOBTree) {b : Block H} {tree : IOBTree}
    {l : List Int}
    (ht : getAt? p.globals.freeBlocks b.chunk = some tree)
    (hother : ∀ x, x ≠ b.size → t'.get? x = tree.get? x)
    (hoffsets : (t'.offsets b.size).Perm (l ++ tree.offsets b.size))
    (hl : cfg.smallBlockLimit < b.size → l = [] ∨
      l = [b.offset] ∧ p.clear cfg ⟨b.chunk, b.offset, b.size⟩ = true)
    (hfree : p'.globals.freeBlocks = setAt p.globals.freeBlocks b.chunk t')
    (hused : ∀ k e, p'.used cfg k = some e → p.used cfg k = some e)
    (hdatastore : p'.datastore = p.datastore)
    (hqueue : p'.globals.writeBuffer = p.globals.writeBuffer)
    (hknown : ∀ h ∈ p'.globals.removeUses, ∃ b, p'.globals.hashTable.d.get? h = some b) :
    ExtentsApart cfg p' := by
  obtain ⟨j, hj, htree, hset⟩ := getAt?_index ht
  have hperm : (freeExtents cfg.smallBlockLimit 0 p'.globals.freeBlocks) ~
      sizeExtents cfg.smallBlockLimit j b.size l ++
        freeExtents cfg.smallBlockLimit 0 p.globals.freeBlocks := by
    rw [hfree, hset]
    refine freeExtents_set t' htree ?_
    rw [Nat.zero_add]
    exact treeExtents_change _ hother hoffsets j
  have htop : (p'.space cfg).top = (p.space cfg).top := congrArg filesTop hdatastore
  refine hp.of_step ?_ hdatastore (hqueue ▸ hp.payloads) hknown
  unfold sizeExtents at hperm
  by_cases hlarge : cfg.smallBlockLimit < b.size
  · rw [if_pos hlarge] at hperm
    rcases hl hlarge with rfl | ⟨rfl, hclear⟩
    · exact .forget htop hperm hused
    · have hspec := clear_spec hclear
      have hchunk : 0 ≤ b.chunk := by
        obtain ⟨t, htop, _⟩ := hspec.within
        have hfile : filesTop p.datastore b.chunk = some t := htop
        unfold filesTop at hfile
        split at hfile
        · assumption
        · cases hfile
      rw [hj hchunk] at hperm
      exact .takeBack _ hspec htop hperm hused
  · rw [if_neg hlarge] at hperm
    exact .forget htop hperm hused

theorem ExtentsApart.forgets (hp : ExtentsApart cfg p) (h : H) : ExtentsApart cfg (p.forgets h) := by
  refine hp.of_step (.forget rfl (.refl _) fun k e hk => ?_) rfl hp.payloads hp.known
  obtain ⟨hpos, b, hb, he⟩ := used_eq_some.mp hk
  refine used_eq_some.mpr ⟨?_, b, hb, he⟩
  unfold Partition.forgets at hpos
  dsimp only at hpos
  split at hpos <;> omega

/-- An entry is set again, with its extent. -/
theorem used_same (b' : Block H) {b : Block H} (hb : p.globals.hashTable.d.get? h = some b)
    (href : p'.references = p.references) (hextent : b'.extent? cfg = b.extent? cfg)
    (ht : ∀ k, p'.globals.hashTable.d.get? k = if h = k then some b' else p.globals.hashTable.d.get? k)
    (k : H) (e : Extent) (hk : p'.used cfg k = some e) : p.used cfg k = some e := by
  rcases used_cases hk (fun k _ => congrFun href k) ht with ⟨rfl, he, hpos⟩ | ⟨_, hold⟩
  · exact used_eq_some.mpr ⟨href ▸ hpos, b, hb, hextent ▸ he⟩
  · exact hold

/-- **`update_index(add=False)`**. -/
theorem ExtentsApart.updateIndex (hp : ExtentsApart cfg p) {now : Time}
    (happart : p.keepsApart cfg P (.updateIndex h now) = true) :
    ExtentsApart cfg { p.forgets h with globals := (updateIndexRemove cfg now h p.globals).2 } := by
  have hforgets := hp.forgets h
  unfold Partition.keepsApart PartitionCall.inserts at happart
  dsimp only at happart
  rcases updateIndexRemove_state cfg now h p.globals with hsame | ⟨b, tree, hb, ht, hstate⟩
  · rw [hsame]
    exact hforgets
  · rw [hstate]
    have hkeep := uncache_keeps cfg h b (flagDeleted now h b { p.globals with
      freeBlocks := setAt p.globals.freeBlocks b.chunk (tree.insert b.size [b.offset]) })
    rw [hb, Option.bind_some, ht, Option.bind_some] at happart
    have hused : ∀ k e, Partition.used cfg { p.forgets h with
        globals := uncache cfg h b (flagDeleted now h b { p.globals with
          freeBlocks := setAt p.globals.freeBlocks b.chunk (tree.insert b.size [b.offset]) }) } k = some e →
        (p.forgets h).used cfg k = some e :=
      used_same { b with DELETED := true, DELETION_TIME := some now } (p := p.forgets h) hb rfl rfl
        fun k => by
          dsimp only
          rw [hkeep.hashTable]
          exact HashTable.setItem_d_get? _ _ _ _
    have hknown : ∀ k ∈ (uncache cfg h b (flagDeleted now h b { p.globals with
          freeBlocks := setAt p.globals.freeBlocks b.chunk (tree.insert b.size [b.offset]) })).removeUses,
        ∃ b', (uncache cfg h b (flagDeleted now h b { p.globals with
          freeBlocks := setAt p.globals.freeBlocks b.chunk
            (tree.insert b.size [b.offset]) })).hashTable.d.get? k = some b' := by
      rw [hkeep.removeUses, hkeep.hashTable]
      refine hp.known_set (fun k => HashTable.setItem_d_get? _ _ _ _) fun k hk => ?_
      exact (List.mem_append.mp hk).symm.imp List.mem_singleton.mp id
    by_cases hcontains : tree.contains b.size = true
    · have hinsert : tree.insert b.size [b.offset] = tree := if_pos hcontains
      refine hforgets.put tree (l := []) ht (fun _ _ => rfl) (.refl _) (fun _ => .inl rfl) ?_ hused rfl
        hkeep.writeBuffer hknown
      exact hkeep.freeBlocks.trans (congrArg (setAt p.globals.freeBlocks b.chunk) hinsert)
    · have hinsert : tree.insert b.size [b.offset] = tree.set b.size [b.offset] := if_neg hcontains
      have hnone := (Dict.contains_eq_false _).mp (Bool.eq_false_iff.mpr hcontains)
      refine hforgets.put (tree.set b.size [b.offset]) (l := [b.offset]) ht (fun x hx => ?_) ?_
        (fun hlarge => .inr ⟨rfl, ?_⟩) ?_ hused rfl hkeep.writeBuffer hknown
      · exact tree.get?_set_ne _ (Ne.symm hx)
      · unfold IOBTree.offsets
        rw [tree.get?_set_self, hnone]
        exact .refl _
      · rw [if_pos ⟨hlarge, Bool.eq_false_iff.mpr hcontains⟩] at happart
        exact happart
      · exact hkeep.freeBlocks.trans (congrArg (setAt p.globals.freeBlocks b.chunk) hinsert)

/-- **One round of the collector**. -/
theorem ExtentsApart.collect (hp : ExtentsApart cfg p) (hbackend : cfg.backend ≠ .rocksdb) {now : Time}
    {rest : List H} (hqueue : p.globals.removeUses = h :: rest)
    (happart : p.keepsApart cfg P (.collect now) = true) :
    ExtentsApart cfg { p with
      globals := (collectHash cfg now h { p.globals with removeUses := rest }).2 } := by
  unfold Partition.keepsApart PartitionCall.appends at happart
  dsimp only at happart
  rw [hqueue] at happart
  dsimp only at happart
  obtain ⟨b, hb⟩ := hp.known h (hqueue ▸ List.mem_cons_self)
  have heffect := collectHash_effect cfg now (g := { p.globals with removeUses := rest }) hb
  have hfree := collectHash_freeBlocks (g := { p.globals with removeUses := rest }) hbackend now hb
  have hused : ∀ k e, Partition.used cfg { p with
      globals := (collectHash cfg now h { p.globals with removeUses := rest }).2 } k = some e →
      p.used cfg k = some e :=
    used_same (collected now b) hb rfl rfl heffect.table
  have hknown : ∀ k ∈ (collectHash cfg now h { p.globals with removeUses := rest }).2.removeUses,
      ∃ b, (collectHash cfg now h { p.globals with removeUses := rest }).2.hashTable.d.get? k = some b := by
    refine hp.known_set heffect.table fun k hk => .inr ?_
    rw [heffect.removeUses] at hk
    rw [hqueue]
    exact List.mem_cons_of_mem h hk
  rw [hb, Option.bind_some] at happart
  rw [freeExtent_freeBlocks] at hfree
  dsimp only at hfree
  have hsame : (collectHash cfg now h { p.globals with removeUses := rest }).2.freeBlocks =
      p.globals.freeBlocks → ExtentsApart cfg { p with
        globals := (collectHash cfg now h { p.globals with removeUses := rest }).2 } := by
    intro hsame
    refine hp.of_step (.forget rfl ?_ hused) rfl ?_ hknown
    · exact .of_eq (congrArg (freeExtents cfg.smallBlockLimit 0) hsame)
    · exact heffect.writeBuffer ▸ hp.payloads
  by_cases hdue : due now b ∧ cfg.smallBlockLimit < b.size
  · rw [if_pos hdue] at hfree
    cases ht : getAt? p.globals.freeBlocks b.chunk with
    | none =>
      rw [ht] at hfree
      exact hsame hfree
    | some tree =>
      rw [ht] at hfree happart
      rw [Option.bind_some, if_pos hdue] at happart
      refine hp.put _ (l := [b.offset]) ht (fun x hx => tree.get?_set_ne _ (Ne.symm hx)) ?_
        (fun _ => .inr ⟨rfl, happart⟩) hfree hused rfl heffect.writeBuffer hknown
      unfold IOBTree.offsets
      rw [tree.get?_set_self, Option.getD_some]
      exact List.perm_append_comm
  · rw [if_neg hdue] at hfree
    exact hsame hfree

/-! ### Blocks that are written -/

/-- The position of one chunk file moves on. -/
theorem filesTop_advance {datastore : List ChunkFile} {i n : Nat} {ds : ChunkFile}
    (hds : datastore[i]? = some ds) (hfit : ds.nextWritePosition + n ≤ ds.size) (c : Int) :
    filesTop (datastore.set i (ds.advance n)) c =
      if (i : Int) = c then some ((ds.nextWritePosition : Int) + n) else filesTop datastore c := by
  have hlen := (List.getElem?_eq_some_iff.mp hds).1
  unfold filesTop
  by_cases hc : (i : Int) = c
  · subst hc
    rw [if_pos rfl, if_pos (Int.natCast_nonneg i), Int.toNat_natCast, List.getElem?_set_self hlen]
    unfold ChunkFile.advance
    rw [Option.map_some]
    dsimp only
    rw [Nat.min_eq_left hfit]
    rfl
  · rw [if_neg hc]
    split
    · rename_i hpos
      rw [List.getElem?_set_ne fun e => hc (by omega)]
    · rfl

theorem filesTop_position {datastore : List ChunkFile} {i n : Nat} {ds : ChunkFile}
    (hds : datastore[i]? = some ds) (hfit : ds.nextWritePosition + n ≤ ds.size) :
    filesTop datastore i = some (ds.nextWritePosition : Int) := by
  unfold filesTop
  rw [if_pos (Int.natCast_nonneg i), Int.toNat_natCast, hds, Option.map_some,
    Nat.min_eq_left (by omega)]

/-- The extent that a run of `find_location` hands out. -/
def BlockAddress.extent (loc : BlockAddress) (q : QueuedWrite H) : Extent :=
  ⟨loc.chunk, loc.block, q.payload.length⟩

/-- **`find_location`** is a step of the allocator, whether or not the block gets there. -/
theorem ExtentsApart.located (hp : ExtentsApart cfg p) {q : QueuedWrite H}
    {r : Except PyError (Option BlockAddress)} {v : Volume} (hrun : LocationRun q p.volume r v)
    (hlimit : cfg.smallBlockLimit < q.compressedData.length) (hpayload : q.payload = q.compressedData)
    (hfits : ∀ ds i, openStore p.datastore = some (ds, i) →
      ds.nextWritePosition + q.payload.length ≤ ds.size)
    (hdatastore : p'.datastore = v.datastore) (hfree : p'.globals.freeBlocks = v.freeBlocks)
    (hused : ∀ k e, p'.used cfg k = some e →
      k = q.hash ∧ (∃ loc, r = .ok (some loc) ∧ e = loc.extent q) ∨ p.used cfg k = some e)
    (hqueue : ∀ q ∈ p'.globals.writeBuffer.d, q.payload = q.compressedData)
    (hknown : ∀ h ∈ p'.globals.removeUses, ∃ b, p'.globals.hashTable.d.get? h = some b) :
    ExtentsApart cfg p' := by
  cases hrun with
  | failed e =>
    refine hp.of_step (.forget (congrArg filesTop hdatastore) (.of_eq ?_) fun k e hk => ?_) hdatastore
      hqueue hknown
    · exact congrArg (freeExtents cfg.smallBlockLimit 0) hfree
    · rcases hused k e hk with ⟨_, _, h, _⟩ | hold
      · cases h
      · exact hold
  | nowhere =>
    refine hp.of_step (.forget (congrArg filesTop hdatastore) (.of_eq ?_) fun k e hk => ?_) hdatastore
      hqueue hknown
    · exact congrArg (freeExtents cfg.smallBlockLimit 0) hfree
    · rcases hused k e hk with ⟨_, _, h, _⟩ | hold
      · cases h
      · exact hold
  | @ahead ds i first =>
    have hds : p.datastore[i]? = some ds := (openStore_spec first).1
    have hfit := hfits ds i first
    have hchunk := hp.numbered i ds hds
    have hlen := (List.getElem?_eq_some_iff.mp hds).1
    have hset : ∀ (j : Nat) (ds' : ChunkFile), p'.datastore[j]? = some ds' →
        i = j ∧ ds' = ds.advance q.payload.length ∨ p.datastore[j]? = some ds' := by
      intro j ds' hj
      rw [hdatastore] at hj
      change (p.datastore.set i (ds.advance q.payload.length))[j]? = some ds' at hj
      by_cases hij : i = j
      · subst hij
        rw [List.getElem?_set_self hlen] at hj
        exact .inl ⟨rfl, (Option.some.inj hj).symm⟩
      · exact .inr ((List.getElem?_set_ne hij).symm.trans hj)
    refine ⟨hp.sound.step (.advance q.hash i ds.nextWritePosition q.payload.length
      (filesTop_position hds hfit) ?_ (fun c => ?_) ?_ fun k e hk => ?_), fun j ds' hj => ?_,
      fun j ds' hj => ?_, fun j ds' hj hopen => ?_, hqueue, hknown⟩
    · have hbehind := hp.behind i ds hds
      omega
    · exact (congrArg (filesTop · c) hdatastore).trans (filesTop_advance hds hfit c)
    · exact congrArg (freeExtents cfg.smallBlockLimit 0) hfree
    · rcases hused k e hk with ⟨hkey, loc, hloc, he⟩ | hold
      · cases hloc
        refine .inl ⟨hkey, he.trans ?_⟩
        unfold BlockAddress.extent
        rw [hchunk]
      · exact .inr hold
    · rcases hset j ds' hj with ⟨rfl, rfl⟩ | hold
      · exact hchunk
      · exact hp.numbered j ds' hold
    · rcases hset j ds' hj with ⟨rfl, rfl⟩ | hold
      · have hbehind := hp.behind i ds hds
        show 64 ≤ ds.nextWritePosition + q.payload.length
        omega
      · exact hp.behind j ds' hold
    · rcases hset j ds' hj with ⟨rfl, rfl⟩ | hold
      · unfold ChunkFile.advance ChunkFile.pastMargin at hopen
        dsimp only at hopen
        split at hopen
        · cases hopen
        · rename_i hmargin
          exact Nat.le_of_not_lt (mt decide_eq_true hmargin)
      · exact hp.margin j ds' hold hopen
  | @reused ds s fb block rest fr full tree offsets large =>
    refine hp.of_step (.cut q.hash ⟨ds, block, s⟩ ⟨ds, block, q.payload.length⟩ ⟨rfl, Int.le_refl _, ?_⟩
      (congrArg filesTop hdatastore) ?_ fun k e hk => ?_) hdatastore hqueue hknown
    · unfold Extent.stop
      dsimp only
      rw [hpayload]
      omega
    · have hpop := freeExtents_pop tree offsets (Nat.lt_of_lt_of_le hlimit large)
      exact hpop.trans (.of_eq (congrArg (_ :: freeExtents cfg.smallBlockLimit 0 ·) hfree.symm))
    · rcases hused k e hk with ⟨hkey, loc, hloc, he⟩ | hold
      · cases hloc
        exact .inl ⟨hkey, he⟩
      · exact .inr hold

/-- The table once a block is installed. -/
theorem installed_table (cfg : Config) (q : QueuedWrite H) (g : Globals H) (k : H) :
    (installed cfg q g).hashTable.d.get? k =
      if q.hash = k then some { committedEntry q with uses := 1 } else g.hashTable.d.get? k := by
  unfold installed
  rw [HashTable.setItem_d_get?, HashTable.setItem_d_get?]
  split <;> rfl

theorem used_installs {q : QueuedWrite H} {k : H} (hk : (p.installs cfg q).used cfg k = some e) :
    k = q.hash ∧ ({ committedEntry q with uses := 1 } : Block H).extent? cfg = some e ∨
      p.used cfg k = some e := by
  rcases used_cases (p := p) hk (fun _ _ => rfl) (installed_table cfg q p.globals) with ⟨hkey, he, _⟩ | ⟨_, hold⟩
  · exact .inl ⟨hkey, he⟩
  · exact .inr hold

theorem known_installs {q : QueuedWrite H}
    (hknown : ∀ h ∈ p.globals.removeUses, ∃ b, p.globals.hashTable.d.get? h = some b) :
    ∀ h ∈ (p.installs cfg q).globals.removeUses,
      ∃ b, (p.installs cfg q).globals.hashTable.d.get? h = some b := by
  intro k hk
  have htable := installed_table cfg q p.globals k
  split at htable
  · exact ⟨_, htable⟩
  · obtain ⟨b, hb⟩ := hknown k hk
    exact ⟨b, htable.trans hb⟩

omit [DecidableEq H] in
/-- A large block of the queue that fits. -/
theorem fits_spec {q : QueuedWrite H} {rest : WriteCache (QueuedWrite H)}
    (hq : p.globals.writeBuffer.popleft = some (q, rest)) (hlarge : ¬ isSmallBlock cfg q)
    (hfits : PartitionCall.fits cfg p = true) (ds : ChunkFile) (i : Nat)
    (hfirst : openStore p.datastore = some (ds, i)) :
    ds.nextWritePosition + q.payload.length ≤ ds.size := by
  unfold PartitionCall.fits at hfits
  rw [hq, hfirst] at hfits
  dsimp only at hfits
  rw [decide_eq_false hlarge, Bool.false_or] at hfits
  exact of_decide_eq_true hfits

/-- **One iteration of the writer**. -/
theorem ExtentsApart.write (hp : ExtentsApart cfg p) (hbackend : cfg.backend ≠ .rocksdb)
    (hfits : PartitionCall.fits cfg p = true) : ExtentsApart cfg (writeExtent cfg p).2 := by
  cases hq : p.globals.writeBuffer.popleft with
  | none =>
    rw [writeExtent_idle hq]
    exact hp
  | some e =>
    obtain ⟨q, rest⟩ := e
    obtain ⟨hd, _⟩ := WriteCache.popleft_eq_some hq
    have hpayload : q.payload = q.compressedData := hp.payloads q (hd ▸ List.mem_cons_self)
    have hrest : ∀ q ∈ rest.d, q.payload = q.compressedData :=
      fun q' hq' => hp.payloads q' (hd ▸ List.mem_cons_of_mem _ hq')
    have hpopped : ExtentsApart cfg (p.popped rest) :=
      ⟨hp.sound, hp.numbered, hp.behind, hp.margin, hrest, hp.known⟩
    rw [writeExtent_pop hq]
    by_cases hsmall : isSmallBlock cfg q
    · rcases commitExtent_small hsmall (p.popped rest) with ⟨smbs, hrun⟩ | ⟨e, smbs, hrun⟩
      · rw [hrun]
        dsimp only
        refine hpopped.of_step (.forget rfl (.refl _) fun k e hk => ?_) rfl hrest
          (known_installs (p := { p.popped rest with
            globals := { (p.popped rest).globals with smallBlocks := smbs } }) hpopped.known)
        rcases used_installs hk with ⟨_, he⟩ | hold
        · have hnone : ¬ cfg.smallBlockLimit < q.compressedData.length := Nat.not_lt_of_le hsmall.2
          unfold Block.extent? at he
          rw [if_neg fun h => hnone h.1] at he
          cases he
        · exact hold
      · rw [hrun]
        exact ⟨hpopped.sound, hpopped.numbered, hpopped.behind, hpopped.margin, hpopped.payloads,
          hpopped.known⟩
    · have hlimit : cfg.smallBlockLimit < q.compressedData.length :=
        Nat.lt_of_not_le fun hle => hsmall ⟨hbackend, hle⟩
      obtain ⟨hstate, hok⟩ := commitExtent_large hsmall (p.popped rest)
      have hlocated := findLocation_run q (p.popped rest).volume
      cases hrun : commitExtent cfg q (p.popped rest) with
      | mk r p' =>
        rw [hrun] at hstate hok
        dsimp only at hstate hok
        subst hstate
        have hfit := fits_spec hq hsmall hfits
        cases r with
        | error e =>
          exact hpopped.located hlocated hlimit hpayload hfit rfl rfl (fun k e hk => .inr hk) hrest
            hpopped.known
        | ok q' =>
          obtain ⟨loc, hloc, rfl⟩ := hok q' rfl
          refine hpopped.located hlocated hlimit hpayload hfit rfl rfl (fun k e hk => ?_) hrest
            (known_installs (p := (p.popped rest).withVolume (findLocation q (p.popped rest).volume).2)
              hpopped.known)
          rcases used_installs hk with ⟨hkey, he⟩ | hold
          · refine .inl ⟨hkey, loc, hloc, ?_⟩
            unfold Block.extent? at he
            split at he
            · unfold BlockAddress.extent
              rw [hpayload]
              exact (Option.some.inj he).symm
            · cases he
          · exact .inr hold

/-! ### Runs -/

/-- **One call** that puts nothing into a free list that is in use. -/
theorem ExtentsApart.exec (hp : ExtentsApart cfg p) (hbackend : cfg.backend ≠ .rocksdb)
    (c : PartitionCall H) (happart : p.keepsApart cfg P c = true) : ExtentsApart cfg (c.exec cfg P p) := by
  cases c with
  | dedup raw c => exact hp.dedup happart
  | writeNewBlock => exact hp.write hbackend happart
  | updateIndex h now => exact hp.updateIndex happart
  | collect now =>
    unfold PartitionCall.exec
    dsimp only
    cases hqueue : p.globals.removeUses with
    | nil => exact hp
    | cons h rest => exact hp.collect hbackend hqueue happart

theorem freeExtents_replicate (limit c n : Nat) :
    freeExtents limit c (.replicate n (Dict.empty : IOBTree)) = [] := by
  induction n generalizing c with
  | zero => rfl
  | succ n ih => exact ih (c + 1)

theorem ExtentsApart.fresh (cfg : Config) (cacheSize : Nat) (hpos : 0 < cacheSize)
    (chunkSize chunks trees : Nat) :
    ExtentsApart cfg (.fresh cacheSize hpos chunkSize chunks trees : Partition H) := by
  have hfree : ((.fresh cacheSize hpos chunkSize chunks trees : Partition H).space cfg).free = [] :=
    freeExtents_replicate _ _ _
  have hused : ∀ k e, ((.fresh cacheSize hpos chunkSize chunks trees : Partition H).space cfg).used k ≠
      some e := by
    intro k e hk
    have hnone : (.fresh cacheSize hpos chunkSize chunks trees : Partition H).used cfg k = none :=
      if_neg (Nat.lt_irrefl 0)
    cases hnone.symm.trans hk
  have hstore : ∀ (i : Nat) (ds : ChunkFile),
      (.fresh cacheSize hpos chunkSize chunks trees : Partition H).datastore[i]? = some ds →
        ds = ChunkFile.new i chunkSize 65 := by
    intro i ds hi
    unfold Partition.fresh at hi
    dsimp only at hi
    rw [List.getElem?_map] at hi
    obtain ⟨j, hj, rfl⟩ := Option.map_eq_some_iff.mp hi
    obtain ⟨_, rfl⟩ := List.getElem?_eq_some_iff.mp hj
    rw [List.getElem_range]
  refine ⟨⟨?_, fun k e hk => absurd hk (hused k e), ?_, fun k e hk => absurd hk (hused k e),
    fun k _ e _ _ hk => absurd hk (hused k e)⟩, fun i ds hi => ?_, fun i ds hi => ?_,
    fun i ds hi hopen => ?_, fun q hq => ?_, fun h hh => ?_⟩
  · rw [hfree]
    exact fun e he => absurd he List.not_mem_nil
  · rw [hfree]
    exact .nil
  · rw [hstore i ds hi]
    rfl
  · rw [hstore i ds hi]
    exact Nat.le_succ 64
  · rw [hstore i ds hi] at hopen ⊢
    exact Nat.le_of_not_lt (of_decide_eq_false hopen)
  · cases hq
  · cases hh

end

/-- The extent that the next iteration of the writer takes. -/
def Partition.handsOut (cfg : Config) (p : Partition H) : Option Extent :=
  match p.globals.writeBuffer.popleft with
  | none => none
  | some (q, _) =>
    if isSmallBlock cfg q then none
    else
      match (findLocation q p.volume).1 with
      | .ok (some loc) => some (loc.extent q)
      | _ => none

/-- The extent lies in its chunk file, behind the header, and no block that a file refers to has a
byte of it. -/
structure SafeExtent (cfg : Config) (p : Partition H) (e : Extent) : Prop where
  header : 64 ≤ e.start
  inside : ∃ ds ∈ p.datastore, ds.chunk = e.file ∧ e.stop ≤ ds.size
  disjoint : ∀ h e', p.used cfg h = some e' → e.Disjoint e'

section

variable {cfg : Config} {P : Packages H} {p : Partition H} {e : Extent}

/-- What `find_location` hands out is safe. -/
theorem ExtentsApart.located_safe (hp : ExtentsApart cfg p) {q : QueuedWrite H} {loc : BlockAddress}
    {v : Volume} (hrun : LocationRun q p.volume (.ok (some loc)) v)
    (hlimit : cfg.smallBlockLimit < q.compressedData.length) (hpayload : q.payload = q.compressedData)
    (hfits : ∀ ds i, openStore p.datastore = some (ds, i) →
      ds.nextWritePosition + q.payload.length ≤ ds.size) : SafeExtent cfg p (loc.extent q) := by
  cases hrun with
  | @ahead ds i first =>
    have hds : p.datastore[i]? = some ds := (openStore_spec first).1
    have hfit := hfits ds i first
    have hbehind := hp.behind i ds hds
    have hposition : (p.space cfg).top i = some (ds.nextWritePosition : Int) := filesTop_position hds hfit
    have hclear := hp.sound.clear_ahead (n := q.payload.length) hposition
    refine ⟨?_, ⟨ds, List.mem_of_getElem? hds, rfl, ?_⟩, fun h e' hk => ?_⟩
    · show (64 : Int) ≤ ds.nextWritePosition
      omega
    · show (ds.nextWritePosition : Int) + q.payload.length ≤ ds.size
      omega
    · unfold BlockAddress.extent
      rw [hp.numbered i ds hds]
      exact hclear.2 h e' hk
  | @reused i s fb block rest fr full tree offsets large =>
    have hpart : (⟨i, block, q.payload.length⟩ : Extent).Part ⟨i, block, s⟩ := by
      refine ⟨rfl, Int.le_refl _, ?_⟩
      unfold Extent.stop
      dsimp only
      rw [hpayload]
      omega
    have hfree : (⟨i, block, s⟩ : Extent) ∈ (p.space cfg).free :=
      (freeExtents_pop tree offsets (Nat.lt_of_lt_of_le hlimit large)).mem_iff.mpr List.mem_cons_self
    obtain ⟨t, htop, hstart, hstop⟩ := hpart.within (hp.sound.free_within _ hfree)
    have htop' : filesTop p.datastore i = some t := htop
    unfold filesTop at htop'
    rw [if_pos (Int.natCast_nonneg i), Int.toNat_natCast] at htop'
    obtain ⟨ds, hds, hmin⟩ := Option.map_eq_some_iff.mp htop'
    refine ⟨hstart, ⟨ds, List.mem_of_getElem? hds, hp.numbered i ds hds, ?_⟩, fun h e' hk => ?_⟩
    · have hle : ((min ds.nextWritePosition ds.size : Nat) : Int) ≤ ds.size :=
        Int.ofNat_le.mpr (Nat.min_le_right _ _)
      exact Int.le_trans (hmin ▸ hstop) hle
    · exact hp.sound.cut_disjoint hfree hpart hk

theorem ExtentsApart.safe (hp : ExtentsApart cfg p) (hbackend : cfg.backend ≠ .rocksdb)
    (hfits : PartitionCall.fits cfg p = true) (he : p.handsOut cfg = some e) : SafeExtent cfg p e := by
  unfold Partition.handsOut at he
  cases hq : p.globals.writeBuffer.popleft with
  | none =>
    rw [hq] at he
    cases he
  | some x =>
    obtain ⟨q, rest⟩ := x
    rw [hq] at he
    dsimp only at he
    split at he
    · cases he
    · rename_i hlarge
      have hlimit : cfg.smallBlockLimit < q.compressedData.length :=
        Nat.lt_of_not_le fun hle => hlarge ⟨hbackend, hle⟩
      have hpayload : q.payload = q.compressedData :=
        hp.payloads q ((WriteCache.popleft_eq_some hq).1 ▸ List.mem_cons_self)
      have hrun := findLocation_run q p.volume
      split at he
      · rename_i loc hloc
        rw [hloc] at hrun
        cases he
        exact hp.located_safe hrun hlimit hpayload (fits_spec hq hlarge hfits)
      · cases he

/-- **Every extent handed out is safe**: in a run whose calls put nothing into a free list that is in
use, or in use that is free, and write no block over the end of a chunk file. -/
theorem extents_safe (hbackend : cfg.backend ≠ .rocksdb) {cacheSize : Nat} {hpos : 0 < cacheSize}
    {chunkSize chunks trees : Nat} {cs : List (PartitionCall H)}
    (hrun : ((partitions cfg P).meeting fun p c => p.keepsApart cfg P c = true).Run
      (.fresh cacheSize hpos chunkSize chunks trees) cs p)
    (hfits : p.keepsApart cfg P .writeNewBlock = true) (he : p.handsOut cfg = some e) :
    SafeExtent cfg p e := by
  have hp : ExtentsApart cfg p := by
    refine hrun.invariant (I := ExtentsApart cfg) ?_ (.fresh cfg cacheSize hpos chunkSize chunks trees)
    rintro p c _ hp ⟨rfl, happart⟩
    exact hp.exec hbackend c happart
  exact hp.safe hbackend hfits he

/-- A block of at most 1 MiB fits, because a file with less space counts as full. -/
theorem ExtentsApart.fits_of_margin (hp : ExtentsApart cfg p) {q : QueuedWrite H}
    {rest : WriteCache (QueuedWrite H)} (hq : p.globals.writeBuffer.popleft = some (q, rest))
    (hle : q.payload.length ≤ 1024 * 1024) : PartitionCall.fits cfg p = true := by
  unfold PartitionCall.fits
  rw [hq]
  cases hfirst : openStore p.datastore with
  | none => rfl
  | some x =>
    obtain ⟨ds, i⟩ := x
    obtain ⟨hds, hopen⟩ := openStore_spec hfirst
    have hfull : ds.IS_FULL = false := by
      unfold ChunkFile.isOpen at hopen
      rw [Bool.and_eq_true, Bool.not_eq_true'] at hopen
      exact hopen.1
    have hmargin := hp.margin i ds hds hfull
    dsimp only
    rw [decide_eq_true (by omega : ds.nextWritePosition + q.payload.length ≤ ds.size), Bool.or_true]

end

/-! ## Sample runs -/

/-- All blocks are large, and a chunk file is full after the first one. -/
def mmapConfig : Config where
  backend := .mmap
  smallBlockLimit := 0
  minBlkSize := 16384
  writeSpread := true
  replicateData := true
  smallBlockDbPath := .list

def oneChunkFile : Partition Bytes := .fresh 8 (by decide) 1048641 1 2

/-- A file is written and removed, and another one takes its place. -/
def replacedBlock : List (PartitionCall Bytes) :=
  [.dedup true [1], .writeNewBlock, .updateIndex [1] 0, .dedup true [2]]

theorem extents_safe_sample :
    let p := System.after (PartitionCall.exec mmapConfig .plain) oneChunkFile replacedBlock
    SafeExtent mmapConfig p ⟨0, 65, 1⟩ :=
  extents_safe (P := .plain) (by decide)
    (System.run_meeting_after (PartitionCall.exec mmapConfig .plain)
      (fun p c => p.keepsApart mmapConfig .plain c) replacedBlock oneChunkFile (by decide))
    (by decide) (by decide)

/-- Two files share a block; one of them is removed, and the next block takes the extent of the
other. -/
theorem shared_extent_reused :
    ¬ ∀ (cs : List (PartitionCall Bytes)) (p : Partition Bytes) (e : Extent),
      (partitions mmapConfig .plain).Run oneChunkFile cs p → p.handsOut mmapConfig = some e →
        SafeExtent mmapConfig p e := by
  intro h
  have hrun := System.run_after (PartitionCall.exec mmapConfig .plain)
    [.dedup true [1], .writeNewBlock, .dedup true [1], .updateIndex [1] 0, .dedup true [2]] oneChunkFile
  have hsafe := h _ _ ⟨0, 65, 1⟩ hrun (by decide)
  exact absurd (hsafe.disjoint [1] ⟨0, 65, 1⟩ (by decide)) (by decide)

end VeratyFS
