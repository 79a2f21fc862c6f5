import VeratyFS.Backlog
import VeratyFS.SpaceReclaim

/-!
# Where the bytes are

Every chunk that `dedup` met is queued, or was written to the small-block database or to a
datastore.

* `holdings` — the chunks in the queue and in the stores, by hash.
* `Ledger` — no hash is held twice, and the table has the size of what is held; every step keeps it,
  also one whose commit fails, also half-way.
* `Complete` — every entry of the table is held; on rocksdb every step keeps it whose commit succeeds.
* `statfs`, `statfs_free` — the free space that the file system reports, and what is held.
-/

set_option autoImplicit false
set_option maxRecDepth 1024

namespace VeratyFS

open Pylib

variable {H : Type}

/-! ## Holdings -/

/-- The records of the datastores. -/
def records (ds : List (DataStore H)) : List (H × Bytes) := ds.flatMap fun d => d.db.entries

/-- The chunks of queue items. -/
def carried (qs : List (QueuedWrite H)) : List (H × Bytes) := qs.map fun q => (q.hash, q.payload)

/-- The chunks that wait in the queue, and those in the stores. -/
def holdings (g : Globals H) : List (H × Bytes) :=
  carried g.writeBuffer.d ++ (g.smallBlocks.entries ++ records g.datastore)

/-- The bytes that writers have in hand, and those of the holdings. -/
def heldBytes (hand : List (QueuedWrite H)) (g : Globals H) : Nat :=
  ((carried hand ++ holdings g).map fun p => p.2.length).sum

/-- The stored size of the entries that are flagged. -/
def flaggedBytes (g : Globals H) : Nat :=
  g.hashTable.d.total fun b => if b.DELETED then b.size else 0

variable [DecidableEq H] {cfg : Config} {P : Packages H} {g g' : Globals H}
variable {hand hand' : List (QueuedWrite H)}

section Records

variable {ds ds' : List (DataStore H)} {d d' : DataStore H}

theorem SameRecords.tail (h : SameRecords (d :: ds) (d' :: ds')) : SameRecords ds ds' :=
  ⟨(List.cons.inj h.chunks).2, fun j => h.stored (j + 1)⟩

theorem records_same : ∀ {ds ds' : List (DataStore H)}, SameRecords ds ds' →
    (records ds').Perm (records ds)
  | [], [], _ => .refl _
  | [], _ :: _, h => absurd h.length (Nat.succ_ne_zero _)
  | _ :: _, [], h => absurd h.length (Nat.succ_ne_zero _).symm
  | _ :: _, _ :: _, h => (Dict.entries_perm_of_get? fun k => h.stored 0 k).append (records_same h.tail)

/-- A record of a new hash joins the records. -/
theorem records_put {h : H} {data : Bytes} : ∀ {ds ds' : List (DataStore H)} {store : Nat},
    PutRecord ds ds' store h data → (∀ j, stored ds j h = none) →
      (records ds').Perm ((h, data) :: records ds)
  | [], ds', store, hput, _ => by
    -- no store, so nothing was put
    have hself := hput.stored store h
    rw [if_pos ⟨rfl, rfl⟩, List.eq_nil_of_length_eq_zero hput.length] at hself
    cases hself
  | _ :: _, [], _, hput, _ => absurd hput.length (Nat.succ_ne_zero _).symm
  | d :: ds, d' :: ds', 0, hput, hnew => by
    have hhead : d'.db.entries.Perm ((h, data) :: d.db.entries) :=
      Dict.entries_perm (hnew 0) fun x => by
        have hx := hput.stored 0 x
        simp only [true_and] at hx
        exact hx
    have htail : SameRecords ds ds' := ⟨(List.cons.inj hput.chunks).2, fun j k =>
      (hput.stored (j + 1) k).trans (if_neg fun hj => Nat.succ_ne_zero j hj.1)⟩
    exact hhead.append (records_same htail)
  | d :: ds, d' :: ds', store + 1, hput, hnew => by
    have hhead : d'.db.entries.Perm d.db.entries := Dict.entries_perm_of_get? fun k =>
      (hput.stored 0 k).trans (if_neg fun hj => Nat.succ_ne_zero store hj.1.symm)
    have htail : PutRecord ds ds' store h data := ⟨(List.cons.inj hput.chunks).2, fun j k => by
      have hj := hput.stored (j + 1) k
      simp only [Nat.add_right_cancel_iff] at hj
      exact hj⟩
    exact (hhead.append (records_put htail fun j => hnew (j + 1))).trans List.perm_middle

theorem mem_records {j : Nat} {h : H} {data : Bytes} (hj : stored ds j h = some data) :
    (h, data) ∈ records ds := by
  obtain ⟨d, hd, hget⟩ := Option.bind_eq_some_iff.mp hj
  exact List.mem_flatMap.mpr ⟨d, List.mem_of_getElem? hd, d.db.mem_entries_iff.mpr hget⟩

end Records

/-! ## The ledger -/

/-- The entries have the same sizes. -/
def SizesKept (g g' : Globals H) : Prop :=
  ∀ k, (g'.hashTable.d.get? k).map Block.size = (g.hashTable.d.get? k).map Block.size

/-- `hand` are the items that writers took off the queue and did not store yet. -/
structure Ledger (hand : List (QueuedWrite H)) (g : Globals H) : Prop where
  once : ((carried hand ++ holdings g).map Prod.fst).Nodup
  entered : ∀ p ∈ carried hand ++ holdings g,
    ∃ b, g.hashTable.d.get? p.1 = some b ∧ b.size = p.2.length
  measured : ∀ q ∈ g.writeBuffer.d, q.payload.length = q.compressedData.length

/-- Every entry of the table is held, and no small block was stored. -/
structure Complete (g : Globals H) : Prop where
  held : ∀ k b, g.hashTable.d.get? k = some b → k ∈ (holdings g).map Prod.fst
  noSmallBlocks : ∀ k, g.smallBlocks.get? k = none

theorem SizesKept.entry {k : H} {n : Nat} (hs : SizesKept g g')
    (hk : ∃ b, g.hashTable.d.get? k = some b ∧ b.size = n) :
    ∃ b, g'.hashTable.d.get? k = some b ∧ b.size = n := by
  obtain ⟨b, hb, hsize⟩ := hk
  have := hs k
  rw [hb] at this
  obtain ⟨b', hb', heq⟩ := Option.map_eq_some_iff.mp this
  exact ⟨b', hb', heq.trans hsize⟩

theorem SizesKept.known {k : H} {b' : Block H} (hs : SizesKept g g')
    (hk : g'.hashTable.d.get? k = some b') : ∃ b, g.hashTable.d.get? k = some b := by
  have := hs k
  rw [hk] at this
  obtain ⟨b, hb, _⟩ := Option.map_eq_some_iff.mp this.symm
  exact ⟨b, hb⟩

/-- One entry is set to another of its size. -/
theorem sizesKept_of_table {h : H} {b e : Block H} (hb : g.hashTable.d.get? h = some b)
    (hsize : e.size = b.size)
    (ht : ∀ k, g'.hashTable.d.get? k = if h = k then some e else g.hashTable.d.get? k) :
    SizesKept g g' := by
  intro k
  rw [ht]
  split
  · rename_i hk
    rw [← hk, hb]
    exact congrArg some hsize
  · rfl

omit [DecidableEq H] in
theorem holdings_blank (hqueue : g.writeBuffer.d = []) (hds : ∀ d ∈ g.datastore, d.db = Dict.empty)
    (hsmall : g.smallBlocks = Dict.empty) : holdings g = [] := by
  have hrecords : records g.datastore = [] := List.flatMap_eq_nil_iff.mpr fun d hd => by
    rw [hds d hd]
    rfl
  unfold holdings
  rw [hqueue, hsmall, hrecords]
  rfl

theorem Ledger.blank (hg : holdings g = []) (hqueue : g.writeBuffer.d = []) : Ledger [] g := by
  have hheld : carried [] ++ holdings g = [] := hg
  refine ⟨?_, ?_, fun q hq => ?_⟩
  · rw [hheld]
    exact List.nodup_nil
  · rw [hheld]
    exact fun p hp => by cases hp
  · rw [hqueue] at hq
    cases hq

/-- Nothing new is held, and the entries keep their sizes. -/
theorem Ledger.moves (hg : Ledger hand g) (hs : SizesKept g g')
    (hheld : (carried hand' ++ holdings g').Subperm (carried hand ++ holdings g))
    (hqueue : ∀ q ∈ g'.writeBuffer.d, q ∈ g.writeBuffer.d) : Ledger hand' g' := by
  refine ⟨?_, fun p hp => hs.entry (hg.entered p (hheld.subset hp)), fun q hq =>
    hg.measured q (hqueue q hq)⟩
  obtain ⟨l, hperm, hsub⟩ := hheld
  exact ((hperm.map Prod.fst).nodup_iff).mp (hg.once.sublist (hsub.map Prod.fst))

theorem Complete.moves (hg : Complete g) (hs : SizesKept g g')
    (hheld : (holdings g').Perm (holdings g)) (hsmall : ∀ k, g'.smallBlocks.get? k = none) :
    Complete g' := by
  refine ⟨fun k b hk => ?_, hsmall⟩
  obtain ⟨b', hb'⟩ := hs.known hk
  exact ((hheld.map Prod.fst).mem_iff).mpr (hg.held k b' hb')

/-! ## Calls -/

/-- What a call does: the chunks and the sizes stay, or a chunk of a new hash is queued. -/
inductive Restocked (g g' : Globals H) : Prop
  | same (sizes : SizesKept g g') (held : holdings g' = holdings g)
      (queue : g'.writeBuffer = g.writeBuffer) (smallBlocks : g'.smallBlocks = g.smallBlocks)
  | enters (q : QueuedWrite H) (unknown : g.hashTable.d.get? q.hash = none)
      (measured : q.payload.length = q.compressedData.length)
      (table : ∀ k, g'.hashTable.d.get? k =
        if q.hash = k then some (placeholder q) else g.hashTable.d.get? k)
      (queue : g'.writeBuffer.d = g.writeBuffer.d ++ [q])
      (smallBlocks : g'.smallBlocks = g.smallBlocks) (datastore : g'.datastore = g.datastore)

omit [DecidableEq H] in
theorem Restocked.held {q : QueuedWrite H} (hqueue : g'.writeBuffer.d = g.writeBuffer.d ++ [q])
    (hsmall : g'.smallBlocks = g.smallBlocks) (hds : g'.datastore = g.datastore) :
    (holdings g').Perm ((q.hash, q.payload) :: holdings g) := by
  unfold holdings carried
  rw [hqueue, hsmall, hds, List.map_append, List.append_assoc]
  exact List.perm_middle

theorem Ledger.restocked (hr : Restocked g g') (hg : Ledger hand g) : Ledger hand g' := by
  cases hr with
  | same sizes held queue _ =>
    exact hg.moves sizes (held ▸ .refl _) fun q hq => queue ▸ hq
  | enters q unknown measured table queue smallBlocks datastore =>
    have hheld : (carried hand ++ holdings g').Perm
        ((q.hash, q.payload) :: (carried hand ++ holdings g)) :=
      ((Restocked.held queue smallBlocks datastore).append_left _).trans List.perm_middle
    have hnew : q.hash ∉ (carried hand ++ holdings g).map Prod.fst := fun hmem => by
      obtain ⟨p, hp, hh⟩ := List.mem_map.mp hmem
      obtain ⟨b, hb, _⟩ := hg.entered p hp
      rw [hh, unknown] at hb
      cases hb
    refine ⟨((hheld.map Prod.fst).nodup_iff).mpr (List.nodup_cons.mpr ⟨hnew, hg.once⟩), fun p hp => ?_,
      fun x hx => ?_⟩
    · rcases List.mem_cons.mp (hheld.mem_iff.mp hp) with rfl | hold
      · exact ⟨_, (table _).trans (if_pos rfl), measured.symm⟩
      · obtain ⟨b, hb, hsize⟩ := hg.entered p hold
        refine ⟨b, (table _).trans ((if_neg fun hh => ?_).trans hb), hsize⟩
        exact hnew (List.mem_map.mpr ⟨p, hold, hh.symm⟩)
    · rw [queue] at hx
      rcases List.mem_append.mp hx with hx | hx
      · exact hg.measured x hx
      · rw [List.mem_singleton.mp hx]
        exact measured

theorem Complete.restocked (hr : Restocked g g') (hg : Complete g) : Complete g' := by
  cases hr with
  | same sizes held _ smallBlocks =>
    exact hg.moves sizes (held ▸ .refl _) (smallBlocks ▸ hg.noSmallBlocks)
  | enters q unknown measured table queue smallBlocks datastore =>
    have hheld := Restocked.held queue smallBlocks datastore
    refine ⟨fun k b hk => ((hheld.map Prod.fst).mem_iff).mpr ?_, smallBlocks ▸ hg.noSmallBlocks⟩
    rw [table] at hk
    split at hk
    · rename_i hh
      exact hh ▸ List.mem_cons_self
    · exact List.mem_cons_of_mem _ (hg.held k b hk)

omit [DecidableEq H] in
/-- The payload has the length that the placeholder records, whichever way the chunk is packed. -/
theorem dedupPieces_measured (cfg : Config) (P : Packages H) (data c : Bytes) :
    (queueItem P (dedupPieces cfg P data).2 c).payload.length =
      (queueItem P (dedupPieces cfg P data).2 c).compressedData.length := by
  unfold dedupPieces
  split
  · rfl
  · change (if (compressData P c).1 = true then (compressData P c).2 else c).length =
      (compressData P c).2.length
    unfold compressData
    dsimp only
    split <;> rfl

theorem dedupChunk_restocked {compress : Bytes → Bool × Bytes}
    (hmeasured : ∀ c, (queueItem P compress c).payload.length =
      (queueItem P compress c).compressedData.length) (c : Bytes) :
    Py.Keeps Restocked (dedupChunk P compress c) := by
  intro g
  cases hb : g.hashTable.d.get? (P.xxh3_64 c) with
  | some b =>
    rw [dedupChunk_known hb]
    exact .same (sizesKept_of_table hb (e := { b with uses := b.uses + 1 }) rfl fun k =>
      HashTable.setItem_d_get? _ _ _ _) rfl rfl rfl
  | none =>
    rw [dedupChunk_new hb]
    exact .enters (queueItem P compress c) hb (hmeasured c)
      (fun k => HashTable.setItem_d_get? _ _ _ _) rfl rfl rfl

theorem updateIndexRemove_restocked (cfg : Config) (now : Time) (h : H) (g : Globals H) :
    Restocked g (updateIndexRemove cfg now h g).2 := by
  rcases updateIndexRemove_cases cfg now h g with hsame | ⟨b, hb, hd⟩
  · rw [hsame]
    exact .same (fun _ => rfl) rfl rfl rfl
  · refine .same (sizesKept_of_table hb
      (e := { b with DELETED := true, DELETION_TIME := some now }) rfl hd.table) ?_ hd.writeBuffer
      hd.smallBlocks
    unfold holdings
    rw [hd.writeBuffer, hd.smallBlocks, hd.datastore]

/-- **Rule for calls**: an invariant that every restocking keeps. -/
theorem restocked_calls {I : Globals H → Prop} (hI : ∀ {g g'}, Restocked g g' → I g → I g') :
    CallsKeep cfg P I where
  caches hc hg := by
    refine hI (.same (fun k => by rw [hc.hashTable]) ?_ hc.writeBuffer hc.smallBlocks) hg
    unfold holdings
    rw [hc.writeBuffer, hc.smallBlocks, hc.datastore]
  dedup data g hg :=
    dedupChunks_keeps (R := Py.Stays I) (fun c g hg =>
      hI (dedupChunk_restocked (dedupPieces_measured cfg P data) c g) hg) _ g hg
  drop now h g hg := hI (updateIndexRemove_restocked cfg now h g) hg

/-! ## The writer -/

/-- A chunk that nothing holds has no record. -/
theorem unheld {h : H} (hnew : h ∉ (holdings g).map Prod.fst) :
    g.smallBlocks.get? h = none ∧ ∀ j, stored g.datastore j h = none := by
  have hno : ∀ d, (h, d) ∉ g.smallBlocks.entries ∧ (h, d) ∉ records g.datastore := fun d =>
    ⟨fun hm => hnew (List.mem_map.mpr
        ⟨(h, d), List.mem_append_right _ (List.mem_append_left _ hm), rfl⟩),
      fun hm => hnew (List.mem_map.mpr
        ⟨(h, d), List.mem_append_right _ (List.mem_append_right _ hm), rfl⟩)⟩
  refine ⟨Option.eq_none_iff_forall_ne_some.mpr fun d hd => ?_, fun j =>
    Option.eq_none_iff_forall_ne_some.mpr fun d hd => ?_⟩
  · exact (hno d).1 ((Dict.mem_entries_iff _).mpr hd)
  · exact (hno d).2 (mem_records hd)

/-- The stores have the block, or nothing was put. -/
structure MayTake (q : QueuedWrite H) (g g' : Globals H) : Prop where
  table : g'.hashTable = g.hashTable
  queue : g'.writeBuffer = g.writeBuffer
  held : (holdings g').Perm ((q.hash, q.payload) :: holdings g) ∨ (holdings g').Perm (holdings g)

theorem took_datastore {q : QueuedWrite H} {store : Nat}
    (hput : PutRecord g.datastore g'.datastore store q.hash q.payload)
    (hqueue : g'.writeBuffer = g.writeBuffer) (hsmall : g'.smallBlocks = g.smallBlocks)
    (hnew : q.hash ∉ (holdings g).map Prod.fst) :
    (holdings g').Perm ((q.hash, q.payload) :: holdings g) := by
  unfold holdings
  rw [hqueue, hsmall]
  exact ((records_put hput (unheld hnew).2).append_left _ |>.trans List.perm_middle).append_left _
    |>.trans List.perm_middle

theorem Committed.took {q q' : QueuedWrite H} (hc : Committed cfg q g q' g')
    (hqueue : g'.writeBuffer = g.writeBuffer) (hnew : q.hash ∉ (holdings g).map Prod.fst) :
    (holdings g').Perm ((q.hash, q.payload) :: holdings g) := by
  cases hc with
  | smallBlock _ _ state =>
    subst state
    have hput : (g.smallBlocks.set q.hash q.payload).entries.Perm
        ((q.hash, q.payload) :: g.smallBlocks.entries) :=
      Dict.entries_perm (unheld hnew).1 fun x => Dict.get?_set _ _ _ _
    exact (hput.append_right (records g.datastore)).append_left _ |>.trans List.perm_middle
  | datastore _ put _ smallBlocks => exact took_datastore put hqueue smallBlocks hnew

/-- The put of a small block. -/
theorem writeSmallBlock_held {q : QueuedWrite H} (hs : isSmallBlock cfg q)
    (hnew : q.hash ∉ (holdings g).map Prod.fst) :
    (Globals.onSmallBlocks (writeSmallBlock cfg q.hash q.payload)).wp (fun _ => MayTake q g) g := by
  unfold Globals.onSmallBlocks writeSmallBlock openSmallBlockDb
  cases hp : cfg.smallBlockDbPath with
  | list => exact ⟨rfl, rfl, .inr (.refl _)⟩
  | path => exact ⟨rfl, rfl, .inl ((Committed.smallBlock hs hp rfl).took rfl hnew)⟩

/-- The put in a primary store. -/
theorem writeData_held (writeSpread : Bool) (env : PickEnv) {q : QueuedWrite H}
    (hnew : q.hash ∉ (holdings g).map Prod.fst) :
    (Globals.onDatastore (writeData writeSpread env q q.payload false)).wp
      (fun r g' => MayTake q g g' ∧ ∀ q', r = .ok q' →
        ∃ chunk block, q' = { q with chunk := chunk, block := block }) g := by
  refine (Py.wp_zoom).mpr (Py.wp_mono
    (writeData_spec writeSpread env q q.payload false g.datastore) fun r ds hr => ?_)
  cases r with
  | error e =>
    have hsame : SameRecords g.datastore ds := hr
    exact ⟨⟨rfl, rfl, .inr (((records_same hsame).append_left _).append_left _)⟩,
      fun _ h => by cases h⟩
  | ok q₁ =>
    obtain ⟨store, chunk, block, hput, _, rfl⟩ := hr
    refine ⟨⟨rfl, rfl, .inl (took_datastore hput rfl rfl hnew)⟩, fun q' h => ?_⟩
    cases h
    exact ⟨chunk, block, rfl⟩

/-- **A commit**, whatever it raises: the replica may be refused after the block was put. -/
theorem commitBlock_held (cfg : Config) (env : CommitEnv) {q : QueuedWrite H}
    (hnew : q.hash ∉ (holdings g).map Prod.fst) :
    (commitBlock cfg env q).wp (fun _ => MayTake q g) g := by
  unfold commitBlock
  split
  · rename_i hs
    rw [Py.wp_bind]
    refine Py.wp_mono (writeSmallBlock_held hs hnew) fun r g' hr => ?_
    cases r with
    | error e => exact hr
    | ok n => exact hr
  · rw [Py.wp_attempt]
    unfold commitData
    cases cfg.backend with
    | rocksdb =>
      have hcommit : (rocksdbCommit cfg env q).wp (fun _ => MayTake q g) g := by
        unfold rocksdbCommit
        rw [Py.wp_bind]
        refine Py.wp_mono (writeData_held cfg.writeSpread env.primary hnew) fun r g' hr => ?_
        cases r with
        | error e => exact hr.1
        | ok q₁ =>
          rw [Py.post_ok]
          split
          · exact ⟨hr.1.table, hr.1.queue, hr.1.held⟩
          · exact hr.1
      refine Py.wp_mono hcommit fun r g' hr => ?_
      cases r with
      | error e => exact hr
      | ok q' => exact hr
    | mmap => exact ⟨rfl, rfl, .inr (.refl _)⟩
    | unset => exact ⟨rfl, rfl, .inr (.refl _)⟩

/-- The memory half keeps the sizes: the placeholder had the size of the block. -/
theorem installed_sizes (cfg : Config) {q : QueuedWrite H} {b : Block H}
    (hb : g.hashTable.d.get? q.hash = some b) (hsize : b.size = q.compressedData.length) :
    SizesKept g (installed cfg q g) := by
  refine sizesKept_of_table hb (e := { committedEntry q with uses := 1 }) hsize.symm fun k => ?_
  change ((g.hashTable.setItem q.hash _).setItem q.hash _).d.get? k = _
  rw [HashTable.setItem_d_get?]
  split
  · rfl
  · rename_i hk
    rw [HashTable.setItem_d_get?, if_neg hk]

/-- **What an iteration of the writer does to the holdings**: the head of the queue is stored or
lost. -/
structure Written (cfg : Config) (env : CommitEnv) (g g' : Globals H) : Prop where
  sizes : SizesKept g g'
  held : (holdings g').Subperm (holdings g)
  queue : ∀ q ∈ g'.writeBuffer.d, q ∈ g.writeBuffer.d
  stored : cfg.backend = .rocksdb → commitsHead cfg env g = true →
    (holdings g').Perm (holdings g) ∧ g'.smallBlocks = g.smallBlocks

theorem Ledger.written (hg : Ledger [] g) (cfg : Config) (env : CommitEnv) :
    Written cfg env g (writeNewBlock cfg env g).2 := by
  cases hp : g.writeBuffer.popleft with
  | none =>
    rw [writeNewBlock_idle hp]
    exact ⟨fun _ => rfl, .refl _, fun _ => id, fun _ _ => ⟨.refl _, rfl⟩⟩
  | some p =>
    obtain ⟨q, rest⟩ := p
    have hqueue := (WriteCache.popleft_eq_some hp).1
    have hmem : q ∈ g.writeBuffer.d := by
      rw [hqueue]
      exact List.mem_cons_self
    have hheld : holdings g = (q.hash, q.payload) :: holdings { g with writeBuffer := rest } := by
      unfold holdings
      rw [hqueue]
      rfl
    have hnew : q.hash ∉ (holdings { g with writeBuffer := rest }).map Prod.fst := by
      have honce : ((holdings g).map Prod.fst).Nodup := hg.once
      rw [hheld, List.map_cons, List.nodup_cons] at honce
      exact honce.1
    obtain ⟨b, hb, hsize⟩ := hg.entered (q.hash, q.payload) (hheld ▸ List.mem_cons_self)
    have hspec := commitBlock_spec cfg env q { g with writeBuffer := rest }
    have hmay := commitBlock_held cfg env hnew
    unfold Py.wp at hspec hmay
    cases hc : commitBlock cfg env q { g with writeBuffer := rest } with
    | mk r g₁ =>
      rw [hc] at hspec hmay
      have hsub : (holdings g₁).Subperm (holdings g) := by
        rw [hheld]
        rcases hmay.held with htook | hsame
        · exact htook.subperm
        · exact hsame.subperm.trans (List.sublist_cons_self _ _).subperm
      have hrest : ∀ g₂ : Globals H, g₂.writeBuffer = rest → ∀ x ∈ g₂.writeBuffer.d,
          x ∈ g.writeBuffer.d := fun g₂ hg₂ x hx => by
        rw [hqueue]
        exact List.mem_cons_of_mem _ (hg₂ ▸ hx)
      cases r with
      | error e =>
        rw [writeNewBlock_failed hp hc]
        refine ⟨fun k => by rw [hmay.table], hsub, hrest g₁ hmay.queue, fun _ hok => ?_⟩
        rw [commitsHead_eq_false hp hc] at hok
        cases hok
      | ok q' =>
        have hcommitted := hspec.2
        obtain ⟨chunk, block, rfl⟩ := hcommitted.exists_location
        have htable : g₁.hashTable = g.hashTable := hmay.table
        have hsizes := installed_sizes cfg (g := g₁) (q := { q with chunk := chunk, block := block })
          (htable ▸ hb) (hsize.trans (hg.measured q hmem))
        rw [writeNewBlock_committed hp hc]
        refine ⟨fun k => (hsizes k).trans (by rw [htable]), hsub, hrest _ hmay.queue,
          fun hbackend _ => ⟨?_, ?_⟩⟩
        · exact hheld ▸ hcommitted.took hmay.queue hnew
        · cases hcommitted with
          | smallBlock small => exact absurd hbackend small.1
          | datastore _ _ _ smallBlocks => exact smallBlocks

theorem Ledger.writer (hg : Ledger [] g) (cfg : Config) (env : CommitEnv) :
    Ledger [] (writeNewBlock cfg env g).2 :=
  have hw := hg.written cfg env
  hg.moves hw.sizes hw.held hw.queue

theorem Complete.writer (hb : cfg.backend = .rocksdb) (hg : Ledger [] g) (hall : Complete g)
    {env : CommitEnv} (hok : commitsHead cfg env g = true) : Complete (writeNewBlock cfg env g).2 := by
  have hw := hg.written cfg env
  obtain ⟨hheld, hsmall⟩ := hw.stored hb hok
  exact hall.moves hw.sizes hheld (hsmall ▸ hall.noSmallBlocks)

/-! ## The collector -/

/-- The collector gives up small blocks, and nothing else. -/
structure GivesUp (g g' : Globals H) : Prop where
  sizes : SizesKept g g'
  writeBuffer : g'.writeBuffer = g.writeBuffer
  datastore : g'.datastore = g.datastore
  smallBlocks : ∀ k d, g'.smallBlocks.get? k = some d → g.smallBlocks.get? k = some d

instance : Py.Frame (@GivesUp H _) := by
  refine ⟨fun g => ⟨fun _ => rfl, rfl, rfl, fun _ _ => id⟩, fun h h' => ⟨fun k => ?_, ?_, ?_, ?_⟩⟩
  · exact (h'.sizes k).trans (h.sizes k)
  · exact h'.writeBuffer.trans h.writeBuffer
  · exact h'.datastore.trans h.datastore
  · exact fun k d hd => h.smallBlocks k d (h'.smallBlocks k d hd)

theorem GivesUp.held (h : GivesUp g g') : (holdings g').Subperm (holdings g) := by
  have hsmall : g'.smallBlocks.entries.Subperm g.smallBlocks.entries :=
    List.subperm_of_subset (List.Nodup.of_map _ g'.smallBlocks.nodup) fun p hp =>
      (Dict.mem_entries_iff _).mpr (h.smallBlocks _ _ ((Dict.mem_entries_iff _).mp hp))
  unfold holdings
  rw [h.writeBuffer, h.datastore]
  exact (List.subperm_append_left _).mpr ((List.subperm_append_right _).mpr hsmall)

theorem Ledger.givesUp (hg : Ledger hand g) (h : GivesUp g g') : Ledger hand g' :=
  hg.moves h.sizes ((List.subperm_append_left _).mpr h.held) fun _ hq => h.writeBuffer ▸ hq

/-- Without small blocks nothing is given up. -/
theorem Complete.givesUp (hall : Complete g) (h : GivesUp g g') : Complete g' := by
  have hsmall : ∀ k, g'.smallBlocks.get? k = none := fun k =>
    Option.eq_none_iff_forall_ne_some.mpr fun d hd => by
      have hold := h.smallBlocks k d hd
      rw [hall.noSmallBlocks] at hold
      cases hold
  have hsame : g'.smallBlocks.entries.Perm g.smallBlocks.entries :=
    Dict.entries_perm_of_get? fun k => (hsmall k).trans (hall.noSmallBlocks k).symm
  refine hall.moves h.sizes ?_ hsmall
  unfold holdings
  rw [h.writeBuffer, h.datastore]
  exact (hsame.append_right _).append_left _

theorem mutateEntry_givesUp (h : H) {f : Block H → Block H} (hf : ∀ b, (f b).size = b.size) :
    Py.Keeps GivesUp (mutateEntry h f) := by
  refine Py.keeps_modify fun g => ⟨fun k => ?_, rfl, rfl, fun _ _ => id⟩
  change ((g.hashTable.mutate h f).d.get? k).map Block.size = _
  rw [HashTable.mutate_d_get?]
  split
  · rw [Option.map_map]
    exact congrArg (fun s => Option.map s (g.hashTable.d.get? k)) (funext hf)
  · rfl

theorem deleteBlock_givesUp (cfg : Config) (remove : H) (b : Block H) :
    Py.Keeps GivesUp (deleteBlock cfg remove b) := by
  intro g
  have heffect := deleteBlock_effect cfg remove b g
  refine ⟨fun k => by rw [heffect.hashTable], heffect.writeBuffer, heffect.datastore, fun k d hd => ?_⟩
  rw [deleteBlock_smallBlocks] at hd
  split at hd
  · exact g.smallBlocks.forall_erase (fun _ _ => id) remove k d hd
  · exact hd

theorem collectHash_givesUp (cfg : Config) (now : Time) (remove : H) :
    Py.Keeps GivesUp (collectHash cfg now remove) := by
  refine Py.keeps_bind Py.keeps_read fun g => Py.keeps_bind (Py.keeps_ofOption _ _) fun b => ?_
  refine Py.keeps_bind (mutateEntry_givesUp remove fun _ => rfl) fun _ => ?_
  split
  · refine Py.keeps_bind (mutateEntry_givesUp remove fun _ => rfl) fun _ => ?_
    split
    · exact deleteBlock_givesUp cfg remove b
    · split
      · exact mutateEntry_givesUp remove fun _ => rfl
      · exact Py.keeps_pure _
  · exact Py.keeps_pure _

theorem collectLoop_givesUp (cfg : Config) (clock : Nat → Time) :
    ∀ n, Py.Keeps GivesUp (collectLoop (H := H) cfg clock n)
  | 0 => Py.keeps_pure _
  | n + 1 => by
    refine Py.keeps_bind Py.keeps_read fun g => ?_
    split
    · exact Py.keeps_pure _
    · exact Py.keeps_bind (Py.keeps_modify fun _ => ⟨fun _ => rfl, rfl, rfl, fun _ _ => id⟩) fun _ =>
        Py.keeps_bind (collectHash_givesUp cfg (clock n) _) fun _ => collectLoop_givesUp cfg clock n

/-- **A pass**, whatever it raises. -/
theorem garbageCollector_givesUp (cfg : Config) (clock : Nat → Time) :
    Py.Keeps GivesUp (garbageCollector (H := H) cfg clock) := by
  refine Py.keeps_bind Py.keeps_read fun g => ?_
  refine Py.keeps_bind (Py.keeps_attempt (collectLoop_givesUp cfg clock _) fun e => ?_) fun _ => ?_
  · split
    · exact Py.keeps_pure _
    · exact Py.keeps_raise _
  · exact Py.keeps_bind (Py.keeps_modify fun _ => ⟨fun _ => rfl, rfl, rfl, fun _ _ => id⟩) fun _ =>
      Py.keeps_pure _

/-! ## Runs -/

/-- The writer's commit succeeds. -/
def FsStep.stores (cfg : Config) (s : Fs H) : FsStep H → Bool
  | .writerStep env => commitsHead cfg env s.globals
  | _ => true

/-- **Each step keeps the ledger**, whatever it raises. -/
theorem Ledger.step {s : Fs H} (hs : Ledger [] s.globals) (e : FsStep H) :
    Ledger [] (e.exec cfg P s).globals := by
  have hcall : e.isCall = true → Ledger [] (e.exec cfg P s).globals := fun he =>
    (restocked_calls Ledger.restocked).call hs he
  cases e with
  | writerStep env => exact hs.writer cfg env
  | collect clock => exact hs.givesUp (garbageCollector_givesUp cfg clock s.globals)
  | flush => exact ⟨hs.once, hs.entered, hs.measured⟩
  | _ => exact hcall rfl

theorem Complete.step (hb : cfg.backend = .rocksdb) {s : Fs H} (hall : Complete s.globals)
    (hs : Ledger [] s.globals) {e : FsStep H} (hok : e.stores cfg s = true) :
    Complete (e.exec cfg P s).globals := by
  have hcall : e.isCall = true → Complete (e.exec cfg P s).globals := fun he =>
    (restocked_calls Complete.restocked).call hall he
  cases e with
  | writerStep env => exact Complete.writer hb hs hall hok
  | collect clock => exact hall.givesUp (garbageCollector_givesUp cfg clock s.globals)
  | flush => exact ⟨hall.held, hall.noSmallBlocks⟩
  | _ => exact hcall rfl

section Fresh

variable {cacheSize : Nat} {hpos : 0 < cacheSize} {ds mds : List (DataStore H)}

theorem Ledger.fresh (hds : ∀ d ∈ ds, d.db = Dict.empty) :
    Ledger [] (Globals.fresh cacheSize hpos ds mds) :=
  .blank (holdings_blank rfl hds rfl) rfl

theorem Complete.fresh : Complete (Globals.fresh cacheSize hpos ds mds) :=
  ⟨fun _ _ hk => (by cases hk), fun _ => rfl⟩

/-! ## Space -/

omit [DecidableEq H] in
/-- Every entry is counted in the space that `get_usage` reports, or flagged. -/
theorem table_total (g : Globals H) : g.hashTable.d.total Block.size =
    (getUsage g).dedupedCompressed + flaggedBytes g := by
  unfold getUsage flaggedBytes
  rw [← Dict.total_add]
  congr 1
  funext b
  unfold counted
  split <;> omega

theorem Complete.heldBytes_eq (hall : Complete g) (hg : Ledger [] g) :
    heldBytes [] g = (getUsage g).dedupedCompressed + flaggedBytes g :=
  table_total g ▸ Dict.sum_eq_total _ hg.once hg.entered hall.held

/-- `pyfuse3.StatvfsData`, as `statfs` fills it. -/
structure StatvfsData where
  f_bsize : Int
  f_frsize : Int
  f_blocks : Int
  f_bfree : Int
  f_bavail : Int
  f_files : Int
  f_ffree : Int
  f_favail : Int
  deriving DecidableEq, Repr

/-- `statfs`; `none` is the `ZeroDivisionError`. -/
def statfs (partitionSize allocationUnit : Int) (s : Fs H) : Option StatvfsData :=
  if allocationUnit = 0 then none
  else
    let free := max 0 ((partitionSize - (getUsage s.globals).dedupedCompressed).fdiv allocationUnit)
    some {
      f_bsize := allocationUnit
      f_frsize := allocationUnit
      f_blocks := max 0 (partitionSize.fdiv allocationUnit)
      f_bfree := free
      f_bavail := free
      f_files := s.inodes.d.size
      f_ffree := free
      f_favail := free }

/-- **What `statfs` reports on rocksdb**: as long as commits succeed, every known chunk is held, and
the free space is what the chunks leave of the partition, and the flagged chunks once more. -/
theorem statfs_free (hb : cfg.backend = .rocksdb) (hds : ∀ d ∈ ds, d.db = Dict.empty) {s : Fs H}
    {es : List (FsStep H)}
    (hrun : ((fileSystem cfg P).meeting fun s e => e.stores cfg s = true).Run
      (.fresh cacheSize hpos ds mds) es s)
    {partitionSize allocationUnit : Int} (hunit : allocationUnit ≠ 0) :
    (∀ k b, s.globals.hashTable.d.get? k = some b → k ∈ (holdings s.globals).map Prod.fst) ∧
      ∃ st, statfs partitionSize allocationUnit s = some st ∧
        st.f_bfree = max 0
          ((partitionSize - heldBytes [] s.globals + flaggedBytes s.globals).fdiv allocationUnit) := by
  obtain ⟨hall, hledger⟩ : Complete s.globals ∧ Ledger [] s.globals := by
    refine hrun.invariant (I := fun s => Complete s.globals ∧ Ledger [] s.globals)
      (fun s e s' hs hstep => ?_) ⟨.fresh, .fresh hds⟩
    obtain ⟨rfl, hok⟩ := hstep
    exact ⟨hs.1.step hb hs.2 hok, hs.2.step e⟩
  have hspace := hall.heldBytes_eq hledger
  refine ⟨hall.held, _, if_neg hunit, ?_⟩
  have hfree : partitionSize - (getUsage s.globals).dedupedCompressed =
      partitionSize - heldBytes [] s.globals + flaggedBytes s.globals := by
    rw [hspace]
    push_cast
    omega
  dsimp only
  rw [hfree]

end Fresh

/-- Two files share a stored chunk; the first is removed, and a chunk of the second is queued. -/
def sharedChunk : List (FsStep Bytes) :=
  [.create ⟨1, [97], 33188, 0, 0, 0, none⟩ 0, .create ⟨1, [98], 33188, 0, 0, 0, none⟩ 0,
    .write 2 0 [7] 0, .write 3 0 [7] 0,
    .writerStep ⟨⟨fun _ => 0, fun _ => 0, false⟩, ⟨fun _ => 0, fun _ => 0, false⟩⟩,
    .write 3 1 [8, 9] 0, .remove 1 [97] 2 fun _ => 0]

theorem statfs_free_sample :
    let s := System.after (fun e s => FsStep.exec .shipped .plain s e) sampleFs sharedChunk
    heldBytes [] s.globals = 3 ∧ flaggedBytes s.globals = 1 ∧
      ∃ st, statfs 100 10 s = some st ∧ st.f_bfree =
        max 0 ((100 - (heldBytes [] s.globals : Int) + flaggedBytes s.globals).fdiv 10) := by
  refine ⟨by decide, by decide, ?_⟩
  exact (statfs_free rfl sampleStores_blank
    (System.run_meeting_after (fun e s => FsStep.exec .shipped .plain s e) (FsStep.stores .shipped)
      sharedChunk sampleFs (by decide)) (by decide)).2

end VeratyFS
