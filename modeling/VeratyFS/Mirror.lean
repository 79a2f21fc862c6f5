import VeratyFS.WriteQueue

/-!
# The data mirror

With `replicate_data` a commit puts the bytes twice, the second time after the first put is done.

* `primaryRecords`, `mirrorRecords` — the (hash, bytes) pairs of the two sides.
* `PickEnv.accepts` — some store has room and the put does not raise; `writeData_ok_iff`: exactly
  then a write succeeds.
* `FsStep.mirrored` — a writer step that does not put on one side only.
* `mirror_agrees` — in runs of such steps the two sides hold the same records.
-/

set_option autoImplicit false
set_option maxRecDepth 1024

namespace VeratyFS

open Pylib

variable {H : Type} [DecidableEq H] {cfg : Config} {P : Packages H} {g g' : Globals H}

/-! ## What the two sides hold -/

/-- The records of the datastores and of the small-block database. -/
def primaryRecords (g : Globals H) : Set (H × Bytes) :=
  { r | (∃ j, stored g.datastore j r.1 = some r.2) ∨ g.smallBlocks.get? r.1 = some r.2 }

def mirrorRecords (g : Globals H) : Set (H × Bytes) :=
  { r | ∃ j, stored g.mirrorDatastore j r.1 = some r.2 }

/-- Everything that holds records. -/
def Globals.stores (g : Globals H) : List (DataStore H) × List (DataStore H) × Dict H Bytes :=
  (g.datastore, g.mirrorDatastore, g.smallBlocks)

/-! ## When a write succeeds -/

/-- Some store has room, and the put does not raise. -/
def PickEnv.accepts (env : PickEnv) (ds : List (DataStore H)) : Bool :=
  (ds.zipIdx.any fun d => env.dirSize d.2 < d.1.size) && !env.putRaises

omit [DecidableEq H] in
/-- Measuring a store changes no size. -/
theorem measured_room (ds : List (DataStore H)) (store n size j : Nat) :
    (∃ d, (ds.modify store fun d => { d with nextWritePosition := n })[j]? = some d ∧ size < d.size) ↔
      ∃ d, ds[j]? = some d ∧ size < d.size := by
  rw [List.getElem?_modify]
  cases ds[j]? with
  | none => exact ⟨fun ⟨_, h, _⟩ => (by cases h), fun ⟨_, h, _⟩ => by cases h⟩
  | some d => by_cases e : store = j <;> simp [e]

omit [DecidableEq H] in
/-- The loop finds a store exactly if a candidate has room: it goes through all of them, in whatever
order. -/
theorem pickLoop_isSome (writeSpread : Bool) (env : PickEnv) (fuel round : Nat) (l : List Nat)
    (ds : List (DataStore H)) (hfuel : l.length ≤ fuel) (hl : ∀ j ∈ l, j < ds.length) :
    (pickLoop writeSpread env fuel round l ds).1.isSome ↔
      ∃ j ∈ l, ∃ d, ds[j]? = some d ∧ env.dirSize j < d.size := by
  induction fuel generalizing round l ds with
  | zero =>
    have hnil : l = [] := List.length_eq_zero_iff.mp (by omega)
    rw [hnil]
    exact ⟨fun h => (by cases h), fun ⟨_, hj, _⟩ => by cases hj⟩
  | succ fuel ih =>
    rw [pickLoop]
    split
    · rename_i hnone
      have hnil : l = [] := by
        by_contra hne
        have hlen := List.length_pos_iff.mpr hne
        split at hnone
        · rw [List.getElem?_eq_none_iff] at hnone
          have := Nat.mod_lt (env.choice round) hlen
          omega
        · exact hne (List.head?_eq_none_iff.mp hnone)
      rw [hnil]
      exact ⟨fun h => (by cases h), fun ⟨_, hj, _⟩ => by cases hj⟩
    · rename_i store hstore
      have hmem : store ∈ l := by
        split at hstore
        · exact List.mem_of_getElem? hstore
        · exact List.mem_of_mem_head? hstore
      obtain ⟨d, hd⟩ : ∃ d, ds[store]? = some d :=
        ⟨_, List.getElem?_eq_getElem (hl store hmem)⟩
      have hget : (ds.modify store fun d => { d with nextWritePosition := env.dirSize store })[store]? =
          some { d with nextWritePosition := env.dirSize store } := by
        rw [List.getElem?_modify, hd]
        simp
      dsimp only
      rw [hget]
      dsimp only
      split
      · rename_i hroom
        exact ⟨fun _ => ⟨store, hmem, d, hd, hroom⟩, fun _ => rfl⟩
      · rename_i hfull
        have hlen : (l.erase store).length ≤ fuel := by
          rw [List.length_erase_of_mem hmem]
          omega
        rw [ih (round + 1) (l.erase store) _ hlen fun j hj => by
          rw [List.length_modify]
          exact hl j (List.mem_of_mem_erase hj)]
        constructor
        · rintro ⟨j, hj, hd'⟩
          exact ⟨j, List.mem_of_mem_erase hj, (measured_room ds _ _ _ j).mp hd'⟩
        · rintro ⟨j, hj, hd'⟩
          -- the store that was full is no candidate
          refine ⟨j, (List.mem_erase_of_ne fun e => ?_).mpr hj, (measured_room ds _ _ _ j).mpr hd'⟩
          obtain ⟨d', hd', hroom⟩ := hd'
          rw [e, hd] at hd'
          cases hd'
          exact hfull (e ▸ hroom)

omit [DecidableEq H] in
theorem pickDatastore_isSome (writeSpread : Bool) (env : PickEnv) (ds : List (DataStore H)) :
    (pickDatastore writeSpread env ds).1.isSome ↔
      ∃ j d, ds[j]? = some d ∧ env.dirSize j < d.size := by
  unfold pickDatastore
  rw [pickLoop_isSome writeSpread env _ _ _ ds (by rw [List.length_range])
    fun j hj => List.mem_range.mp hj]
  constructor
  · rintro ⟨j, _, d, hd, hroom⟩
    exact ⟨j, d, hd, hroom⟩
  · rintro ⟨j, d, hd, hroom⟩
    obtain ⟨hlt, _⟩ := List.getElem?_eq_some_iff.mp hd
    exact ⟨j, List.mem_range.mpr hlt, d, hd, hroom⟩

omit [DecidableEq H] in
theorem PickEnv.accepts_iff (env : PickEnv) (ds : List (DataStore H)) :
    env.accepts ds = true ↔
      (∃ j d, ds[j]? = some d ∧ env.dirSize j < d.size) ∧ env.putRaises = false := by
  unfold PickEnv.accepts
  rw [Bool.and_eq_true, Bool.not_eq_true', List.any_eq_true]
  refine and_congr ⟨?_, ?_⟩ Iff.rfl
  · rintro ⟨⟨d, j⟩, hmem, hroom⟩
    exact ⟨j, d, List.mem_zipIdx_iff_getElem?.mp hmem, of_decide_eq_true hroom⟩
  · rintro ⟨j, d, hd, hroom⟩
    exact ⟨⟨d, j⟩, List.mem_zipIdx_iff_getElem?.mpr hd, decide_eq_true hroom⟩

/-- **A write succeeds exactly if the stores accept.** -/
theorem writeData_ok_iff (writeSpread : Bool) (env : PickEnv) (q : QueuedWrite H) (data : Bytes)
    (replica : Bool) (ds : List (DataStore H)) :
    (∃ q', (writeData writeSpread env q data replica ds).1 = .ok q') ↔ env.accepts ds = true := by
  rw [env.accepts_iff ds, ← pickDatastore_isSome writeSpread env ds]
  have hstore := (pickLoop_spec writeSpread env ds.length 0 (List.range ds.length) ds).2
  unfold writeData
  unfold pickDatastore
  generalize pickLoop writeSpread env ds.length 0 (List.range ds.length) ds = r at hstore
  obtain ⟨_ | store, ds₁⟩ := r
  · exact ⟨fun ⟨_, h⟩ => (by cases h), fun ⟨h, _⟩ => by cases h⟩
  · obtain ⟨d, hd⟩ := hstore store rfl
    dsimp only at hd ⊢
    rw [hd]
    cases env.putRaises with
    | true => exact ⟨fun ⟨_, h⟩ => (by cases h), fun ⟨_, h⟩ => by cases h⟩
    | false => exact ⟨fun _ => ⟨rfl, rfl⟩, fun _ => ⟨_, rfl⟩⟩

/-- A write by its outcome: accepted, it puts one record; refused, it changes none. -/
theorem writeData_outcome (writeSpread : Bool) (env : PickEnv) (q : QueuedWrite H) (data : Bytes)
    (replica : Bool) (ds : List (DataStore H)) :
    (env.accepts ds = true ∧ ∃ q' ds' store, PutRecord ds ds' store q.hash data ∧
      q'.hash = q.hash ∧ q'.payload = q.payload ∧
      writeData writeSpread env q data replica ds = (.ok q', ds')) ∨
    (env.accepts ds = false ∧ ∃ e ds', SameRecords ds ds' ∧
      writeData writeSpread env q data replica ds = (.error e, ds')) := by
  have hiff := writeData_ok_iff writeSpread env q data replica ds
  have hspec := writeData_spec writeSpread env q data replica ds
  cases hw : writeData writeSpread env q data replica ds with
  | mk r ds' =>
    rw [hw] at hiff
    rw [Py.wp_of_run hw] at hspec
    cases r with
    | ok q' =>
      obtain ⟨store, chunk, block, hput, _, rfl⟩ := hspec
      refine .inl ⟨hiff.mp ⟨_, rfl⟩, _, ds', store, hput, ?_, ?_, rfl⟩
      · cases replica <;> rfl
      · cases replica <;> rfl
    | error e =>
      refine .inr ⟨?_, e, ds', hspec, rfl⟩
      rw [Bool.eq_false_iff]
      intro hacc
      obtain ⟨_, hok⟩ := hiff.mpr hacc
      cases hok

/-! ## A commit on both sides -/

/-- A commit puts the block on both sides, or it raises and puts nothing. -/
inductive BothSides (q : QueuedWrite H) (g : Globals H) :
    Except PyError (QueuedWrite H) × Globals H → Prop
  | put {g' : Globals H} {q' : QueuedWrite H} {store store' : Nat}
      (primary : PutRecord g.datastore g'.datastore store q.hash q.payload)
      (mirror : PutRecord g.mirrorDatastore g'.mirrorDatastore store' q.hash q.payload)
      (smallBlocks : g'.smallBlocks = g.smallBlocks) : BothSides q g (.ok q', g')
  | refused {g' : Globals H} {e : PyError} (primary : SameRecords g.datastore g'.datastore)
      (mirror : SameRecords g.mirrorDatastore g'.mirrorDatastore)
      (smallBlocks : g'.smallBlocks = g.smallBlocks) : BothSides q g (.error e, g')

/-- The commit of a block does not put on one side only: a small block is refused; a block of the
    rocksdb backend that the primary stores accept is accepted by the mirror. -/
def mirrorsBlock (cfg : Config) (env : CommitEnv) (q : QueuedWrite H) (g : Globals H) : Bool :=
  if isSmallBlock cfg q then cfg.smallBlockDbPath = .list
  else cfg.backend ≠ .rocksdb || !env.primary.accepts g.datastore ||
    env.mirror.accepts g.mirrorDatastore

theorem rocksdbCommit_bothSides (hrep : cfg.replicateData = true) {env : CommitEnv}
    {q : QueuedWrite H} {g : Globals H}
    (h : env.primary.accepts g.datastore = true → env.mirror.accepts g.mirrorDatastore = true) :
    BothSides q g (rocksdbCommit cfg env q g) := by
  rcases writeData_outcome cfg.writeSpread env.primary q q.payload false g.datastore with
    ⟨hacc, q₁, ds, store, hput, hhash, hpay, hw⟩ | ⟨_, e, ds, hsame, hw⟩
  · have hprimary : Globals.onDatastore (writeData cfg.writeSpread env.primary q q.payload false) g =
        (.ok q₁, { g with datastore := ds }) := Py.run_zoom hw
    rcases writeData_outcome cfg.writeSpread env.mirror q₁ q₁.payload true g.mirrorDatastore with
      ⟨_, q₂, mds, store', hput', _, _, hw'⟩ | ⟨hno, _⟩
    · have hmirror : Globals.onMirror (writeData cfg.writeSpread env.mirror q₁ q₁.payload true)
          { g with datastore := ds } = (.ok q₂, { g with datastore := ds, mirrorDatastore := mds }) :=
        Py.run_zoom hw'
      have hrun : rocksdbCommit cfg env q g =
          (.ok q₂, { g with datastore := ds, mirrorDatastore := mds }) :=
        (Py.run_bind_ok hprimary).trans ((congrFun (if_pos hrep) _).trans hmirror)
      rw [hhash, hpay] at hput'
      rw [hrun]
      exact .put hput hput' rfl
    · rw [h hacc] at hno
      cases hno
  · have hprimary : Globals.onDatastore (writeData cfg.writeSpread env.primary q q.payload false) g =
        (.error e, { g with datastore := ds }) := Py.run_zoom hw
    have hrun : rocksdbCommit cfg env q g = (.error e, { g with datastore := ds }) :=
      Py.run_bind_error hprimary
    rw [hrun]
    exact .refused hsame (.refl _) rfl

theorem commitBlock_bothSides (hrep : cfg.replicateData = true) {env : CommitEnv}
    {q : QueuedWrite H} {g : Globals H} (h : mirrorsBlock cfg env q g = true) :
    BothSides q g (commitBlock cfg env q g) := by
  unfold mirrorsBlock at h
  unfold commitBlock
  by_cases hsmall : isSmallBlock cfg q
  · rw [if_pos hsmall] at h ⊢
    have hpath : cfg.smallBlockDbPath = .list := of_decide_eq_true h
    have hwrite : Globals.onSmallBlocks (writeSmallBlock cfg q.hash q.payload) g =
        (.error .typeError, g) := by
      unfold Globals.onSmallBlocks writeSmallBlock openSmallBlockDb
      rw [hpath]
      rfl
    rw [Py.run_bind_error hwrite]
    exact .refused (.refl _) (.refl _) rfl
  · rw [if_neg hsmall] at h ⊢
    unfold commitData
    cases hb : cfg.backend with
    | rocksdb =>
      have hcommit : BothSides q g (rocksdbCommit cfg env q g) := by
        refine rocksdbCommit_bothSides hrep fun hacc => ?_
        rw [hb, hacc] at h
        exact h
      cases hr : rocksdbCommit cfg env q g with
      | mk r g' =>
        rw [hr] at hcommit
        cases hcommit with
        | put primary mirror smallBlocks =>
          rw [Py.run_attempt_ok hr]
          exact .put primary mirror smallBlocks
        | refused primary mirror smallBlocks =>
          rw [Py.run_attempt_error hr]
          exact .refused primary mirror smallBlocks
    | mmap => exact .refused (.refl _) (.refl _) rfl
    | unset => exact .refused (.refl _) (.refl _) rfl

/-! ## What the other steps leave alone -/

theorem dedupChunk_stores (P : Packages H) (compress : Bytes → Bool × Bytes) (c : Bytes) :
    Py.Keeps (InvImage Eq Globals.stores) (dedupChunk P compress c) := by
  intro g
  cases hb : g.hashTable.d.get? (P.xxh3_64 c) with
  | some b =>
    rw [dedupChunk_known hb]
    rfl
  | none =>
    rw [dedupChunk_new hb]
    rfl

theorem dedupChunks_stores (P : Packages H) (compress : Bytes → Bool × Bytes) :
    ∀ cs, Py.Keeps (InvImage Eq Globals.stores) (dedupChunks P compress cs)
  | [] => Py.keeps_pure _
  | c :: cs =>
    Py.keeps_bind (dedupChunk_stores P compress c) fun _ =>
      Py.keeps_bind (dedupChunks_stores P compress cs) fun _ => Py.keeps_pure _

/-- A call changes no store. -/
theorem stores_calls (cfg : Config) (P : Packages H)
    (S : List (DataStore H) × List (DataStore H) × Dict H Bytes) :
    CallsKeep cfg P fun g => g.stores = S where
  caches {g g'} hc hg := by
    rw [← hg]
    unfold Globals.stores
    rw [hc.datastore, hc.mirrorDatastore, hc.smallBlocks]
  dedup data {g} hg :=
    (show g.stores = (dedup cfg P data g).2.stores from dedupChunks_stores P _ _ g).symm.trans hg
  drop now h {g} hg := by
    rcases updateIndexRemove_outcome cfg now h g with hsame | ⟨b, fb', _, _, hrun⟩
    · rw [hsame]
      exact hg
    · have hc := uncache_keeps cfg h b (flagDeleted now h b { g with freeBlocks := fb' })
      rw [hrun, ← hg]
      unfold Globals.stores
      rw [hc.datastore, hc.mirrorDatastore, hc.smallBlocks]
      rfl

theorem deleteBlock_mirror (cfg : Config) (remove : H) (b : Block H) :
    Py.Keeps (InvImage Eq Globals.mirrorDatastore) (deleteBlock cfg remove b) := by
  refine Py.keeps_bind (Py.keeps_modify fun _ => rfl) fun _ => ?_
  split
  · exact Py.keeps_bind (fun _ => rfl) fun _ => Py.keeps_modify fun _ => rfl
  · cases cfg.backend with
    | rocksdb =>
      exact Py.keeps_bind Py.keeps_read fun _ => Py.keeps_bind (Py.keeps_ofOption _ _) fun _ =>
        Py.keeps_bind (Py.keeps_raise _) fun _ => Py.keeps_modify fun _ => rfl
    | mmap => exact Py.keeps_ensuring (fun _ => rfl) fun _ => rfl
    | unset => exact Py.keeps_ensuring (fun _ => rfl) fun _ => rfl

theorem collectHash_mirror (cfg : Config) (now : Time) (remove : H) :
    Py.Keeps (InvImage Eq Globals.mirrorDatastore) (collectHash cfg now remove) := by
  refine Py.keeps_bind Py.keeps_read fun _ => ?_
  refine Py.keeps_bind (Py.keeps_ofOption _ _) fun b => ?_
  refine Py.keeps_bind (Py.keeps_modify fun _ => rfl) fun _ => ?_
  split
  · refine Py.keeps_bind (Py.keeps_modify fun _ => rfl) fun _ => ?_
    split
    · exact deleteBlock_mirror cfg remove b
    · split
      · exact Py.keeps_modify fun _ => rfl
      · exact Py.keeps_pure _
  · exact Py.keeps_pure _

theorem collectLoop_mirror (cfg : Config) (clock : Nat → Time) :
    ∀ n, Py.Keeps (InvImage Eq Globals.mirrorDatastore) (collectLoop (H := H) cfg clock n)
  | 0 => Py.keeps_pure _
  | n + 1 => by
    intro g
    cases hq : g.removeUses with
    | nil =>
      rw [collectLoop_empty cfg clock (n + 1) hq]
      rfl
    | cons remove rest =>
      rw [collectLoop_next cfg clock n hq]
      exact Py.keeps_bind (collectHash_mirror cfg (clock n) remove)
        (fun _ => collectLoop_mirror cfg clock n) { g with removeUses := rest }

theorem garbageCollector_mirror (cfg : Config) (clock : Nat → Time) :
    Py.Keeps (InvImage Eq Globals.mirrorDatastore) (garbageCollector (H := H) cfg clock) := by
  intro g
  have hloop := collectLoop_mirror cfg clock g.removeUses.length g
  rcases garbageCollector_cases cfg clock g with ⟨g₁, rfl, heq⟩ | ⟨e, heq⟩
  · rw [heq]
    exact hloop
  · rw [heq]
    exact hloop

/-- The collector deletes small blocks only: with none there it changes no store. -/
theorem garbageCollector_primary (cfg : Config) (clock : Nat → Time) {g : Globals H}
    (hr : Remembered g) (hsmall : ∀ h, g.smallBlocks.get? h = none) :
    (garbageCollector cfg clock g).2.datastore = g.datastore ∧
      ∀ h, (garbageCollector cfg clock g).2.smallBlocks.get? h = none := by
  refine (garbageCollector_invariant cfg clock
    (I := fun g' => (g'.datastore = g.datastore ∧ ∀ h, g'.smallBlocks.get? h = none) ∧ Remembered g')
    (fun g hg h hh => (contains_iff_get? _ _).mp (hg.2.removeUses h hh))
    (fun g₁ g' now h rest b hg hq hb hc => ⟨⟨?_, fun k => ?_⟩, hc.remembered hq hb hg.2⟩)
    (fun g₁ hg => ⟨hg.1, ⟨hg.2.removeUses, hg.2.reclaimed⟩⟩) ⟨⟨rfl, hsmall⟩, hr⟩).1
  · exact hc.datastore.trans hg.1.1
  · rw [hc.smallBlocks]
    split
    · rw [Dict.get?_erase]
      split
      · rfl
      · exact hg.1.2 k
    · exact hg.1.2 k

/-! ## Stored hashes -/

/-- Hashes that are in the table and not queued. -/
def Unqueued (S : Set H) (g : Globals H) : Prop :=
  ∀ h ∈ S, g.hashTable.contains h = true ∧ ∀ q ∈ g.writeBuffer.d, q.hash ≠ h

theorem unqueued_invariant (S : Set H) : QueueInvariant (Unqueued S) where
  advances ha hg h hh :=
    ⟨ha.keys h (hg h hh).1, fun q hq => (hg h hh).2 q (ha.queue.subset hq)⟩
  enters {q g g'} he hg h hh := by
    refine ⟨he.keys h (hg h hh).1, fun x hx hxh => ?_⟩
    rw [he.queue] at hx
    rcases List.mem_append.mp hx with hx | hx
    · exact (hg h hh).2 x hx hxh
    · have hknown := (hg h hh).1
      rw [← hxh, List.mem_singleton.mp hx, he.unknown] at hknown
      cases hknown

/-! ## The invariant -/

/-- The hashes that have a record. -/
def storedHashes (g : Globals H) : Set H := { h | ∃ d, (h, d) ∈ primaryRecords g }

/-- Both sides hold the same records, none of them in the small-block database, and `dedup` queues
no hash that has a record. -/
structure Mirrored (g : Globals H) : Prop where
  noSmallBlocks : ∀ h, g.smallBlocks.get? h = none
  agree : primaryRecords g = mirrorRecords g
  unqueued : Unqueued (storedHashes g) g
  queued : Queued g
  remembered : Remembered g

/-- The records of the primary stores when no small block is stored. -/
theorem primaryRecords_eq (hsmall : ∀ h, g.smallBlocks.get? h = none) :
    primaryRecords g = { r | ∃ j, stored g.datastore j r.1 = some r.2 } := by
  ext r
  refine ⟨fun hr => ?_, .inl⟩
  rcases hr with hr | hr
  · exact hr
  · rw [hsmall] at hr
    cases hr

/-- The stores are the same, and the other parts are kept. -/
theorem Mirrored.of_stores (hg : Mirrored g) (hds : g'.datastore = g.datastore)
    (hmds : g'.mirrorDatastore = g.mirrorDatastore) (hsmall : ∀ h, g'.smallBlocks.get? h = none)
    (hset : Unqueued (storedHashes g) g') (hq : Queued g') (hr : Remembered g') : Mirrored g' := by
  have hprimary : primaryRecords g' = primaryRecords g := by
    rw [primaryRecords_eq hsmall, primaryRecords_eq hg.noSmallBlocks, hds]
  have hmirror : mirrorRecords g' = mirrorRecords g := by
    unfold mirrorRecords
    rw [hmds]
  refine ⟨hsmall, ?_, ?_, hq, hr⟩
  · rw [hprimary, hmirror]
    exact hg.agree
  · unfold storedHashes
    rw [hprimary]
    exact hset

/-- A record of a new hash joins the records. -/
theorem put_records {ds ds' : List (DataStore H)} {store : Nat} {h : H} {data : Bytes}
    (hput : PutRecord ds ds' store h data) (hnew : ∀ j, stored ds j h = none) (r : H × Bytes) :
    (∃ j, stored ds' j r.1 = some r.2) ↔ r = (h, data) ∨ ∃ j, stored ds j r.1 = some r.2 := by
  constructor
  · rintro ⟨j, hj⟩
    rw [hput.stored] at hj
    split at hj
    · rename_i hjh
      exact .inl (Prod.ext hjh.2.symm (Option.some.inj hj).symm)
    · exact .inr ⟨j, hj⟩
  · rintro (rfl | ⟨j, hj⟩)
    · exact ⟨store, by rw [hput.stored, if_pos ⟨rfl, rfl⟩]⟩
    · refine ⟨j, ?_⟩
      rw [hput.stored, if_neg fun hjh => ?_]
      · exact hj
      · rw [← hjh.2, hnew] at hj
        cases hj

theorem same_records {ds ds' : List (DataStore H)} (h : SameRecords ds ds') :
    { r : H × Bytes | ∃ j, stored ds' j r.1 = some r.2 } = { r | ∃ j, stored ds j r.1 = some r.2 } := by
  simp only [h.stored]

/-- A queued hash has a record on neither side. -/
theorem Mirrored.unstored (hg : Mirrored g) {q : QueuedWrite H} (hq : q ∈ g.writeBuffer.d) :
    (∀ d, (q.hash, d) ∉ primaryRecords g) ∧ ∀ d, (q.hash, d) ∉ mirrorRecords g := by
  have hno : ∀ d, (q.hash, d) ∉ primaryRecords g := fun d hd =>
    (hg.unqueued q.hash ⟨d, hd⟩).2 q hq rfl
  exact ⟨hno, hg.agree ▸ hno⟩

/-- The head of the queue is put on both sides. -/
theorem Mirrored.put {q : QueuedWrite H} {store store' : Nat} (hg : Mirrored g)
    (hqueue : g.writeBuffer.d = q :: g'.writeBuffer.d) (ha : Advances g g')
    (hprimary : PutRecord g.datastore g'.datastore store q.hash q.payload)
    (hmirror : PutRecord g.mirrorDatastore g'.mirrorDatastore store' q.hash q.payload)
    (hsmall : g'.smallBlocks = g.smallBlocks) (hr : Remembered g') : Mirrored g' := by
  have hmem : q ∈ g.writeBuffer.d := by
    rw [hqueue]
    exact List.mem_cons_self
  obtain ⟨hno, hno'⟩ := hg.unstored hmem
  have hsmall' : ∀ h, g'.smallBlocks.get? h = none := fun h => by
    rw [hsmall]
    exact hg.noSmallBlocks h
  have hrecords : primaryRecords g' = insert (q.hash, q.payload) (primaryRecords g) := by
    rw [primaryRecords_eq hsmall', primaryRecords_eq hg.noSmallBlocks]
    ext r
    exact put_records hprimary (fun j => Option.eq_none_iff_forall_ne_some.mpr
      fun d hd => hno d (.inl ⟨j, hd⟩)) r
  have hrecords' : mirrorRecords g' = insert (q.hash, q.payload) (mirrorRecords g) := by
    ext r
    exact put_records hmirror (fun j => Option.eq_none_iff_forall_ne_some.mpr
      fun d hd => hno' d ⟨j, hd⟩) r
  refine ⟨hsmall', ?_, ?_, queued_invariant.advances ha hg.queued, hr⟩
  · rw [hrecords, hrecords', hg.agree]
  · rintro h ⟨d, hd⟩
    rw [hrecords] at hd
    rcases hd with heq | hold
    · -- the stored hash is in the table, and the queue had it once
      obtain ⟨rfl, -⟩ := Prod.mk.inj heq
      refine ⟨ha.keys _ (hg.queued.known q hmem), fun x hx hxq => ?_⟩
      have hdistinct := hg.queued.distinct
      rw [hqueue, List.map_cons, List.nodup_cons] at hdistinct
      exact hdistinct.1 (List.mem_map.mpr ⟨x, hx, hxq⟩)
    · exact (unqueued_invariant _).advances ha hg.unqueued h ⟨d, hold⟩

/-- The head of the queue is refused: the records are the same. -/
theorem refused_records (hprimary : SameRecords g.datastore g'.datastore)
    (hmirror : SameRecords g.mirrorDatastore g'.mirrorDatastore)
    (hsmall : g'.smallBlocks = g.smallBlocks) :
    primaryRecords g' = primaryRecords g ∧ mirrorRecords g' = mirrorRecords g := by
  refine ⟨?_, same_records hmirror⟩
  unfold primaryRecords
  simp only [hprimary.stored, hsmall]

/-! ## Every run -/

/-- A writer step that does not put on one side only; any other step. -/
def FsStep.mirrored (cfg : Config) (s : Fs H) : FsStep H → Bool
  | .writerStep env =>
    match s.globals.writeBuffer.popleft with
    | none => true
    | some (q, _) => mirrorsBlock cfg env q s.globals
  | _ => true

theorem writeNewBlock_advances (cfg : Config) (env : CommitEnv) (g : Globals H) :
    Advances g (writeNewBlock cfg env g).2 := by
  cases writeNewBlock_effect cfg env g with
  | idle _ same =>
    rw [same]
    exact ⟨fun _ => id, List.suffix_rfl⟩
  | lost q queue _ table _ => exact ⟨fun h => by rw [table]; exact id, ⟨[q], queue.symm⟩⟩
  | installed q b queue _ table => exact ⟨contains_of_table table, ⟨[q], queue.symm⟩⟩

section

variable {env : CommitEnv} {q : QueuedWrite H} {rest : WriteCache (QueuedWrite H)}

/-- **One writer step**: the sides stay equal, and a block whose commit raises is on neither. -/
theorem Mirrored.writer (hrep : cfg.replicateData = true) (hg : Mirrored g)
    (hp : g.writeBuffer.popleft = some (q, rest)) (hok : mirrorsBlock cfg env q g = true) :
    Mirrored (writeNewBlock cfg env g).2 ∧
      (commitsHead cfg env g = false →
        (∀ d, (q.hash, d) ∉ primaryRecords (writeNewBlock cfg env g).2) ∧
          ∀ d, (q.hash, d) ∉ mirrorRecords (writeNewBlock cfg env g).2) := by
  have hd := (WriteCache.popleft_eq_some hp).1
  have ha := writeNewBlock_advances cfg env g
  have hr := (remembered_preserved cfg).writer env hg.remembered
  have hboth : BothSides q { g with writeBuffer := rest }
      (commitBlock cfg env q { g with writeBuffer := rest }) := commitBlock_bothSides hrep hok
  have hspec := commitBlock_spec cfg env q { g with writeBuffer := rest }
  cases hc : commitBlock cfg env q { g with writeBuffer := rest } with
  | mk r g₁ =>
    rw [hc] at hboth
    rw [Py.wp_of_run hc] at hspec
    cases hboth with
    | @put _ q' store store' primary mirror smallBlocks =>
      rw [writeNewBlock_committed hp hc] at ha hr ⊢
      refine ⟨hg.put ?_ ha primary mirror smallBlocks hr, fun hno => ?_⟩
      · change g.writeBuffer.d = q :: g₁.writeBuffer.d
        rw [hspec.1.writeBuffer]
        exact hd
      · rw [commitsHead_eq_true hp hc] at hno
        cases hno
    | @refused _ e primary mirror smallBlocks =>
      rw [writeNewBlock_failed hp hc] at ha hr ⊢
      obtain ⟨hprimary, hmirror⟩ : primaryRecords g₁ = primaryRecords g ∧
          mirrorRecords g₁ = mirrorRecords g := refused_records primary mirror smallBlocks
      refine ⟨⟨fun h => ?_, ?_, ?_, queued_invariant.advances ha hg.queued, hr⟩, fun _ => ?_⟩
      · rw [smallBlocks]
        exact hg.noSmallBlocks h
      · rw [hprimary, hmirror]
        exact hg.agree
      · unfold storedHashes
        rw [hprimary]
        exact (unqueued_invariant _).advances ha hg.unqueued
      · rw [hprimary, hmirror]
        exact hg.unstored (by rw [hd]; exact List.mem_cons_self)

end

/-- **Each step keeps the two sides equal**, unless it puts on one side only. -/
theorem Mirrored.step (hrep : cfg.replicateData = true) {s : Fs H} {e : FsStep H}
    (hs : Mirrored s.globals) (hok : e.mirrored cfg s = true) :
    Mirrored (e.exec cfg P s).globals := by
  have hset := (((unqueued_invariant (storedHashes s.globals)).preserved cfg).step (P := P)
    ⟨hs.unqueued, hs.remembered⟩ e).1
  have hq := ((queued_invariant.preserved cfg).step (P := P) ⟨hs.queued, hs.remembered⟩ e).1
  have hr := (remembered_preserved cfg).step (P := P) hs.remembered e
  have hcall : e.isCall = true → Mirrored (e.exec cfg P s).globals := fun he => by
    have hstores : (e.exec cfg P s).globals.stores = s.globals.stores :=
      (stores_calls cfg P s.globals.stores).call rfl he
    obtain ⟨hds, hrest⟩ := Prod.mk.inj hstores
    obtain ⟨hmds, hsmbs⟩ := Prod.mk.inj hrest
    exact hs.of_stores hds hmds (fun h => by rw [hsmbs]; exact hs.noSmallBlocks h) hset hq hr
  cases e with
  | writerStep env =>
    change Mirrored (writeNewBlock cfg env s.globals).2
    unfold FsStep.mirrored at hok
    cases hp : s.globals.writeBuffer.popleft with
    | none =>
      rw [writeNewBlock_idle hp]
      exact hs
    | some p =>
      rw [hp] at hok
      exact (hs.writer hrep hp hok).1
  | collect clock =>
    obtain ⟨hds, hsmall⟩ := garbageCollector_primary cfg clock hs.remembered hs.noSmallBlocks
    exact hs.of_stores hds (garbageCollector_mirror cfg clock s.globals).symm hsmall hset hq hr
  | flush => exact hs.of_stores rfl rfl hs.noSmallBlocks hset hq hr
  | _ => exact hcall rfl

/-- Empty stores hold no record. -/
theorem blank_records {ds : List (DataStore H)} (hblank : ∀ d ∈ ds, d.db = Dict.empty)
    (r : H × Bytes) : ¬ ∃ j, stored ds j r.1 = some r.2 := by
  rintro ⟨j, hj⟩
  obtain ⟨d, hd, hget⟩ := Option.bind_eq_some_iff.mp hj
  rw [hblank d (List.mem_of_getElem? hd)] at hget
  cases hget

theorem Mirrored.fresh {cacheSize : Nat} {hpos : 0 < cacheSize} {ds mds : List (DataStore H)}
    (hds : ∀ d ∈ ds, d.db = Dict.empty) (hmds : ∀ d ∈ mds, d.db = Dict.empty) :
    Mirrored (Globals.fresh cacheSize hpos ds mds) := by
  have hprimary : primaryRecords (Globals.fresh cacheSize hpos ds mds) = ∅ := by
    rw [primaryRecords_eq fun _ => rfl]
    exact Set.eq_empty_of_forall_notMem (blank_records hds)
  have hmirror : mirrorRecords (Globals.fresh cacheSize hpos ds mds) = ∅ :=
    Set.eq_empty_of_forall_notMem (blank_records hmds)
  refine ⟨fun _ => rfl, by rw [hprimary, hmirror], ?_, .fresh,
    fun _ hh => (by cases hh), fun _ hh => by cases hh⟩
  rintro h ⟨d, hd⟩
  rw [hprimary] at hd
  exact hd.elim

/-- **Mirror consistency**: in every run that never puts on one side only, the primary stores and
the mirror hold the same records in every state, and after a commit that raises neither side has the
block. -/
theorem mirror_agrees {cacheSize : Nat} {hpos : 0 < cacheSize} {ds mds : List (DataStore H)}
    (hrep : cfg.replicateData = true) (hds : ∀ d ∈ ds, d.db = Dict.empty)
    (hmds : ∀ d ∈ mds, d.db = Dict.empty) {s : Fs H} {es : List (FsStep H)}
    (hrun : ((fileSystem cfg P).meeting fun s e => e.mirrored cfg s = true).Run
      (.fresh cacheSize hpos ds mds) es s) :
    primaryRecords s.globals = mirrorRecords s.globals ∧
      ∀ env q rest, s.globals.writeBuffer.popleft = some (q, rest) →
        (FsStep.writerStep env).mirrored cfg s = true → commitsHead cfg env s.globals = false →
        (∀ d, (q.hash, d) ∉ primaryRecords ((FsStep.writerStep env).exec cfg P s).globals) ∧
          ∀ d, (q.hash, d) ∉ mirrorRecords ((FsStep.writerStep env).exec cfg P s).globals := by
  have hs : Mirrored s.globals := by
    refine hrun.invariant (I := fun s => Mirrored s.globals) ?_ (.fresh hds hmds)
    rintro s e s' hs ⟨rfl, hok⟩
    exact hs.step hrep hok
  refine ⟨hs.agree, fun env q rest hp hok hfail => ?_⟩
  unfold FsStep.mirrored at hok
  rw [hp] at hok
  exact (hs.writer hrep hp hok).2 hfail

theorem sampleStores_empty :
    (∀ d ∈ sampleFs.globals.datastore, d.db = Dict.empty) ∧
      ∀ d ∈ sampleFs.globals.mirrorDatastore, d.db = Dict.empty := by
  refine ⟨fun d hd => ?_, fun d hd => ?_⟩
  · rcases List.mem_cons.mp hd with rfl | hd
    · rfl
    · rw [List.mem_singleton.mp hd]
      rfl
  · rw [List.mem_singleton.mp hd]
    rfl

/-- The first block is stored on both sides, and the second one finds full stores. -/
def mirroredSteps : List (FsStep Bytes) :=
  oneWrite ++ [.writerStep ⟨⟨fun _ => 0, fun _ => 0, false⟩, ⟨fun _ => 0, fun _ => 0, false⟩⟩,
    .write 2 1 [8] 0]

theorem mirror_agrees_sample :
    let s := System.after (fun e s => FsStep.exec .shipped .plain s e) sampleFs mirroredSteps
    primaryRecords s.globals = mirrorRecords s.globals ∧
      ∀ env q rest, s.globals.writeBuffer.popleft = some (q, rest) →
        (FsStep.writerStep env).mirrored .shipped s = true → commitsHead .shipped env s.globals = false →
        (∀ d, (q.hash, d) ∉ primaryRecords ((FsStep.writerStep env).exec .shipped .plain s).globals) ∧
          ∀ d, (q.hash, d) ∉ mirrorRecords ((FsStep.writerStep env).exec .shipped .plain s).globals := by
  intro s
  have hrun := System.run_meeting_after (fun e s => FsStep.exec .shipped .plain s e)
    (fun s e => e.mirrored .shipped s) mirroredSteps sampleFs (by decide)
  exact mirror_agrees rfl sampleStores_empty.1 sampleStores_empty.2 hrun

/-- The primary store has room and the mirror has none. -/
def mirrorFull : CommitEnv := ⟨⟨fun _ => 0, fun _ => 0, false⟩, ⟨fun _ => 8589934592, fun _ => 0, false⟩⟩

/-- The commit raises, and the block is in the primary store only. -/
theorem mirror_full : ¬ ∀ (cfg : Config) (s : Fs Bytes) (es : List (FsStep Bytes)),
    cfg.replicateData = true → (fileSystem cfg .plain).Run sampleFs es s →
      primaryRecords s.globals = mirrorRecords s.globals := by
  intro h
  have hrun := System.run_after (fun e s => FsStep.exec .shipped .plain s e)
    (oneWrite ++ [.writerStep mirrorFull]) sampleFs
  have hagree := h .shipped _ _ rfl hrun
  have hprimary : (([7], [7]) : Bytes × Bytes) ∈ primaryRecords (System.after
      (fun e s => FsStep.exec .shipped .plain s e) sampleFs
      (oneWrite ++ [.writerStep mirrorFull])).globals := .inl ⟨0, by decide⟩
  rw [hagree] at hprimary
  obtain ⟨j, hj⟩ := hprimary
  cases j with
  | zero => exact absurd hj (by decide)
  | succ j =>
    have hlen : (System.after (fun e s => FsStep.exec .shipped .plain s e) sampleFs
        (oneWrite ++ [.writerStep mirrorFull])).globals.mirrorDatastore.length = 1 := by
      decide
    obtain ⟨d, hd, _⟩ := Option.bind_eq_some_iff.mp hj
    obtain ⟨hlt, _⟩ := List.getElem?_eq_some_iff.mp hd
    omega

end VeratyFS
