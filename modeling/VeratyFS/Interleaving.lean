import VeratyFS.Threads
import VeratyFS.Lib.Handoff

/-!
# The write buffer between dedup and the writers

Is a block whose `FileBlock` was returned retrievable in every state of every interleaving?

* `Retrievable` — the bytes are in a read cache, in `write_read_cache`, or in the datastore that the
  entry names.
* `Threads.inTime` — the two windows stay closed: no reference that names a datastore without the
  bytes replaces one that names a datastore with them; and while a writer is between dropping a hash
  from `write_read_cache` and entering its block, that hash is either not returned or already
  located.
* `Inv` — where the bytes of a hash are, by the stage its block is in.
* `returned_retrievable` — the interleavings whose moves are all in time.
* `returned_lost` — a placeholder entered after the writer's block.
-/

set_option autoImplicit false

namespace VeratyFS

open Pylib

variable {H : Type} [DecidableEq H] {cfg : Config} {P : Packages H}

/-! ## Where the bytes are -/

/-- `datastore[chunk]` has a record of the hash. -/
def Shared.holds (s : Shared H) (chunk : Int) (h : H) : Bool :=
  ((getAt? s.datastore chunk).bind fun d => d.db.get? h).isSome

/-- The object names a datastore that has a record of the hash. -/
def Shared.objectHolds (s : Shared H) (a : Nat) (h : H) : Bool :=
  match s.objects[a]? with
  | some b => s.holds b.chunk h
  | none => false

/-- `datastore[hash_table[h].chunk]` has a record of `h`. -/
def Shared.located (s : Shared H) (h : H) : Bool :=
  match s.hashTable.get? h with
  | some a => s.objectHolds a h
  | none => false

/-- What a commit stores for a chunk of this hash. -/
def Payload (P : Packages H) (h : H) (d : Bytes) : Prop :=
  ∃ c, P.xxh3_64 c = h ∧ d = (queueItem P (compressData P) c).payload

/-- The bytes of a hash can be found. -/
inductive Retrievable (P : Packages H) (s : Shared H) (h : H) : Prop
  | readCache {d : Bytes} (hit : s.readCache.get? h = some d) (hash : P.xxh3_64 d = h)
  | smallBlockReadCache {d : Bytes} (hit : s.smallBlockReadCache.get? h = some (some d))
      (hash : P.xxh3_64 d = h)
  | writeReadCache {d : Bytes} (hit : s.writeReadCache.get? h = some d) (hash : P.xxh3_64 d = h)
  | datastore {b : Block H} {ds : DataStore H} {d : Bytes} (entry : s.entry? h = some b)
      (named : getAt? s.datastore b.chunk = some ds) (record : ds.db.get? h = some d)
      (payload : Payload P h d)

theorem Shared.holds_iff {s : Shared H} {chunk : Int} {h : H} :
    s.holds chunk h = true ↔
      ∃ j d, index? s.datastore.length chunk = some j ∧ stored s.datastore j h = some d := by
  unfold Shared.holds getAt? stored
  rw [Option.isSome_iff_exists]
  cases index? s.datastore.length chunk with
  | none => simp
  | some j => simp

theorem Shared.located_iff {s : Shared H} {h : H} :
    s.located h = true ↔ ∃ b, s.entry? h = some b ∧ s.holds b.chunk h = true := by
  unfold Shared.located Shared.entry? Shared.objectHolds
  cases s.hashTable.get? h with
  | none => simp
  | some a => cases hb : s.objects[a]? <;> simp [hb]

/-! ## The stages of a block -/

/-- The item whose bytes a writer has not dropped from `write_read_cache` yet. -/
def WriterPc.waiting? {H : Type} : WriterPc H → Option H
  | .commit q => some q.hash
  | .uncache q => some q.hash
  | _ => none

/-- The item that a writer enters next. -/
def WriterPc.installing? {H : Type} : WriterPc H → Option H
  | .install q => some q.hash
  | _ => none

/-- The hash a writer is busy with. -/
def WriterPc.hash? {H : Type} : WriterPc H → Option H
  | .popleft => none
  | .commit q => some q.hash
  | .uncache q => some q.hash
  | .install q => some q.hash
  | .updateIndex q _ => some q.hash
  | .readCache q => some q.hash
  | .ended => none

namespace MainPc

/-- The blocks listed so far. -/
def blkList {H : Type} : MainPc H → List (FileBlock H)
  | .idle => []
  | .loop blkList _ => blkList
  | .chunk blkList _ _ _ => blkList

/-- The item of a new hash. -/
def item? {H : Type} : MainPc H → Option (QueuedWrite H)
  | .chunk _ _ _ (.writeReadCache q) => some q
  | .chunk _ _ _ (.append q) => some q
  | .chunk _ _ _ (.wait q) => some q
  | .chunk _ _ _ (.placeholder q) => some q
  | _ => none

/-- What the main task does next with its new hash. -/
def producer {H : Type} : MainPc H → Producer H
  | .chunk _ _ _ (.writeReadCache q) => .caching q.hash
  | .chunk _ _ _ (.append q) => .queueing q.hash
  | .chunk _ _ _ (.wait q) => .queueing q.hash
  | .chunk _ _ _ (.placeholder q) => .entering q.hash
  | _ => .other

/-- The chunk of the round. -/
def chunk? {H : Type} : MainPc H → Option Bytes
  | .chunk _ c _ _ => some c
  | _ => none

end MainPc

namespace Threads

/-- The hashes between `del write_read_cache[q['hash']]` and `hash_table[q['hash']] = b`. -/
def installing {H : Type} (s : Threads H) : List H := s.writers.filterMap WriterPc.installing?

/-- The threads as a producer and consumers: a hash is located when the datastore that its entry
    names has a record of it. -/
def handoff (s : Threads H) : Handoff H where
  waiting := s.shared.writeBuffer.d.map QueuedWrite.hash ++ s.writers.filterMap WriterPc.waiting?
  installing := s.installing
  known h := s.shared.hashTable.contains h = true
  located h := s.shared.located h = true
  cached h := (s.shared.writeReadCache.get? h).isSome = true
  producer := s.main.producer
  listed := s.main.blkList.map FileBlock.hash
  returned := s.returned

/-- Nobody works on the hash. -/
structure Finished (P : Packages H) (s : Threads H) (h : H) : Prop where
  main : ∀ c, s.main.chunk? = some c → P.xxh3_64 c ≠ h
  queue : ∀ q ∈ s.shared.writeBuffer.d, q.hash ≠ h
  writers : ∀ w ∈ s.writers, w.hash? ≠ some h

end Threads

/-! ## The condition -/

/-- The reference that `update_index` writes back does not lose the datastore of the bytes. -/
def IndexPc.inTime (s : Shared H) (idx : H) : IndexPc → Bool
  | .store a => !s.located idx || s.objectHolds a idx
  | _ => true

/-- The moves that keep the two windows closed. -/
def Threads.inTime (P : Packages H) (s : Threads H) : Move → Bool
  | .dedup _ => true
  | .main =>
    match s.main with
    | .loop blkList [] => blkList.all fun b =>
        s.shared.located b.hash || !s.installing.contains b.hash
    | .chunk _ c _ (.updateIndex pc) => pc.inTime s.shared (P.xxh3_64 c)
    | .chunk _ _ _ (.placeholder q) =>
      !s.shared.located q.hash || s.shared.holds (placeholder q).chunk q.hash
    | _ => true
  | .writer i _ =>
    match s.writers[i]? with
    | some (.uncache q) => !s.returned.contains q.hash || s.shared.located q.hash
    | some (.updateIndex q pc) => pc.inTime s.shared q.hash
    | _ => true

/-! ## The invariant -/

/-- Before anything runs: nothing is queued or cached, and the entries read from disk name the
    datastores that have their bytes. -/
structure Threads.Start (P : Packages H) (s : Threads H) : Prop where
  main : s.main = .idle
  writers : ∀ w ∈ s.writers, w = .popleft
  returned : s.returned = []
  queue : s.shared.writeBuffer.d = []
  uncached : ∀ h, s.shared.writeReadCache.get? h = none
  numbered : Numbered s.shared.datastore
  records : ∀ j h d, stored s.shared.datastore j h = some d → Payload P h d
  located : ∀ h a, s.shared.hashTable.get? h = some a → s.shared.located h = true

/-- What a writer holds: a payload to commit, a hash that the datastore named has, or a hash that is
    in the table. -/
def WriterPc.Good (P : Packages H) (s : Shared H) : WriterPc H → Prop
  | .popleft => True
  | .commit q => Payload P q.hash q.payload
  | .uncache q => s.holds q.chunk q.hash = true
  | .install q => s.holds q.chunk q.hash = true
  | .updateIndex q _ => s.hashTable.contains q.hash = true
  | .readCache _ => True
  | .ended => True

/-- What the main task holds: a hash that is in the table, or the item of a new one. -/
def ChunkPc.Good (P : Packages H) (s : Shared H) (c : Bytes) : ChunkPc H → Prop
  | .test => True
  | .fileBlock => s.hashTable.contains (P.xxh3_64 c) = true
  | .readCache => s.hashTable.contains (P.xxh3_64 c) = true
  | .updateIndex _ => s.hashTable.contains (P.xxh3_64 c) = true
  | .writeReadCache q => P.xxh3_64 q.data = q.hash ∧ Payload P q.hash q.payload
  | .append q => Payload P q.hash q.payload
  | .wait q => Payload P q.hash q.payload
  | .placeholder _ => True

def MainPc.Good (P : Packages H) (s : Shared H) : MainPc H → Prop
  | .idle => True
  | .loop _ _ => True
  | .chunk _ c _ pc => pc.Good P s c

/-- The data that the threads share. -/
structure Shared.Good (P : Packages H) (s : Shared H) : Prop where
  numbered : Numbered s.datastore
  records : ∀ j h d, stored s.datastore j h = some d → Payload P h d
  hashed : ∀ h d, s.writeReadCache.get? h = some d → P.xxh3_64 d = h
  queued : ∀ q ∈ s.writeBuffer.d, Payload P q.hash q.payload

/-- **Where the bytes of each hash are.** -/
structure Inv (P : Packages H) (s : Threads H) : Prop where
  sound : s.handoff.Sound
  shared : s.shared.Good P
  main : s.main.Good P s.shared
  writers : ∀ w ∈ s.writers, w.Good P s.shared

/-- Every hash in the table and every record stay. -/
structure Shared.Grows (s s' : Shared H) : Prop where
  known : ∀ h, s.hashTable.contains h = true → s'.hashTable.contains h = true
  holds : ∀ chunk h, s.holds chunk h = true → s'.holds chunk h = true

variable {s s' : Shared H}

theorem WriterPc.Good.grow {w : WriterPc H} (h : w.Good P s) (hg : s.Grows s') : w.Good P s' := by
  cases w with
  | uncache q => exact hg.holds _ _ h
  | install q => exact hg.holds _ _ h
  | updateIndex q pc => exact hg.known _ h
  | _ => exact h

theorem MainPc.Good.grow {m : MainPc H} (h : m.Good P s) (hg : s.Grows s') : m.Good P s' := by
  cases m with
  | chunk blkList c ch pc =>
    cases pc with
    | fileBlock => exact hg.known _ h
    | readCache => exact hg.known _ h
    | updateIndex pc => exact hg.known _ h
    | _ => exact h
  | _ => exact h

/-! ## What one statement does to the bytes -/

theorem contains_set {κ α : Type} [DecidableEq κ] (d : Dict κ α) (k x : κ) (a : α) :
    (d.set k a).contains x = true ↔ x = k ∨ d.contains x = true := by
  unfold Dict.contains
  rw [Dict.get?_set]
  by_cases h : k = x
  · simp [h]
  · simp [h, Ne.symm h]

/-- A table over the same datastores that has other references. -/
theorem Shared.Grows.of_table (hds : s'.datastore = s.datastore)
    (hk : ∀ h, s.hashTable.contains h = true → s'.hashTable.contains h = true) : s.Grows s' := by
  refine ⟨hk, fun chunk h hh => ?_⟩
  unfold Shared.holds at hh ⊢
  rwa [hds]

theorem Shared.Grows.refl (s : Shared H) : s.Grows s := ⟨fun _ h => h, fun _ _ h => h⟩

/-- The objects name the same datastores. -/
theorem located_of_chunks (s s' : Shared H) (hds : s'.datastore = s.datastore) (ht : s'.hashTable = s.hashTable)
    (ho : ∀ a : Nat, (s'.objects[a]?).map Block.chunk = (s.objects[a]?).map Block.chunk) (h : H) :
    s'.located h = s.located h := by
  unfold Shared.located
  rw [ht]
  cases s.hashTable.get? h with
  | none => rfl
  | some a =>
    have hc := ho a
    dsimp only
    unfold Shared.objectHolds Shared.holds
    rw [hds]
    cases hs : s.objects[a]? with
    | none =>
      rw [hs, Option.map_none, Option.map_eq_none_iff] at hc
      rw [hc]
    | some b =>
      rw [hs, Option.map_some] at hc
      obtain ⟨b', hb', he⟩ := Option.map_eq_some_iff.mp hc
      rw [hb']
      dsimp only
      rw [he]

/-- `hash_table[k] = b` for a new object puts `k` where the object says. -/
theorem enter_located_self (s : Shared H) (k : H) (b : Block H) :
    (s.enter k b).located k = s.holds b.chunk k := by
  simp [Shared.located, Shared.enter, Shared.objectHolds, Shared.holds]

/-- The other hashes stay where they are. -/
theorem enter_located_ne {s : Shared H} {k h : H} (b : Block H) (hne : h ≠ k)
    (hl : s.located h = true) : (s.enter k b).located h = true := by
  obtain ⟨b', hentry, hh⟩ := Shared.located_iff.mp hl
  refine Shared.located_iff.mpr ⟨b', ?_, hh⟩
  unfold Shared.entry? at hentry ⊢
  obtain ⟨a, ha, hb'⟩ := Option.bind_eq_some_iff.mp hentry
  have hlt : a < s.objects.length := (List.getElem?_eq_some_iff.mp hb').1
  simp [Shared.enter, Ne.symm hne, ha, List.getElem?_append_left hlt, hb']

theorem enter_grows (s : Shared H) (k : H) (b : Block H) : s.Grows (s.enter k b) :=
  .of_table rfl fun h hh => (contains_set s.hashTable k h s.objects.length).mpr (.inr hh)

/-- **One statement of `update_index`** for a hash in the table, when it comes in time. -/
theorem IndexPc.exec_spec {pc : IndexPc} {idx : H} (hk : s.hashTable.contains idx = true)
    (hin : pc.inTime s idx = true) :
    ∃ pc' s', pc.exec idx s = some (pc', s') ∧ s'.datastore = s.datastore ∧
      s'.writeReadCache = s.writeReadCache ∧ s'.writeBuffer = s.writeBuffer ∧
      (∀ h, s'.hashTable.contains h = true ↔ s.hashTable.contains h = true) ∧
      ∀ h, s.located h = true → s'.located h = true := by
  obtain ⟨a, ha⟩ := (Dict.contains_iff _).mp hk
  cases pc with
  | fetch => exact ⟨.count a, s, by simp [IndexPc.exec, ha], rfl, rfl, rfl, fun _ => .rfl, fun _ h => h⟩
  | count a =>
    refine ⟨_, _, rfl, rfl, rfl, rfl, fun _ => .rfl, fun h hl => ?_⟩
    refine Eq.trans ?_ hl
    apply located_of_chunks
    · rfl
    · rfl
    · intro x
      dsimp only
      rw [List.getElem?_modify]
      cases s.objects[x]? with
      | none => simp
      | some b => by_cases e : a = x <;> simp [e]
  | store a =>
    refine ⟨_, _, rfl, rfl, rfl, rfl, fun h => ?_, fun h hl => ?_⟩
    · rw [contains_set]
      exact ⟨fun e => e.elim (fun e => e ▸ hk) id, .inr⟩
    · by_cases e : idx = h
      · subst e
        have hobj : s.objectHolds a idx = true := by
          unfold IndexPc.inTime at hin
          rw [hl] at hin
          exact hin
        simpa [Shared.located, Shared.objectHolds, Shared.holds] using hobj
      · unfold Shared.located at hl ⊢
        dsimp only
        rw [Dict.get?_set_ne _ _ e]
        exact hl
  | done => exact ⟨.done, s, rfl, rfl, rfl, rfl, fun _ => .rfl, fun _ h => h⟩

/-- **A commit** puts the payload into the datastore that the item then names. -/
theorem commitData_spec {cfg : Config} {env : CommitEnv} {q q' : QueuedWrite H}
    (hn : Numbered s.datastore) (h : s.commitData cfg env q = some (q', s')) :
    q'.hash = q.hash ∧ s'.hashTable = s.hashTable ∧ s'.objects = s.objects ∧
      s'.writeReadCache = s.writeReadCache ∧ s'.writeBuffer = s.writeBuffer ∧
      s'.holds q'.chunk q.hash = true ∧
      ∃ j, PutRecord s.datastore s'.datastore j q.hash q.payload := by
  have hw := writeData_spec cfg.writeSpread env.primary q q.payload false s.datastore
  unfold Shared.commitData at h
  unfold Py.wp at hw
  generalize hr : writeData cfg.writeSpread env.primary q q.payload false s.datastore = r at h hw
  obtain ⟨_ | q₁, ds⟩ := r
  · cases h
  · obtain ⟨j, chunk, block, hput, hchunk, hq₁⟩ := hw
    replace hq₁ : q₁ = { q with chunk := chunk, block := block } := hq₁
    have hj : chunk = j := hn j chunk hchunk
    have hlt : j < ds.length := by
      rw [hput.length]
      have := (List.getElem?_eq_some_iff.mp hchunk).1
      simpa using this
    have hholds : ((getAt? ds chunk).bind fun d => d.db.get? q.hash).isSome = true := by
      have hst := hput.stored j q.hash
      rw [if_pos ⟨rfl, rfl⟩] at hst
      rw [hj, getAt?_natCast]
      unfold stored at hst
      rw [hst]
      rfl
    dsimp only at h
    split at h
    · generalize hm : writeData cfg.writeSpread env.mirror q₁ q₁.payload true s.mirrorDatastore = r at h
      have hw' := writeData_spec cfg.writeSpread env.mirror q₁ q₁.payload true s.mirrorDatastore
      unfold Py.wp at hw'
      rw [hm] at hw'
      obtain ⟨_ | q₂, mds⟩ := r
      · cases h
      · obtain ⟨_, _, _, _, _, hq₂⟩ := hw'
        replace hq₂ : q₂ = q₁ := hq₂
        cases h
        subst hq₂ hq₁
        exact ⟨rfl, rfl, rfl, rfl, rfl, hholds, j, hput⟩
    · cases h
      subst hq₁
      exact ⟨rfl, rfl, rfl, rfl, rfl, hholds, j, hput⟩

theorem PutRecord.holds {j : Nat} {k : H} {data : Bytes}
    (p : PutRecord s.datastore s'.datastore j k data) {chunk : Int} {h : H}
    (hh : s.holds chunk h = true) : s'.holds chunk h = true := by
  obtain ⟨i, d, hi, hd⟩ := Shared.holds_iff.mp hh
  refine Shared.holds_iff.mpr ?_
  rw [p.length]
  by_cases e : i = j ∧ k = h
  · exact ⟨i, data, hi, by rw [p.stored, if_pos e]⟩
  · exact ⟨i, d, hi, by rw [p.stored, if_neg e, hd]⟩

/-! ## The main task -/

/-- Nothing that the invariant speaks of differs. -/
theorem Inv.quiet {m m' : MainPc H} {ws : List (WriterPc H)} {returned : List H}
    (hi : Inv P ⟨s, m, ws, returned⟩) (hds : s'.datastore = s.datastore)
    (hw : s'.writeReadCache = s.writeReadCache) (hq : s'.writeBuffer = s.writeBuffer)
    (hk : ∀ h, s'.hashTable.contains h = true ↔ s.hashTable.contains h = true)
    (hl : ∀ h, s.located h = true → s'.located h = true)
    (hp : m'.producer = m.producer) (hb : m'.blkList = m.blkList) (hm : m'.Good P s') :
    Inv P ⟨s', m', ws, returned⟩ := by
  have hg : s.Grows s' := .of_table hds fun h => (hk h).mpr
  refine ⟨?_, ⟨?_, ?_, ?_, ?_⟩, hm, fun w hw => (hi.writers w hw).grow hg⟩
  · have hstep := Handoff.Step.rearrange (s := (⟨s, m, ws, returned⟩ : Threads H).handoff) _ _
      (fun h => s'.hashTable.contains h = true) (fun h => s'.located h = true) (.refl _) (.refl _)
      hk hl
    have hs := hi.sound.step hstep
    show Handoff.Sound ⟨_, _, _, _, _, m'.producer, m'.blkList.map FileBlock.hash, returned⟩
    dsimp only
    rw [hw, hq, hp, hb]
    exact hs
  · rw [hds]; exact hi.shared.numbered
  · rw [hds]; exact hi.shared.records
  · rw [hw]; exact hi.shared.hashed
  · rw [hq]; exact hi.shared.queued

/-- `write_buffer.append(q)`. -/
theorem Inv.append {blkList : List (FileBlock H)} {c : Bytes} {ch : List Bytes}
    {pc : ChunkPc H} {q : QueuedWrite H} {ws : List (WriterPc H)} {returned : List H}
    (hi : Inv P ⟨s, .chunk blkList c ch pc, ws, returned⟩) (hpc : pc = .append q ∨ pc = .wait q) :
    Inv P ⟨{ s with writeBuffer := s.writeBuffer.append q }, .chunk blkList c ch (.placeholder q),
      ws, returned⟩ := by
  have hproducer : (MainPc.chunk blkList c ch pc).producer = .queueing q.hash := by
    rcases hpc with rfl | rfl <;> rfl
  have hpayload : Payload P q.hash q.payload := by
    have h := hi.main
    rcases hpc with rfl | rfl <;> exact h
  refine ⟨?_, ⟨hi.shared.numbered, hi.shared.records, hi.shared.hashed, fun q' hq' => ?_⟩, trivial,
    hi.writers⟩
  · refine hi.sound.step (Handoff.Step.queue q.hash _ hproducer ?_)
    show ((s.writeBuffer.d ++ [q]).map QueuedWrite.hash ++ ws.filterMap WriterPc.waiting?).Perm _
    rw [List.map_append, List.append_assoc]
    exact List.perm_middle
  · rcases List.mem_append.mp hq' with h | h
    · exact hi.shared.queued q' h
    · rw [List.mem_singleton.mp h]
      exact hpayload

/-- One statement of a round of `dedup`. -/
theorem Inv.round {blkList : List (FileBlock H)} {c : Bytes} {ch : List Bytes}
    {pc : ChunkPc H} {ws : List (WriterPc H)} {returned : List H}
    (hi : Inv P ⟨s, .chunk blkList c ch pc, ws, returned⟩)
    (hin : Threads.inTime P ⟨s, .chunk blkList c ch pc, ws, returned⟩ .main = true) :
    Inv P ⟨(chunkStmt P blkList c ch pc s).2, (chunkStmt P blkList c ch pc s).1, ws, returned⟩ := by
  cases pc with
  | test =>
    by_cases hk : s.hashTable.contains (P.xxh3_64 c) = true
    · rw [show chunkStmt P blkList c ch .test s = (.chunk blkList c ch .fileBlock, s) from if_pos hk]
      exact hi.quiet rfl rfl rfl (fun _ => .rfl) (fun _ h => h) rfl rfl hk
    · rw [show chunkStmt P blkList c ch .test s = _ from if_neg hk]
      refine ⟨?_, hi.shared, ⟨rfl, c, rfl, rfl⟩, hi.writers⟩
      have hs := hi.sound.step (Handoff.Step.announce (P.xxh3_64 c) rfl hk)
      show Handoff.Sound ⟨_, _, _, _, _, _, (blkList ++ [_]).map FileBlock.hash, returned⟩
      rw [List.map_append]
      exact hs
  | fileBlock =>
    have hk : s.hashTable.contains (P.xxh3_64 c) = true := hi.main
    cases hb : s.entry? (P.xxh3_64 c) with
    | some b =>
      rw [show chunkStmt P blkList c ch .fileBlock s =
        (.chunk (blkList ++ [⟨P.xxh3_64 c, b.size, b.deflatedSize⟩]) c ch .readCache, s) by
          simp [chunkStmt, hb]]
      refine ⟨?_, hi.shared, hk, hi.writers⟩
      have hs := hi.sound.step (Handoff.Step.list (P.xxh3_64 c) hk)
      show Handoff.Sound ⟨_, _, _, _, _, _, (blkList ++ [_]).map FileBlock.hash, returned⟩
      rw [List.map_append]
      exact hs
    | none =>
      rw [show chunkStmt P blkList c ch .fileBlock s = (.idle, s) by simp [chunkStmt, hb]]
      exact ⟨hi.sound.step (.abandon rfl), hi.shared, trivial, hi.writers⟩
  | readCache => exact hi.quiet rfl rfl rfl (fun _ => .rfl) (fun _ h => h) rfl rfl hi.main
  | updateIndex pc =>
    have hk : s.hashTable.contains (P.xxh3_64 c) = true := hi.main
    obtain ⟨pc', s', hrun, hds, hw, hq, hknown, hl⟩ := IndexPc.exec_spec hk hin
    have hk' : s'.hashTable.contains (P.xxh3_64 c) = true := (hknown _).mpr hk
    cases pc' with
    | done =>
      rw [show chunkStmt P blkList c ch (.updateIndex pc) s = (.loop blkList ch, s') by
        simp [chunkStmt, hrun]]
      exact hi.quiet hds hw hq hknown hl rfl rfl trivial
    | _ =>
      simp only [chunkStmt, hrun]
      exact hi.quiet hds hw hq hknown hl rfl rfl hk'
  | writeReadCache q =>
    obtain ⟨hhash, hpayload⟩ := hi.main
    refine ⟨hi.sound.step (.cache q.hash _ rfl fun h => ?_),
      ⟨hi.shared.numbered, hi.shared.records, fun h d hd => ?_, hi.shared.queued⟩, hpayload,
      fun w hw => (hi.writers w hw).grow (.of_table rfl fun _ h => h)⟩
    · exact contains_set s.writeReadCache q.hash h q.data
    · exact s.writeReadCache.forall_set hi.shared.hashed hhash h d hd
  | append q =>
    by_cases h : s.writeBuffer.d.length < s.writeBuffer.capacity
    · rw [show chunkStmt P blkList c ch (.append q) s = _ from if_pos h]
      exact hi.append (.inl rfl)
    · rw [show chunkStmt P blkList c ch (.append q) s = _ from if_neg h]
      exact hi.quiet rfl rfl rfl (fun _ => .rfl) (fun _ h => h) rfl rfl hi.main
  | wait q =>
    by_cases h : s.writeBuffer.d.length ≥ s.writeBuffer.capacity / 5
    · rw [show chunkStmt P blkList c ch (.wait q) s = _ from if_pos h]
      exact hi
    · rw [show chunkStmt P blkList c ch (.wait q) s = _ from if_neg h]
      exact hi.append (.inr rfl)
  | placeholder q =>
    have hg := enter_grows s q.hash (placeholder q)
    refine ⟨hi.sound.step (.enter q.hash _ _ rfl
      (fun h => contains_set s.hashTable q.hash h s.objects.length) fun h hl => ?_),
      ⟨hi.shared.numbered, hi.shared.records, hi.shared.hashed, hi.shared.queued⟩, trivial,
      fun w hw => (hi.writers w hw).grow hg⟩
    by_cases e : h = q.hash
    · subst e
      show (s.enter q.hash (VeratyFS.placeholder q)).located q.hash = true
      rw [enter_located_self]
      replace hin : (!s.located q.hash || s.holds (placeholder q).chunk q.hash) = true := hin
      replace hl : s.located q.hash = true := hl
      rw [hl] at hin
      exact hin
    · exact enter_located_ne _ e hl

/-- The statements of the main task. -/
theorem Inv.mainStmt {t : Threads H} (hi : Inv P t) (hin : t.inTime P .main = true) :
    Inv P (t.mainStmt P) := by
  obtain ⟨s, m, ws, returned⟩ := t
  cases m with
  | idle => exact hi
  | chunk blkList c ch pc => exact hi.round hin
  | loop blkList ch =>
    cases ch with
    | cons c ch =>
      exact hi.quiet rfl rfl rfl (fun _ => .rfl) (fun _ h => h) rfl rfl trivial
    | nil =>
      refine ⟨hi.sound.step (.handOver rfl fun h hh hinst => ?_), hi.shared, trivial, hi.writers⟩
      obtain ⟨b, hb, rfl⟩ := List.mem_map.mp hh
      have hall := List.all_eq_true.mp hin b hb
      rcases Bool.or_eq_true_iff.mp hall with hl | hno
      · exact hl
      · have hc : (Threads.installing ⟨s, .loop blkList [], ws, returned⟩).contains b.hash = true :=
          List.contains_iff_mem.mpr hinst
        rw [hc] at hno
        cases hno

/-! ## The writers -/

variable {m : MainPc H} {ws : List (WriterPc H)} {returned : List H} {i : Nat} {w w' : WriterPc H}

/-- The `i`-th writer goes from one statement to another. -/
theorem Inv.writerGoes (hi : Inv P ⟨s, m, ws, returned⟩) (hg : s.Grows s') (hs : s'.Good P)
    (hgood : w'.Good P s')
    (hstep : Handoff.Step (⟨s, m, ws, returned⟩ : Threads H).handoff
      (⟨s', m, ws.set i w', returned⟩ : Threads H).handoff) :
    Inv P ⟨s', m, ws.set i w', returned⟩ := by
  refine ⟨hi.sound.step hstep, hs, hi.main.grow hg, fun x hx => ?_⟩
  rcases List.mem_or_eq_of_mem_set hx with h | rfl
  · exact (hi.writers x h).grow hg
  · exact hgood

/-- The same with the block in the same stage. -/
theorem Inv.writerQuiet (hi : Inv P ⟨s, m, ws, returned⟩) (hw : ws[i]? = some w)
    (hwaiting : w'.waiting? = w.waiting?) (hinstalling : w'.installing? = w.installing?)
    (hg : s.Grows s') (hs : s'.Good P) (hgood : w'.Good P s')
    (hcache : s'.writeReadCache = s.writeReadCache) (hqueue : s'.writeBuffer = s.writeBuffer)
    (hk : ∀ h, s'.hashTable.contains h = true ↔ s.hashTable.contains h = true)
    (hl : ∀ h, s.located h = true → s'.located h = true) :
    Inv P ⟨s', m, ws.set i w', returned⟩ := by
  refine hi.writerGoes hg hs hgood ?_
  have hstep := Handoff.Step.rearrange (s := (⟨s, m, ws, returned⟩ : Threads H).handoff) _ _
    (fun h => s'.hashTable.contains h = true) (fun h => s'.located h = true) (.refl _) (.refl _)
    hk hl
  show Handoff.Step _ ⟨s'.writeBuffer.d.map QueuedWrite.hash ++
    (ws.set i w').filterMap WriterPc.waiting?, (ws.set i w').filterMap WriterPc.installing?,
    _, _, fun h => (s'.writeReadCache.get? h).isSome = true, _, _, _⟩
  rw [hcache, hqueue, filterMap_set_same hw hwaiting, filterMap_set_same hw hinstalling]
  exact hstep

/-- `write_buffer.popleft()` that finds a block. -/
theorem Inv.popleft {q : QueuedWrite H} {rest : WriteCache (QueuedWrite H)}
    (hi : Inv P ⟨s, m, ws, returned⟩) (hw : ws[i]? = some .popleft)
    (hpop : s.writeBuffer.popleft = some (q, rest)) :
    Inv P ⟨{ s with writeBuffer := rest }, m, ws.set i (.commit q), returned⟩ := by
  have hd : s.writeBuffer.d = q :: rest.d := (WriteCache.popleft_eq_some hpop).1
  have hqueued := hi.shared.queued
  rw [hd] at hqueued
  refine hi.writerGoes (.of_table rfl fun _ h => h)
    ⟨hi.shared.numbered, hi.shared.records, hi.shared.hashed,
      fun q' h => hqueued q' (List.mem_cons_of_mem _ h)⟩
    (hqueued q List.mem_cons_self) ?_
  refine .rearrange _ _ _ _ ?_ (.of_eq (filterMap_set_same hw rfl)) (fun _ => .rfl) fun _ h => h
  have htaken : ((ws.set i (.commit q)).filterMap WriterPc.waiting?).Perm
      (q.hash :: ws.filterMap WriterPc.waiting?) := filterMap_set_some hw rfl rfl
  show (rest.d.map QueuedWrite.hash ++ (ws.set i (.commit q)).filterMap WriterPc.waiting?).Perm
    (s.writeBuffer.d.map QueuedWrite.hash ++ ws.filterMap WriterPc.waiting?)
  rw [hd, List.map_cons]
  exact (htaken.append_left _).trans List.perm_middle

/-- `commit_data`. -/
theorem Inv.commit {env : CommitEnv} {q q' : QueuedWrite H} (hi : Inv P ⟨s, m, ws, returned⟩)
    (hw : ws[i]? = some (.commit q)) (hc : s.commitData cfg env q = some (q', s')) :
    Inv P ⟨s', m, ws.set i (.uncache q'), returned⟩ := by
  obtain ⟨hhash, htable, hobjects, hcache, hqueue, hholds, j, hput⟩ :=
    commitData_spec hi.shared.numbered hc
  have hpayload : Payload P q.hash q.payload := hi.writers _ (List.mem_of_getElem? hw)
  have hg : s.Grows s' := ⟨fun h hk => by rw [htable]; exact hk, fun _ _ hh => hput.holds hh⟩
  refine hi.writerQuiet hw (by simp [WriterPc.waiting?, hhash]) rfl hg ⟨?_, ?_, ?_, ?_⟩ ?_ hcache
    hqueue (fun h => by rw [htable]) fun h hl => ?_
  · intro x chunk hx
    rw [hput.chunks] at hx
    exact hi.shared.numbered x chunk hx
  · intro x h d hd
    rw [hput.stored] at hd
    split at hd
    · rename_i e
      cases hd
      rw [← e.2]
      exact hpayload
    · exact hi.shared.records x h d hd
  · rw [hcache]; exact hi.shared.hashed
  · rw [hqueue]; exact hi.shared.queued
  · show s'.holds q'.chunk q'.hash = true
    rw [hhash]
    exact hholds
  · obtain ⟨b, hb, hh⟩ := Shared.located_iff.mp hl
    refine Shared.located_iff.mpr ⟨b, ?_, hput.holds hh⟩
    unfold Shared.entry? at hb ⊢
    rw [htable, hobjects]
    exact hb

/-- `del write_read_cache[q['hash']]`. -/
theorem Inv.uncache {q : QueuedWrite H} (hi : Inv P ⟨s, m, ws, returned⟩)
    (hw : ws[i]? = some (.uncache q)) (hin : q.hash ∈ returned → s.located q.hash = true) :
    Inv P ⟨{ s with writeReadCache := s.writeReadCache.erase q.hash }, m, ws.set i (.install q),
      returned⟩ := by
  have hholds : s.holds q.chunk q.hash = true := hi.writers _ (List.mem_of_getElem? hw)
  have herase : ∀ h, (s.writeReadCache.erase q.hash).get? h =
      if q.hash = h then none else s.writeReadCache.get? h := fun h => Dict.get?_erase _ _ _
  refine hi.writerGoes (.of_table rfl fun _ h => h)
    ⟨hi.shared.numbered, hi.shared.records, fun h d hd => ?_, hi.shared.queued⟩ hholds ?_
  · replace hd : (s.writeReadCache.erase q.hash).get? h = some d := hd
    rw [herase] at hd
    split at hd
    · cases hd
    · exact hi.shared.hashed h d hd
  · refine .uncache q.hash _ _ _ ?_ (filterMap_set_some hw rfl rfl) (fun h => ?_) hin
    · have hdropped : (ws.filterMap WriterPc.waiting?).Perm
          (q.hash :: (ws.set i (.install q)).filterMap WriterPc.waiting?) :=
        filterMap_set_none hw rfl rfl
      exact (hdropped.append_left _).trans List.perm_middle
    · show ((s.writeReadCache.erase q.hash).get? h).isSome = true ↔
        (s.writeReadCache.get? h).isSome = true ∧ h ≠ q.hash
      rw [herase]
      by_cases e : q.hash = h
      · simp [e]
      · simp [e, Ne.symm e]

/-- `hash_table[q['hash']] = b`. -/
theorem Inv.install {q : QueuedWrite H} (hi : Inv P ⟨s, m, ws, returned⟩)
    (hw : ws[i]? = some (.install q)) :
    Inv P ⟨s.enter q.hash (committedEntry q), m, ws.set i (.updateIndex q .fetch), returned⟩ := by
  have hholds : s.holds q.chunk q.hash = true := hi.writers _ (List.mem_of_getElem? hw)
  have hknown : ∀ h, (s.enter q.hash (committedEntry q)).hashTable.contains h = true ↔
      h = q.hash ∨ s.hashTable.contains h = true := fun h => contains_set _ _ _ _
  refine hi.writerGoes (enter_grows s _ _)
    ⟨hi.shared.numbered, hi.shared.records, hi.shared.hashed, hi.shared.queued⟩
    ((hknown _).mpr (.inl rfl)) ?_
  refine .install q.hash _ _ _ _ (.append_left _ (.of_eq (filterMap_set_same hw rfl)))
    (filterMap_set_none hw rfl rfl) hknown fun h hl => ?_
  by_cases e : h = q.hash
  · rw [e]
    show (s.enter q.hash (committedEntry q)).located q.hash = true
    rw [enter_located_self]
    exact hholds
  · exact enter_located_ne _ e (hl.resolve_left e)

/-- One statement of a writer. -/
theorem Inv.writerStmt {env : CommitEnv} (hi : Inv P ⟨s, m, ws, returned⟩) (hw : ws[i]? = some w)
    (hin : Threads.inTime P ⟨s, m, ws, returned⟩ (.writer i env) = true) :
    Inv P ⟨(writerStmt cfg env w s).2, m, ws.set i (writerStmt cfg env w s).1, returned⟩ := by
  have hgood : w.Good P s := hi.writers w (List.mem_of_getElem? hw)
  have hsame : ∀ w', w'.waiting? = w.waiting? → w'.installing? = w.installing? → w'.Good P s →
      Inv P ⟨s, m, ws.set i w', returned⟩ := fun w' h₁ h₂ h₃ =>
    hi.writerQuiet hw h₁ h₂ (.refl s) hi.shared h₃ rfl rfl (fun _ => .rfl) fun _ h => h
  unfold Threads.inTime at hin
  dsimp only at hin
  rw [hw] at hin
  cases w with
  | popleft =>
    cases hpop : s.writeBuffer.popleft with
    | none =>
      simp only [VeratyFS.writerStmt, hpop]
      exact hsame .popleft rfl rfl trivial
    | some p =>
      simp only [VeratyFS.writerStmt, hpop]
      exact hi.popleft hw hpop
  | commit q =>
    cases hc : s.commitData cfg env q with
    | none =>
      simp only [VeratyFS.writerStmt, hc]
      exact hsame (.commit q) rfl rfl hgood
    | some p =>
      simp only [VeratyFS.writerStmt, hc]
      exact hi.commit hw hc
  | uncache q =>
    refine hi.uncache hw fun h => ?_
    rcases Bool.or_eq_true_iff.mp hin with hno | hl
    · have hc : returned.contains q.hash = true := List.contains_iff_mem.mpr h
      rw [hc] at hno
      cases hno
    · exact hl
  | install q => exact hi.install hw
  | updateIndex q pc =>
    obtain ⟨pc', s', hrun, hds, hcache, hqueue, hknown, hl⟩ := IndexPc.exec_spec hgood hin
    have hg : s.Grows s' := .of_table hds fun h => (hknown h).mpr
    have hs : s'.Good P := by
      refine ⟨?_, ?_, ?_, ?_⟩
      · rw [hds]; exact hi.shared.numbered
      · rw [hds]; exact hi.shared.records
      · rw [hcache]; exact hi.shared.hashed
      · rw [hqueue]; exact hi.shared.queued
    cases pc' with
    | done =>
      simp only [VeratyFS.writerStmt, hrun]
      exact hi.writerQuiet hw rfl rfl hg hs trivial hcache hqueue hknown hl
    | _ =>
      simp only [VeratyFS.writerStmt, hrun]
      exact hi.writerQuiet hw rfl rfl hg hs ((hknown _).mpr hgood) hcache hqueue hknown hl
  | readCache q =>
    by_cases h : q.compressedData.length ≤ cfg.smallBlockLimit
    · simp only [VeratyFS.writerStmt, if_pos h]
      exact hi.writerQuiet hw rfl rfl (.of_table rfl fun _ h => h)
        ⟨hi.shared.numbered, hi.shared.records, hi.shared.hashed, hi.shared.queued⟩ trivial rfl rfl
        (fun _ => .rfl) fun _ h => h
    · simp only [VeratyFS.writerStmt, if_neg h]
      exact hsame .popleft rfl rfl trivial
  | ended => exact hsame .ended rfl rfl trivial

/-! ## Every interleaving whose moves come in time -/

/-- **Each move keeps the invariant.** -/
theorem Inv.exec {t : Threads H} (hi : Inv P t) {e : Move} (hin : t.inTime P e = true) :
    Inv P (Threads.exec cfg P e t) := by
  obtain ⟨s, m, ws, returned⟩ := t
  cases e with
  | dedup data =>
    cases m with
    | idle => exact hi.quiet rfl rfl rfl (fun _ => .rfl) (fun _ h => h) rfl rfl trivial
    | loop blkList ch => exact hi
    | chunk blkList c ch pc => exact hi
  | main => exact hi.mainStmt hin
  | writer i env =>
    cases hw : ws[i]? with
    | none =>
      simp only [Threads.exec, hw]
      exact hi
    | some w =>
      simp only [Threads.exec, hw]
      exact hi.writerStmt hw hin

theorem Threads.Start.inv {t : Threads H} (h : t.Start P) : Inv P t := by
  obtain ⟨s, m, ws, returned⟩ := t
  obtain ⟨hmain, hws, hret, hqueue, huncached, hnumbered, hrecords, hlocated⟩ := h
  dsimp only at hmain hws hret hqueue huncached hnumbered hrecords hlocated
  subst hmain hret
  have hwaiting : s.writeBuffer.d.map QueuedWrite.hash ++ ws.filterMap WriterPc.waiting? = [] := by
    rw [hqueue]
    exact List.filterMap_eq_nil_iff.mpr fun w hw => by rw [hws w hw]; rfl
  have hinstalling : ws.filterMap WriterPc.installing? = [] :=
    List.filterMap_eq_nil_iff.mpr fun w hw => by rw [hws w hw]; rfl
  have hsound : (⟨[], [], fun h => s.hashTable.contains h = true, fun h => s.located h = true,
      fun h => (s.writeReadCache.get? h).isSome = true, .other, [], []⟩ : Handoff H).Sound := by
    refine ⟨List.nodup_nil, fun h => ?_, ?_, ?_, ?_, fun h hk => ?_, ?_, ?_⟩
    · simp [huncached]
    · rintro h (h | h) <;> cases h
    · rintro h h
      cases h
    · rintro h (h | h) <;> cases h
    · obtain ⟨a, ha⟩ := (Dict.contains_iff _).mp hk
      exact .inr (.inr (hlocated h a ha))
    · intro h hh
      cases hh
    · intro h hh
      cases hh
  refine ⟨?_, ⟨hnumbered, hrecords, fun h d hd => ?_, fun q hq => ?_⟩, trivial, fun w hw => ?_⟩
  · show Handoff.Sound ⟨s.writeBuffer.d.map QueuedWrite.hash ++ ws.filterMap WriterPc.waiting?,
      ws.filterMap WriterPc.installing?, _, _, _, _, _, _⟩
    rw [hwaiting, hinstalling]
    exact hsound
  · rw [huncached h] at hd
    cases hd
  · rw [hqueue] at hq
    cases hq
  · rw [hws w hw]
    trivial

/-- A located hash can be read from its datastore. -/
theorem Shared.Good.retrievable (hs : s.Good P) {h : H} (hl : s.located h = true) :
    Retrievable P s h := by
  obtain ⟨b, hb, hh⟩ := Shared.located_iff.mp hl
  obtain ⟨j, d, hj, hd⟩ := Shared.holds_iff.mp hh
  obtain ⟨ds, hds, hget⟩ := Option.bind_eq_some_iff.mp hd
  refine .datastore hb ?_ hget (hs.records j h d hd)
  unfold getAt?
  rw [hj]
  exact hds

/-- **A returned block is retrievable in every state of an interleaving whose moves come in time,
and once nobody works on it the entry names the datastore of its bytes.** -/
theorem returned_retrievable {t t' : Threads H} {es : List Move} (hstart : t.Start P)
    (hrun : ((threads cfg P).meeting fun t e => t.inTime P e = true).Run t es t') :
    ∀ h ∈ t'.returned, Retrievable P t'.shared h ∧
      (t'.Finished P h → t'.shared.located h = true) := by
  have hi : Inv P t' := by
    refine hrun.invariant ?_ hstart.inv
    rintro t e _ hi ⟨rfl, hin⟩
    exact hi.exec hin
  intro h hh
  refine ⟨?_, fun hf => hi.sound.located hh fun hw => ?_⟩
  · rcases hi.sound.cached_or_located hh with hc | hl
    · obtain ⟨d, hd⟩ := Option.isSome_iff_exists.mp hc
      exact .writeReadCache hd (hi.shared.hashed h d hd)
    · exact hi.shared.retrievable hl
  · rcases List.mem_append.mp hw with hq | hw
    · obtain ⟨q, hmem, rfl⟩ := List.mem_map.mp hq
      exact hf.queue q hmem rfl
    · obtain ⟨w, hmem, he⟩ := List.mem_filterMap.mp hw
      refine hf.writers w hmem ?_
      cases w with
      | commit q => exact he
      | uncache q => exact he
      | _ => cases he

/-- Two empty datastores, one mirror and one writer. -/
def sampleThreads : Threads Bytes where
  shared :=
    { objects := []
      hashTable := Dict.empty
      readCache := .new 1 Nat.one_pos
      smallBlockReadCache := .new 1 Nat.one_pos
      writeReadCache := Dict.empty
      writeBuffer := ⟨[], 30000⟩
      datastore := [.fresh 0, .fresh 1]
      mirrorDatastore := [.fresh 0] }
  main := .idle
  writers := [.popleft]
  returned := []

theorem sampleThreads_start : sampleThreads.Start Packages.plain where
  main := rfl
  writers w hw := List.mem_singleton.mp hw
  returned := rfl
  queue := rfl
  uncached _ := rfl
  numbered := by
    intro j chunk hj
    match j, hj with
    | 0, hj => exact (Option.some.inj hj).symm
    | 1, hj => exact (Option.some.inj hj).symm
  records := by
    intro j h d hd
    match j, hd with
    | 0, hd => cases hd
    | 1, hd => cases hd
  located _ _ h := by cases h

/-- The next statement of the writer; its commits take the second datastore. -/
def writerMove : Move := .writer 0 ⟨⟨fun _ => 0, fun _ => 1, false⟩, ⟨fun _ => 0, fun _ => 0, false⟩⟩

/-- A block that is larger than a small block. -/
def noSmallBlocks : Config := { Config.shipped with smallBlockLimit := 0 }

/-- The writer starts when the placeholder is in the table, and is done when `dedup` returns. -/
def inTimeMoves : List Move :=
  .dedup [7] :: List.replicate 5 .main ++ List.replicate 8 writerMove ++ [.main]

theorem returned_retrievable_sample :
    let t := System.after (Threads.exec noSmallBlocks .plain) sampleThreads inTimeMoves
    t.returned = [[7]] ∧ ∀ h ∈ t.returned, Retrievable Packages.plain t.shared h ∧
      (t.Finished Packages.plain h → t.shared.located h = true) := by
  refine ⟨by decide, ?_⟩
  exact returned_retrievable sampleThreads_start
    (System.run_meeting_after _ (Threads.inTime Packages.plain) _ _ (by decide))

/-- The writer is done before the placeholder is entered. -/
def lateMoves : List Move :=
  .dedup [7] :: List.replicate 4 .main ++ List.replicate 8 writerMove ++ List.replicate 2 .main

/-- The placeholder of `lateMoves` names the first datastore; the bytes are in the second. -/
theorem returned_lost : ¬ ∀ (cfg : Config) (t t' : Threads Bytes) (es : List Move),
    t.Start Packages.plain → (threads cfg .plain).Run t es t' →
      ∀ h ∈ t'.returned, Retrievable Packages.plain t'.shared h ∧
        (t'.Finished Packages.plain h → t'.shared.located h = true) := by
  intro hall
  have hrun := System.run_after (Threads.exec noSmallBlocks .plain) lateMoves sampleThreads
  have hret : (System.after (Threads.exec noSmallBlocks .plain) sampleThreads lateMoves).returned =
      [[7]] := by decide
  have hcaches : ((System.after (Threads.exec noSmallBlocks .plain) sampleThreads
      lateMoves).shared.readCache.get? [7], (System.after (Threads.exec noSmallBlocks .plain)
      sampleThreads lateMoves).shared.smallBlockReadCache.get? [7],
      (System.after (Threads.exec noSmallBlocks .plain) sampleThreads
        lateMoves).shared.writeReadCache.get? [7]) = (none, none, none) := by decide
  have hunlocated : (System.after (Threads.exec noSmallBlocks .plain) sampleThreads
      lateMoves).shared.located [7] = false := by decide
  generalize System.after (Threads.exec noSmallBlocks .plain) sampleThreads lateMoves = t
    at hrun hret hcaches hunlocated
  obtain ⟨h₁, h₂⟩ := Prod.mk.inj hcaches
  obtain ⟨h₂, h₃⟩ := Prod.mk.inj h₂
  have hlost := (hall _ _ _ _ sampleThreads_start hrun [7] (by rw [hret]; exact List.mem_cons_self)).1
  cases hlost with
  | readCache hit _ =>
    rw [h₁] at hit
    cases hit
  | smallBlockReadCache hit _ =>
    rw [h₂] at hit
    cases hit
  | writeReadCache hit _ =>
    rw [h₃] at hit
    cases hit
  | @datastore b ds d entry named record _ =>
    have hl : t.shared.located [7] = true :=
      Shared.located_iff.mpr ⟨b, entry, by unfold Shared.holds; rw [named]; simp [record]⟩
    rw [hunlocated] at hl
    cases hl

end VeratyFS
