import VeratyFS.OperationSpec

/-!
# Reads from two states

What a read returns depends on the inode's block list, offsets and size, and on where the bytes of
its blocks are, not on the caches that happen to hold them.

* `SameBytes` — every block is where it was; the counters, the flags and the caches may differ.
* `Available` — a block whose bytes a reader finds, whatever the caches hold.
* `read_agree`, `write_agree` — two states in which a file has the same available blocks answer
  `read` and `write` alike.
-/

set_option autoImplicit false

namespace VeratyFS

open Pylib

variable {H : Type} [DecidableEq H] {cfg : Config} {P : Packages H} {g g' : Globals H}

/-! ## Blocks -/

/-- An entry without its counter and its flag. -/
def Block.stripped {H : Type} (b : Block H) : Block H :=
  { b with uses := 0, DELETED := false, DELETION_TIME := none }

/-- The stores, and where the entries say the bytes are. -/
structure SameBytes (g g' : Globals H) : Prop where
  entries : ∀ h, (g'.hashTable.getItem? h).map Block.stripped =
    (g.hashTable.getItem? h).map Block.stripped
  writeReadCache : g'.writeReadCache = g.writeReadCache
  datastore : g'.datastore = g.datastore
  smallBlocks : g'.smallBlocks = g.smallBlocks

instance : Py.Frame (@SameBytes H _) where
  refl _ := ⟨fun _ => rfl, rfl, rfl, rfl⟩
  trans h h' := ⟨fun k => (h'.entries k).trans (h.entries k),
    h'.writeReadCache.trans h.writeReadCache, h'.datastore.trans h.datastore,
    h'.smallBlocks.trans h.smallBlocks⟩

theorem CachesOnly.sameBytes (h : CachesOnly g g') : SameBytes g g' :=
  ⟨fun k => by rw [h.hashTable], h.writeReadCache, h.datastore, h.smallBlocks⟩

/-- The entry of the other state, which says the same of the bytes. -/
theorem SameBytes.entry (h : SameBytes g g') {k : H} {e : Block H}
    (he : g.hashTable.getItem? k = some e) :
    ∃ e', g'.hashTable.getItem? k = some e' ∧ e'.stripped = e.stripped := by
  have hk := h.entries k
  rw [he] at hk
  exact Option.map_eq_some_iff.mp hk

/-- What the small-block branch reads; `none` is an exception. -/
def smallAt (cfg : Config) (P : Packages H) (b : FileBlock H) (g : Globals H) :
    Option (Option Bytes) :=
  match cfg.smallBlockDbPath, g.hashTable.getItem? b.hash with
  | .path, some e =>
    if e.compressed then (g.smallBlocks.get? b.hash).map fun d => some (decompressData P d)
    else some (g.smallBlocks.get? b.hash)
  | _, _ => none

/-- What the datastore branch reads. -/
def storedAt (cfg : Config) (P : Packages H) (b : FileBlock H) (e : Block H) (g : Globals H) :
    Except PyError (Option Bytes) :=
  match getAt? g.datastore e.chunk with
  | some ds => .ok (readData cfg P e.hash e.offset ds b.size g.hashTable)
  | none => .error .indexError

theorem SameBytes.smallAt (h : SameBytes g g') (b : FileBlock H) :
    smallAt cfg P b g' = smallAt cfg P b g := by
  unfold VeratyFS.smallAt
  cases cfg.smallBlockDbPath with
  | list => rfl
  | path =>
    have hk := h.entries b.hash
    rw [h.smallBlocks]
    cases he : g.hashTable.getItem? b.hash with
    | none =>
      rw [he] at hk
      rw [Option.map_eq_none_iff.mp hk]
    | some e =>
      obtain ⟨e', he', hloc⟩ := h.entry he
      rw [he']
      dsimp only
      rw [show e'.compressed = e.compressed from congrArg (·.compressed) hloc]

theorem SameBytes.storedAt (h : SameBytes g g') (b : FileBlock H) {e e' : Block H}
    (hloc : e'.stripped = e.stripped) : storedAt cfg P b e' g' = storedAt cfg P b e g := by
  have hread : ∀ (k : H) (o : Int) (ds : DataStore H) (n : Nat),
      readData cfg P k o ds n g'.hashTable = readData cfg P k o ds n g.hashTable := by
    intro k o ds n
    have hk := h.entries k
    unfold readData rocksdbRead mmRead
    cases he : g.hashTable.getItem? k with
    | none =>
      rw [he] at hk
      rw [Option.map_eq_none_iff.mp hk]
    | some e =>
      obtain ⟨e', he', hloc⟩ := h.entry he
      have hcomp : e'.compressed = e.compressed := congrArg (·.compressed) hloc
      rw [he']
      cases cfg.backend with
      | rocksdb => cases ds.db.get? k <;> simp [hcomp]
      | mmap => cases ds.file <;> simp [hcomp]
      | unset => cases ds.file <;> simp [hcomp]
  unfold VeratyFS.storedAt
  rw [h.datastore, show e'.chunk = e.chunk from congrArg (·.chunk) hloc,
    show e'.hash = e.hash from congrArg (·.hash) hloc,
    show e'.offset = e.offset from congrArg (·.offset) hloc]
  cases getAt? g.datastore e.chunk with
  | none => rfl
  | some ds => exact congrArg Except.ok (hread _ _ _ _)

/-! ### The reader as a function -/

theorem readSmall_eq (cfg : Config) (P : Packages H) (b : FileBlock H) (g : Globals H) :
    readSmall cfg P b g = match smallAt cfg P b g with
      | some d => (.ok d, { g with smallBlockReadCache := g.smallBlockReadCache.set b.hash d })
      | none => (.error .ioError, g) := by
  unfold readSmall smallAt
  cases hpath : cfg.smallBlockDbPath with
  | list =>
    have hread : Globals.onSmallBlocks (readSmallBlock cfg b.hash) g = (.error .typeError, g) := by
      unfold Globals.onSmallBlocks readSmallBlock openSmallBlockDb
      rw [hpath]
      rfl
    rw [Py.run_attempt_error (Py.run_bind_error hread)]
    rfl
  | path =>
    have hread : Globals.onSmallBlocks (readSmallBlock cfg b.hash) g =
        (.ok (g.smallBlocks.get? b.hash), g) := by
      unfold Globals.onSmallBlocks readSmallBlock openSmallBlockDb
      rw [hpath]
      rfl
    cases he : g.hashTable.getItem? b.hash with
    | none =>
      have hentry : Py.ofOption PyError.keyError (g.hashTable.getItem? b.hash) g =
          (.error .keyError, g) := by
        rw [he]
        rfl
      rw [Py.run_attempt_error ((Py.run_bind_ok hread).trans (Py.run_bind_error hentry))]
      rfl
    | some e =>
      have hentry : Py.ofOption PyError.keyError (g.hashTable.getItem? b.hash) g = (.ok e, g) := by
        rw [he]
        rfl
      by_cases hc : e.compressed = true
      · cases hd : g.smallBlocks.get? b.hash with
        | none =>
          rw [hd] at hread
          rw [Py.run_attempt_error ((Py.run_bind_ok hread).trans ((Py.run_bind_ok hentry).trans
            (congrFun (if_pos hc) _)))]
          simp [hc]
          rfl
        | some d =>
          rw [hd] at hread
          rw [Py.run_attempt_ok ((Py.run_bind_ok hread).trans ((Py.run_bind_ok hentry).trans
            (congrFun (if_pos hc) _)))]
          simp [hc]
      · rw [Py.run_attempt_ok ((Py.run_bind_ok hread).trans ((Py.run_bind_ok hentry).trans
          (congrFun (if_neg hc) _)))]
        simp [hc]

theorem readStored_eq (cfg : Config) (P : Packages H) (b : FileBlock H) {e : Block H}
    (he : g.hashTable.getItem? b.hash = some e) :
    readStored cfg P b g = (storedAt cfg P b e g, g) := by
  have hentry : Py.ofOption PyError.keyError (g.hashTable.getItem? b.hash) g = (.ok e, g) := by
    rw [he]
    rfl
  unfold readStored storedAt
  refine (Py.run_bind_ok hentry).trans ?_
  cases hds : getAt? g.datastore e.chunk with
  | none => rfl
  | some ds => rfl

theorem fetchUncached_missing (cfg : Config) (P : Packages H) (b : FileBlock H)
    (he : g.hashTable.getItem? b.hash = none) : fetchUncached cfg P b g = (.error .keyError, g) := by
  have hentry : Py.ofOption PyError.keyError (g.hashTable.getItem? b.hash) g =
      (.error .keyError, g) := by
    rw [he]
    rfl
  unfold fetchUncached
  exact (Py.run_bind_ok (m := Py.read) rfl).trans (Py.run_bind_error hentry)

/-- A block that no cache holds. -/
theorem fetchUncached_eq (cfg : Config) (P : Packages H) (b : FileBlock H) {e : Block H}
    (he : g.hashTable.getItem? b.hash = some e) :
    fetchUncached cfg P b g =
      if e.chunk = -1 then
        match readSmall cfg P b g with
        | (.ok (some d), g₁) => (.ok (.bytes (some d)), g₁)
        | (.ok none, g₁) => ((storedAt cfg P b e g₁).map .bytes, g₁)
        | (.error err, g₁) => (.error err, g₁)
      else ((storedAt cfg P b e g).map .bytes, g) := by
  have hentry : Py.ofOption PyError.keyError (g.hashTable.getItem? b.hash) g = (.ok e, g) := by
    rw [he]
    rfl
  have htail : ∀ g₁ : Globals H, g₁.hashTable.getItem? b.hash = some e →
      fetchStored cfg P b g₁ = ((storedAt cfg P b e g₁).map .bytes, g₁) := by
    intro g₁ he₁
    have hread := readStored_eq cfg P b he₁
    cases hs : storedAt cfg P b e g₁ with
    | ok d =>
      rw [hs] at hread
      exact Py.run_attempt_ok (Py.run_bind_ok hread)
    | error err =>
      have herr : err = .indexError := by
        unfold storedAt at hs
        split at hs <;> cases hs
        rfl
      rw [hs] at hread
      refine (Py.run_attempt_error (Py.run_bind_error hread)).trans ?_
      rw [herr]
      rfl
  unfold fetchUncached
  refine (Py.run_bind_ok hentry).trans ?_
  by_cases hc : e.chunk = -1
  · rw [if_pos hc, if_pos hc]
    have hsmall := readSmall_keeps cfg P b g
    cases hr : readSmall cfg P b g with
    | mk r g₁ =>
      rw [hr] at hsmall
      cases r with
      | error err => exact Py.run_bind_error hr
      | ok d =>
        refine (Py.run_bind_ok hr).trans ?_
        cases d with
        | some d => rfl
        | none => exact htail g₁ (by rw [hsmall.hashTable]; exact he)
  · rw [if_neg hc, if_neg hc]
    exact htail g he

theorem fetchUncached_fst (cfg : Config) (P : Packages H) (b : FileBlock H) {e : Block H}
    (he : g.hashTable.getItem? b.hash = some e) :
    (fetchUncached cfg P b g).1 =
      if e.chunk = -1 then
        match smallAt cfg P b g with
        | some (some d) => .ok (.bytes (some d))
        | some none => (storedAt cfg P b e g).map .bytes
        | none => .error .ioError
      else (storedAt cfg P b e g).map .bytes := by
  rw [fetchUncached_eq cfg P b he, readSmall_eq]
  split
  · cases smallAt cfg P b g with
    | none => rfl
    | some o => cases o <;> rfl
  · rfl

/-- The small-block cache is all that changes, and it gets what was read. -/
theorem fetchUncached_snd (cfg : Config) (P : Packages H) (b : FileBlock H) (g : Globals H) :
    (fetchUncached cfg P b g).2 = g ∨
    ∃ o, (fetchUncached cfg P b g).2 =
        { g with smallBlockReadCache := g.smallBlockReadCache.set b.hash o } ∧
      ∀ d, o = some d → (fetchUncached cfg P b g).1 = .ok (.bytes (some d)) := by
  cases he : g.hashTable.getItem? b.hash with
  | none =>
    rw [fetchUncached_missing cfg P b he]
    exact .inl rfl
  | some e =>
    rw [fetchUncached_eq cfg P b he, readSmall_eq]
    split
    · cases smallAt cfg P b g with
      | none => exact .inl rfl
      | some o =>
        refine .inr ⟨o, ?_⟩
        cases o with
        | none => exact ⟨rfl, fun d hd => by cases hd⟩
        | some d =>
          refine ⟨rfl, ?_⟩
          rintro _ ⟨⟩
          rfl
    · exact .inl rfl

/-- **A block that was fetched is fetched again** while every block is where it was. -/
theorem SameBytes.fetchUncached (h : SameBytes g g') {b : FileBlock H} {d : Bytes}
    (hd : (fetchUncached cfg P b g).1 = .ok (.bytes (some d))) :
    (fetchUncached cfg P b g').1 = .ok (.bytes (some d)) := by
  cases he : g.hashTable.getItem? b.hash with
  | none =>
    rw [fetchUncached_missing cfg P b he] at hd
    cases hd
  | some e =>
    obtain ⟨e', he', hloc⟩ := h.entry he
    rw [fetchUncached_fst cfg P b he] at hd
    rw [fetchUncached_fst cfg P b he', h.smallAt, h.storedAt b hloc,
      show e'.chunk = e.chunk from congrArg (·.chunk) hloc]
    exact hd

/-! ## Available blocks -/

/-- A reader finds the bytes `content b.hash` of the block: no cache holds other bytes, and the cache
of unwritten blocks or a store has them. -/
structure Available (cfg : Config) (P : Packages H) (content : H → Bytes) (g : Globals H)
    (b : FileBlock H) : Prop where
  size : (content b.hash).length = b.rawSize
  hash : b.hash = P.xxh3_64 (content b.hash)
  readCache : ∀ d, g.readCache.get? b.hash = some d → d = content b.hash
  smallCache : ∀ d, g.smallBlockReadCache.get? b.hash = some (some d) → d = content b.hash
  writeCache : ∀ d, g.writeReadCache.get? b.hash = some d → d = content b.hash
  held : (g.writeReadCache.get? b.hash = some (content b.hash) ∧
      g.smallBlockReadCache.get? b.hash ≠ some none) ∨
    (fetchUncached cfg P b g).1 = .ok (.bytes (some (content b.hash)))

variable {content : H → Bytes} {b b' : FileBlock H}

/-- Caches may lose entries. -/
theorem Available.shrink (h : Available cfg P content g b) (hs : SameBytes g g')
    (hread : ∀ k d, g'.readCache.get? k = some d → g.readCache.get? k = some d)
    (hsmall : ∀ k d, g'.smallBlockReadCache.get? k = some d → g.smallBlockReadCache.get? k = some d) :
    Available cfg P content g' b where
  size := h.size
  hash := h.hash
  readCache d hd := h.readCache d (hread _ _ hd)
  smallCache d hd := h.smallCache d (hsmall _ _ hd)
  writeCache d hd := h.writeCache d (by rw [← hs.writeReadCache]; exact hd)
  held := by
    rcases h.held with ⟨hw, hn⟩ | hf
    · exact .inl ⟨by rw [hs.writeReadCache]; exact hw, fun hc => hn (hsmall _ _ hc)⟩
    · exact .inr (hs.fetchUncached hf)

theorem Available.seek (h : Available cfg P content g b) {d : Bytes}
    (hd : seekInCache g b.hash = some d) : d = content b.hash := by
  unfold seekInCache at hd
  split at hd
  · rename_i r hr
    cases hd
    exact h.readCache _ hr
  · split at hd
    · rename_i r hr
      subst hd
      exact h.smallCache _ hr
    · exact h.writeCache _ hd

/-- A block that no cache shows is fetched. -/
theorem Available.fetch (h : Available cfg P content g b) (hseek : seekInCache g b.hash = none) :
    (fetchUncached cfg P b g).1 = .ok (.bytes (some (content b.hash))) ∧
      ¬ (g.writeReadCache.get? b.hash = some (content b.hash) ∧
        g.smallBlockReadCache.get? b.hash ≠ some none) := by
  have hnot : ¬ (g.writeReadCache.get? b.hash = some (content b.hash) ∧
      g.smallBlockReadCache.get? b.hash ≠ some none) := by
    rintro ⟨hw, hn⟩
    unfold seekInCache at hseek
    split at hseek
    · cases hseek
    · split at hseek
      · rename_i r hr
        subst hseek
        exact hn hr
      · rw [hw] at hseek
        cases hseek
  exact ⟨h.held.resolve_left hnot, hnot⟩

/-- The bytes of a block enter the read cache. -/
theorem Available.cached (h : Available cfg P content g b') (k : H) :
    Available cfg P content { g with readCache := g.readCache.set k (content k) } b' where
  size := h.size
  hash := h.hash
  readCache d hd := by
    rcases LRU.get?_set hd with ⟨rfl, rfl⟩ | hd
    · rfl
    · exact h.readCache d hd
  smallCache := h.smallCache
  writeCache := h.writeCache
  held := h.held.imp_right (CachesOnly.update g _ _).sameBytes.fetchUncached

/-- The caches have no entry of the wrong length for an available block. -/
theorem Available.cachedBlock (h : Available cfg P content g b) :
    cachedBlock b g = (.ok (seekInCache g b.hash), g) := by
  unfold VeratyFS.cachedBlock
  rw [Py.run_bind_ok (Py.run_read g)]
  cases hseek : seekInCache g b.hash with
  | none => rfl
  | some d =>
    dsimp only
    rw [if_neg (by rw [h.seek hseek, h.size]; exact fun h => h rfl)]
    rfl

/-- **A fetch of an available block** finds its bytes, and leaves the blocks available. -/
theorem fetchBlock_available (h : Available cfg P content g b) :
    (fetchBlock cfg P b g).1 = .ok (.bytes (some (content b.hash))) ∧
      ∀ b', Available cfg P content g b' → Available cfg P content (fetchBlock cfg P b g).2 b' := by
  unfold fetchBlock
  rw [Py.run_bind_ok h.cachedBlock]
  cases hseek : seekInCache g b.hash with
  | some d =>
    rw [h.seek hseek]
    exact ⟨rfl, fun b' hb' => hb'⟩
  | none =>
    obtain ⟨hfetch, hnot⟩ := h.fetch hseek
    refine ⟨hfetch, fun b' hb' => ?_⟩
    show Available cfg P content (fetchUncached cfg P b g).2 b'
    rcases fetchUncached_snd cfg P b g with hs | ⟨o, hs, ho⟩
    · rw [hs]
      exact hb'
    · rw [hs]
      have hset : ∀ r, (g.smallBlockReadCache.set b.hash o).get? b'.hash = some r →
          (b.hash = b'.hash ∧ o = r) ∨ g.smallBlockReadCache.get? b'.hash = some r :=
        fun r hr => LRU.get?_set hr
      refine ⟨hb'.size, hb'.hash, hb'.readCache, fun d hd => ?_, hb'.writeCache, ?_⟩
      · rcases hset _ hd with ⟨e, rfl⟩ | hd
        · have hd' := ho d rfl
          rw [hfetch] at hd'
          cases hd'
          rw [e]
        · exact hb'.smallCache d hd
      · rcases hb'.held with ⟨hw, hn⟩ | hf
        · refine .inl ⟨hw, fun hc => ?_⟩
          rcases hset _ hc with ⟨e, _⟩ | hc
          · exact hnot (e ▸ ⟨hw, hn⟩)
          · exact hn hc
        · exact .inr ((CachesOnly.update g _ _).sameBytes.fetchUncached hf)

/-- Every block of a list is available. -/
def AllAvailable (cfg : Config) (P : Packages H) (content : H → Bytes) (bs : List (FileBlock H))
    (g : Globals H) : Prop := ∀ b ∈ bs, Available cfg P content g b

/-- **The reader returns the content of available blocks.** -/
theorem readBlocks_available {bs : List (FileBlock H)} :
    ∀ (l : List (FileBlock H)) (data : Bytes) (g : Globals H), (∀ b ∈ l, b ∈ bs) →
      AllAvailable cfg P content bs g →
      (readBlocks cfg P l data g).1 = .ok (data ++ (l.map fun b => content b.hash).flatten) ∧
        AllAvailable cfg P content bs (readBlocks cfg P l data g).2
  | [], data, g, _, hg => ⟨congrArg Except.ok (List.append_nil data).symm, hg⟩
  | b :: l, data, g, hl, hg => by
    have hb := hg b (hl b List.mem_cons_self)
    obtain ⟨hfetch, hkeep⟩ := fetchBlock_available hb
    cases hr : fetchBlock cfg P b g with
    | mk r g₁ =>
      rw [hr] at hfetch hkeep
      dsimp only at hfetch
      subst hfetch
      have hstep : readBlocks cfg P (b :: l) data g = readBlocks cfg P l (data ++ content b.hash)
          { g₁ with readCache := g₁.readCache.set b.hash (content b.hash) } := by
        rw [readBlocks, Py.run_bind_ok hr]
        exact congrFun (if_pos hb.hash) _
      have hcached : AllAvailable cfg P content bs
          { g₁ with readCache := g₁.readCache.set b.hash (content b.hash) } :=
        fun b' hb' => (hkeep b' (hg b' hb')).cached b.hash
      have hrest := readBlocks_available l (data ++ content b.hash) _
        (fun b' hb' => hl b' (List.mem_cons_of_mem _ hb')) hcached
      rw [hstep]
      refine ⟨?_, hrest.2⟩
      rw [hrest.1, List.map_cons, List.flatten_cons, List.append_assoc]

/-! ## Files -/

/-- A file with the same available blocks in two states. -/
structure SameFile (cfg : Config) (P : Packages H) (content : H → Bytes) (fh : Nat)
    (bs : List (FileBlock H)) (s s' : Fs H) : Prop where
  file : ∃ f f', s.inodes.d.get? fh = some f ∧ s'.inodes.d.get? fh = some f' ∧ f.data = bs ∧
    f'.data = f.data ∧ f'.offsets = f.offsets ∧ f'.size = f.size
  left : AllAvailable cfg P content bs s.globals
  right : AllAvailable cfg P content bs s'.globals

variable {fh offset length : Nat} {bs : List (FileBlock H)}

theorem getFileData_agree (startBlock endBlock : Int) :
    Py.Agree (SameFile cfg P content fh bs)
      (Fs.onGlobals (getFileData cfg P bs startBlock endBlock))
      (Fs.onGlobals (getFileData cfg P bs startBlock endBlock)) := by
  intro s s' h
  have hmem : ∀ b ∈ slice bs startBlock (endBlock + 1), b ∈ bs := fun b hb => mem_of_mem_slice hb
  obtain ⟨hr, hg⟩ := readBlocks_available _ [] s.globals hmem h.left
  obtain ⟨hr', hg'⟩ := readBlocks_available _ [] s'.globals hmem h.right
  exact ⟨hr'.trans hr.symm, h.file, hg, hg'⟩

omit [DecidableEq H] in
theorem cutBlocks_same {f f' : FileInode H} (hdata : f'.data = f.data) (hsize : f'.size = f.size) :
    cutBlocks f' = cutBlocks f := by
  funext offset endOffset startBlk startDiff endDiff data
  unfold cutBlocks
  rw [hdata, hsize]

theorem retrieveBlocks_same (cfg : Config) (P : Packages H) {f f' : FileInode H}
    (hdata : f'.data = f.data) (hoffsets : f'.offsets = f.offsets) (hsize : f'.size = f.size)
    (offset length : Nat) (whole : Bool) :
    retrieveBlocks cfg P f' offset length whole = retrieveBlocks cfg P f offset length whole := by
  unfold retrieveBlocks
  rw [cutBlocks_same hdata hsize, hdata, hoffsets, hsize]

theorem retrieveBlocks_agree {f : FileInode H} (hf : f.data = bs) (offset length : Nat)
    (whole : Bool) :
    Py.Agree (SameFile cfg P content fh bs) (retrieveBlocks cfg P f offset length whole)
      (retrieveBlocks cfg P f offset length whole) := by
  unfold retrieveBlocks
  rw [hf]
  refine Py.agree_bind (Py.agree_ofOption _ _) fun start => ?_
  refine Py.agree_bind (Py.agree_ofOption _ _) fun start' => ?_
  refine Py.agree_bind (Py.agree_ofOption _ _) fun stop => ?_
  dsimp only
  split
  · refine Py.agree_bind (getFileData_agree _ _) fun data => ?_
    split <;> exact Py.agree_pure _
  · refine Py.agree_bind (getFileData_agree _ _) fun data => ?_
    split
    · exact Py.agree_pure _
    · exact Py.agree_bind (Py.agree_ofOption _ _) fun _ => Py.agree_pure _

omit [DecidableEq H] in
/-- The offsets are there afterwards. -/
theorem ensureOffsets_run {s : Fs H} {f : FileInode H} (h : s.inodes.d.get? fh = some f) :
    ∃ t f₁, ensureOffsets fh f s = (.ok f₁, { s with inodes := t }) ∧ t.d.get? fh = some f₁ ∧
      f₁.data = f.data ∧ f₁.size = f.size ∧
      f₁.offsets = if f.offsets = [] then runningSums 0 f.data else f.offsets := by
  unfold ensureOffsets
  split
  · obtain ⟨t, hrun, ht⟩ := calcOffsets_run h
    have hget : t.commit.d.get? fh = some { f with offsets := runningSums 0 f.data } := by
      rw [FSMeta.commit_d, ht fh, if_pos rfl]
    refine ⟨t.commit, { f with offsets := runningSums 0 f.data }, ?_, hget, rfl, rfl, rfl⟩
    refine (Py.run_bind_ok hrun).trans ?_
    exact inodeAt_run (s := { s with inodes := t.commit }) hget
  · exact ⟨s.inodes, f, rfl, h, rfl, rfl, rfl⟩

/-- **`retrieve_data` answers alike.** -/
theorem retrieveData_agree (offset length : Nat) (whole : Bool) :
    Py.Agree (SameFile cfg P content fh bs) (retrieveData cfg P fh offset length whole)
      (retrieveData cfg P fh offset length whole) := by
  intro s s' h
  obtain ⟨f, f', hf, hf', hbs, hdata, hoffsets, hsize⟩ := h.file
  have hrun : ∀ (s : Fs H) {f : FileInode H}, s.inodes.d.get? fh = some f →
      retrieveData cfg P fh offset length whole s = (if f.data = [] then return .data []
        else do
          let f ← ensureOffsets fh f
          retrieveBlocks cfg P f offset length whole : Op H Retrieved) s := by
    intro s f hf
    unfold retrieveData
    rw [Py.run_bind_ok (Py.run_read s), show s.inodes.getItem? fh = some f from hf]
  rw [hrun s hf, hrun s' hf', hdata]
  by_cases hnil : f.data = []
  · rw [if_pos hnil, if_pos hnil]
    exact ⟨rfl, h⟩
  · rw [if_neg hnil, if_neg hnil]
    obtain ⟨t, f₁, hens, ht, hdata₁, hsize₁, hoffsets₁⟩ := ensureOffsets_run hf
    obtain ⟨t', f₁', hens', ht', hdata₁', hsize₁', hoffsets₁'⟩ := ensureOffsets_run hf'
    have hoff : f₁'.offsets = f₁.offsets := by
      rw [hoffsets₁', hoffsets₁, hoffsets, hdata]
    rw [Py.run_bind_ok hens, Py.run_bind_ok hens', retrieveBlocks_same cfg P
      (hdata₁'.trans (hdata.trans hdata₁.symm)) hoff (hsize₁'.trans (hsize.trans hsize₁.symm))]
    refine retrieveBlocks_agree (hdata₁.trans hbs) offset length whole _ _ ?_
    exact ⟨⟨f₁, f₁', ht, ht', hdata₁.trans hbs, hdata₁'.trans (hdata.trans hdata₁.symm), hoff,
      hsize₁'.trans (hsize.trans hsize₁.symm)⟩, h.left, h.right⟩

/-- **`read` answers alike.** -/
theorem read_agree {s s' : Fs H} (h : SameFile cfg P content fh bs s s') (offset length : Nat)
    (now : Time) :
    (read cfg P fh offset length now s').1 = (read cfg P fh offset length now s).1 := by
  have hr := retrieveData_agree offset length false s s' h
  unfold read
  cases h₁ : retrieveData cfg P fh offset length false s with
  | mk r t =>
    cases h₂ : retrieveData cfg P fh offset length false s' with
    | mk r' t' =>
      rw [h₁, h₂] at hr
      obtain ⟨rfl, ht⟩ := hr
      obtain ⟨f, f', hf, hf', _⟩ := ht.file
      cases r' with
      | error e => rw [Py.run_bind_error h₁, Py.run_bind_error h₂]
      | ok o =>
        rw [Py.run_bind_ok h₁, Py.run_bind_ok h₂, Py.run_bind_ok (inodeAt_run hf),
          Py.run_bind_ok (inodeAt_run hf')]
        rfl

/-- The outcome of the mid-file branch. -/
theorem write_middle_fst (cfg : Config) (P : Packages H) {buf : Bytes} (now : Time) {s : Fs H}
    {f : FileInode H} (h : s.inodes.d.get? fh = some f) (hm : inMiddle f offset buf.length) :
    (write cfg P fh offset buf now s).1 =
      match (retrieveData cfg P fh offset buf.length true s).1 with
      | .ok (.whole _ _ _ _) => .ok buf.length
      | .ok (.data _) => .ok 0
      | .error e => if e = .valueError then .ok 0 else .error e := by
  have hkeep : Reread fh s _ := retrieveData_keeps cfg P fh offset buf.length true s
  cases hr : retrieveData cfg P fh offset buf.length true s with
  | mk r s₁ =>
    rw [hr] at hkeep
    cases r with
    | error e => rw [write_raised now h hm (writeMiddle_error hr)]
    | ok o =>
      cases o with
      | data d =>
        rw [write_raised now h hm (writeMiddle_data hr)]
        rfl
      | whole sd sb eb data =>
        obtain ⟨f₁, h₁, _⟩ := hkeep.of_some h
        obtain ⟨blks, g', _, hmid⟩ := writeMiddle_whole h₁ hr
        rw [write_replaced now h hm hmid]

/-- **`write` answers alike.** -/
theorem write_agree {s s' : Fs H} (h : SameFile cfg P content fh bs s s') (offset : Nat)
    (buf : Bytes) (now : Time) :
    (write cfg P fh offset buf now s').1 = (write cfg P fh offset buf now s).1 := by
  obtain ⟨f, f', hf, hf', hbs, hdata, hoffsets, hsize⟩ := h.file
  have hiff : inMiddle f' offset buf.length ↔ inMiddle f offset buf.length := by
    unfold inMiddle
    rw [hdata, hsize]
  by_cases hm : inMiddle f offset buf.length
  · rw [write_middle_fst cfg P now hf hm, write_middle_fst cfg P now hf' (hiff.mpr hm),
      (retrieveData_agree offset buf.length true s s' h).1]
  · obtain ⟨_, _, _, hw⟩ := write_append cfg P now hf hm
    obtain ⟨_, _, _, hw'⟩ := write_append cfg P now hf' fun hc => hm (hiff.mp hc)
    rw [hw, hw']

/-! ## Dropping references -/

/-- Every block is where it was, and caches only lose entries. -/
structure Withdrawn (g g' : Globals H) : Prop where
  bytes : SameBytes g g'
  readCache : ∀ k d, g'.readCache.get? k = some d → g.readCache.get? k = some d
  smallCache : ∀ k d, g'.smallBlockReadCache.get? k = some d → g.smallBlockReadCache.get? k = some d

instance : Py.Frame (@Withdrawn H _) where
  refl _ := ⟨Py.Frame.refl _, fun _ _ h => h, fun _ _ h => h⟩
  trans h h' := ⟨Py.Frame.trans h.bytes h'.bytes, fun k d hd => h.readCache k d (h'.readCache k d hd),
    fun k d hd => h.smallCache k d (h'.smallCache k d hd)⟩

theorem Available.withdrawn (h : Available cfg P content g b) (hw : Withdrawn g g') :
    Available cfg P content g' b := h.shrink hw.bytes hw.readCache hw.smallCache

theorem HashTable.setItem_getItem? (t : HashTable H) (k k' : H) (b : Block H) :
    (t.setItem k b).getItem? k' = if k = k' then some b else t.getItem? k' := by
  unfold HashTable.getItem? HashTable.setItem
  dsimp only
  rw [Dict.get?_set, Dict.get?_set]
  by_cases e : k = k'
  · rw [if_pos e, if_pos e, if_pos e]
  · rw [if_neg e, if_neg e, if_neg e]

theorem flagDeleted_withdrawn {h : H} {e : Block H} (now : Time)
    (he : g.hashTable.getItem? h = some e) : Withdrawn g (flagDeleted now h e g) := by
  refine ⟨⟨fun k => ?_, rfl, rfl, rfl⟩, fun _ _ hd => hd, fun _ _ hd => hd⟩
  unfold flagDeleted
  rw [HashTable.setItem_getItem?]
  split
  · rename_i hk
    rw [← hk, he]
    rfl
  · rfl

theorem uncache_withdrawn (cfg : Config) (h : H) (e : Block H) (g : Globals H) :
    Withdrawn g (uncache cfg h e g) := by
  have herase : ∀ {α : Type} (c : LRU H α) (k : H) (d : α), (c.erase h).get? k = some d →
      c.get? k = some d := by
    intro α c k d hd
    rw [LRU.get?_erase] at hd
    split at hd
    · cases hd
    · exact hd
  unfold uncache
  split
  · exact ⟨⟨fun _ => rfl, rfl, rfl, rfl⟩, fun _ _ hd => hd, herase _⟩
  · exact ⟨⟨fun _ => rfl, rfl, rfl, rfl⟩, herase _, fun _ _ hd => hd⟩

/-- `update_index(add=False)` moves no block. -/
theorem updateIndexRemove_keeps (cfg : Config) (now : Time) (h : H) :
    Py.Keeps (@Withdrawn H _) (updateIndexRemove cfg now h) := by
  refine Py.keeps_attempt (fun g => ?_) fun _ => Py.keeps_raise _
  show Withdrawn g ((if g.hashTable.contains h then _ else _ : Task H Unit) g).2
  split
  · cases he : g.hashTable.getItem? h with
    | none => exact Py.Frame.refl g
    | some e =>
      show Withdrawn g ((if e.uses - e.uses ≤ 0 then _ else _ : Task H Unit) g).2
      rw [if_pos (by omega)]
      cases hins : (if chunkInFreeBlocks e.chunk g.freeBlocks then appendExtent e
          else insertExtent e) g.freeBlocks with
      | mk r fb =>
        have hzoom : Globals.onFreeBlocks (if chunkInFreeBlocks e.chunk g.freeBlocks
            then appendExtent e else insertExtent e) g = (r, { g with freeBlocks := fb }) :=
          Py.run_zoom hins
        have hfree : Withdrawn g { g with freeBlocks := fb } :=
          ⟨⟨fun _ => rfl, rfl, rfl, rfl⟩, fun _ _ hd => hd, fun _ _ hd => hd⟩
        cases r with
        | error err =>
          rw [Py.run_bind_error hzoom]
          exact hfree
        | ok _ =>
          rw [Py.run_bind_ok hzoom]
          refine Py.Frame.trans hfree (Py.Frame.trans
            (flagDeleted_withdrawn (g := { g with freeBlocks := fb }) now he)
            (uncache_withdrawn cfg h e _))
  · exact Py.Frame.refl g

theorem dropBlocks_keeps (cfg : Config) (clock : Nat → Time) (bs : List (FileBlock H)) :
    Py.Keeps (@Withdrawn H _) (dropBlocks cfg clock bs) :=
  Py.keeps_forEach fun _ => updateIndexRemove_keeps cfg _ _

end VeratyFS
