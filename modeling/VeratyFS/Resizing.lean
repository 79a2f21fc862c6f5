import VeratyFS.Accounting
import VeratyFS.CleanUps
import VeratyFS.FileWrites
import VeratyFS.ResizeFaults

/-!
# Resizing a file

`setattr` grows a file by a write of zeros at its end, and shrinks it by a copy, block by block, into
a temporary inode that then takes its place (`truncate_down`).

* `Served` — a block that a reader finds, under its own entry; `Storable` — the round trip of a
  chunk: `dedup` lists a block for it that a reader finds.
* `Kept` — reads of served blocks and `dedup` of storable chunks keep both.
* `Copying` — the invariant of the copy loop; `Copying.round`, `copyBlocksUnder_copies` — one round,
  and the loop with its two exits.
* `setattr_resizes` — the law of a resize.
-/

set_option autoImplicit false
set_option maxRecDepth 1024

namespace VeratyFS

open Pylib

variable {H : Type} [DecidableEq H] {cfg : Config} {P : Packages H} {content : H → Bytes}
  {g g' : Globals H}

/-! ## Blocks that are served, chunks that can be stored -/

/-- A block that a reader finds, and whose entry carries the hash of the block. -/
structure Served (cfg : Config) (P : Packages H) (content : H → Bytes) (g : Globals H)
    (b : FileBlock H) : Prop extends Available cfg P content g b where
  own : ∀ e, g.hashTable.getItem? b.hash = some e → e.hash = b.hash

def AllServed (cfg : Config) (P : Packages H) (content : H → Bytes) (bs : List (FileBlock H))
    (g : Globals H) : Prop := ∀ b ∈ bs, Served cfg P content g b

theorem AllServed.available {bs : List (FileBlock H)} (h : AllServed cfg P content bs g) :
    AllAvailable cfg P content bs g := fun b hb => (h b hb).toAvailable

/-- No cache holds anything else under the hash, and no entry that is left for it sends a reader to
the small-block database. -/
structure Unread (g : Globals H) (h : H) (c : Bytes) : Prop where
  readCache : ∀ d, g.readCache.get? h = some d → d = c
  smallCache : ∀ o, g.smallBlockReadCache.get? h = some o → o = some c
  chunk : ∀ e, g.hashTable.getItem? h = some e → e.chunk ≠ -1

/-- The round trip of a chunk: it is the content of its hash; a reader finds the block that `dedup`
lists for a known chunk, and would find a new one. -/
structure Storable (cfg : Config) (P : Packages H) (content : H → Bytes) (g : Globals H)
    (c : Bytes) : Prop where
  content_eq : content (P.xxh3_64 c) = c
  known : ∀ e, g.hashTable.d.get? (P.xxh3_64 c) = some e →
    Served cfg P content g ⟨P.xxh3_64 c, e.size, e.deflatedSize⟩
  unknown : g.hashTable.d.get? (P.xxh3_64 c) = none → Unread g (P.xxh3_64 c) c

/-- The hash of a chunk determines it. -/
theorem Storable.same {c c' : Bytes} {g₁ g₂ : Globals H} (hc : Storable cfg P content g₁ c)
    (hc' : Storable cfg P content g₂ c') (h : P.xxh3_64 c = P.xxh3_64 c') : c' = c := by
  rw [← hc'.content_eq, ← h, hc.content_eq]

/-- What a computation keeps that reads served blocks and stores storable chunks. -/
structure Kept (cfg : Config) (P : Packages H) (content : H → Bytes) (g g' : Globals H) : Prop where
  served : ∀ b, Served cfg P content g b → Served cfg P content g' b
  storable : ∀ c, Storable cfg P content g c → Storable cfg P content g' c
  placed : Placed g → Placed g'

instance : Py.Frame (Kept (H := H) cfg P content) where
  refl _ := ⟨fun _ h => h, fun _ h => h, id⟩
  trans h h' := ⟨fun b hb => h'.served b (h.served b hb), fun c hc => h'.storable c (h.storable c hc),
    fun hp => h'.placed (h.placed hp)⟩

theorem Kept.all {bs : List (FileBlock H)} (h : Kept cfg P content g g')
    (hbs : AllServed cfg P content bs g) : AllServed cfg P content bs g' :=
  fun b hb => h.served b (hbs b hb)

/-- A block is fetched alike while its entry and the stores are the same. -/
theorem Served.fetch_congr {b : FileBlock H} (hb : Served cfg P content g b)
    (htable : g'.hashTable.getItem? b.hash = g.hashTable.getItem? b.hash)
    (hds : g'.datastore = g.datastore) (hsm : g'.smallBlocks = g.smallBlocks) :
    (fetchUncached cfg P b g').1 = (fetchUncached cfg P b g).1 := by
  cases he : g.hashTable.getItem? b.hash with
  | none =>
    rw [fetchUncached_missing cfg P b he, fetchUncached_missing cfg P b (htable.trans he)]
  | some e =>
    have hown := hb.own e he
    have hsmall : smallAt cfg P b g' = smallAt cfg P b g := by
      unfold smallAt
      rw [htable, hsm]
    have hread : ∀ ds : DataStore H, readData cfg P e.hash e.offset ds b.size g'.hashTable =
        readData cfg P e.hash e.offset ds b.size g.hashTable := by
      intro ds
      unfold readData rocksdbRead mmRead
      rw [hown, htable]
    have hstored : storedAt cfg P b e g' = storedAt cfg P b e g := by
      unfold storedAt
      simp only [hds, hread]
    rw [fetchUncached_fst cfg P b he, fetchUncached_fst cfg P b (htable.trans he), hsmall, hstored]

/-! ### Storing a chunk -/

/-- Another reference to a known chunk. -/
theorem Storable.kept_known {c : Bytes} {e : Block H} (hc : Storable cfg P content g c)
    (he : g.hashTable.d.get? (P.xxh3_64 c) = some e) :
    Kept cfg P content g { g with
      readCache := g.readCache.set (P.xxh3_64 c) c
      hashTable := g.hashTable.setItem (P.xxh3_64 c) { e with uses := e.uses + 1 } } := by
  generalize hg₁ : { g with
      readCache := g.readCache.set (P.xxh3_64 c) c
      hashTable := g.hashTable.setItem (P.xxh3_64 c) { e with uses := e.uses + 1 } } = g₁
  have hget := HashTable.getItem?_of_d _ he
  have hrefers : Refers (P.xxh3_64 c) g g₁ := by
    subst hg₁
    exact .known e he (fun k => HashTable.setItem_d_get? _ _ _ _) rfl (by constructor <;> rfl)
  have hserved : ∀ b, Served cfg P content g b → Served cfg P content g₁ b := by
    intro b hb
    subst hg₁
    have hcached := hb.toAvailable.cached (P.xxh3_64 c)
    rw [hc.content_eq] at hcached
    refine ⟨hcached.withdrawn ⟨⟨fun k => ?_, rfl, rfl, rfl⟩, fun _ _ h => h, fun _ _ h => h⟩,
      fun x hx => ?_⟩
    · rw [HashTable.setItem_getItem?]
      split
      · rename_i hk
        rw [← hk, hget]
        rfl
      · rfl
    · rw [HashTable.setItem_getItem?] at hx
      split at hx
      · rename_i hk
        cases hx
        exact hb.own e (hk ▸ hget)
      · exact hb.own x hx
  refine ⟨hserved, fun c' hc' => ⟨hc'.content_eq, fun x hx => ?_, fun hx => ?_⟩, hrefers.placed⟩
  · subst hg₁
    rw [HashTable.setItem_d_get?] at hx
    split at hx
    · rename_i hk
      cases hx
      exact hserved _ (hc'.known e (hk ▸ he))
    · exact hserved _ (hc'.known x hx)
  · subst hg₁
    rw [HashTable.setItem_d_get?] at hx
    split at hx
    · cases hx
    · rename_i hk
      have hun := hc'.unknown hx
      refine ⟨fun d hd => ?_, hun.smallCache, fun x he' => ?_⟩
      · exact hun.readCache d ((LRU.get?_set hd).resolve_left fun h => hk h.1)
      · rw [HashTable.setItem_getItem?, if_neg hk] at he'
        exact hun.chunk x he'

/-- A new chunk: its block is served from the cache of unwritten blocks. -/
theorem Storable.kept_new {c : Bytes} {q : QueuedWrite H} (hc : Storable cfg P content g c)
    (he : g.hashTable.d.get? (P.xxh3_64 c) = none) (hhash : q.hash = P.xxh3_64 c) (hdata : q.data = c)
    (size : Nat) :
    let g₁ := { g with
      writeReadCache := g.writeReadCache.set (P.xxh3_64 c) c
      writeBuffer := g.writeBuffer.append q
      hashTable := g.hashTable.setItem (P.xxh3_64 c) (placeholder q) }
    Kept cfg P content g g₁ ∧ Served cfg P content g₁ ⟨P.xxh3_64 c, size, c.length⟩ := by
  intro g₁
  have hrefers : Refers (P.xxh3_64 c) g g₁ :=
    .new q he hhash (fun k => HashTable.setItem_d_get? _ _ _ _) rfl (by constructor <;> rfl)
  have hun := hc.unknown he
  have hown : ∀ b : FileBlock H, b.hash = P.xxh3_64 c → (content b.hash).length = b.rawSize →
      Served cfg P content g₁ b := by
    intro b hb hsize
    have hcontent : content b.hash = c := by rw [hb, hc.content_eq]
    refine ⟨⟨hsize, by rw [hcontent, hb], fun d hd => ?_, fun d hd => ?_, fun d hd => ?_, .inl ⟨?_, ?_⟩⟩,
      fun e hget => ?_⟩
    · rw [hcontent]
      exact hun.readCache d (hb ▸ hd)
    · rw [hcontent]
      exact Option.some.inj (hun.smallCache _ (hb ▸ hd))
    · rw [hcontent]
      rw [hb, Dict.get?_set_self] at hd
      exact (Option.some.inj hd).symm
    · rw [hcontent, hb]
      exact Dict.get?_set_self _ _ _
    · intro hnone
      cases hun.smallCache none (hb ▸ hnone)
    · rw [HashTable.setItem_getItem?, if_pos hb.symm] at hget
      cases hget
      exact hhash.trans hb.symm
  have hserved : ∀ b, Served cfg P content g b → Served cfg P content g₁ b := by
    intro b hb
    by_cases h : b.hash = P.xxh3_64 c
    · exact hown b h hb.size
    · have htable : g₁.hashTable.getItem? b.hash = g.hashTable.getItem? b.hash := by
        rw [HashTable.setItem_getItem?, if_neg fun e => h e.symm]
      have hcache : g₁.writeReadCache.get? b.hash = g.writeReadCache.get? b.hash :=
        Dict.get?_set_ne _ _ fun e => h e.symm
      have hfetch : (fetchUncached cfg P b g₁).1 = (fetchUncached cfg P b g).1 :=
        hb.fetch_congr htable rfl rfl
      refine ⟨⟨hb.size, hb.hash, hb.readCache, hb.smallCache, fun d hd => ?_, ?_⟩, fun e hget => ?_⟩
      · exact hb.writeCache d (hcache ▸ hd)
      · rw [hcache, hfetch]
        exact hb.held
      · exact hb.own e (htable ▸ hget)
  refine ⟨⟨hserved, fun c' hc' => ⟨hc'.content_eq, fun x hx => ?_, fun hx => ?_⟩, hrefers.placed⟩, ?_⟩
  · rw [HashTable.setItem_d_get?] at hx
    split at hx
    · rename_i hk
      cases hx
      have hsame := hc.same hc' hk
      refine hown _ hk.symm ?_
      rw [hc'.content_eq, hsame, ← hdata]
      rfl
    · exact hserved _ (hc'.known x hx)
  · rw [HashTable.setItem_d_get?] at hx
    split at hx
    · cases hx
    · rename_i hk
      have hun' := hc'.unknown hx
      refine ⟨hun'.readCache, hun'.smallCache, fun x he' => ?_⟩
      rw [HashTable.setItem_getItem?, if_neg hk] at he'
      exact hun'.chunk x he'
  · refine hown _ rfl ?_
    rw [hc.content_eq]

/-- **One chunk** is stored under a block that is served. -/
theorem dedupChunk_kept (compress : Bytes → Bool × Bytes) {c : Bytes}
    (hc : Storable cfg P content g c) :
    ∃ b g', dedupChunk P compress c g = (.ok b, g') ∧ Kept cfg P content g g' ∧
      Served cfg P content g' b ∧ content b.hash = c := by
  cases he : g.hashTable.d.get? (P.xxh3_64 c) with
  | some e =>
    have hkept := hc.kept_known he
    exact ⟨_, _, dedupChunk_known he, hkept, hkept.served _ (hc.known e he), hc.content_eq⟩
  | none =>
    obtain ⟨hkept, hserved⟩ := hc.kept_new (q := queueItem P compress c) he rfl rfl
      (compress c).2.length
    exact ⟨_, _, dedupChunk_new he, hkept, hserved, hc.content_eq⟩

theorem dedupChunks_kept (compress : Bytes → Bool × Bytes) : ∀ (cs : List Bytes) {g : Globals H},
    (∀ c ∈ cs, Storable cfg P content g c) →
      ∃ bs g', dedupChunks P compress cs g = (.ok bs, g') ∧ Kept cfg P content g g' ∧
        AllServed cfg P content bs g' ∧ pieces content bs = cs
  | [], g, _ => ⟨[], g, rfl, Py.Frame.refl g, (fun _ hb => by cases hb), rfl⟩
  | c :: cs, g, hcs => by
    obtain ⟨b, g₁, hrun, hkept, hserved, hcontent⟩ := dedupChunk_kept compress
      (hcs c List.mem_cons_self)
    obtain ⟨bs, g₂, hrest, hkept', hserved', hpieces⟩ := dedupChunks_kept compress cs fun x hx =>
      hkept.storable x (hcs x (List.mem_cons_of_mem _ hx))
    refine ⟨b :: bs, g₂, ?_, Py.Frame.trans hkept hkept', fun x hx => ?_, ?_⟩
    · rw [dedupChunks, Py.run_bind_ok hrun, Py.run_bind_ok hrest]
      rfl
    · rcases List.mem_cons.mp hx with rfl | hx
      · exact hkept'.served _ hserved
      · exact hserved' x hx
    · rw [pieces, List.map_cons, hcontent]
      exact congrArg _ hpieces

/-- **`dedup` of data whose chunks are storable** lists served blocks that hold the data. -/
theorem dedup_kept (hP : P.Lawful) {data : Bytes}
    (hdata : ∀ c ∈ (dedupPieces cfg P data).1, Storable cfg P content g c) :
    ∃ bs g', dedup cfg P data g = (.ok bs, g') ∧ Kept cfg P content g g' ∧
      AllServed cfg P content bs g' ∧ contents content bs = data := by
  obtain ⟨bs, g', hrun, hkept, hserved, hpieces⟩ :=
    dedupChunks_kept (dedupPieces cfg P data).2 (dedupPieces cfg P data).1 hdata
  refine ⟨bs, g', hrun, hkept, hserved, ?_⟩
  unfold contents
  rw [hpieces]
  exact dedupPieces_flatten hP cfg data

/-! ### Reading served blocks -/

theorem Unread.fetch {h : H} {c : Bytes} (hun : Unread g h c) (b : FileBlock H) :
    Unread (fetchUncached cfg P b g).2 h c := by
  by_cases hb : b.hash = h
  · subst hb
    have hsame : (fetchUncached cfg P b g).2 = g := by
      cases he : g.hashTable.getItem? b.hash with
      | none => rw [fetchUncached_missing cfg P b he]
      | some e => rw [fetchUncached_eq cfg P b he, if_neg (hun.chunk e he)]
    rw [hsame]
    exact hun
  · rcases fetchUncached_snd cfg P b g with hs | ⟨o, hs, _⟩
    · rw [hs]
      exact hun
    · rw [hs]
      exact ⟨hun.readCache, fun x hx =>
        hun.smallCache x ((LRU.get?_set hx).resolve_left fun e => hb e.1), hun.chunk⟩

theorem Served.kept_fetch {b : FileBlock H} (hb : Served cfg P content g b) :
    Kept cfg P content g (fetchBlock cfg P b g).2 := by
  have hcaches : CachesOnly g _ := fetchBlock_keeps cfg P b g
  have hserved : ∀ b', Served cfg P content g b' → Served cfg P content (fetchBlock cfg P b g).2 b' :=
    fun b' hb' => ⟨(fetchBlock_available hb.toAvailable).2 b' hb'.toAvailable, fun e he =>
      hb'.own e (by rw [← hcaches.hashTable]; exact he)⟩
  refine ⟨hserved, fun c hc => ⟨hc.content_eq, fun e he => ?_, fun he => ?_⟩, fun hp => hp.of_caches hcaches⟩
  · exact hserved _ (hc.known e (by rw [← hcaches.hashTable]; exact he))
  · have hun := hc.unknown (by rw [← hcaches.hashTable]; exact he)
    unfold fetchBlock
    rw [Py.run_bind_ok hb.toAvailable.cachedBlock]
    cases seekInCache g b.hash with
    | some d => exact hun
    | none => exact hun.fetch b

theorem Kept.cached (b : FileBlock H) :
    Kept cfg P content g { g with readCache := g.readCache.set b.hash (content b.hash) } := by
  have hserved : ∀ b', Served cfg P content g b' → Served cfg P content
      { g with readCache := g.readCache.set b.hash (content b.hash) } b' :=
    fun b' hb' => ⟨hb'.toAvailable.cached b.hash, hb'.own⟩
  refine ⟨hserved, fun c hc => ⟨hc.content_eq, fun e he => hserved _ (hc.known e he), fun he => ?_⟩,
    fun hp => ⟨hp.entries, hp.stores, hp.nonempty⟩⟩
  have hun := hc.unknown he
  refine ⟨fun d hd => ?_, hun.smallCache, hun.chunk⟩
  rcases LRU.get?_set hd with ⟨hk, rfl⟩ | hd
  · rw [hk, hc.content_eq]
  · exact hun.readCache d hd

theorem readBlocks_kept {bs : List (FileBlock H)} : ∀ (l : List (FileBlock H)) (data : Bytes)
    {g : Globals H}, (∀ b ∈ l, b ∈ bs) → AllServed cfg P content bs g →
      Kept cfg P content g (readBlocks cfg P l data g).2
  | [], _, g, _, _ => Py.Frame.refl g
  | b :: l, data, g, hl, hbs => by
    have hb := hbs b (hl b List.mem_cons_self)
    have hfetch := (fetchBlock_available hb.toAvailable).1
    have hkept := hb.kept_fetch
    rw [readBlocks]
    cases hr : fetchBlock cfg P b g with
    | mk r g₁ =>
      rw [hr] at hfetch hkept
      dsimp only at hfetch
      subst hfetch
      have hkept' : Kept cfg P content g { g₁ with
          readCache := g₁.readCache.set b.hash (content b.hash) } :=
        Py.Frame.trans hkept (.cached b)
      have hrest := readBlocks_kept l (data ++ content b.hash)
        (fun x hx => hl x (List.mem_cons_of_mem _ hx)) (hkept'.all hbs)
      rw [Py.run_bind_ok hr]
      dsimp only
      rw [if_pos hb.hash]
      exact Py.Frame.trans hkept' hrest

/-- What a computation keeps if all blocks of a list are served. -/
def Reading (cfg : Config) (P : Packages H) (content : H → Bytes) (bs : List (FileBlock H))
    (s s' : Fs H) : Prop :=
  AllServed cfg P content bs s.globals → Kept cfg P content s.globals s'.globals

instance (bs : List (FileBlock H)) : Py.Frame (Reading cfg P content bs) where
  refl s _ := Py.Frame.refl s.globals
  trans h h' hbs := Py.Frame.trans (h hbs) (h' ((h hbs).all hbs))

theorem getFileData_kept (bs : List (FileBlock H)) (i j : Int) :
    Py.Keeps (Reading cfg P content bs) (Fs.onGlobals (getFileData cfg P bs i j)) := fun _ hbs =>
  readBlocks_kept _ [] (fun _ hb => mem_of_mem_slice hb) hbs

section

variable {s : Fs H} {fh offset : Nat} {f : FileInode H}

theorem retrieveData_kept (hf : s.inodes.d.get? fh = some f) (hoffsets : f.OffsetsExact)
    (hserved : AllServed cfg P content f.data s.globals) (offset length : Nat) (whole : Bool) :
    Kept cfg P content s.globals (retrieveData cfg P fh offset length whole s).2.globals := by
  by_cases hnil : f.data = []
  · unfold retrieveData
    rw [Py.run_bind_ok (Py.run_read s), show s.inodes.getItem? fh = some f from hf]
    dsimp only
    rw [if_pos hnil]
    exact Py.Frame.refl s.globals
  · obtain ⟨t, f₁, hdata, _, _, hrun⟩ := retrieveData_blocks hf hnil hoffsets offset length whole
    have hreading : Py.Keeps (Reading cfg P content f₁.data)
        (retrieveBlocks cfg P f₁ offset length whole) :=
      retrieveBlocks_keeps (getFileData_kept f₁.data) offset length whole
    rw [hrun]
    exact hreading { s with inodes := t } (hdata ▸ hserved)

/-- **A read of a file with served blocks** returns a slice of the contents. -/
theorem read_run (hf : s.inodes.d.get? fh = some f)
    (hserved : AllServed cfg P content f.data s.globals) (hsum : (rawSizes f.data).sum = f.size)
    (hoffsets : f.OffsetsExact) (hle : offset ≤ f.size) (length : Nat) (now : Time) :
    ∃ s', read cfg P fh offset length now s =
        (.ok (((contents content f.data).take (offset + length)).drop offset), s') ∧
      Reread fh s s' ∧ Kept cfg P content s.globals s'.globals := by
  have hread := hserved.available.readable
  have hslice := retrieveData_slice hf hread hsum hoffsets hle length
  have hkept := retrieveData_kept hf hoffsets hserved offset length false
  have hreread : Reread fh s _ := retrieveData_keeps cfg P fh offset length false s
  have hkeeps : Reread fh s _ := read_keeps cfg P fh offset length now s
  have hlen : (contents content f.data).length = f.size := (length_contents hread.sizes).trans hsum
  have hcut : (contents content f.data).take (min f.size (offset + length)) =
      (contents content f.data).take (offset + length) := by
    rw [← hlen, Nat.min_comm, List.take_eq_take_iff, Nat.min_assoc, Nat.min_self]
  rw [slice_natCast, hcut] at hslice
  cases hr : retrieveData cfg P fh offset length false s with
  | mk r s₁ =>
    rw [hr] at hslice hkept hreread
    dsimp only at hslice
    subst hslice
    obtain ⟨f₁, hf₁, _⟩ := hreread.of_some hf
    have hrun : read cfg P fh offset length now s =
        (.ok (((contents content f.data).take (offset + length)).drop offset),
          { s₁ with inodes := s₁.inodes.setItem fh { f₁ with atimeNs := timeNs now } }) := by
      unfold read
      rw [Py.run_bind_ok hr, Py.run_bind_ok (inodeAt_run hf₁)]
      rfl
    rw [hrun] at hkeeps
    exact ⟨_, hrun, hkeeps, hkept⟩

/-- **A write at the end of a file** of data whose chunks are storable. -/
theorem write_run (hP : P.Lawful) (hf : s.inodes.d.get? fh = some f) {buf : Bytes}
    (hbuf : ∀ c ∈ (dedupPieces cfg P buf).1, Storable cfg P content s.globals c) (now : Time) :
    ∃ blks g', write cfg P fh f.size buf now s = (.ok buf.length,
        ⟨s.inodes.setItem fh (f.written (f.data ++ blks) f.size buf.length now), g'⟩) ∧
      Kept cfg P content s.globals g' ∧ AllServed cfg P content blks g' ∧
      contents content blks = buf := by
  have hm : ¬ inMiddle f f.size buf.length := fun h => by
    have := h.2.2
    omega
  obtain ⟨blks, g', hd, hw⟩ := write_append cfg P now hf hm
  obtain ⟨bs, g₁, hrun, hkept, hserved, hcontents⟩ := dedup_kept hP hbuf
  rw [hrun] at hd
  cases hd
  exact ⟨_, _, hw, hkept, hserved, hcontents⟩

end

/-! ## The copy loop -/

omit [DecidableEq H] in
/-- The part of the contents that lies in one block. -/
theorem contents_part {done rest : List (FileBlock H)} {b : FileBlock H} {m : Nat}
    (hdone : ∀ x ∈ done, (content x.hash).length = x.rawSize) (hm : m ≤ (content b.hash).length) :
    ((contents content (done ++ b :: rest)).take ((rawSizes done).sum + m)).drop (rawSizes done).sum =
      (content b.hash).take m := by
  rw [contents_append, ← length_contents hdone, List.take_length_add_append, List.drop_left]
  exact List.take_append_of_le_length hm

/-- The buffers that `truncate_down` writes: the bytes of whole blocks, and of a part of the last
one. -/
def copied (content : H → Bytes) : List (FileBlock H) → Nat → List Bytes
  | [], _ => []
  | b :: bs, n =>
    if b.rawSize ≤ n then
      content b.hash :: (if b.rawSize = n then [] else copied content bs (n - b.rawSize))
    else [(content b.hash).take n]

/-- A file under its own number: its blocks are served, their sizes sum to the size of the file, and
its offsets are empty or exact. -/
structure SoundFile (cfg : Config) (P : Packages H) (content : H → Bytes) (s : Fs H) (fh : Nat)
    (f : FileInode H) : Prop where
  file : s.inodes.d.get? fh = some f
  own : f.inode = fh
  served : AllServed cfg P content f.data s.globals
  sum : (rawSizes f.data).sum = f.size
  offsets : f.OffsetsExact

theorem SoundFile.length_contents {s : Fs H} {fh : Nat} {f : FileInode H}
    (hfile : SoundFile cfg P content s fh f) : (contents content f.data).length = f.size :=
  (VeratyFS.length_contents hfile.served.available.readable.sizes).trans hfile.sum

/-- **The invariant of the copy loop**: the copy holds the contents up to the offset, the file is
what it was but for its offset cache, and the other inodes are untouched. -/
structure Copying (cfg : Config) (P : Packages H) (content : H → Bytes) (s₀ : Fs H) (fh tempIno : Nat)
    (f : FileInode H) (offset : Nat) (s : Fs H) : Prop where
  file : ∃ f₁, s.inodes.d.get? fh = some f₁ ∧ OffsetsOnly f f₁ ∧ f₁.OffsetsExact
  copy : ∃ t, s.inodes.d.get? tempIno = some t ∧
    contents content t.data = (contents content f.data).take offset ∧ t.size = offset ∧
    (rawSizes t.data).sum = offset ∧ AllServed cfg P content t.data s.globals
  others : ∀ k, k ≠ fh → k ≠ tempIno → s.inodes.d.get? k = s₀.inodes.d.get? k
  kept : Kept cfg P content s₀.globals s.globals

section

variable {s₀ s : Fs H} {fh tempIno offset length : Nat} {f : FileInode H}

/-- The copy is no longer than the file. -/
theorem Copying.le (hfile : SoundFile cfg P content s₀ fh f)
    (h : Copying cfg P content s₀ fh tempIno f offset s) : offset ≤ f.size := by
  obtain ⟨t, _, hcontents, _, hsum, hserved⟩ := h.copy
  have hcopy : (contents content t.data).length = offset :=
    (length_contents hserved.available.readable.sizes).trans hsum
  rw [hcontents, List.length_take, hfile.length_contents] at hcopy
  omega

/-- A read of the file leaves the copy where it is. -/
theorem Copying.reads (hfile : SoundFile cfg P content s₀ fh f) (hne : tempIno ≠ fh)
    (h : Copying cfg P content s₀ fh tempIno f offset s) (length : Nat) (now : Time) :
    ∃ s₁, read cfg P fh offset length now s =
        (.ok (((contents content f.data).take (offset + length)).drop offset), s₁) ∧
      Copying cfg P content s₀ fh tempIno f offset s₁ := by
  obtain ⟨f₁, hf₁, honly, hexact⟩ := h.file
  obtain ⟨t, ht, hcontents, hsize, hsum, hserved⟩ := h.copy
  obtain ⟨s₁, hrun, hreread, hkept⟩ := read_run hf₁ (honly.data ▸ h.kept.all hfile.served)
    (by rw [honly.data, honly.size, hfile.sum]) hexact (honly.size ▸ h.le hfile) length now
  rw [honly.data] at hrun
  obtain ⟨f₂, hf₂, honly'⟩ := hreread.of_some hf₁
  exact ⟨s₁, hrun, ⟨f₂, hf₂, honly.trans honly', honly'.exact hexact⟩,
    ⟨t, (hreread.others _ hne).trans ht, hcontents, hsize, hsum, hkept.all hserved⟩,
    fun k hk hk' => (hreread.others k hk).trans (h.others k hk hk'), Py.Frame.trans h.kept hkept⟩

/-- The next bytes of the contents are written at the end of the copy. -/
theorem Copying.writes (hP : P.Lawful) (hne : tempIno ≠ fh)
    (h : Copying cfg P content s₀ fh tempIno f offset s) {buf : Bytes}
    (hbuf : ((contents content f.data).take (offset + buf.length)).drop offset = buf)
    (hstore : ∀ c ∈ (dedupPieces cfg P buf).1, Storable cfg P content s₀.globals c) (now : Time) :
    ∃ s₁, write cfg P tempIno offset buf now s = (.ok buf.length, s₁) ∧
      Copying cfg P content s₀ fh tempIno f (offset + buf.length) s₁ := by
  obtain ⟨t, ht, hcontents, hsize, hsum, hserved⟩ := h.copy
  obtain ⟨blks, g', hrun, hkept, hblks, hdata⟩ := write_run hP ht
    (fun c hc => h.kept.storable c (hstore c hc)) now
  have hlen : (rawSizes blks).sum = buf.length := by
    rw [← length_contents fun b hb => (hblks b hb).size, hdata]
  rw [hsize] at hrun
  refine ⟨_, hrun, ?_, ⟨_, Dict.get?_set_self _ _ _, ?_, ?_, ?_, ?_⟩, fun k hk hk' => ?_,
    Py.Frame.trans h.kept hkept⟩
  · obtain ⟨f₁, hf₁, hrest⟩ := h.file
    exact ⟨f₁, (Dict.get?_set_ne _ _ hne).trans hf₁, hrest⟩
  · -- the first bytes, then the next ones
    change contents content (t.data ++ blks) = _
    have hsplit := List.take_append_drop offset ((contents content f.data).take (offset + buf.length))
    rw [List.take_take, Nat.min_eq_left (Nat.le_add_right _ _), hbuf] at hsplit
    rw [contents_append, hcontents, hdata, hsplit]
  · change max t.size (offset + buf.length) = _
    omega
  · change (rawSizes (t.data ++ blks)).sum = _
    rw [rawSizes, List.map_append, List.sum_append]
    exact congrArg₂ (· + ·) hsum hlen
  · intro b hb
    rcases List.mem_append.mp hb with hb | hb
    · exact hkept.served b (hserved b hb)
    · exact hblks b hb
  · exact (Dict.get?_set_ne _ _ fun e => hk' e.symm).trans (h.others k hk hk')

/-- **One round**: the next bytes of the file follow the copy, or one of the two calls raises. -/
theorem Copying.round (hP : P.Lawful) (hfile : SoundFile cfg P content s₀ fh f) (hne : tempIno ≠ fh)
    (h : Copying cfg P content s₀ fh tempIno f offset s) {buf : Bytes}
    (hbuf : ((contents content f.data).take (offset + length)).drop offset = buf)
    (hlen : buf.length = length)
    (hstore : ∀ c ∈ (dedupPieces cfg P buf).1, Storable cfg P content s₀.globals c)
    (φ : Faults H) (round : Nat) (now : Time) :
    (∃ e s', (∀ next : Nat → Op H Unit, (do
          let dat ← interrupted (φ (.read round)) (read cfg P fh offset length now)
          let written ← interrupted (φ (.write round)) (write cfg P tempIno offset dat now)
          next written : Op H Unit) s = (.error e, s')) ∧
        ∃ c ∈ [InnerCall.read round, .write round], φ c ≠ none) ∨
    ∃ s₁ s₂, interrupted (φ (.read round)) (read cfg P fh offset length now) s = (.ok buf, s₁) ∧
      interrupted (φ (.write round)) (write cfg P tempIno offset buf now) s₁ = (.ok length, s₂) ∧
      Copying cfg P content s₀ fh tempIno f (offset + length) s₂ ∧
      φ (.read round) = none ∧ φ (.write round) = none := by
  obtain ⟨s₁, hread, hcopying⟩ := h.reads hfile hne length now
  rw [hbuf] at hread
  subst hlen
  obtain ⟨s₂, hwrite, hcopying'⟩ := hcopying.writes hP hne hbuf hstore now
  rcases interrupted_cases (φ (.read round)) (read cfg P fh offset buf.length now) s with
    ⟨hφ, hrun⟩ | ⟨y, hφ, hrun⟩
  · rw [hread] at hrun
    rcases interrupted_cases (φ (.write round)) (write cfg P tempIno offset buf now) s₁ with
      ⟨hφ', hrun'⟩ | ⟨y, hφ', hrun'⟩
    · exact .inr ⟨s₁, s₂, hrun, hrun'.trans hwrite, hcopying', hφ, hφ'⟩
    · refine .inl ⟨_, _, fun next => (Py.run_bind_ok hrun).trans (Py.run_bind_error hrun'),
        .write round, by simp, by simp [hφ']⟩
  · exact .inl ⟨_, _, fun next => Py.run_bind_error hrun, .read round, by simp, by simp [hφ]⟩

end

/-- The calls of the copy loop: a read and a write in each round, up to the block in which the new
size lies. -/
def copyCalls {H : Type} : List (FileBlock H) → Nat → Nat → List InnerCall
  | [], _, _ => []
  | b :: bs, n, round =>
    .read round :: .write round ::
      (if b.rawSize < n then copyCalls bs (n - b.rawSize) (round + 1) else [])

/-- **The copy loop ends with the copy of the first bytes**, at whichever of its exits, or one of its
calls raises. -/
theorem copyBlocksUnder_copies (hP : P.Lawful) (φ : Faults H) {s₀ : Fs H} {fh tempIno newSize : Nat}
    {f : FileInode H} (hfile : SoundFile cfg P content s₀ fh f) (hne : tempIno ≠ fh)
    (hn : newSize ≤ f.size) (now : Time) :
    ∀ (rest done : List (FileBlock H)) (round : Nat) (s : Fs H), f.data = done ++ rest →
      (rawSizes done).sum ≤ newSize →
      Copying cfg P content s₀ fh tempIno f (rawSizes done).sum s →
      (∀ d ∈ copied content rest (newSize - (rawSizes done).sum), ∀ c ∈ (dedupPieces cfg P d).1,
        Storable cfg P content s₀.globals c) →
      (∃ s', copyBlocksUnder φ cfg P now fh tempIno newSize round rest (rawSizes done).sum s =
          (.ok (), s') ∧ Copying cfg P content s₀ fh tempIno f newSize s' ∧
          ∀ c ∈ copyCalls rest (newSize - (rawSizes done).sum) round, φ c = none) ∨
      ∃ e s', copyBlocksUnder φ cfg P now fh tempIno newSize round rest (rawSizes done).sum s =
          (.error e, s') ∧
        ∃ c ∈ copyCalls rest (newSize - (rawSizes done).sum) round, φ c ≠ none
  | [], done, _, s, hdata, hle, h, _ => by
    rw [List.append_nil] at hdata
    have hall : (rawSizes done).sum = newSize := by
      rw [← hdata, hfile.sum] at hle ⊢
      omega
    exact .inl ⟨s, rfl, hall ▸ h, fun c hc => by cases hc⟩
  | b :: rest, done, round, s, hdata, hle, h, hstore => by
    have hsizes := hfile.served.available.readable.sizes
    have hdone : ∀ x ∈ done, (content x.hash).length = x.rawSize := fun x hx =>
      hsizes x (hdata ▸ List.mem_append_left _ hx)
    have hb : (content b.hash).length = b.rawSize :=
      hsizes b (hdata ▸ List.mem_append_right _ List.mem_cons_self)
    have hpart : ∀ m ≤ b.rawSize, ((contents content f.data).take ((rawSizes done).sum + m)).drop
        (rawSizes done).sum = (content b.hash).take m := fun m hm => by
      rw [hdata]
      exact contents_part hdone (hb ▸ hm)
    rw [copyBlocksUnder, copyCalls]
    rw [copied] at hstore
    by_cases hfits : b.rawSize + (rawSizes done).sum ≤ newSize
    · -- a whole block
      rw [if_pos hfits]
      rw [if_pos (show b.rawSize ≤ newSize - (rawSizes done).sum by omega)] at hstore
      have hwhole := hpart b.rawSize (Nat.le_refl _)
      rw [← hb, List.take_length, hb] at hwhole
      rcases h.round hP hfile hne hwhole hb (hstore _ List.mem_cons_self) φ round now with
        ⟨e, s', hraise, c, hc, hφ⟩ | ⟨s₁, s₂, hread, hwrite, hnext, hread₀, hwrite₀⟩
      · exact .inr ⟨e, s', hraise _, c, List.mem_append_left _ hc, hφ⟩
      rw [Py.run_bind_ok hread, Py.run_bind_ok hwrite]
      by_cases hlast : (rawSizes done).sum + b.rawSize = newSize
      · rw [if_pos hlast, if_neg (show ¬ b.rawSize < newSize - (rawSizes done).sum by omega)]
        exact .inl ⟨s₂, rfl, hlast ▸ hnext, by simp [hread₀, hwrite₀]⟩
      · rw [if_neg hlast, if_pos (show b.rawSize < newSize - (rawSizes done).sum by omega)]
        rw [if_neg (show ¬ b.rawSize = newSize - (rawSizes done).sum by omega)] at hstore
        have hsum : (rawSizes (done ++ [b])).sum = (rawSizes done).sum + b.rawSize := by
          rw [rawSizes, List.map_append, List.sum_append]
          simp [rawSizes]
        rw [Nat.sub_sub, ← hsum] at hstore ⊢
        rw [← hsum] at hnext
        rcases copyBlocksUnder_copies hP φ hfile hne hn now rest (done ++ [b]) (round + 1) s₂
            (by simp [hdata]) (by omega) hnext fun d hd => hstore d (List.mem_cons_of_mem _ hd) with
          ⟨s', hrun, hcopying, hφ⟩ | ⟨e, s', hrun, c, hc, hφ⟩
        · exact .inl ⟨s', hrun, hcopying, by simpa [hread₀, hwrite₀] using hφ⟩
        · exact .inr ⟨e, s', hrun, c, List.mem_cons_of_mem _ (List.mem_cons_of_mem _ hc), hφ⟩
    · -- the first bytes of the last block
      rw [if_neg hfits, if_neg (show ¬ b.rawSize < newSize - (rawSizes done).sum by omega)]
      rw [if_neg (show ¬ b.rawSize ≤ newSize - (rawSizes done).sum by omega)] at hstore
      have hm : newSize - (rawSizes done).sum ≤ b.rawSize := by omega
      rcases h.round hP hfile hne (hpart _ hm) (by rw [List.length_take, hb, Nat.min_eq_left hm])
          (hstore _ (List.mem_singleton_self _)) φ round now with
        ⟨e, s', hraise, c, hc, hφ⟩ | ⟨s₁, s₂, hread, hwrite, hnext, hread₀, hwrite₀⟩
      · exact .inr ⟨e, s', hraise _, c, List.mem_append_left _ hc, hφ⟩
      rw [Py.run_bind_ok hread, Py.run_bind_ok hwrite]
      rw [Nat.add_sub_cancel' hle] at hnext
      exact .inl ⟨s₂, rfl, hnext, by simp [hread₀, hwrite₀]⟩

/-! ## Resizes -/

/-- **The drops** go through when every chunk has a free list, unless one of them is made to raise. -/
theorem dropBlocksUnder_run (φ : Faults H) (cfg : Config) (clock : Nat → Time) :
    ∀ (bs : List (FileBlock H)) (i : Nat) (s : Fs H), Placed s.globals →
      (∃ g', Py.forEach (dropBlockUnder φ cfg clock) (bs.zipIdx i) s = (.ok (), { s with globals := g' }) ∧
          Withdrawn s.globals g' ∧ ∀ j < bs.length, φ (.updateIndex (i + j)) = none) ∨
      ∃ e s', Py.forEach (dropBlockUnder φ cfg clock) (bs.zipIdx i) s = (.error e, s') ∧
        ∃ j < bs.length, φ (.updateIndex (i + j)) ≠ none
  | [], _, s, _ => .inl ⟨s.globals, rfl, Py.Frame.refl _, fun j hj => absurd hj (Nat.not_lt_zero j)⟩
  | b :: bs, i, s, hp => by
    rw [List.zipIdx_cons]
    rcases interrupted_cases (φ (.updateIndex i))
      (Fs.onGlobals (updateIndexRemove cfg (clock i) b.hash)) s with ⟨hφ, hrun⟩ | ⟨y, hφ, hrun⟩
    · have hok : (updateIndexRemove cfg (clock i) b.hash s.globals).1 = .ok () :=
        updateIndexRemove_ok hp (clock i) b.hash
      have hw : Withdrawn s.globals _ := updateIndexRemove_keeps cfg (clock i) b.hash s.globals
      have hcases := updateIndexRemove_cases cfg (clock i) b.hash s.globals
      cases hr : updateIndexRemove cfg (clock i) b.hash s.globals with
      | mk r g₁ =>
        rw [hr] at hok hw hcases
        dsimp only at hok
        subst hok
        have hone : dropBlockUnder φ cfg clock (b, i) s = (.ok (), { s with globals := g₁ }) :=
          hrun.trans (Py.run_zoom hr)
        have hp₁ : Placed g₁ := by
          rcases hcases with rfl | ⟨e, he, hd⟩
          · exact hp
          · exact hd.placed he hp
        rcases dropBlocksUnder_run φ cfg clock bs (i + 1) { s with globals := g₁ } hp₁ with
          ⟨g', hrest, hw', hno⟩ | ⟨e, s', hrest, j, hj, hraise⟩
        · refine .inl ⟨g', (Py.run_bind_ok (f := fun _ => Py.forEach _ _) hone).trans hrest,
            Py.Frame.trans hw hw', fun j hj => ?_⟩
          cases j with
          | zero => exact hφ
          | succ j =>
            rw [show i + (j + 1) = i + 1 + j by omega]
            exact hno j (Nat.lt_of_succ_lt_succ hj)
        · refine .inr ⟨e, s', (Py.run_bind_ok (f := fun _ => Py.forEach _ _) hone).trans hrest,
            j + 1, Nat.succ_lt_succ hj, ?_⟩
          rw [show i + (j + 1) = i + 1 + j by omega]
          exact hraise
    · exact .inr ⟨_, _, Py.run_bind_error (f := fun _ => Py.forEach _ _) hrun, 0, Nat.succ_pos _, by
        simp [hφ]⟩

theorem Served.withdrawn {b : FileBlock H} (hb : Served cfg P content g b) (hw : Withdrawn g g') :
    Served cfg P content g' b := by
  refine ⟨hb.toAvailable.withdrawn hw, fun e he => ?_⟩
  obtain ⟨e', he', hsame⟩ : ∃ e', g.hashTable.getItem? b.hash = some e' ∧ e'.stripped = e.stripped := by
    have hk := hw.bytes.entries b.hash
    rw [he] at hk
    exact Option.map_eq_some_iff.mp hk.symm
  have hhash : e'.hash = e.hash := congrArg (·.hash) hsame
  rw [← hhash]
  exact hb.own e' he'

/-- The file after a resize: the first bytes of its contents followed by zeros, and sizes that
agree; the numbers in the table are the same, and so are the other inodes. -/
structure Resized (cfg : Config) (P : Packages H) (content : H → Bytes) (s : Fs H) (fh : Nat)
    (f : FileInode H) (n : Nat) (s' : Fs H) : Prop where
  file : ∃ f', s'.inodes.d.get? fh = some f' ∧
    contents content f'.data = (padded n (contents content f.data)).take n ∧ f'.size = n ∧
    (rawSizes f'.data).sum = n ∧ AllServed cfg P content f'.data s'.globals
  numbers : ∀ k, s'.inodes.d.contains k = s.inodes.d.contains k
  others : ∀ k, k ≠ fh → s'.inodes.d.get? k = s.inodes.d.get? k

section

variable {s s' : Fs H} {fh n : Nat} {f : FileInode H}

omit [DecidableEq H] in
theorem padded_of_le {c : Bytes} (h : n ≤ c.length) : (padded n c).take n = c.take n := by
  rw [padded, Nat.sub_eq_zero_of_le h, List.replicate_zero, List.append_nil]

omit [DecidableEq H] in
theorem padded_of_ge {c : Bytes} (h : c.length ≤ n) :
    (padded n c).take n = c ++ List.replicate (n - c.length) 0 := by
  refine List.take_of_length_le ?_
  rw [padded, List.length_append, List.length_replicate]
  omega

/-- The calls of a truncation. -/
def truncateCalls {H : Type} (f : FileInode H) (n : Nat) : List InnerCall :=
  copyCalls f.data n 0 ++ (List.range f.data.length).map .updateIndex

section

variable {tempIno : Nat} {env : CallEnv H} (hP : P.Lawful) (φ : Faults H)
  (hfile : SoundFile cfg P content s fh f) (hplaced : Placed s.globals) (hn : n ≤ f.size)
  (hstore : ∀ d ∈ copied content f.data n, ∀ c ∈ (dedupPieces cfg P d).1,
    Storable cfg P content s.globals c)
  (hfresh : s.inodes.d.get? tempIno = none)
include hP hfile hplaced hn hstore hfresh

/-- **The `try` block of a truncation** copies the first bytes and drops the blocks, or one of its
calls raises. -/
theorem fillCopyUnder_copies (env : CallEnv H) :
    (∃ s₁ g', copyBlocksUnder φ cfg P (env.clock 0) fh tempIno n 0 f.data 0 (withCopy s tempIno f) =
        (.ok (), s₁) ∧
      dropBlocksUnder φ cfg env.clock (env.order.run f.data) s₁ = (.ok (), { s₁ with globals := g' }) ∧
      Copying cfg P content s fh tempIno f n s₁ ∧ Withdrawn s₁.globals g' ∧
      ∀ c ∈ truncateCalls f n, φ c = none) ∨
    ¬ Truncates φ cfg P env fh f n s tempIno ∧ ∃ c ∈ truncateCalls f n, φ c ≠ none := by
  have hne := temp_ne hfile.file hfresh
  -- the loop starts with an empty copy
  have hstart : Copying cfg P content s fh tempIno f 0 (withCopy s tempIno f) :=
    ⟨⟨f, (Dict.get?_set_ne _ _ hne).trans hfile.file, .refl f, hfile.offsets⟩,
      ⟨emptied f, Dict.get?_set_self _ _ _, rfl, rfl, rfl, fun _ hb => by cases hb⟩,
      fun k _ hk => Dict.get?_set_ne _ _ fun e => hk e.symm, Py.Frame.refl s.globals⟩
  have hlen : (env.order.run f.data).length = f.data.length := (env.order.perm f.data).length_eq
  rcases copyBlocksUnder_copies hP φ hfile hne hn (env.clock 0) f.data [] 0 _ rfl (Nat.zero_le n) hstart
      hstore with ⟨s₁, hloop, hdone, hφ⟩ | ⟨e, s₁, hloop, c, hc, hφ⟩
  · rcases dropBlocksUnder_run φ cfg env.clock (env.order.run f.data) 0 s₁
        (hdone.kept.placed hplaced) with ⟨g', hdrops, hw, hφ'⟩ | ⟨e, s₂, hdrops, j, hj, hφ'⟩
    · refine .inl ⟨s₁, g', hloop, hdrops, hdone, hw, fun c hc => ?_⟩
      rcases List.mem_append.mp hc with hc | hc
      · exact hφ c hc
      · obtain ⟨j, hj, rfl⟩ := List.mem_map.mp hc
        have hnone := hφ' j (by rw [hlen]; exact List.mem_range.mp hj)
        rwa [Nat.zero_add] at hnone
    · refine .inr ⟨fun h => ?_, .updateIndex j, List.mem_append_right _ (List.mem_map.mpr
        ⟨j, List.mem_range.mpr (hlen ▸ hj), rfl⟩), by rwa [Nat.zero_add] at hφ'⟩
      obtain ⟨_, _, _, hloop', hdrops', _⟩ := h.returns
      cases hloop.symm.trans hloop'
      cases hdrops.symm.trans hdrops'
  · refine .inr ⟨fun h => ?_, c, List.mem_append_left _ hc, hφ⟩
    obtain ⟨_, _, _, hloop', _⟩ := h.returns
    cases hloop.symm.trans hloop'

/-- A truncation of a file with served blocks goes through exactly if none of its calls is made to
raise. -/
theorem truncates_iff (hkey : tempIno < 256 ^ 64) :
    Truncates φ cfg P env fh f n s tempIno ↔ ∀ c ∈ truncateCalls f n, φ c = none := by
  rcases fillCopyUnder_copies hP φ hfile hplaced hn hstore hfresh env with
    ⟨s₁, g', hloop, hdrops, hdone, _, hφ⟩ | ⟨hno, c, hc, hφ⟩
  · obtain ⟨t, ht, _, hsize, _⟩ := hdone.copy
    exact ⟨fun _ => hφ, fun _ => ⟨hkey, s₁, _, t, hloop, hdrops, ht, hsize⟩⟩
  · exact ⟨fun h => absurd h hno, fun h => absurd (h c hc) hφ⟩

end

/-- **`truncate_down`** to a size in the file: the copy loop returns, then the drops, and the copy
takes the place of the file. -/
theorem truncateDown_stages (hP : P.Lawful) (hfile : SoundFile cfg P content s fh f)
    (hplaced : Placed s.globals) (hn : n ≤ f.size)
    (hstore : ∀ d ∈ copied content f.data n, ∀ c ∈ (dedupPieces cfg P d).1,
      Storable cfg P content s.globals c)
    (hfit : ∀ m, s.inodes.max = some m → m + 1 < 256 ^ 64) (env : CallEnv H) :
    ∃ tempIno s₁ s', NextNumber s tempIno ∧
      copyBlocks cfg P (env.clock 0) fh tempIno n f.data 0 (withCopy s tempIno f) = (.ok (), s₁) ∧
      Kept cfg P content s.globals s₁.globals ∧
      dropBlocks cfg env.clock (env.order.run f.data) s₁.globals = (.ok (), s'.globals) ∧
      truncateDown cfg P env fh n s = (.ok (), s') ∧ Resized cfg P content s fh f n s' := by
  obtain ⟨tempIno, hnext, hcopy⟩ := copyInode_run hfile.file
  have hfresh := hnext.unused
  have hne := temp_ne hfile.file hfresh
  have hkey : tempIno < 256 ^ 64 := by
    obtain ⟨m, hm, rfl⟩ := hnext
    exact hfit m hm
  obtain ⟨s₁, g', hloop, hdrops, hdone, hw, _⟩ :=
    (fillCopyUnder_copies hP (fun _ => none) hfile hplaced hn hstore hfresh env).resolve_right
      fun ⟨_, _, _, h⟩ => h rfl
  obtain ⟨f₁, hf₁, honly, _⟩ := hdone.file
  obtain ⟨t, ht, hcontents, hsize, hsum, hserved⟩ := hdone.copy
  have hfh : (withCopy s tempIno f).inodes.d.get? fh = some f :=
    (Dict.get?_set_ne _ _ hne).trans hfile.file
  have hreplace : replaceInodeUnder (fun _ => none) cfg env fh tempIno s₁ =
      (.ok (), ⟨((s₁.inodes.setItem fh t).delItem tempIno).2, g'⟩) := by
    unfold replaceInodeUnder
    rw [Py.run_bind_ok (inodeAt_run hf₁), honly.data, Py.run_bind_ok hdrops]
    exact takePlace_run (s := { s₁ with globals := g' }) ht
  have hfill : fillCopyUnder (fun _ => none) cfg P env fh tempIno n (withCopy s tempIno f) =
      (.ok (), ⟨((s₁.inodes.setItem fh t).delItem tempIno).2, g'⟩) := by
    unfold fillCopyUnder
    rw [Py.run_bind_ok (inodeAt_run hfh), Py.run_bind_ok hloop, hreplace]
  have hrun : truncateDown cfg P env fh n s =
      (.ok (), ⟨((s₁.inodes.setItem fh t).delItem tempIno).2, g'⟩) := by
    rw [← truncateDownUnder_none]
    unfold truncateDownUnder
    rw [Py.run_bind_ok hcopy]
    exact Py.run_attempt_ok hfill
  have htable := @takePlace_get? H fh tempIno s₁.inodes t ht hne
  have hnew : ((s₁.inodes.setItem fh t).delItem tempIno).2.d.get? fh = some t := by
    rw [htable, if_neg fun h => hne h.1, if_pos rfl]
  have hothers : ∀ k, k ≠ fh →
      ((s₁.inodes.setItem fh t).delItem tempIno).2.d.get? k = s.inodes.d.get? k := by
    intro k hk
    rw [htable, if_neg (fun e => hk e.symm : ¬ fh = k)]
    by_cases e : tempIno = k
    · rw [if_pos ⟨e, hkey⟩, ← e, hfresh]
    · rw [if_neg fun h => e h.1, hdone.others k hk fun h => e h.symm]
  rw [copyBlocksUnder_none] at hloop
  rw [dropBlocksUnder_none] at hdrops
  refine ⟨tempIno, s₁, _, hnext, hloop, hdone.kept, ?_, hrun,
    ⟨t, hnew, ?_, hsize, hsum, fun b hb => (hserved b hb).withdrawn hw⟩,
    numbers_of_others hfile.file hnew hothers, hothers⟩
  · have hfst := congrArg Prod.fst hdrops
    have hsnd := congrArg (fun p => p.2.globals) hdrops
    exact Prod.ext hfst hsnd
  · rw [hcontents, padded_of_le (hfile.length_contents ▸ hn)]

theorem truncateDown_resizes (hP : P.Lawful) (hfile : SoundFile cfg P content s fh f)
    (hplaced : Placed s.globals) (hn : n ≤ f.size)
    (hstore : ∀ d ∈ copied content f.data n, ∀ c ∈ (dedupPieces cfg P d).1,
      Storable cfg P content s.globals c)
    (hfit : ∀ m, s.inodes.max = some m → m + 1 < 256 ^ 64) (env : CallEnv H) :
    ∃ s', truncateDown cfg P env fh n s = (.ok (), s') ∧ Resized cfg P content s fh f n s' := by
  obtain ⟨_, _, s', _, _, _, _, hrun, hres⟩ :=
    truncateDown_stages hP hfile hplaced hn hstore hfit env
  exact ⟨s', hrun, hres⟩

/-- **The write of zeros at the end of a file.** -/
theorem write_resizes (hP : P.Lawful) (hfile : SoundFile cfg P content s fh f) (hn : f.size ≤ n)
    (hstore : ∀ c ∈ (dedupPieces cfg P (List.replicate (n - f.size) 0)).1,
      Storable cfg P content s.globals c) (now : Time) :
    ∃ r s', write cfg P fh f.size (List.replicate (n - f.size) 0) now s = (.ok r, s') ∧
      Resized cfg P content s fh f n s' := by
  obtain ⟨blks, g', hrun, hkept, hserved, hcontents⟩ := write_run hP hfile.file hstore now
  have hlen : (rawSizes blks).sum = n - f.size := by
    rw [← length_contents fun b hb => (hserved b hb).size, hcontents, List.length_replicate]
  have hothers : ∀ k, k ≠ fh → (s.inodes.setItem fh (f.written (f.data ++ blks) f.size
      (List.replicate (n - f.size) (0 : UInt8)).length now)).d.get? k = s.inodes.d.get? k :=
    fun k hk => Dict.get?_set_ne _ _ fun e => hk e.symm
  refine ⟨_, _, hrun, ⟨_, Dict.get?_set_self _ _ _, ?_, ?_, ?_, fun b hb => ?_⟩,
    numbers_of_setItem hfile.file _, hothers⟩
  · change contents content (f.data ++ blks) = _
    rw [contents_append, hcontents, padded_of_ge (hfile.length_contents ▸ hn), hfile.length_contents]
  · change max f.size (f.size + (List.replicate (n - f.size) (0 : UInt8)).length) = n
    rw [List.length_replicate]
    omega
  · change (rawSizes (f.data ++ blks)).sum = n
    rw [rawSizes, List.map_append, List.sum_append]
    change (rawSizes f.data).sum + (rawSizes blks).sum = n
    rw [hlen, hfile.sum]
    omega
  · rcases List.mem_append.mp hb with hb | hb
    · exact hkept.served b (hfile.served b hb)
    · exact hserved b hb

theorem Resized.setAttributes (h : Resized cfg P content s fh f n s') (a : SetattrFields)
    (now : Time) :
    ∃ attrs s₁, (do setAttributes fh a now; getattr fh : Op H EntryAttributes) s' = (.ok attrs, s₁) ∧
      attrs.stSize = n ∧ Resized cfg P content s fh f n s₁ := by
  obtain ⟨f', hf', hcontents, hsize, hsum, hserved⟩ := h.file
  have hset : ∀ k, k ≠ fh →
      (s'.inodes.setItem fh (f'.withAttributes a now)).d.get? k = s'.inodes.d.get? k :=
    fun k hk => Dict.get?_set_ne _ _ fun e => hk e.symm
  refine ⟨_, _, setAttributes_getattr hf' a now, hsize,
    ⟨_, Dict.get?_set_self _ _ _, hcontents, hsize, hsum, hserved⟩, fun k => ?_,
    fun k hk => (hset k hk).trans (h.others k hk)⟩
  exact (numbers_of_setItem hf' _ k).trans (h.numbers k)

/-- The buffers that a resize writes. -/
def resizeWrites (content : H → Bytes) (f : FileInode H) (n : Nat) : List Bytes :=
  if f.size < n then [List.replicate (n - f.size) 0]
  else if n < f.size then copied content f.data n
  else []

/-- **The law of a resize**: `setattr` with a size leaves the first bytes of the old contents
followed by zeros, and says so. -/
theorem setattr_resizes (hP : P.Lawful) (hfile : SoundFile cfg P content s fh f)
    (hplaced : Placed s.globals)
    (hstore : ∀ d ∈ resizeWrites content f n, ∀ c ∈ (dedupPieces cfg P d).1,
      Storable cfg P content s.globals c)
    (hfit : n < f.size → ∀ m, s.inodes.max = some m → m + 1 < 256 ^ 64) (env : CallEnv H)
    {a : SetattrFields} (ha : a.stSize = some n) :
    ∃ attrs s', setattr cfg P env fh a s = (.ok attrs, s') ∧ attrs.stSize = n ∧
      Resized cfg P content s fh f n s' := by
  have hresize : ∃ s₁, resize cfg P env f n s = (.ok (), s₁) ∧ Resized cfg P content s fh f n s₁ := by
    unfold resize
    unfold resizeWrites at hstore
    rw [hfile.own]
    rcases Nat.lt_trichotomy f.size n with hlt | rfl | hlt
    · -- the file grows
      rw [if_pos hlt] at hstore ⊢
      obtain ⟨r, s₁, hrun, hres⟩ := write_resizes hP hfile (Nat.le_of_lt hlt)
        (hstore _ (List.mem_singleton_self _)) (env.clock 0)
      rw [Py.run_bind_ok hrun]
      exact ⟨s₁, rfl, hres⟩
    · rw [if_neg (Nat.lt_irrefl _), if_neg (Nat.lt_irrefl _)]
      refine ⟨s, rfl, ⟨f, hfile.file, ?_, rfl, hfile.sum, hfile.served⟩, fun _ => rfl, fun _ _ => rfl⟩
      rw [padded_of_le (Nat.le_of_eq hfile.length_contents.symm),
        List.take_of_length_le (Nat.le_of_eq hfile.length_contents)]
    · -- the file shrinks
      rw [if_neg (Nat.lt_asymm hlt), if_pos hlt] at hstore ⊢
      exact truncateDown_resizes hP hfile hplaced (Nat.le_of_lt hlt) hstore (hfit hlt) env
  obtain ⟨s₁, hrun, hres⟩ := hresize
  have hupdate : updateSize cfg P env f a.stSize s = (.ok (), s₁) := by
    rw [ha]
    exact Py.run_attempt_ok hrun
  unfold setattr
  rw [Py.run_bind_ok (inodeAt_run hfile.file), Py.run_bind_ok hupdate]
  exact hres.setAttributes a (env.clock 0)

end

/-- The state with the file of two blocks. -/
abbrev twoBlocksFs : Fs Bytes :=
  System.after (fun e s => FsStep.exec .shipped .plain s e) sampleFs twoBlocks

theorem twoBlocks_served : AllServed .shipped .plain id [⟨[7], 1, 1⟩, ⟨[8, 9, 10], 3, 3⟩]
    twoBlocksFs.globals := by
  have hown : ∀ h : Bytes, (twoBlocksFs.globals.hashTable.getItem? h).map Block.hash = some h →
      ∀ e, twoBlocksFs.globals.hashTable.getItem? h = some e → e.hash = h := by
    intro h hh e he
    rw [he] at hh
    exact Option.some.inj hh
  intro b hb
  refine ⟨twoBlocks_available b hb, hown b.hash ?_⟩
  rcases List.mem_cons.mp hb with rfl | hb
  · decide
  · rw [List.mem_singleton.mp hb]
    decide

theorem twoBlocks_placed : Placed twoBlocksFs.globals := by
  have hsound : Sound sampleFs := .fresh (by simp) sampleStores_numbered
  have hrun : (fileSystem .shipped .plain).Run sampleFs twoBlocks twoBlocksFs :=
    System.run_after _ twoBlocks sampleFs
  exact ((placed_preserved .shipped).run hrun ⟨hsound.placed, hsound.remembered⟩).1

/-- The chunks of the first three bytes: the first one is known, the other is new. -/
theorem twoBlocks_storable : ∀ c ∈ [[7], [8, 9]],
    Storable .shipped .plain id twoBlocksFs.globals c := by
  intro c hc
  rcases List.mem_cons.mp hc with rfl | hc
  · have hentry : (twoBlocksFs.globals.hashTable.d.get? [7]).map
        (fun e => (⟨[7], e.size, e.deflatedSize⟩ : FileBlock Bytes)) = some ⟨[7], 1, 1⟩ := by
      decide
    refine ⟨rfl, fun e he => ?_, fun he => ?_⟩
    · rw [show twoBlocksFs.globals.hashTable.d.get? [7] = some e from he] at hentry
      have hblock : (⟨[7], e.size, e.deflatedSize⟩ : FileBlock Bytes) = ⟨[7], 1, 1⟩ :=
        Option.some.inj hentry
      change Served .shipped .plain id twoBlocksFs.globals ⟨[7], e.size, e.deflatedSize⟩
      rw [hblock]
      exact twoBlocks_served _ List.mem_cons_self
    · rw [show twoBlocksFs.globals.hashTable.d.get? [7] = none from he] at hentry
      cases hentry
  · rw [List.mem_singleton.mp hc]
    have hnew : twoBlocksFs.globals.hashTable.getItem? [8, 9] = none := by decide
    have hread : twoBlocksFs.globals.readCache.get? [8, 9] = none := by decide
    have hsmall : twoBlocksFs.globals.smallBlockReadCache.get? [8, 9] = none := by decide
    refine ⟨rfl, fun e he => ?_, fun _ => ⟨fun d hd => ?_, fun o ho => ?_, fun e he => ?_⟩⟩
    · cases hnew.symm.trans (HashTable.getItem?_of_d _ he)
    · cases hread.symm.trans hd
    · cases hsmall.symm.trans ho
    · cases hnew.symm.trans he

theorem twoBlocks_sound : ∃ f, SoundFile .shipped .plain id twoBlocksFs 2 f ∧
    f.data = [⟨[7], 1, 1⟩, ⟨[8, 9, 10], 3, 3⟩] ∧ f.size = 4 := by
  have hfile : (twoBlocksFs.inodes.d.get? 2).map (fun f => (f.inode, f.data, f.offsets, f.size)) =
      some (2, [⟨[7], 1, 1⟩, ⟨[8, 9, 10], 3, 3⟩], [], 4) := by decide
  obtain ⟨f, hf, hfile⟩ := Option.map_eq_some_iff.mp hfile
  simp only [Prod.mk.injEq] at hfile
  obtain ⟨hown, hdata, hoff, hsize⟩ := hfile
  refine ⟨f, ⟨hf, hown, hdata ▸ twoBlocks_served, ?_, .inl hoff⟩, hdata, hsize⟩
  rw [hdata, hsize]
  rfl

theorem twoBlocks_writes {f : FileInode Bytes} (hdata : f.data = [⟨[7], 1, 1⟩, ⟨[8, 9, 10], 3, 3⟩])
    (hsize : f.size = 4) : ∀ d ∈ resizeWrites id f 3, ∀ c ∈ (dedupPieces .shipped .plain d).1,
      Storable .shipped .plain id twoBlocksFs.globals c := by
  intro d hd c hc
  rw [show resizeWrites id f 3 = [[7], [8, 9]] by rw [resizeWrites, hsize, hdata]; rfl] at hd
  refine twoBlocks_storable c ?_
  rcases List.mem_cons.mp hd with rfl | hd
  · rw [List.mem_singleton.mp hc]
    exact List.mem_cons_self
  · rw [List.mem_singleton.mp hd] at hc
    rw [List.mem_singleton.mp hc]
    exact List.mem_cons_of_mem _ (List.mem_singleton_self _)

theorem twoBlocks_next (m : Nat) (hm : twoBlocksFs.inodes.max = some m) : m + 1 < 256 ^ 64 := by
  have hmax : twoBlocksFs.inodes.max = some 2 := by decide
  rw [hmax] at hm
  cases hm
  decide

theorem setattr_resizes_sample :
    ∃ f attrs s', setattr .shipped .plain ⟨fun _ => 0, .listed Bytes⟩ 2 { stSize := some 3 } twoBlocksFs =
        (.ok attrs, s') ∧ attrs.stSize = 3 ∧ Resized .shipped .plain id twoBlocksFs 2 f 3 s' := by
  obtain ⟨f, hfile, hdata, hsize⟩ := twoBlocks_sound
  exact ⟨f, setattr_resizes Packages.plain_lawful hfile twoBlocks_placed
    (twoBlocks_writes hdata hsize) (fun _ => twoBlocks_next) _ rfl⟩

end VeratyFS
