import VeratyFS.FileContents
import VeratyFS.RoundTrip

/-!
# What a write leaves

* `Hashed` — the chunks of some data do not collide with other contents; `dedup_contents`: then the
  blocks that `dedup` lists hold the data.
* `write_appends` — a write that reaches the end of the file adds the buffer after all blocks,
  wherever the offset is.
* `write_reaching_end_iff` — it leaves what it should exactly if the offset is the size.
-/

set_option autoImplicit false
set_option maxRecDepth 1024

namespace VeratyFS

open Pylib

variable {H : Type} [DecidableEq H] {cfg : Config} {P : Packages H} {content : H → Bytes}

/-! ## Blocks of new data -/

/-- The chunks are the contents of their hashes, and the entries that the table has for them say
    their lengths. -/
structure Hashed (P : Packages H) (content : H → Bytes) (cs : List Bytes) (g : Globals H) : Prop where
  content_eq : ∀ c ∈ cs, content (P.xxh3_64 c) = c
  deflatedSize : ∀ c ∈ cs, ∀ b, g.hashTable.d.get? (P.xxh3_64 c) = some b → b.deflatedSize = c.length

/-- The table of a run of the pipeline whose chunks do not collide. -/
theorem Coherent.hashed {C : Set Bytes} {cs : List Bytes} {g : Globals H} (hg : Coherent P C g)
    (hcontent : ∀ c ∈ C, content (P.xxh3_64 c) = c) (hcs : ∀ c ∈ cs, c ∈ C) :
    Hashed P content cs g where
  content_eq c hc := hcontent c (hcs c hc)
  deflatedSize c hc b hb := by
    obtain ⟨c', hc', hhash, hentry⟩ := hg.known _ _ hb
    have hsame : c' = c := by
      rw [← hcontent c' hc', hhash, hcontent c (hcs c hc)]
    rw [hentry.deflatedSize, hsame]

/-- One chunk: its block holds it, and the table still says the lengths. -/
theorem dedupChunk_holds {cs : List Bytes} {c : Bytes} {g : Globals H}
    (compress : Bytes → Bool × Bytes) (hg : Hashed P content cs g) (hc : c ∈ cs) :
    ∃ b g', dedupChunk P compress c g = (.ok b, g') ∧ Hashed P content cs g' ∧
      content b.hash = c ∧ b.rawSize = c.length := by
  -- whatever entry the chunk's hash gets, it says the chunk's length
  have hkeep : ∀ {g' : Globals H} {e : Block H}, e.deflatedSize = c.length →
      (∀ k, g'.hashTable.d.get? k = if P.xxh3_64 c = k then some e else g.hashTable.d.get? k) →
      Hashed P content cs g' := by
    intro g' e he htable
    refine ⟨hg.content_eq, fun c' hc' b hb => ?_⟩
    rw [htable] at hb
    split at hb
    · rename_i hhash
      cases hb
      have hsame : c = c' := by
        rw [← hg.content_eq c hc, hhash, hg.content_eq c' hc']
      rw [he, hsame]
    · exact hg.deflatedSize c' hc' b hb
  cases hb : g.hashTable.d.get? (P.xxh3_64 c) with
  | some e =>
    have he := hg.deflatedSize c hc e hb
    exact ⟨_, _, dedupChunk_known hb, hkeep (e := { e with uses := e.uses + 1 }) he
      fun k => HashTable.setItem_d_get? _ _ _ _, hg.content_eq c hc, he⟩
  | none =>
    exact ⟨_, _, dedupChunk_new hb, hkeep (e := placeholder (queueItem P compress c)) rfl
      fun k => HashTable.setItem_d_get? _ _ _ _, hg.content_eq c hc, rfl⟩

theorem dedupChunks_hold {all : List Bytes} (compress : Bytes → Bool × Bytes) :
    ∀ (cs : List Bytes) (g : Globals H), (∀ c ∈ cs, c ∈ all) → Hashed P content all g →
      ∃ bs g', dedupChunks P compress cs g = (.ok bs, g') ∧ pieces content bs = cs ∧
        ∀ b ∈ bs, (content b.hash).length = b.rawSize
  | [], g, _, _ => ⟨[], g, rfl, rfl, fun _ hb => by cases hb⟩
  | c :: cs, g, hall, hg => by
    obtain ⟨b, g₁, hrun, hg₁, hcontent, hsize⟩ := dedupChunk_holds compress hg
      (hall c List.mem_cons_self)
    obtain ⟨bs, g₂, hrest, hpieces, hsizes⟩ := dedupChunks_hold compress cs g₁
      (fun x hx => hall x (List.mem_cons_of_mem _ hx)) hg₁
    refine ⟨b :: bs, g₂, ?_, ?_, fun x hx => ?_⟩
    · rw [dedupChunks, Py.run_bind_ok hrun, Py.run_bind_ok hrest]
      rfl
    · rw [pieces, List.map_cons, hcontent]
      exact congrArg _ hpieces
    · rcases List.mem_cons.mp hx with rfl | hx
      · rw [hcontent, hsize]
      · exact hsizes x hx

omit [DecidableEq H] in
theorem dedupPieces_flatten (hP : P.Lawful) (cfg : Config) (data : Bytes) :
    (dedupPieces cfg P data).1.flatten = data := by
  unfold dedupPieces
  split
  · exact List.append_nil data
  · exact hP.chunks_flatten data

/-- **The blocks that `dedup` lists hold the data.** -/
theorem dedup_contents (hP : P.Lawful) {data : Bytes} {g g' : Globals H} {bs : List (FileBlock H)}
    (hg : Hashed P content (dedupPieces cfg P data).1 g) (hrun : dedup cfg P data g = (.ok bs, g')) :
    contents content bs = data ∧ ∀ b ∈ bs, (content b.hash).length = b.rawSize := by
  obtain ⟨bs', g₁, hrun', hpieces, hsizes⟩ :=
    dedupChunks_hold (dedupPieces cfg P data).2 (dedupPieces cfg P data).1 g (fun _ h => h) hg
  have heq : dedup cfg P data g = (.ok bs', g₁) := hrun'
  rw [hrun] at heq
  cases heq
  refine ⟨?_, hsizes⟩
  unfold contents
  rw [hpieces]
  exact dedupPieces_flatten hP cfg data

/-! ## Writes that reach the end of the file -/

omit [DecidableEq H] in
theorem contents_append (bs bs' : List (FileBlock H)) :
    contents content (bs ++ bs') = contents content bs ++ contents content bs' := by
  unfold contents pieces
  rw [List.map_append, List.flatten_append]

section

variable {s : Fs H} {fh offset : Nat} {f : FileInode H} {buf : Bytes}

/-- The buffer follows the blocks of the file, and the size is the larger of the two ends. -/
theorem write_appends (hP : P.Lawful) (hf : s.inodes.d.get? fh = some f)
    (hend : f.size ≤ offset + buf.length)
    (hhash : Hashed P content (dedupPieces cfg P buf).1 s.globals) (now : Time) :
    ∃ f', (write cfg P fh offset buf now s).2.inodes.d.get? fh = some f' ∧
      contents content f'.data = contents content f.data ++ buf ∧
      f'.size = offset + buf.length ∧
      (rawSizes f'.data).sum = (rawSizes f.data).sum + buf.length := by
  have hm : ¬ inMiddle f offset buf.length := fun h => by
    have := h.2.2
    omega
  obtain ⟨blks, g', hd, hw⟩ := write_append cfg P now hf hm
  obtain ⟨hcontents, hsizes⟩ := dedup_contents hP hhash hd
  refine ⟨f.written (f.data ++ blks) offset buf.length now, ?_, ?_, ?_, ?_⟩
  · rw [hw]
    exact Dict.get?_set_self _ _ _
  · change contents content (f.data ++ blks) = _
    rw [contents_append, hcontents]
  · change max f.size (offset + buf.length) = _
    omega
  · change (rawSizes (f.data ++ blks)).sum = _
    rw [rawSizes, List.map_append, List.sum_append, ← hcontents, length_contents hsizes]
    rfl

/-- A sequence of bytes, followed by zero bytes up to a length. -/
def padded (n : Nat) (c : Bytes) : Bytes := c ++ List.replicate (n - c.length) 0

/-- **A write that reaches the end of the file** leaves the first bytes of the old contents, padded
with zeros, followed by the buffer, and sizes that agree, exactly if it starts at the end. -/
theorem write_reaching_end_iff (hP : P.Lawful) (hf : s.inodes.d.get? fh = some f)
    (hread : Readable cfg P content f.data s.globals)
    (hsum : (rawSizes f.data).sum = f.size) (hend : f.size ≤ offset + buf.length)
    (hhash : Hashed P content (dedupPieces cfg P buf).1 s.globals) (now : Time) :
    (∃ f', (write cfg P fh offset buf now s).2.inodes.d.get? fh = some f' ∧
      contents content f'.data = (padded offset (contents content f.data)).take offset ++ buf ∧
      f'.size = offset + buf.length ∧ (rawSizes f'.data).sum = f'.size) ↔
    offset = f.size := by
  obtain ⟨f', hf', hcontents, hsize, hraw⟩ := write_appends hP hf hend hhash now
  have hlen : (contents content f.data).length = f.size := (length_contents hread.sizes).trans hsum
  constructor
  · rintro ⟨f₁, hf₁, _, hsize₁, hraw₁⟩
    rw [hf'] at hf₁
    cases hf₁
    omega
  · rintro rfl
    refine ⟨f', hf', ?_, hsize, ?_⟩
    · rw [hcontents, padded, hlen, Nat.sub_self, List.replicate_zero, List.append_nil,
        List.take_of_length_le (Nat.le_of_eq hlen)]
    · rw [hraw, hsum, hsize]

end

theorem write_reaching_end_iff_sample :
    let s := System.after (fun e s => FsStep.exec .shipped .plain s e) sampleFs twoBlocks
    (∃ f', (write .shipped .plain 2 4 [5] 0 s).2.inodes.d.get? 2 = some f' ∧
      contents id f'.data = (padded 4 [7, 8, 9, 10]).take 4 ++ [5] ∧ f'.size = 4 + 1 ∧
      (rawSizes f'.data).sum = f'.size) ↔ 4 = 4 := by
  dsimp only
  obtain ⟨f, hf, hfile⟩ := Option.map_eq_some_iff.mp twoBlocks_data
  obtain ⟨hdata, hrest⟩ := Prod.mk.inj hfile
  obtain ⟨_, hsize⟩ := Prod.mk.inj hrest
  have hend : f.size ≤ 4 + ([5] : Bytes).length := by
    rw [hsize]
    decide
  have hiff := write_reaching_end_iff Packages.plain_lawful hf (hdata ▸ twoBlocks_available.readable)
    (by rw [hdata, hsize]; rfl) hend ⟨fun _ _ => rfl, by decide⟩ 0
  have hold : contents id ([⟨[7], 1, 1⟩, ⟨[8, 9, 10], 3, 3⟩] : List (FileBlock Bytes)) =
    [7, 8, 9, 10] := rfl
  have hlen : ([5] : Bytes).length = 1 := rfl
  rw [hdata, hsize, hold, hlen] at hiff
  exact hiff

/-- The last byte of the file is written again: the file keeps it, and its blocks hold a byte more
than its size. -/
theorem tail_overwrite_appends :
    let s := System.after (fun e s => FsStep.exec .shipped .plain s e) sampleFs twoBlocks
    ((write .shipped .plain 2 3 [5] 0 s).2.inodes.d.get? 2).map
        (fun f => (contents id f.data, f.size, (rawSizes f.data).sum)) =
      some ([7, 8, 9, 10, 5], 4, 5) ∧
    (padded 3 [7, 8, 9, 10]).take 3 ++ [5] = [7, 8, 9, 5] := by
  decide

end VeratyFS
