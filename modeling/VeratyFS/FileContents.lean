import VeratyFS.Availability
import VeratyFS.OffsetCache
import VeratyFS.Lib.Segments

/-!
# What a read returns

A file's contents are the bytes of its blocks, put together.

* `pieces`, `contents`, `Readable` — the bytes of the blocks by their hashes; the reader returns
  them for every range of blocks.
* `startBlock`, `toBlockEnd`, `endBlock` — the blocks in which a range starts and ends, and how far
  the offset is from the end of its block.
* `retrieveData_slice` — a read is the slice of the contents.
-/

set_option autoImplicit false
set_option maxRecDepth 1024

namespace VeratyFS

open Pylib

variable {H : Type} [DecidableEq H] {cfg : Config} {P : Packages H} {content : H → Bytes}
  {bs : List (FileBlock H)}

/-! ## Contents -/

def pieces (content : H → Bytes) (bs : List (FileBlock H)) : List Bytes :=
  bs.map fun b => content b.hash

def contents (content : H → Bytes) (bs : List (FileBlock H)) : Bytes := (pieces content bs).flatten

def rawSizes {H : Type} (bs : List (FileBlock H)) : List Nat := bs.map FileBlock.rawSize

/-- The blocks are as long as they say, and the reader returns their bytes for every range. -/
structure Readable (cfg : Config) (P : Packages H) (content : H → Bytes) (bs : List (FileBlock H))
    (g : Globals H) : Prop where
  sizes : ∀ b ∈ bs, (content b.hash).length = b.rawSize
  range : ∀ i j : Int, (getFileData cfg P bs i j g).1 =
    .ok (slice (pieces content bs) i (j + 1)).flatten

omit [DecidableEq H] in
theorem pieces_slice (i j : Int) : slice (pieces content bs) i j = pieces content (slice bs i j) := by
  unfold slice pieces
  rw [List.length_map, List.map_drop, List.map_take]

omit [DecidableEq H] in
theorem sizes_pieces (hsizes : ∀ b ∈ bs, (content b.hash).length = b.rawSize) :
    sizes (pieces content bs) = rawSizes bs := by
  unfold sizes pieces rawSizes
  rw [List.map_map]
  exact List.map_congr_left hsizes

omit [DecidableEq H] in
theorem length_contents (hsizes : ∀ b ∈ bs, (content b.hash).length = b.rawSize) :
    (contents content bs).length = (rawSizes bs).sum := by
  rw [← sizes_pieces hsizes, sum_sizes]
  rfl

/-- Blocks whose bytes are in the caches or the stores are readable. -/
theorem AllAvailable.readable {g : Globals H} (h : AllAvailable cfg P content bs g) :
    Readable cfg P content bs g where
  sizes b hb := (h b hb).size
  range i j := by
    have hread := (readBlocks_available (slice bs i (j + 1)) [] g
      (fun b hb => mem_of_mem_slice hb) h).1
    rw [pieces_slice]
    exact hread

omit [DecidableEq H] in
theorem runningSums_eq (base : Nat) (bs : List (FileBlock H)) :
    runningSums base bs = sums base (rawSizes bs) := by
  induction bs generalizing base with
  | nil => rfl
  | cons b bs ih => exact congrArg _ (ih _)

theorem Readable.between {g : Globals H} (h : Readable cfg P content bs g) (i j : Nat) :
    (getFileData cfg P bs i j g).1 =
      .ok (((contents content bs).take (cut (rawSizes bs) (j + 1))).drop (cut (rawSizes bs) i)) := by
  have hr := h.range i j
  rw [show ((j : Int) + 1) = ((j + 1 : Nat) : Int) by omega, slice_natCast, flatten_range,
    sizes_pieces h.sizes] at hr
  exact hr

/-! ## Where a range starts and ends -/

/-- `take_closest` finds the piece in which a position falls. -/
theorem takeClosest_sums {ns : List Nat} (hne : ns ≠ []) {x : Nat} (hx : x ≤ ns.sum) :
    takeClosest (sums 0 ns) x = some (cut ns (pieceAt ns x + 1), pieceAt ns x) := by
  have hlt := pieceAt_lt hne hx
  have hget := getElem?_sums 0 hlt
  rw [Nat.zero_add] at hget
  unfold pieceAt at hget hlt ⊢
  unfold takeClosest
  dsimp only
  by_cases h₀ : bisectLeft (sums 0 ns) x = 0
  · rw [if_pos h₀]
    rw [h₀] at hget ⊢
    rw [List.head?_eq_getElem?, hget]
    rfl
  · rw [if_neg h₀, length_sums, if_neg (by omega), hget]
    rfl

/-- The block in which a range starts: the one after a boundary, except at 0. -/
def startBlock (ns : List Nat) (offset : Nat) : Nat :=
  if offset = 0 then 0
  else if cut ns (pieceAt ns offset + 1) = offset then pieceAt ns offset + 1
  else pieceAt ns offset

/-- The distance of the offset to the end of the block it falls inside. -/
def toBlockEnd (ns : List Nat) (offset : Nat) : Nat :=
  if offset = 0 then 0 else cut ns (pieceAt ns offset + 1) - offset

section

variable {ns : List Nat} {offset : Nat} (hne : ns ≠ []) (hx : offset ≤ ns.sum)
include hne hx

theorem startOf_sums (offsets : List Nat) :
    startOf offsets offset (cut ns (pieceAt ns offset + 1)) (pieceAt ns offset) =
      some ((startBlock ns offset : Int), (toBlockEnd ns offset : Int)) := by
  have hle := le_cut_pieceAt hne hx
  unfold startOf startBlock toBlockEnd
  by_cases h₀ : offset = 0
  · rw [if_pos h₀, if_pos h₀, if_pos h₀]
    rfl
  · rw [if_neg h₀, if_neg h₀, if_neg h₀]
    by_cases hb : cut ns (pieceAt ns offset + 1) = offset
    · rw [if_pos hb, if_pos hb]
      exact congrArg some (Prod.ext (by omega) (by omega))
    · rw [if_neg hb, if_neg hb, if_neg (by omega)]
      exact congrArg some (Prod.ext rfl (by omega))

/-- A range starts at the cut before its block, or inside the block. -/
theorem startBlock_cases :
    (cut ns (startBlock ns offset) = offset ∧ toBlockEnd ns offset = 0) ∨
    (0 < offset ∧ startBlock ns offset < ns.length ∧ cut ns (startBlock ns offset) < offset ∧
      0 < toBlockEnd ns offset ∧
      cut ns (startBlock ns offset + 1) = offset + toBlockEnd ns offset) := by
  have hle := le_cut_pieceAt hne hx
  have hlt := pieceAt_lt hne hx
  have hstart := cut_pieceAt_lt hne hx
  unfold startBlock toBlockEnd
  by_cases h₀ : offset = 0
  · rw [if_pos h₀, if_pos h₀]
    exact .inl ⟨h₀.symm, rfl⟩
  · rw [if_neg h₀, if_neg h₀]
    by_cases hb : cut ns (pieceAt ns offset + 1) = offset
    · rw [if_pos hb]
      exact .inl ⟨hb, by omega⟩
    · rw [if_neg hb]
      refine .inr ⟨by omega, hlt, ?_, by omega, by omega⟩
      rcases hstart with h | h
      · rw [h, cut_zero]
        omega
      · exact h

theorem cut_startBlock_le : cut ns (startBlock ns offset) ≤ offset := by
  rcases startBlock_cases hne hx with ⟨h, _⟩ | ⟨_, _, h, _⟩ <;> omega

end

/-! ## The cut -/

/-- The cut at the start, by the block in which the range starts. -/
def cutHead {H : Type} (data : List (FileBlock H)) (offset : Nat) (startBlk startDiff : Int)
    (d : Bytes) : Option Bytes :=
  if startBlk = 0 then some (sliceFrom d offset)
  else if 0 < offset ∧ 0 < startDiff then
    (getAt? data startBlk).map fun b => sliceFrom d ((b.rawSize : Int) - startDiff)
  else some d

/-- The cut at the end. -/
def cutEnd (offset endOffset : Nat) (endDiff : Int) (d : Bytes) : Bytes :=
  if endDiff ≠ 0 ∧ (endOffset : Int) - offset < d.length then sliceTo d (-endDiff) else d

section

variable {f : FileInode H} {offset e j : Nat}

omit [DecidableEq H] in
theorem cutBlocks_eq (he : f.size ≠ e) (sb sd ed : Int) (d : Bytes) :
    cutBlocks f offset e sb sd ed d = (cutHead f.data offset sb sd d).map (cutEnd offset e ed) := by
  have hend : ∀ d : Bytes, (if ed ≠ 0 ∧ (e : Int) - offset < d.length then some (sliceTo d (-ed))
      else some d) = some (cutEnd offset e ed d) := fun d => by
    unfold cutEnd
    split <;> rfl
  unfold cutBlocks cutHead
  rw [if_neg he]
  split
  · exact hend _
  · split
    · cases getAt? f.data sb with
      | none => rfl
      | some b => exact hend _
    · exact hend _

omit [DecidableEq H] in
/-- A read that reaches the end of the file keeps the last bytes of what its blocks hold. -/
theorem cutBlocks_tail {c : Bytes} (hsize : f.size = c.length) (he : e = f.size) (hle : offset ≤ e)
    {n : Nat} (hn : n ≤ offset) (hstart : offset = e → n = e) (sb sd ed : Int) :
    cutBlocks f offset e sb sd ed (c.drop n) = some (c.drop offset) := by
  unfold cutBlocks
  rw [if_pos he.symm]
  by_cases hoff : offset = e
  · rw [hstart hoff, hoff, show -((e : Int) - e) = ((0 : Nat) : Int) by omega, sliceFrom_natCast]
    rfl
  · rw [show -((e : Int) - offset) = -((e - offset : Nat) : Int) by omega,
      sliceFrom_neg _ (by omega) (by rw [List.length_drop]; omega), List.length_drop, List.drop_drop]
    exact congrArg (fun i => some (c.drop i)) (by omega)

variable {c : Bytes} (hne : rawSizes f.data ≠ [])
include hne

omit [DecidableEq H] in
/-- What is left after the cut at the start begins at the offset. -/
theorem cutHead_slice {m : Nat} (hx : offset ≤ (rawSizes f.data).sum) :
    cutHead f.data offset (startBlock (rawSizes f.data) offset) (toBlockEnd (rawSizes f.data) offset)
        ((c.take m).drop (cut (rawSizes f.data) (startBlock (rawSizes f.data) offset))) =
      some ((c.take m).drop offset) := by
  unfold cutHead
  by_cases hk : startBlock (rawSizes f.data) offset = 0
  · rw [if_pos (by omega), hk, cut_zero, List.drop_zero, sliceFrom_natCast]
  · rw [if_neg (by omega)]
    rcases startBlock_cases hne hx with ⟨hcut, hdiff⟩ | ⟨hpos, hlt, hbefore, hdiff, hcut⟩
    · rw [hdiff, if_neg fun h => absurd h.2 (by omega), hcut]
    · obtain ⟨b, hb⟩ : ∃ b, f.data[startBlock (rawSizes f.data) offset]? = some b :=
        ⟨_, List.getElem?_eq_getElem (by rwa [rawSizes, List.length_map] at hlt)⟩
      have hraw : (rawSizes f.data)[startBlock (rawSizes f.data) offset]? = some b.rawSize := by
        unfold rawSizes at hb ⊢
        rw [List.getElem?_map, hb]
        rfl
      have hsucc := cut_succ hraw
      rw [if_pos ⟨hpos, by omega⟩, getAt?_natCast, hb, Option.map_some,
        show (b.rawSize : Int) - (toBlockEnd (rawSizes f.data) offset : Int) =
          ((offset - cut (rawSizes f.data) (startBlock (rawSizes f.data) offset) : Nat) : Int) by omega,
        sliceFrom_natCast, List.drop_drop]
      exact congrArg (fun i => some ((c.take m).drop i)) (by omega)

omit [DecidableEq H] in
/-- **The cut of the bytes of several blocks is the slice of the contents.** -/
theorem cutBlocks_slice (hc : c.length = (rawSizes f.data).sum)
    (hsize : f.size = (rawSizes f.data).sum) (hle : offset ≤ e)
    (hj : e ≤ cut (rawSizes f.data) (j + 1)) :
    cutBlocks f offset e (startBlock (rawSizes f.data) offset) (toBlockEnd (rawSizes f.data) offset)
      (if cut (rawSizes f.data) (j + 1) = e then 0 else (cut (rawSizes f.data) (j + 1) : Int) - e)
      ((c.take (cut (rawSizes f.data) (j + 1))).drop
        (cut (rawSizes f.data) (startBlock (rawSizes f.data) offset))) =
      some ((c.take e).drop offset) := by
  have hmax := cut_le (rawSizes f.data) (j + 1)
  have hx : offset ≤ (rawSizes f.data).sum := by omega
  by_cases hend : e = f.size
  · rw [List.take_of_length_le (by omega), List.take_of_length_le (by omega)]
    refine cutBlocks_tail (hsize.trans hc.symm) hend hle (cut_startBlock_le hne hx) (fun hoff => ?_) _ _ _
    rcases startBlock_cases hne hx with ⟨hcut, _⟩ | ⟨_, _, _, hdiff, hcut⟩
    · rw [hcut, hoff]
    · have := cut_le (rawSizes f.data) (startBlock (rawSizes f.data) offset + 1)
      omega
  · rw [cutBlocks_eq (fun h => hend h.symm), cutHead_slice hne hx, Option.map_some]
    have hlen : ((c.take (cut (rawSizes f.data) (j + 1))).drop offset).length =
        cut (rawSizes f.data) (j + 1) - offset := by
      rw [List.length_drop, List.length_take]
      omega
    unfold cutEnd
    rw [hlen]
    by_cases hb : cut (rawSizes f.data) (j + 1) = e
    · rw [if_pos hb, if_neg fun h => h.1 rfl, hb]
    · rw [if_neg hb, if_pos ⟨by omega, by omega⟩,
        show -((cut (rawSizes f.data) (j + 1) : Int) - e) =
          -((cut (rawSizes f.data) (j + 1) - e : Nat) : Int) by omega,
        sliceTo_neg _ (by omega) (by rw [hlen]; omega), hlen,
        show cut (rawSizes f.data) (j + 1) - offset - (cut (rawSizes f.data) (j + 1) - e) =
          e - offset by omega,
        ← List.drop_take, List.take_take, Nat.min_eq_left hj]

end

/-! ## Reads -/

section

variable {f : FileInode H} {offset : Nat} {s : Fs H}

/-- The block in which a range ends. -/
def endBlock (ns : List Nat) (offset length : Nat) : Nat := pieceAt ns (min ns.sum (offset + length))

/-- `retrieve_data` once the blocks at both ends are found. -/
theorem retrieveBlocks_located (hne : f.data ≠ []) (hsize : f.size = (rawSizes f.data).sum)
    (hoffsets : f.offsets = runningSums 0 f.data) (hle : offset ≤ f.size) (length : Nat)
    (whole : Bool) :
    let ns := rawSizes f.data
    let k := startBlock ns offset
    let j := endBlock ns offset length
    let e := min f.size (offset + length)
    retrieveBlocks cfg P f offset length whole s =
      (if (k : Int) = 0 ∧ (j : Int) = 0 then do
        let data ← Fs.onGlobals (getFileData cfg P f.data k ((j : Int) + 1))
        if whole then return .whole (toBlockEnd ns offset) k j data
        else return .data (slice data offset e)
      else do
        let data ← Fs.onGlobals (getFileData cfg P f.data k j)
        if whole then return .whole (toBlockEnd ns offset) k j data
        else do
          let data ← Py.ofOption .indexError (cutBlocks f offset e k (toBlockEnd ns offset)
            (if cut ns (j + 1) = e then 0 else (cut ns (j + 1) : Int) - e) data)
          return .data data : Op H Retrieved) s := by
  intro ns k j e
  have hns : ns ≠ [] := fun h => hne (List.map_eq_nil_iff.mp h)
  have hx : offset ≤ ns.sum := hsize ▸ hle
  have hoff : f.offsets = sums 0 ns := hoffsets.trans (runningSums_eq 0 f.data)
  have hone : Py.ofOption PyError.indexError (takeClosest f.offsets offset) s =
      (.ok (cut ns (pieceAt ns offset + 1), pieceAt ns offset), s) := by
    rw [hoff, takeClosest_sums hns hx]
    rfl
  have htwo : Py.ofOption PyError.indexError (startOf f.offsets offset
      (cut ns (pieceAt ns offset + 1)) (pieceAt ns offset)) s =
      (.ok ((k : Int), (toBlockEnd ns offset : Int)), s) := by
    rw [startOf_sums hns hx]
    rfl
  have hthree : Py.ofOption PyError.indexError (takeClosest f.offsets e) s =
      (.ok (cut ns (j + 1), j), s) := by
    have he : e = min ns.sum (offset + length) := by
      change min f.size (offset + length) = _
      rw [hsize]
    rw [hoff, takeClosest_sums hns (he ▸ Nat.min_le_left _ _), he]
    rfl
  unfold retrieveBlocks
  refine (Py.run_bind_ok hone).trans ?_
  refine (Py.run_bind_ok htwo).trans ?_
  refine (Py.run_bind_ok hthree).trans ?_
  have hdiff : (if (toBlockEnd ns offset : Int) < 0 then max 0 ((k : Int) - 1) else k) = k :=
    if_neg (by omega)
  dsimp only
  rw [hdiff]

omit [DecidableEq H] in
/-- A read of blocks that are there, by what it got. -/
theorem onGlobals_ok {α : Type} {m : Task H α} {a : α} (h : (m s.globals).1 = .ok a) :
    ∃ s', Fs.onGlobals m s = (.ok a, s') :=
  ⟨{ s with globals := (m s.globals).2 }, Py.run_zoom (Prod.ext h rfl)⟩

theorem retrieveBlocks_slice (hread : Readable cfg P content f.data s.globals) (hne : f.data ≠ [])
    (hsize : f.size = (rawSizes f.data).sum) (hoffsets : f.offsets = runningSums 0 f.data)
    (hle : offset ≤ f.size) (length : Nat) :
    (retrieveBlocks cfg P f offset length false s).1 =
      .ok (.data (((contents content f.data).take (min f.size (offset + length))).drop offset)) := by
  have hns : rawSizes f.data ≠ [] := fun h => hne (List.map_eq_nil_iff.mp h)
  have hc := length_contents hread.sizes
  have hxj : min f.size (offset + length) ≤
      cut (rawSizes f.data) (endBlock (rawSizes f.data) offset length + 1) := by
    rw [hsize]
    exact le_cut_pieceAt hns (Nat.min_le_left _ _)
  rw [retrieveBlocks_located hne hsize hoffsets hle length false]
  by_cases hfirst : ((startBlock (rawSizes f.data) offset : Nat) : Int) = 0 ∧
      ((endBlock (rawSizes f.data) offset length : Nat) : Int) = 0
  · -- the first block, and one more
    rw [if_pos hfirst]
    obtain ⟨s', hrun⟩ := onGlobals_ok (hread.between (startBlock (rawSizes f.data) offset)
      (endBlock (rawSizes f.data) offset length + 1))
    refine (congrArg Prod.fst (Py.run_bind_ok hrun)).trans ?_
    have hm := cut_mono (rawSizes f.data)
      (i := endBlock (rawSizes f.data) offset length + 1)
      (j := endBlock (rawSizes f.data) offset length + 1 + 1) (by omega)
    change Except.ok (Retrieved.data (slice _ _ _)) = _
    rw [show startBlock (rawSizes f.data) offset = 0 by omega, cut_zero, List.drop_zero,
      slice_natCast, List.take_take, Nat.min_eq_left (Nat.le_trans hxj hm)]
  · rw [if_neg hfirst]
    obtain ⟨s', hrun⟩ := onGlobals_ok (hread.between (startBlock (rawSizes f.data) offset)
      (endBlock (rawSizes f.data) offset length))
    refine (congrArg Prod.fst (Py.run_bind_ok hrun)).trans ?_
    have hcut := cutBlocks_slice hns hc hsize (e := min f.size (offset + length))
      (Nat.le_min.mpr ⟨hle, Nat.le_add_right _ _⟩) hxj
    have hcut' : Py.ofOption PyError.indexError (cutBlocks f offset _ _ _ _ _) s' =
        (.ok (((contents content f.data).take (min f.size (offset + length))).drop offset), s') :=
      (congrFun (congrArg (Py.ofOption PyError.indexError) hcut) s')
    exact congrArg Prod.fst (Py.run_bind_ok hcut')

end

/-- What `retrieve_data` does to a file with blocks: the offsets are there, then the blocks are read. -/
theorem retrieveData_blocks {s : Fs H} {fh : Nat} {f : FileInode H}
    (hf : s.inodes.d.get? fh = some f) (hne : f.data ≠ []) (hoffsets : f.OffsetsExact)
    (offset length : Nat) (whole : Bool) :
    ∃ t f₁, f₁.data = f.data ∧ f₁.size = f.size ∧ f₁.offsets = runningSums 0 f₁.data ∧
      retrieveData cfg P fh offset length whole s =
        retrieveBlocks cfg P f₁ offset length whole { s with inodes := t } := by
  obtain ⟨t, f₁, hens, _, hdata, hsize, hoff⟩ := ensureOffsets_run hf
  refine ⟨t, f₁, hdata, hsize, ?_, ?_⟩
  · rw [hoff, hdata]
    split
    · rfl
    · exact hoffsets.resolve_left (by assumption)
  · unfold retrieveData
    rw [Py.run_bind_ok (Py.run_read s), show s.inodes.getItem? fh = some f from hf]
    dsimp only
    rw [if_neg hne, Py.run_bind_ok hens]

/-- **A read is a slice**: `retrieve_data` of a file with readable blocks, whose sizes sum to the
size of the file and whose offsets are empty or exact, returns the bytes of the range that lie in
the file. -/
theorem retrieveData_slice {s : Fs H} {fh : Nat} {f : FileInode H} (hf : s.inodes.d.get? fh = some f)
    (hread : Readable cfg P content f.data s.globals)
    (hsum : (rawSizes f.data).sum = f.size) (hoffsets : f.OffsetsExact)
    {offset : Nat} (hle : offset ≤ f.size) (length : Nat) :
    (retrieveData cfg P fh offset length false s).1 =
      .ok (.data (slice (contents content f.data) offset (min f.size (offset + length) : Nat))) := by
  rw [slice_natCast]
  by_cases hnil : f.data = []
  · unfold retrieveData
    rw [Py.run_bind_ok (Py.run_read s), show s.inodes.getItem? fh = some f from hf]
    dsimp only
    rw [if_pos hnil, hnil]
    change Except.ok (Retrieved.data []) = .ok (.data ((List.take _ []).drop _))
    rw [List.take_nil, List.drop_nil]
  · obtain ⟨t, f₁, hdata, hsize, hoff, hrun⟩ :=
      retrieveData_blocks hf hnil hoffsets offset length false
    have hle₁ : offset ≤ f₁.size := hsize ▸ hle
    have hsum₁ : f₁.size = (rawSizes f₁.data).sum := by
      rw [hsize, hdata]
      exact hsum.symm
    have hslice := retrieveBlocks_slice (s := { s with inodes := t }) (hdata ▸ hread) (hdata ▸ hnil)
      hsum₁ hoff hle₁ length
    rw [hrun, hslice, hdata, hsize]

/-- A block that waits in the queue and is in no read cache. -/
theorem Available.unwritten {g : Globals H} {b : FileBlock H}
    (size : (content b.hash).length = b.rawSize) (hash : b.hash = P.xxh3_64 (content b.hash))
    (written : g.writeReadCache.get? b.hash = some (content b.hash))
    (readCache : g.readCache.get? b.hash = none)
    (smallCache : g.smallBlockReadCache.get? b.hash = none) : Available cfg P content g b where
  size := size
  hash := hash
  readCache d hd := by
    rw [readCache] at hd
    cases hd
  smallCache d hd := by
    rw [smallCache] at hd
    cases hd
  writeCache d hd := by
    rw [written] at hd
    exact (Option.some.inj hd).symm
  held := by
    refine .inl ⟨written, ?_⟩
    rw [smallCache]
    exact fun h => by cases h

/-- A file of two blocks. -/
def twoBlocks : List (FsStep Bytes) :=
  [.create ⟨1, [97], 33188, 0, 0, 0, none⟩ 0, .write 2 0 [7] 0, .write 2 1 [8, 9, 10] 0]

theorem twoBlocks_data : ((System.after (fun e s => FsStep.exec .shipped .plain s e) sampleFs
    twoBlocks).inodes.d.get? 2).map (fun f => (f.data, f.offsets, f.size)) =
      some ([⟨[7], 1, 1⟩, ⟨[8, 9, 10], 3, 3⟩], [], 4) := by decide

theorem twoBlocks_available : AllAvailable .shipped .plain id [⟨[7], 1, 1⟩, ⟨[8, 9, 10], 3, 3⟩]
    (System.after (fun e s => FsStep.exec .shipped .plain s e) sampleFs twoBlocks).globals := by
  intro b hb
  rcases List.mem_cons.mp hb with rfl | hb
  · exact .unwritten rfl rfl (by decide) (by decide) (by decide)
  · rw [List.mem_singleton.mp hb]
    exact .unwritten rfl rfl (by decide) (by decide) (by decide)

theorem retrieveData_slice_sample :
    let s := System.after (fun e s => FsStep.exec .shipped .plain s e) sampleFs twoBlocks
    (retrieveData .shipped .plain 2 0 3 false s).1 = .ok (.data (slice [7, 8, 9, 10] (0 : Nat) (3 : Nat))) := by
  intro s
  obtain ⟨f, hf, hfile⟩ := Option.map_eq_some_iff.mp twoBlocks_data
  obtain ⟨hdata, hrest⟩ := Prod.mk.inj hfile
  obtain ⟨hoff, hsize⟩ := Prod.mk.inj hrest
  have hslice := retrieveData_slice hf
    (hdata ▸ twoBlocks_available.readable) (by rw [hdata, hsize]; rfl) (.inl hoff)
    (Nat.zero_le f.size) 3
  rw [hdata, hsize] at hslice
  exact hslice

end VeratyFS
