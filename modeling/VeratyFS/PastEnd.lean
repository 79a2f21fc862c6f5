import VeratyFS.FileContents

/-!
# Reads past the end of a file

An offset past the end is in no block: `retrieve_data` goes back to the last block but one, and the
slice that should keep the last bytes starts at a positive bound instead.

* `startOf_past`, `lastBlocks` — the blocks that are read.
* `retrieveBlocks_past` — what is cut off them is as long as the offset is past the end.
* `retrieveData_past_iff` — when nothing comes back.
* `past_end_leaks` — what comes back of a small file.
-/

set_option autoImplicit false

namespace VeratyFS

open Pylib

variable {H : Type} [DecidableEq H] {cfg : Config} {P : Packages H} {content : H → Bytes}
  {f : FileInode H} {fh offset : Nat} {s : Fs H}

/-! ## The blocks that are read -/

/-- `take_closest` past the end gives the last block. -/
theorem takeClosest_past {ns : List Nat} (hne : ns ≠ []) {x : Nat} (hx : ns.sum < x) :
    takeClosest (sums 0 ns) x = some (ns.sum, ns.length - 1) := by
  have hlen : 0 < ns.length := List.length_pos_iff.mpr hne
  have hlast := getElem?_sums 0 (show ns.length - 1 < ns.length by omega)
  rw [show ns.length - 1 + 1 = ns.length by omega, cut_length, Nat.zero_add] at hlast
  unfold takeClosest
  rw [bisect_past 0 (by omega)]
  dsimp only
  rw [if_neg (by omega), if_pos (length_sums 0 ns).symm, List.getLast?_eq_getElem?, length_sums, hlast]
  rfl

/-- The start goes back to the last block but one. -/
theorem startOf_past {ns : List Nat} (hne : ns ≠ []) {x : Nat} (hx : ns.sum < x) :
    ∃ diff : Int, diff < 0 ∧
      startOf (sums 0 ns) x ns.sum (ns.length - 1) = some ((ns.length : Int) - 2, diff) := by
  have hlen : 0 < ns.length := List.length_pos_iff.mpr hne
  have hblock : ((ns.length - 1 : Nat) : Int) - 1 = (ns.length : Int) - 2 := by omega
  obtain ⟨o, ho⟩ : ∃ o, getAt? (sums 0 ns) ((ns.length : Int) - 2) = some o := by
    apply Option.isSome_iff_exists.mp
    apply getAt?_isSome
    rw [length_sums]
    unfold index?
    split
    · rfl
    · rw [if_pos (by omega)]
      rfl
  have hle : o ≤ ns.sum := by
    obtain ⟨i, hi⟩ := List.getElem?_of_mem (getAt?_mem ho)
    obtain ⟨hlt, _⟩ := List.getElem?_eq_some_iff.mp hi
    rw [length_sums] at hlt
    rw [getElem?_sums 0 hlt, Nat.zero_add] at hi
    cases hi
    exact cut_le ns (i + 1)
  refine ⟨(o : Int) - x, by omega, ?_⟩
  unfold startOf
  rw [if_neg (by omega), if_neg (by omega), if_pos hx, hblock, ho]
  rfl

/-- The blocks of the read are those from the last but one to the one in which the file ends; the
    first block alone is cut by the offset itself. -/
def onlyFirst (f : FileInode H) : Bool :=
  decide (f.data.length = 2) && decide (pieceAt (rawSizes f.data) f.size = 0)

/-- What `get_file_data` gives for a read past the end. -/
def lastBlocks (cfg : Config) (P : Packages H) (f : FileInode H) : Task H Bytes :=
  getFileData cfg P f.data ((f.data.length : Int) - 2) (pieceAt (rawSizes f.data) f.size)

/-- `retrieve_data` past the end. -/
theorem retrieveBlocks_past (hne : f.data ≠ []) (hsize : f.size = (rawSizes f.data).sum)
    (hoffsets : f.offsets = runningSums 0 f.data) (hpast : f.size < offset) (length : Nat) :
    retrieveBlocks cfg P f offset length false s =
      (if onlyFirst f then do
        let data ← Fs.onGlobals (getFileData cfg P f.data 0 1)
        return .data (slice data offset f.size)
      else do
        let data ← Fs.onGlobals (lastBlocks cfg P f)
        return .data (data.drop (offset - f.size)) : Op H Retrieved) s := by
  have hns : rawSizes f.data ≠ [] := fun h => hne (List.map_eq_nil_iff.mp h)
  have hlen : (rawSizes f.data).length = f.data.length := List.length_map _
  have hoff : f.offsets = sums 0 (rawSizes f.data) := hoffsets.trans (runningSums_eq 0 f.data)
  have hend : min f.size (offset + length) = f.size := by omega
  obtain ⟨diff, hdiff, hstart⟩ := startOf_past hns (hsize ▸ hpast)
  have hpiece := le_cut_pieceAt hns (x := f.size) (by omega)
  have hcut : cut (rawSizes f.data) (pieceAt (rawSizes f.data) f.size + 1) = f.size := by
    have := cut_le (rawSizes f.data) (pieceAt (rawSizes f.data) f.size + 1)
    omega
  have hone : Py.ofOption PyError.indexError (takeClosest f.offsets offset) s =
      (.ok ((rawSizes f.data).sum, (rawSizes f.data).length - 1), s) := by
    rw [hoff, takeClosest_past hns (hsize ▸ hpast)]
    rfl
  have htwo : Py.ofOption PyError.indexError (startOf f.offsets offset (rawSizes f.data).sum
      ((rawSizes f.data).length - 1)) s = (.ok (((rawSizes f.data).length : Int) - 2, diff), s) := by
    rw [hoff, hstart]
    rfl
  have hthree : Py.ofOption PyError.indexError (takeClosest f.offsets (min f.size (offset + length))) s =
      (.ok (f.size, pieceAt (rawSizes f.data) f.size), s) := by
    rw [hend, hoff, takeClosest_sums hns (by omega), hcut]
    rfl
  unfold retrieveBlocks
  refine (Py.run_bind_ok hone).trans ?_
  refine (Py.run_bind_ok htwo).trans ?_
  refine (Py.run_bind_ok hthree).trans ?_
  rw [hend, hlen]
  dsimp only
  by_cases honly : onlyFirst f = true
  · have hboth := honly
    unfold onlyFirst at hboth
    rw [Bool.and_eq_true, decide_eq_true_eq, decide_eq_true_eq] at hboth
    rw [if_pos honly, if_pos ⟨by omega, by omega⟩, hboth.1, hboth.2]
    rfl
  · have hboth : ¬ ((f.data.length : Int) - 2 = 0 ∧ ((pieceAt (rawSizes f.data) f.size : Nat) : Int) = 0) := by
      intro h
      apply honly
      unfold onlyFirst
      rw [Bool.and_eq_true, decide_eq_true_eq, decide_eq_true_eq]
      omega
    rw [if_neg honly, if_neg hboth]
    refine congrFun (congrArg (Fs.onGlobals (lastBlocks cfg P f) >>= ·) (funext fun data => ?_)) s
    have hslice : cutBlocks f offset f.size ((f.data.length : Int) - 2) diff
        (if f.size = f.size then 0 else (f.size : Int) - f.size) data =
        some (data.drop (offset - f.size)) := by
      unfold cutBlocks
      rw [if_pos rfl, show -((f.size : Int) - offset) = ((offset - f.size : Nat) : Int) by omega,
        sliceFrom_natCast]
    rw [if_neg Bool.false_ne_true, hslice]
    rfl

/-! ## What comes back -/

/-- The bytes that a read past the end returns, if it returns. -/
theorem retrieveData_past (hf : s.inodes.d.get? fh = some f) (hne : f.data ≠ [])
    (hsum : (rawSizes f.data).sum = f.size) (hoffsets : f.OffsetsExact) (hpast : f.size < offset)
    (length : Nat) (d : Bytes) :
    (retrieveData cfg P fh offset length false s).1 = .ok (.data d) ↔
      if onlyFirst f then d = [] ∧ ∃ data, (getFileData cfg P f.data 0 1 s.globals).1 = .ok data
      else ∃ data, (lastBlocks cfg P f s.globals).1 = .ok data ∧ d = data.drop (offset - f.size) := by
  obtain ⟨t, f₁, hdata, hsize, hoff, hrun⟩ := retrieveData_blocks hf hne hoffsets offset length false
  have honly : onlyFirst f₁ = onlyFirst f := by
    unfold onlyFirst
    rw [hdata, hsize]
  have hlast : lastBlocks cfg P f₁ = lastBlocks cfg P f := by
    unfold lastBlocks
    rw [hdata, hsize]
  rw [hrun, retrieveBlocks_past (hdata ▸ hne) (by rw [hsize, hdata, hsum]) hoff (hsize ▸ hpast), honly,
    hlast, hdata, hsize]
  cases onlyFirst f with
  | true =>
    rw [if_pos rfl, if_pos rfl]
    cases hg : getFileData cfg P f.data 0 1 s.globals with
    | mk r g' =>
      have hzoom : Fs.onGlobals (getFileData cfg P f.data 0 1) { s with inodes := t } =
          (r, { inodes := t, globals := g' }) := Py.run_zoom hg
      cases r with
      | error e =>
        rw [Py.run_bind_error hzoom]
        simp
      | ok data =>
        rw [Py.run_bind_ok hzoom]
        have hempty : slice data (offset : Int) (f.size : Int) = [] := by
          rw [slice_natCast, List.drop_eq_nil_of_le]
          rw [List.length_take]
          omega
        change Except.ok (Retrieved.data (slice data offset f.size)) = _ ↔ _
        rw [hempty]
        simp [eq_comm]
  | false =>
    rw [if_neg Bool.false_ne_true, if_neg Bool.false_ne_true]
    cases hg : lastBlocks cfg P f s.globals with
    | mk r g' =>
      have hzoom : Fs.onGlobals (lastBlocks cfg P f) { s with inodes := t } =
          (r, { inodes := t, globals := g' }) := Py.run_zoom hg
      cases r with
      | error e =>
        rw [Py.run_bind_error hzoom]
        simp
      | ok data =>
        rw [Py.run_bind_ok hzoom]
        change Except.ok (Retrieved.data (data.drop (offset - f.size))) = _ ↔ _
        simp [eq_comm]

/-- The raw size of the blocks from the last but one on. -/
def lastRaw (f : FileInode H) : Nat := f.size - cut (rawSizes f.data) (f.data.length - 2)

/-- What the last blocks of a readable file hold. -/
theorem lastBlocks_readable (hread : Readable cfg P content f.data s.globals) (hne : f.data ≠ [])
    (hsum : (rawSizes f.data).sum = f.size) :
    ∃ data, (lastBlocks cfg P f s.globals).1 = .ok data ∧ data.length = lastRaw f := by
  have hns : rawSizes f.data ≠ [] := fun h => hne (List.map_eq_nil_iff.mp h)
  have hc := length_contents hread.sizes
  have hcut : cut (rawSizes f.data) (pieceAt (rawSizes f.data) f.size + 1) = f.size := by
    have hle := le_cut_pieceAt hns (x := f.size) (by omega)
    have := cut_le (rawSizes f.data) (pieceAt (rawSizes f.data) f.size + 1)
    omega
  have hpos : 0 < f.data.length := List.length_pos_iff.mpr hne
  by_cases hone : f.data.length = 1
  · -- the last block but one of a single block is that block
    have hlt : pieceAt (rawSizes f.data) f.size < 1 := by
      have := pieceAt_lt hns (x := f.size) (by omega)
      rwa [rawSizes, List.length_map, hone] at this
    have hslice : slice (pieces content f.data) ((f.data.length : Int) - 2)
        ((pieceAt (rawSizes f.data) f.size : Int) + 1) = pieces content f.data := by
      unfold slice
      rw [hone, pieces, List.length_map, hone, show pieceAt (rawSizes f.data) f.size = 0 by omega]
      have htake : (f.data.map fun b => content b.hash).take 1 = f.data.map fun b => content b.hash :=
        List.take_of_length_le (by rw [List.length_map]; omega)
      simpa [bound] using htake
    refine ⟨_, hread.range _ _, ?_⟩
    rw [hslice]
    change (contents content f.data).length = _
    unfold lastRaw
    rw [hone, hc, hsum]
    rfl
  · refine ⟨((contents content f.data).take f.size).drop (cut (rawSizes f.data) (f.data.length - 2)), ?_, ?_⟩
    · have hbetween := hread.between (f.data.length - 2) (pieceAt (rawSizes f.data) f.size)
      rw [hcut, show ((f.data.length - 2 : Nat) : Int) = (f.data.length : Int) - 2 by omega] at hbetween
      exact hbetween
    · rw [List.length_drop, List.length_take]
      unfold lastRaw
      omega

/-- **Nothing is read past the end** exactly if the last two blocks hold no more bytes than the offset
is past the end, or cannot be read, or the read is cut by the offset itself; of a readable file this is
said by the raw sizes. -/
theorem retrieveData_past_iff (hf : s.inodes.d.get? fh = some f) (hne : f.data ≠ [])
    (hsum : (rawSizes f.data).sum = f.size) (hoffsets : f.OffsetsExact) (hpast : f.size < offset)
    (length : Nat) :
    ((∀ d, (retrieveData cfg P fh offset length false s).1 = .ok (.data d) → d = []) ↔
      onlyFirst f = true ∨
        ∀ data, (lastBlocks cfg P f s.globals).1 = .ok data → data.length ≤ offset - f.size) ∧
    ∀ content : H → Bytes, Readable cfg P content f.data s.globals →
      ((retrieveData cfg P fh offset length false s).1 = .ok (.data []) ↔
        onlyFirst f = true ∨ lastRaw f ≤ offset - f.size) := by
  have hback := @retrieveData_past H _ cfg P f fh offset s hf hne hsum hoffsets hpast length
  refine ⟨⟨fun h => ?_, fun h d hd => ?_⟩, fun content hread => ?_⟩
  · by_cases honly : onlyFirst f = true
    · exact .inl honly
    · simp only [if_neg honly] at hback
      refine .inr fun data hdata => ?_
      exact List.drop_eq_nil_iff.mp (h _ ((hback _).mpr ⟨data, hdata, rfl⟩))
  · have hd := (hback d).mp hd
    by_cases honly : onlyFirst f = true
    · rw [if_pos honly] at hd
      exact hd.1
    · rw [if_neg honly] at hd
      obtain ⟨data, hdata, rfl⟩ := hd
      exact List.drop_eq_nil_iff.mpr (h.resolve_left honly data hdata)
  · rw [hback]
    by_cases honly : onlyFirst f = true
    · rw [if_pos honly]
      exact ⟨fun _ => .inl honly, fun _ => ⟨rfl, _, hread.range 0 1⟩⟩
    · rw [if_neg honly]
      obtain ⟨data, hdata, hlen⟩ := lastBlocks_readable hread hne hsum
      constructor
      · rintro ⟨data', hdata', hdrop⟩
        rw [hdata] at hdata'
        cases hdata'
        exact .inr (hlen ▸ List.drop_eq_nil_iff.mp hdrop.symm)
      · intro h
        exact ⟨data, hdata, (List.drop_eq_nil_iff.mpr (hlen ▸ h.resolve_left honly)).symm⟩

/-- Four bytes in two blocks, four bytes past the end. -/
theorem retrieveData_past_iff_sample :
    let s := System.after (fun e s => FsStep.exec .shipped .plain s e) sampleFs twoBlocks
    (retrieveData .shipped .plain 2 8 3 false s).1 = .ok (.data []) := by
  intro s
  obtain ⟨f, hf, hfile⟩ := Option.map_eq_some_iff.mp twoBlocks_data
  obtain ⟨hdata, hrest⟩ := Prod.mk.inj hfile
  obtain ⟨hoff, hsize⟩ := Prod.mk.inj hrest
  refine ((retrieveData_past_iff hf (by simp [hdata]) (by rw [hdata, hsize]; rfl) (.inl hoff)
    (show f.size < 8 by omega) 3).2 id (hdata ▸ twoBlocks_available.readable)).mpr (.inr ?_)
  unfold lastRaw
  rw [hdata, hsize]
  decide

/-- One byte past the end, three bytes come back. -/
theorem past_end_leaks :
    ¬ ∀ (s : Fs Bytes) (fh offset length : Nat) (f : FileInode Bytes), s.inodes.d.get? fh = some f →
      f.data ≠ [] → (rawSizes f.data).sum = f.size → f.OffsetsExact → f.size < offset →
      ∀ d, (retrieveData .shipped .plain fh offset length false s).1 = .ok (.data d) → d = [] := by
  intro h
  obtain ⟨f, hf, hfile⟩ := Option.map_eq_some_iff.mp twoBlocks_data
  obtain ⟨hdata, hrest⟩ := Prod.mk.inj hfile
  obtain ⟨hoff, hsize⟩ := Prod.mk.inj hrest
  have hne : f.data ≠ [] := by simp [hdata]
  have hsum : (rawSizes f.data).sum = f.size := by
    rw [hdata, hsize]
    rfl
  have hempty := h _ 2 5 3 f hf hne hsum (.inl hoff) (by omega)
  have hfits := ((retrieveData_past_iff hf hne hsum (.inl hoff) (by omega) 3).1.mp hempty).resolve_left (by
    unfold onlyFirst
    rw [hdata, hsize]
    decide)
  obtain ⟨data, hlast, hlen⟩ := lastBlocks_readable (hdata ▸ twoBlocks_available.readable) hne hsum
  have hle := hfits data hlast
  have hraw : lastRaw f = 4 := by
    unfold lastRaw
    rw [hdata, hsize]
    decide
  omega

end VeratyFS
