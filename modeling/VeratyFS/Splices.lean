import VeratyFS.FileWrites

/-!
# Mid-file writes

* `replaceBlocks_eq` — which blocks the mid-file branch takes out: every other one.
* `window`, `rewritten`, `write_replaces` — the bytes it reads, changes and stores again.
* `SplicesExactly`, `write_splices_iff` — the shapes of files for which this puts the buffer in
  place, whatever the bytes are; `splicesExactly_iff`: what they are without empty blocks.
-/

set_option autoImplicit false

namespace VeratyFS

open Pylib

variable {H : Type} [DecidableEq H] {cfg : Config} {P : Packages H} {content : H → Bytes}

/-! ## The blocks that the mid-file branch replaces -/

omit [DecidableEq H] in
/-- The pops take out every other block: each one moves the next block one place down. -/
theorem popBlocks_eq (n : Nat) : ∀ (bs : List (FileBlock H)) (k : Nat),
    popBlocks bs k n = bs.take k ++ thin n (bs.drop k) := by
  induction n with
  | zero => exact fun bs k => (List.take_append_drop k bs).symm
  | succ n ih =>
    intro bs k
    rw [popBlocks]
    by_cases hk : k < bs.length
    · have hpop : popAt? bs k = some (bs.take k ++ bs.drop (k + 1)) := by
        unfold popAt?
        rw [index?_natCast hk, Option.map_some, List.eraseIdx_eq_take_drop_succ]
      have hlen : (bs.take k).length = k := by
        rw [List.length_take]
        omega
      rw [hpop, List.drop_eq_getElem_cons hk]
      dsimp only
      rw [show (k : Int) + 1 = ((k + 1 : Nat) : Int) by omega, ih]
      cases hrest : bs.drop (k + 1) with
      | nil =>
        rw [List.append_nil, List.take_of_length_le (by omega), List.drop_eq_nil_of_le (by omega),
          thin_nil]
        rfl
      | cons y l =>
        rw [List.take_append, List.drop_append, hlen, List.take_of_length_le (by omega),
          List.drop_eq_nil_of_le (by omega), show k + 1 - k = 1 by omega, thin, List.append_assoc]
        rfl
    · have hpop : popAt? bs k = none := by
        unfold popAt? index?
        rw [if_neg (by omega), if_neg (by omega)]
        rfl
      rw [hpop, List.drop_eq_nil_of_le (by omega), thin_nil, List.take_of_length_le (by omega),
        List.append_nil]

omit [DecidableEq H] in
theorem insertBlocks_eq (new : List (FileBlock H)) : ∀ (bs : List (FileBlock H)) (k : Nat),
    k ≤ bs.length → insertBlocks bs k new = bs.take k ++ new ++ bs.drop k := by
  induction new with
  | nil =>
    intro bs k _
    rw [List.append_nil, List.take_append_drop]
    rfl
  | cons d new ih =>
    intro bs k hk
    have hlen : (bs.take k).length = k := by
      rw [List.length_take]
      omega
    have hins : insertAt bs k d = bs.take k ++ d :: bs.drop k := by
      unfold insertAt
      rw [bound_natCast, Nat.min_eq_left hk]
    have hover : (bs.take k).length ≤ k + 1 := by omega
    rw [insertBlocks, hins, show (k : Int) + 1 = ((k + 1 : Nat) : Int) by omega,
      ih _ (k + 1) (by rw [List.length_append, List.length_cons]; omega), List.take_append,
      List.drop_append, hlen, List.take_of_length_le hover, List.drop_eq_nil_of_le hover,
      show k + 1 - k = 1 by omega]
    simp

omit [DecidableEq H] in
theorem replaceBlocks_eq {bs : List (FileBlock H)} {k : Nat} (hk : k ≤ bs.length) (j : Nat)
    (new : List (FileBlock H)) :
    replaceBlocks bs k j new = bs.take k ++ new ++ thin (j + 1 - k) (bs.drop k) := by
  have hlen : (bs.take k).length = k := by
    rw [List.length_take]
    omega
  have hk' : k ≤ (bs.take k ++ thin (j + 1 - k) (bs.drop k)).length := by
    rw [List.length_append]
    omega
  have hover : (bs.take k).length ≤ k := Nat.le_of_eq hlen
  unfold replaceBlocks
  rw [show ((j : Int) + 1 - k).toNat = j + 1 - k by omega, popBlocks_eq, insertBlocks_eq _ _ _ hk',
    List.take_append, List.drop_append, hlen, List.take_of_length_le hover,
    List.drop_eq_nil_of_le hover, Nat.sub_self, List.take_zero, List.drop_zero, List.append_nil,
    List.nil_append]

/-! ## Mid-file writes -/

/-- The last block that `retrieve_data` reads: one more than needed at the start of the file. -/
def lastRead (k j : Nat) : Nat := if k = 0 ∧ j = 0 then 1 else j

theorem le_lastRead (k j : Nat) : j ≤ lastRead k j := by
  unfold lastRead
  split <;> omega

/-- The bytes that the mid-file branch reads and changes. -/
def window (ns : List Nat) (c : Bytes) (offset len : Nat) : Bytes :=
  (c.take (cut ns (lastRead (startBlock ns offset) (endBlock ns offset len) + 1))).drop
    (cut ns (startBlock ns offset))

theorem retrieveBlocks_whole {s : Fs H} {f : FileInode H} {offset : Nat}
    (hread : Readable cfg P content f.data s.globals) (hne : f.data ≠ [])
    (hsize : f.size = (rawSizes f.data).sum) (hoffsets : f.offsets = runningSums 0 f.data)
    (hle : offset ≤ f.size) (length : Nat) :
    (retrieveBlocks cfg P f offset length true s).1 =
      .ok (.whole (toBlockEnd (rawSizes f.data) offset) (startBlock (rawSizes f.data) offset)
        (endBlock (rawSizes f.data) offset length)
        (window (rawSizes f.data) (contents content f.data) offset length)) := by
  rw [retrieveBlocks_located hne hsize hoffsets hle length true]
  unfold window lastRead
  by_cases hfirst : startBlock (rawSizes f.data) offset = 0 ∧
      endBlock (rawSizes f.data) offset length = 0
  · rw [if_pos ⟨by omega, by omega⟩, if_pos hfirst]
    obtain ⟨s', hrun⟩ := onGlobals_ok (hread.between (startBlock (rawSizes f.data) offset)
      (endBlock (rawSizes f.data) offset length + 1))
    refine (congrArg Prod.fst (Py.run_bind_ok hrun)).trans ?_
    rw [hfirst.2]
    rfl
  · rw [if_neg fun h => hfirst ⟨by omega, by omega⟩, if_neg hfirst]
    obtain ⟨s', hrun⟩ := onGlobals_ok (hread.between (startBlock (rawSizes f.data) offset)
      (endBlock (rawSizes f.data) offset length))
    exact congrArg Prod.fst (Py.run_bind_ok hrun)

/-- The bytes that the mid-file branch stores: the buffer is put where the start of the window is as
    far away as the end of the first block is from the offset. -/
def rewritten (ns : List Nat) (c : Bytes) (offset : Nat) (buf : Bytes) : Bytes :=
  (window ns c offset buf.length).take (toBlockEnd ns offset) ++ buf ++
    (window ns c offset buf.length).drop (buf.length + toBlockEnd ns offset)

/-- The blocks that follow the new ones. -/
def followed {α : Type} (ns : List Nat) (l : List α) (offset len : Nat) : List α :=
  thin (endBlock ns offset len + 1 - startBlock ns offset) (l.drop (startBlock ns offset))

omit [DecidableEq H] in
/-- The contents of the blocks that a mid-file write leaves. -/
theorem contents_rewritten {bs blks : List (FileBlock H)}
    (hsizes : ∀ b ∈ bs, (content b.hash).length = b.rawSize) {new : Bytes}
    (hnew : contents content blks = new) {offset len : Nat} :
    contents content (bs.take (startBlock (rawSizes bs) offset) ++ blks ++
        followed (rawSizes bs) bs offset len) =
      (contents content bs).take (cut (rawSizes bs) (startBlock (rawSizes bs) offset)) ++ new ++
        (followed (rawSizes bs) (pieces content bs) offset len).flatten := by
  have htake : contents content (bs.take (startBlock (rawSizes bs) offset)) =
      (contents content bs).take (cut (rawSizes bs) (startBlock (rawSizes bs) offset)) := by
    unfold contents
    rw [← sizes_pieces hsizes, ← flatten_take]
    exact congrArg List.flatten List.map_take
  have hthin : contents content (followed (rawSizes bs) bs offset len) =
      (followed (rawSizes bs) (pieces content bs) offset len).flatten := by
    unfold contents followed pieces
    rw [thin_eq_chosen _ 0, thin_eq_chosen _ 0, map_chosen, List.map_drop]
  rw [contents_append, contents_append, hnew, htake, hthin]

section

variable {s : Fs H} {fh offset : Nat} {f : FileInode H} {buf : Bytes}

/-- **The run of a mid-file write**: it reads the window, stores the changed bytes, and puts their
blocks where the first block of the window was. -/
theorem write_rewrites (hf : s.inodes.d.get? fh = some f)
    (hread : Readable cfg P content f.data s.globals) (hsum : (rawSizes f.data).sum = f.size)
    (hoffsets : f.OffsetsExact) (hend : offset + buf.length < f.size) (now : Time) :
    ∃ s₁ f₁ blks g', (retrieveData cfg P fh offset buf.length true s).2 = s₁ ∧ Reread fh s s₁ ∧
      OffsetsOnly f f₁ ∧
      dedup cfg P (rewritten (rawSizes f.data) (contents content f.data) offset buf) s₁.globals =
        (.ok blks, g') ∧
      write cfg P fh offset buf now s = (.ok buf.length, ⟨s₁.inodes.setItem fh (f₁.written
        (f.data.take (startBlock (rawSizes f.data) offset) ++ blks ++
          followed (rawSizes f.data) f.data offset buf.length) offset buf.length now), g'⟩) := by
  have hne : f.data ≠ [] := fun h => by
    rw [h] at hsum
    change 0 = f.size at hsum
    omega
  have hns : rawSizes f.data ≠ [] := fun h => hne (List.map_eq_nil_iff.mp h)
  have hm : inMiddle f offset buf.length := ⟨hne, by omega, hend⟩
  obtain ⟨t, f₁, hdata, hsize, hoff, hrun⟩ :=
    retrieveData_blocks hf hne hoffsets offset buf.length true
  have hwhole : (retrieveData cfg P fh offset buf.length true s).1 =
      .ok (.whole (toBlockEnd (rawSizes f.data) offset) (startBlock (rawSizes f.data) offset)
        (endBlock (rawSizes f.data) offset buf.length)
        (window (rawSizes f.data) (contents content f.data) offset buf.length)) := by
    have hle : offset ≤ f₁.size := by
      rw [hsize]
      omega
    have hsum₁ : f₁.size = (rawSizes f₁.data).sum := by
      rw [hsize, hdata]
      exact hsum.symm
    rw [hrun, retrieveBlocks_whole (s := { s with inodes := t }) (hdata ▸ hread) (hdata ▸ hne) hsum₁
      hoff hle, hdata]
  rcases write_middle cfg P now hf hm with
    ⟨hno, _⟩ | ⟨sd, sb, eb, data, s₁, f₂, blks, g', hr, hk, hf₂, ho, hd, hw⟩
  · exact absurd hwhole (hno _ _ _ _)
  · have hreturn : (write cfg P fh offset buf now s).1 = .ok buf.length := by
      rw [write_middle_fst cfg P now hf hm, hwhole]
    rw [hr] at hwhole
    obtain ⟨rfl, rfl, rfl, rfl⟩ : sd = _ ∧ sb = _ ∧ eb = _ ∧ data = _ :=
      Retrieved.whole.inj (Except.ok.inj hwhole)
    have hsplice : spliceAt (window (rawSizes f.data) (contents content f.data) offset buf.length)
        (max 0 (toBlockEnd (rawSizes f.data) offset : Int))
        ((buf.length : Int) + max 0 (toBlockEnd (rawSizes f.data) offset : Int)) buf =
        rewritten (rawSizes f.data) (contents content f.data) offset buf := by
      rw [show max 0 (toBlockEnd (rawSizes f.data) offset : Int) =
          ((toBlockEnd (rawSizes f.data) offset : Nat) : Int) by omega,
        show (buf.length : Int) + ((toBlockEnd (rawSizes f.data) offset : Nat) : Int) =
          ((buf.length + toBlockEnd (rawSizes f.data) offset : Nat) : Int) by omega,
        spliceAt_natCast _ (by omega)]
      rfl
    rw [hsplice] at hd
    have hle : startBlock (rawSizes f.data) offset ≤ f₂.data.length := by
      rw [ho.data, ← show (rawSizes f.data).length = f.data.length from List.length_map _]
      have hx : offset ≤ (rawSizes f.data).sum := by omega
      have hlt := pieceAt_lt hns hx
      unfold startBlock
      split
      · exact Nat.zero_le _
      · split <;> omega
    rw [replaceBlocks_eq hle, ho.data] at hw
    exact ⟨s₁, f₂, blks, g', congrArg Prod.snd hr, hk, ho, hd, Prod.ext hreturn hw⟩

/-- **What a mid-file write leaves.** -/
theorem write_replaces (hP : P.Lawful) (hf : s.inodes.d.get? fh = some f)
    (hread : Readable cfg P content f.data s.globals) (hsum : (rawSizes f.data).sum = f.size)
    (hoffsets : f.OffsetsExact) (hend : offset + buf.length < f.size)
    (hhash : Hashed P content (dedupPieces cfg P
      (rewritten (rawSizes f.data) (contents content f.data) offset buf)).1 s.globals) (now : Time) :
    (write cfg P fh offset buf now s).1 = .ok buf.length ∧
    ∃ f', (write cfg P fh offset buf now s).2.inodes.d.get? fh = some f' ∧ f'.size = f.size ∧
      contents content f'.data =
        (contents content f.data).take (cut (rawSizes f.data) (startBlock (rawSizes f.data) offset)) ++
          rewritten (rawSizes f.data) (contents content f.data) offset buf ++
          (followed (rawSizes f.data) (pieces content f.data) offset buf.length).flatten := by
  obtain ⟨s₁, f₁, blks, g', _, hk, ho, hd, hw⟩ :=
    write_rewrites hf hread hsum hoffsets hend now
  have hhash₁ : Hashed P content (dedupPieces cfg P
      (rewritten (rawSizes f.data) (contents content f.data) offset buf)).1 s₁.globals := by
    refine ⟨hhash.content_eq, ?_⟩
    rw [hk.caches.hashTable]
    exact hhash.deflatedSize
  obtain ⟨hnew, _⟩ := dedup_contents hP hhash₁ hd
  rw [hw]
  refine ⟨rfl, _, Dict.get?_set_self _ _ _, ?_, ?_⟩
  · change max f₁.size (offset + buf.length) = _
    rw [ho.size]
    omega
  · exact contents_rewritten hread.sizes hnew

end

/-! ## When it is a splice -/

/-- The block pops take out what the window holds, and the buffer is put where it belongs: the offset
    is where its block starts or in the middle of it. -/
structure SplicesExactly (ns : List Nat) (offset len : Nat) : Prop where
  placed : cut ns (startBlock ns offset) = offset ∨
    2 * offset = cut ns (startBlock ns offset) + cut ns (startBlock ns offset + 1)
  popped : ∀ i n, startBlock ns offset ≤ i → ns[i]? = some n → 0 < n →
    (i ≤ lastRead (startBlock ns offset) (endBlock ns offset len) ↔
      (i - startBlock ns offset) % 2 = 0 ∧
        (i - startBlock ns offset) / 2 < endBlock ns offset len + 1 - startBlock ns offset)

/-- A file of a given shape, with readable blocks, whose new chunks do not collide. -/
structure Shaped (cfg : Config) (P : Packages H) (content : H → Bytes) (s : Fs H) (fh : Nat)
    (f : FileInode H) (ns : List Nat) (offset : Nat) (buf : Bytes) : Prop where
  entry : s.inodes.d.get? fh = some f
  readable : Readable cfg P content f.data s.globals
  rawSizes : rawSizes f.data = ns
  size : f.size = ns.sum
  offsets : f.OffsetsExact
  hashed : Hashed P content
    (dedupPieces cfg P (rewritten ns (contents content f.data) offset buf)).1 s.globals

/-- The file holds the buffer in place of the bytes from the offset on, and has its size. -/
structure Spliced (cfg : Config) (P : Packages H) (content : H → Bytes) (s : Fs H) (fh : Nat)
    (f : FileInode H) (offset : Nat) (buf : Bytes) (now : Time) : Prop where
  returned : (write cfg P fh offset buf now s).1 = .ok buf.length
  entry : ∃ f', (write cfg P fh offset buf now s).2.inodes.d.get? fh = some f' ∧ f'.size = f.size ∧
    contents content f'.data =
      (contents content f.data).take offset ++ buf ++ (contents content f.data).drop (offset + buf.length)

section

variable {ns : List Nat} {offset len : Nat}

/-- Where the window ends: after the bytes that the buffer replaces. -/
theorem le_cut_lastRead (hne : ns ≠ []) (hend : offset + len < ns.sum) :
    offset + len ≤ cut ns (lastRead (startBlock ns offset) (endBlock ns offset len) + 1) := by
  have hle := le_cut_pieceAt hne (x := min ns.sum (offset + len)) (Nat.min_le_left _ _)
  have hj := le_lastRead (startBlock ns offset) (endBlock ns offset len)
  have hm := cut_mono ns (i := endBlock ns offset len + 1)
    (j := lastRead (startBlock ns offset) (endBlock ns offset len) + 1) (by omega)
  unfold endBlock at hm ⊢
  omega

/-- Where the buffer is put, and that this is the offset exactly if the shape says so. -/
theorem placed_iff (hne : ns ≠ []) (hx : offset ≤ ns.sum) :
    cut ns (startBlock ns offset) + toBlockEnd ns offset = offset ↔
      (cut ns (startBlock ns offset) = offset ∨
        2 * offset = cut ns (startBlock ns offset) + cut ns (startBlock ns offset + 1)) := by
  rcases startBlock_cases hne hx with ⟨_, _⟩ | ⟨_, _, _, _, _⟩ <;> omega

theorem startBlock_le_endBlock (hlen : 0 < len) (hend : offset + len < ns.sum) :
    startBlock ns offset ≤ endBlock ns offset len := by
  have hne : ns ≠ [] := fun h => by
    rw [h] at hend
    cases hend
  have hx : offset ≤ ns.sum := by omega
  have hstart := cut_startBlock_le hne hx
  have hlast := le_cut_pieceAt hne (x := min ns.sum (offset + len)) (Nat.min_le_left _ _)
  apply Nat.le_of_not_lt
  intro hlt
  have := cut_mono ns (i := endBlock ns offset len + 1) hlt
  unfold endBlock at this
  omega

/-- The bytes before the buffer lie in the window. -/
theorem placed_le (hlen : 0 < len) (hend : offset + len < ns.sum) :
    cut ns (startBlock ns offset) + toBlockEnd ns offset ≤
      cut ns (lastRead (startBlock ns offset) (endBlock ns offset len) + 1) := by
  have hne : ns ≠ [] := fun h => by
    rw [h] at hend
    cases hend
  have hx : offset ≤ ns.sum := by omega
  have hlast := le_cut_lastRead hne hend
  rcases startBlock_cases hne hx with ⟨_, _⟩ | ⟨_, _, hstart, _, hcut⟩
  · omega
  · -- the window reaches to the end of the first block
    have hk := startBlock_le_endBlock hlen hend
    have hj := le_lastRead (startBlock ns offset) (endBlock ns offset len)
    have := cut_mono ns (i := startBlock ns offset + 1)
      (j := lastRead (startBlock ns offset) (endBlock ns offset len) + 1) (by omega)
    omega

variable {c buf : Bytes}

/-- What comes before the buffer in the new file. -/
theorem take_window (hlen : 0 < buf.length) (hend : offset + buf.length < ns.sum) :
    c.take (cut ns (startBlock ns offset)) ++
        (window ns c offset buf.length).take (toBlockEnd ns offset) =
      c.take (cut ns (startBlock ns offset) + toBlockEnd ns offset) := by
  have hle := placed_le hlen hend
  unfold window
  rw [List.take_add, List.drop_take, List.take_take, Nat.min_eq_left (by omega)]

/-- Once the buffer is put at the offset, the splice depends on the blocks that follow. -/
theorem splice_iff_followed {l : Bytes} (hlen : 0 < buf.length) (hend : offset + buf.length < ns.sum)
    (hc : c.length = ns.sum)
    (hplaced : cut ns (startBlock ns offset) + toBlockEnd ns offset = offset) :
    c.take (cut ns (startBlock ns offset)) ++ rewritten ns c offset buf ++ l =
        c.take offset ++ buf ++ c.drop (offset + buf.length) ↔
      l = c.drop (cut ns (lastRead (startBlock ns offset) (endBlock ns offset buf.length) + 1)) := by
  have hne : ns ≠ [] := fun h => by
    rw [h] at hend
    cases hend
  have hlast := le_cut_lastRead hne hend
  have hmax := cut_le ns (lastRead (startBlock ns offset) (endBlock ns offset buf.length) + 1)
  have hbefore := take_window (c := c) hlen hend
  have hafter : (window ns c offset buf.length).drop (buf.length + toBlockEnd ns offset) =
      (c.take (cut ns (lastRead (startBlock ns offset) (endBlock ns offset buf.length) + 1))).drop
        (offset + buf.length) := by
    unfold window
    rw [List.drop_drop]
    exact congrArg (fun i => List.drop i _) (by omega)
  have hrest : c.drop (offset + buf.length) =
      (c.take (cut ns (lastRead (startBlock ns offset) (endBlock ns offset buf.length) + 1))).drop
        (offset + buf.length) ++
      c.drop (cut ns (lastRead (startBlock ns offset) (endBlock ns offset buf.length) + 1)) := by
    conv_lhs => rw [← List.take_append_drop
      (cut ns (lastRead (startBlock ns offset) (endBlock ns offset buf.length) + 1)) c]
    rw [List.drop_append_of_le_length (by rw [List.length_take]; omega)]
  unfold rewritten
  rw [hafter, hrest, ← List.append_assoc, ← List.append_assoc, hbefore, hplaced,
    ← List.append_assoc (List.take offset c ++ buf), List.append_cancel_left_eq]

end

section

variable {s : Fs H} {fh offset : Nat} {f : FileInode H} {ns : List Nat} {buf : Bytes}

/-- A splice, by the bytes alone. -/
theorem spliced_iff (hP : P.Lawful) (h : Shaped cfg P content s fh f ns offset buf)
    (hend : offset + buf.length < ns.sum) (now : Time) :
    Spliced cfg P content s fh f offset buf now ↔
      (contents content f.data).take (cut ns (startBlock ns offset)) ++
          rewritten ns (contents content f.data) offset buf ++
          (followed ns (pieces content f.data) offset buf.length).flatten =
        (contents content f.data).take offset ++ buf ++
          (contents content f.data).drop (offset + buf.length) := by
  obtain ⟨hentry, hread, hraw, hsize, hoffsets, hhash⟩ := h
  subst hraw
  obtain ⟨hret, f', hf', hsize', hcontents⟩ :=
    write_replaces hP hentry hread hsize.symm hoffsets (by omega) hhash now
  constructor
  · rintro ⟨_, f₁, hf₁, _, hspliced⟩
    rw [hf'] at hf₁
    cases hf₁
    rw [← hspliced, hcontents]
  · intro heq
    exact ⟨hret, f', hf', hsize', hcontents.trans heq⟩

theorem Shaped.length_contents (h : Shaped cfg P content s fh f ns offset buf) :
    (contents content f.data).length = ns.sum := by
  rw [VeratyFS.length_contents h.readable.sizes, h.rawSizes]

theorem Shaped.sizes_pieces (h : Shaped cfg P content s fh f ns offset buf) :
    sizes (pieces content f.data) = ns := by
  rw [VeratyFS.sizes_pieces h.readable.sizes, h.rawSizes]

end

/-- The blocks that follow the new ones, by their positions. -/
theorem followed_eq_chosen {α : Type} (ns : List Nat) (l : List α) (offset len : Nat) :
    followed ns l offset len =
      chosen (fun t => decide ¬ ((t - startBlock ns offset) % 2 = 0 ∧
          (t - startBlock ns offset) / 2 < endBlock ns offset len + 1 - startBlock ns offset))
        (startBlock ns offset) (l.drop (startBlock ns offset)) := by
  unfold followed
  exact thin_eq_chosen _ _ _

/-- The bytes after the window, by the positions of their blocks. -/
theorem drop_cut_eq_chosen {ns : List Nat} {ps : List Bytes} (hps : sizes ps = ns) {k m : Nat}
    (h : k ≤ m + 1) : ps.flatten.drop (cut ns (m + 1)) =
      (chosen (fun t => decide ¬ t ≤ m) k (ps.drop k)).flatten := by
  have hdrop := drop_eq_chosen (m + 1 - k) k (ps.drop k)
  rw [List.drop_drop, show k + (m + 1 - k) = m + 1 by omega] at hdrop
  rw [← hps, ← flatten_drop, hdrop]
  exact congrArg List.flatten (chosen_congr fun t _ => decide_eq_decide.mpr (by omega))

section

variable {ns : List Nat} {offset len : Nat} {ps : List Bytes}

/-- **A shape that splices**: the blocks that follow the new ones are those after the window. -/
theorem SplicesExactly.followed (h : SplicesExactly ns offset len) (hps : sizes ps = ns)
    (hlen : 0 < len) (hend : offset + len < ns.sum) :
    (followed ns ps offset len).flatten = ps.flatten.drop
      (cut ns (lastRead (startBlock ns offset) (endBlock ns offset len) + 1)) := by
  have hk := startBlock_le_endBlock hlen hend
  have hj := le_lastRead (startBlock ns offset) (endBlock ns offset len)
  rw [drop_cut_eq_chosen hps (k := startBlock ns offset) (by omega), followed_eq_chosen]
  refine flatten_chosen_congr fun t n ht hn => decide_eq_decide.mpr (not_congr ?_)
  have hget : ns[startBlock ns offset + t]? = some n := by
    rw [sizes, List.map_drop, List.getElem?_drop, show ps.map List.length = ns from hps] at ht
    exact ht
  exact (h.popped _ n (Nat.le_add_right _ _) hget hn).symm

end

/-! ## A file of every shape -/

/-- The bytes of the pieces, by their hashes. -/
def cachedBytes : List Bytes → Dict Bytes Bytes
  | [] => Dict.empty
  | p :: ps => (cachedBytes ps).set p p

theorem cachedBytes_get? {ps : List Bytes} {p : Bytes} (h : p ∈ ps) :
    (cachedBytes ps).get? p = some p := by
  induction ps with
  | nil => cases h
  | cons q ps ih =>
    rw [cachedBytes, Dict.get?_set]
    split
    · rename_i hq
      exact congrArg some hq
    · rename_i hq
      exact ih ((List.mem_cons.mp h).resolve_left fun e => hq e.symm)

def cachedInode (ps : List Bytes) : FileInode Bytes :=
  { inode := 2, data := ps.map fun p => ⟨p, p.length, p.length⟩, size := (sizes ps).sum }

/-- A file system with a file whose blocks are the pieces; all are in `write_read_cache`. -/
def cachedFile (ps : List Bytes) : Fs Bytes where
  inodes := sampleFs.inodes.setItem 2 (cachedInode ps)
  globals := { sampleFs.globals with writeReadCache := cachedBytes ps }

theorem pieces_cached (ps : List Bytes) : pieces id (cachedInode ps).data = ps := by
  unfold pieces cachedInode
  rw [List.map_map]
  exact List.map_id ps

theorem cachedFile_shaped (cfg : Config) (ps : List Bytes) (offset : Nat) (buf : Bytes) :
    Shaped cfg .plain id (cachedFile ps) 2 (cachedInode ps) (sizes ps) offset buf where
  entry := Dict.get?_set_self _ _ _
  readable := by
    refine AllAvailable.readable fun b hb => ?_
    obtain ⟨p, hp, rfl⟩ := List.mem_map.mp hb
    exact .unwritten rfl rfl (cachedBytes_get? hp) rfl rfl
  rawSizes := by
    unfold rawSizes cachedInode
    rw [List.map_map]
    rfl
  size := rfl
  offsets := .inl rfl
  hashed := ⟨fun _ _ => rfl, fun c _ b hb => by cases hb⟩

/-- Every file of the shape is spliced by every buffer of the length. -/
def SplicesEvery (cfg : Config) (ns : List Nat) (offset len : Nat) (now : Time) : Prop :=
  ∀ (H : Type) [DecidableEq H] (P : Packages H) (content : H → Bytes) (s : Fs H) (fh : Nat)
    (f : FileInode H) (buf : Bytes), P.Lawful → buf.length = len →
    Shaped cfg P content s fh f ns offset buf → Spliced cfg P content s fh f offset buf now

section

variable {ns : List Nat} {offset len : Nat} {now : Time}

/-- What a splice of a file that holds the pieces says. -/
theorem SplicesEvery.cached (h : SplicesEvery cfg ns offset len now) (hend : offset + len < ns.sum)
    {ps : List Bytes} (hps : sizes ps = ns) {buf : Bytes} (hbuf : buf.length = len) :
    ps.flatten.take (cut ns (startBlock ns offset)) ++ rewritten ns ps.flatten offset buf ++
        (followed ns ps offset len).flatten =
      ps.flatten.take offset ++ buf ++ ps.flatten.drop (offset + len) := by
  subst hps hbuf
  have hshape := cachedFile_shaped cfg ps offset buf
  have hspliced := h Bytes .plain id _ _ _ buf Packages.plain_lawful rfl hshape
  have heq := (spliced_iff Packages.plain_lawful hshape hend now).mp hspliced
  unfold contents at heq
  rwa [pieces_cached] at heq

/-- A buffer of ones in a file of zeros shows where it is put. -/
theorem SplicesEvery.placed (h : SplicesEvery cfg ns offset len now) (hlen : 0 < len)
    (hend : offset + len < ns.sum) :
    cut ns (startBlock ns offset) + toBlockEnd ns offset = offset := by
  obtain ⟨n, rfl⟩ : ∃ n, len = n + 1 := ⟨len - 1, by omega⟩
  let zeros : List Bytes := ns.map fun m => List.replicate m 0
  have hsizes : sizes zeros = ns := by
    change List.map List.length (List.map _ ns) = ns
    rw [List.map_map]
    exact (List.map_congr_left fun m _ => List.length_replicate).trans (List.map_id ns)
  have hflat : zeros.flatten = List.replicate ns.sum 0 := by
    refine List.eq_replicate_iff.mpr ⟨?_, fun x hx => ?_⟩
    · rw [← sum_sizes, hsizes]
    · obtain ⟨p, hp, hx⟩ := List.mem_flatten.mp hx
      obtain ⟨m, _, rfl⟩ := List.mem_map.mp hp
      exact List.eq_of_mem_replicate hx
  have hones : (List.replicate (n + 1) (1 : UInt8)).length = n + 1 := List.length_replicate
  have heq := h.cached hend hsizes hones
  have hbefore := take_window (c := zeros.flatten) (hones.symm ▸ hlen) (hones.symm ▸ hend)
  have hle := placed_le hlen hend
  have hmax := cut_le ns (lastRead (startBlock ns offset) (endBlock ns offset (n + 1)) + 1)
  unfold rewritten at heq
  rw [← List.append_assoc, ← List.append_assoc, hbefore, hflat, List.take_replicate,
    List.take_replicate, Nat.min_eq_left (by omega), Nat.min_eq_left (by omega),
    List.replicate_succ, List.append_assoc, List.append_assoc, List.append_assoc] at heq
  exact replicate_append_cons_inj (by decide) heq

/-- A file of zeros with one block of ones shows which blocks are lost. -/
theorem SplicesEvery.popped (h : SplicesEvery cfg ns offset len now) (hlen : 0 < len)
    (hend : offset + len < ns.sum) {i n : Nat} (hk : startBlock ns offset ≤ i) (hi : ns[i]? = some n)
    (hn : 0 < n) :
    i ≤ lastRead (startBlock ns offset) (endBlock ns offset len) ↔
      (i - startBlock ns offset) % 2 = 0 ∧
        (i - startBlock ns offset) / 2 < endBlock ns offset len + 1 - startBlock ns offset := by
  have hsizes : sizes (marked (1 : UInt8) 0 i 0 ns) = ns := sizes_marked _ _ _ _ _
  have hlen' : (List.replicate len (0 : UInt8)).length = len := List.length_replicate
  have heq := h.cached hend hsizes hlen'
  have hfollowed := (splice_iff_followed (by rw [hlen']; exact hlen)
    (by rw [hlen']; exact hend) (by rw [← sum_sizes, hsizes]) (h.placed hlen hend)).mp
    (by rw [hlen']; exact heq)
  have hk₁ := startBlock_le_endBlock hlen hend
  have hj := le_lastRead (startBlock ns offset) (endBlock ns offset len)
  rw [hlen', drop_cut_eq_chosen hsizes (k := startBlock ns offset) (by omega), followed_eq_chosen,
    drop_marked, Nat.zero_add] at hfollowed
  have hcount := congrArg (List.count 1) hfollowed
  have hget : (ns.drop (startBlock ns offset))[i - startBlock ns offset]? = some n := by
    rw [List.getElem?_drop, show startBlock ns offset + (i - startBlock ns offset) = i by omega, hi]
  rw [count_chosen_marked (by decide), count_chosen_marked (by decide), hget] at hcount
  simp only [decide_eq_true_eq, Option.getD_some, hk, and_true] at hcount
  by_cases ha : (i - startBlock ns offset) % 2 = 0 ∧
      (i - startBlock ns offset) / 2 < endBlock ns offset len + 1 - startBlock ns offset
  · by_cases hb : i ≤ lastRead (startBlock ns offset) (endBlock ns offset len)
    · exact iff_of_true hb ha
    · rw [if_neg (not_not_intro ha), if_pos hb] at hcount
      omega
  · by_cases hb : i ≤ lastRead (startBlock ns offset) (endBlock ns offset len)
    · rw [if_pos ha, if_neg (not_not_intro hb)] at hcount
      omega
    · exact iff_of_false hb ha

/-- **Mid-file writes**: every file of a shape gets the buffer in place of the bytes from the offset
on, and keeps its size, exactly if the pops take out what the window holds and the buffer is put at
the offset. -/
theorem write_splices_iff (hlen : 0 < len) (hend : offset + len < ns.sum) :
    SplicesEvery cfg ns offset len now ↔ SplicesExactly ns offset len := by
  have hne : ns ≠ [] := fun h => by
    rw [h] at hend
    cases hend
  have hx : offset ≤ ns.sum := by omega
  constructor
  · intro h
    exact ⟨(placed_iff hne hx).mp (h.placed hlen hend),
      fun i n hk hi hn => h.popped hlen hend hk hi hn⟩
  · intro h H _ P content s fh f buf hP hbuf hshape
    subst hbuf
    refine (spliced_iff hP hshape hend now).mpr ?_
    refine (splice_iff_followed hlen hend hshape.length_contents ((placed_iff hne hx).mpr h.placed)).mpr ?_
    exact h.followed hshape.sizes_pieces hlen hend

theorem write_splices_iff_sample :
    SplicesEvery .shipped [1, 3] 1 2 0 ↔ SplicesExactly [1, 3] 1 2 :=
  write_splices_iff (by decide) (by decide)

/-- The third of four bytes is written: the last one gets the new byte. -/
theorem write_beyond_offset :
    let s := System.after (fun e s => FsStep.exec .shipped .plain s e) sampleFs twoBlocks
    (write .shipped .plain 2 2 [5] 0 s).1 = .ok 1 ∧
    ((write .shipped .plain 2 2 [5] 0 s).2.inodes.d.get? 2).map
        (fun f => (contents id f.data, f.size)) = some ([7, 8, 9, 5], 4) ∧
    [7, 8, 9, 10].take 2 ++ [5] ++ [7, 8, 9, 10].drop (2 + 1) = [7, 8, 5, 10] := by
  decide +kernel

/-- Without empty blocks: both ends lie in one block, which is not the first of several, and the
offset is where the block starts or in the middle of it. -/
theorem splicesExactly_iff (hpos : ∀ n ∈ ns, 0 < n) (hlen : 0 < len) (hend : offset + len < ns.sum) :
    SplicesExactly ns offset len ↔
      (cut ns (startBlock ns offset) = offset ∨
        2 * offset = cut ns (startBlock ns offset) + cut ns (startBlock ns offset + 1)) ∧
      endBlock ns offset len = startBlock ns offset ∧
      (startBlock ns offset = 0 → ns.length = 1) := by
  have hne : ns ≠ [] := fun h => by
    rw [h] at hend
    cases hend
  have hk := startBlock_le_endBlock hlen hend
  have hj : endBlock ns offset len < ns.length := pieceAt_lt hne (Nat.min_le_left _ _)
  have hget : ∀ i, i < ns.length → ∃ n, ns[i]? = some n ∧ 0 < n := fun i hi =>
    ⟨ns[i], List.getElem?_eq_getElem hi, hpos _ (List.getElem_mem hi)⟩
  constructor
  · rintro ⟨hplaced, hpopped⟩
    have hsame : endBlock ns offset len = startBlock ns offset := by
      -- else the second block of the window is not popped
      apply Classical.byContradiction
      intro hlt
      obtain ⟨n, hn, hn₀⟩ := hget (startBlock ns offset + 1) (by omega)
      have := (hpopped _ n (by omega) hn hn₀).mp (by unfold lastRead; split <;> omega)
      omega
    refine ⟨hplaced, hsame, fun h₀ => ?_⟩
    apply Classical.byContradiction
    intro hlt
    obtain ⟨n, hn, hn₀⟩ := hget 1 (by omega)
    have := (hpopped 1 n (by omega) hn hn₀).mp (by unfold lastRead; split <;> omega)
    omega
  · rintro ⟨hplaced, hsame, hone⟩
    refine ⟨hplaced, fun i n hi hn _ => ?_⟩
    have hlt : i < ns.length := (List.getElem?_eq_some_iff.mp hn).1
    unfold lastRead
    split <;> omega

end

end VeratyFS
