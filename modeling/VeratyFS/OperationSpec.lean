import VeratyFS.Operations

/-!
# What the file operations do

One lemma for each operation; later proofs use these and never unfold the operations.

* `Reread`, `read_keeps` — a read changes the offset cache and the read caches, nothing else.
* `write_append`, `write_middle` — the two branches of `write`.
* `copyInode_run`, `create_cases`, `removeInode_cases`, `replaceInode_cases`.
-/

set_option autoImplicit false

namespace VeratyFS

open Pylib

variable {H : Type}

/-! ## Reads -/

/-- Only the offset cache and the access time differ, and the cache only by being filled. -/
structure OffsetsOnly (f f' : FileInode H) : Prop where
  eq : f' = { f with offsets := f'.offsets, atimeNs := f'.atimeNs }
  offsets : f'.offsets = f.offsets ∨ f'.offsets = runningSums 0 f.data

namespace OffsetsOnly

variable {f f' f'' : FileInode H}

theorem refl (f : FileInode H) : OffsetsOnly f f := ⟨rfl, .inl rfl⟩

theorem data (h : OffsetsOnly f f') : f'.data = f.data := by rw [h.eq]

theorem size (h : OffsetsOnly f f') : f'.size = f.size := by rw [h.eq]

theorem inode (h : OffsetsOnly f f') : f'.inode = f.inode := by rw [h.eq]

theorem trans (h : OffsetsOnly f f') (h' : OffsetsOnly f' f'') : OffsetsOnly f f'' := by
  refine ⟨?_, ?_⟩
  · rw [h'.eq, h.eq]
  · rcases h'.offsets with e | e
    · rw [e]
      exact h.offsets
    · rw [e, h.data]
      exact .inr rfl

end OffsetsOnly

/-- A read of `fh` changes the read caches, and of the inodes only that of `fh`. -/
structure Reread (fh : Nat) (s s' : Fs H) : Prop where
  caches : CachesOnly s.globals s'.globals
  others : ∀ k, k ≠ fh → s'.inodes.d.get? k = s.inodes.d.get? k
  self : (s.inodes.d.get? fh = none ∧ s'.inodes.d.get? fh = none) ∨
    ∃ f f', s.inodes.d.get? fh = some f ∧ s'.inodes.d.get? fh = some f' ∧ OffsetsOnly f f'

theorem Reread.of_inodes {fh : Nat} {s s' : Fs H} (hg : CachesOnly s.globals s'.globals)
    (hd : s'.inodes.d = s.inodes.d) : Reread fh s s' := by
  refine ⟨hg, fun k _ => by rw [hd], ?_⟩
  cases h : s.inodes.d.get? fh with
  | none => exact .inl ⟨rfl, by rw [hd, h]⟩
  | some f => exact .inr ⟨f, f, rfl, by rw [hd, h], .refl f⟩

instance (fh : Nat) : Py.Frame (@Reread H fh) := by
  refine ⟨fun s => .of_inodes (Py.Frame.refl _) rfl, fun {s s' s''} h h' => ?_⟩
  refine ⟨Py.Frame.trans h.caches h'.caches, fun k hk => (h'.others k hk).trans (h.others k hk), ?_⟩
  rcases h.self with ⟨h₁, h₂⟩ | ⟨f, f', h₁, h₂, ho⟩ <;>
    rcases h'.self with ⟨h₃, h₄⟩ | ⟨f₁, f₂, h₃, h₄, ho'⟩
  · exact .inl ⟨h₁, h₄⟩
  · rw [h₂] at h₃; cases h₃
  · rw [h₂] at h₃; cases h₃
  · rw [h₂] at h₃
    cases h₃
    exact .inr ⟨f, f₂, h₁, h₄, ho.trans ho'⟩

/-- The inodes before and after a read, key by key. -/
theorem Reread.get? {fh : Nat} {s s' : Fs H} (h : Reread fh s s') (k : Nat) (f' : FileInode H)
    (hk : s'.inodes.d.get? k = some f') :
    ∃ f, s.inodes.d.get? k = some f ∧ OffsetsOnly f f' := by
  by_cases e : k = fh
  · subst e
    rcases h.self with ⟨_, h₂⟩ | ⟨f, f₁, h₁, h₂, ho⟩
    · rw [h₂] at hk; cases hk
    · rw [h₂] at hk
      cases hk
      exact ⟨f, h₁, ho⟩
  · exact ⟨f', by rw [← h.others k e, hk], .refl f'⟩

/-- The inode that is read is still there. -/
theorem Reread.of_some {fh : Nat} {s s' : Fs H} {f : FileInode H} (h : Reread fh s s')
    (hf : s.inodes.d.get? fh = some f) :
    ∃ f', s'.inodes.d.get? fh = some f' ∧ OffsetsOnly f f' := by
  rcases h.self with ⟨hn, _⟩ | ⟨_, f', hf₀, hf', ho⟩
  · rw [hf] at hn
    cases hn
  · rw [hf] at hf₀
    cases hf₀
    exact ⟨f', hf', ho⟩

theorem inodeAt_run {fh : Nat} {s : Fs H} {f : FileInode H} (h : s.inodes.d.get? fh = some f) :
    inodeAt fh s = (.ok f, s) := by
  change Py.ofOption PyError.keyError (s.inodes.getItem? fh) s = _
  unfold FSMeta.getItem?
  rw [h]
  rfl

theorem inodeAt_missing {fh : Nat} {s : Fs H} (h : s.inodes.d.get? fh = none) :
    inodeAt fh s = (.error .keyError, s) := by
  change Py.ofOption PyError.keyError (s.inodes.getItem? fh) s = _
  unfold FSMeta.getItem?
  rw [h]
  rfl

theorem delInode_run {fh : Nat} {s : Fs H} (h : s.inodes.d.contains fh = true) :
    delInode fh s = (.ok (), { s with inodes := (s.inodes.delItem fh).2 }) := by
  unfold delInode Fs.onInodes Py.zoom
  rw [FSMeta.delItem_fst _ h]

theorem inodeAt_keeps {R : Fs H → Fs H → Prop} [Py.Frame R] (fh : Nat) :
    Py.Keeps R (inodeAt fh) :=
  Py.keeps_bind Py.keeps_read fun _ => Py.keeps_ofOption _ _

/-- A file with its offsets. -/
def FileInode.withOffsets (f : FileInode H) : FileInode H := { f with offsets := runningSums 0 f.data }

/-- `calc_offsets` takes an inode out of the table and sets it again. -/
theorem calcOffsets_eq {fh : Nat} {s : Fs H} {f : FileInode H} (h : s.inodes.d.get? fh = some f) :
    calcOffsets fh s =
      (.ok (), ⟨((s.inodes.update fh f.withOffsets).delItem fh).2.setItem fh f.withOffsets, s.globals⟩) := by
  have hc : (s.inodes.update fh f.withOffsets).d.contains fh = true := by
    rw [FSMeta.update_d, Dict.contains_iff]
    exact ⟨_, by rw [Dict.get?_modify, if_pos rfl, h]; rfl⟩
  have hmodify : Fs.onInodes (Py.modify fun t => t.update fh f.withOffsets) s =
      (.ok (), { s with inodes := s.inodes.update fh f.withOffsets }) := rfl
  unfold calcOffsets
  rw [Py.run_bind_ok (inodeAt_run h)]
  refine (Py.run_bind_ok hmodify).trans ?_
  exact Py.run_bind_ok (delInode_run hc)

/-- `calc_offsets` fills the offset cache of one inode. -/
theorem calcOffsets_run {fh : Nat} {s : Fs H} {f : FileInode H}
    (h : s.inodes.d.get? fh = some f) :
    ∃ t : FSMeta H, calcOffsets fh s = (.ok (), { s with inodes := t }) ∧
      ∀ k, t.d.get? k = if fh = k then some { f with offsets := runningSums 0 f.data }
        else s.inodes.d.get? k := by
  refine ⟨_, calcOffsets_eq h, fun k => ?_⟩
  rw [FSMeta.setItem_d, Dict.get?_set]
  split
  · rfl
  · rename_i hk
    rcases FSMeta.delItem_d_get? (s.inodes.update fh f.withOffsets) fh k with e | ⟨e, _⟩
    · rw [e, FSMeta.update_d, Dict.get?_modify, if_neg hk]
    · exact absurd e hk

theorem calcOffsets_keeps (fh : Nat) : Py.Keeps (Reread fh) (calcOffsets (H := H) fh) := by
  intro s
  cases h : s.inodes.d.get? fh with
  | none =>
    unfold calcOffsets
    rw [Py.run_bind_error (inodeAt_missing h)]
    exact Py.Frame.refl s
  | some f =>
    obtain ⟨t, hrun, ht⟩ := calcOffsets_run h
    rw [hrun]
    refine ⟨Py.Frame.refl s.globals, fun k hk => ?_,
      .inr ⟨f, { f with offsets := runningSums 0 f.data }, h, ?_, ⟨rfl, .inr rfl⟩⟩⟩
    · exact (ht k).trans (if_neg fun e => hk e.symm)
    · exact (ht fh).trans (if_pos rfl)

theorem commitInodes_keeps (fh : Nat) : Py.Keeps (Reread fh) (commitInodes (H := H)) := fun s =>
  .of_inodes (Py.Frame.refl s.globals) s.inodes.commit_d

theorem onGlobals_keeps {α : Type} {m : Task H α} (fh : Nat) (h : Py.Keeps CachesOnly m) :
    Py.Keeps (Reread fh) (Fs.onGlobals m) :=
  Py.keeps_zoom h fun _ _ hg => .of_inodes hg rfl

theorem ensureOffsets_keeps (fh : Nat) (f : FileInode H) :
    Py.Keeps (Reread fh) (ensureOffsets fh f) := by
  unfold ensureOffsets
  split
  · exact Py.keeps_bind (calcOffsets_keeps fh) fun _ =>
      Py.keeps_bind (commitInodes_keeps fh) fun _ => inodeAt_keeps fh
  · exact Py.keeps_pure _

variable [DecidableEq H] {cfg : Config} {P : Packages H}

/-- Reading blocks only runs the block reader. -/
theorem retrieveBlocks_keeps {R : Fs H → Fs H → Prop} [Py.Frame R] {cfg : Config} {P : Packages H}
    {f : FileInode H}
    (hR : ∀ i j : Int, Py.Keeps R (Fs.onGlobals (getFileData cfg P f.data i j)))
    (offset length : Nat) (whole : Bool) :
    Py.Keeps R (retrieveBlocks cfg P f offset length whole) := by
  unfold retrieveBlocks
  refine Py.keeps_bind (Py.keeps_ofOption _ _) fun start => ?_
  refine Py.keeps_bind (Py.keeps_ofOption _ _) fun start' => ?_
  refine Py.keeps_bind (Py.keeps_ofOption _ _) fun stop => ?_
  dsimp only
  split
  · refine Py.keeps_bind (hR _ _) fun data => ?_
    split <;> exact Py.keeps_pure _
  · refine Py.keeps_bind (hR _ _) fun data => ?_
    split
    · exact Py.keeps_pure _
    · exact Py.keeps_bind (Py.keeps_ofOption _ _) fun _ => Py.keeps_pure _

theorem retrieveData_keeps (cfg : Config) (P : Packages H) (fh offset length : Nat) (whole : Bool) :
    Py.Keeps (Reread fh) (retrieveData cfg P fh offset length whole) := by
  refine Py.keeps_bind Py.keeps_read fun s => ?_
  split
  · exact Py.keeps_pure _
  · split
    · exact Py.keeps_pure _
    · exact Py.keeps_bind (ensureOffsets_keeps fh _) fun _ =>
        retrieveBlocks_keeps (fun i j => onGlobals_keeps fh (getFileData_keeps cfg P _ i j)) offset length whole

/-- **A read changes the offset cache of its file and the read caches, nothing else.** -/
theorem read_keeps (cfg : Config) (P : Packages H) (fh offset length : Nat) (now : Time) :
    Py.Keeps (Reread fh) (read cfg P fh offset length now) := by
  refine Py.keeps_bind (retrieveData_keeps cfg P fh offset length false) fun r => ?_
  intro s
  cases h : s.inodes.d.get? fh with
  | none =>
    rw [Py.run_bind_error (inodeAt_missing h)]
    exact Py.Frame.refl s
  | some f =>
    rw [Py.run_bind_ok (inodeAt_run h)]
    refine ⟨Py.Frame.refl s.globals, fun k hk => ?_, .inr ⟨f, { f with atimeNs := timeNs now }, h, ?_, ⟨rfl, .inl rfl⟩⟩⟩
    · exact s.inodes.d.get?_set_ne _ fun e => hk e.symm
    · exact s.inodes.d.get?_set_self _ _

/-! ## Writes -/

/-- The inode that `write` sets. -/
def FileInode.written {H : Type} (f : FileInode H) (data : List (FileBlock H)) (offset len : Nat)
    (now : Time) : FileInode H :=
  { f with data := data, size := max f.size (offset + len), mtimeNs := timeNs now }

theorem read_missing {fh offset length : Nat} {now : Time} {s : Fs H}
    (h : s.inodes.d.get? fh = none) : read cfg P fh offset length now s = (.error .keyError, s) := by
  have hdata : retrieveData cfg P fh offset length false s = (.ok (.data []), s) := by
    unfold retrieveData
    rw [Py.run_bind_ok (Py.run_read s), show s.inodes.getItem? fh = none from h]
    rfl
  unfold read
  rw [Py.run_bind_ok hdata, Py.run_bind_error (inodeAt_missing h)]

theorem write_missing {fh offset : Nat} {buf : Bytes} {now : Time} {s : Fs H}
    (h : s.inodes.d.get? fh = none) : write cfg P fh offset buf now s = (.error .keyError, s) := by
  unfold write
  rw [Py.run_bind_error (inodeAt_missing h)]

/-- The append branch: the blocks of the buffer follow the blocks of the file, wherever the
    offset is. -/
theorem write_append (cfg : Config) (P : Packages H) {fh offset : Nat} {buf : Bytes} (now : Time)
    {s : Fs H} {f : FileInode H}
    (h : s.inodes.d.get? fh = some f) (hm : ¬ inMiddle f offset buf.length) :
    ∃ blks g', dedup cfg P buf s.globals = (.ok blks, g') ∧
      write cfg P fh offset buf now s =
        (.ok buf.length, ⟨s.inodes.setItem fh (f.written (f.data ++ blks) offset buf.length now), g'⟩) := by
  obtain ⟨blks, g', hd⟩ := dedup_total cfg P buf s.globals
  have hzoom : Fs.onGlobals (dedup cfg P buf) s = (.ok blks, { s with globals := g' }) :=
    Py.run_zoom hd
  refine ⟨blks, g', hd, ?_⟩
  unfold write
  rw [Py.run_bind_ok (inodeAt_run h), if_neg hm, Py.run_bind_ok hzoom]
  rfl

section

variable {fh offset : Nat} {buf : Bytes} {s t : Fs H} {f : FileInode H}

theorem writeMiddle_error {e : PyError}
    (h : retrieveData cfg P fh offset buf.length true s = (.error e, t)) :
    writeMiddle cfg P fh offset buf s = (.error e, t) := by
  unfold writeMiddle
  rw [Py.run_bind_error h]

/-- Past the end `retrieve_data` gives one value where four are unpacked. -/
theorem writeMiddle_data {d : Bytes}
    (h : retrieveData cfg P fh offset buf.length true s = (.ok (.data d), t)) :
    writeMiddle cfg P fh offset buf s = (.error .valueError, t) := by
  unfold writeMiddle
  rw [Py.run_bind_ok h]
  rfl

theorem writeMiddle_whole {sd sb eb : Int} {data : Bytes} (hf : t.inodes.d.get? fh = some f)
    (h : retrieveData cfg P fh offset buf.length true s = (.ok (.whole sd sb eb data), t)) :
    ∃ blks g', dedup cfg P (spliceAt data (max 0 sd) ((buf.length : Int) + max 0 sd) buf) t.globals =
        (.ok blks, g') ∧
      writeMiddle cfg P fh offset buf s =
        (.ok { f with data := replaceBlocks f.data sb eb blks }, { t with globals := g' }) := by
  obtain ⟨blks, g', hd⟩ := dedup_total cfg P
    (spliceAt data (max 0 sd) ((buf.length : Int) + max 0 sd) buf) t.globals
  have hzoom : Fs.onGlobals (dedup cfg P
      (spliceAt data (max 0 sd) ((buf.length : Int) + max 0 sd) buf)) t =
      (.ok blks, { t with globals := g' }) := Py.run_zoom hd
  refine ⟨blks, g', hd, ?_⟩
  unfold writeMiddle
  rw [Py.run_bind_ok h]
  refine (Py.run_bind_ok hzoom).trans ?_
  exact Py.run_bind_ok (inodeAt_run hf)

/-- The `ValueError` is swallowed, and nothing counts as written. -/
theorem write_raised {e : PyError} (now : Time) (hf : s.inodes.d.get? fh = some f)
    (hm : inMiddle f offset buf.length) (h : writeMiddle cfg P fh offset buf s = (.error e, t)) :
    write cfg P fh offset buf now s = (if e = .valueError then .ok 0 else .error e, t) := by
  have htry := Py.run_attempt_error
    (f := fun e => if e = .valueError then return none else Py.raise e)
    (Py.run_bind_error (f := fun f => (return some f : Op H (Option (FileInode H)))) h)
  unfold write
  rw [Py.run_bind_ok (inodeAt_run hf), if_pos hm]
  by_cases he : e = .valueError
  · rw [if_pos he] at htry ⊢
    rw [Py.run_bind_ok htry]
    rfl
  · rw [if_neg he] at htry ⊢
    rw [Py.run_bind_error htry]

theorem write_replaced {f' : FileInode H} (now : Time) (hf : s.inodes.d.get? fh = some f)
    (hm : inMiddle f offset buf.length) (h : writeMiddle cfg P fh offset buf s = (.ok f', t)) :
    write cfg P fh offset buf now s =
      (.ok buf.length, ⟨t.inodes.setItem fh (f'.written f'.data offset buf.length now), t.globals⟩) := by
  have htry := Py.run_attempt_ok
    (f := fun e => if e = .valueError then return none else Py.raise e)
    (Py.run_bind_ok (f := fun f => (return some f : Op H (Option (FileInode H)))) h)
  unfold write
  rw [Py.run_bind_ok (inodeAt_run hf), if_pos hm, Py.run_bind_ok htry]
  rfl

end

/-- The mid-file branch: either the range cannot be read, and only caches change; or its blocks are
    replaced by those of the changed bytes. -/
theorem write_middle (cfg : Config) (P : Packages H) {fh offset : Nat} {buf : Bytes} (now : Time)
    {s : Fs H} {f : FileInode H}
    (h : s.inodes.d.get? fh = some f) (hm : inMiddle f offset buf.length) :
    ((∀ sd sb eb data, (retrieveData cfg P fh offset buf.length true s).1 ≠ .ok (.whole sd sb eb data)) ∧
      Reread fh s (write cfg P fh offset buf now s).2) ∨
    ∃ sd sb eb data s₁ f₁ blks g',
      retrieveData cfg P fh offset buf.length true s = (.ok (.whole sd sb eb data), s₁) ∧
      Reread fh s s₁ ∧ s₁.inodes.d.get? fh = some f₁ ∧ OffsetsOnly f f₁ ∧
      dedup cfg P (spliceAt data (max 0 sd) ((buf.length : Int) + max 0 sd) buf) s₁.globals =
        (.ok blks, g') ∧
      (write cfg P fh offset buf now s).2 =
        ⟨s₁.inodes.setItem fh (f₁.written (replaceBlocks f₁.data sb eb blks) offset buf.length now), g'⟩ := by
  have hkeep : Reread fh s _ := retrieveData_keeps cfg P fh offset buf.length true s
  cases hr : retrieveData cfg P fh offset buf.length true s with
  | mk r s₁ =>
    rw [hr] at hkeep
    cases r with
    | error e =>
      refine .inl ⟨(fun _ _ _ _ hc => by cases hc), ?_⟩
      rw [write_raised now h hm (writeMiddle_error hr)]
      exact hkeep
    | ok o =>
      cases o with
      | data d =>
        refine .inl ⟨(fun _ _ _ _ hc => by cases hc), ?_⟩
        rw [write_raised now h hm (writeMiddle_data hr)]
        exact hkeep
      | whole sd sb eb data =>
        right
        obtain ⟨f₁, h₁, ho⟩ := hkeep.of_some h
        obtain ⟨blks, g', hd, hmid⟩ := writeMiddle_whole h₁ hr
        refine ⟨sd, sb, eb, data, s₁, f₁, blks, g', rfl, hkeep, h₁, ho, hd, ?_⟩
        rw [write_replaced now h hm hmid]
        rfl

/-! ## Creating, replacing, removing -/

/-- The inode that `copyInode` makes. -/
def emptied {H : Type} (f : FileInode H) : FileInode H := { f with data := [], offsets := [], size := 0 }

omit [DecidableEq H] in
theorem copyInode_missing {fh : Nat} {s : Fs H} (h : s.inodes.d.get? fh = none) :
    copyInode fh s = (.error .keyError, s) := by
  unfold copyInode
  rw [Py.run_bind_error (inodeAt_missing h)]

/-- The number that `gen_inode_number` gives. -/
def NextNumber {H : Type} (s : Fs H) (ino : Nat) : Prop := ∃ m, s.inodes.max = some m ∧ ino = m + 1

omit [DecidableEq H] in
/-- A new number is not in use. -/
theorem NextNumber.unused {s : Fs H} {ino : Nat} (h : NextNumber s ino) :
    s.inodes.d.get? ino = none := by
  obtain ⟨m, hm, rfl⟩ := h
  cases hk : s.inodes.d.get? (m + 1) with
  | none => rfl
  | some f =>
    obtain ⟨m', hm', hle⟩ := s.inodes.max_spec hk
    rw [hm] at hm'
    cases hm'
    have := hle _ _ hk
    omega

omit [DecidableEq H] in
theorem genInodeNumber_run {s : Fs H} {m : Nat} (hm : s.inodes.max = some m) :
    genInodeNumber s = (.ok (m + 1), s) := by
  unfold genInodeNumber
  change (Py.ofOption PyError.valueError s.inodes.max >>= fun m => return m + 1) s = _
  rw [hm]
  rfl

omit [DecidableEq H] in
/-- A number that is returned is the next one. -/
theorem genInodeNumber_ok {s : Fs H} {n : Nat} (hn : (genInodeNumber s).1 = .ok n) :
    NextNumber s n := by
  cases hm : s.inodes.max with
  | none =>
    unfold genInodeNumber at hn
    rw [Py.run_bind_ok (Py.run_read _), hm] at hn
    cases hn
  | some m =>
    rw [genInodeNumber_run hm] at hn
    exact ⟨m, hm, (Except.ok.inj hn).symm⟩

omit [DecidableEq H] in
/-- The copy gets a new number. -/
theorem copyInode_run {fh : Nat} {s : Fs H} {f : FileInode H} (h : s.inodes.d.get? fh = some f) :
    ∃ tempIno, NextNumber s tempIno ∧
      copyInode fh s = (.ok tempIno, { s with inodes := s.inodes.setItem tempIno (emptied f) }) := by
  obtain ⟨m, hm, _⟩ := s.inodes.max_spec h
  refine ⟨m + 1, ⟨m, hm, rfl⟩, ?_⟩
  unfold copyInode
  rw [Py.run_bind_ok (inodeAt_run h), Py.run_bind_ok (genInodeNumber_run hm)]
  rfl

omit [DecidableEq H] in
theorem getattr_state (inode : Nat) (s : Fs H) : (getattr inode s).2 = s := by
  unfold getattr
  cases h : s.inodes.d.get? inode with
  | none =>
    rw [Py.run_attempt_error (Py.run_bind_error (inodeAt_missing h))]
    rfl
  | some f =>
    rw [Py.run_attempt_ok ((Py.run_bind_ok (inodeAt_run h)).trans rfl)]

omit [DecidableEq H] in
/-- `_create` fails, or adds an inode without contents under a new number. -/
theorem create_cases (a : CreateArgs) (now : Time) (s : Fs H) :
    (create a now s).2 = s ∨
    ∃ ino f, NextNumber s ino ∧ f.data = [] ∧ f.offsets = [] ∧ f.size = 0 ∧
      (create a now s).2 = { s with inodes := (s.inodes.setItem ino f).commit } := by
  unfold create
  cases hp : getattr a.parent s with
  | mk r s₁ =>
    have hs₁ : s₁ = s := by rw [← getattr_state a.parent s, hp]
    subst hs₁
    cases r with
    | error e =>
      rw [Py.run_bind_error hp]
      exact .inl rfl
    | ok p =>
      rw [Py.run_bind_ok hp]
      split
      · exact .inl rfl
      · cases hm : s₁.inodes.max with
        | none =>
          have hgen : genInodeNumber s₁ = (.error .valueError, s₁) := by
            unfold genInodeNumber
            change (Py.ofOption PyError.valueError s₁.inodes.max >>= fun m => return m + 1) s₁ = _
            rw [hm]
            rfl
          rw [Py.run_bind_error hgen]
          exact .inl rfl
        | some m =>
          right
          rw [Py.run_bind_ok (genInodeNumber_run hm)]
          refine ⟨m + 1, _, ⟨m, hm, rfl⟩, ?_, ?_, ?_, getattr_state _ _⟩ <;> rfl

/-- `_remove` fails before it drops a block: the parent is missing, or the entry is refused. -/
def removalRefused {H : Type} (s : Fs H) (inodeP : Nat) (name : Bytes) : Bool :=
  match s.inodes.d.get? inodeP with
  | none => true
  | some p => decide (p.inode ≠ inodeP ∧ p.parentInode = inodeP ∧ p.name ≠ name)

/-- `_remove` fails without a change, or stops among the drops, or takes the inode out after the
    drops. -/
theorem removeInode_cases (cfg : Config) (clock : Nat → Time) (inodeP : Nat) (name : Bytes) (stIno : Nat)
    (s : Fs H) :
    (removeInode cfg clock inodeP name stIno s).2 = s ∨
    ∃ f r g', removalRefused s inodeP name = false ∧ s.inodes.d.get? stIno = some f ∧
      dropBlocks cfg clock f.data s.globals = (r, g') ∧
      ((r ≠ .ok () ∧ (removeInode cfg clock inodeP name stIno s).2 = { s with globals := g' }) ∨
        (r = .ok () ∧ (removeInode cfg clock inodeP name stIno s).2 =
          ⟨(s.inodes.delItem stIno).2, g'⟩)) := by
  unfold removeInode
  cases hp : s.inodes.d.get? inodeP with
  | none =>
    rw [Py.run_bind_error (inodeAt_missing hp)]
    exact .inl rfl
  | some p =>
    rw [Py.run_bind_ok (inodeAt_run hp)]
    split
    · exact .inl rfl
    · rename_i hopen
      cases hf : s.inodes.d.get? stIno with
      | none =>
        rw [Py.run_attempt_error (Py.run_bind_error (inodeAt_missing hf))]
        exact .inl rfl
      | some f =>
        right
        have hstart : removalRefused s inodeP name = false := by
          unfold removalRefused
          rw [hp]
          exact decide_eq_false hopen
        cases hd : dropBlocks cfg clock f.data s.globals with
        | mk r g' =>
          refine ⟨f, r, g', hstart, rfl, hd, ?_⟩
          have hzoom : Fs.onGlobals (dropBlocks cfg clock f.data) s =
              (r, { s with globals := g' }) := Py.run_zoom hd
          cases r with
          | error e =>
            refine .inl ⟨(fun h => by cases h), ?_⟩
            rw [Py.run_attempt_error ((Py.run_bind_ok (inodeAt_run hf)).trans
              (Py.run_bind_error hzoom))]
            split <;> rfl
          | ok _ =>
            refine .inr ⟨rfl, ?_⟩
            have hdel := delInode_run (s := { s with globals := g' })
              ((Dict.contains_iff _).mpr ⟨f, hf⟩)
            rw [Py.run_attempt_ok ((Py.run_bind_ok (inodeAt_run hf)).trans
              ((Py.run_bind_ok hzoom).trans hdel))]

omit [DecidableEq H] in
/-- The copy takes the place of the inode. -/
theorem takePlace_run {fh tempIno : Nat} {s : Fs H} {fNew : FileInode H}
    (ht : s.inodes.d.get? tempIno = some fNew) :
    (do let fNew ← inodeAt tempIno; setInode fh fNew; delInode tempIno : Op H Unit) s =
      (.ok (), { s with inodes := ((s.inodes.setItem fh fNew).delItem tempIno).2 }) := by
  have hc : (s.inodes.setItem fh fNew).d.contains tempIno = true := by
    rw [FSMeta.setItem_d, Dict.contains_iff]
    by_cases e : fh = tempIno
    · exact ⟨fNew, by rw [Dict.get?_set, if_pos e]⟩
    · exact ⟨fNew, by rw [Dict.get?_set, if_neg e, ht]⟩
  rw [Py.run_bind_ok (inodeAt_run ht)]
  exact delInode_run (s := { s with inodes := s.inodes.setItem fh fNew }) hc

/-- The end of a truncation fails without a change, or stops among the drops, or puts the copy in
    the place of the inode. -/
theorem replaceInode_cases (cfg : Config) (env : CallEnv H) (fh tempIno : Nat) (s : Fs H) :
    (replaceInode cfg env fh tempIno s).2 = s ∨
    ∃ f r g', s.inodes.d.get? fh = some f ∧
      dropBlocks cfg env.clock (env.order.run f.data) s.globals = (r, g') ∧
      (((r ≠ .ok () ∨ s.inodes.d.get? tempIno = none) ∧
          (replaceInode cfg env fh tempIno s).2 = { s with globals := g' }) ∨
        ∃ fNew, r = .ok () ∧ s.inodes.d.get? tempIno = some fNew ∧
          (replaceInode cfg env fh tempIno s).2 =
            ⟨((s.inodes.setItem fh fNew).delItem tempIno).2, g'⟩) := by
  unfold replaceInode
  cases hf : s.inodes.d.get? fh with
  | none =>
    rw [Py.run_bind_error (inodeAt_missing hf)]
    exact .inl rfl
  | some f =>
    right
    cases hd : dropBlocks cfg env.clock (env.order.run f.data) s.globals with
    | mk r g' =>
      refine ⟨f, r, g', rfl, hd, ?_⟩
      have hzoom : Fs.onGlobals (dropBlocks cfg env.clock (env.order.run f.data)) s =
          (r, { s with globals := g' }) := Py.run_zoom hd
      rw [Py.run_bind_ok (inodeAt_run hf)]
      cases r with
      | error e =>
        refine .inl ⟨.inl (fun h => by cases h), ?_⟩
        rw [Py.run_bind_error hzoom]
      | ok _ =>
        rw [Py.run_bind_ok hzoom]
        cases ht : s.inodes.d.get? tempIno with
        | none =>
          refine .inl ⟨.inr rfl, ?_⟩
          rw [Py.run_bind_error (inodeAt_missing (s := { s with globals := g' }) ht)]
        | some fNew =>
          exact .inr ⟨fNew, rfl, rfl, congrArg Prod.snd (takePlace_run (s := { s with globals := g' }) ht)⟩

end VeratyFS
