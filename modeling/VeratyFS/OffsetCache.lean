import VeratyFS.FileSystem

/-!
# The offset cache

`offsets` holds the running sums of `raw_size` over a file's blocks.  `retrieve_data` fills it when
it is empty; `truncate_down` starts its copy with an empty one; `write` changes the block list and
never resets it.

* `OffsetsCoherent` — each list is empty or exact.
* `writeKeepsOffsets` — when a write keeps it so.
* `offsets_coherent` — coherence in every run whose writes meet that condition.
* `offsets_stale` — a write, a read and an append end in an incoherent state.
-/

set_option autoImplicit false

namespace VeratyFS

open Pylib

variable {H : Type}

/-- A file's offset cache is empty or exact. -/
def FileInode.OffsetsExact (f : FileInode H) : Prop :=
  f.offsets = [] ∨ f.offsets = runningSums 0 f.data

def OffsetsCoherent (s : Fs H) : Prop :=
  ∀ fh f, s.inodes.d.get? fh = some f → f.OffsetsExact

/-- Files without contents, as `_create` makes them. -/
def FreshFiles (s : Fs H) : Prop :=
  ∀ fh f, s.inodes.d.get? fh = some f → f.data = [] ∧ f.offsets = []

theorem FreshFiles.coherent {s : Fs H} (h : FreshFiles s) : OffsetsCoherent s :=
  fun fh f hf => .inl (h fh f hf).2

theorem OffsetsOnly.exact {f f' : FileInode H} (h : OffsetsOnly f f') (hf : f.OffsetsExact) :
    f'.OffsetsExact := by
  unfold FileInode.OffsetsExact
  rw [h.data]
  rcases h.offsets with e | e
  · rw [e]
    exact hf
  · exact .inr e

theorem Reread.coherent {fh : Nat} {s s' : Fs H} (h : Reread fh s s') (hs : OffsetsCoherent s) :
    OffsetsCoherent s' := by
  intro k f' hk
  obtain ⟨f, hf, ho⟩ := h.get? k f' hk
  exact ho.exact (hs k f hf)

/-- Setting an inode whose cache is exact. -/
theorem OffsetsCoherent.setItem {s : Fs H} (h : OffsetsCoherent s) (fh : Nat) {f : FileInode H}
    (hf : f.OffsetsExact) (g : Globals H) : OffsetsCoherent ⟨s.inodes.setItem fh f, g⟩ :=
  s.inodes.d.forall_set h hf

theorem OffsetsCoherent.delItem {s : Fs H} (h : OffsetsCoherent s) (fh : Nat) {g : Globals H} :
    OffsetsCoherent ⟨(s.inodes.delItem fh).2, g⟩ := s.inodes.forall_delItem h fh

variable [DecidableEq H] {cfg : Config} {P : Packages H}

/-! ## When a write keeps the cache exact -/

/-- The write leaves the block list as it is: there is nothing to store, or the mid-file branch
    cannot read its range. -/
def keepsBlocks (cfg : Config) (P : Packages H) (s : Fs H) (fh offset : Nat) (buf : Bytes)
    (f : FileInode H) : Bool :=
  if inMiddle f offset buf.length then
    match (retrieveData cfg P fh offset buf.length true s).1 with
    | .ok (.whole sd sb eb data) =>
      popBlocks f.data sb (eb + 1 - sb).toNat = f.data ∧
        (dedupPieces cfg P (spliceAt data (max 0 sd) ((buf.length : Int) + max 0 sd) buf)).1 = []
    | _ => true
  else
    (dedupPieces cfg P buf).1 = []

/-- The write leaves the block list as it is, or it appends to a file whose cache is empty. -/
def writeKeepsOffsets (cfg : Config) (P : Packages H) (s : Fs H) (fh offset : Nat) (buf : Bytes) :
    Bool :=
  match s.inodes.d.get? fh with
  | none => true
  | some f => keepsBlocks cfg P s fh offset buf f ||
      decide (¬ inMiddle f offset buf.length ∧ f.offsets = [])

def FsStep.keepsOffsets (cfg : Config) (P : Packages H) (s : Fs H) : FsStep H → Bool
  | .write fh offset buf _ => writeKeepsOffsets cfg P s fh offset buf
  | _ => true

/-! ## Steps -/

theorem dedup_nil {data : Bytes} (h : (dedupPieces cfg P data).1 = []) (g : Globals H) :
    dedup cfg P data g = (.ok [], g) := by
  unfold dedup
  rw [h]
  rfl

theorem write_coherent {s : Fs H} {fh offset : Nat} {buf : Bytes} {now : Time}
    (hs : OffsetsCoherent s) (hc : writeKeepsOffsets cfg P s fh offset buf = true) :
    OffsetsCoherent (write cfg P fh offset buf now s).2 := by
  cases hf : s.inodes.d.get? fh with
  | none =>
    rw [write_missing hf]
    exact hs
  | some f =>
    unfold writeKeepsOffsets keepsBlocks at hc
    rw [hf] at hc
    dsimp only at hc
    by_cases hm : inMiddle f offset buf.length
    · rw [if_pos hm, decide_eq_false (fun h => h.1 hm), Bool.or_false] at hc
      rcases write_middle cfg P now hf hm with
        ⟨_, hk⟩ | ⟨sd, sb, eb, data, s₁, f₁, blks, g', hr, hk, hf₁, ho, hd, hw⟩
      · exact hk.coherent hs
      · rw [hr] at hc
        obtain ⟨hpop, hnil⟩ := of_decide_eq_true hc
        rw [dedup_nil hnil] at hd
        cases hd
        rw [hw]
        refine (hk.coherent hs).setItem fh ?_ s₁.globals
        have hdata : replaceBlocks f₁.data sb eb [] = f₁.data := by
          rw [← ho.data] at hpop
          exact hpop
        unfold FileInode.OffsetsExact FileInode.written
        rw [hdata]
        exact ho.exact (hs fh f hf)
    · rw [if_neg hm] at hc
      obtain ⟨blks, g', hd, hw⟩ := write_append cfg P now hf hm
      rw [hw]
      refine hs.setItem fh ?_ g'
      rcases Bool.or_eq_true_iff.mp hc with hnil | hoff
      · rw [dedup_nil (of_decide_eq_true hnil)] at hd
        cases hd
        unfold FileInode.OffsetsExact FileInode.written
        rw [List.append_nil]
        exact hs fh f hf
      · exact .inl (of_decide_eq_true hoff).2

/-- **Each step keeps the offset caches coherent when its write does.** -/
theorem OffsetsCoherent.step {s : Fs H} (hs : OffsetsCoherent s) {e : FsStep H}
    (hc : e.keepsOffsets cfg P s = true) : OffsetsCoherent (e.exec cfg P s) := by
  cases e with
  | create a now =>
    change OffsetsCoherent (create a now s).2
    rcases create_cases a now s with h | ⟨ino, f, _, _, hoff, _, h⟩
    · rw [h]
      exact hs
    · rw [h]
      have hset := hs.setItem ino (f := f) (.inl hoff) s.globals
      intro k f' hk
      rw [FSMeta.commit_d] at hk
      exact hset k f' hk
  | read fh offset length now => exact (read_keeps cfg P fh offset length now s).coherent hs
  | write fh offset buf now => exact write_coherent hs hc
  | copyInode fh =>
    change OffsetsCoherent (copyInode fh s).2
    cases h : s.inodes.d.get? fh with
    | none =>
      rw [copyInode_missing h]
      exact hs
    | some f =>
      obtain ⟨tempIno, _, hrun⟩ := copyInode_run h
      rw [hrun]
      exact hs.setItem tempIno (.inl rfl) s.globals
  | replaceInode fh tempIno env =>
    change OffsetsCoherent (replaceInode cfg env fh tempIno s).2
    rcases replaceInode_cases cfg env fh tempIno s with
      h | ⟨f, r, g', _, _, ⟨_, h⟩ | ⟨fNew, _, ht, h⟩⟩
    · rw [h]
      exact hs
    · rw [h]
      exact hs
    · rw [h]
      have hset := hs.setItem fh (hs tempIno fNew ht) g'
      exact hset.delItem tempIno
  | setAttributes inode a now =>
    change OffsetsCoherent (setAttributes inode a now s).2
    unfold setAttributes
    cases h : s.inodes.d.get? inode with
    | none =>
      rw [Py.run_bind_error (inodeAt_missing h)]
      exact hs
    | some f =>
      rw [Py.run_bind_ok (inodeAt_run h)]
      exact hs.setItem inode (f := f.withAttributes a now) (hs inode f h) s.globals
  | remove inodeP name stIno clock =>
    change OffsetsCoherent (removeInode cfg clock inodeP name stIno s).2
    rcases removeInode_cases cfg clock inodeP name stIno s with
      h | ⟨f, r, g', _, _, _, ⟨_, h⟩ | ⟨_, h⟩⟩
    · rw [h]
      exact hs
    · rw [h]
      exact hs
    · rw [h]
      exact hs.delItem stIno
  | flush =>
    intro k f' hk
    change s.inodes.commit.d.get? k = some f' at hk
    rw [FSMeta.commit_d] at hk
    exact hs k f' hk
  | writerStep env => exact hs
  | collect clock => exact hs

/-! ## Runs -/

theorem truncating_keepsOffsets (s : Fs H) (e : FsStep H) (h : e.truncating s) :
    e.keepsOffsets cfg P s = true := by
  cases e with
  | write fh offset buf now =>
    obtain ⟨f, hf, hm, hoff⟩ := h
    unfold FsStep.keepsOffsets writeKeepsOffsets
    dsimp only
    rw [hf]
    simp [hm, hoff]
  | _ => rfl

/-- **Offset-cache coherence.**  From freshly created files, in every run of file operations, writer
steps and collector passes whose writes either leave the block list alone or append to a file whose
offset cache is empty, every inode's `offsets` is empty or exact. -/
theorem offsets_coherent {s s' : Fs H} {es : List (OpStep H)} (hfresh : FreshFiles s)
    (hrun : ((operations cfg P).meeting fun s e =>
      e.requires (FsStep.keepsOffsets cfg P) s = true).Run s es s') : OffsetsCoherent s' := by
  obtain ⟨es', hrun'⟩ := operations_run truncating_keepsOffsets hrun
  exact hrun'.invariant (fun s e s' hs hstep => by
    obtain ⟨rfl, hc⟩ := hstep
    exact hs.step hc) hfresh.coherent

/-- The shipped configuration over two stores and one mirror. -/
def sampleFs : Fs Bytes := .fresh 1 Nat.one_pos [.fresh 0, .fresh 1] [.fresh 0]

theorem sampleStores_numbered : Numbered sampleFs.globals.datastore := by
  intro j chunk hj
  match j, hj with
  | 0, hj => exact (Option.some.inj hj).symm
  | 1, hj => exact (Option.some.inj hj).symm

theorem sampleFs_freshFiles : FreshFiles sampleFs := by
  intro fh f hf
  unfold sampleFs Fs.fresh initFileSystem at hf
  rw [FSMeta.setItem_d, Dict.get?_set] at hf
  split at hf
  · cases hf
    exact ⟨rfl, rfl⟩
  · cases hf

/-- A file is written, read, cut to nothing and written again. -/
def coherentSteps : List (OpStep Bytes) :=
  [.create ⟨1, [97], 33188, 0, 0, 0, none⟩ 0, .write 2 0 [7] 0, .read 2 0 1 0,
    .setattr 2 { stSize := some 0 } ⟨fun _ => 0, SetOrder.listed _⟩, .write 2 0 [8, 9] 0]

theorem offsets_coherent_sample :
    OffsetsCoherent (System.after (fun e s => OpStep.exec .shipped .plain s e) sampleFs coherentSteps) :=
  offsets_coherent sampleFs_freshFiles
    (System.run_meeting_after _ (OpStep.requires (FsStep.keepsOffsets .shipped .plain)) _ _
      (by decide +kernel))

/-- A file is written, read and appended to. -/
def staleSteps : List (OpStep Bytes) :=
  [.create ⟨1, [97], 33188, 0, 0, 0, none⟩ 0, .write 2 0 [7] 0, .read 2 0 1 0, .write 2 1 [8] 0]

/-- The last write of `staleSteps` leaves the offsets of the first. -/
theorem offsets_stale : ¬ ∀ (s s' : Fs Bytes) (es : List (OpStep Bytes)), FreshFiles s →
    (operations .shipped .plain).Run s es s' → OffsetsCoherent s' := by
  intro h
  have hrun := System.run_after (fun e s => OpStep.exec .shipped .plain s e) staleSteps sampleFs
  have hcoherent := h _ _ _ sampleFs_freshFiles hrun
  have hstale : ((System.after (fun e s => OpStep.exec .shipped .plain s e) sampleFs
      staleSteps).inodes.d.get? 2).map (fun f => (f.offsets, runningSums 0 f.data)) =
      some ([1], [1, 2]) := by decide +kernel
  obtain ⟨f, hf, he⟩ := Option.map_eq_some_iff.mp hstale
  have hoff : f.offsets = [1] := congrArg Prod.fst he
  have hsums : runningSums 0 f.data = [1, 2] := congrArg Prod.snd he
  rcases hcoherent 2 f hf with e | e
  · rw [hoff] at e
    cases e
  · rw [hoff, hsums] at e
    cases e

end VeratyFS
